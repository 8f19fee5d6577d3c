import Mathlib.Tactic

/-!
Postconditions of computations with a state and faults. `Post m s Q E` says that `m`
started in `s` either returns with `Q` or stops with a fault and `E`. The equations
below run a computation symbolically; `Post.seq` cites the specification of a call.
-/

namespace Hoare
variable {ε σ α β : Type}

def Post (m : EStateM ε σ α) (s : σ) (Q : α → σ → Prop) (E : ε → σ → Prop) : Prop :=
  match m s with
  | .ok a t => Q a t
  | .error e t => E e t

variable {m : EStateM ε σ α} {f : α → EStateM ε σ β} {s : σ}
  {Q : α → σ → Prop} {R : β → σ → Prop} {E : ε → σ → Prop}

@[simp] theorem post_bind :
    Post (m >>= f) s R E ↔ Post m s (fun a t => Post (f a) t R E) E := by
  simp only [Post, bind, EStateM.bind]
  cases m s <;> rfl

@[simp] theorem post_map {g : α → β} :
    Post (g <$> m) s R E ↔ Post m s (fun a t => R (g a) t) E := by
  simp only [Post, Functor.map, EStateM.map]
  cases m s <;> rfl

@[simp] theorem post_pure {a : α} : Post (pure a : EStateM ε σ α) s Q E ↔ Q a s := Iff.rfl

@[simp] theorem post_get {Q : σ → σ → Prop} :
    Post (get : EStateM ε σ σ) s Q E ↔ Q s s := Iff.rfl

@[simp] theorem post_modify {g : σ → σ} {Q : PUnit → σ → Prop} :
    Post (modify g : EStateM ε σ PUnit) s Q E ↔ Q ⟨⟩ (g s) := Iff.rfl

@[simp] theorem post_set {s' : σ} {Q : PUnit → σ → Prop} :
    Post (set s' : EStateM ε σ PUnit) s Q E ↔ Q ⟨⟩ s' := Iff.rfl

@[simp] theorem post_throw {e : ε} : Post (throw e : EStateM ε σ α) s Q E ↔ E e s := Iff.rfl

@[simp] theorem post_ite {c : Prop} [Decidable c] {m n : EStateM ε σ α} :
    Post (if c then m else n) s Q E ↔ (c → Post m s Q E) ∧ (¬c → Post n s Q E) := by
  by_cases h : c <;> simp [h]

theorem Post.mono {Q' : α → σ → Prop} {E' : ε → σ → Prop} (h : Post m s Q E)
    (hQ : ∀ a t, Q a t → Q' a t) (hE : ∀ e t, E e t → E' e t) : Post m s Q' E' := by
  unfold Post at *
  cases hm : m s with
  | ok a t => rw [hm] at h; exact hQ a t h
  | error e t => rw [hm] at h; exact hE e t h

theorem Post.imp {Q' : α → σ → Prop} (h : Post m s Q E) (hQ : ∀ a t, Q a t → Q' a t) :
    Post m s Q' E := h.mono hQ fun _ _ he => he

/-- Sequencing through the specification of the first computation. -/
theorem Post.seq (h : Post m s Q E) (hf : ∀ a t, Q a t → Post (f a) t R E) :
    Post (m >>= f) s R E := post_bind.mpr (h.imp hf)

theorem Post.of_ok {a : α} {t : σ} (h : Post m s Q E) (hm : m s = .ok a t) : Q a t := by
  unfold Post at h
  rw [hm] at h
  exact h

theorem Post.of_error {e : ε} {t : σ} (h : Post m s Q E) (hm : m s = .error e t) : E e t := by
  unfold Post at h
  rw [hm] at h
  exact h

theorem post_of_ok {a : α} {t : σ} (hm : m s = .ok a t) (h : Q a t) : Post m s Q E := by
  unfold Post
  rw [hm]
  exact h

theorem post_iff : Post m s Q E ↔
    (∀ a t, m s = .ok a t → Q a t) ∧ (∀ e t, m s = .error e t → E e t) := by
  constructor
  · exact fun h => ⟨fun _ _ => h.of_ok, fun _ _ => h.of_error⟩
  · rintro ⟨h₁, h₂⟩
    unfold Post
    cases hm : m s with
    | ok a t => exact h₁ a t hm
    | error e t => exact h₂ e t hm

theorem Post.and {Q' : α → σ → Prop} {E' : ε → σ → Prop} (h : Post m s Q E)
    (h' : Post m s Q' E') :
    Post m s (fun a t => Q a t ∧ Q' a t) (fun e t => E e t ∧ E' e t) :=
  post_iff.mpr ⟨fun _ _ hm => ⟨h.of_ok hm, h'.of_ok hm⟩,
    fun _ _ hm => ⟨h.of_error hm, h'.of_error hm⟩⟩

/-- A specification of the results beside one of results and faults. -/
theorem Post.also {Q' : α → σ → Prop} (h : Post m s Q E) (h' : Post m s Q' fun _ _ => True) :
    Post m s (fun a t => Q a t ∧ Q' a t) E :=
  (h.and h').mono (fun _ _ hq => hq) fun _ _ he => he.1

/-- A computation whose faults are all excluded returns. -/
theorem Post.returns (h : Post m s Q fun _ _ => False) : ∃ a t, m s = .ok a t ∧ Q a t := by
  unfold Post at h
  cases hm : m s with
  | ok a t => rw [hm] at h; exact ⟨a, t, rfl, h⟩
  | error e t => rw [hm] at h; exact h.elim

theorem Post.eq_ok {a : α} {t : σ}
    (h : Post m s (fun b u => b = a ∧ u = t) fun _ _ => False) : m s = .ok a t := by
  obtain ⟨_, _, hm, rfl, rfl⟩ := h.returns
  exact hm

theorem run_bind {a : α} {t : σ} (h : m s = .ok a t) : (m >>= f) s = f a t := by
  show EStateM.bind m f s = _
  rw [EStateM.bind, h]

/-- What a run returned, for evaluating one. -/
def returned : EStateM.Result ε σ α → Option α
  | .ok a _ => some a
  | .error _ _ => none

/-- The state a run ended in. -/
def final : EStateM.Result ε σ α → σ
  | .ok _ t => t
  | .error _ t => t

theorem eq_ok_of_returned {r : EStateM.Result ε σ α} {a : α} (h : returned r = some a) :
    r = .ok a (final r) := by
  cases r with
  | ok b t =>
    cases h
    rfl
  | error e t => cases h

theorem exists_of_returned {r : EStateM.Result ε σ α} {a : α} (h : returned r = some a) :
    ∃ t, r = .ok a t := ⟨_, eq_ok_of_returned h⟩

-- a goal about a concrete state must not make the elaborator run the computation
attribute [irreducible] Post

end Hoare
