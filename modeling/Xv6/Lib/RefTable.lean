import Mathlib.Tactic

/-!
Reference-counted tables. An entry in use has a count and the name of the thing it
stands for; an entry whose count drops to zero is free again. A thing has at most one
entry, so that taking a reference and dropping it leaves the table as it was.
-/

namespace RefTable

abbrev Table (ι ν : Type) := ι → Option (ℕ × ν)

variable {ι ν : Type} {T : Table ι ν} {i j : ι} {n m : ν}

def count (T : Table ι ν) (i : ι) : ℕ := (T i).elim 0 Prod.fst

structure Ok (T : Table ι ν) : Prop where
  pos : ∀ i n, T i ≠ some (0, n)
  unique : ∀ i j r q n, T i = some (r, n) → T j = some (q, n) → i = j

/-- Entry `i` may take a reference to `n`: it stands for `n`, or it is free and no entry
stands for `n`. -/
def Fits (T : Table ι ν) (i : ι) (n : ν) : Prop :=
  (T i = none ∧ ∀ j r, T j ≠ some (r, n)) ∨ ∃ r, T i = some (r, n)

theorem Fits.of_some {r : ℕ} (h : T i = some (r, n)) : Fits T i n := .inr ⟨r, h⟩

theorem count_eq_zero (h : Ok T) : count T i = 0 ↔ T i = none := by
  unfold count
  cases hi : T i with
  | none => simp
  | some e =>
    obtain ⟨r, n⟩ := e
    have : r ≠ 0 := by
      rintro rfl
      exact h.pos i n hi
    simpa using this

variable [DecidableEq ι]

/-- One more reference to `n`, through entry `i`. -/
def take (T : Table ι ν) (i : ι) (n : ν) : Table ι ν :=
  Function.update T i (some (count T i + 1, n))

/-- One reference less through entry `i`. -/
def drop (T : Table ι ν) (i : ι) : Table ι ν :=
  Function.update T i (match T i with
    | some (r + 2, n) => some (r + 1, n)
    | _ => none)

@[simp] theorem take_self : take T i n i = some (count T i + 1, n) := Function.update_self ..

theorem take_of_ne (h : j ≠ i) : take T i n j = T j := Function.update_of_ne h _ _

theorem drop_of_ne (h : j ≠ i) : drop T i j = T j := Function.update_of_ne h _ _

theorem count_take (i j : ι) (n : ν) :
    count (take T i n) j = count T j + if j = i then 1 else 0 := by
  by_cases h : j = i
  · rw [h, count, take_self, if_pos rfl]
    rfl
  · rw [count, take_of_ne h, if_neg h, count, Nat.add_zero]

theorem count_drop (i j : ι) : count (drop T i) j = count T j - if j = i then 1 else 0 := by
  by_cases h : j = i
  · rw [h, if_pos rfl, count, drop, Function.update_self, count]
    rcases T i with _ | ⟨_ | _ | r, n⟩ <;> rfl
  · rw [count, drop_of_ne h, if_neg h, count, Nat.sub_zero]

theorem drop_take (h : Ok T) (hf : Fits T i n) : drop (take T i n) i = T := by
  funext j
  by_cases hj : j = i
  · rw [hj, drop, Function.update_self, take_self, count]
    rcases hf with ⟨hi, -⟩ | ⟨r, hi⟩
    · rw [hi]
      rfl
    · cases r with
      | zero => exact absurd hi (h.pos i n)
      | succ r =>
        rw [hi]
        rfl
  · rw [drop_of_ne hj, take_of_ne hj]

/-- A reference that fits after another one was taken fits without it. -/
theorem Fits.of_take (hf : Fits T i n) (hg : Fits (take T i n) j m) : Fits T j m := by
  by_cases hj : j = i
  · subst hj
    rcases hg with ⟨hn, -⟩ | ⟨r, hr⟩
    · rw [take_self] at hn
      cases hn
    · rw [take_self, Option.some.injEq, Prod.mk.injEq] at hr
      rwa [← hr.2]
  · rcases hg with ⟨hn, hall⟩ | ⟨r, hr⟩
    · rw [take_of_ne hj] at hn
      refine .inl ⟨hn, fun k r hk => ?_⟩
      by_cases hki : k = i
      · subst hki
        rcases hf with ⟨hi, -⟩ | ⟨q, hi⟩
        · rw [hi] at hk
          cases hk
        · rw [hi, Option.some.injEq, Prod.mk.injEq] at hk
          exact hall k _ (by rw [take_self, hk.2])
      · exact hall k r (by rwa [take_of_ne hki])
    · rw [take_of_ne hj] at hr
      exact .inr ⟨r, hr⟩

/-- Taking a second reference before the first one is dropped. -/
theorem drop_take_take (h : Ok T) (hf : Fits T i n) (hg : Fits (take T i n) j m) :
    drop (take (take T i n) j m) i = take T j m := by
  by_cases hj : j = i
  · subst hj
    have hm : n = m := by
      rcases hg with ⟨hn, -⟩ | ⟨r, hr⟩
      · rw [take_self] at hn
        cases hn
      · rw [take_self, Option.some.injEq, Prod.mk.injEq] at hr
        exact hr.2
    subst hm
    funext k
    by_cases hk : k = j
    · rw [hk, drop, Function.update_self, take_self, take_self, count_take, if_pos rfl]
    · rw [drop_of_ne hk, take_of_ne hk]
  · have hdt := drop_take h hf
    funext k
    by_cases hk : k = i
    · have hi := congrFun hdt k
      rw [hk] at hi ⊢
      rw [take_of_ne fun he => hj he.symm, ← hi, drop, drop, Function.update_self,
        Function.update_self, take_of_ne fun he => hj he.symm]
    · rw [drop_of_ne hk]
      by_cases hkj : k = j
      · rw [hkj, take_self, take_self, count_take, if_neg hj, Nat.add_zero]
      · rw [take_of_ne hkj, take_of_ne hkj, take_of_ne hk]

theorem Ok.afterTake (h : Ok T) (hf : Fits T i n) : Ok (take T i n) := by
  have hother : ∀ k r, k ≠ i → T k ≠ some (r, n) := by
    intro k r hk hkn
    rcases hf with ⟨-, hall⟩ | ⟨q, hi⟩
    · exact hall k r hkn
    · exact hk (h.unique k i r q n hkn hi)
  constructor
  · intro k m hk
    by_cases hki : k = i
    · subst hki
      rw [take_self] at hk
      cases hk
    · rw [take_of_ne hki] at hk
      exact h.pos k m hk
  · intro a b r q m ha hb
    by_cases hai : a = i <;> by_cases hbi : b = i
    · rw [hai, hbi]
    · subst hai
      rw [take_self, Option.some.injEq, Prod.mk.injEq] at ha
      rw [take_of_ne hbi, ← ha.2] at hb
      exact absurd hb (hother b q hbi)
    · subst hbi
      rw [take_self, Option.some.injEq, Prod.mk.injEq] at hb
      rw [take_of_ne hai, ← hb.2] at ha
      exact absurd ha (hother a r hai)
    · rw [take_of_ne hai] at ha
      rw [take_of_ne hbi] at hb
      exact h.unique a b r q m ha hb

theorem of_drop (h : Ok T) {r : ℕ} (hj : drop T i j = some (r, n)) :
    r ≠ 0 ∧ ∃ q, T j = some (q, n) := by
  by_cases hji : j = i
  · subst hji
    rw [drop, Function.update_self] at hj
    rcases hT : T j with _ | ⟨_ | _ | q, m⟩ <;> rw [hT] at hj <;> simp at hj
    exact ⟨by omega, q + 1 + 1, by rw [hj.2]⟩
  · rw [drop_of_ne hji] at hj
    refine ⟨?_, r, hj⟩
    rintro rfl
    exact h.pos j n hj

theorem Ok.afterDrop (h : Ok T) : Ok (drop T i) := by
  constructor
  · intro k m hk
    exact (of_drop h hk).1 rfl
  · intro a b r q m ha hb
    obtain ⟨-, r', ha'⟩ := of_drop h ha
    obtain ⟨-, q', hb'⟩ := of_drop h hb
    exact h.unique a b r' q' m ha' hb'

end RefTable
