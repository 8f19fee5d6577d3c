import Xv6.Lib.Transition

/-!
Monitors: a state that threads share under one lock, with one channel to sleep on. A thread
that holds the lock goes through its code one action at a time. `wait` gives the lock up and
falls asleep in one step, and goes on with the lock; `notify` wakes all sleepers, and a sleeper
may also wake up for no reason. Outside the lock threads go on as `free` allows.
-/

namespace Monitor

/-- What a thread does that holds the lock. -/
inductive Action (σ κ ο : Type)
  | move (s : σ) (k : κ)
  | wait (k : κ)
  | notify (k : κ)
  | leave (o : ο)

/-- Where a thread is: outside, about to acquire the lock, holding it, or asleep. -/
inductive Place (κ ο : Type)
  | out (o : ο)
  | ready (k : κ)
  | inside (k : κ)
  | asleep (k : κ)
  deriving DecidableEq

structure System (σ κ ο : Type) where
  code : ℕ → κ → σ → Action σ κ ο
  /-- A thread outside calls into the monitor. -/
  entry : ℕ → ο → σ → κ → σ → Prop
  /-- A thread outside does something else. -/
  free : ℕ → ο → σ → ο → σ → Prop

structure Machine (σ κ ο : Type) where
  shared : σ
  lock : Option ℕ
  thread : ℕ → Place κ ο

variable {σ κ ο : Type}

def Place.woken : Place κ ο → Place κ ο
  | asleep k => ready k
  | x => x

namespace Machine
variable (m : Machine σ κ ο)

/-- Thread `p` comes to `x`, and leaves the shared state and the lock like this. -/
def goto (p : ℕ) (s : σ) (l : Option ℕ) (x : Place κ ο) : Machine σ κ ο :=
  ⟨s, l, Function.update m.thread p x⟩

def wakeAll : Machine σ κ ο := { m with thread := fun q => (m.thread q).woken }

/-- Thread `p` does an action of its code. -/
def act (p : ℕ) : Action σ κ ο → Machine σ κ ο
  | .move s k => m.goto p s m.lock (.inside k)
  | .wait k => m.goto p m.shared none (.asleep k)
  | .notify k => m.wakeAll.goto p m.shared m.lock (.inside k)
  | .leave o => m.goto p m.shared none (.out o)

end Machine

inductive Step (S : System σ κ ο) (m : Machine σ κ ο) : ℕ → Machine σ κ ο → Prop
  | call (p : ℕ) (o : ο) (k : κ) (s : σ) (hp : m.thread p = .out o)
      (he : S.entry p o m.shared k s) : Step S m p (m.goto p s m.lock (.ready k))
  | acquire (p : ℕ) (k : κ) (hp : m.thread p = .ready k) (hl : m.lock = none) :
      Step S m p (m.goto p m.shared (some p) (.inside k))
  | act (p : ℕ) (k : κ) (hp : m.thread p = .inside k) :
      Step S m p (m.act p (S.code p k m.shared))
  | wake (p : ℕ) (k : κ) (hp : m.thread p = .asleep k) :
      Step S m p (m.goto p m.shared m.lock (.ready k))
  | free (p : ℕ) (o o' : ο) (s : σ) (hp : m.thread p = .out o)
      (hf : S.free p o m.shared o' s) : Step S m p (m.goto p s m.lock (.out o'))

/-- Whoever is inside has the lock. -/
def Locked (m : Machine σ κ ο) : Prop := ∀ p k, m.thread p = .inside k → m.lock = some p

/-- An annotation of a system: what holds of the shared state while nobody is inside, what a
thread knows where it is, the reason for which threads sleep, and the places inside from which a
thread comes to wake them. -/
structure Notes (σ κ ο : Type) where
  rest : σ → Prop
  knows : ℕ → σ → Place κ ο → Prop
  reason : σ → Prop
  notifies : κ → Prop

namespace Notes
variable (A : Notes σ κ ο)

/-- What another thread knows outside the lock survives a change. -/
def StableOut (p : ℕ) (s s' : σ) : Prop :=
  ∀ q, q ≠ p → ∀ x, (∀ k, x ≠ .inside k) → A.knows q s x → A.knows q s' x

structure Stable (p : ℕ) (s s' : σ) : Prop where
  rest : A.rest s → A.rest s'
  knows : ∀ q, q ≠ p → ∀ x, A.knows q s x → A.knows q s' x
  reason : A.reason s → A.reason s'

/-- The action of thread `p` at `k` keeps the annotation. -/
def Keeps (p : ℕ) (k : κ) (s : σ) : Action σ κ ο → Prop
  | .move s' j => A.knows p s' (.inside j) ∧ A.StableOut p s s' ∧
      (A.reason s ∨ A.notifies k → A.reason s' ∨ A.notifies j)
  | .wait j => A.knows p s (.asleep j) ∧ A.rest s ∧ A.reason s
  | .notify j => A.knows p s (.inside j)
  | .leave o => A.knows p s (.out o) ∧ A.rest s ∧ (A.notifies k → A.reason s)

/-- The annotation is right. Each obligation is about one thread. -/
structure Proves (S : System σ κ ο) : Prop where
  act : ∀ p k s, A.knows p s (.inside k) → A.Keeps p k s (S.code p k s)
  call : ∀ p o s k s', A.knows p s (.out o) → S.entry p o s k s' →
    A.knows p s' (.ready k) ∧ A.Stable p s s'
  free : ∀ p o s o' s', A.knows p s (.out o) → S.free p o s o' s' →
    A.knows p s' (.out o') ∧ A.Stable p s s'
  acquire : ∀ p s k, A.rest s → A.knows p s (.ready k) → A.knows p s (.inside k)
  wake : ∀ p s k, A.knows p s (.asleep k) → A.knows p s (.ready k)

/-- The annotation holds in a state: a sleeper has a reason to sleep, or a thread is inside that
has still to wake it. -/
structure Holds (m : Machine σ κ ο) : Prop where
  locked : Locked m
  rest : m.lock = none → A.rest m.shared
  knows : ∀ p, A.knows p m.shared (m.thread p)
  asleep : ∀ p k, m.thread p = .asleep k →
    A.reason m.shared ∨ ∃ q j, m.thread q = .inside j ∧ A.notifies j

end Notes

section
variable {S : System σ κ ο} {A : Notes σ κ ο} {m n : Machine σ κ ο} {p q : ℕ} {k : κ} {s : σ}
  {l : Option ℕ} {x : Place κ ο}

@[grind =] theorem goto_shared : (m.goto p s l x).shared = s := rfl

@[grind =] theorem goto_lock : (m.goto p s l x).lock = l := rfl

@[grind =] theorem goto_thread : (m.goto p s l x).thread q = if q = p then x else m.thread q :=
  Function.update_apply ..

@[grind =] theorem wakeAll_thread : m.wakeAll.thread q = (m.thread q).woken := rfl

theorem woken_cases (x : Place κ ο) : (x.woken = x ∧ ∀ k, x ≠ .asleep k) ∨
    ∃ k, x = .asleep k ∧ x.woken = .ready k := by
  cases x with
  | asleep k => exact .inr ⟨k, rfl, rfl⟩
  | _ => exact .inl ⟨rfl, by simp⟩

/-- Only one thread is inside. -/
theorem Locked.unique (h : Locked m) {j : κ} (hp : m.thread p = .inside k)
    (hq : m.thread q = .inside j) : p = q := by
  have := h q j hq
  rw [h p k hp] at this
  exact Option.some.inj this

theorem Notes.Holds.goto (h : A.Holds m) (hp : ∀ k, m.thread p ≠ .inside k)
    (hx : ∀ k, x ≠ .inside k ∧ x ≠ .asleep k) (hk : A.knows p s x) (hs : A.Stable p m.shared s) :
    A.Holds (m.goto p s m.lock x) := by
  obtain ⟨hlocked, hrest, hknows, hasleep⟩ := h
  refine ⟨fun q k hq => by grind [Locked], fun hl => hs.rest (hrest hl), fun q => ?_,
    fun q k hq => ?_⟩
  · have := hs.knows q
    grind
  · refine (hasleep q k (by grind)).imp hs.reason ?_
    rintro ⟨r, j, hj, hN⟩
    exact ⟨r, j, by grind, hN⟩

theorem Notes.Holds.act (h : A.Holds m) (hA : A.Proves S) (hp : m.thread p = .inside k)
    {a : Action σ κ ο} (ha : A.Keeps p k m.shared a) : A.Holds (m.act p a) := by
  -- nobody else is inside, so whoever has still to wake a sleeper is this thread
  have hout : ∀ q j, q ≠ p → m.thread q ≠ .inside j := fun q j hqp hq =>
    hqp (h.locked.unique hq hp)
  have hself : ∀ q i, m.thread q = .asleep i → A.reason m.shared ∨ A.notifies k := fun q i hq => by
    have := h.asleep q i hq
    grind
  obtain ⟨hlocked, -, hknows, -⟩ := h
  have hl := hlocked p k hp
  cases a with
  | move s' j =>
    obtain ⟨hk, hst, hN⟩ := ha
    exact ⟨fun q i hq => by grind [Machine.act], fun h0 => by grind [Machine.act],
      fun q => by grind [Machine.act, StableOut], fun q i hq =>
        (hN (hself q i (by grind [Machine.act]))).imp_right fun hj =>
          ⟨p, j, by grind [Machine.act], hj⟩⟩
  | wait j =>
    obtain ⟨hk, hs, hr⟩ := ha
    exact ⟨fun q i hq => by grind [Machine.act], fun _ => hs, fun q => by grind [Machine.act],
      fun _ _ _ => .inl hr⟩
  | notify j =>
    have hk : A.knows p m.shared (.inside j) := ha
    have hw := fun q => woken_cases (m.thread q)
    have hwake := hA.wake
    exact ⟨fun q i hq => by grind [Machine.act], fun h0 => by grind [Machine.act],
      fun q => by grind [Machine.act], fun q i hq => by grind [Machine.act]⟩
  | leave o =>
    obtain ⟨hk, hs, hN⟩ := ha
    exact ⟨fun q i hq => by grind [Machine.act], fun _ => hs, fun q => by grind [Machine.act],
      fun q i hq => .inl ((hself q i (by grind [Machine.act])).elim id hN)⟩

/-- A right annotation holds all along. -/
theorem Notes.Holds.step (h : A.Holds m) (hA : A.Proves S) (hs : Step S m p n) : A.Holds n := by
  have hk := h.knows p
  cases hs with
  | call o k s hp he =>
    rw [hp] at hk
    obtain ⟨h₁, h₂⟩ := hA.call p o _ k s hk he
    exact h.goto (by simp [hp]) (by simp) h₁ h₂
  | free o o' s hp hf =>
    rw [hp] at hk
    obtain ⟨h₁, h₂⟩ := hA.free p o _ o' s hk hf
    exact h.goto (by simp [hp]) (by simp) h₁ h₂
  | wake k hp =>
    rw [hp] at hk
    exact h.goto (by simp [hp]) (by simp) (hA.wake p _ k hk) ⟨id, fun _ _ _ => id, id⟩
  | act k hp =>
    rw [hp] at hk
    exact h.act hA hp (hA.act p k _ hk)
  | acquire k hp hl =>
    rw [hp] at hk
    have hin := hA.acquire p _ k (h.rest hl) hk
    obtain ⟨hlocked, -, hknows, hasleep⟩ := h
    exact ⟨fun q i hq => by grind [Locked], fun h0 => by grind, fun q => by grind,
      fun q i hq => by grind [Locked]⟩

/-- All threads start outside. -/
theorem Notes.Proves.holds (hA : A.Proves S) {o : ο} (hr : A.rest s)
    (hk : ∀ p, A.knows p s (.out o))
    (h : Transition.Reachable (· = ⟨s, none, fun _ => .out o⟩) (Step S) m) : A.Holds m := by
  refine Transition.Reachable.invariant ?_ (fun m p n hm hs => hm.step hA hs) h
  rintro m rfl
  exact ⟨fun p k hp => (by cases hp), fun _ => hr, hk, fun p k hp => (by cases hp)⟩

/-! ### Places where nobody sleeps -/

/-- A thread comes to these places only by waking all sleepers. -/
structure WakesFirst (S : System σ κ ο) (quiet : κ → Prop) : Prop where
  move : ∀ p k s s' j, S.code p k s = .move s' j → ¬quiet j
  wait : ∀ p k s j, S.code p k s = .wait j → ¬quiet j
  entry : ∀ p o s k s', S.entry p o s k s' → ¬quiet k

/-- Nobody sleeps while a thread is at such a place. -/
structure AwakeAt (quiet : κ → Prop) (m : Machine σ κ ο) : Prop where
  locked : Locked m
  out : ∀ p k, m.thread p = .ready k ∨ m.thread p = .asleep k → ¬quiet k
  inside : ∀ q k, m.thread q = .inside k → quiet k → ∀ p j, m.thread p ≠ .asleep j

theorem AwakeAt.act {quiet : κ → Prop} (h : AwakeAt quiet m) (hp : m.thread p = .inside k)
    {a : Action σ κ ο} (hmove : ∀ s j, a = .move s j → ¬quiet j)
    (hwait : ∀ j, a = .wait j → ¬quiet j) : AwakeAt quiet (m.act p a) := by
  obtain ⟨hlocked, hout, -⟩ := h
  have hl := hlocked p k hp
  have honly : ∀ q j, q ≠ p → m.thread q ≠ .inside j := fun q j hqp hq =>
    hqp (hlocked.unique hq hp)
  have hw := fun q => woken_cases (m.thread q)
  cases a with
  | move s' j =>
    have hj := hmove s' j rfl
    exact ⟨fun q i hq => by grind [Machine.act], fun q i hq => by grind [Machine.act],
      fun q i hq hi r d => by grind [Machine.act]⟩
  | wait j =>
    have hj := hwait j rfl
    exact ⟨fun q i hq => by grind [Machine.act], fun q i hq => by grind [Machine.act],
      fun q i hq hi r d => by grind [Machine.act]⟩
  | notify j =>
    exact ⟨fun q i hq => by grind [Machine.act], fun q i hq => by grind [Machine.act],
      fun q i hq hi r d => by grind [Machine.act]⟩
  | leave o =>
    exact ⟨fun q i hq => by grind [Machine.act], fun q i hq => by grind [Machine.act],
      fun q i hq hi r d => by grind [Machine.act]⟩

theorem AwakeAt.step {quiet : κ → Prop} (h : AwakeAt quiet m) (hQ : WakesFirst S quiet)
    (hs : Step S m p n) : AwakeAt quiet n := by
  cases hs with
  | act k hp =>
    exact h.act hp (fun s j => hQ.move p k m.shared s j) fun j => hQ.wait p k m.shared j
  | call o k s hp he =>
    have hk := hQ.entry p o _ k s he
    obtain ⟨hlocked, hout, hin⟩ := h
    exact ⟨fun q i hq => by grind [Locked], fun q i hq => by grind, fun q i hq hi r d => by grind⟩
  | free o o' s hp hf =>
    obtain ⟨hlocked, hout, hin⟩ := h
    exact ⟨fun q i hq => by grind [Locked], fun q i hq => by grind, fun q i hq hi r d => by grind⟩
  | wake k hp =>
    obtain ⟨hlocked, hout, hin⟩ := h
    exact ⟨fun q i hq => by grind [Locked], fun q i hq => by grind, fun q i hq hi r d => by grind⟩
  | acquire k hp hl =>
    obtain ⟨hlocked, hout, hin⟩ := h
    exact ⟨fun q i hq => by grind [Locked], fun q i hq => by grind,
      fun q i hq hi r d => by grind [Locked]⟩

theorem WakesFirst.awakeAt {quiet : κ → Prop} (hQ : WakesFirst S quiet) {o : ο}
    (h : Transition.Reachable (· = ⟨s, none, fun _ => .out o⟩) (Step S) m) : AwakeAt quiet m := by
  refine Transition.Reachable.invariant ?_ (fun m p n hm hs => hm.step hQ hs) h
  rintro m rfl
  exact ⟨fun p k hp => (by cases hp), fun p k hp => (by rcases hp with hp | hp <;> cases hp),
    fun p k hp => (by cases hp)⟩

/-! ### Runs that are computed -/

/-- Thread `p` calls, if it may, or it goes on by itself. -/
def Machine.does (S : System σ κ ο) (may : ο → κ → Bool) (m : Machine σ κ ο) :
    ℕ × Option κ → Option (Machine σ κ ο)
  | (p, some k) =>
      match m.thread p with
      | .out o => if may o k then some (m.goto p m.shared m.lock (.ready k)) else none
      | _ => none
  | (p, none) =>
      match m.thread p with
      | .ready k =>
          if m.lock = none then some (m.goto p m.shared (some p) (.inside k)) else none
      | .inside k => some (m.act p (S.code p k m.shared))
      | _ => none

theorem step_of_does {may : ο → κ → Bool} (hmay : ∀ p o s k, may o k = true → S.entry p o s k s)
    {c : ℕ × Option κ} (h : m.does S may c = some n) : Step S m c.1 n := by
  obtain ⟨p, k | k⟩ := c <;> simp only [Machine.does] at h <;> split at h
  · next k hp =>
    split_ifs at h with hl
    cases h
    exact .acquire p k hp hl
  · next k hp =>
    cases h
    exact .act p k hp
  · cases h
  · next o hp =>
    split_ifs at h with hm
    cases h
    exact .call p o k _ hp (hmay p o _ k hm)
  · cases h

theorem reachable_of_does {may : ο → κ → Bool}
    (hmay : ∀ p o s k, may o k = true → S.entry p o s k s) {init : Machine σ κ ο → Prop}
    (h : Transition.Reachable init (Step S) m) {cs : List (ℕ × Option κ)}
    (hn : Transition.exec (Machine.does S may) m cs = some n) :
    Transition.Reachable init (Step S) n := by
  induction cs generalizing m with
  | nil =>
    cases hn
    exact h
  | cons c cs ih =>
    obtain ⟨m₁, hm, hn⟩ := Option.bind_eq_some_iff.1 hn
    exact ih (h.next _ _ _ (step_of_does hmay hm)) hn

end

end Monitor
