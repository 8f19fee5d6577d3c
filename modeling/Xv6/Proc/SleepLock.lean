import Xv6.Lib.Monitor

/-!
`sleeplock.c`: locks that are held across sleeps. The fields of a sleep lock are under its
spinlock `lk->lk`, and any number of processes acquire it, release it when they hold it, and ask
whether they do.
-/

namespace Xv6
namespace Sleeplock
open Monitor

/-- The fields of a sleep lock. `owner` is no field: it is the process that the lock was given
to, from its store to `pid` on until it clears `locked`. -/
structure State where
  locked : Bool
  pid : ℤ
  owner : Option ℕ

/-- The next line of `acquiresleep`, `releasesleep` or `holdingsleep`, with `lk->lk` held. -/
inductive Pc
  | acquireTest | acquireLocked | acquirePid | acquireRelease
  | releaseLocked | releasePid | releaseWakeup | releaseRelease
  | holding (holds : Bool)

/-- A process outside these functions: whether it has acquired the lock, and what it was just
told by `holdingsleep`. -/
structure Out where
  holds : Bool
  told : Option Bool

def code (pid : ℕ → ℤ) (p : ℕ) : Pc → State → Action State Pc Out
  | .acquireTest, s => if s.locked then .wait .acquireTest else .move s .acquireLocked
  | .acquireLocked, s => .move { s with locked := true } .acquirePid
  | .acquirePid, s => .move { s with pid := pid p, owner := some p } .acquireRelease
  | .acquireRelease, _ => .leave ⟨true, none⟩
  | .releaseLocked, s => .move { s with locked := false, owner := none } .releasePid
  | .releasePid, s => .move { s with pid := 0 } .releaseWakeup
  | .releaseWakeup, _ => .notify .releaseRelease
  | .releaseRelease, _ => .leave ⟨false, none⟩
  | .holding holds, s => .leave ⟨holds, some (s.locked && decide (s.pid = pid p))⟩

/-- The calls of a process that holds the lock or does not. -/
def Calls (holds : Bool) (k : Pc) : Prop :=
  k = .holding holds ∨ k = if holds then .releaseLocked else .acquireTest

def system (pid : ℕ → ℤ) : System State Pc Out where
  code := code pid
  entry _ o s k s' := s' = s ∧ Calls o.holds k
  free _ _ _ _ _ := False

def start : Machine State Pc Out := ⟨⟨false, 0, none⟩, none, fun _ => .out ⟨false, none⟩⟩

def Reachable (pid : ℕ → ℤ) : Machine State Pc Out → Prop :=
  Transition.Reachable (· = start) (Step (system pid))

def Rest (pid : ℕ → ℤ) (s : State) : Prop :=
  s.locked = s.owner.isSome ∧ ∀ q, s.owner = some q → s.pid = pid q

/-- What process `p` knows of the lock at each line. -/
def Knows (pid : ℕ → ℤ) (p : ℕ) (s : State) : Place Pc Out → Prop
  | .out o => (o.holds = true ↔ s.owner = some p) ∧ ∀ r, o.told = some r → r = o.holds
  | .ready k => ∃ holds, Calls holds k ∧ (holds = true ↔ s.owner = some p)
  | .asleep k => k = .acquireTest ∧ s.owner ≠ some p
  | .inside .acquirePid => s.locked = true ∧ s.owner = none
  | .inside .acquireTest => Rest pid s ∧ s.owner ≠ some p
  | .inside .acquireRelease | .inside .releaseLocked => Rest pid s ∧ s.owner = some p
  | .inside (.holding holds) => Rest pid s ∧ (holds = true ↔ s.owner = some p)
  | .inside _ => Rest pid s ∧ s.owner = none

def notes (pid : ℕ → ℤ) : Notes State Pc Out where
  rest := Rest pid
  knows := Knows pid
  reason s := s.owner.isSome = true
  notifies k := k = .releasePid ∨ k = .releaseWakeup

section
variable {pid : ℕ → ℤ} {m : Machine State Pc Out} {q : ℕ} {s s' : State}

theorem Knows.congr {x : Place Pc Out} (h : Knows pid q s x) (hx : ∀ k, x ≠ .inside k)
    (ho : s'.owner = some q ↔ s.owner = some q) : Knows pid q s' x := by
  cases x with
  | inside k => exact absurd rfl (hx k)
  | _ => simpa only [Knows, Ne, ho] using h

theorem notes_act (hinj : Function.Injective pid) (p : ℕ) (k : Pc) (s : State)
    (h : Knows pid p s (.inside k)) : (notes pid).Keeps p k s (code pid p k s) := by
  have hstable : ∀ {s'}, (s.owner = none ∨ s.owner = some p) →
      (s'.owner = none ∨ s'.owner = some p) → (notes pid).StableOut p s s' := by
    intro s' ho ho' q hqp x hx hq
    exact Knows.congr hq hx (by grind)
  cases k with
  | acquireTest =>
    obtain ⟨hr, ho⟩ := h
    by_cases hl : s.locked = true
    · simp only [code, hl, if_true]
      exact ⟨⟨rfl, ho⟩, hr, hr.1.symm.trans hl⟩
    · have hnone : s.owner = none := by rwa [hr.1, Option.not_isSome_iff_eq_none] at hl
      simp only [code, hl]
      exact ⟨⟨hr, hnone⟩, hstable (.inl hnone) (.inl hnone), by simp [notes, hnone]⟩
  | acquireLocked => exact ⟨⟨rfl, h.2⟩, hstable (.inl h.2) (.inl h.2), by simp [notes, h.2]⟩
  | acquirePid =>
    refine ⟨⟨⟨h.1, fun q hq => ?_⟩, rfl⟩, hstable (.inl h.2) (.inr rfl), fun _ => .inl rfl⟩
    rw [Option.some.inj hq]
  | acquireRelease => exact ⟨⟨by simp [h.2], by simp⟩, h.1, by simp [notes]⟩
  | releaseLocked =>
    exact ⟨⟨⟨rfl, by simp⟩, rfl⟩, hstable (.inr h.2) (.inl rfl), fun _ => .inr (.inl rfl)⟩
  | releasePid =>
    refine ⟨⟨⟨h.1.1, fun q hq => ?_⟩, h.2⟩, hstable (.inl h.2) (.inl h.2), fun _ => .inr (.inr rfl)⟩
    rw [h.2] at hq
    cases hq
  | releaseWakeup => exact h
  | releaseRelease => exact ⟨⟨by simp [h.2], by simp⟩, h.1, by simp [notes]⟩
  | holding holds =>
    obtain ⟨hr, ho⟩ := h
    refine ⟨⟨ho, fun r hrr => ?_⟩, hr, by simp [notes]⟩
    rw [← Option.some.inj hrr, hr.1]
    cases hown : s.owner with
    | none => grind
    | some q =>
      have hpid := hr.2 q hown
      have : pid q = pid p ↔ q = p := hinj.eq_iff
      grind

theorem notes_proves (hinj : Function.Injective pid) : (notes pid).Proves (system pid) where
  act := notes_act hinj
  call p o s k s' h he := by
    obtain ⟨rfl, hc⟩ := he
    exact ⟨⟨o.holds, hc, h.1⟩, id, fun _ _ _ => id, id⟩
  free p o s o' s' h hf := hf.elim
  acquire p s k hr h := by
    obtain ⟨holds, rfl | rfl, ho⟩ := h
    · exact ⟨hr, ho⟩
    · cases holds
      · exact ⟨hr, by simpa using ho⟩
      · exact ⟨hr, ho.1 rfl⟩
  wake p s k h := by
    obtain ⟨rfl, ho⟩ := h
    exact ⟨false, .inr rfl, by simpa using ho⟩

/-- A sleep lock over whole runs. A process that has acquired it is its owner, so no two have;
what `holdingsleep` tells a process is whether it has; and while a process sleeps, another one is
the owner, or is about to wake the sleepers. -/
theorem sleeplock_safe (hinj : Function.Injective pid) (h : Reachable pid m) :
    (∀ p o, m.thread p = .out o → (o.holds = true ↔ m.shared.owner = some p) ∧
      ∀ r, o.told = some r → r = o.holds) ∧
    ∀ p k, m.thread p = .asleep k → (∃ q, q ≠ p ∧ m.shared.owner = some q) ∨
      ∃ q j, m.thread q = .inside j ∧ (j = .releasePid ∨ j = .releaseWakeup) := by
  have hinv := (notes_proves hinj).holds ⟨rfl, by simp⟩ (fun p => ⟨by simp, by simp⟩) h
  constructor
  · intro p o hp
    have hk := hinv.knows p
    rw [hp] at hk
    exact hk
  · intro p k hp
    have hk := hinv.knows p
    rw [hp] at hk
    refine (hinv.asleep p k hp).imp_left fun ho => ?_
    obtain ⟨q, hq⟩ := Option.isSome_iff_exists.1 ho
    exact ⟨q, fun hqp => hk.2 (hqp ▸ hq), hq⟩

/-- Process `0` has acquired the lock, and process `1` sleeps for it. -/
theorem sleeplock_safe_two : ∃ m, Reachable Int.ofNat m ∧ m.thread 1 = .asleep .acquireTest ∧
    ((∃ q, q ≠ 1 ∧ m.shared.owner = some q) ∨
      ∃ q j, m.thread q = .inside j ∧ (j = .releasePid ∨ j = .releaseWakeup)) := by
  have h : Reachable Int.ofNat start := .start _ rfl
  have h := h.next _ _ 0 (.call 0 _ .acquireTest _ rfl ⟨rfl, .inr rfl⟩)
  have h := h.next _ _ 0 (.acquire 0 _ rfl rfl)
  have h := h.next _ _ 0 (.act 0 .acquireTest rfl)
  have h := h.next _ _ 0 (.act 0 .acquireLocked rfl)
  have h := h.next _ _ 0 (.act 0 .acquirePid rfl)
  have h := h.next _ _ 0 (.act 0 .acquireRelease rfl)
  have h := h.next _ _ 1 (.call 1 _ .acquireTest _ rfl ⟨rfl, .inr rfl⟩)
  have h := h.next _ _ 1 (.acquire 1 _ rfl rfl)
  have h := h.next _ _ 1 (.act 1 .acquireTest rfl)
  exact ⟨_, h, rfl, (sleeplock_safe Int.ofNat_injective h).2 1 .acquireTest rfl⟩

end

end Sleeplock
end Xv6
