import Xv6.Proc.ExitWaitTable

/-!
The history of a run as a life cycle: a process is forked, exits once, and is reaped
once by the process that is its parent then. The process table and the parent pointers
are at all times what the history says.
-/

namespace Xv6
namespace ExitWait

inductive Life where
  | absent
  | alive (pid : ℤ)
  | exited (pid status : ℤ)
  deriving DecidableEq, Repr

def life : List Event → ℕ → Life
  | [], i => if i = init then .alive 1 else .absent
  | .fork _ j pid :: h, i => if i = j then .alive pid else life h i
  | .exit j st :: h, i =>
      match life h i with
      | .alive pid => if i = j then .exited pid st else .alive pid
      | l => l
  | .reap _ j _ _ :: h, i => if i = j then .absent else life h i
  | .copyoutFailed _ _ :: h, i | .free _ _ :: h, i => life h i

/-- The parent of a process: its creator, or `init` once the creator has exited. -/
def parentOf : List Event → ℕ → Option ℕ
  | [], _ => none
  | .fork q j _ :: h, i => if i = j then some q else parentOf h i
  | .exit j _ :: h, i => if parentOf h i = some j then some init else parentOf h i
  | .reap _ _ _ _ :: h, i | .copyoutFailed _ _ :: h, i | .free _ _ :: h, i => parentOf h i

/-- Every event is one the life cycle allows. -/
def Sound : List Event → Prop
  | [] => True
  | .fork _ i _ :: h => life h i = .absent ∧ Sound h
  | .exit i _ :: h => (∃ pid, life h i = .alive pid) ∧ Sound h
  | .reap q i pid st :: h => life h i = .exited pid st ∧ parentOf h i = some q ∧ Sound h
  | .copyoutFailed q i :: h =>
      (∃ pid st, life h i = .exited pid st) ∧ parentOf h i = some q ∧ Sound h
  | .free i s :: h =>
      (s = .zombie ∧ (∃ pid st, life h i = .exited pid st) ∨ s = .used ∧ life h i = .absent) ∧
        Sound h

/-- What the process table says of a slot. -/
def Proc.life (x : Proc) : Life :=
  match x.state with
  | .unused | .used => .absent
  | .sleeping | .runnable | .running => .alive x.pid
  | .zombie => .exited x.pid x.xstate

/-- The table against the history. A parent pointer is what the history says, unless the
parent is in `exit` and has already given the process to `init`. -/
structure Logged (m : Machine) : Prop where
  sound : Sound m.history
  life : ∀ i, life m.history i = (m.proc i).life
  parent : ∀ i, (m.proc i).life ≠ .absent → (m.proc i).parent = parentOf m.history i ∨
    ∃ e, parentOf m.history i = some e ∧ i < (m.thread e).reparented ∧
      (m.proc i).parent = some init

section
variable {m m' : Machine} {p x : ℕ} {pc' : Pc} {y : Proc}

theorem Logged.quiet (h : Logged m) (hm : Moves m p pc' x y m') (hsound : Sound m'.history)
    (hlife : ∀ i, ExitWait.life m'.history i = ExitWait.life m.history i)
    (hparent : ∀ i, parentOf m'.history i = parentOf m.history i)
    (hy : y.life = (m.proc x).life) (hpar : y.life = .absent ∨ y.parent = (m.proc x).parent)
    (hrep : ∀ i, (m.proc i).life ≠ .absent → i < (m.thread p).reparented → i < pc'.reparented) :
    Logged m' := by
  have hlifeEq : ∀ i, (m'.proc i).life = (m.proc i).life := by
    intro i
    rw [hm.proc]
    split_ifs with hi
    · rw [hy, hi]
    · rfl
  refine ⟨hsound, fun i => by rw [hlife, hlifeEq, h.life], fun i hi => ?_⟩
  have hsame : (m'.proc i).parent = (m.proc i).parent := by
    rw [hm.proc] at hi ⊢
    split_ifs at hi ⊢ with hix
    · rw [hix]
      exact hpar.resolve_left hi
    · rfl
  rw [hlifeEq] at hi
  rw [hsame, hparent]
  refine (h.parent i hi).imp_right ?_
  rintro ⟨e, he, hlt, hinit⟩
  refine ⟨e, he, ?_, hinit⟩
  rw [hm.thread]
  split_ifs with hep
  · rw [hep] at hlt
    exact hrep i hi hlt
  · exact hlt

theorem Logged.fork (h : Logged m) (ht : Table m) {np : ℕ} {a0 : ℤ}
    (hpc : m.thread p = .forkPublish np)
    (hT : ∀ q, m'.thread q =
      if q = p then .user a0 else if q = np then .user 0 else m.thread q)
    (hP : ∀ i, m'.proc i =
      if i = np then { m.proc np with state := .runnable } else m.proc i)
    (hh : m'.history = .fork p np (m.proc np).pid :: m.history) : Logged m' := by
  have hused : (m.proc np).state = .used := ht.forked p np (by rw [hpc]; rfl)
  have habsent : ExitWait.life m.history np = .absent := by
    rw [h.life, Proc.life, hused]
  have hdead : m.thread np = .dead := (ht.dead np).2 (by rw [hused]; rfl)
  refine ⟨?_, fun i => ?_, fun i hi => ?_⟩
  · rw [hh]
    exact ⟨habsent, h.sound⟩
  · rw [hh, hP, ExitWait.life]
    split_ifs
    · rfl
    · exact h.life i
  · rw [hP] at hi
    rw [hP, hh, parentOf]
    split_ifs at hi ⊢ with hin
    · exact .inl (ht.publish p np hpc)
    · refine (h.parent i hi).imp_right ?_
      rintro ⟨e, he, hlt, hinit⟩
      refine ⟨e, he, ?_, hinit⟩
      rw [hT]
      split_ifs with hep hen
      · rw [hep, hpc] at hlt
        exact absurd hlt (Nat.not_lt_zero i)
      · rw [hen, hdead] at hlt
        exact absurd hlt (Nat.not_lt_zero i)
      · exact hlt

theorem Logged.reparent (h : Logged m) (ht : Table m) {i : ℕ} {st : ℤ}
    (hpc : m.thread p = .exitReparent st i) (hi : (m.proc i).parent = some p)
    (hm : Moves m p (.exitReparentWakeup st i 0) i { m.proc i with parent := some init } m')
    (hh : m'.history = m.history) : Logged m' := by
  have hpinit : p ≠ init := by
    rintro rfl
    have := ht.initStays
    rw [hpc] at this
    cases this
  have hlife : ∀ j, (m'.proc j).life = (m.proc j).life := by
    intro j
    rw [hm.proc]
    split_ifs with hj
    · rw [hj]
      rfl
    · rfl
  refine ⟨hh ▸ h.sound, fun j => by rw [hh, hlife, h.life], fun j hj => ?_⟩
  rw [hlife] at hj
  rw [hh, hm.proc]
  have hold := h.parent j hj
  split_ifs with hji
  · rw [hji] at hold ⊢
    right
    refine ⟨p, ?_, ?_, rfl⟩
    · rcases hold with hold | ⟨-, -, -, hinit⟩
      · rw [← hold, hi]
      · rw [hi, Option.some.injEq] at hinit
        exact absurd hinit hpinit
    · rw [hm.thread, if_pos rfl]
      exact Nat.lt_succ_self i
  · refine hold.imp_right ?_
    rintro ⟨e, he, hlt, hinit⟩
    refine ⟨e, he, ?_, hinit⟩
    rw [hm.thread]
    split_ifs with hep
    · rw [hep, hpc] at hlt
      exact Nat.lt_succ_of_lt hlt
    · exact hlt

theorem Logged.zombie (h : Logged m) (ht : Table m) {st : ℤ} (hpc : m.thread p = .exitZombie st)
    (hm : Moves m p .dead p { m.proc p with xstate := st, state := .zombie } m')
    (hh : m'.history = .exit p st :: m.history) : Logged m' := by
  have hrun : (m.proc p).state = .running := ht.running p (by rw [hpc]; rfl)
  have hp : ExitWait.life m.history p = .alive (m.proc p).pid := by
    rw [h.life, Proc.life, hrun]
  refine ⟨?_, fun i => ?_, fun i hi => ?_⟩
  · rw [hh]
    exact ⟨⟨_, hp⟩, h.sound⟩
  · rw [hh, hm.proc, ExitWait.life]
    split_ifs with hip
    · rw [hip, hp]
      rfl
    · rw [← h.life i]
      cases ExitWait.life m.history i <;> rfl
  · have hpar : (m'.proc i).parent = (m.proc i).parent := by
      rw [hm.proc]
      split_ifs with hip
      · rw [hip]
      · rfl
    have hold : (m.proc i).life ≠ .absent := by
      rw [hm.proc] at hi
      split_ifs at hi with hip
      · rw [hip, Proc.life, hrun]
        simp
      · exact hi
    rw [hpar, hh, parentOf]
    have hno : (m.proc i).parent ≠ some p := ht.no_child (by rw [hpc]; rfl) i
    rcases h.parent i hold with hl | ⟨e, he, hlt, hinit⟩
    · rw [if_neg (hl ▸ hno)]
      exact .inl hl
    · by_cases hep : e = p
      · rw [if_pos (hep ▸ he)]
        exact .inl hinit
      · rw [if_neg (by rw [he]; simpa using hep)]
        refine .inr ⟨e, he, ?_, hinit⟩
        rw [hm.thread, if_neg hep]
        exact hlt

theorem Logged.parent_of_scan (h : Logged m) (ht : Table m) {i k addr : ℕ} {kids : Bool}
    (hpc : m.thread p = .waitScan addr k kids) (hz : (m.proc i).state = .zombie)
    (hi : (m.proc i).parent = some p) : parentOf m.history i = some p := by
  rcases h.parent i (by rw [Proc.life, hz]; simp) with hl | ⟨e, -, hlt, -⟩
  · rw [← hl, hi]
  · -- nobody else can be in `exit`: this process holds `wait_lock`
    have hlocked : (m.thread e).locked = true := by
      revert hlt
      cases m.thread e <;> simp [Pc.reparented, Pc.locked]
    have hp : m.waitLock = some p := (ht.lock p).2 (by rw [hpc]; rfl)
    rw [← ht.lock, hp, Option.some.injEq] at hlocked
    rw [← hlocked, hpc] at hlt
    exact absurd hlt (Nat.not_lt_zero i)

theorem Logged.reap (h : Logged m) (ht : Table m) {i k addr : ℕ} {kids : Bool} {a0 : ℤ}
    (hpc : m.thread p = .waitScan addr k kids) (hz : (m.proc i).state = .zombie)
    (hi : (m.proc i).parent = some p) (hm : Moves m p (.user a0) i freeproc m')
    (hh : m'.history = .reap p i (m.proc i).pid (m.proc i).xstate :: .free i (m.proc i).state ::
      m.history) : Logged m' := by
  have hlife : ExitWait.life m.history i = .exited (m.proc i).pid (m.proc i).xstate := by
    rw [h.life, Proc.life, hz]
  refine ⟨?_, fun j => ?_, fun j hj => ?_⟩
  · rw [hh]
    exact ⟨hlife, h.parent_of_scan ht hpc hz hi, .inl ⟨hz, _, _, hlife⟩, h.sound⟩
  · rw [hh, hm.proc, ExitWait.life, ExitWait.life]
    split_ifs
    · rfl
    · exact h.life j
  · rw [hm.proc] at hj
    rw [hm.proc, hh, parentOf, parentOf]
    split_ifs at hj ⊢ with hji
    · exact absurd rfl hj
    · refine (h.parent j hj).imp_right ?_
      rintro ⟨e, he, hlt, hinit⟩
      refine ⟨e, he, ?_, hinit⟩
      rw [hm.thread]
      split_ifs with hep
      · rw [hep, hpc] at hlt
        exact absurd hlt (Nat.not_lt_zero j)
      · exact hlt

end

end ExitWait
end Xv6
