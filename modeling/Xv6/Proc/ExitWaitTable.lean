import Xv6.Proc.ExitWait

/-!
The process table under `fork`, `exit` and `wait`: who holds `wait_lock`, which slots
have a running process, and that every parent pointer names a live process. Most steps
are `Quiet`; the others are the allocation and publication of a process in `fork`, the
handing over of children and the end of `exit`, and the reaping in `wait`.
-/

namespace Xv6
namespace ExitWait

def isLive : ProcState → Bool
  | .sleeping | .runnable | .running => true
  | _ => false

/-- The number of slots `reparent` has looked at. -/
def Pc.reparented : Pc → ℕ
  | exitReparent _ i => i
  | exitReparentWakeup _ i _ => i + 1
  | exitWakeup _ _ | exitZombie _ => NPROC
  | _ => 0

/-- The slot that a call of `fork` has allocated and not published. -/
def Pc.forking : Pc → Option ℕ
  | forkParent i | forkPublish i => some i
  | _ => none

def Pc.exiting : Pc → Bool
  | exitLock _ | exitReparent _ _ | exitReparentWakeup _ _ _ | exitWakeup _ _
  | exitZombie _ => true
  | _ => false

structure Table (m : Machine) : Prop where
  lock : ∀ p, m.waitLock = some p ↔ (m.thread p).locked = true
  running : ∀ p, (m.thread p).locked = true → (m.proc p).state = .running
  dead : ∀ p, m.thread p = .dead ↔ isLive (m.proc p).state = false
  small : ∀ i, NPROC ≤ i → (m.proc i).state = .unused
  forked : ∀ p i, (m.thread p).forking = some i → (m.proc i).state = .used
  forker : ∀ p q i, (m.thread p).forking = some i → (m.thread q).forking = some i → p = q
  publish : ∀ p i, m.thread p = .forkPublish i → (m.proc i).parent = some p
  orphan : ∀ i, (m.proc i).parent = none →
    (m.proc i).state = .unused ∨ (m.proc i).state = .used ∨ i = init
  unused : ∀ i, (m.proc i).state = .unused → (m.proc i).parent = none
  parent : ∀ i q, (m.proc i).parent = some q → isLive (m.proc q).state = true
  initLive : isLive (m.proc init).state = true
  initStays : (m.thread init).exiting = false
  handed : ∀ e i, i < (m.thread e).reparented → (m.proc i).parent ≠ some e

theorem Table.no_child {m : Machine} (h : Table m) {e : ℕ} (he : (m.thread e).reparented = NPROC)
    (i : ℕ) : (m.proc i).parent ≠ some e := by
  by_cases hi : i < NPROC
  · exact h.handed e i (he ▸ hi)
  · rw [h.unused i (h.small i (by omega))]
    simp

structure Moves (m : Machine) (p : ℕ) (pc' : Pc) (x : ℕ) (y : Proc) (m' : Machine) : Prop where
  thread : ∀ q, m'.thread q = if q = p then pc' else m.thread q
  proc : ∀ i, m'.proc i = if i = x then y else m.proc i

inductive LockMove (m : Machine) (p : ℕ) (pc' : Pc) (w : Option ℕ) : Prop
  | keep (hw : w = m.waitLock) (hl : pc'.locked = (m.thread p).locked)
  | acquire (h : m.waitLock = none) (hw : w = some p) (hl : pc'.locked = true)
  | release (h : (m.thread p).locked = true) (hw : w = none) (hl : pc'.locked = false)

section
variable {m m' : Machine} {p x : ℕ} {pc' : Pc} {y : Proc}

theorem proc_eq {α : Type} (f : Proc → α) (hP : ∀ i, m'.proc i = if i = x then y else m.proc i)
    (hf : f y = f (m.proc x)) (i : ℕ) : f (m'.proc i) = f (m.proc i) := by
  rw [hP]
  split_ifs with hi
  · rw [hi, hf]
  · rfl

/-- A process in another state than the one in slot `x` is in another slot. -/
theorem proc_same (hP : ∀ i, m'.proc i = if i = x then y else m.proc i) {i : ℕ}
    {s t : ProcState} (hi : (m.proc i).state = s) (hx : (m.proc x).state = t) (hst : s ≠ t) :
    m'.proc i = m.proc i := by
  rw [hP, if_neg]
  rintro rfl
  exact hst (hi.symm.trans hx)

theorem Moves.forking (hm : Moves m p pc' x y m') (hn : pc'.forking = none) {q i : ℕ}
    (hq : (m'.thread q).forking = some i) : (m.thread q).forking = some i := by
  rw [hm.thread] at hq
  split_ifs at hq
  · rw [hn] at hq
    cases hq
  · exact hq

theorem Table.lock_moves (h : Table m) (hm : Moves m p pc' x y m')
    (hl : LockMove m p pc' m'.waitLock) (q : ℕ) :
    m'.waitLock = some q ↔ (m'.thread q).locked = true := by
  rw [hm.thread]
  cases hl with
  | keep hw hl =>
    rw [hw, h.lock]
    by_cases hq : q = p
    · rw [if_pos hq, hl, hq]
    · rw [if_neg hq]
  | acquire hn hw hl =>
    rw [hw]
    by_cases hq : q = p
    · simp [hq, hl]
    · have : ¬ (m.thread q).locked = true := by
        rw [← h.lock, hn]
        simp
      simp [hq, Ne.symm hq, this]
  | release hlk hw hl =>
    rw [hw]
    by_cases hq : q = p
    · simp [hq, hl]
    · have : ¬ (m.thread q).locked = true := by
        rw [← h.lock, (h.lock p).2 hlk]
        simp [Ne.symm hq]
      simp [hq, this]

structure Quiet (m : Machine) (p : ℕ) (pc' : Pc) (x : ℕ) (y : Proc) : Prop where
  dead : pc' = .dead ↔ m.thread p = .dead
  forking : pc'.forking = (m.thread p).forking
  publish : ∀ i, pc' = .forkPublish i → m.thread p = .forkPublish i
  exiting : p = init → pc'.exiting = false
  handed : ∀ i, i < pc'.reparented → (m.proc i).parent ≠ some p
  parent : y.parent = (m.proc x).parent
  live : isLive y.state = isLive (m.proc x).state
  unused : y.state = .unused ↔ (m.proc x).state = .unused
  used : y.state = .used ↔ (m.proc x).state = .used
  running : (m.proc x).state = .running → x ≠ p → y.state = .running
  here : pc'.locked = true → (if p = x then y else m.proc p).state = .running

theorem Table.quiet (h : Table m) (hm : Moves m p pc' x y m')
    (hl : LockMove m p pc' m'.waitLock) (hq : Quiet m p pc' x y) : Table m' := by
  have hpar := proc_eq Proc.parent hm.proc hq.parent
  have hlive := proc_eq (fun z => isLive z.state) hm.proc hq.live
  have hunused := proc_eq (fun z => z.state = .unused) hm.proc (propext hq.unused)
  have hused := proc_eq (fun z => z.state = .used) hm.proc (propext hq.used)
  have hfork : ∀ q, (m'.thread q).forking = (m.thread q).forking := by
    intro q
    rw [hm.thread]
    split_ifs with hqp
    · rw [hqp, hq.forking]
    · rfl
  refine ⟨h.lock_moves hm hl, fun q hql => ?_, fun q => ?_, ?_, ?_, ?_, fun q i hqi => ?_, ?_, ?_,
    ?_, ?_, ?_, fun e i hi => ?_⟩
  · rw [hm.thread] at hql
    rw [hm.proc]
    by_cases hqp : q = p
    · rw [if_pos hqp] at hql
      rw [hqp]
      exact hq.here hql
    · rw [if_neg hqp] at hql
      have := h.running q hql
      split_ifs with hqx
      · exact hq.running (hqx ▸ this) (hqx ▸ hqp)
      · exact this
  · rw [hm.thread, hlive, ← h.dead]
    split_ifs with hqp
    · rw [hqp, hq.dead]
    · rfl
  · simpa only [hunused] using h.small
  · simpa only [hfork, hused] using h.forked
  · simpa only [hfork] using h.forker
  · rw [hm.thread] at hqi
    rw [hpar]
    split_ifs at hqi with hqp
    · rw [hqp]
      exact h.publish p i (hq.publish i hqi)
    · exact h.publish q i hqi
  · simpa only [hpar, hunused, hused] using h.orphan
  · simpa only [hpar, hunused] using h.unused
  · simpa only [hpar, hlive] using h.parent
  · rw [hlive]
    exact h.initLive
  · rw [hm.thread]
    split_ifs with hqp
    · exact hq.exiting hqp.symm
    · exact h.initStays
  · rw [hm.thread] at hi
    rw [hpar]
    split_ifs at hi with hep
    · rw [hep]
      exact hq.handed i hi
    · exact h.handed e i hi

theorem Table.live (h : Table m) (hp : m.thread p ≠ .dead) : isLive (m.proc p).state = true := by
  rw [ne_eq, h.dead] at hp
  simpa using hp

theorem Table.alloc (h : Table m) {i k : ℕ} (hi : i < NPROC) (hpc : m.thread p = .forkScan k)
    (hu : (m.proc i).state = .unused) (hy : y.state = .used) (hyp : y.parent = none)
    (hm : Moves m p (.forkParent i) i y m') (hw : m'.waitLock = m.waitLock) : Table m' := by
  have hnone : ∀ q, (m.thread q).forking ≠ some i := by
    intro q hq
    rw [h.forked q i hq] at hu
    cases hu
  have hpar := proc_eq Proc.parent hm.proc (hyp.trans (h.unused i hu).symm)
  have hlive := proc_eq (fun z => isLive z.state) hm.proc (by rw [hy, hu]; rfl)
  refine ⟨h.lock_moves hm (.keep hw (by rw [hpc]; rfl)), fun q hq => ?_, fun q => ?_, fun j hj => ?_,
    fun q j hq => ?_, fun q r j hq hr => ?_, fun q j hq => ?_, fun j hj => ?_, fun j hj => ?_,
    fun j q hj => ?_, ?_, ?_, fun e j hj => ?_⟩
  · rw [hm.thread] at hq
    split_ifs at hq with hqp
    · cases hq
    · rw [proc_same hm.proc (h.running q hq) hu (by decide)]
      exact h.running q hq
  · rw [hm.thread, hlive, ← h.dead]
    split_ifs with hqp
    · rw [hqp, hpc]
      simp
    · rfl
  · rw [hm.proc, if_neg (by omega)]
    exact h.small j hj
  · rw [hm.thread] at hq
    rw [hm.proc]
    split_ifs at hq with hqp
    · cases hq
      rw [if_pos rfl, hy]
    · rw [if_neg]
      · exact h.forked q j hq
      · rintro rfl
        exact hnone q hq
  · rw [hm.thread] at hq hr
    split_ifs at hq hr with hqp hrp hrp
    · rw [hqp, hrp]
    · cases hq
      exact absurd hr (hnone r)
    · cases hr
      exact absurd hq (hnone q)
    · exact h.forker q r j hq hr
  · rw [hm.thread] at hq
    split_ifs at hq
    rw [hpar]
    exact h.publish q j hq
  · rw [hpar] at hj
    rw [hm.proc]
    split_ifs with hji
    · exact .inr (.inl hy)
    · exact h.orphan j hj
  · rw [hm.proc] at hj
    rw [hpar]
    split_ifs at hj with hji
    · rw [hy] at hj
      cases hj
    · exact h.unused j hj
  · rw [hpar] at hj
    rw [hlive]
    exact h.parent j q hj
  · rw [hlive]
    exact h.initLive
  · rw [hm.thread]
    split_ifs
    · rfl
    · exact h.initStays
  · rw [hm.thread] at hj
    rw [hpar]
    split_ifs at hj with hep
    · exact absurd hj (Nat.not_lt_zero j)
    · exact h.handed e j hj

/-- The live process `t` becomes the parent of the process in slot `x`. -/
theorem Table.adopt (h : Table m) {t : ℕ}
    (hm : Moves m p pc' x { m.proc x with parent := some t } m') (hw : m'.waitLock = m.waitLock)
    (hl : pc'.locked = (m.thread p).locked) (hf : pc'.forking = (m.thread p).forking)
    (hp : m.thread p ≠ .dead) (hd : pc' ≠ .dead) (hx : (m.proc x).state ≠ .unused)
    (ht : isLive (m.proc t).state = true) (hinit : p = init → pc'.exiting = false)
    (hpub : ∀ q i, m'.thread q = .forkPublish i → (m'.proc i).parent = some q)
    (hhand : ∀ e i, i < (m'.thread e).reparented → (m'.proc i).parent ≠ some e) : Table m' := by
  have hstate := proc_eq Proc.state hm.proc rfl
  have hpar : ∀ j, (m'.proc j).parent = if j = x then some t else (m.proc j).parent := by
    intro j
    rw [hm.proc]
    split_ifs <;> rfl
  have hfork : ∀ q, (m'.thread q).forking = (m.thread q).forking := by
    intro q
    rw [hm.thread]
    split_ifs with hqp
    · rw [hqp, hf]
    · rfl
  refine ⟨h.lock_moves hm (.keep hw hl), fun q hq => ?_, fun q => ?_, ?_, ?_, ?_, hpub,
    fun j hj => ?_, fun j hj => ?_, fun j q hj => ?_, ?_, ?_, hhand⟩
  · rw [hm.thread] at hq
    rw [hstate]
    split_ifs at hq with hqp
    · rw [hqp]
      exact h.running p (hl ▸ hq)
    · exact h.running q hq
  · rw [hm.thread, hstate, ← h.dead]
    split_ifs with hqp
    · rw [hqp]
      exact iff_of_false hd hp
    · rfl
  · simpa only [hstate] using h.small
  · simpa only [hfork, hstate] using h.forked
  · simpa only [hfork] using h.forker
  · rw [hpar] at hj
    rw [hstate]
    split_ifs at hj
    exact h.orphan j hj
  · rw [hstate] at hj
    rw [hpar, if_neg]
    · exact h.unused j hj
    · rintro rfl
      exact hx hj
  · rw [hpar] at hj
    rw [hstate]
    split_ifs at hj
    · cases hj
      exact ht
    · exact h.parent j q hj
  · rw [hstate]
    exact h.initLive
  · rw [hm.thread]
    split_ifs with hqp
    · exact hinit hqp.symm
    · exact h.initStays

theorem Table.setParent (h : Table m) {np : ℕ} (hpc : m.thread p = .forkParent np)
    (hm : Moves m p (.forkPublish np) np { m.proc np with parent := some p } m')
    (hw : m'.waitLock = m.waitLock) : Table m' := by
  have hused : (m.proc np).state = .used := h.forked p np (by rw [hpc]; rfl)
  have hlive : m.thread p ≠ .dead := by
    rw [hpc]
    simp
  refine h.adopt hm hw (by rw [hpc]; rfl) (by rw [hpc]; rfl) hlive (by simp) (by rw [hused]; simp)
    (h.live hlive) (fun _ => rfl) (fun q j hq => ?_) fun e j hj => ?_
  · rw [hm.thread] at hq
    rw [hm.proc]
    split_ifs at hq with hqp
    · cases hq
      rw [if_pos rfl, hqp]
    · rw [if_neg]
      · exact h.publish q j hq
      · rintro rfl
        exact hqp (h.forker q p j (by rw [hq]; rfl) (by rw [hpc]; rfl))
  · rw [hm.thread] at hj
    rw [hm.proc]
    split_ifs at hj with hep
    · exact absurd hj (Nat.not_lt_zero j)
    · split_ifs with hjn
      · simpa using Ne.symm hep
      · exact h.handed e j hj

theorem Table.fork (h : Table m) {np : ℕ} {a0 : ℤ} (hpc : m.thread p = .forkPublish np)
    (hT : ∀ q, m'.thread q =
      if q = p then .user a0 else if q = np then .user 0 else m.thread q)
    (hP : ∀ i, m'.proc i =
      if i = np then { m.proc np with state := .runnable } else m.proc i)
    (hw : m'.waitLock = m.waitLock) : Table m' := by
  have hused : (m.proc np).state = .used := h.forked p np (by rw [hpc]; rfl)
  have hnpar : (m.proc np).parent = some p := h.publish p np hpc
  have hdead : m.thread np = .dead := (h.dead np).2 (by rw [hused]; rfl)
  have hpar := proc_eq Proc.parent hP rfl
  have hfork : ∀ q j, (m'.thread q).forking = some j →
      (m.thread q).forking = some j ∧ j ≠ np := by
    intro q j hq
    rw [hT] at hq
    split_ifs at hq with hqp hqn
    · cases hq
    · cases hq
    · refine ⟨hq, ?_⟩
      rintro rfl
      exact hqp (h.forker q p j hq (by rw [hpc]; rfl))
  have hlocked : ∀ q, (m'.thread q).locked = (m.thread q).locked := by
    intro q
    rw [hT]
    split_ifs with hqp hqn
    · rw [hqp, hpc]
      rfl
    · rw [hqn, hdead]
      rfl
    · rfl
  refine ⟨fun q => ?_, fun q hq => ?_, fun q => ?_, fun j hj => ?_, fun q j hq => ?_,
    fun q r j hq hr => ?_, fun q j hq => ?_, fun j hj => ?_, fun j hj => ?_, fun j q hj => ?_, ?_,
    ?_, fun e j hj => ?_⟩
  · rw [hw, hlocked]
    exact h.lock q
  · rw [hlocked] at hq
    rw [proc_same hP (h.running q hq) hused (by decide)]
    exact h.running q hq
  · rw [hT, hP]
    by_cases hqp : q = p
    · have hne : p ≠ np := by
        rintro rfl
        rw [hpc] at hdead
        cases hdead
      have := h.live (p := p) (by rw [hpc]; simp)
      simp [hqp, hne, this]
    · rw [if_neg hqp]
      by_cases hqn : q = np
      · simp [hqn, isLive]
      · rw [if_neg hqn, if_neg hqn]
        exact h.dead q
  · rw [proc_same hP (h.small j hj) hused (by decide)]
    exact h.small j hj
  · obtain ⟨hq, hj⟩ := hfork q j hq
    rw [hP, if_neg hj]
    exact h.forked q j hq
  · exact h.forker q r j (hfork q j hq).1 (hfork r j hr).1
  · rw [hT] at hq
    rw [hpar]
    split_ifs at hq
    exact h.publish q j hq
  · rw [hpar] at hj
    rw [hP, if_neg]
    · exact h.orphan j hj
    · rintro rfl
      rw [hnpar] at hj
      cases hj
  · rw [hP] at hj
    rw [hpar]
    split_ifs at hj
    exact h.unused j hj
  · rw [hpar] at hj
    rw [hP]
    split_ifs
    · rfl
    · exact h.parent j q hj
  · rw [hP]
    split_ifs
    · rfl
    · exact h.initLive
  · rw [hT]
    split_ifs
    · rfl
    · rfl
    · exact h.initStays
  · rw [hT] at hj
    rw [hpar]
    split_ifs at hj
    · exact absurd hj (Nat.not_lt_zero j)
    · exact absurd hj (Nat.not_lt_zero j)
    · exact h.handed e j hj

theorem Table.reparent (h : Table m) {i : ℕ} {st : ℤ} (hpc : m.thread p = .exitReparent st i)
    (hi : (m.proc i).parent = some p)
    (hm : Moves m p (.exitReparentWakeup st i 0) i { m.proc i with parent := some init } m')
    (hw : m'.waitLock = m.waitLock) : Table m' := by
  have hpinit : p ≠ init := by
    rintro rfl
    have := h.initStays
    rw [hpc] at this
    cases this
  have hused : (m.proc i).state ≠ .unused := by
    intro hu
    rw [h.unused i hu] at hi
    cases hi
  refine h.adopt hm hw (by rw [hpc]; rfl) (by rw [hpc]; rfl) (by rw [hpc]; simp) (by simp) hused
    h.initLive (fun hp => absurd hp hpinit) (fun q j hq => ?_) fun e j hj => ?_
  · rw [hm.thread] at hq
    split_ifs at hq with hqp
    have hj := h.publish q j hq
    rw [hm.proc, if_neg]
    · exact hj
    · rintro rfl
      rw [hi, Option.some.injEq] at hj
      exact hqp hj.symm
  · rw [hm.thread] at hj
    rw [hm.proc]
    split_ifs at hj with hep
    · rw [hep]
      split_ifs with hji
      · simpa using hpinit.symm
      · have hlt : j < i := by
          have : j < i + 1 := hj
          omega
        exact h.handed p j (by rw [hpc]; exact hlt)
    · split_ifs with hji
      · simp only [ne_eq, Option.some.injEq]
        rintro rfl
        have := h.initStays
        revert hj this
        cases m.thread init <;> simp [Pc.reparented, Pc.exiting]
      · exact h.handed e j hj

/-- `exit` ends: no process has this one as its parent any more. -/
theorem Table.zombie (h : Table m) {st : ℤ} (hpc : m.thread p = .exitZombie st)
    (hm : Moves m p .dead p { m.proc p with xstate := st, state := .zombie } m')
    (hw : m'.waitLock = none) : Table m' := by
  have hrun : (m.proc p).state = .running := h.running p (by rw [hpc]; rfl)
  have hpinit : p ≠ init := by
    rintro rfl
    have := h.initStays
    rw [hpc] at this
    cases this
  have hpar := proc_eq Proc.parent hm.proc rfl
  have hrel : LockMove m p .dead m'.waitLock := .release (by rw [hpc]; rfl) hw rfl
  refine ⟨h.lock_moves hm hrel, fun q hq => ?_, fun q => ?_, fun j hj => ?_, fun q j hq => ?_,
    fun q r j hq hr => ?_, fun q j hq => ?_, fun j hj => ?_, fun j hj => ?_, fun j q hj => ?_, ?_,
    ?_, fun e j hj => ?_⟩
  · rw [hm.thread] at hq
    rw [hm.proc]
    split_ifs at hq with hqp
    · cases hq
    · rw [if_neg hqp]
      exact h.running q hq
  · rw [hm.thread, hm.proc]
    split_ifs
    · simp [isLive]
    · exact h.dead q
  · rw [proc_same hm.proc (h.small j hj) hrun (by decide)]
    exact h.small j hj
  · have hq := hm.forking rfl hq
    rw [proc_same hm.proc (h.forked q j hq) hrun (by decide)]
    exact h.forked q j hq
  · exact h.forker q r j (hm.forking rfl hq) (hm.forking rfl hr)
  · rw [hm.thread] at hq
    split_ifs at hq
    rw [hpar]
    exact h.publish q j hq
  · rw [hpar] at hj
    rw [hm.proc]
    split_ifs with hjp
    · rcases h.orphan j hj with ho | ho | ho
      · rw [hjp, hrun] at ho
        cases ho
      · rw [hjp, hrun] at ho
        cases ho
      · exact .inr (.inr ho)
    · exact h.orphan j hj
  · rw [hm.proc] at hj
    rw [hpar]
    split_ifs at hj
    exact h.unused j hj
  · rw [hpar] at hj
    rw [hm.proc, if_neg]
    · exact h.parent j q hj
    · rintro rfl
      exact h.no_child (by rw [hpc]; rfl) j hj
  · rw [hm.proc, if_neg hpinit.symm]
    exact h.initLive
  · rw [hm.thread, if_neg hpinit.symm]
    exact h.initStays
  · rw [hm.thread] at hj
    rw [hpar]
    split_ifs at hj
    · exact absurd hj (Nat.not_lt_zero j)
    · exact h.handed e j hj

theorem Table.reap (h : Table m) {i k addr : ℕ} {kids : Bool} {a0 : ℤ}
    (hpc : m.thread p = .waitScan addr k kids) (hz : (m.proc i).state = .zombie)
    (hm : Moves m p (.user a0) i freeproc m') (hw : m'.waitLock = none) : Table m' := by
  have hrel : LockMove m p (.user a0) m'.waitLock := .release (by rw [hpc]; rfl) hw rfl
  have hpar : ∀ j q, (m'.proc j).parent = some q → (m.proc j).parent = some q ∧ q ≠ i := by
    intro j q hj
    rw [hm.proc] at hj
    split_ifs at hj with hji
    · cases hj
    · refine ⟨hj, ?_⟩
      rintro rfl
      have := h.parent j q hj
      rw [hz] at this
      cases this
  refine ⟨h.lock_moves hm hrel, fun q hq => ?_, fun q => ?_, fun j hj => ?_, fun q j hq => ?_,
    fun q r j hq hr => ?_, fun q j hq => ?_, fun j hj => ?_, fun j hj => ?_, fun j q hj => ?_, ?_,
    ?_, fun e j hj hej => ?_⟩
  · rw [hm.thread] at hq
    split_ifs at hq with hqp
    · cases hq
    · rw [proc_same hm.proc (h.running q hq) hz (by decide)]
      exact h.running q hq
  · rw [hm.thread, hm.proc]
    by_cases hqi : q = i
    · have hdead : m.thread i = .dead := (h.dead i).2 (by rw [hz]; rfl)
      have hpi : i ≠ p := by
        rintro rfl
        rw [hpc] at hdead
        cases hdead
      simp [hqi, hpi, hdead, freeproc, isLive]
    · rw [if_neg hqi]
      split_ifs with hqp
      · have := h.live (p := p) (by rw [hpc]; simp)
        simp [hqp, this]
      · exact h.dead q
  · rw [hm.proc]
    split_ifs
    · rfl
    · exact h.small j hj
  · have hq := hm.forking rfl hq
    rw [proc_same hm.proc (h.forked q j hq) hz (by decide)]
    exact h.forked q j hq
  · exact h.forker q r j (hm.forking rfl hq) (hm.forking rfl hr)
  · rw [hm.thread] at hq
    split_ifs at hq
    have := h.forked q j (by rw [hq]; rfl)
    rw [proc_same hm.proc this hz (by decide)]
    exact h.publish q j hq
  · rw [hm.proc] at hj ⊢
    split_ifs at hj ⊢ with hji
    · exact .inl rfl
    · exact h.orphan j hj
  · rw [hm.proc] at hj ⊢
    split_ifs at hj ⊢ with hji
    · rfl
    · exact h.unused j hj
  · obtain ⟨hj, hqi⟩ := hpar j q hj
    rw [hm.proc, if_neg hqi]
    exact h.parent j q hj
  · rw [hm.proc, if_neg]
    · exact h.initLive
    · rintro hii
      have := h.initLive
      rw [hii, hz] at this
      cases this
  · rw [hm.thread]
    split_ifs
    · rfl
    · exact h.initStays
  · rw [hm.thread] at hj
    split_ifs at hj
    · exact absurd hj (Nat.not_lt_zero j)
    · exact h.handed e j hj (hpar j e hej).1

end

end ExitWait
end Xv6
