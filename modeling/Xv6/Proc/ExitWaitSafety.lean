import Xv6.Proc.ExitWaitHistory

/-!
The exit/wait protocol: the sleeping parents, the invariant of all steps together, and
what it says about every run.
-/

namespace Xv6
namespace ExitWait

/-- The number of slots `wakeup(p->parent)` has looked at. -/
def Pc.woken : Pc → ℕ
  | exitWakeup _ j => j
  | exitZombie _ => NPROC
  | _ => 0

/-- A scan of `wakeup(initproc)` has not passed `init`. -/
def Pc.wakesInit : Pc → Prop
  | exitReparentWakeup _ _ j => j ≤ init
  | _ => False

/-- Sleeping parents: one that sleeps in `wait` has no zombie child, except that `init`
may still be woken for a child it has just been given. -/
structure Awake (m : Machine) : Prop where
  asleep : ∀ p, (m.proc p).state = .sleeping →
    (m.proc p).chan = some p ∧ ∃ addr, m.thread p = .waitResume addr
  scanned : ∀ q addr k kids, m.thread q = .waitScan addr k kids →
    ∀ z, z < k → (m.proc z).parent = some q → (m.proc z).state ≠ .zombie
  woken : ∀ e q, q < (m.thread e).woken → (m.proc e).parent = some q →
    (m.proc q).state ≠ .sleeping
  pending : ∀ z q, (m.proc z).state = .zombie → (m.proc z).parent = some q →
    (m.proc q).state = .sleeping → q = init ∧ ∃ e, (m.thread e).wakesInit

section
variable {m m' : Machine} {p x : ℕ} {pc' : Pc} {y : Proc}

/-- Steps that make no process sleep, no process a zombie, and no zombie anyone's child. -/
theorem Awake.quiet (h : Awake m) (hm : Moves m p pc' x y m')
    (hpar : ∀ q, y.parent = some q → (m.proc x).parent = some q ∨
      y.state ≠ .zombie ∧ (m'.thread x).woken = 0)
    (hz : y.state = .zombie → (m.proc x).state = .zombie)
    (hsl : y.state = .sleeping → (m.proc x).state = .sleeping ∧ y.chan = (m.proc x).chan)
    (hstay : (m'.proc p).state = .sleeping → pc' = m.thread p)
    (hscan : ∀ addr k kids, pc' = .waitScan addr k kids → ∀ z, z < k →
      (m.proc z).parent = some p → (m.proc z).state ≠ .zombie)
    (hwoken : ∀ q, q < pc'.woken → (m.proc p).parent = some q → (m'.proc q).state ≠ .sleeping)
    (hwakes : (m.thread p).wakesInit → (m'.proc init).state = .sleeping → pc'.wakesInit) :
    Awake m' := by
  have hz' : ∀ z, (m'.proc z).state = .zombie → (m.proc z).state = .zombie := by
    intro z hzz
    rw [hm.proc] at hzz
    split_ifs at hzz with hzx
    · exact hzx ▸ hz hzz
    · exact hzz
  have hsl' : ∀ q, (m'.proc q).state = .sleeping →
      (m.proc q).state = .sleeping ∧ (m'.proc q).chan = (m.proc q).chan := by
    intro q hq
    rw [hm.proc] at hq ⊢
    split_ifs at hq ⊢ with hqx
    · rw [hqx]
      exact hsl hq
    · exact ⟨hq, rfl⟩
  have hpar' : ∀ z q, (m'.proc z).parent = some q → (m.proc z).parent = some q ∨
      (m'.proc z).state ≠ .zombie ∧ (m'.thread z).woken = 0 := by
    intro z q hzq
    rw [hm.proc] at hzq ⊢
    split_ifs at hzq ⊢ with hzx
    · rw [hzx]
      exact hpar q hzq
    · exact .inl hzq
  refine ⟨fun q hq => ?_, fun q addr k kids hq z hzk hzq => ?_, fun e q hq heq => ?_,
    fun z q hzz hzq hq => ?_⟩
  · obtain ⟨hold, hchan⟩ := hsl' q hq
    obtain ⟨hc, addr, ha⟩ := h.asleep q hold
    refine ⟨hchan.trans hc, addr, ?_⟩
    rw [hm.thread]
    split_ifs with hqp
    · rw [hstay (hqp ▸ hq), ← hqp, ha]
    · exact ha
  · intro hzz
    rcases hpar' z q hzq with hzq | ⟨hnz, -⟩
    · rw [hm.thread] at hq
      split_ifs at hq with hqp
      · exact hscan addr k kids hq z hzk (hqp ▸ hzq) (hz' z hzz)
      · exact h.scanned q addr k kids hq z hzk hzq (hz' z hzz)
    · exact hnz hzz
  · rcases hpar' e q heq with heq | ⟨-, hw⟩
    · rw [hm.thread] at hq
      split_ifs at hq with hep
      · exact hwoken q hq (hep ▸ heq)
      · exact fun hqs => h.woken e q hq heq (hsl' q hqs).1
    · omega
  · rcases hpar' z q hzq with hzq | ⟨hnz, -⟩
    · obtain ⟨rfl, e, he⟩ := h.pending z q (hz' z hzz) hzq (hsl' q hq).1
      refine ⟨rfl, e, ?_⟩
      rw [hm.thread]
      split_ifs with hep
      · exact hwakes (hep ▸ he) hq
      · exact he
    · exact absurd hzz hnz

theorem Awake.fork (h : Awake m) (ht : Table m) {np : ℕ} {a0 : ℤ}
    (hpc : m.thread p = .forkPublish np)
    (hT : ∀ q, m'.thread q =
      if q = p then .user a0 else if q = np then .user 0 else m.thread q)
    (hP : ∀ i, m'.proc i =
      if i = np then { m.proc np with state := .runnable } else m.proc i) : Awake m' := by
  have hused : (m.proc np).state = .used := ht.forked p np (by rw [hpc]; rfl)
  have hdead : m.thread np = .dead := (ht.dead np).2 (by rw [hused]; rfl)
  have hpar : ∀ z, (m'.proc z).parent = (m.proc z).parent := by
    intro z
    rw [hP]
    split_ifs with hz
    · rw [hz]
    · rfl
  have hst : ∀ z, (m'.proc z).state ≠ .runnable → m'.proc z = m.proc z ∧ z ≠ np := by
    intro z hz
    rw [hP] at hz ⊢
    split_ifs at hz ⊢ with hzn
    · exact absurd rfl hz
    · exact ⟨rfl, hzn⟩
  have hthread : ∀ q, m.thread q ≠ .dead → q ≠ p → m'.thread q = m.thread q := by
    intro q hq hqp
    rw [hT, if_neg hqp, if_neg]
    rintro rfl
    exact hq hdead
  have hnot : ∀ q, m'.thread q ≠ m.thread q → ∃ a0, m'.thread q = .user a0 := by
    intro q hq
    rw [hT] at hq ⊢
    split_ifs at hq ⊢
    · exact ⟨_, rfl⟩
    · exact ⟨_, rfl⟩
    · exact absurd rfl hq
  refine ⟨fun q hq => ?_, fun q addr k kids hq z hzk hzq hzz => ?_, fun e q hq heq hqs => ?_,
    fun z q hzz hzq hq => ?_⟩
  · obtain ⟨heq, -⟩ := hst q (by rw [hq]; simp)
    rw [heq] at hq ⊢
    obtain ⟨hc, addr, ha⟩ := h.asleep q hq
    refine ⟨hc, addr, ?_⟩
    rw [hthread q (by rw [ha]; simp), ha]
    rintro rfl
    rw [hpc] at ha
    cases ha
  · by_cases hqt : m'.thread q = m.thread q
    · rw [(hst z (by rw [hzz]; simp)).1] at hzz
      exact h.scanned q addr k kids (hqt ▸ hq) z hzk (hpar z ▸ hzq) hzz
    · obtain ⟨_, ha⟩ := hnot q hqt
      rw [ha] at hq
      cases hq
  · by_cases het : m'.thread e = m.thread e
    · rw [(hst q (by rw [hqs]; simp)).1] at hqs
      exact h.woken e q (het ▸ hq) (hpar e ▸ heq) hqs
    · obtain ⟨_, ha⟩ := hnot e het
      rw [ha] at hq
      exact absurd hq (Nat.not_lt_zero q)
  · rw [hpar] at hzq
    rw [(hst z (by rw [hzz]; simp)).1] at hzz
    rw [(hst q (by rw [hq]; simp)).1] at hq
    obtain ⟨rfl, e, he⟩ := h.pending z q hzz hzq hq
    refine ⟨rfl, e, ?_⟩
    rw [hthread e]
    · exact he
    · rintro hd
      rw [hd] at he
      exact he
    · rintro rfl
      rw [hpc] at he
      exact he

/-- Nobody but the holder of `wait_lock` is in a place where it is held. -/
theorem Table.unlocked (ht : Table m) (hp : (m.thread p).locked = true) {q : ℕ} (hq : q ≠ p) :
    (m.thread q).locked = false := by
  rw [← ht.lock] at hp
  have : ¬ (m.thread q).locked = true := by
    rw [← ht.lock, hp]
    simpa using hq.symm
  simpa using this

theorem Pc.locked_of_woken {pc : Pc} {q : ℕ} (h : q < pc.woken) : pc.locked = true := by
  cases pc <;> first | rfl | exact absurd h (Nat.not_lt_zero q)

theorem Awake.reparent (h : Awake m) (ht : Table m) {i : ℕ} {st : ℤ}
    (hpc : m.thread p = .exitReparent st i)
    (hm : Moves m p (.exitReparentWakeup st i 0) i { m.proc i with parent := some init } m') :
    Awake m' := by
  have hlocked : (m.thread p).locked = true := by rw [hpc]; rfl
  have hstate : ∀ j, (m'.proc j).state = (m.proc j).state ∧ (m'.proc j).chan = (m.proc j).chan := by
    intro j
    rw [hm.proc]
    split_ifs with hj
    · rw [hj]
      exact ⟨rfl, rfl⟩
    · exact ⟨rfl, rfl⟩
  have hwit : (m'.thread p).wakesInit := by
    rw [hm.thread, if_pos rfl]
    exact Nat.zero_le init
  refine ⟨fun q hq => ?_, fun q addr k kids hq => ?_, fun e q hq => ?_, fun z q hzz hzq hq => ?_⟩
  · rw [(hstate q).1] at hq
    obtain ⟨hc, addr, ha⟩ := h.asleep q hq
    refine ⟨(hstate q).2.trans hc, addr, ?_⟩
    rw [hm.thread, if_neg, ha]
    rintro rfl
    rw [hpc] at ha
    cases ha
  · rw [hm.thread] at hq
    split_ifs at hq with hqp
    have := ht.unlocked hlocked hqp
    rw [hq] at this
    cases this
  · rw [hm.thread] at hq
    split_ifs at hq with hep
    · exact absurd hq (Nat.not_lt_zero q)
    · have := ht.unlocked hlocked hep
      rw [Pc.locked_of_woken hq] at this
      cases this
  · rw [(hstate z).1] at hzz
    rw [(hstate q).1] at hq
    rw [hm.proc] at hzq
    split_ifs at hzq
    · cases hzq
      exact ⟨rfl, p, hwit⟩
    · exact ⟨(h.pending z q hzz hzq hq).1, p, hwit⟩

theorem Awake.zombie (h : Awake m) (ht : Table m) {st : ℤ} (hpc : m.thread p = .exitZombie st)
    (hm : Moves m p .dead p { m.proc p with xstate := st, state := .zombie } m') : Awake m' := by
  have hlocked : (m.thread p).locked = true := by rw [hpc]; rfl
  have hother : ∀ q, (m'.proc q).state = .sleeping → m'.proc q = m.proc q ∧ q ≠ p := by
    intro q hq
    rw [hm.proc] at hq ⊢
    split_ifs at hq ⊢ with hqp
    exact ⟨rfl, hqp⟩
  have hpar : ∀ z, (m'.proc z).parent = (m.proc z).parent := by
    intro z
    rw [hm.proc]
    split_ifs with hz
    · rw [hz]
    · rfl
  refine ⟨fun q hq => ?_, fun q addr k kids hq => ?_, fun e q hq => ?_, fun z q hzz hzq hq => ?_⟩
  · obtain ⟨heq, hqp⟩ := hother q hq
    rw [heq] at hq ⊢
    rw [hm.thread, if_neg hqp]
    exact h.asleep q hq
  · rw [hm.thread] at hq
    split_ifs at hq with hqp
    have := ht.unlocked hlocked hqp
    rw [hq] at this
    cases this
  · rw [hm.thread] at hq
    split_ifs at hq with hep
    · exact absurd hq (Nat.not_lt_zero q)
    · have := ht.unlocked hlocked hep
      rw [Pc.locked_of_woken hq] at this
      cases this
  · obtain ⟨heq, hqp⟩ := hother q hq
    rw [heq] at hq
    rw [hpar] at hzq
    rw [hm.proc] at hzz
    split_ifs at hzz with hzp
    · have hq64 : q < NPROC := by
        by_contra hge
        rw [ht.small q (by omega)] at hq
        cases hq
      exact absurd hq (h.woken p q (by rw [hpc]; exact hq64) (hzp ▸ hzq))
    · obtain ⟨rfl, e, he⟩ := h.pending z q hzz hzq hq
      have hep : e ≠ p := by
        rintro rfl
        rw [hpc] at he
        exact he
      have := ht.unlocked hlocked hep
      revert he this
      cases m.thread e <;> simp [Pc.wakesInit, Pc.locked]

theorem Awake.sleep (h : Awake m) (ht : Table m) {addr k : ℕ} {kids : Bool} (hk : NPROC ≤ k)
    (hpc : m.thread p = .waitScan addr k kids)
    (hm : Moves m p (.waitResume addr) p { m.proc p with chan := some p, state := .sleeping } m') :
    Awake m' := by
  have hlocked : (m.thread p).locked = true := by rw [hpc]; rfl
  have hpar : ∀ z, (m'.proc z).parent = (m.proc z).parent := by
    intro z
    rw [hm.proc]
    split_ifs with hz
    · rw [hz]
    · rfl
  refine ⟨fun q hq => ?_, fun q addr k kids hq => ?_, fun e q hq => ?_, fun z q hzz hzq hq => ?_⟩
  · rw [hm.proc] at hq
    rw [hm.proc, hm.thread]
    split_ifs at hq ⊢ with hqp
    · exact ⟨by rw [hqp], addr, rfl⟩
    · exact h.asleep q hq
  · rw [hm.thread] at hq
    split_ifs at hq with hqp
    have := ht.unlocked hlocked hqp
    rw [hq] at this
    cases this
  · rw [hm.thread] at hq
    split_ifs at hq with hep
    · exact absurd hq (Nat.not_lt_zero q)
    · have := ht.unlocked hlocked hep
      rw [Pc.locked_of_woken hq] at this
      cases this
  · rw [hpar] at hzq
    rw [hm.proc] at hzz hq
    split_ifs at hzz with hzp
    split_ifs at hq with hqp
    · have hzk : z < k := by
        by_contra hge
        rw [ht.small z (by omega)] at hzz
        cases hzz
      exact absurd hzz (h.scanned p addr k kids hpc z hzk (hqp ▸ hzq))
    · obtain ⟨rfl, e, he⟩ := h.pending z q hzz hzq hq
      have hep : e ≠ p := by
        rintro rfl
        rw [hpc] at he
        exact he
      have := ht.unlocked hlocked hep
      revert he this
      cases m.thread e <;> simp [Pc.wakesInit, Pc.locked]

/-! ### All steps together -/

theorem Moves.of_update (hT : m'.thread = Function.update m.thread p pc')
    (hP : m'.proc = Function.update m.proc x y) : Moves m p pc' x y m' :=
  ⟨fun q => by rw [hT, Function.update_apply], fun i => by rw [hP, Function.update_apply]⟩

theorem Moves.of_goto (hT : m'.thread = Function.update m.thread p pc') (hP : m'.proc = m.proc)
    (x : ℕ) : Moves m p pc' x (m.proc x) m' :=
  .of_update hT (by rw [hP, Function.update_eq_self])

theorem Moves.of_setProc (hT : m'.thread = m.thread) (hP : m'.proc = Function.update m.proc x y)
    (p : ℕ) : Moves m p (m.thread p) x y m' :=
  .of_update (by rw [hT, Function.update_eq_self]) hP

structure Inv (m : Machine) : Prop where
  table : Table m
  logged : Logged m
  awake : Awake m

theorem inv_start : Inv start := by
  have hproc : ∀ i, (start.proc i).parent = none ∧ (start.proc i).state ≠ .zombie ∧
      (start.proc i).state ≠ .sleeping ∧ (start.proc i).state ≠ .used := by
    intro i
    simp only [start]
    split_ifs <;> simp [freeproc]
  have hthread : ∀ q, start.thread q = .user 0 ∨ start.thread q = .dead := by
    intro q
    simp only [start]
    split_ifs <;> simp
  refine ⟨⟨fun p => ?_, fun p hp => ?_, fun p => ?_, fun i hi => ?_, fun p i hp => ?_,
    fun p q i hp => ?_, fun p i hp => ?_, fun i _ => ?_, fun i _ => (hproc i).1,
    fun i q hi => ?_, rfl, rfl, fun e i _ => ?_⟩,
    ⟨trivial, fun i => ?_, fun i _ => .inl (hproc i).1⟩,
    ⟨fun p hp => absurd hp (hproc p).2.2.1, fun q addr k kids hq => ?_, fun e q _ heq => ?_,
      fun z q hz => absurd hz (hproc z).2.1⟩⟩
  · have hw : start.waitLock = none := rfl
    rcases hthread p with hp | hp <;> simp [hp, hw, Pc.locked]
  · rcases hthread p with h | h <;> simp [h, Pc.locked] at hp
  · simp only [start]
    split_ifs <;> simp [isLive, freeproc]
  · have : i ≠ init := by
      rintro rfl
      simp [NPROC, init] at hi
    simp [start, this, freeproc]
  · rcases hthread p with h | h <;> simp [h, Pc.forking] at hp
  · rcases hthread p with h | h <;> simp [h, Pc.forking] at hp
  · rcases hthread p with h | h <;> simp [h] at hp
  · simp only [start]
    split_ifs with hi
    · exact .inr (.inr hi)
    · exact .inl rfl
  · simp [(hproc i).1] at hi
  · simp [(hproc i).1]
  · simp only [start, life, Proc.life]
    split_ifs <;> simp [freeproc]
  · rcases hthread q with h | h <;> simp [h] at hq
  · simp [(hproc e).1] at heq

structure Restates (a y : Proc) : Prop where
  parent : y.parent = a.parent
  pid : y.pid = a.pid
  xstate : y.xstate = a.xstate
  state : y.state = a.state ∧ y.chan = a.chan ∨
    isLive a.state = true ∧ (y.state = .runnable ∨ y.state = .running)

namespace Restates
variable {a : Proc}

theorem refl (a : Proc) : Restates a a := ⟨rfl, rfl, rfl, .inl ⟨rfl, rfl⟩⟩

theorem live (h : Restates a y) : isLive y.state = isLive a.state := by
  rcases h.state with ⟨hs, -⟩ | ⟨ha, hs | hs⟩
  · rw [hs]
  · rw [hs, ha]
    rfl
  · rw [hs, ha]
    rfl

theorem of_not_live (h : Restates a y) (hs : isLive a.state = false) : y.state = a.state := by
  rcases h.state with ⟨hs, -⟩ | ⟨ha, -⟩
  · exact hs
  · rw [hs] at ha
    cases ha

theorem state_iff (h : Restates a y) {s : ProcState} (hs : isLive s = false) :
    y.state = s ↔ a.state = s := by
  constructor
  · intro hy
    rw [← hy, h.of_not_live]
    rw [← h.live, hy, hs]
  · intro ha
    rw [← ha, h.of_not_live]
    rw [ha, hs]

theorem sleeping (h : Restates a y) (hs : y.state = .sleeping) :
    a.state = .sleeping ∧ y.chan = a.chan := by
  rcases h.state with ⟨ha, hc⟩ | ⟨-, hr | hr⟩
  · exact ⟨ha ▸ hs, hc⟩
  · rw [hr] at hs
    cases hs
  · rw [hr] at hs
    cases hs

theorem life (h : Restates a y) : y.life = a.life := by
  simp only [Proc.life, h.pid, h.xstate]
  rcases h.state with ⟨hs, -⟩ | ⟨ha, hs | hs⟩
  · rw [hs]
  all_goals
    rw [hs]
    revert ha
    cases a.state <;> simp [isLive]

end Restates

theorem not_reparented (h : (m.thread p).reparented = 0) {P : ℕ → Prop} {n : ℕ} :
    ∀ i, P i → i < (m.thread p).reparented → i < n := by
  intro i _ hi
  rw [h] at hi
  exact absurd hi (Nat.not_lt_zero i)

theorem Logged.moves (h : Logged m) (hm : Moves m p pc' x y m') (hy : Restates (m.proc x) y)
    (hh : m'.history = m.history) (hrep : ∀ i, (m.proc i).life ≠ .absent → i < (m.thread p).reparented → i < pc'.reparented) :
    Logged m' :=
  h.quiet hm (hh ▸ h.sound) (fun _ => by rw [hh]) (fun _ => by rw [hh]) hy.life (.inr hy.parent)
    hrep

theorem Inv.moves (h : Inv m) (hm : Moves m p pc' x y m') (hy : Restates (m.proc x) y)
    (hl : LockMove m p pc' m'.waitLock) (hlogged : Logged m')
    (hother : x ≠ p → (m.proc x).state = .running → y.state = .running)
    (hhere : pc'.locked = true → (m'.proc p).state = .running)
    (hstay : (m'.proc p).state = .sleeping → pc' = m.thread p)
    (hdead : pc' = .dead ↔ m.thread p = .dead) (hfork : pc'.forking = (m.thread p).forking)
    (hpub : ∀ i, pc' = .forkPublish i → m.thread p = .forkPublish i)
    (hexit : p = init → pc'.exiting = false)
    (hhanded : ∀ i, i < pc'.reparented → (m.proc i).parent ≠ some p)
    (hscan : ∀ addr k kids, pc' = .waitScan addr k kids → ∀ z, z < k →
      (m.proc z).parent = some p → (m.proc z).state ≠ .zombie)
    (hwoken : ∀ q, q < pc'.woken → (m.proc p).parent = some q → (m'.proc q).state ≠ .sleeping)
    (hwakes : (m.thread p).wakesInit → (m'.proc init).state = .sleeping → pc'.wakesInit) :
    Inv m' := by
  constructor
  · refine h.table.quiet hm hl ⟨hdead, hfork, hpub, hexit, hhanded, hy.parent, hy.live,
      hy.state_iff rfl, hy.state_iff rfl, fun hx hxp => hother hxp hx, fun hlk => ?_⟩
    rw [← hm.proc]
    exact hhere hlk
  · exact hlogged
  · exact h.awake.quiet hm (fun q hq => .inl (hy.parent ▸ hq)) (hy.state_iff rfl).1 hy.sleeping
      hstay hscan hwoken hwakes

theorem Inv.sched (h : Inv m) (hy : Restates (m.proc p) y)
    (hrun : (m.thread p).locked = true → y.state = .running) : Inv (m.setProc p y) := by
  have hm : Moves m p (m.thread p) p y (m.setProc p y) := .of_setProc (by rfl) (by rfl) p
  have hpp : (m.setProc p y).proc p = y := by
    rw [hm.proc, if_pos rfl]
  refine h.moves hm hy (.keep rfl rfl) (h.logged.moves hm hy rfl fun _ _ => id) (fun hp => absurd rfl hp)
    (fun hlk => by rw [hpp, hrun hlk]) (fun _ => rfl) Iff.rfl rfl (fun _ => id) ?_
    (h.table.handed p) (h.awake.scanned p) ?_ (fun hw _ => hw)
  · rintro rfl
    exact h.table.initStays
  · intro q hq hpq hqs
    rw [hm.proc] at hqs
    split_ifs at hqs with hqp
    · exact h.awake.woken p q hq hpq (hqp ▸ (hy.sleeping hqs).1)
    · exact h.awake.woken p q hq hpq hqs

theorem Inv.goto (h : Inv m) (hm : Moves m p pc' p (m.proc p) m')
    (hrun : (m.proc p).state = .running) (hl : LockMove m p pc' m'.waitLock)
    (hlogged : Logged m') (hdead : pc' ≠ .dead) (hpub : ∀ i, pc' ≠ .forkPublish i)
    (hfork : pc'.forking = (m.thread p).forking) (hexit : p = init → pc'.exiting = false)
    (hhanded : ∀ i, i < pc'.reparented → (m.proc i).parent ≠ some p)
    (hscan : ∀ addr k kids, pc' = .waitScan addr k kids → ∀ z, z < k →
      (m.proc z).parent = some p → (m.proc z).state ≠ .zombie)
    (hwoken : ∀ q, q < pc'.woken → (m.proc p).parent = some q → (m.proc q).state ≠ .sleeping)
    (hwakes : (m.thread p).wakesInit → (m.proc init).state = .sleeping → pc'.wakesInit) :
    Inv m' := by
  have hproc : m'.proc = m.proc := by
    funext i
    rw [hm.proc]
    split_ifs with hi
    · rw [hi]
    · rfl
  have hold : m.thread p ≠ .dead := by
    rw [Ne, h.table.dead, hrun]
    simp [isLive]
  refine h.moves hm (.refl _) hl hlogged (fun _ => id) (fun _ => ?_) (fun hs => ?_)
    (by simp [hdead, hold]) hfork (fun i hi => absurd hi (hpub i)) hexit hhanded hscan
    (fun q hq hpq => ?_) (fun hw hi => hwakes hw (hproc ▸ hi))
  · rw [hproc, hrun]
  · rw [hproc, hrun] at hs
    cases hs
  · rw [hproc]
    exact hwoken q hq hpq

theorem Inv.plain (h : Inv m) (hT : m'.thread = Function.update m.thread p pc')
    (hP : m'.proc = m.proc) (hrun : (m.proc p).state = .running)
    (hl : LockMove m p pc' m'.waitLock) (hh : m'.history = m.history)
    (hdead : pc' ≠ .dead) (hnew : pc'.forking = none) (hold : (m.thread p).forking = none)
    (hexit : p = init → pc'.exiting = false) (hrep : (m.thread p).reparented = 0)
    (hrep' : pc'.reparented = 0) (hw : pc'.woken = 0)
    (hscan : ∀ addr k kids, pc' = .waitScan addr k kids → k = 0) : Inv m' := by
  have hm : Moves m p pc' p (m.proc p) m' := .of_goto hT hP p
  refine h.goto hm hrun hl (h.logged.moves hm (.refl _) hh (not_reparented hrep)) hdead
    (fun i hi => ?_) (hnew.trans hold.symm) hexit (fun i hi => ?_) (fun addr k kids hk z hz => ?_)
    (fun q hq => ?_) (fun hwi => ?_)
  · rw [hi] at hnew
    cases hnew
  · rw [hrep'] at hi
    exact absurd hi (Nat.not_lt_zero i)
  · rw [hscan addr k kids hk] at hz
    exact absurd hz (Nat.not_lt_zero z)
  · rw [hw] at hq
    exact absurd hq (Nat.not_lt_zero q)
  · revert hwi hrep
    cases m.thread p <;> simp [Pc.wakesInit, Pc.reparented]

theorem Inv.alloc (h : Inv m) {i k : ℕ} (hi : i < NPROC) (hpc : m.thread p = .forkScan k)
    (hu : (m.proc i).state = .unused) (hm : Moves m p (.forkParent i) i y m')
    (hy : y.state = .used) (hyp : y.parent = (m.proc i).parent) (hw : m'.waitLock = m.waitLock)
    (hh : m'.history = m.history) : Inv m' := by
  have hnone : y.parent = none := by rw [hyp, h.table.unused i hu]
  have hlife : y.life = (m.proc i).life := by
    rw [Proc.life, Proc.life, hy, hu]
  have hmp : (m'.proc p).state ≠ .sleeping := by
    intro hs
    rw [hm.proc] at hs
    split_ifs at hs
    · rw [hy] at hs
      cases hs
    · obtain ⟨-, addr, ha⟩ := h.awake.asleep p hs
      rw [hpc] at ha
      cases ha
  refine ⟨h.table.alloc hi hpc hu hy hnone hm hw, ?_, ?_⟩
  · exact h.logged.quiet hm (hh ▸ h.logged.sound) (fun _ => by rw [hh]) (fun _ => by rw [hh]) hlife
      (.inr hyp) (not_reparented (by rw [hpc]; rfl))
  · refine h.awake.quiet hm (fun q hq => ?_) (fun hz => ?_) (fun hs => ?_)
      (fun hs => absurd hs hmp) (fun _ _ _ hk => by cases hk)
      (fun q hq => absurd hq (Nat.not_lt_zero q)) (fun hwi => ?_)
    · rw [hnone] at hq
      cases hq
    · rw [hy] at hz
      cases hz
    · rw [hy] at hs
      cases hs
    · rw [hpc] at hwi
      exact hwi.elim

theorem Inv.allocFailed (h : Inv m) {i k : ℕ} {a0 : ℤ} (hrun : (m.proc p).state = .running)
    (hpc : m.thread p = .forkScan k)
    (hu : (m.proc i).state = .unused) (hm : Moves m p (.user a0) i freeproc m')
    (hw : m'.waitLock = m.waitLock) (hh : m'.history = .free i .used :: m.history) : Inv m' := by
  have hpi : p ≠ i := by
    rintro rfl
    rw [hrun] at hu
    cases hu
  have hpar : freeproc.parent = (m.proc i).parent := by rw [h.table.unused i hu, freeproc]
  have hlife : freeproc.life = (m.proc i).life := by
    rw [Proc.life, Proc.life, hu]
    rfl
  have habsent : ExitWait.life m.history i = .absent := by
    rw [h.logged.life, ← hlife]
    rfl
  refine ⟨h.table.quiet hm (.keep hw (by rw [hpc]; rfl)) ⟨by simp [hpc], by rw [hpc]; rfl,
    fun _ hp => Pc.noConfusion hp, fun _ => rfl, fun j hj => absurd hj (Nat.not_lt_zero j), hpar,
    by rw [hu]; rfl, by simp [hu, freeproc], by simp [hu, freeproc], fun hr _ => ?_,
    fun hl => Bool.noConfusion hl⟩, ?_, ?_⟩
  · rw [hu] at hr
    cases hr
  · refine h.logged.quiet hm ?_ (fun _ => by rw [hh, life]) (fun _ => by rw [hh, parentOf]) hlife
      (.inr hpar) (not_reparented (by rw [hpc]; rfl))
    rw [hh]
    exact ⟨.inr ⟨rfl, habsent⟩, h.logged.sound⟩
  · refine h.awake.quiet hm (fun q hq => ?_) (fun hz => ?_) (fun hs => ?_)
      (fun hs => ?_) (fun _ _ _ hk => by cases hk)
      (fun q hq => absurd hq (Nat.not_lt_zero q)) (fun hwi => ?_)
    · cases hq
    · cases hz
    · cases hs
    · rw [hm.proc, if_neg hpi, hrun] at hs
      cases hs
    · rw [hpc] at hwi
      exact hwi.elim

theorem Inv.forkScan (h : Inv m) (hrun : (m.proc p).state = .running) {ok : Bool} {i : ℕ}
    (hpc : m.thread p = .forkScan i) (hs : callStep m p ok (.forkScan i) = some m') : Inv m' := by
  have hkeep : ∀ {pc : Pc}, pc.locked = false → LockMove m p pc m.waitLock :=
    fun hl => .keep rfl (by rw [hl, hpc]; rfl)
  have hplain : ∀ {pc : Pc}, pc = .forkScan (i + 1) ∨ pc = .user (-1) → Inv (m.goto p pc) := by
    intro pc hpc'
    rcases hpc' with rfl | rfl
    all_goals
      exact h.plain (by rfl) (by rfl) hrun (hkeep rfl) (by rfl) (by simp) rfl (by rw [hpc]; rfl)
        (fun _ => rfl) (by rw [hpc]; rfl) rfl rfl (by simp)
  simp only [callStep] at hs
  split_ifs at hs with hi hu hok <;> cases hs
  · exact h.alloc hi hpc hu (.of_update (by rfl) (by rfl)) (by rfl) (by rfl) (by rfl) (by rfl)
  · exact h.allocFailed hrun hpc hu (.of_update (by rfl) (by rfl)) (by rfl) (by rfl)
  · exact hplain (.inl rfl)
  · exact hplain (.inr rfl)

theorem Inv.forkParent (h : Inv m) (hrun : (m.proc p).state = .running) {np : ℕ}
    (hpc : m.thread p = .forkParent np)
    (hm : Moves m p (.forkPublish np) np { m.proc np with parent := some p } m')
    (hw : m'.waitLock = m.waitLock) (hh : m'.history = m.history) : Inv m' := by
  have hused : (m.proc np).state = .used := h.table.forked p np (by rw [hpc]; rfl)
  have hdead : m.thread np = .dead := (h.table.dead np).2 (by rw [hused]; rfl)
  have hpn : p ≠ np := by
    rintro rfl
    rw [hrun] at hused
    cases hused
  have habsent : ({ m.proc np with parent := some p } : Proc).life = .absent := by
    rw [Proc.life, hused]
  refine ⟨h.table.setParent hpc hm hw, ?_, ?_⟩
  · refine h.logged.quiet hm (hh ▸ h.logged.sound) (fun _ => by rw [hh]) (fun _ => by rw [hh]) rfl
      (.inl habsent) (not_reparented (by rw [hpc]; rfl))
  · refine h.awake.quiet hm (fun q _ => .inr ⟨?_, ?_⟩) id (fun hs => ⟨hs, rfl⟩)
      (fun hs => ?_) (fun _ _ _ hk => by cases hk)
      (fun q hq => absurd hq (Nat.not_lt_zero q)) (fun hwi => ?_)
    · simp [hused]
    · rw [hm.thread, if_neg hpn.symm, hdead]
      rfl
    · rw [hm.proc, if_neg hpn, hrun] at hs
      cases hs
    · rw [hpc] at hwi
      exact hwi.elim

theorem Machine.wakeupOne_proc (m : Machine) (p : ℕ) (chan : Option ℕ) (j q : ℕ) :
    (m.wakeupOne p chan j).proc q =
      if q = j ∧ j ≠ p ∧ (m.proc j).state = .sleeping ∧ (m.proc j).chan = chan then
        { m.proc j with state := .runnable }
      else m.proc q := by
  unfold Machine.wakeupOne
  by_cases hj : j ≠ p ∧ (m.proc j).state = .sleeping ∧ (m.proc j).chan = chan
  · simp [hj, Machine.setProc, Function.update_apply]
  · rw [if_neg hj, if_neg (fun h => hj h.2)]

theorem Inv.wakeup (h : Inv m) (hrun : (m.proc p).state = .running) {j : ℕ} {chan : Option ℕ}
    (hlk : pc'.locked = (m.thread p).locked) (hdead : pc' ≠ .dead)
    (hpub : ∀ i, pc' ≠ .forkPublish i)
    (hfork : pc'.forking = (m.thread p).forking) (hexit : p = init → pc'.exiting = false)
    (hrep : (m.thread p).reparented = pc'.reparented)
    (hscan : ∀ addr k kids, pc' ≠ .waitScan addr k kids)
    (hwoken : ∀ q, q < pc'.woken → (m.proc p).parent = some q → q < (m.thread p).woken ∨
      q = j ∧ chan = some q)
    (hwakes : (m.thread p).wakesInit → pc'.wakesInit ∨ init = j ∧ chan = some init) :
    Inv ((m.wakeupOne p chan j).goto p pc') := by
  have hslept : ∀ q, ((m.wakeupOne p chan j).proc q).state = .sleeping →
      (m.proc q).state = .sleeping ∧ ¬ (q = j ∧ chan = some q) := by
    intro q hq
    rw [Machine.wakeupOne_proc] at hq
    split_ifs at hq with hj
    refine ⟨hq, ?_⟩
    rintro ⟨rfl, hc⟩
    have hqp : q ≠ p := by
      rintro rfl
      rw [hrun] at hq
      cases hq
    exact hj ⟨rfl, hqp, hq, by rw [(h.awake.asleep q hq).1, hc]⟩
  obtain ⟨x, y, hP, hy, hx⟩ : ∃ x y, (m.wakeupOne p chan j).proc = Function.update m.proc x y ∧
      Restates (m.proc x) y ∧ (x ≠ p → (m.proc x).state = .running → y.state = .running) := by
    unfold Machine.wakeupOne
    split_ifs with hj
    · refine ⟨j, _, rfl, ⟨rfl, rfl, rfl, .inr ⟨by rw [hj.2.1]; rfl, .inl rfl⟩⟩, fun _ hr => ?_⟩
      rw [hj.2.1] at hr
      cases hr
    · exact ⟨p, m.proc p, by rw [Function.update_eq_self], .refl _, fun hp => absurd rfl hp⟩
  have hrest : (m.wakeupOne p chan j).thread = m.thread ∧
      (m.wakeupOne p chan j).waitLock = m.waitLock ∧
      (m.wakeupOne p chan j).history = m.history := by
    unfold Machine.wakeupOne
    split_ifs <;> exact ⟨rfl, rfl, rfl⟩
  have hm : Moves m p pc' x y ((m.wakeupOne p chan j).goto p pc') :=
    .of_update (by rw [Machine.goto, hrest.1]) hP
  have hpp : ((m.wakeupOne p chan j).proc p).state = .running := by
    rw [Machine.wakeupOne_proc, if_neg (fun hj => hj.2.1 hj.1.symm), hrun]
  have hold : m.thread p ≠ .dead := by
    rw [Ne, h.table.dead, hrun]
    simp [isLive]
  refine h.moves hm hy (.keep hrest.2.1 hlk) (h.logged.moves hm hy hrest.2.2 fun _ _ hi => hrep ▸ hi) hx
    (fun _ => hpp) (fun hs => ?_) (by simp [hdead, hold]) hfork (fun i hi => absurd hi (hpub i))
    hexit (fun i hi => h.table.handed p i (hrep ▸ hi))
    (fun addr k kids hk => absurd hk (hscan addr k kids)) (fun q hq hpq hqs => ?_)
    (fun hw hi => ?_)
  · exact absurd hs (by rw [Machine.goto, hpp]; simp)
  · obtain ⟨hqs, hne⟩ := hslept q hqs
    exact h.awake.woken p q ((hwoken q hq hpq).resolve_right hne) hpq hqs
  · exact (hwakes hw).resolve_right (hslept init hi).2

theorem Table.lt_of_life (h : Table m) {i : ℕ} (hi : (m.proc i).life ≠ .absent) : i < NPROC := by
  by_contra hge
  rw [Proc.life, h.small i (not_lt.1 hge)] at hi
  exact hi rfl

theorem Inv.not_init (h : Inv m) (hp : (m.thread p).exiting = true) : p ≠ init := by
  rintro rfl
  rw [h.table.initStays] at hp
  cases hp

theorem Inv.exitReparent (h : Inv m) (hrun : (m.proc p).state = .running) {ok : Bool} {st : ℤ}
    {i : ℕ} (hpc : m.thread p = .exitReparent st i)
    (hs : callStep m p ok (.exitReparent st i) = some m') : Inv m' := by
  have hp : p ≠ init := h.not_init (by rw [hpc]; rfl)
  have hlocked : ∀ {pc : Pc}, pc.locked = true → LockMove m p pc m.waitLock :=
    fun hl => .keep rfl (by rw [hl, hpc]; rfl)
  have hhanded : ∀ j, j < i → (m.proc j).parent ≠ some p := by
    intro j hj
    exact h.table.handed p j (by rw [hpc]; exact hj)
  simp only [callStep] at hs
  split_ifs at hs with hi hpar <;> cases hs
  · have hm : Moves m p (.exitReparentWakeup st i 0) i { m.proc i with parent := some init }
        ((m.setProc i { m.proc i with parent := some init }).goto p
          (.exitReparentWakeup st i 0)) := .of_update (by rfl) (by rfl)
    exact ⟨h.table.reparent hpc hpar hm rfl, h.logged.reparent h.table hpc hpar hm rfl,
      h.awake.reparent h.table hpc hm⟩
  · have hm : Moves m p (.exitReparent st (i + 1)) p (m.proc p)
        (m.goto p (.exitReparent st (i + 1))) := .of_goto (by rfl) (by rfl) p
    refine h.goto hm hrun (hlocked rfl) (h.logged.moves hm (.refl _) rfl ?_) (by simp) (by simp)
      (by rw [hpc]; rfl) (fun hpi => absurd hpi hp) (fun j hj => ?_) (by simp)
      (fun q hq => absurd hq (Nat.not_lt_zero q)) (fun hw => ?_)
    · intro j _ hj
      rw [hpc] at hj
      exact Nat.lt_succ_of_lt hj
    · rcases Nat.lt_succ_iff_lt_or_eq.1 hj with hj | rfl
      · exact hhanded j hj
      · exact hpar
    · rw [hpc] at hw
      exact hw.elim
  · have hm : Moves m p (.exitWakeup st 0) p (m.proc p)
        (m.goto p (.exitWakeup st 0)) := .of_goto (by rfl) (by rfl) p
    refine h.goto hm hrun (hlocked rfl) (h.logged.moves hm (.refl _) rfl ?_) (by simp) (by simp)
      (by rw [hpc]; rfl) (fun hpi => absurd hpi hp) (fun j hj => ?_) (by simp)
      (fun q hq => absurd hq (Nat.not_lt_zero q)) (fun hw => ?_)
    · intro j hj _
      exact h.table.lt_of_life hj
    · exact hhanded j (lt_of_lt_of_le hj (not_lt.1 hi))
    · rw [hpc] at hw
      exact hw.elim

theorem Inv.exitReparentWakeup (h : Inv m) (hrun : (m.proc p).state = .running) {ok : Bool}
    {st : ℤ} {i j : ℕ} (hpc : m.thread p = .exitReparentWakeup st i j)
    (hs : callStep m p ok (.exitReparentWakeup st i j) = some m') : Inv m' := by
  have hp : p ≠ init := h.not_init (by rw [hpc]; rfl)
  simp only [callStep] at hs
  split_ifs at hs with hj <;> cases hs
  · refine h.wakeup hrun (by rw [hpc]; rfl) (by simp) (by simp) (by rw [hpc]; rfl)
      (fun hpi => absurd hpi hp) (by rw [hpc]; rfl) (by simp)
      (fun q hq => absurd hq (Nat.not_lt_zero q)) (fun hw => ?_)
    rw [hpc] at hw
    rcases Nat.lt_or_ge init (j + 1) with hlt | hge
    · exact .inr ⟨Nat.le_antisymm (Nat.lt_succ_iff.1 hlt) hw, rfl⟩
    · exact .inl hge
  · have hm : Moves m p (.exitReparent st (i + 1)) p (m.proc p)
        (m.goto p (.exitReparent st (i + 1))) := .of_goto (by rfl) (by rfl) p
    refine h.goto hm hrun (.keep rfl (by rw [hpc]; rfl))
      (h.logged.moves hm (.refl _) rfl fun j _ hj => by rwa [hpc] at hj) (by simp) (by simp)
      (by rw [hpc]; rfl) (fun hpi => absurd hpi hp)
      (fun k hk => h.table.handed p k (by rw [hpc]; exact hk)) (by simp)
      (fun q hq => absurd hq (Nat.not_lt_zero q)) (fun hw => ?_)
    rw [hpc] at hw
    exact absurd (lt_of_le_of_lt hw (by decide : init < NPROC)) hj

theorem Inv.exitWakeup (h : Inv m) (hrun : (m.proc p).state = .running) {ok : Bool}
    {st : ℤ} {j : ℕ} (hpc : m.thread p = .exitWakeup st j)
    (hs : callStep m p ok (.exitWakeup st j) = some m') : Inv m' := by
  have hp : p ≠ init := h.not_init (by rw [hpc]; rfl)
  simp only [callStep] at hs
  split_ifs at hs with hj <;> cases hs
  · refine h.wakeup hrun (by rw [hpc]; rfl) (by simp) (by simp) (by rw [hpc]; rfl)
      (fun hpi => absurd hpi hp) (by rw [hpc]; rfl) (by simp) (fun q hq hpq => ?_) (fun hw => ?_)
    · rw [hpc]
      rcases Nat.lt_succ_iff_lt_or_eq.1 hq with hq | rfl
      · exact .inl hq
      · exact .inr ⟨rfl, hpq⟩
    · rw [hpc] at hw
      exact hw.elim
  · have hm : Moves m p (.exitZombie st) p (m.proc p)
        (m.goto p (.exitZombie st)) := .of_goto (by rfl) (by rfl) p
    refine h.goto hm hrun (.keep rfl (by rw [hpc]; rfl))
      (h.logged.moves hm (.refl _) rfl fun j _ hj => by rwa [hpc] at hj) (by simp) (by simp)
      (by rw [hpc]; rfl) (fun hpi => absurd hpi hp)
      (fun k hk => h.table.handed p k (by rw [hpc]; exact hk)) (by simp)
      (fun q hq hpq => ?_) (fun hw => ?_)
    · exact h.awake.woken p q (by rw [hpc]; exact lt_of_lt_of_le hq (not_lt.1 hj)) hpq
    · rw [hpc] at hw
      exact hw.elim

theorem Inv.reap (h : Inv m) (hrun : (m.proc p).state = .running) {i k addr : ℕ} {kids : Bool}
    {a0 : ℤ} (hpc : m.thread p = .waitScan addr k kids) (hz : (m.proc i).state = .zombie)
    (hi : (m.proc i).parent = some p) (hm : Moves m p (.user a0) i freeproc m')
    (hw : m'.waitLock = none)
    (hh : m'.history = .reap p i (m.proc i).pid (m.proc i).xstate :: .free i (m.proc i).state ::
      m.history) : Inv m' := by
  have hpi : p ≠ i := by
    rintro rfl
    rw [hrun] at hz
    cases hz
  refine ⟨h.table.reap hpc hz hm hw, h.logged.reap h.table hpc hz hi hm hh, ?_⟩
  refine h.awake.quiet hm (fun q hq => ?_) (fun hz => ?_) (fun hs => ?_) (fun hs => ?_)
    (by simp) (fun q hq => absurd hq (Nat.not_lt_zero q)) (fun hwi => ?_)
  · cases hq
  · cases hz
  · cases hs
  · rw [hm.proc, if_neg hpi, hrun] at hs
    cases hs
  · rw [hpc] at hwi
    exact hwi.elim

theorem Inv.sleep (h : Inv m) (hrun : (m.proc p).state = .running) {addr k : ℕ} {kids : Bool}
    (hk : NPROC ≤ k) (hpc : m.thread p = .waitScan addr k kids)
    (hm : Moves m p (.waitResume addr) p { m.proc p with chan := some p, state := .sleeping } m')
    (hw : m'.waitLock = none) (hh : m'.history = m.history) : Inv m' := by
  refine ⟨h.table.quiet hm (.release (by rw [hpc]; rfl) hw rfl) ⟨by simp [hpc], by rw [hpc]; rfl,
    fun _ hi => Pc.noConfusion hi, fun _ => rfl, fun j hj => absurd hj (Nat.not_lt_zero j), rfl,
    by rw [hrun]; rfl, by simp [hrun], by simp [hrun], fun _ hp => absurd rfl hp,
    fun hl => Bool.noConfusion hl⟩, ?_, h.awake.sleep h.table hk hpc hm⟩
  refine h.logged.quiet hm (hh ▸ h.logged.sound) (fun _ => by rw [hh]) (fun _ => by rw [hh]) ?_
    (.inr rfl) (not_reparented (by rw [hpc]; rfl))
  rw [Proc.life, Proc.life, hrun]

theorem Inv.waitScan (h : Inv m) (hrun : (m.proc p).state = .running) {ok : Bool} {addr i : ℕ}
    {kids : Bool} (hpc : m.thread p = .waitScan addr i kids)
    (hs : callStep m p ok (.waitScan addr i kids) = some m') : Inv m' := by
  have hrel : ∀ {pc : Pc}, pc.locked = false → LockMove m p pc none :=
    fun hl => .release (by rw [hpc]; rfl) rfl hl
  have hnext : ∀ kids', ((m.proc i).parent = some p → (m.proc i).state ≠ .zombie) →
      Inv (m.goto p (.waitScan addr (i + 1) kids')) := by
    intro kids' hi
    have hm : Moves m p (.waitScan addr (i + 1) kids') p (m.proc p)
        (m.goto p (.waitScan addr (i + 1) kids')) := .of_goto (by rfl) (by rfl) p
    refine h.goto hm hrun (.keep rfl (by rw [hpc]; rfl))
      (h.logged.moves hm (.refl _) rfl (not_reparented (by rw [hpc]; rfl))) (by simp) (by simp)
      (by rw [hpc]; rfl) (fun _ => rfl) (fun j hj => absurd hj (Nat.not_lt_zero j))
      (fun addr k kids hk z hz hzp => ?_) (fun q hq => absurd hq (Nat.not_lt_zero q))
      (fun hw => ?_)
    · cases hk
      rcases Nat.lt_succ_iff_lt_or_eq.1 hz with hz | rfl
      · exact h.awake.scanned p addr i _ hpc z hz hzp
      · exact hi hzp
    · rw [hpc] at hw
      exact hw.elim
  simp only [callStep] at hs
  split_ifs at hs with hi hpar hz hcopy hnokids <;> cases hs
  · -- the status cannot be copied out: the child stays
    have hlife : life m.history i = .exited (m.proc i).pid (m.proc i).xstate := by
      rw [h.logged.life, Proc.life, hz]
    have hm : Moves m p (.user (-1)) p (m.proc p)
        ((m.releaseWait.record (.copyoutFailed p i)).goto p (.user (-1))) :=
      .of_goto (by rfl) (by rfl) p
    refine h.goto hm hrun (hrel rfl) (h.logged.quiet hm ?_ (fun _ => rfl) (fun _ => rfl) rfl
      (.inr rfl) (not_reparented (by rw [hpc]; rfl))) (by simp) (by simp) (by rw [hpc]; rfl)
      (fun _ => rfl) (fun j hj => absurd hj (Nat.not_lt_zero j)) (by simp)
      (fun q hq => absurd hq (Nat.not_lt_zero q)) (fun hw => ?_)
    · exact ⟨⟨_, _, hlife⟩, h.logged.parent_of_scan h.table hpc hz hpar, h.logged.sound⟩
    · rw [hpc] at hw
      exact hw.elim
  · exact h.reap hrun hpc hz hpar (.of_update (by rfl) (by rfl)) (by rfl) (by rfl)
  · exact hnext true fun _ => hz
  · exact hnext kids fun hp => absurd hp hpar
  · exact h.plain (by rfl) (by rfl) hrun (hrel rfl) (by rfl) (by simp) rfl (by rw [hpc]; rfl)
      (fun _ => rfl) (by rw [hpc]; rfl) rfl rfl (by simp)
  · exact h.sleep hrun (not_lt.1 hi) hpc (.of_update (by rfl) (by rfl)) (by rfl) (by rfl)

theorem Inv.acquire (h : Inv m) (hrun : (m.proc p).state = .running)
    (hs : m.acquireWait p pc' = some m') {pc : Pc} (hpc : m.thread p = pc) (hf : pc.forking = none) (hr : pc.reparented = 0)
    (hd : pc' ≠ .dead) (hf' : pc'.forking = none) (he : pc'.exiting = pc.exiting)
    (hr' : pc'.reparented = 0) (hw : pc'.woken = 0) (hl' : pc'.locked = true)
    (hk : ∀ addr k kids, pc' = .waitScan addr k kids → k = 0) : Inv m' := by
  unfold Machine.acquireWait at hs
  split_ifs at hs with hfree
  cases hs
  refine h.plain (by rfl) (by rfl) hrun (.acquire hfree rfl hl') (by rfl) hd hf' (hpc ▸ hf)
    (fun hp => ?_) (hpc ▸ hr) hr' hw hk
  rw [he, ← hpc, hp]
  exact h.table.initStays

theorem Inv.forkPublish (h : Inv m) {np : ℕ} {a0 : ℤ} (hpc : m.thread p = .forkPublish np)
    (hT : m'.thread = Function.update (Function.update m.thread np (.user 0)) p (.user a0))
    (hP : m'.proc = Function.update m.proc np { m.proc np with state := .runnable })
    (hw : m'.waitLock = m.waitLock)
    (hh : m'.history = .fork p np (m.proc np).pid :: m.history) : Inv m' := by
  have hT' : ∀ q, m'.thread q =
      if q = p then .user a0 else if q = np then .user 0 else m.thread q := by
    intro q
    rw [hT, Function.update_apply, Function.update_apply]
  have hP' : ∀ i, m'.proc i =
      if i = np then { m.proc np with state := .runnable } else m.proc i := by
    intro i
    rw [hP, Function.update_apply]
  exact ⟨h.table.fork hpc hT' hP' hw, h.logged.fork h.table hpc hT' hP' hh,
    h.awake.fork h.table hpc hT' hP'⟩

theorem Inv.exitZombie (h : Inv m) {st : ℤ} (hpc : m.thread p = .exitZombie st)
    (hm : Moves m p .dead p { m.proc p with xstate := st, state := .zombie } m')
    (hw : m'.waitLock = none) (hh : m'.history = .exit p st :: m.history) : Inv m' :=
  ⟨h.table.zombie hpc hm hw, h.logged.zombie h.table hpc hm hh, h.awake.zombie h.table hpc hm⟩

theorem Inv.waitResume (h : Inv m) (hrun : (m.proc p).state = .running) {addr : ℕ}
    (hpc : m.thread p = .waitResume addr)
    (hm : Moves m p (.waitLock addr) p { m.proc p with chan := none } m')
    (hw : m'.waitLock = m.waitLock) (hh : m'.history = m.history) : Inv m' := by
  have hy : Restates (m.proc p) { m.proc p with chan := none } :=
    ⟨rfl, rfl, rfl, .inr ⟨by rw [hrun]; rfl, .inr hrun⟩⟩
  refine h.moves hm hy (.keep hw (by rw [hpc]; rfl))
    (h.logged.moves hm hy hh (not_reparented (by rw [hpc]; rfl))) (fun hp => absurd rfl hp)
    (fun hl => Bool.noConfusion hl) (fun hs => ?_) (by simp [hpc]) (by rw [hpc]; rfl)
    (fun _ hi => Pc.noConfusion hi) (fun _ => rfl) (fun j hj => absurd hj (Nat.not_lt_zero j))
    (by simp) (fun q hq => absurd hq (Nat.not_lt_zero q)) (fun hwi => ?_)
  · rw [hm.proc, if_pos rfl] at hs
    exact absurd (hrun.symm.trans hs) (by simp)
  · rw [hpc] at hwi
    exact hwi.elim

theorem Inv.callStep (h : Inv m) (hrun : (m.proc p).state = .running) {ok : Bool}
    (hs : ExitWait.callStep m p ok (m.thread p) = some m') : Inv m' := by
  cases hpc : m.thread p with
  | dead | user a0 =>
    rw [hpc] at hs
    cases hs
  | forkScan i => exact h.forkScan hrun hpc (hpc ▸ hs)
  | forkParent np =>
    rw [hpc] at hs
    simp only [ExitWait.callStep] at hs
    split_ifs at hs
    cases hs
    exact h.forkParent hrun hpc (.of_update (by rfl) (by rfl)) rfl rfl
  | forkPublish np =>
    rw [hpc] at hs
    cases hs
    exact h.forkPublish hpc (by rfl) (by rfl) (by rfl) (by rfl)
  | exitLock st =>
    rw [hpc, ExitWait.callStep] at hs
    exact h.acquire hrun hs hpc rfl rfl (by simp) rfl rfl rfl rfl rfl (by simp)
  | exitReparent st i => exact h.exitReparent hrun hpc (hpc ▸ hs)
  | exitReparentWakeup st i j => exact h.exitReparentWakeup hrun hpc (hpc ▸ hs)
  | exitWakeup st j => exact h.exitWakeup hrun hpc (hpc ▸ hs)
  | exitZombie st =>
    rw [hpc] at hs
    cases hs
    exact h.exitZombie hpc (.of_update (by rfl) (by rfl)) (by rfl) (by rfl)
  | waitLock addr =>
    rw [hpc, ExitWait.callStep] at hs
    exact h.acquire hrun hs hpc rfl rfl (by simp) rfl rfl rfl rfl rfl (by simp)
  | waitScan addr i kids => exact h.waitScan hrun hpc (hpc ▸ hs)
  | waitResume addr =>
    rw [hpc] at hs
    cases hs
    exact h.waitResume hrun hpc (.of_update (by rfl) (by rfl)) (by rfl) (by rfl)

theorem Inv.call (h : Inv m) (hrun : (m.proc p).state = .running)
    (huser : (m.thread p).inUser = true) (hnew : pc'.forking = none) (hd : pc' ≠ .dead)
    (hexit : p = init → pc'.exiting = false) (hr : pc'.reparented = 0) (hw : pc'.woken = 0)
    (hl : pc'.locked = false) : Inv (m.goto p pc') := by
  obtain ⟨a0, hpc⟩ : ∃ a0, m.thread p = .user a0 := by
    revert huser
    cases m.thread p <;> simp [Pc.inUser]
  refine h.plain (by rfl) (by rfl) hrun (.keep rfl (by rw [hl, hpc]; rfl)) (by rfl) hd hnew
    (by rw [hpc]; rfl) hexit (by rw [hpc]; rfl) hr hw (fun addr k kids hk => ?_)
  rw [hk] at hl
  cases hl

theorem Inv.step (h : Inv m) {act : Act} (hs : ExitWait.step m p act = some m') : Inv m' := by
  cases act with
  | fork =>
    simp only [ExitWait.step] at hs
    split_ifs at hs with hc
    cases hs
    exact h.call hc.1 hc.2 rfl (by simp) (fun _ => rfl) rfl rfl rfl
  | exit st =>
    simp only [ExitWait.step] at hs
    split_ifs at hs with hc
    cases hs
    exact h.call hc.1 hc.2.1 rfl (by simp) (fun hp => absurd hp hc.2.2) rfl rfl rfl
  | wait addr =>
    simp only [ExitWait.step] at hs
    split_ifs at hs with hc
    cases hs
    exact h.call hc.1 hc.2 rfl (by simp) (fun _ => rfl) rfl rfl rfl
  | go ok =>
    simp only [ExitWait.step] at hs
    split_ifs at hs with hrun
    exact h.callStep hrun hs
  | run =>
    simp only [ExitWait.step] at hs
    split_ifs at hs with hr
    cases hs
    exact h.sched ⟨rfl, rfl, rfl, .inr ⟨by rw [hr]; rfl, .inr rfl⟩⟩ fun _ => rfl
  | yield =>
    simp only [ExitWait.step] at hs
    split_ifs at hs with hr
    cases hs
    refine h.sched ⟨rfl, rfl, rfl, .inr ⟨by rw [hr.1]; rfl, .inl rfl⟩⟩ fun hl => ?_
    rw [hr.2] at hl
    cases hl
  | kill =>
    simp only [ExitWait.step, Option.some.injEq] at hs
    subst hs
    by_cases hsl : (m.proc p).state = .sleeping
    · rw [if_pos hsl]
      refine h.sched ⟨rfl, rfl, rfl, .inr ⟨by rw [hsl]; rfl, .inl rfl⟩⟩ fun hl => ?_
      rw [h.table.running p hl] at hsl
      cases hsl
    · rw [if_neg hsl]
      exact h.sched ⟨rfl, rfl, rfl, .inl ⟨rfl, rfl⟩⟩ (h.table.running p)

theorem Reachable.inv (h : Reachable m) : Inv m :=
  Transition.Reachable.invariant (fun _ hs => hs ▸ inv_start) (fun _ _ _ hi hs => hi.step hs) h

end

end ExitWait
end Xv6
