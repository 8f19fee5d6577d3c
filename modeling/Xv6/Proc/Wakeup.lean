import Xv6.Proc.Sched

/-!
No wakeup is lost. The invariant says who holds which lock, in which state a process
is wherever its thread is, and that while the condition holds every process that is
asleep, or has committed itself to sleeping, still lies ahead of a scan of `wakeup`.
-/

namespace Xv6
namespace Sched

def Pc.holds (p : ℕ) : Pc → Lock → Prop
  | idle, _ | waitAcquire, _ | wakerAcquire, _ | killScan _ _, _ | yieldAcquire _, _ => False
  | waitTest, l | waitRelease, l | sleepAcquire, l | wakerSet, l | wakeupScan _, l
  | wakerRelease, l => l = .lk
  | sleepRelease, l => l = .lk ∨ l = .proc p
  | wakeupTest i, l | wakeupUnlock i, l => l = .lk ∨ l = .proc i
  | killTest _ i, l | killUnlock _ i, l | killReturn i, l => l = .proc i
  | forkret, l | sleepChan, l | sleepState, l | sleepSched, l | sleepResume, l | sleepUnlock, l
  | yieldState _, l | yieldSched _, l | yieldRelease _, l => l = .proc p

def Cpu.holds (thread : ℕ → Pc) : Cpu → Lock → Prop
  | scan _, _ => False
  | test i, l | unlock i, l => l = .proc i
  | run p, l => (thread p).holds p l

def Machine.Holds (m : Machine) (c : ℕ) (l : Lock) : Prop := (m.cpu c).holds m.thread l

/-- The state of a process whose thread is on a CPU. -/
def Pc.stateOn : Pc → ProcState
  | sleepSched => .sleeping
  | yieldSched _ => .runnable
  | _ => .running

/-- Where a thread waits for a CPU. -/
def Pc.parked : Pc → Bool
  | forkret | sleepResume | yieldRelease _ => true
  | _ => false

/-- A timer interrupt returns to where interrupts are on. -/
def Pc.backOk : Pc → Bool
  | yieldAcquire b | yieldState b | yieldSched b | yieldRelease b => b.interruptible
  | _ => true

/-- The thread has released `lk` in `sleep`, or the process is asleep. -/
def Machine.Asleep (m : Machine) (p : ℕ) : Prop :=
  (m.proc p).state = .sleeping ∨ m.thread p = .sleepChan ∨ m.thread p = .sleepState

/-- How far the scan of `wakeup` has got: the processes before this index are done. -/
def Pc.scanned : Pc → Option ℕ
  | wakeupScan i | wakeupTest i => some i
  | wakeupUnlock i => some (i + 1)
  | _ => none

structure Inv (m : Machine) : Prop where
  locks : ∀ c l, m.lock l = some c ↔ m.Holds c l
  one : ∀ c d p, m.cpu c = .run p → m.cpu d = .run p → c = d
  on : ∀ c p, m.cpu c = .run p → (m.proc p).state = (m.thread p).stateOn
  off : ∀ p, (∀ c, m.cpu c ≠ .run p) →
    (m.thread p).parked = true ∧ (m.proc p).state ≠ .running
  back : ∀ p, (m.thread p).backOk = true
  asleep : ∀ p, (m.proc p).state = .sleeping → (m.proc p).chan = chan ∧
    (m.thread p = .sleepSched ∨ m.thread p = .sleepResume)
  chanSet : ∀ p, m.thread p = .sleepState → (m.proc p).chan = chan
  tested : m.C = true → ∀ p, m.thread p ≠ .sleepAcquire ∧ m.thread p ≠ .sleepRelease
  ahead : m.C = true → ∀ p, p < NPROC → m.Asleep p →
    ∃ c w i, m.cpu c = .run w ∧ (m.thread w).scanned = some i ∧ i ≤ p

theorem Machine.acquire_eq_some {m m' : Machine} {c : ℕ} {l : Lock} :
    m.acquire c l = some m' ↔
      m.lock l = none ∧ m' = { m with lock := Function.update m.lock l (some c) } := by
  unfold acquire
  split_ifs with h <;> simp [h, eq_comm]

theorem Machine.release_eq_some {m m' : Machine} {c : ℕ} {l : Lock} :
    m.release c l = some m' ↔
      m.lock l = some c ∧ m' = { m with lock := Function.update m.lock l none } := by
  unfold release
  split_ifs with h <;> simp [h, eq_comm]

section
variable {m m' : Machine} {c p : ℕ} {pc pc' : Pc} {e : Effect} {a : Choice}

/-- What holds of the code at every place, of interrupts and of calls holds of whatever a
thread does. -/
theorem choose_cases {P : Pc → Effect → Pc → Prop}
    (go : ∀ pc, pc.backOk = true → P pc (threadCode m p pc).1 (threadCode m p pc).2)
    (interrupt : ∀ pc, pc.interruptible = true → P pc .skip (.yieldAcquire pc))
    (call : ∀ k : Call, P .idle .skip k.entry)
    (hb : pc.backOk = true) (h : choose m p pc a = some (e, pc')) : P pc e pc' := by
  cases a with
  | go =>
    simp only [choose, Option.some.injEq] at h
    have := go pc hb
    rwa [h] at this
  | interrupt =>
    simp only [choose] at h
    split_ifs at h with hi
    cases h
    exact interrupt pc hi
  | call k =>
    simp only [choose] at h
    split_ifs at h with hi
    cases h
    subst hi
    exact call k

def Effect.holds (e : Effect) (h : Lock → Prop) : Lock → Prop :=
  match e with
  | acquire k => fun l => l = k ∨ h l
  | release k => fun l => l ≠ k ∧ h l
  | _ => h

def Effect.proc (e : Effect) (m : Machine) (i : ℕ) : Proc :=
  match e with
  | setProc j x => if i = j then x else m.proc i
  | _ => m.proc i

theorem Pc.not_holds_of_interruptible (h : pc.interruptible = true) (l : Lock) :
    ¬ pc.holds p l := by
  cases pc <;> simp_all [Pc.interruptible, Pc.holds]

theorem Pc.stateOn_of_interruptible (h : pc.interruptible = true) : pc.stateOn = .running := by
  cases pc <;> simp_all [Pc.interruptible, Pc.stateOn]

theorem Pc.backOk_of_interruptible (h : pc.interruptible = true) : pc.backOk = true := by
  cases pc <;> simp_all [Pc.interruptible, Pc.backOk]

/-- The lock operations of the code fit the locks its places are said to hold. -/
theorem choose_holds (hb : pc.backOk = true) (h : choose m p pc a = some (e, pc')) (l : Lock) :
    pc'.holds p l ↔ e.holds (pc.holds p) l := by
  refine choose_cases (P := fun pc e pc' => pc'.holds p l ↔ e.holds (pc.holds p) l)
    ?_ ?_ ?_ hb h
  · intro pc hb
    cases pc with
    | yieldRelease back =>
      refine iff_of_false (Pc.not_holds_of_interruptible hb l) ?_
      rintro ⟨hne, hl⟩
      exact hne hl
    | _ =>
      simp only [threadCode]
      (try split_ifs) <;> simp only [Pc.holds, Effect.holds] <;> grind
  · intro pc hi
    exact iff_of_false id (Pc.not_holds_of_interruptible hi l)
  · intro k
    cases k <;> rfl

theorem choose_back (hb : pc.backOk = true) (h : choose m p pc a = some (e, pc')) :
    pc'.backOk = true := by
  refine choose_cases (P := fun _ _ pc' => pc'.backOk = true) ?_ ?_ ?_ hb h
  · intro pc hb
    cases pc <;> simp only [threadCode] <;> (try split_ifs) <;>
      first | exact hb | rfl | exact Pc.backOk_of_interruptible hb
  · exact fun pc hi => hi
  · intro k
    cases k <;> rfl

/-- A store to `proc[i]` is made with its lock held, and one to another process than the
thread's own can only wake it. -/
theorem choose_setProc {i : ℕ} {x : Proc} (hb : pc.backOk = true)
    (h : choose m p pc a = some (.setProc i x, pc')) :
    pc.holds p (.proc i) ∧
      (i ≠ p → x.chan = (m.proc i).chan ∧ x.state = (m.proc i).wake.state) := by
  refine choose_cases (P := fun pc e _ => e = .setProc i x → pc.holds p (.proc i) ∧
      (i ≠ p → x.chan = (m.proc i).chan ∧ x.state = (m.proc i).wake.state)) ?_ ?_ ?_ hb h rfl
  · intro pc hb
    have hwake : (m.proc i).wake.chan = (m.proc i).chan := by
      unfold Proc.wake
      split_ifs <;> rfl
    cases pc <;> simp only [threadCode] <;> (try split_ifs) <;> simp only [reduceCtorEq,
      IsEmpty.forall_iff, Effect.setProc.injEq, Pc.holds] <;> rintro ⟨rfl, rfl⟩ <;> simp_all
  · simp
  · simp

theorem choose_stateOn (hb : pc.backOk = true) (h : choose m p pc a = some (e, pc'))
    (he : e ≠ .swtch) (hs : (m.proc p).state = pc.stateOn) :
    (e.proc m p).state = pc'.stateOn := by
  refine choose_cases (P := fun pc e pc' => e ≠ .swtch → (m.proc p).state = pc.stateOn →
      (e.proc m p).state = pc'.stateOn) ?_ ?_ ?_ hb h he hs
  · intro pc hb he hs
    cases pc <;> simp only [threadCode] at he ⊢ <;>
      grind [Effect.proc, Pc.stateOn, Pc.backOk, Proc.wake, Pc.stateOn_of_interruptible]
  · intro pc hi _ hs
    exact hs.trans (Pc.stateOn_of_interruptible hi)
  · intro k _ hs
    cases k <;> exact hs

theorem choose_swtch (hb : pc.backOk = true) (h : choose m p pc a = some (.swtch, pc')) :
    (pc = .sleepSched ∧ pc' = .sleepResume) ∨ ∃ b, pc = .yieldSched b ∧ pc' = .yieldRelease b := by
  refine choose_cases (P := fun pc e pc' => e = .swtch → (pc = .sleepSched ∧ pc' = .sleepResume) ∨
    ∃ b, pc = .yieldSched b ∧ pc' = .yieldRelease b) ?_ ?_ ?_ hb h rfl
  · intro pc hb
    cases pc <;> simp only [threadCode] <;> grind
  · simp
  · simp

/-- How the places of `sleep` up to `sched` are reached: one from the other, and the first
one from a test of `C`. -/
def SleepEntry (m : Machine) (p : ℕ) (pc : Pc) (e : Effect) : Pc → Prop
  | .sleepAcquire => pc = .waitTest ∧ e = .skip ∧ m.C = false
  | .sleepRelease => pc = .sleepAcquire ∧ e = .acquire (.proc p)
  | .sleepChan => pc = .sleepRelease ∧ e = .release .lk
  | .sleepState => pc = .sleepChan ∧ e = .setProc p { m.proc p with chan := chan }
  | .sleepSched => pc = .sleepState ∧ e = .setProc p { m.proc p with state := .sleeping }
  | _ => True

theorem choose_sleep (hb : pc.backOk = true) (h : choose m p pc a = some (e, pc')) :
    SleepEntry m p pc e pc' := by
  refine choose_cases (P := SleepEntry m p) ?_ ?_ ?_ hb h
  · intro pc hb
    cases pc with
    | yieldRelease back => cases back <;> simp_all [threadCode, SleepEntry, Pc.backOk,
        Pc.interruptible]
    | _ =>
      simp only [threadCode]
      (try split_ifs) <;> simp_all [SleepEntry]
  · exact fun _ _ => trivial
  · intro k
    cases k <;> trivial

theorem choose_setC (hb : pc.backOk = true) (h : choose m p pc a = some (.setC, pc')) :
    pc = .wakerSet ∧ pc' = .wakeupScan 0 := by
  refine choose_cases (P := fun pc e pc' => e = .setC → pc = .wakerSet ∧ pc' = .wakeupScan 0)
    ?_ ?_ ?_ hb h rfl
  · intro pc hb
    cases pc <;> simp only [threadCode] <;> grind
  · simp
  · simp

/-- The scan of `wakeup` passes process `i` only when it is the scanning process itself,
or when its lock is held and it is woken if it sleeps. -/
theorem choose_scanned {i : ℕ} (hb : pc.backOk = true) (h : choose m p pc a = some (e, pc'))
    (hi : pc.scanned = some i) :
    pc'.scanned = some i ∨ NPROC ≤ i ∨ pc'.scanned = some (i + 1) ∧ (i = p ∨
      pc = .wakeupTest i ∧ ((m.proc i).chan = chan → (e.proc m i).state ≠ .sleeping)) := by
  refine choose_cases (P := fun pc e pc' => pc.scanned = some i → pc'.scanned = some i ∨
    NPROC ≤ i ∨ pc'.scanned = some (i + 1) ∧ (i = p ∨ pc = .wakeupTest i ∧
      ((m.proc i).chan = chan → (e.proc m i).state ≠ .sleeping))) ?_ ?_ ?_ hb h hi
  · intro pc hb hi
    cases pc <;> simp only [threadCode] <;>
      grind [Pc.scanned, Effect.proc, Proc.wake]
  · intro pc hi hs
    cases pc <;> simp_all [Pc.interruptible, Pc.scanned]
  · simp [Pc.scanned]

structure Moves (m : Machine) (c p : ℕ) (a : Choice) (e : Effect) (pc' : Pc) (m' : Machine) :
    Prop where
  on : m.cpu c = .run p
  code : choose m p (m.thread p) a = some (e, pc')
  thread : ∀ q, m'.thread q = if q = p then pc' else m.thread q
  cpu : ∀ d, m'.cpu d = if e = .swtch ∧ d = c then .unlock p else m.cpu d
  proc : ∀ i, m'.proc i = e.proc m i
  C : m'.C = (m.C || decide (e = .setC))
  lock : ∀ l, m'.lock l = some c ↔ e.holds (fun k => m.lock k = some c) l
  lock_other : ∀ l d, d ≠ c → (m'.lock l = some d ↔ m.lock l = some d)

theorem moves_of_apply {m₁ : Machine} (hon : m.cpu c = .run p)
    (hcode : choose m p (m.thread p) a = some (e, pc')) (h : e.apply m c p = some m₁) :
    Moves m c p a e pc' (m₁.goto p pc') := by
  cases e with
  | skip =>
    cases h
    exact ⟨hon, hcode, fun q => Function.update_apply _ _ _ q, by simp [Machine.goto],
      fun _ => rfl, by simp [Machine.goto], fun _ => Iff.rfl, fun _ _ _ => Iff.rfl⟩
  | acquire k =>
    obtain ⟨hk, rfl⟩ := Machine.acquire_eq_some.1 h
    refine ⟨hon, hcode, fun q => Function.update_apply _ _ _ q, by simp [Machine.goto],
      fun _ => rfl, by simp [Machine.goto], fun l => ?_, fun l d hd => ?_⟩
    · by_cases hl : l = k <;> simp [hl, Effect.holds, Machine.goto]
    · by_cases hl : l = k
      · simp [hl, hk, hd.symm, Machine.goto]
      · simp [hl, Machine.goto]
  | release k =>
    obtain ⟨hk, rfl⟩ := Machine.release_eq_some.1 h
    refine ⟨hon, hcode, fun q => Function.update_apply _ _ _ q, by simp [Machine.goto],
      fun _ => rfl, by simp [Machine.goto], fun l => ?_, fun l d hd => ?_⟩
    · by_cases hl : l = k <;> simp [hl, Effect.holds, Machine.goto]
    · by_cases hl : l = k
      · simp [hl, hk, hd.symm, Machine.goto]
      · simp [hl, Machine.goto]
  | setProc i x =>
    cases h
    exact ⟨hon, hcode, fun q => Function.update_apply _ _ _ q,
      by simp [Machine.setProc, Machine.goto], fun j => Function.update_apply _ _ _ j,
      by simp [Machine.setProc, Machine.goto], fun _ => Iff.rfl, fun _ _ _ => Iff.rfl⟩
  | setC =>
    cases h
    exact ⟨hon, hcode, fun q => Function.update_apply _ _ _ q, by simp [Machine.goto],
      fun _ => rfl, by simp [Machine.goto], fun _ => Iff.rfl, fun _ _ _ => Iff.rfl⟩
  | swtch =>
    cases h
    refine ⟨hon, hcode, fun q => Function.update_apply _ _ _ q, fun d => ?_, fun _ => rfl,
      by simp [Machine.setCpu, Machine.goto], fun _ => Iff.rfl, fun _ _ _ => Iff.rfl⟩
    simp [Machine.setCpu, Machine.goto, Function.update_apply]

theorem Inv.held (h : Inv m) (hc : m.cpu c = .run p) {l : Lock} (hl : (m.thread p).holds p l) :
    m.lock l = some c := by
  rw [h.locks, Machine.Holds, hc]
  exact hl

theorem Pc.holds_of_stateOn (h : pc.stateOn ≠ .running) : pc.holds p (.proc p) := by
  cases pc <;> simp_all [Pc.stateOn, Pc.holds]

theorem Pc.eq_of_stateOn_sleeping (h : pc.stateOn = .sleeping) : pc = .sleepSched := by
  cases pc <;> first | rfl | cases h

theorem Pc.holds_lk_of_scanned {i : ℕ} (h : pc.scanned = some i) : pc.holds p .lk := by
  cases pc <;> simp_all [Pc.scanned, Pc.holds]

section
variable (h : Inv m) (hm : Moves m c p a e pc' m')
include h hm

/-- To other processes a thread can do no more than wake them, with their lock held. -/
theorem Inv.other {q : ℕ} (hq : q ≠ p) :
    (m'.proc q).chan = (m.proc q).chan ∧ ((m'.proc q).state = (m.proc q).state ∨
      (m.proc q).state = .sleeping ∧ (m'.proc q).state = .runnable ∧
        m.lock (.proc q) = some c) := by
  rw [hm.proc]
  have hcode := hm.code
  cases e with
  | setProc i x =>
    obtain ⟨hl, hx⟩ := choose_setProc (h.back p) hcode
    by_cases hqi : q = i
    · subst hqi
      obtain ⟨hchan, hstate⟩ := hx hq
      simp only [Effect.proc, if_true]
      refine ⟨hchan, ?_⟩
      by_cases hs : (m.proc q).state = .sleeping
      · exact .inr ⟨hs, by rw [hstate, Proc.wake, if_pos hs], h.held hm.on hl⟩
      · exact .inl (by rw [hstate, Proc.wake, if_neg hs])
    · simp [Effect.proc, hqi]
  | _ => exact ⟨rfl, .inl rfl⟩

/-- A process on another CPU keeps its state: were it asleep there, that CPU would hold
its lock. -/
theorem Inv.other_on {q d : ℕ} (hd : m.cpu d = .run q) (hq : q ≠ p) :
    (m'.proc q).state = (m.proc q).state := by
  rcases (h.other hm hq).2 with hs | ⟨hs, -, hl⟩
  · exact hs
  · have hon := h.on d q hd
    rw [hs] at hon
    have hld := h.held hd (Pc.holds_of_stateOn (p := q) (by rw [← hon]; simp))
    rw [hld, Option.some.injEq] at hl
    rw [hl, hm.on, Cpu.run.injEq] at hd
    exact absurd hd.symm hq

omit h in
theorem Moves.run {d q : ℕ} (hd : m'.cpu d = .run q) :
    m.cpu d = .run q ∧ (d = c → e ≠ .swtch) := by
  rw [hm.cpu] at hd
  split_ifs at hd with hsw
  exact ⟨hd, fun hdc he => hsw ⟨he, hdc⟩⟩

theorem Inv.own (he : e ≠ .swtch) : (m'.proc p).state = pc'.stateOn := by
  rw [hm.proc]
  exact choose_stateOn (h.back p) hm.code he (h.on c p hm.on)

theorem Inv.own_swtch (he : e = .swtch) : m'.proc p = m.proc p ∧ pc'.parked = true ∧
    (m.proc p).state ≠ .running ∧ ((m.proc p).state = .sleeping → pc' = .sleepResume) := by
  subst he
  have hon := h.on c p hm.on
  rw [hm.proc]
  rcases choose_swtch (h.back p) hm.code with ⟨hpc, rfl⟩ | ⟨b, hpc, rfl⟩ <;> rw [hpc] at hon <;>
    simp [Effect.proc, Pc.parked, hon, Pc.stateOn]

theorem Inv.moves_locks (d : ℕ) (l : Lock) : m'.lock l = some d ↔ m'.Holds d l := by
  unfold Machine.Holds
  by_cases hd : d = c
  · subst hd
    have hold : (fun k => m.lock k = some d) = (m.thread p).holds p := by
      funext k
      rw [h.locks, Machine.Holds, hm.on, Cpu.holds]
    have hpc := choose_holds (h.back p) hm.code l
    rw [hm.lock, hold, ← hpc, hm.cpu]
    by_cases he : e = .swtch
    · subst he
      rw [if_pos ⟨rfl, rfl⟩]
      rcases choose_swtch (h.back p) hm.code with ⟨-, rfl⟩ | ⟨b, -, rfl⟩ <;> rfl
    · rw [if_neg (by tauto), hm.on, Cpu.holds, hm.thread, if_pos rfl]
  · rw [hm.lock_other l d hd, h.locks, Machine.Holds, hm.cpu, if_neg (by tauto)]
    cases hcd : m.cpu d with
    | run q =>
      have hq : q ≠ p := by
        rintro rfl
        exact hd (h.one d c q hcd hm.on)
      rw [Cpu.holds, Cpu.holds, hm.thread, if_neg hq]
    | _ => rfl

theorem Inv.moves_on (d q : ℕ) (hd : m'.cpu d = .run q) :
    (m'.proc q).state = (m'.thread q).stateOn := by
  obtain ⟨hdq, hdc⟩ := hm.run hd
  rw [hm.thread]
  by_cases hq : q = p
  · subst hq
    rw [if_pos rfl]
    exact h.own hm (hdc (h.one d c q hdq hm.on))
  · rw [if_neg hq, h.other_on hm hdq hq]
    exact h.on d q hdq

theorem Inv.moves_off (q : ℕ) (hq : ∀ d, m'.cpu d ≠ .run q) :
    (m'.thread q).parked = true ∧ (m'.proc q).state ≠ .running := by
  rw [hm.thread]
  by_cases hqp : q = p
  · subst hqp
    have he : e = .swtch := by
      by_contra he
      exact hq c (by rw [hm.cpu, if_neg (by tauto), hm.on])
    obtain ⟨hpr, hpark, hst, -⟩ := h.own_swtch hm he
    rw [if_pos rfl, hpr]
    exact ⟨hpark, hst⟩
  · have hoff : ∀ d, m.cpu d ≠ .run q := by
      intro d hd
      refine hq d ?_
      rw [hm.cpu, if_neg, hd]
      rintro ⟨-, rfl⟩
      rw [hm.on, Cpu.run.injEq] at hd
      exact hqp hd.symm
    rw [if_neg hqp]
    obtain ⟨hpark, hst⟩ := h.off q hoff
    refine ⟨hpark, ?_⟩
    rcases (h.other hm hqp).2 with hs | ⟨-, hs, -⟩
    · rwa [hs]
    · simp [hs]

theorem Inv.moves_asleep (q : ℕ) (hq : (m'.proc q).state = .sleeping) :
    (m'.proc q).chan = chan ∧ (m'.thread q = .sleepSched ∨ m'.thread q = .sleepResume) := by
  rw [hm.thread]
  by_cases hqp : q = p
  · subst hqp
    rw [if_pos rfl]
    by_cases he : e = .swtch
    · obtain ⟨hpr, -, -, hres⟩ := h.own_swtch hm he
      rw [hpr] at hq ⊢
      exact ⟨(h.asleep q hq).1, .inr (hres hq)⟩
    · have hpc := Pc.eq_of_stateOn_sleeping ((h.own hm he).symm.trans hq)
      have hent := choose_sleep (h.back q) hm.code
      rw [hpc] at hent
      obtain ⟨hpc₀, rfl⟩ := hent
      refine ⟨?_, .inl hpc⟩
      rw [hm.proc]
      simpa [Effect.proc] using h.chanSet q hpc₀
  · rw [if_neg hqp]
    obtain ⟨hchan, hs | ⟨-, hs, -⟩⟩ := h.other hm hqp
    · rw [hchan]
      exact h.asleep q (hs ▸ hq)
    · rw [hs] at hq
      cases hq

theorem Inv.moves_chanSet (q : ℕ) (hq : m'.thread q = .sleepState) : (m'.proc q).chan = chan := by
  rw [hm.thread] at hq
  by_cases hqp : q = p
  · subst hqp
    rw [if_pos rfl] at hq
    have hent := choose_sleep (h.back q) hm.code
    rw [hq] at hent
    obtain ⟨-, rfl⟩ := hent
    rw [hm.proc]
    simp [Effect.proc]
  · rw [if_neg hqp] at hq
    rw [(h.other hm hqp).1]
    exact h.chanSet q hq

/-- A thread that holds a lock off this CPU's thread is on another CPU, and holds another
lock. -/
theorem Inv.holds_ne {q : ℕ} {l : Lock} (hq : q ≠ p) (hpark : (m.thread q).parked = false)
    (hl : (m.thread q).holds q l) : ¬ (m.thread p).holds p l := by
  intro hp
  by_cases hon : ∃ d, m.cpu d = .run q
  · obtain ⟨d, hd⟩ := hon
    have hdl := h.held hd hl
    rw [h.held hm.on hp, Option.some.injEq] at hdl
    rw [← hdl, hm.on, Cpu.run.injEq] at hd
    exact hq hd.symm
  · have := (h.off q fun d hd => hon ⟨d, hd⟩).1
    simp [hpark] at this

theorem Inv.moves_tested (hC : m'.C = true) (q : ℕ) :
    m'.thread q ≠ .sleepAcquire ∧ m'.thread q ≠ .sleepRelease := by
  rw [hm.thread]
  rw [hm.C, Bool.or_eq_true, decide_eq_true_iff] at hC
  have hent := choose_sleep (h.back p) hm.code
  by_cases hqp : q = p
  · rw [if_pos hqp]
    constructor <;> rintro rfl
    · obtain ⟨-, rfl, hCf⟩ := hent
      simp [hCf] at hC
    · obtain ⟨hpc, rfl⟩ := hent
      exact (h.tested (by simpa using hC) p).1 hpc
  · rw [if_neg hqp]
    rcases hC with hC | rfl
    · exact h.tested hC q
    · obtain ⟨hpc, -⟩ := choose_setC (h.back p) hm.code
      have hlk : (m.thread p).holds p .lk := by rw [hpc]; rfl
      constructor <;> intro hq
      · exact h.holds_ne hm hqp (l := .lk) (by rw [hq]; rfl) (by rw [hq]; rfl) hlk
      · exact h.holds_ne hm hqp (l := .lk) (by rw [hq]; rfl) (by rw [hq]; exact .inl rfl) hlk

/-- A process that is asleep after the step was so before, or has just released `lk`. -/
theorem Inv.asleep_before {q : ℕ} (hq : m'.Asleep q) :
    m.Asleep q ∨ q = p ∧ m.thread p = .sleepRelease := by
  by_cases hqp : q = p
  · subst hqp
    have hent := choose_sleep (h.back q) hm.code
    have hpc : m'.thread q = pc' := by rw [hm.thread, if_pos rfl]
    rcases hq with hs | hs | hs
    · by_cases he : e = .swtch
      · rw [(h.own_swtch hm he).1] at hs
        exact .inl (.inl hs)
      · rw [Pc.eq_of_stateOn_sleeping ((h.own hm he).symm.trans hs)] at hent
        exact .inl (.inr (.inr hent.1))
    · rw [hpc.symm.trans hs] at hent
      exact .inr ⟨rfl, hent.1⟩
    · rw [hpc.symm.trans hs] at hent
      exact .inl (.inr (.inl hent.1))
  · left
    unfold Machine.Asleep at hq ⊢
    rw [hm.thread, if_neg hqp] at hq
    rcases (h.other hm hqp).2 with hs | ⟨-, hs, -⟩
    · rwa [hs] at hq
    · exact hq.imp_left fun hq => absurd (hs.symm.trans hq) (by simp)

/-- A process that the scan passes is not asleep afterwards. -/
theorem Inv.not_asleep_of_scanned {i : ℕ} (hi : pc'.scanned = some (i + 1)) (hpass : i = p ∨
    m.thread p = .wakeupTest i ∧ ((m.proc i).chan = chan → (m'.proc i).state ≠ .sleeping)) :
    ¬ m'.Asleep i := by
  intro hs
  by_cases hip : i = p
  · subst hip
    have hpc : m'.thread i = pc' := by rw [hm.thread, if_pos rfl]
    rcases hs with hs | hs | hs
    · rcases (h.moves_asleep hm i hs).2 with ht | ht <;> rw [hpc.symm.trans ht] at hi <;> cases hi
    · rw [hpc.symm.trans hs] at hi
      cases hi
    · rw [hpc.symm.trans hs] at hi
      cases hi
  · obtain ⟨hpc, hwoken⟩ := hpass.resolve_left hip
    have hlock : (m.thread p).holds p (.proc i) := by rw [hpc]; exact .inr rfl
    rcases hs with hs | hs | hs
    · refine hwoken ?_ hs
      rw [← (h.other hm hip).1]
      exact (h.moves_asleep hm i hs).1
    · rw [hm.thread, if_neg hip] at hs
      exact h.holds_ne hm hip (l := .proc i) (by rw [hs]; rfl) (by rw [hs]; rfl) hlock
    · rw [hm.thread, if_neg hip] at hs
      exact h.holds_ne hm hip (l := .proc i) (by rw [hs]; rfl) (by rw [hs]; rfl) hlock

theorem Inv.moves_ahead (hC : m'.C = true) (q : ℕ) (hq : q < NPROC) (hs : m'.Asleep q) :
    ∃ d w i, m'.cpu d = .run w ∧ (m'.thread w).scanned = some i ∧ i ≤ q := by
  rw [hm.C, Bool.or_eq_true, decide_eq_true_iff] at hC
  rcases hC with hC | rfl
  · have hbefore : m.Asleep q :=
      (h.asleep_before hm hs).resolve_right fun hr => (h.tested hC p).2 hr.2
    obtain ⟨d, w, i, hd, hi, hle⟩ := h.ahead hC q hq hbefore
    by_cases hw : w = p
    · subst hw
      obtain rfl := h.one d c w hd hm.on
      have he : e ≠ .swtch := by
        rintro rfl
        rcases choose_swtch (h.back w) hm.code with ⟨hpc, -⟩ | ⟨b, hpc, -⟩ <;> rw [hpc] at hi <;>
          cases hi
      have hd' : m'.cpu d = .run w := by rw [hm.cpu, if_neg (by tauto), hd]
      have hpc : m'.thread w = pc' := by rw [hm.thread, if_pos rfl]
      rcases choose_scanned (h.back w) hm.code hi with hsame | hend | ⟨hnext, hpass⟩
      · exact ⟨d, w, i, hd', hpc ▸ hsame, hle⟩
      · omega
      · have hne : i ≠ q := by
          rintro rfl
          rw [← hm.proc] at hpass
          exact h.not_asleep_of_scanned hm hnext hpass hs
        exact ⟨d, w, i + 1, hd', hpc ▸ hnext, by omega⟩
    · refine ⟨d, w, i, ?_, by rw [hm.thread, if_neg hw]; exact hi, hle⟩
      rw [hm.cpu, if_neg, hd]
      rintro ⟨-, rfl⟩
      rw [hm.on, Cpu.run.injEq] at hd
      exact hw hd.symm
  · obtain ⟨-, rfl⟩ := choose_setC (h.back p) hm.code
    refine ⟨c, p, 0, ?_, ?_, Nat.zero_le q⟩
    · rw [hm.cpu, if_neg (by simp), hm.on]
    · rw [hm.thread, if_pos rfl]
      rfl

theorem Inv.moves : Inv m' where
  locks := h.moves_locks hm
  one d d' q hd hd' := h.one d d' q (hm.run hd).1 (hm.run hd').1
  on := h.moves_on hm
  off := h.moves_off hm
  back q := by
    rw [hm.thread]
    split_ifs
    · exact choose_back (h.back p) hm.code
    · exact h.back q
  asleep := h.moves_asleep hm
  chanSet := h.moves_chanSet hm
  tested := h.moves_tested hm
  ahead := h.moves_ahead hm

end

theorem Inv.scheduler_frame (h : Inv m) (hproc : m'.proc = m.proc) (hthread : m'.thread = m.thread)
    (hC : m'.C = m.C) (hcpu : ∀ d p, m'.cpu d = .run p ↔ m.cpu d = .run p)
    (hlocks : ∀ d l, m'.lock l = some d ↔ m'.Holds d l) : Inv m' := by
  refine ⟨hlocks, ?_, ?_, ?_, ?_, ?_, ?_, ?_, ?_⟩
  · simpa only [hcpu] using h.one
  · simpa only [hcpu, hproc, hthread] using h.on
  · simpa only [ne_eq, hcpu, hproc, hthread] using h.off
  · simpa only [hthread] using h.back
  · simpa only [hproc, hthread] using h.asleep
  · simpa only [hproc, hthread] using h.chanSet
  · simpa only [hC, hthread] using h.tested
  · simpa only [hC, hcpu, hproc, hthread, Machine.Asleep] using h.ahead

theorem Inv.scheduler_locks (h : Inv m) {x : Cpu} (hthread : m'.thread = m.thread)
    (hcpu : m'.cpu = Function.update m.cpu c x)
    (hlock : ∀ l, m'.lock l = some c ↔ x.holds m.thread l)
    (hother : ∀ l d, d ≠ c → (m'.lock l = some d ↔ m.lock l = some d)) (d : ℕ) (l : Lock) :
    m'.lock l = some d ↔ m'.Holds d l := by
  unfold Machine.Holds
  rw [hcpu, hthread]
  by_cases hd : d = c
  · subst hd
    rw [Function.update_self, hlock]
  · rw [hother l d hd, h.locks, Function.update_of_ne hd]
    rfl

/-- The scheduler picks a runnable process: it is on no CPU, since its lock is held here. -/
theorem Inv.scheduler_run (h : Inv m) {i : ℕ} (hc : m.cpu c = .test i)
    (hr : (m.proc i).state = .runnable) :
    Inv ((m.setProc i { m.proc i with state := .running }).setCpu c (.run i)) := by
  have hlock : m.lock (.proc i) = some c := by
    rw [h.locks, Machine.Holds, hc]
    rfl
  have hoff : ∀ d, m.cpu d ≠ .run i := by
    intro d hd
    have hon := h.on d i hd
    rw [hr] at hon
    have := h.held hd (Pc.holds_of_stateOn (p := i) (by rw [← hon]; simp))
    rw [hlock, Option.some.injEq] at this
    rw [← this, hc] at hd
    cases hd
  obtain ⟨hpark, -⟩ := h.off i hoff
  generalize hm' : (m.setProc i { m.proc i with state := .running }).setCpu c (.run i) = m'
  have hproc : ∀ q, m'.proc q = if q = i then { m.proc i with state := .running } else m.proc q := by
    intro q
    subst hm'
    exact Function.update_apply _ _ _ q
  have hcpu : ∀ d q, m'.cpu d = .run q ↔ m.cpu d = .run q ∧ d ≠ c ∨ d = c ∧ q = i := by
    intro d q
    subst hm'
    by_cases hd : d = c
    · simp [Machine.setCpu, Machine.setProc, hd, eq_comm]
    · simp [Machine.setCpu, Machine.setProc, hd]
  have hthread : m'.thread = m.thread := by subst hm'; rfl
  have hchan : ∀ q, (m'.proc q).chan = (m.proc q).chan := by
    intro q
    rw [hproc]
    split_ifs with hq <;> simp [hq]
  have hsleep : ∀ q, (m'.proc q).state = .sleeping → (m.proc q).state = .sleeping := by
    intro q hq
    rw [hproc] at hq
    split_ifs at hq
    exact hq
  constructor
  · refine h.scheduler_locks hthread (by subst hm'; rfl) (fun l => ?_) fun l d _ => ?_
    · rw [show m'.lock = m.lock by subst hm'; rfl, h.locks, Machine.Holds, hc]
      change l = .proc i ↔ (m.thread i).holds i l
      cases hpc : m.thread i <;> rw [hpc] at hpark <;> first | exact Iff.rfl | cases hpark
    · subst hm'
      exact Iff.rfl
  · intro d d' q hd hd'
    rw [hcpu] at hd hd'
    rcases hd with ⟨hd, -⟩ | ⟨rfl, rfl⟩
    · rcases hd' with ⟨hd', -⟩ | ⟨rfl, rfl⟩
      · exact h.one d d' q hd hd'
      · exact absurd hd (hoff d)
    · rcases hd' with ⟨hd', -⟩ | ⟨rfl, -⟩
      · exact absurd hd' (hoff d')
      · rfl
  · intro d q hd
    rw [hproc, hthread]
    rcases (hcpu d q).1 hd with ⟨hd, -⟩ | ⟨rfl, rfl⟩
    · rw [if_neg]
      · exact h.on d q hd
      · rintro rfl
        exact hoff d hd
    · rw [if_pos rfl]
      cases hpc : m.thread q <;> rw [hpc] at hpark <;> first | rfl | cases hpark
  · intro q hq
    have hqi : q ≠ i := fun hqi => hq c ((hcpu c q).2 (.inr ⟨rfl, hqi⟩))
    rw [hproc, hthread, if_neg hqi]
    refine h.off q fun d hd => hq d ((hcpu d q).2 (.inl ⟨hd, ?_⟩))
    rintro rfl
    rw [hc] at hd
    cases hd
  · simpa only [hthread] using h.back
  · intro q hq
    rw [hchan, hthread]
    exact h.asleep q (hsleep q hq)
  · intro q hq
    rw [hthread] at hq
    rw [hchan]
    exact h.chanSet q hq
  · subst hm'
    exact h.tested
  · intro hC q hq hs
    have hbefore : m.Asleep q := by
      unfold Machine.Asleep at hs ⊢
      rw [hthread] at hs
      exact hs.imp_left (hsleep q)
    obtain ⟨d, w, j, hd, hj, hle⟩ := h.ahead (by subst hm'; exact hC) q hq hbefore
    refine ⟨d, w, j, (hcpu d w).2 (.inl ⟨hd, ?_⟩), hthread ▸ hj, hle⟩
    rintro rfl
    rw [hc] at hd
    cases hd

theorem Inv.scheduler (h : Inv m) (hs : cpuStep m c a = some m') (hc : ∀ p, m.cpu c ≠ .run p) :
    Inv m' := by
  have hheld : ∀ l, m.lock l = some c ↔ (m.cpu c).holds m.thread l := fun l => h.locks c l
  have hrun : ∀ {x : Cpu}, (∀ p, x ≠ .run p) → ∀ d p,
      Function.update m.cpu c x d = .run p ↔ m.cpu d = .run p := by
    intro x hx d p
    by_cases hd : d = c
    · simp [hd, hx p, hc p]
    · simp [hd]
  cases hcpu : m.cpu c with
  | run p => exact absurd hcpu (hc p)
  | scan i =>
    rw [hcpu] at hheld
    simp only [cpuStep, hcpu] at hs
    split_ifs at hs with hi
    · simp only [Option.bind_eq_bind, Option.bind_eq_some_iff, Machine.acquire_eq_some] at hs
      obtain ⟨m₁, ⟨hfree, rfl⟩, hm'⟩ := hs
      cases hm'
      refine h.scheduler_frame rfl rfl rfl (hrun (by simp))
        (h.scheduler_locks rfl rfl (fun l => ?_) fun l d hd => ?_)
      · by_cases hl : l = .proc i
        · simp [Machine.setCpu, hl, Cpu.holds]
        · simp [Machine.setCpu, hl, Cpu.holds, hheld]
      · by_cases hl : l = .proc i
        · simp [Machine.setCpu, hl, hfree, hd.symm]
        · simp [Machine.setCpu, hl]
    · cases hs
      exact h.scheduler_frame rfl rfl rfl (hrun (by simp))
        (h.scheduler_locks rfl rfl hheld fun _ _ _ => Iff.rfl)
  | test i =>
    rw [hcpu] at hheld
    simp only [cpuStep, hcpu] at hs
    split_ifs at hs with hr
    · cases hs
      exact h.scheduler_run hcpu hr
    · cases hs
      exact h.scheduler_frame rfl rfl rfl (hrun (by simp))
        (h.scheduler_locks rfl rfl hheld fun _ _ _ => Iff.rfl)
  | unlock i =>
    rw [hcpu] at hheld
    simp only [cpuStep, hcpu, Option.bind_eq_bind, Option.bind_eq_some_iff,
      Machine.release_eq_some] at hs
    obtain ⟨m₁, ⟨hmine, rfl⟩, hm'⟩ := hs
    cases hm'
    refine h.scheduler_frame rfl rfl rfl (hrun (by simp))
      (h.scheduler_locks rfl rfl (fun l => ?_) fun l d hd => ?_)
    · by_cases hl : l = .proc i
      · simp [Machine.setCpu, hl, Cpu.holds]
      · simp [Machine.setCpu, hl, Cpu.holds, hheld]
    · by_cases hl : l = .proc i
      · simp [Machine.setCpu, hl, hmine, hd.symm]
      · simp [Machine.setCpu, hl]

theorem inv_initial (h : Initial m) : Inv m := by
  have hcpu : ∀ c p, m.cpu c ≠ .run p := fun c p => by rw [h.cpu]; simp
  have hstate : ∀ p, (m.proc p).state ≠ .sleeping ∧ (m.proc p).state ≠ .running := by
    intro p
    rcases h.state p with hp | hp <;> simp [hp]
  refine ⟨fun c l => ?_, fun c _ p hc => absurd hc (hcpu c p), fun c p hc => absurd hc (hcpu c p),
    fun p _ => ⟨by rw [h.thread]; rfl, (hstate p).2⟩, fun p => by rw [h.thread]; rfl,
    fun p hp => absurd hp (hstate p).1, fun p hp => by simp [h.thread] at hp,
    fun _ p => by simp [h.thread], fun _ p _ hp => ?_⟩
  · rw [h.lock, Machine.Holds, h.cpu]
    simp [Cpu.holds]
  · rcases hp with hp | hp | hp
    · exact absurd hp (hstate p).1
    · simp [h.thread] at hp
    · simp [h.thread] at hp

theorem Inv.step (h : Inv m) (hs : cpuStep m c a = some m') : Inv m' := by
  cases hc : m.cpu c with
  | run p =>
    simp only [cpuStep, hc, Option.bind_eq_bind, Option.bind_eq_some_iff] at hs
    obtain ⟨⟨e, pc'⟩, hcode, m₁, hm₁, hm'⟩ := hs
    cases hm'
    exact h.moves (moves_of_apply hc hcode hm₁)
  | _ => exact h.scheduler hs (by simp [hc])

/-- When the lock is free and the condition holds, no process sleeps on the channel. -/
theorem no_lost_wakeup (h : Reachable m) (hlk : m.lock .lk = none) (hC : m.C = true)
    (hp : p < NPROC) : ¬ ((m.proc p).state = .sleeping ∧ (m.proc p).chan = chan) := by
  have hinv : Inv m := h.invariant (fun _ => inv_initial) fun _ _ _ hi hs => hi.step hs
  rintro ⟨hs, -⟩
  obtain ⟨c, w, i, hc, hi, -⟩ := hinv.ahead hC p hp (.inl hs)
  simp [hinv.held hc (Pc.holds_lk_of_scanned hi)] at hlk

end

def twoProcs : Machine where
  proc p := ⟨if p < 2 then .runnable else .unused, 0, false, p⟩
  lock _ := none
  cpu _ := .scan 0
  thread _ := .forkret
  C := false

/-- On one CPU, process `0` waits and falls asleep, and process `1` wakes it. -/
def sleepThenWake : List (ℕ × Choice) :=
  List.replicate 3 (0, .go) ++ (0, .call .wait) :: List.replicate 11 (0, .go) ++
    (0, .call .wake) :: List.replicate 194 (0, .go)

theorem no_lost_wakeup_sleepThenWake :
    ∃ m, exec twoProcs sleepThenWake = some m ∧ m.lock .lk = none ∧ m.C = true ∧
      ¬ ((m.proc 0).state = .sleeping ∧ (m.proc 0).chan = chan) := by
  have hrun : ((exec twoProcs sleepThenWake).any fun m => decide (m.lock .lk = none) && m.C) =
      true := by decide +kernel
  obtain ⟨m, hm, hend⟩ := (Option.any_eq_true _ _).1 hrun
  rw [Bool.and_eq_true, decide_eq_true_iff] at hend
  have hinit : Initial twoProcs := by
    refine ⟨fun p => ?_, fun _ => rfl, fun _ => rfl, fun _ => rfl⟩
    simp only [twoProcs]
    split_ifs
    · exact .inr rfl
    · exact .inl rfl
  have hr : Reachable m := reachable_exec (.start twoProcs hinit) hm
  exact ⟨m, hm, hend.1, hend.2, no_lost_wakeup hr hend.1 hend.2 (by decide)⟩

end Sched
end Xv6
