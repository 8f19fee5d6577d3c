import Xv6.Proc.CpusCode

/-!
A process runs on at most one CPU. A CPU claims a process from the time its scheduler
finds it runnable until, the thread having switched back, it clears `c->proc`. The
invariant says who holds which lock, that no process is claimed twice, in which state a
claimed process is wherever its thread is, and that a process no CPU claims rests: it is
not running, and its thread waits in `swtch`.
-/

namespace Xv6
namespace Cpus

open ExitWait (Proc freeproc init)

/-- A process that a CPU claims, by the place of the CPU. -/
def Placed : Cpu → ProcState → Pc → Prop
  | .assign _, s, pc | .swtch _, s, pc => s = .running ∧ pc.resumable = true
  | .run _, s, pc => s = pc.stateOn ∧ pc ≠ .dead
  | .clear _, s, pc => Rest s pc
  | _, _, _ => True

structure Inv (m : Machine) : Prop where
  locks : ∀ c l, m.lock l = some c ↔ m.Holds c l
  current : ∀ c, m.current c = (m.cpu c).current
  one : ∀ c d p, (m.cpu c).claims = some p → (m.cpu d).claims = some p → c = d
  placed : ∀ c p, (m.cpu c).claims = some p → Placed (m.cpu c) (m.proc p).state (m.thread p)
  rest : ∀ p, (∀ c, (m.cpu c).claims ≠ some p) → Rest (m.proc p).state (m.thread p)
  ok : ∀ p, (m.thread p).ok = true
  expects : ∀ p i s, (m.thread p).expects = some (i, s) →
    (m.proc i).state = s ∧ (s = .used → m.thread i = .forkret)
  forker : ∀ p q i, (m.thread p).expects = some (i, .used) →
    (m.thread q).expects = some (i, .used) → p = q

theorem Machine.acquire_eq_some {m m' : Machine} {c : ℕ} {l : Lock} :
    m.acquire c l = some m' ↔
      m.lock l = none ∧ m' = { m with lock := Function.update m.lock l (some c) } := by
  unfold acquire
  split_ifs with h <;> simp [h, eq_comm]

theorem Machine.release_eq_some {m m' : Machine} {c : ℕ} {l : Lock} :
    m.release c l = some m' ↔
      m.lock l = some c ∧ m' = { m with lock := Function.update m.lock l none } := by
  unfold release
  split_ifs with h <;> simp [h, eq_comm]

section
variable {m m' : Machine} {c p : ℕ} {pc pc' : Pc} {e : Effect} {a : Choice}

structure Moves (m : Machine) (c : ℕ) (e : Effect) (m' : Machine) : Prop where
  cpu : ∀ d, d ≠ c → m'.cpu d = m.cpu d
  thread : ∀ q, m.cpu c ≠ .run q → m'.thread q = e.thread m q
  proc : ∀ i, m'.proc i = e.proc m i
  current : ∀ d, m'.current d = if d = c then e.current (m.current c) else m.current d
  lock : ∀ l, m'.lock l = some c ↔ e.holds (fun k => m.lock k = some c) l
  lock_other : ∀ l d, d ≠ c → (m'.lock l = some d ↔ m.lock l = some d)

theorem moves_of_apply {m₁ : Machine} (h : e.apply m c = some m₁) : Moves m c e m₁ := by
  have same : ∀ d, m.current d = if d = c then m.current c else m.current d := by
    intro d
    split_ifs with hd
    · rw [hd]
    · rfl
  cases e with
  | skip =>
    cases h
    exact ⟨fun _ _ => rfl, fun _ _ => rfl, fun _ => rfl, same, fun _ => Iff.rfl,
      fun _ _ _ => Iff.rfl⟩
  | acquire k =>
    obtain ⟨hk, rfl⟩ := Machine.acquire_eq_some.1 h
    refine ⟨fun _ _ => rfl, fun _ _ => rfl, fun _ => rfl, same, fun l => ?_,
      fun l d hd => ?_⟩
    · by_cases hl : l = k <;> simp [hl, Effect.holds]
    · by_cases hl : l = k
      · simp [hl, hk, hd.symm]
      · simp [hl]
  | release k =>
    obtain ⟨hk, rfl⟩ := Machine.release_eq_some.1 h
    refine ⟨fun _ _ => rfl, fun _ _ => rfl, fun _ => rfl, same, fun l => ?_,
      fun l d hd => ?_⟩
    · by_cases hl : l = k <;> simp [hl, Effect.holds]
    · by_cases hl : l = k
      · simp [hl, hk, hd.symm]
      · simp [hl]
  | setProc i x =>
    cases h
    exact ⟨fun _ _ => rfl, fun _ _ => rfl, fun j => Function.update_apply _ _ _ j,
      same, fun _ => Iff.rfl, fun _ _ _ => Iff.rfl⟩
  | spawn i x =>
    cases h
    exact ⟨fun _ _ => rfl, fun q _ => Function.update_apply _ _ _ q,
      fun j => Function.update_apply _ _ _ j, same, fun _ => Iff.rfl,
      fun _ _ _ => Iff.rfl⟩
  | setCurrent x =>
    cases h
    exact ⟨fun _ _ => rfl, fun _ _ => rfl, fun _ => rfl,
      fun d => Function.update_apply _ _ _ d, fun _ => Iff.rfl, fun _ _ _ => Iff.rfl⟩
  | swtch p =>
    cases h
    exact ⟨fun d hd => Function.update_of_ne hd _ _, fun _ _ => rfl, fun _ => rfl,
      same, fun _ => Iff.rfl, fun _ _ _ => Iff.rfl⟩

theorem Moves.goto (hm : Moves m c e m') (hc : m.cpu c = .run p) (pc : Pc) :
    Moves m c e (m'.goto p pc) := by
  refine ⟨hm.cpu, fun q hq => ?_, hm.proc, hm.current, hm.lock, hm.lock_other⟩
  rw [← hm.thread q hq]
  refine Function.update_of_ne ?_ _ _
  rintro rfl
  exact hq hc

theorem Moves.setCpu (hm : Moves m c e m') (x : Cpu) : Moves m c e (m'.setCpu c x) :=
  ⟨fun d hd => (Function.update_of_ne hd _ _).trans (hm.cpu d hd), hm.thread, hm.proc,
    hm.current, hm.lock, hm.lock_other⟩

theorem Inv.held (h : Inv m) {l : Lock} (hl : m.Holds c l) : m.lock l = some c :=
  (h.locks c l).2 hl

/-- A CPU that claims a process which is not running holds its lock. -/
theorem Inv.locked (h : Inv m) (hc : (m.cpu c).claims = some p)
    (hs : (m.proc p).state ≠ .running) : m.lock (.proc p) = some c := by
  have hp := h.placed c p hc
  refine h.held ?_
  unfold Machine.Holds
  cases hx : m.cpu c with
  | assign i | swtch i =>
    rw [hx] at hp
    exact absurd hp.1 hs
  | run i =>
    rw [hx] at hp hc
    cases hc
    exact Pc.holds_of_stateOn (hp.1 ▸ hs)
  | clear i =>
    rw [hx] at hc
    cases hc
    rfl
  | _ =>
    rw [hx] at hc
    cases hc

/-- What CPU `c` may do to a process it does not claim: nothing, or, with the lock of the
process held, something that leaves it at rest. -/
def Safe (m : Machine) (c : ℕ) (e : Effect) (i : ℕ) : Prop :=
  e.thread m i = m.thread i ∧ (e.proc m i).state = (m.proc i).state ∨
    m.lock (.proc i) = some c ∧ (m.proc i).state ≠ .running ∧
      (Rest (m.proc i).state (m.thread i) → Rest (e.proc m i).state (e.thread m i))

theorem Cpu.claims_run {x : Cpu} (h : x.claims ≠ some p) : x ≠ .run p := by
  rintro rfl
  exact h rfl

section
variable (h : Inv m) (hm : Moves m c e m')
  (safe : ∀ i, (m.cpu c).claims ≠ some i → (m'.cpu c).claims ≠ some i → Safe m c e i)
  (claim : ∀ p, (m'.cpu c).claims = some p →
    Placed (m'.cpu c) (m'.proc p).state (m'.thread p) ∧ ∀ d, d ≠ c → (m.cpu d).claims ≠ some p)
include h hm safe claim

theorem Inv.other {d q : ℕ} (hd : d ≠ c) (hq : (m.cpu d).claims = some q) :
    m'.thread q = m.thread q ∧ (m'.proc q).state = (m.proc q).state := by
  have hne : (m.cpu c).claims ≠ some q := fun hc => hd (h.one d c q hq hc)
  have hne' : (m'.cpu c).claims ≠ some q := fun hc => (claim q hc).2 d hd hq
  rw [hm.thread q (Cpu.claims_run hne), hm.proc]
  rcases safe q hne hne' with hs | ⟨hl, hs, -⟩
  · exact hs
  · rw [h.locked hq hs, Option.some.injEq] at hl
    exact absurd hl hd

theorem Inv.moves_locks (hlocks : ∀ l, m'.Holds c l ↔ e.holds (m.Holds c) l) (d : ℕ) (l : Lock) :
    m'.lock l = some d ↔ m'.Holds d l := by
  by_cases hd : d = c
  · subst hd
    rw [hm.lock, hlocks, show (fun k => m.lock k = some d) = m.Holds d from
      funext fun k => propext (h.locks d k)]
  · rw [hm.lock_other l d hd, h.locks, Machine.Holds, Machine.Holds, hm.cpu d hd]
    cases hx : m.cpu d with
    | run q =>
      have := h.other hm safe claim hd (show (m.cpu d).claims = some q by rw [hx]; rfl)
      rw [Cpu.holds, Cpu.holds, this.1]
    | _ => rfl

omit safe in
theorem Inv.moves_one (d d' q : ℕ) (hd : (m'.cpu d).claims = some q)
    (hd' : (m'.cpu d').claims = some q) : d = d' := by
  by_cases hdc : d = c <;> by_cases hdc' : d' = c
  · rw [hdc, hdc']
  · rw [hdc] at hd
    rw [hm.cpu d' hdc'] at hd'
    exact absurd hd' ((claim q hd).2 d' hdc')
  · rw [hdc'] at hd'
    rw [hm.cpu d hdc] at hd
    exact absurd hd ((claim q hd').2 d hdc)
  · rw [hm.cpu d hdc] at hd
    rw [hm.cpu d' hdc'] at hd'
    exact h.one d d' q hd hd'

theorem Inv.moves_placed (d q : ℕ) (hd : (m'.cpu d).claims = some q) :
    Placed (m'.cpu d) (m'.proc q).state (m'.thread q) := by
  by_cases hdc : d = c
  · subst hdc
    exact (claim q hd).1
  · rw [hm.cpu d hdc] at hd ⊢
    obtain ⟨ht, hs⟩ := h.other hm safe claim hdc hd
    rw [ht, hs]
    exact h.placed d q hd

omit claim in
theorem Inv.moves_rest (drop : ∀ p, (m.cpu c).claims = some p → (m'.cpu c).claims ≠ some p →
      Rest (m'.proc p).state (m'.thread p))
    (q : ℕ) (hq : ∀ d, (m'.cpu d).claims ≠ some q) : Rest (m'.proc q).state (m'.thread q) := by
  by_cases hc : (m.cpu c).claims = some q
  · exact drop q hc (hq c)
  · have hrest : Rest (m.proc q).state (m.thread q) := by
      refine h.rest q fun d hd => ?_
      by_cases hdc : d = c
      · exact hc (hdc ▸ hd)
      · exact hq d (by rw [hm.cpu d hdc, hd])
    rw [hm.thread q (Cpu.claims_run hc), hm.proc]
    rcases safe q hc (hq c) with ⟨ht, hs⟩ | ⟨-, -, hs⟩
    · rw [ht, hs]
      exact hrest
    · exact hs hrest

omit safe claim in
/-- What a thread that is not on CPU `c` knows of a process stays true, if its state is
kept. -/
theorem Inv.moves_expects {q i : ℕ} {s : ProcState} (hexp : (m.thread q).expects = some (i, s))
    (hs : (m'.proc i).state = (m.proc i).state) :
    (m'.proc i).state = s ∧ (s = .used → m'.thread i = .forkret) := by
  obtain ⟨hst, hfork⟩ := h.expects q i s hexp
  refine ⟨hs.trans hst, fun hu => ?_⟩
  have hrun : m.cpu c ≠ .run i := by
    intro hc
    have := h.placed c i (by rw [hc]; rfl)
    rw [hc, hfork hu, hst, hu] at this
    cases this.1
  rw [hm.thread i hrun, ← hfork hu]
  unfold Effect.thread
  cases e <;> simp only
  split_ifs
  · exact (hfork hu).symm
  · rfl

end

theorem Inv.unclaimed (h : Inv m) {i : ℕ} (hl : m.lock (.proc i) = some c)
    (hc : (m.cpu c).claims ≠ some i) (hs : (m.proc i).state ≠ .running) (d : ℕ) :
    (m.cpu d).claims ≠ some i := by
  intro hd
  rw [h.locked hd hs, Option.some.injEq] at hl
  exact hc (hl ▸ hd)

theorem Rest.wake {s : ProcState} (h : Rest s pc) (hs : s = .sleeping) : Rest .runnable pc := by
  refine ⟨by simp, h.thread, fun hd => ?_⟩
  rcases h.dead hd with h | h <;> rw [hs] at h <;> cases h

theorem Rest.resumable {s : ProcState} (h : Rest s pc) (hs : s = .runnable) :
    pc.resumable = true := by
  refine h.thread.resolve_right fun hd => ?_
  rcases h.dead hd with h | h <;> rw [hs] at h <;> cases h

theorem Pc.stateOn_of_resumable (h : pc.resumable = true) :
    pc.stateOn = .running ∧ pc ≠ .dead := by
  cases pc <;> simp_all [Pc.resumable, Pc.stateOn]

section
variable {x y : Cpu} (h : Inv m) (hx : m.cpu c = x) (hrun : ∀ q, x ≠ .run q)
  (hcode : chooseScheduler m x a = some (e, y)) (hm : Moves m c e m')
include h hx

theorem Inv.scheduler_lock {i : ℕ} (hl : x.holds m.thread (.proc i)) :
    m.lock (.proc i) = some c := by
  refine h.held ?_
  rwa [Machine.Holds, hx]

include hcode

theorem Inv.scheduler_safe {i : ℕ} (hi : y.claims ≠ some i) : Safe m c e i := by
  obtain ⟨ht, hs | ⟨hl, -, ⟨hs, hs'⟩ | ⟨-, -, rfl⟩⟩⟩ := chooseScheduler_changes hcode i
  · exact .inl ⟨ht, hs⟩
  · refine .inr ⟨h.scheduler_lock hx hl, by simp [hs], fun hr => ?_⟩
    rw [ht, hs']
    exact hr.wake hs
  · exact absurd rfl hi

/-- What the scheduler does leaves the state of the process that it claims. -/
theorem Inv.scheduler_placed (hm : Moves m c e m') {i : ℕ} (hi : x.claims = some i) :
    Placed x (m'.proc i).state (m.thread i) := by
  have hplaced := h.placed c i (by rw [hx, hi])
  rw [hm.proc]
  rcases (chooseScheduler_changes hcode i).2 with hs | ⟨-, hn, -⟩
  · rwa [hs, ← hx]
  · rw [hn] at hi
    cases hi

include hrun hm

theorem Inv.scheduler_claim (hp : y.claims = some p) :
    Placed y (m'.proc p).state (m.thread p) ∧ ∀ d, d ≠ c → (m.cpu d).claims ≠ some p := by
  have hother : ∀ i, x.claims = some i → ∀ d, d ≠ c → (m.cpu d).claims ≠ some i := by
    intro i hi d hd hdi
    exact hd (h.one d c i hdi (by rw [hx, hi]))
  rcases chooseScheduler_claims hrun hcode with ⟨-, hn⟩ | ⟨i, rfl, rfl, hs, hs'⟩ |
    ⟨i, rfl, rfl⟩ | ⟨i, rfl, rfl⟩ | ⟨i, rfl, rfl⟩
  · rw [hn] at hp
    cases hp
  · cases hp
    have hun := h.unclaimed (h.scheduler_lock hx rfl) (by rw [hx]; exact nofun) (by simp [hs])
    exact ⟨⟨(congrArg _ (hm.proc _)).trans hs', (h.rest _ hun).resumable hs⟩, fun d _ => hun d⟩
  · cases hp
    exact ⟨h.scheduler_placed hx hcode hm rfl, hother _ rfl⟩
  · cases hp
    obtain ⟨hs, hr⟩ := h.scheduler_placed hx hcode hm rfl
    obtain ⟨hon, hd⟩ := Pc.stateOn_of_resumable hr
    exact ⟨⟨hs.trans hon.symm, hd⟩, hother _ rfl⟩
  · cases hp

theorem Inv.scheduler_drop (hp : x.claims = some p) (hp' : y.claims ≠ some p) :
    Rest (m'.proc p).state (m.thread p) := by
  rcases chooseScheduler_claims hrun hcode with ⟨hn, -⟩ | ⟨i, rfl, rfl, -⟩ |
    ⟨i, rfl, rfl⟩ | ⟨i, rfl, rfl⟩ | ⟨i, rfl, rfl⟩
  · rw [hn] at hp
    cases hp
  · cases hp
  · exact absurd hp hp'
  · exact absurd hp hp'
  · cases hp
    exact h.scheduler_placed hx hcode hm rfl

omit hrun hm in
theorem Inv.scheduler_holds (l : Lock) : y.holds m.thread l ↔ e.holds (m.Holds c) l := by
  have hfun : m.Holds c = x.holds m.thread := by
    funext l
    rw [Machine.Holds, hx]
  rw [hfun]
  by_cases hsw : ∃ i, x = .swtch i
  · obtain ⟨i, rfl⟩ := hsw
    have hplaced := h.placed c i (by rw [hx]; rfl)
    rw [hx] at hplaced
    cases a with
    | go b =>
      cases hcode
      exact Pc.holds_of_resumable hplaced.2 l
    | _ => cases hcode
  · exact chooseScheduler_holds (fun i hi => hsw ⟨i, hi⟩) hcode l

theorem Inv.scheduler (hy : m'.cpu c = y) : Inv m' := by
  have hthread : ∀ q, m'.thread q = m.thread q := by
    intro q
    rw [hm.thread q (by rw [hx]; exact hrun q)]
    exact (chooseScheduler_changes hcode q).1
  have safe : ∀ i, (m.cpu c).claims ≠ some i → (m'.cpu c).claims ≠ some i → Safe m c e i := by
    intro i _ hi
    exact h.scheduler_safe hx hcode (by rwa [← hy])
  have claim : ∀ p, (m'.cpu c).claims = some p →
      Placed (m'.cpu c) (m'.proc p).state (m'.thread p) ∧
        ∀ d, d ≠ c → (m.cpu d).claims ≠ some p := by
    intro p hp
    rw [hy] at hp ⊢
    rw [hthread]
    exact h.scheduler_claim hx hrun hcode hm hp
  have hlocks : ∀ l, m'.Holds c l ↔ e.holds (m.Holds c) l := by
    intro l
    rw [Machine.Holds, hy, show m'.thread = m.thread from funext hthread]
    exact h.scheduler_holds hx hcode l
  constructor
  · exact h.moves_locks hm safe claim hlocks
  · intro d
    rw [hm.current]
    by_cases hd : d = c
    · rw [if_pos hd, hd, hy, h.current, hx]
      exact chooseScheduler_current hcode
    · rw [if_neg hd, hm.cpu d hd]
      exact h.current d
  · exact h.moves_one hm claim
  · exact h.moves_placed hm safe claim
  · refine h.moves_rest hm safe fun p hp hp' => ?_
    rw [hx] at hp
    rw [hy] at hp'
    rw [hthread]
    exact h.scheduler_drop hx hrun hcode hm hp hp'
  · intro q
    rw [hthread]
    exact h.ok q
  · intro q i s hq
    rw [hthread] at hq
    refine h.moves_expects hm hq ?_
    rw [hm.proc]
    rcases (chooseScheduler_changes hcode i).2 with hs | ⟨-, -, hs⟩
    · exact hs
    · have hst := (h.expects q i s hq).1
      rcases Pc.expects_state hq with rfl | rfl | rfl <;> rw [hst] at hs <;> simp at hs
  · intro q r i hq hr
    rw [hthread] at hq hr
    exact h.forker q r i hq hr

end

theorem Inv.on_cpu (h : Inv m) (hr : (m.thread p).resumable = false) (hd : m.thread p ≠ .dead) :
    ∃ c, m.cpu c = .run p := by
  have hnot : ¬ Rest (m.proc p).state (m.thread p) := by
    intro hrest
    rcases hrest.thread with h | h
    · rw [hr] at h
      cases h
    · exact hd h
  by_contra hoff
  refine hnot (h.rest p fun c hc => ?_)
  have hp := h.placed c p hc
  cases hx : m.cpu c with
  | run q =>
    rw [hx] at hc
    cases hc
    exact hoff ⟨c, hx⟩
  | assign q | swtch q =>
    rw [hx] at hp
    exact Bool.false_ne_true (hr.symm.trans hp.2)
  | clear q =>
    rw [hx] at hp
    exact hnot hp
  | _ =>
    rw [hx] at hc
    cases hc

section
variable (h : Inv m) (hc : m.cpu c = .run p) (hcode : choose m p (m.thread p) a = some (e, pc'))
include h hc hcode

omit hcode in
theorem Inv.running : (m.proc p).state = (m.thread p).stateOn ∧ m.thread p ≠ .dead := by
  have := h.placed c p (by rw [hc]; rfl)
  rwa [hc] at this

omit hcode in
theorem Inv.thread_lock {l : Lock} (hl : (m.thread p).holds p l) : m.lock l = some c := by
  refine h.held ?_
  rwa [Machine.Holds, hc]

/-- Where a thread changes a process other than its own, the process stays at rest. -/
theorem Inv.thread_safe (i : ℕ) (hi : i ≠ p) : Safe m c e i := by
  rcases choose_changes (h.ok p) hcode i with hs | ⟨hl, hch⟩
  · exact .inl hs
  · refine .inr ⟨h.thread_lock hc hl, ?_⟩
    cases hch with
    | own hip _ => exact absurd hip hi
    | wake ht hs hs' =>
      refine ⟨by simp [hs], fun hr => ?_⟩
      rw [ht, hs']
      exact hr.wake hs
    | known hs _ hs' hlive =>
      obtain ⟨hst, hfork⟩ := h.expects p i _ hs
      refine ⟨?_, fun hr => ⟨hs', ?_, fun hd => ?_⟩⟩
      · rcases Pc.expects_state hs with rfl | rfl | rfl <;> simp [hst]
      · unfold Effect.thread
        cases e <;> simp only <;> (try exact hr.thread)
        split_ifs
        · exact .inl rfl
        · exact hr.thread
      · rcases hlive with hu | ht | ⟨rfl, ht⟩
        · exact .inr hu
        · rw [ht] at hd
          cases hd
        · rw [ht, hfork rfl] at hd
          cases hd

/-- A thread that counts on the state of a process is not disturbed by another one. -/
theorem Inv.undisturbed {q i : ℕ} {s : ProcState} (hq : q ≠ p)
    (hexp : (m.thread q).expects = some (i, s)) : (e.proc m i).state = (m.proc i).state := by
  have hst := (h.expects q i s hexp).1
  rcases choose_changes (h.ok p) hcode i with hs | ⟨hl, hch⟩
  · exact hs.2
  · exfalso
    cases hch with
    | own hip hon =>
      subst hip
      have := (h.running hc).1
      rcases Pc.expects_state hexp with rfl | rfl | rfl <;> rw [hst, hon] at this <;> cases this
    | wake _ hs _ =>
      rcases Pc.expects_state hexp with rfl | rfl | rfl <;> rw [hst] at hs <;> cases hs
    | known hs _ _ _ =>
      rw [(h.expects p i _ hs).1.symm.trans hst] at hs
      by_cases hu : s = .used
      · subst hu
        exact hq (h.forker q p i hexp hs)
      · -- both threads would hold the lock of process `i`
        obtain ⟨hql, hqr, hqd⟩ := Pc.expects_locked (p := q) (h.ok q) hexp hu
        obtain ⟨d, hd⟩ := h.on_cpu hqr hqd
        have := h.thread_lock hd hql
        rw [h.thread_lock hc hl, Option.some.injEq] at this
        rw [← this, hc] at hd
        cases hd
        exact hq rfl

theorem Inv.thread_expects (hm : Moves m c e m') {i : ℕ} {s : ProcState}
    (hexp : pc'.expects = some (i, s)) :
    (m'.proc i).state = s ∧ (s = .used → m'.thread i = .forkret) := by
  obtain ⟨hon, -⟩ := h.running hc
  rcases choose_expects (h.ok p) hcode hexp with hold | ⟨rfl, hs, hu⟩ | ⟨hold, hs, ht⟩
  · refine h.moves_expects hm hold ?_
    rw [hm.proc]
    rcases choose_changes (h.ok p) hcode i with hs | ⟨-, hch⟩
    · exact hs.2
    · exfalso
      have hst := (h.expects p i s hold).1
      cases hch with
      | own hip hon' =>
        subst hip
        rw [hon, hon'] at hst
        rcases Pc.expects_state hold with rfl | rfl | rfl <;> cases hst
      | wake _ hs _ =>
        rcases Pc.expects_state hold with rfl | rfl | rfl <;> rw [hst] at hs <;> cases hs
      | known hs hnext _ _ =>
        rw [hold, Option.some.injEq, Prod.mk.injEq] at hs
        exact hnext (hs.2 ▸ hexp)
  · exact ⟨(congrArg _ (hm.proc i)).trans hs, fun h => absurd h hu⟩
  · refine ⟨(congrArg _ (hm.proc i)).trans hs, fun _ => ?_⟩
    rw [hm.thread i, ht]
    rw [hc]
    rintro ⟨⟩
    obtain ⟨hl, -⟩ := Pc.expects_locked (p := p) (h.ok p) hold (by simp)
    have hst := (h.expects p p _ hold).1
    rw [hon] at hst
    revert hold hst
    cases m.thread p <;> simp [Pc.expects, Pc.stateOn]

omit h hcode in
theorem Moves.thread_other (hm : Moves m c e m') {q : ℕ} (hq : q ≠ p) :
    m'.thread q = e.thread m q := by
  refine hm.thread q fun hcq => hq ?_
  rw [hc] at hcq
  cases hcq
  rfl

theorem Inv.thread_forker (hm : Moves m c e m') (hpc : m'.thread p = pc') (q r i : ℕ)
    (hq : (m'.thread q).expects = some (i, .used)) (hr : (m'.thread r).expects = some (i, .used)) :
    q = r := by
  have hnew : ∀ q, q ≠ p → pc'.expects = some (i, .used) →
      (m'.thread q).expects = some (i, .used) → q = p := by
    intro q hq hp hexp
    rw [Moves.thread_other hc hm hq] at hexp
    have hexp := Effect.thread_expects hexp
    rcases choose_expects (h.ok p) hcode hp with hold | ⟨-, -, hu⟩ | ⟨hold, -, -⟩
    · exact h.forker q p i hexp hold
    · exact absurd rfl hu
    · have := (h.expects p i _ hold).1.symm.trans (h.expects q i _ hexp).1
      cases this
  by_cases hqp : q = p <;> by_cases hrp : r = p
  · rw [hqp, hrp]
  · rw [hqp, hpc] at hq
    rw [hqp]
    exact (hnew r hrp hq hr).symm
  · rw [hrp, hpc] at hr
    rw [hrp]
    exact hnew q hqp hr hq
  · rw [Moves.thread_other hc hm hqp] at hq
    rw [Moves.thread_other hc hm hrp] at hr
    exact h.forker q r i (Effect.thread_expects hq) (Effect.thread_expects hr)

theorem Inv.thread (hm : Moves m c e m') (hpc : m'.thread p = pc')
    (hsw : ∀ q, e = .swtch q → m'.cpu c = .clear q)
    (hstay : (∀ q, e ≠ .swtch q) → m'.cpu c = .run p) : Inv m' := by
  obtain ⟨hon, hdead⟩ := h.running hc
  have hclaims : (m.cpu c).claims = some p := by
    rw [hc]
    rfl
  have hcases : (∀ q, e ≠ .swtch q) ∧ m'.cpu c = .run p ∨ e = .swtch p ∧ m'.cpu c = .clear p := by
    by_cases hq : ∃ q, e = .swtch q
    · obtain ⟨q, rfl⟩ := hq
      obtain ⟨rfl, -⟩ := choose_swtch (h.ok p) hcode
      exact .inr ⟨rfl, hsw q rfl⟩
    · have hne : ∀ q, e ≠ .swtch q := fun q he => hq ⟨q, he⟩
      exact .inl ⟨hne, hstay hne⟩
  have hclaims' : (m'.cpu c).claims = some p := by
    rcases hcases with ⟨-, hx⟩ | ⟨-, hx⟩ <;> rw [hx] <;> rfl
  have safe : ∀ i, (m.cpu c).claims ≠ some i → (m'.cpu c).claims ≠ some i → Safe m c e i := by
    intro i hi _
    exact h.thread_safe hc hcode i fun hip => hi (hip ▸ hclaims)
  have claim : ∀ q, (m'.cpu c).claims = some q →
      Placed (m'.cpu c) (m'.proc q).state (m'.thread q) ∧
        ∀ d, d ≠ c → (m.cpu d).claims ≠ some q := by
    intro q hq
    obtain rfl : p = q := Option.some.inj (hclaims'.symm.trans hq)
    refine ⟨?_, fun d hd hdp => hd (h.one d c p hdp hclaims)⟩
    rw [hpc, hm.proc]
    rcases hcases with ⟨hne, hx⟩ | ⟨rfl, hx⟩ <;> rw [hx]
    · exact choose_stateOn (h.ok p) hcode hne (fun i s he => (h.expects p i s he).1) hdead hon
    · have := (choose_swtch (h.ok p) hcode).2.2
      rwa [← hon] at this
  have hlocks : ∀ l, m'.Holds c l ↔ e.holds (m.Holds c) l := by
    intro l
    have hfun : m.Holds c = (m.thread p).holds p := by
      funext l
      rw [Machine.Holds, hc]
      rfl
    rw [hfun, Machine.Holds]
    rcases hcases with ⟨hne, hx⟩ | ⟨rfl, hx⟩ <;> rw [hx]
    · rw [Cpu.holds, hpc]
      exact choose_holds (h.ok p) hcode l hne
    · exact ((choose_swtch (h.ok p) hcode).2.1 l).symm
  constructor
  · exact h.moves_locks hm safe claim hlocks
  · intro d
    rw [hm.current]
    by_cases hd : d = c
    · rw [if_pos hd, hd, choose_current (h.ok p) hcode, h.current, hc]
      rcases hcases with ⟨-, hx⟩ | ⟨-, hx⟩
      · rw [hx]
      · rw [hx]
        rfl
    · rw [if_neg hd, hm.cpu d hd]
      exact h.current d
  · exact h.moves_one hm claim
  · exact h.moves_placed hm safe claim
  · refine h.moves_rest hm safe fun q hq hq' => ?_
    rw [hclaims] at hq
    rw [hclaims'] at hq'
    exact absurd hq hq'
  · intro q
    by_cases hq : q = p
    · rw [hq, hpc]
      exact choose_ok (h.ok p) hcode
    · rw [Moves.thread_other hc hm hq]
      unfold Effect.thread
      cases e <;> simp only <;> (try exact h.ok q)
      split_ifs
      · rfl
      · exact h.ok q
  · intro q i s hexp
    by_cases hq : q = p
    · rw [hq, hpc] at hexp
      exact h.thread_expects hc hcode hm hexp
    · rw [Moves.thread_other hc hm hq] at hexp
      have hexp := Effect.thread_expects hexp
      refine h.moves_expects hm hexp ?_
      rw [hm.proc]
      exact h.undisturbed hc hcode hq hexp
  · exact h.thread_forker hc hcode hm hpc

end

theorem inv_initial (h : Initial m) : Inv m := by
  have hclaims : ∀ c p, (m.cpu c).claims ≠ some p := fun c p => by simp [h.cpu, Cpu.claims]
  refine ⟨fun c l => ?_, fun c => by rw [h.current, h.cpu]; rfl,
    fun c _ p hc => absurd hc (hclaims c p), fun c p hc => absurd hc (hclaims c p),
    fun p _ => ⟨?_, .inl ?_, ?_⟩, fun p => by rw [h.thread]; rfl, ?_, ?_⟩
  · rw [h.lock, Machine.Holds, h.cpu]
    simp [Cpu.holds]
  · rw [h.state]
    split_ifs <;> simp
  · rw [h.thread]
    rfl
  · rw [h.thread]
    simp
  · intro p i s hp
    rw [h.thread] at hp
    cases hp
  · intro p q i hp
    rw [h.thread] at hp
    cases hp

theorem Inv.step (h : Inv m) (hs : cpuStep m c a = some m') : Inv m' := by
  unfold cpuStep at hs
  split at hs
  · rename_i p hc
    simp only [Option.bind_eq_bind, Option.bind_eq_some_iff] at hs
    obtain ⟨⟨e, pc'⟩, hcode, m₁, hm₁, hm'⟩ := hs
    cases hm'
    have hm := moves_of_apply hm₁
    refine h.thread hc hcode (hm.goto hc pc') (Function.update_self _ _ _) ?_ ?_
    · rintro q rfl
      cases hm₁
      exact Function.update_self _ _ _
    · intro hne
      cases e with
      | swtch q => exact absurd rfl (hne q)
      | acquire l =>
        obtain ⟨-, rfl⟩ := Machine.acquire_eq_some.1 hm₁
        exact hc
      | release l =>
        obtain ⟨-, rfl⟩ := Machine.release_eq_some.1 hm₁
        exact hc
      | _ =>
        cases hm₁
        exact hc
  · rename_i hrun
    simp only [Option.bind_eq_bind, Option.bind_eq_some_iff] at hs
    obtain ⟨⟨e, y⟩, hcode, m₁, hm₁, hm'⟩ := hs
    cases hm'
    exact h.scheduler rfl hrun hcode ((moves_of_apply hm₁).setCpu y) (Function.update_self _ _ _)

theorem Reachable.inv (h : Reachable m) : Inv m :=
  h.invariant (fun _ => inv_initial) fun _ _ _ hi hs => hi.step hs

theorem Cpu.claims_of_current {x : Cpu} (h : x.current = some p) : x.claims = some p := by
  cases x <;> first | exact h | cases h

/-- With `p->lock` free, the CPUs that have `p` as `c->proc` are those that run it. -/
theorem Inv.current_iff (h : Inv m) (hl : m.lock (.proc p) = none) :
    m.current c = some p ↔ m.cpu c = .run p := by
  rw [h.current]
  constructor
  · intro hc
    cases hx : m.cpu c with
    | run q =>
      rw [hx] at hc
      cases hc
      rfl
    | swtch q | clear q =>
      rw [hx] at hc
      cases hc
      have := h.held (c := c) (l := .proc p) (by rw [Machine.Holds, hx]; rfl)
      rw [hl] at this
      cases this
    | _ =>
      rw [hx] at hc
      cases hc
  · intro hc
    rw [hc]
    rfl

/-- A process that some CPU claims while its lock is free is running, and conversely. -/
theorem Inv.state_running_iff (h : Inv m) (hl : m.lock (.proc p) = none) :
    (m.proc p).state = .running ↔ ∃ c, m.cpu c = .run p := by
  constructor
  · intro hs
    by_contra hoff
    refine (h.rest p fun c hc => ?_).state hs
    cases hx : m.cpu c with
    | run q =>
      rw [hx] at hc
      cases hc
      exact hoff ⟨c, hx⟩
    | assign q | swtch q | clear q =>
      rw [hx] at hc
      cases hc
      have := h.held (c := c) (l := .proc p) (by rw [Machine.Holds, hx]; rfl)
      rw [hl] at this
      cases this
    | _ =>
      rw [hx] at hc
      cases hc
  · rintro ⟨c, hc⟩
    by_contra hs
    rw [h.locked (by rw [hc]; rfl) hs] at hl
    cases hl

/-- A process runs on at most one CPU. At any time at most one CPU has `c->proc == p`;
while `p->lock` is free, `p` is `RUNNING` just when exactly one CPU has; and a process
that `wait` is about to free is `c->proc` of none. -/
theorem runs_on_one_cpu (h : Reachable m) (p : ℕ) :
    (∀ c d, m.current c = some p → m.current d = some p → c = d) ∧
      (m.lock (.proc p) = none →
        ((m.proc p).state = .running ↔ ∃! c, m.current c = some p)) ∧
      ∀ q, m.thread q = .waitFree p → ∀ c, m.current c ≠ some p := by
  have hinv := h.inv
  have hone : ∀ c d, m.current c = some p → m.current d = some p → c = d := by
    intro c d hc hd
    rw [hinv.current] at hc hd
    exact hinv.one c d p (Cpu.claims_of_current hc) (Cpu.claims_of_current hd)
  refine ⟨hone, fun hl => ?_, fun q hq c hc => ?_⟩
  · rw [hinv.state_running_iff hl]
    constructor
    · rintro ⟨c, hc⟩
      have hcur := (hinv.current_iff hl).2 hc
      exact ⟨c, hcur, fun d hd => hone d c hd hcur⟩
    · rintro ⟨c, hc, -⟩
      exact ⟨c, (hinv.current_iff hl).1 hc⟩
  · have hst : (m.proc p).state = .zombie := (hinv.expects q p .zombie (by rw [hq]; rfl)).1
    obtain ⟨d, hd⟩ := hinv.on_cpu (p := q) (by rw [hq]; rfl) (by rw [hq]; exact nofun)
    have hlock := hinv.thread_lock hd (l := .proc p) (by rw [hq]; exact .inr rfl)
    rw [hinv.current] at hc
    have hclaims := Cpu.claims_of_current hc
    rw [hinv.locked hclaims (by simp [hst]), Option.some.injEq] at hlock
    rw [hlock, hd] at hclaims
    cases hclaims
    have hon := (hinv.running hd).1
    rw [hst, hq] at hon
    cases hon

end

def boot : Machine where
  proc p := ⟨if p = init then .runnable else .unused, none, false, if p = init then 1 else 0, 0, none⟩
  lock _ := none
  cpu _ := .scan 0
  current _ := none
  thread _ := .forkret
  nextpid := 2

theorem boot_initial : Initial boot :=
  ⟨fun _ => rfl, fun _ => rfl, fun _ => rfl, fun _ => rfl, fun _ => rfl⟩

/-- CPU `0` runs `init`, which forks; CPU `1` runs the child, which exits; `init` waits for
it and is about to free it. -/
def forkExitWait : List (ℕ × Choice) :=
  List.replicate 5 (0, .go true) ++ (0, .call .fork) :: List.replicate 14 (0, .go true) ++
    List.replicate 8 (1, .go true) ++ (1, .call (.exit 7)) :: List.replicate 266 (1, .go true) ++
    (0, .call .wait) :: List.replicate 4 (0, .go true)

theorem runs_on_one_cpu_forkExitWait :
    ∃ m, exec boot forkExitWait = some m ∧ m.thread 0 = .waitFree 1 ∧
      m.current 0 = some 0 ∧ (∀ c, m.current c = some 0 → c = 0) ∧ m.lock (.proc 0) = none ∧
      ((m.proc 0).state = .running ↔ ∃! c, m.current c = some 0) ∧
      ∀ c, m.current c ≠ some 1 := by
  have hrun : ((exec boot forkExitWait).any fun m => decide (m.thread 0 = .waitFree 1) &&
      decide (m.current 0 = some 0) && decide (m.lock (.proc 0) = none)) = true := by
    decide +kernel
  obtain ⟨m, hm, hend⟩ := (Option.any_eq_true _ _).1 hrun
  simp only [Bool.and_eq_true, decide_eq_true_iff] at hend
  obtain ⟨⟨hfree, hcur⟩, hlock⟩ := hend
  have hr : Reachable m := reachable_exec (.start boot boot_initial) hm
  obtain ⟨hone, hiff, -⟩ := runs_on_one_cpu hr 0
  exact ⟨m, hm, hfree, hcur, fun c hc => hone c 0 hc hcur, hlock, hiff hlock,
    (runs_on_one_cpu hr 1).2.2 0 hfree⟩

end Cpus
end Xv6
