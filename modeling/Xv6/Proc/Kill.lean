import Xv6.Proc.ExitWaitSafety

/-!
`kill` of `proc.c` and the checks of `p->killed` in `usertrap`, over the machine of
`fork`, `exit` and `wait`. `kill` looks at one slot of the process table after the other,
each under its lock; a process that finds itself killed when it enters a system call, or
before it returns to user space, calls `exit(-1)`.
-/

namespace Xv6
namespace Kill

inductive Event where
  /-- `allocproc` returned slot `i`. -/
  | alloc (i : ℕ) (pid : ℤ)
  | call (q : ℕ) (pid : ℤ)
  /-- `kill(pid)`, called by process `q`, marked slot `i` and returned 0. -/
  | found (q i : ℕ) (pid : ℤ)
  /-- `kill(pid)`, called by process `q`, returned -1. -/
  | missed (q : ℕ) (pid : ℤ)
  /-- An unexpected trap of the process in slot `i`, which marks itself. -/
  | fault (i : ℕ)
  /-- The process in slot `i` found itself marked and called `exit(-1)`. -/
  | exitKilled (i : ℕ) (pid : ℤ)
  deriving DecidableEq, Repr

structure Machine where
  base : ExitWait.Machine
  /-- The `kill` a process is in, with its argument and the slot it comes to next. -/
  call : ℕ → Option (ℤ × ℕ)
  /-- The events so far, latest first. -/
  history : List Event

inductive Act where
  /-- A step of `fork`, `exit`, `wait` or the scheduler. -/
  | base (a : ExitWait.Act)
  | kill (pid : ℤ)
  /-- `kill` looks at the next slot. -/
  | scan
  /-- `if(p->killed) exit(-1)`. -/
  | trap
  /-- `p->killed = 1` after an unexpected trap from user space. -/
  | fault
  deriving DecidableEq, Repr

/-- Whether the step enters a system call, which a killed process does not get to. -/
def enters : ExitWait.Act → Bool
  | .fork | .exit _ | .wait _ => true
  | _ => false

/-- The slot `allocproc` returns in this step. -/
def allocates (m : ExitWait.Machine) (p : ℕ) (a : ExitWait.Act) : Option ℕ :=
  match a, m.thread p with
  | .go true, .forkScan i => if i < NPROC ∧ (m.proc i).state = .unused then some i else none
  | _, _ => none

namespace Machine
variable (m : Machine)

def record (e : Event) : Machine := { m with history := e :: m.history }

def setCall (p : ℕ) (c : Option (ℤ × ℕ)) : Machine := { m with call := Function.update m.call p c }

/-- Process `p` is in user space, or about to return there. -/
def atUser (p : ℕ) : Bool :=
  (m.base.proc p).state = .running ∧ (m.base.thread p).inUser ∧ m.call p = none

def baseStep (p : ℕ) (a : ExitWait.Act) : Option Machine :=
  (ExitWait.step m.base p a).map fun b =>
    let m' := { m with base := b }
    match allocates m.base p a with
    | some i => m'.record (.alloc i (b.proc i).pid)
    | none => m'

/-- `p->killed = 1`, and a sleeping process is made runnable. -/
def mark (i : ℕ) : Option Machine :=
  (ExitWait.step m.base i .kill).map fun b => { m with base := b }

end Machine

def step (m : Machine) (p : ℕ) : Act → Option Machine
  | .base a =>
      if a = .kill then none
      else if enters a ∧ (m.base.proc p).killed then none
      else if m.call p ≠ none ∧ a ≠ .run ∧ a ≠ .yield then none
      else m.baseStep p a
  | .kill pid =>
      if m.atUser p ∧ (m.base.proc p).killed = false then
        some ((m.setCall p (some (pid, 0))).record (.call p pid))
      else none
  | .scan =>
      match m.call p with
      | none => none
      | some (pid, i) =>
          if (m.base.proc p).state ≠ .running then none
          else if i < NPROC then
            if (m.base.proc i).pid = pid then
              (m.mark i).map fun m => (m.setCall p none).record (.found p i pid)
            else some (m.setCall p (some (pid, i + 1)))
          else some ((m.setCall p none).record (.missed p pid))
  | .trap =>
      if m.atUser p ∧ (m.base.proc p).killed then
        (m.baseStep p (.exit (-1))).map fun m' =>
          m'.record (.exitKilled p (m.base.proc p).pid)
      else none
  | .fault => if m.atUser p then (m.mark p).map fun m => m.record (.fault p) else none

def start : Machine := ⟨ExitWait.start, fun _ => none, []⟩

/-- `kill(0)` does not come to a slot that has no process, and no `kill` of a pid is in
progress while `allocproc` gives out that pid. -/
def Sane (m : Machine) (p : ℕ) : Act → Prop
  | .scan => ∀ i, i < NPROC → m.call p = some (0, i) → (m.base.proc i).state ≠ .unused
  | .base a => (allocates m.base p a).isSome = true →
      ∀ q, q < NPROC → (m.call q).map Prod.fst ≠ some m.base.nextpid
  | _ => True

def Step (m : Machine) (e : ℕ × Act) (m' : Machine) : Prop := step m e.1 e.2 = some m'

def Reachable (m : Machine) : Prop := Transition.Reachable (· = start) Step m

def SanelyReachable (m : Machine) : Prop :=
  Transition.Reachable (· = start) (fun m e m' => Sane m e.1 e.2 ∧ Step m e m') m

/-- The events since slot `i` was allocated last. -/
def since (i : ℕ) (h : List Event) : List Event :=
  h.takeWhile fun
    | .alloc j _ => j ≠ i
    | _ => true

/-- Since it was allocated, slot `i` faulted, or `kill(pid)` was called and found it. -/
def Blamed (i : ℕ) (pid : ℤ) (h : List Event) : Prop :=
  .fault i ∈ since i h ∨ ∃ q, .call q pid ∈ since i h ∧ .found q i pid ∈ since i h

section
variable {m m' : Machine} {b b' : ExitWait.Machine} {p i : ℕ} {pid : ℤ} {h : List Event}

theorem since_cons {e : Event} (he : ∀ pid, e ≠ .alloc i pid) :
    since i (e :: h) = e :: since i h := by
  apply List.takeWhile_cons_of_pos
  cases e with
  | alloc j pid =>
    have hj : j ≠ i := fun hj => he pid (hj ▸ rfl)
    simpa using hj
  | _ => rfl

theorem Blamed.cons (hb : Blamed i pid h) {e : Event} (he : ∀ pid, e ≠ .alloc i pid) :
    Blamed i pid (e :: h) := by
  unfold Blamed
  rw [since_cons he]
  refine hb.imp (List.mem_cons_of_mem e) fun hq => ?_
  obtain ⟨q, hcall, hfound⟩ := hq
  exact ⟨q, List.mem_cons_of_mem e hcall, List.mem_cons_of_mem e hfound⟩

structure SameSlot (x y : ExitWait.Proc) : Prop where
  pid : y.pid = x.pid
  killed : y.killed = x.killed
  unused : y.state = .unused ↔ x.state = .unused

theorem SameSlot.refl (x : ExitWait.Proc) : SameSlot x x := ⟨rfl, rfl, Iff.rfl⟩

/-- What a step does to slot `i`: nothing that matters here, `freeproc`, or `allocproc`. -/
inductive SlotStep (b : ExitWait.Machine) (p : ℕ) (a : ExitWait.Act) (i : ℕ) (y : ExitWait.Proc) :
    Prop
  | same (h : SameSlot (b.proc i) y) (hi : allocates b p a ≠ some i)
  | freed (h : y = ExitWait.freeproc) (hi : allocates b p a ≠ some i)
  | alloc (hi : allocates b p a = some i) (hs : (b.proc i).state = .unused)
      (h : y = { b.proc i with pid := b.nextpid, state := .used })

theorem SlotStep.of_update {a : ExitWait.Act} {x : ℕ} {y : ExitWait.Proc}
    (ha : ∀ j, allocates b p a ≠ some j) (hp : b'.proc = Function.update b.proc x y)
    (hy : SameSlot (b.proc x) y ∨ y = ExitWait.freeproc) : SlotStep b p a i (b'.proc i) := by
  rw [hp]
  by_cases hi : i = x
  · subst hi
    rw [Function.update_self]
    exact hy.elim (.same · (ha i)) (.freed · (ha i))
  · rw [Function.update_of_ne hi]
    exact .same (.refl _) (ha i)

theorem SlotStep.of_eq {a : ExitWait.Act} (ha : ∀ j, allocates b p a ≠ some j)
    (hp : b'.proc = b.proc) : SlotStep b p a i (b'.proc i) := by
  rw [hp]
  exact .same (.refl _) (ha i)

theorem allocates_eq_some {a : ExitWait.Act} {j : ℕ} (h : allocates b p a = some j) :
    a = .go true ∧ b.thread p = .forkScan j ∧ j < NPROC ∧ (b.proc j).state = .unused := by
  unfold allocates at h
  split at h
  · next hpc =>
    split_ifs at h with hk
    cases h
    exact ⟨rfl, hpc, hk⟩
  · cases h

theorem SameSlot.setState (x : ExitWait.Proc) {st : ProcState} (hx : x.state ≠ .unused)
    (hst : st ≠ .unused) : SameSlot x { x with state := st } :=
  ⟨rfl, rfl, iff_of_false hst hx⟩

theorem slotStep_wakeup {a : ExitWait.Act} {chan : Option ℕ} {j : ℕ}
    (ha : ∀ j, allocates b p a ≠ some j) (hp : b'.proc = (b.wakeupOne p chan j).proc) :
    SlotStep b p a i (b'.proc i) := by
  rw [hp, ExitWait.Machine.wakeupOne_proc]
  split_ifs with hw
  · obtain ⟨rfl, -, hsl, -⟩ := hw
    exact .same (.setState _ (by rw [hsl]; simp) (by simp)) (ha _)
  · exact .same (.refl _) (ha i)

theorem slotStep_forkScan {ok : Bool} {k : ℕ} (hpc : b.thread p = .forkScan k)
    (hs : ExitWait.callStep b p ok (.forkScan k) = some b') :
    SlotStep b p (.go ok) i (b'.proc i) := by
  simp only [ExitWait.callStep] at hs
  split_ifs at hs with hk hu hok <;> cases hs
  · have ha : allocates b p (.go ok) = some k := by
      simp only [hok, allocates, hpc]
      exact if_pos ⟨hk, hu⟩
    show SlotStep b p (.go ok) i (Function.update b.proc k _ i)
    by_cases hi : i = k
    · subst hi
      rw [Function.update_self]
      exact .alloc ha hu rfl
    · rw [Function.update_of_ne hi]
      refine .same (.refl _) ?_
      rw [ha]
      exact fun he => hi (Option.some.inj he).symm
  · refine .of_update (fun j hj => hok ?_) rfl (.inr rfl)
    exact ExitWait.Act.go.inj (allocates_eq_some hj).1
  · refine .of_eq (fun j hj => ?_) rfl
    obtain ⟨-, hpc', -, hj⟩ := allocates_eq_some hj
    cases hpc.symm.trans hpc'
    exact hu hj
  · refine .of_eq (fun j hj => ?_) rfl
    obtain ⟨-, hpc', hj, -⟩ := allocates_eq_some hj
    cases hpc.symm.trans hpc'
    exact hk hj

theorem slotStep_call (ht : ExitWait.Table b) {ok : Bool} (hrun : (b.proc p).state = .running)
    (hs : ExitWait.callStep b p ok (b.thread p) = some b') :
    SlotStep b p (.go ok) i (b'.proc i) := by
  have hno : (∀ k, b.thread p ≠ .forkScan k) → ∀ j, allocates b p (.go ok) ≠ some j :=
    fun hne j hj => hne j (allocates_eq_some hj).2.1
  have hused : ∀ {x : ℕ}, (b.proc x).state = .used → (b.proc x).state ≠ .unused := by
    intro x hx
    rw [hx]
    simp
  have hlive : (b.proc p).state ≠ .unused := by
    rw [hrun]
    simp
  cases hpc : b.thread p with
  | dead | user a0 =>
    rw [hpc] at hs
    cases hs
  | forkScan k => exact slotStep_forkScan hpc (hpc ▸ hs)
  | forkParent np =>
    rw [hpc] at hs
    simp only [ExitWait.callStep] at hs
    split_ifs at hs
    cases hs
    exact .of_update (hno (by simp [hpc])) rfl (.inl ⟨rfl, rfl, Iff.rfl⟩)
  | forkPublish np =>
    rw [hpc] at hs
    cases hs
    have hnp : (b.proc np).state = .used := ht.forked p np (by rw [hpc]; rfl)
    exact .of_update (hno (by simp [hpc])) rfl (.inl (.setState _ (hused hnp) (by simp)))
  | exitLock st =>
    rw [hpc, ExitWait.callStep, ExitWait.Machine.acquireWait] at hs
    split_ifs at hs
    cases hs
    exact .of_eq (hno (by simp [hpc])) rfl
  | exitReparent st k =>
    rw [hpc] at hs
    simp only [ExitWait.callStep] at hs
    split_ifs at hs <;> cases hs
    · exact .of_update (hno (by simp [hpc])) rfl (.inl ⟨rfl, rfl, Iff.rfl⟩)
    · exact .of_eq (hno (by simp [hpc])) rfl
    · exact .of_eq (hno (by simp [hpc])) rfl
  | exitReparentWakeup st k j =>
    rw [hpc] at hs
    simp only [ExitWait.callStep] at hs
    split_ifs at hs <;> cases hs
    · exact slotStep_wakeup (hno (by simp [hpc])) rfl
    · exact .of_eq (hno (by simp [hpc])) rfl
  | exitWakeup st j =>
    rw [hpc] at hs
    simp only [ExitWait.callStep] at hs
    split_ifs at hs <;> cases hs
    · exact slotStep_wakeup (hno (by simp [hpc])) rfl
    · exact .of_eq (hno (by simp [hpc])) rfl
  | exitZombie st =>
    rw [hpc] at hs
    cases hs
    exact .of_update (hno (by simp [hpc])) rfl (.inl ⟨rfl, rfl, iff_of_false (by simp) hlive⟩)
  | waitLock addr =>
    rw [hpc, ExitWait.callStep, ExitWait.Machine.acquireWait] at hs
    split_ifs at hs
    cases hs
    exact .of_eq (hno (by simp [hpc])) rfl
  | waitScan addr k kids =>
    rw [hpc] at hs
    simp only [ExitWait.callStep] at hs
    split_ifs at hs <;> cases hs
    · exact .of_eq (hno (by simp [hpc])) rfl
    · exact .of_update (hno (by simp [hpc])) rfl (.inr rfl)
    · exact .of_eq (hno (by simp [hpc])) rfl
    · exact .of_eq (hno (by simp [hpc])) rfl
    · exact .of_eq (hno (by simp [hpc])) rfl
    · exact .of_update (hno (by simp [hpc])) rfl (.inl ⟨rfl, rfl, iff_of_false (by simp) hlive⟩)
  | waitResume addr =>
    rw [hpc] at hs
    cases hs
    exact .of_update (hno (by simp [hpc])) rfl (.inl ⟨rfl, rfl, Iff.rfl⟩)

theorem slotStep (ht : ExitWait.Table b) {a : ExitWait.Act} (ha : a ≠ .kill)
    (hs : ExitWait.step b p a = some b') : SlotStep b p a i (b'.proc i) := by
  have hno : (∀ ok, a ≠ .go ok) → ∀ j, allocates b p a ≠ some j :=
    fun hne j hj => hne true (allocates_eq_some hj).1
  cases a with
  | go ok =>
    simp only [ExitWait.step] at hs
    split_ifs at hs with hrun
    exact slotStep_call ht hrun hs
  | fork | exit _ | wait _ =>
    simp only [ExitWait.step] at hs
    split_ifs at hs
    cases hs
    exact .of_eq (hno (by simp)) rfl
  | run =>
    simp only [ExitWait.step] at hs
    split_ifs at hs with hr
    cases hs
    exact .of_update (hno (by simp)) rfl (.inl (.setState _ (by rw [hr]; simp) (by simp)))
  | yield =>
    simp only [ExitWait.step] at hs
    split_ifs at hs with hr
    cases hs
    exact .of_update (hno (by simp)) rfl (.inl (.setState _ (by rw [hr.1]; simp) (by simp)))
  | kill => exact absurd rfl ha

/-! ### Runs -/

/-- A `kill` in progress was called after each slot with its pid was allocated. -/
def Pending (m : Machine) : Prop :=
  ∀ q, q < NPROC → ∀ pid j i, m.call q = some (pid, j) → (m.base.proc i).state ≠ .unused →
    (m.base.proc i).pid = pid → .call q pid ∈ since i m.history

structure Inv (m : Machine) : Prop where
  base : ExitWait.Inv m.base
  unused : ∀ i, (m.base.proc i).state = .unused →
    (m.base.proc i).pid = 0 ∧ (m.base.proc i).killed = false
  pending : Pending m
  marked : ∀ i, (m.base.proc i).killed = true → Blamed i (m.base.proc i).pid m.history
  exits : ∀ i pid older, .exitKilled i pid :: older <:+ m.history → Blamed i pid older

theorem inv_start : Inv start := by
  refine ⟨ExitWait.inv_start, fun i hi => ?_, fun q _ pid j i hc => ?_, fun i hi => ?_,
    fun i pid older ho => ?_⟩
  · by_cases h0 : i = ExitWait.init
    · simp [start, ExitWait.start, h0] at hi
    · simp [start, ExitWait.start, h0, ExitWait.freeproc]
  · cases hc
  · by_cases h0 : i = ExitWait.init <;>
      simp [start, ExitWait.start, h0, ExitWait.freeproc] at hi
  · simp [start] at ho

theorem Pending.record (h : Pending m) {e : Event} (ha : ∀ i pid, e ≠ .alloc i pid) :
    Pending (m.record e) := by
  intro q hq pid j i hc hu hpid
  show Event.call q pid ∈ since i (e :: m.history)
  rw [since_cons (ha i)]
  exact List.mem_cons_of_mem e (h q hq pid j i hc hu hpid)

/-- An event that neither allocates a slot nor ends a process. -/
theorem Inv.record (h : Inv m) {e : Event} (ha : ∀ i pid, e ≠ .alloc i pid)
    (he : ∀ i pid, e = .exitKilled i pid → Blamed i pid m.history) : Inv (m.record e) := by
  refine ⟨h.base, h.unused, h.pending.record ha, fun i hi => (h.marked i hi).cons (ha i),
    fun i pid older ho => ?_⟩
  rcases List.suffix_cons_iff.1 ho with heq | hsuf
  · cases heq
    exact he i pid rfl
  · exact h.exits i pid older hsuf

theorem Inv.setCall (h : Inv m) {c : Option (ℤ × ℕ)}
    (hc : ∀ pid j, c = some (pid, j) → ∃ j', m.call p = some (pid, j')) : Inv (m.setCall p c) := by
  refine ⟨h.base, h.unused, fun q hq pid j i hcall hu hpid => ?_, h.marked, h.exits⟩
  replace hcall : Function.update m.call p c q = some (pid, j) := hcall
  by_cases hqp : q = p
  · subst hqp
    rw [Function.update_self] at hcall
    obtain ⟨j', hj'⟩ := hc pid j hcall
    exact h.pending q hq pid j' i hj' hu hpid
  · rw [Function.update_of_ne hqp] at hcall
    exact h.pending q hq pid j i hcall hu hpid

theorem Inv.call (h : Inv m) (pid : ℤ) :
    Inv ((m.setCall p (some (pid, 0))).record (.call p pid)) := by
  have hother := (h.setCall (p := p) (c := none) (by simp)).record
    (e := .call p pid) (by simp) (by simp)
  refine ⟨hother.base, hother.unused, fun q hq pid' j i hcall hu hpid => ?_, hother.marked,
    hother.exits⟩
  replace hcall : Function.update m.call p (some (pid, 0)) q = some (pid', j) := hcall
  by_cases hqp : q = p
  · subst hqp
    rw [Function.update_self] at hcall
    cases hcall
    show Event.call q pid ∈ since i (.call q pid :: m.history)
    rw [since_cons (by simp)]
    exact List.mem_cons_self
  · refine hother.pending q hq pid' j i ?_ hu hpid
    show Function.update m.call p none q = _
    rw [Function.update_of_ne hqp] at hcall ⊢
    exact hcall

/-- The slots and the `kill`s in progress after a step of the machine below. -/
theorem Inv.baseStep_pending (h : Inv m) {a : ExitWait.Act} {b : ExitWait.Machine}
    (hsane : Sane m p (.base a)) (hslot : ∀ i, SlotStep m.base p a i (b.proc i))
    {q : ℕ} (hq : q < NPROC) {j : ℕ} (hc : m.call q = some (pid, j))
    (hu : (b.proc i).state ≠ .unused) (hpid : (b.proc i).pid = pid) :
    allocates m.base p a ≠ some i ∧ .call q pid ∈ since i m.history := by
  cases hslot i with
  | same hx hne =>
    refine ⟨hne, h.pending q hq pid j i hc (fun hu' => hu (hx.unused.2 hu')) ?_⟩
    rw [← hx.pid, hpid]
  | freed hx _ =>
    rw [hx] at hu
    exact absurd rfl hu
  | alloc hal _ hx =>
    rw [hx] at hpid
    refine absurd ?_ (hsane (by rw [hal]; rfl) q hq)
    rw [hc]
    exact congrArg some hpid.symm

theorem Inv.baseStep (h : Inv m) {a : ExitWait.Act} (ha : a ≠ .kill)
    (hsane : Sane m p (.base a)) (hs : m.baseStep p a = some m') : Inv m' := by
  unfold Machine.baseStep at hs
  obtain ⟨b, hb, rfl⟩ := Option.map_eq_some_iff.1 hs
  have hbase := h.base.step hb
  have hslot : ∀ i, SlotStep m.base p a i (b.proc i) := fun i => slotStep h.base.table ha hb
  have hpending : ∀ q, q < NPROC → ∀ pid j i, m.call q = some (pid, j) →
      (b.proc i).state ≠ .unused → (b.proc i).pid = pid →
      allocates m.base p a ≠ some i ∧ .call q pid ∈ since i m.history :=
    fun q hq pid j i hc hu hpid => h.baseStep_pending hsane hslot hq hc hu hpid
  have hunused : ∀ i, (b.proc i).state = .unused →
      (b.proc i).pid = 0 ∧ (b.proc i).killed = false := by
    intro i hi
    cases hslot i with
    | same hx _ =>
      rw [hx.pid, hx.killed]
      exact h.unused i (hx.unused.1 hi)
    | freed hx _ => exact ⟨by rw [hx]; rfl, by rw [hx]; rfl⟩
    | alloc _ _ hx =>
      rw [hx] at hi
      cases hi
  have hmarked : ∀ i, (b.proc i).killed = true → allocates m.base p a ≠ some i ∧
      Blamed i (b.proc i).pid m.history := by
    intro i hi
    cases hslot i with
    | same hx hne =>
      rw [hx.pid]
      exact ⟨hne, h.marked i (hx.killed ▸ hi)⟩
    | freed hx _ =>
      rw [hx] at hi
      cases hi
    | alloc _ hu hx =>
      rw [hx] at hi
      have := (h.unused i hu).2
      rw [show (m.base.proc i).killed = true from hi] at this
      cases this
  cases hal : allocates m.base p a with
  | none =>
    exact ⟨hbase, hunused, fun q hq pid j i hc hu hpid => (hpending q hq pid j i hc hu hpid).2,
      fun i hi => (hmarked i hi).2, h.exits⟩
  | some k =>
    have hne : ∀ {i}, allocates m.base p a ≠ some i → ∀ pid, Event.alloc k (b.proc k).pid ≠
        .alloc i pid := by
      intro i hi pid he
      rw [hal, (Event.alloc.inj he).1] at hi
      exact hi rfl
    refine ⟨hbase, hunused, fun q hq pid j i hc hu hpid => ?_, fun i hi => ?_,
      fun i pid older ho => ?_⟩
    · obtain ⟨hi, hcall⟩ := hpending q hq pid j i hc hu hpid
      show Event.call q pid ∈ since i (.alloc k (b.proc k).pid :: m.history)
      rw [since_cons (hne hi)]
      exact List.mem_cons_of_mem _ hcall
    · obtain ⟨hi, hbl⟩ := hmarked i hi
      exact hbl.cons (hne hi)
    · rcases List.suffix_cons_iff.1 ho with heq | hsuf
      · cases heq
      · exact h.exits i pid older hsuf

theorem Inv.mark (h : Inv m) {e : Event} (hi : (m.base.proc i).state ≠ .unused)
    (he : e = .fault i ∨ ∃ q, e = .found q i (m.base.proc i).pid ∧
      .call q (m.base.proc i).pid ∈ since i m.history) (hs : m.mark i = some m') :
    Inv (m'.record e) := by
  unfold Machine.mark at hs
  obtain ⟨b, hb, rfl⟩ := Option.map_eq_some_iff.1 hs
  have hbase := h.base.step hb
  simp only [ExitWait.step, Option.some.injEq] at hb
  have hother : ∀ j, j ≠ i → b.proc j = m.base.proc j := by
    intro j hj
    rw [← hb]
    exact Function.update_of_ne hj _ _
  have hself : (b.proc i).pid = (m.base.proc i).pid ∧ (b.proc i).state ≠ .unused := by
    rw [← hb]
    simp only [ExitWait.Machine.setProc, Function.update_self]
    split_ifs
    · exact ⟨rfl, by simp⟩
    · exact ⟨rfl, hi⟩
  have hne : ∀ j pid, e ≠ .alloc j pid := by
    rintro j pid rfl
    rcases he with he | ⟨q, he, -⟩ <;> cases he
  have hmem : e ∈ since i (e :: m.history) := by
    rw [since_cons (hne i)]
    exact List.mem_cons_self
  have hpending : Pending { m with base := b } := by
    intro q hq pid k j hc hu hpid
    by_cases hji : j = i
    · subst hji
      exact h.pending q hq pid k j hc hi (hself.1 ▸ hpid)
    · rw [hother j hji] at hu hpid
      exact h.pending q hq pid k j hc hu hpid
  refine ⟨hbase, fun j hj => ?_, hpending.record hne, fun j hj => ?_, fun j pid older ho => ?_⟩
  · have hji : j ≠ i := by
      rintro rfl
      exact hself.2 hj
    have hj' : (b.proc j).state = .unused := hj
    show (b.proc j).pid = 0 ∧ (b.proc j).killed = false
    rw [hother j hji] at hj' ⊢
    exact h.unused j hj'
  · show Blamed j (b.proc j).pid (e :: m.history)
    by_cases hji : j = i
    · subst hji
      rw [hself.1]
      rcases he with rfl | ⟨q, rfl, hcall⟩
      · exact .inl hmem
      · refine .inr ⟨q, ?_, hmem⟩
        rw [since_cons (hne j)]
        exact List.mem_cons_of_mem _ hcall
    · have hj' : (b.proc j).killed = true := hj
      rw [hother j hji] at hj' ⊢
      exact (h.marked j hj').cons (hne j)
  · rcases List.suffix_cons_iff.1 ho with heq | hsuf
    · cases heq
      rcases he with he | ⟨q, he, -⟩ <;> cases he
    · exact h.exits j pid older hsuf

/-- The slot that a section of `kill` finds is in use exactly when the section is `Sane`. -/
theorem Inv.sane_iff (h : Inv m) (hc : m.call p = some (pid, i)) (hi : i < NPROC)
    (hpid : (m.base.proc i).pid = pid) :
    (m.base.proc i).state ≠ .unused ↔ Sane m p .scan := by
  constructor
  · intro hu j _ hj
    rw [hc] at hj
    cases hj
    exact hu
  · intro hs hu
    have h0 := (h.unused i hu).1
    rw [hpid] at h0
    exact hs i hi (by rw [hc, h0]) hu

theorem baseStep_of_step {a : ExitWait.Act} (hs : step m p (.base a) = some m') :
    a ≠ .kill ∧ m.baseStep p a = some m' := by
  simp only [step] at hs
  split_ifs at hs with hk
  exact ⟨hk, hs⟩

theorem Inv.step (h : Inv m) {a : Act} (hsane : Sane m p a) (hs : Kill.step m p a = some m') :
    Inv m' := by
  cases a with
  | base a =>
    obtain ⟨hk, hs⟩ := baseStep_of_step hs
    exact h.baseStep hk hsane hs
  | kill pid =>
    simp only [Kill.step] at hs
    split_ifs at hs
    cases hs
    exact h.call pid
  | scan =>
    simp only [Kill.step] at hs
    split at hs
    · cases hs
    · next pid i hc =>
      split_ifs at hs with hrun hi hpid
      · obtain ⟨m₁, hm, rfl⟩ := Option.map_eq_some_iff.1 hs
        have hu := (h.sane_iff hc hi hpid).2 hsane
        have hp : p < NPROC := by
          by_contra hp
          rw [h.base.table.small p (by omega)] at hrun
          exact hrun (by simp)
        have hcall := h.pending p hp pid i i hc hu hpid
        have hinv := h.mark (e := .found p i pid) hu
          (.inr ⟨p, by rw [hpid], hpid.symm ▸ hcall⟩) hm
        exact hinv.setCall (p := p) (c := none) (by simp)
      · cases hs
        refine h.setCall fun pid' j he => ⟨i, ?_⟩
        cases he
        exact hc
      · cases hs
        exact (h.setCall (by simp)).record (by simp) (by simp)
  | trap =>
    simp only [Kill.step] at hs
    split_ifs at hs with hk
    obtain ⟨m₁, hm, rfl⟩ := Option.map_eq_some_iff.1 hs
    have hblamed := h.marked p hk.2
    have hinv := h.baseStep (by simp) (fun hal => by simp [allocates] at hal) hm
    refine hinv.record (by simp) ?_
    intro i pid he
    cases he
    unfold Machine.baseStep at hm
    obtain ⟨b, hb, rfl⟩ := Option.map_eq_some_iff.1 hm
    exact hblamed
  | fault =>
    simp only [Kill.step] at hs
    split_ifs at hs with hu
    obtain ⟨m₁, hm, rfl⟩ := Option.map_eq_some_iff.1 hs
    have hrun : (m.base.proc p).state = .running := by
      simp only [Machine.atUser, decide_eq_true_eq] at hu
      exact hu.1
    exact h.mark (by rw [hrun]; simp) (.inl rfl) hm

theorem SanelyReachable.inv (h : SanelyReachable m) : Inv m :=
  Transition.Reachable.invariant (fun _ hs => hs ▸ inv_start)
    (fun _ _ _ hi hs => hi.step hs.1 hs.2) h

/-- In a sane run: a `kill` that returns 0 found a process in use and changed no other, a
new process is not marked, and a process that exits because it is marked had a fault of its
own, or `kill` was called with its pid after it got that pid and found it. A `kill` that
returns 0 finds an unused slot exactly when it is a `kill(0)` that comes to one. -/
theorem kill_affects_live (h : SanelyReachable m) :
    (∀ q pid i, m.call q = some (pid, i) → i < NPROC → (m.base.proc i).pid = pid →
      ((m.base.proc i).state ≠ .unused ↔ Sane m q .scan) ∧
      ∀ m', step m q .scan = some m' → ∀ j, j ≠ i → m'.base.proc j = m.base.proc j) ∧
    (∀ p ok i m', allocates m.base p (.go ok) = some i → step m p (.base (.go ok)) = some m' →
      (m'.base.proc i).killed = false) ∧
    ∀ i pid older, .exitKilled i pid :: older <:+ m.history →
      .fault i ∈ since i older ∨
        ∃ q, .call q pid ∈ since i older ∧ .found q i pid ∈ since i older := by
  have hinv := h.inv
  refine ⟨fun q pid i hc hi hpid => ⟨hinv.sane_iff hc hi hpid, fun m' hs j hj => ?_⟩,
    fun p ok i m' hal hs => ?_, hinv.exits⟩
  · simp only [step, hc] at hs
    split_ifs at hs
    · obtain ⟨m₁, hm, rfl⟩ := Option.map_eq_some_iff.1 hs
      unfold Machine.mark at hm
      obtain ⟨b, hb, rfl⟩ := Option.map_eq_some_iff.1 hm
      simp only [ExitWait.step, Option.some.injEq] at hb
      rw [← hb]
      exact Function.update_of_ne hj _ _
  · have hs := (baseStep_of_step hs).2
    unfold Machine.baseStep at hs
    obtain ⟨b, hb, rfl⟩ := Option.map_eq_some_iff.1 hs
    simp only [hal]
    show (b.proc i).killed = false
    cases slotStep (i := i) hinv.base.table (by simp) hb with
    | same _ hne => exact absurd hal hne
    | freed _ hne => exact absurd hal hne
    | alloc _ hu hx =>
      rw [hx]
      exact (hinv.unused i hu).2

end

instance (m : Machine) (p : ℕ) (a : Act) : Decidable (Sane m p a) :=
  match a with
  | .scan => inferInstanceAs (Decidable (∀ i, i < NPROC → m.call p = some (0, i) →
      (m.base.proc i).state ≠ .unused))
  | .base a => inferInstanceAs (Decidable ((allocates m.base p a).isSome = true →
      ∀ q, q < NPROC → (m.call q).map Prod.fst ≠ some m.base.nextpid))
  | .kill _ | .trap | .fault => .isTrue trivial

def execSanely (es : List (ℕ × Act)) : Option Machine :=
  Transition.exec (fun m e => if Sane m e.1 e.2 then step m e.1 e.2 else none) start es

theorem sanelyReachable_exec {m : Machine} {es : List (ℕ × Act)} (h : execSanely es = some m) :
    SanelyReachable m := by
  refine Transition.Reachable.exec (fun _ _ _ hs => ?_) (.start start rfl) h
  split_ifs at hs with hsane
  exact ⟨hsane, hs⟩

/-- `init` forks a process, which gets pid 2, and kills it. -/
def forkAndKill : List (ℕ × Act) :=
  [(0, .base .run), (0, .base .fork), (0, .base (.go true)), (0, .base (.go true)),
    (0, .base (.go true)), (0, .base (.go true)), (0, .kill 2), (0, .scan), (0, .scan),
    (1, .base .run), (1, .trap)]

theorem kill_affects_live_forkAndKill : ∃ m older, SanelyReachable m ∧
    m.history = .exitKilled 1 2 :: older ∧
      (.fault 1 ∈ since 1 older ∨
        ∃ q, .call q 2 ∈ since 1 older ∧ .found q 1 2 ∈ since 1 older) := by
  have hsome : ((execSanely forkAndKill).map Machine.history).isSome = true ∧
      ((execSanely forkAndKill).map Machine.history).getD [] =
        [.exitKilled 1 2, .found 0 1 2, .call 0 2, .alloc 1 2] := by decide
  obtain ⟨m, hm⟩ := Option.isSome_iff_exists.1 (by simpa using hsome.1)
  have hh := hsome.2
  rw [hm] at hh
  have hr := sanelyReachable_exec hm
  have hist : m.history = .exitKilled 1 2 :: [.found 0 1 2, .call 0 2, .alloc 1 2] := hh
  exact ⟨m, _, hr, hist, (kill_affects_live hr).2.2 1 2 _ (hist ▸ List.suffix_rfl)⟩

def exec (es : List (ℕ × Act)) : Option Machine :=
  Transition.exec (fun m e => step m e.1 e.2) start es

theorem reachable_exec {m : Machine} {es : List (ℕ × Act)} (h : exec es = some m) : Reachable m :=
  Transition.Reachable.exec (fun _ _ _ hs => hs) (.start start rfl) h

/-- `init` calls `kill(0)` and then forks a process, which gets pid 2. -/
def killZero : List (ℕ × Act) :=
  [(0, .base .run), (0, .kill 0), (0, .scan), (0, .scan), (0, .base .fork),
    (0, .base (.go true)), (0, .base (.go true)), (0, .base (.go true)), (0, .base (.go true)),
    (1, .base .run), (1, .trap)]

/-- `kill(0)` returns 0 for slot 1 before that slot has ever been allocated, and the
process that gets the slot later exits although nobody killed it and it had no fault. -/
theorem kill_zero_marks_unused_slot : ∃ m older, Reachable m ∧
    m.history = .exitKilled 1 2 :: older ∧ .found 0 1 0 ∈ older ∧ (∀ q, .call q 2 ∉ older) ∧
      .fault 1 ∉ older ∧ .alloc 1 2 ∈ older ∧ .found 0 1 0 ∉ since 1 older := by
  have hsome : ((exec killZero).map Machine.history).isSome = true ∧
      ((exec killZero).map Machine.history).getD [] =
        [.exitKilled 1 2, .alloc 1 2, .found 0 1 0, .call 0 0] := by decide
  obtain ⟨m, hm⟩ := Option.isSome_iff_exists.1 (by simpa using hsome.1)
  have hh := hsome.2
  rw [hm] at hh
  refine ⟨m, [.alloc 1 2, .found 0 1 0, .call 0 0], reachable_exec hm, hh, by decide, ?_,
    by decide, by decide, by decide⟩
  intro q
  simp

end Kill
end Xv6
