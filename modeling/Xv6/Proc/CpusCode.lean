import Xv6.Proc.Cpus

/-!
What the code of the threads and of the scheduler loop does to locks and processes, by
the place it is at: the locks held there, the state of the own process, what is known of
the state of another one, and what a step can change.
-/

namespace Xv6
namespace Cpus

open ExitWait (Proc freeproc init)

def Wakeup.holds : Wakeup → Lock → Prop
  | scan _, _ => False
  | test i, l | unlock i, l => l = .proc i

/-- The locks the thread of process `p` holds at a place of the code. -/
def Pc.holds (p : ℕ) : Pc → Lock → Prop
  | idle, _ | dead, _ | driverAcquire _, _ | sleepReacquire _, _ | killScan _ _, _
  | forkScan _, _ | forkWaitLock _, _ | forkLock _, _ | exitLock _, _ | waitLock, _
  | yieldAcquire _, _ => False
  | driver k, l => l = .sleep (.driver k)
  | sleepAcquire _ lk, l => l = .sleep lk
  | sleepRelease _ lk, l => l = .sleep lk ∨ l = .proc p
  | forkret, l | sleepChan _ _, l | sleepState _, l | sleepSched _, l | sleepResume _, l
  | sleepUnlock _, l | yieldState _, l | yieldSched _, l | yieldRelease _, l
  | exitSched, l => l = .proc p
  | wakeup _ w ret, l => w.holds l ∨ ret.holds p l
  | killTest _ i, l | killUnlock _ i, l | killReturn i, l | forkTest i, l | forkSkip i, l
  | forkFound i, l | forkCopy i, l | forkFree i, l | forkFail i, l | forkRelease i, l
  | forkPublish i, l | forkUnlock i, l => l = .proc i
  | forkParent _, l | forkWaitUnlock _, l | exitReparent _ _, l | exitAcquire _, l
  | waitScan _ _, l | waitUnlock, l => l = .sleep .wait
  | exitState _, l | exitRelease, l => l = .sleep .wait ∨ l = .proc p
  | waitTest i, l | waitSkip i, l | waitFree i, l | waitUnlockChild i, l =>
      l = .sleep .wait ∨ l = .proc i

def Cpu.holds (thread : ℕ → Pc) : Cpu → Lock → Prop
  | scan _, _ => False
  | test i, l | assign i, l | swtch i, l | clear i, l | unlock i, l => l = .proc i
  | run p, l => (thread p).holds p l
  | wakeup _ w _, l => w.holds l

def Machine.Holds (m : Machine) (c : ℕ) (l : Lock) : Prop := (m.cpu c).holds m.thread l

/-- The process a CPU is about to run, runs, or has just run. -/
def Cpu.claims : Cpu → Option ℕ
  | assign i | swtch i | run i | clear i => some i
  | _ => none

def Cpu.current : Cpu → Option ℕ
  | swtch i | run i | clear i => some i
  | _ => none

/-- The state of a process whose thread is on a CPU. -/
def Pc.stateOn : Pc → ProcState
  | sleepSched _ => .sleeping
  | yieldSched _ => .runnable
  | exitRelease | exitSched => .zombie
  | _ => .running

def Pc.resumable : Pc → Bool
  | forkret | sleepResume _ | yieldRelease _ => true
  | _ => false

def Pc.callsWakeup : Pc → Bool
  | driver _ | exitReparent _ _ | exitAcquire _ => true
  | pc => pc.interruptible

/-- What is entered on top of the code returns to where it can be entered. -/
def Pc.ok : Pc → Bool
  | yieldAcquire b | yieldState b | yieldSched b | yieldRelease b => b.interruptible
  | wakeup _ _ ret => ret.callsWakeup
  | _ => true

/-- What a thread knows of the state of another process: `fork` of the slot it has
found, and `wait` of the child it frees. -/
def Pc.expects : Pc → Option (ℕ × ProcState)
  | forkFound np => some (np, .unused)
  | forkCopy np | forkFree np | forkRelease np | forkWaitLock np | forkParent np
  | forkWaitUnlock np | forkLock np | forkPublish np => some (np, .used)
  | waitFree i => some (i, .zombie)
  | yieldAcquire b | yieldState b | yieldSched b | yieldRelease b => b.expects
  | wakeup _ _ ret => ret.expects
  | _ => none

structure Rest (s : ProcState) (pc : Pc) : Prop where
  state : s ≠ .running
  thread : pc.resumable = true ∨ pc = .dead
  dead : pc = .dead → s = .zombie ∨ s = .unused

def Effect.holds (e : Effect) (h : Lock → Prop) : Lock → Prop :=
  match e with
  | acquire k => fun l => l = k ∨ h l
  | release k => fun l => l ≠ k ∧ h l
  | _ => h

def Effect.proc (e : Effect) (m : Machine) (i : ℕ) : Proc :=
  match e with
  | setProc j x | spawn j x => if i = j then x else m.proc i
  | _ => m.proc i

def Effect.thread (e : Effect) (m : Machine) (i : ℕ) : Pc :=
  match e with
  | spawn j _ => if i = j then .forkret else m.thread i
  | _ => m.thread i

def Effect.current (e : Effect) (old : Option ℕ) : Option ℕ :=
  match e with
  | setCurrent x => x
  | _ => old

section
variable {m m' : Machine} {c p : ℕ} {pc pc' : Pc} {e : Effect} {a : Choice}

theorem Pc.not_holds_of_interruptible (h : pc.interruptible = true) (l : Lock) :
    ¬ pc.holds p l := by
  cases pc <;> first | exact id | exact Bool.noConfusion h

theorem Pc.stateOn_of_interruptible (h : pc.interruptible = true) : pc.stateOn = .running := by
  cases pc <;> first | rfl | exact Bool.noConfusion h

theorem Pc.ok_of_interruptible (h : pc.interruptible = true) : pc.ok = true := by
  cases pc <;> first | rfl | exact Bool.noConfusion h

theorem Pc.callsWakeup_of_interruptible (h : pc.interruptible = true) :
    pc.callsWakeup = true := by
  cases pc <;> first | rfl | exact Bool.noConfusion h

theorem Pc.callsWakeup_cases (h : pc.callsWakeup = true) :
    pc.interruptible = true ∨ (∃ k, pc = .driver k) ∨ (∃ st i, pc = .exitReparent st i) ∨
      ∃ st, pc = .exitAcquire st := by
  cases pc <;> first
    | exact .inl h
    | exact .inr (.inl ⟨_, rfl⟩)
    | exact .inr (.inr (.inl ⟨_, _, rfl⟩))
    | exact .inr (.inr (.inr ⟨_, rfl⟩))

theorem Pc.not_holds_of_callsWakeup (h : pc.callsWakeup = true) (i : ℕ) :
    ¬ pc.holds p (.proc i) := by
  obtain h | ⟨_, rfl⟩ | ⟨_, _, rfl⟩ | ⟨_, rfl⟩ := callsWakeup_cases h
  · exact not_holds_of_interruptible h _
  all_goals exact nofun

theorem Pc.stateOn_of_callsWakeup (h : pc.callsWakeup = true) : pc.stateOn = .running := by
  obtain h | ⟨_, rfl⟩ | ⟨_, _, rfl⟩ | ⟨_, rfl⟩ := callsWakeup_cases h
  · exact stateOn_of_interruptible h
  all_goals rfl

theorem Pc.ok_of_callsWakeup (h : pc.callsWakeup = true) : pc.ok = true := by
  obtain h | ⟨_, rfl⟩ | ⟨_, _, rfl⟩ | ⟨_, rfl⟩ := callsWakeup_cases h
  · exact ok_of_interruptible h
  all_goals rfl

theorem Pc.expects_of_callsWakeup (h : pc.callsWakeup = true) :
    pc.expects = none ∨ ∃ np, pc.expects = some (np, .used) := by
  obtain h | ⟨_, rfl⟩ | ⟨_, _, rfl⟩ | ⟨_, rfl⟩ := callsWakeup_cases h
  · cases pc <;> first | exact .inl rfl | exact .inr ⟨_, rfl⟩ | exact Bool.noConfusion h
  all_goals exact .inl rfl

/-- A thread that counts on the state of a process other than the slot of its own `fork`
holds the lock of that process, and is on a CPU. -/
theorem Pc.expects_locked (hok : pc.ok = true) {i : ℕ} {s : ProcState}
    (h : pc.expects = some (i, s)) (hs : s ≠ .used) :
    pc.holds p (.proc i) ∧ pc.resumable = false ∧ pc ≠ .dead := by
  have back : ∀ b : Pc, b.callsWakeup = true → b.expects ≠ some (i, s) := by
    intro b hb he
    obtain hb | ⟨np, hb⟩ := expects_of_callsWakeup hb
    · rw [hb] at he
      cases he
    · rw [hb] at he
      cases he
      exact hs rfl
  cases pc with
  | yieldAcquire b | yieldState b | yieldSched b | yieldRelease b =>
    exact absurd h (back b (Pc.callsWakeup_of_interruptible hok))
  | wakeup chan w ret => exact absurd h (back ret hok)
  | forkFound np =>
    cases h
    exact ⟨rfl, rfl, nofun⟩
  | waitFree j =>
    cases h
    exact ⟨.inr rfl, rfl, nofun⟩
  | forkCopy np | forkFree np | forkRelease np | forkWaitLock np | forkParent np
  | forkWaitUnlock np | forkLock np | forkPublish np =>
    cases h
    exact absurd rfl hs
  | _ => exact absurd h.symm (Option.some_ne_none _)

theorem Pc.expects_state {i : ℕ} {s : ProcState} (h : pc.expects = some (i, s)) :
    s = .unused ∨ s = .used ∨ s = .zombie := by
  induction pc with
  | yieldAcquire b ih | yieldState b ih | yieldSched b ih | yieldRelease b ih | wakeup _ _ b ih =>
    exact ih h
  | forkFound np =>
    cases h
    exact .inl rfl
  | forkCopy np | forkFree np | forkRelease np | forkWaitLock np | forkParent np
  | forkWaitUnlock np | forkLock np | forkPublish np =>
    cases h
    exact .inr (.inl rfl)
  | waitFree j =>
    cases h
    exact .inr (.inr rfl)
  | _ => exact absurd h.symm (Option.some_ne_none _)

theorem Pc.holds_of_stateOn (h : pc.stateOn ≠ .running) : pc.holds p (.proc p) := by
  cases pc <;> first | exact absurd rfl h | exact rfl | exact .inr rfl

theorem Pc.holds_of_resumable (h : pc.resumable = true) (l : Lock) :
    pc.holds p l ↔ l = .proc p := by
  cases pc <;> first | exact Iff.rfl | exact Bool.noConfusion h

/-- What holds of the code at every place, of interrupts and of calls holds of whatever a
thread does. -/
theorem choose_cases {P : Pc → Effect → Pc → Prop}
    (go : ∀ pc b, pc.ok = true → P pc (threadCode m p b pc).1 (threadCode m p b pc).2)
    (timer : ∀ pc, pc.interruptible = true → P pc .skip (.yieldAcquire pc))
    (device : ∀ pc chan, pc.interruptible = true → P pc .skip (.wakeup chan (.scan 0) pc))
    (call : ∀ (k : Call) pc pc', k.entry p pc = some pc' → P pc .skip pc')
    (hok : pc.ok = true) (h : choose m p pc a = some (e, pc')) : P pc e pc' := by
  cases a with
  | go b =>
    simp only [choose, Option.some.injEq] at h
    have := go pc b hok
    rwa [h] at this
  | timer =>
    simp only [choose] at h
    split_ifs at h with hi
    cases h
    exact timer pc hi
  | device chan =>
    simp only [choose] at h
    split_ifs at h with hi
    cases h
    exact device pc _ hi
  | call k =>
    simp only [choose, Option.map_eq_some_iff, Prod.mk.injEq] at h
    obtain ⟨pc₁, hk, rfl, rfl⟩ := h
    exact call k pc pc₁ hk

theorem Call.entry_spec {k : Call} (h : k.entry p pc = some pc') :
    (∀ l, pc'.holds p l ↔ pc.holds p l) ∧ pc'.ok = true ∧ pc'.stateOn = .running ∧
      pc.stateOn = .running ∧ pc'.expects = none ∧ pc' ≠ .dead := by
  unfold Call.entry at h
  split at h <;> (try split_ifs at h) <;> cases h <;>
    simp [Pc.holds, Pc.ok, Pc.stateOn, Pc.expects, Pc.callsWakeup, Wakeup.holds]

/-- The lock operations of the code fit the locks its places are said to hold. -/
theorem choose_holds (hok : pc.ok = true) (h : choose m p pc a = some (e, pc')) (l : Lock)
    (he : ∀ q, e ≠ .swtch q) : pc'.holds p l ↔ e.holds (pc.holds p) l := by
  refine choose_cases (P := fun pc e pc' => (∀ q, e ≠ .swtch q) →
    (pc'.holds p l ↔ e.holds (pc.holds p) l)) ?_ ?_ ?_ ?_ hok h he
  · intro pc b hok he
    cases pc with
    | yieldRelease back =>
      refine iff_of_false (Pc.not_holds_of_interruptible hok l) ?_
      rintro ⟨hne, hl⟩
      exact hne hl
    | wakeup chan w ret =>
      have hret := Pc.not_holds_of_callsWakeup (p := p) hok
      cases w <;> simp only [threadCode, wakeupCode] <;> (try split_ifs) <;>
        simp only [Option.elim, Pc.holds, Wakeup.holds, Effect.holds] <;> grind
    | sleepReacquire lk => cases lk <;> simp [threadCode, SleepLock.caller, Pc.holds, Effect.holds]
    | _ =>
      simp only [threadCode] at he ⊢
      (try split_ifs) <;> simp only [Pc.holds, Effect.holds, Wakeup.holds] <;> grind
  · exact fun pc hi _ => iff_of_false id (Pc.not_holds_of_interruptible hi l)
  · intro pc chan hi _
    simp [Pc.holds, Wakeup.holds, Effect.holds]
  · exact fun k pc pc' hk _ => (Call.entry_spec hk).1 l

theorem choose_ok (hok : pc.ok = true) (h : choose m p pc a = some (e, pc')) :
    pc'.ok = true := by
  refine choose_cases (P := fun _ _ pc' => pc'.ok = true) ?_ ?_ ?_ ?_ hok h
  · intro pc b hok
    cases pc with
    | wakeup chan w ret =>
      cases w <;> simp only [threadCode, wakeupCode] <;> (try split_ifs) <;>
        first | exact hok | exact Pc.ok_of_callsWakeup hok
    | sleepReacquire lk => cases lk <;> rfl
    | _ =>
      simp only [threadCode]
      (try split_ifs) <;> first | exact hok | rfl | exact Pc.ok_of_interruptible hok
  · exact fun pc hi => hi
  · exact fun pc chan hi => Pc.callsWakeup_of_interruptible hi
  · exact fun k pc pc' hk => (Call.entry_spec hk).2.1

theorem wakeupCode_change (me chan : Option ℕ) (w : Wakeup) (i : ℕ) :
    let e := (wakeupCode m me chan w).1
    e.thread m i = m.thread i ∧ ((e.proc m i).state = (m.proc i).state ∨
      w.holds (.proc i) ∧ (m.proc i).state = .sleeping ∧ (e.proc m i).state = .runnable) := by
  cases w <;> simp only [wakeupCode] <;> (try split_ifs) <;>
    grind [Effect.proc, Effect.thread, Wakeup.holds]

/-- How a thread changes the state of a process: its own, one it wakes, or one whose state
it knows. -/
inductive Changes (m : Machine) (p i : ℕ) (pc pc' : Pc) (e : Effect) : Prop
  | own (hi : i = p) (hs : pc.stateOn = .running)
  | wake (ht : e.thread m i = m.thread i) (hs : (m.proc i).state = .sleeping)
      (hs' : (e.proc m i).state = .runnable)
  | known {s : ProcState} (hs : pc.expects = some (i, s)) (hnext : pc'.expects ≠ some (i, s))
      (hs' : (e.proc m i).state ≠ .running)
      (hlive : (e.proc m i).state = .unused ∨ e.thread m i = .forkret ∨
        s = .used ∧ e.thread m i = m.thread i)

theorem choose_changes (hok : pc.ok = true) (h : choose m p pc a = some (e, pc')) (i : ℕ) :
    e.thread m i = m.thread i ∧ (e.proc m i).state = (m.proc i).state ∨
      pc.holds p (.proc i) ∧ Changes m p i pc pc' e := by
  refine choose_cases (P := fun pc e pc' =>
    e.thread m i = m.thread i ∧ (e.proc m i).state = (m.proc i).state ∨
      pc.holds p (.proc i) ∧ Changes m p i pc pc' e) ?_ ?_ ?_ ?_ hok h
  · intro pc b hok
    cases pc with
    | wakeup chan w ret =>
      obtain ⟨ht, hs | ⟨hl, hs, hs'⟩⟩ := wakeupCode_change (m := m) (some p) chan w i
      · exact .inl ⟨ht, hs⟩
      · exact .inr ⟨.inl hl, .wake ht hs hs'⟩
    | forkFound np =>
      by_cases hi : i = np
      · subst hi
        exact .inr ⟨rfl, .known rfl (by simp [threadCode, Pc.expects])
          (by simp [threadCode, Effect.proc])
          (.inr (.inl (by simp [threadCode, Effect.thread])))⟩
      · exact .inl (by simp [threadCode, Effect.proc, Effect.thread, hi])
    | forkFree np =>
      by_cases hi : i = np
      · subst hi
        exact .inr ⟨rfl, .known rfl (by simp [threadCode, Pc.expects])
          (by simp [threadCode, Effect.proc, freeproc])
          (.inl (by simp [threadCode, Effect.proc, freeproc]))⟩
      · exact .inl (by simp [threadCode, Effect.proc, Effect.thread, hi])
    | forkPublish np =>
      by_cases hi : i = np
      · subst hi
        exact .inr ⟨rfl, .known rfl (by simp [threadCode, Pc.expects])
          (by simp [threadCode, Effect.proc])
          (.inr (.inr ⟨rfl, rfl⟩))⟩
      · exact .inl (by simp [threadCode, Effect.proc, Effect.thread, hi])
    | waitFree j =>
      by_cases hi : i = j
      · subst hi
        exact .inr ⟨.inr rfl, .known rfl (by simp [threadCode, Pc.expects])
          (by simp [threadCode, Effect.proc, freeproc])
          (.inl (by simp [threadCode, Effect.proc, freeproc]))⟩
      · exact .inl (by simp [threadCode, Effect.proc, Effect.thread, hi])
    | sleepState lk | yieldState back =>
      by_cases hi : i = p
      · exact .inr ⟨hi ▸ rfl, .own hi rfl⟩
      · exact .inl (by simp [threadCode, Effect.proc, Effect.thread, hi])
    | exitState status =>
      by_cases hi : i = p
      · exact .inr ⟨hi ▸ .inr rfl, .own hi rfl⟩
      · exact .inl (by simp [threadCode, Effect.proc, Effect.thread, hi])
    | killTest pid j =>
      by_cases hi : i = j
      · subst hi
        by_cases hs : (m.proc i).pid = pid ∧ (m.proc i).state = .sleeping
        · exact .inr ⟨rfl, .wake (by simp [threadCode, Effect.thread, hs]) hs.2
            (by simp [threadCode, Effect.proc, hs])⟩
        · left
          simp only [threadCode]
          split_ifs with hpid hsl
          · exact absurd ⟨hpid, hsl⟩ hs
          · simp [Effect.proc, Effect.thread]
          · simp [Effect.proc, Effect.thread]
      · left
        simp only [threadCode]
        split_ifs <;> simp [Effect.proc, Effect.thread, hi]
    | _ =>
      left
      simp only [threadCode]
      (try split_ifs) <;> grind [Effect.proc, Effect.thread]
  · exact fun _ _ => .inl ⟨rfl, rfl⟩
  · exact fun _ _ _ => .inl ⟨rfl, rfl⟩
  · exact fun _ _ _ _ => .inl ⟨rfl, rfl⟩

theorem choose_stateOn (hok : pc.ok = true) (h : choose m p pc a = some (e, pc'))
    (he : ∀ q, e ≠ .swtch q) (hexp : ∀ i s, pc.expects = some (i, s) → (m.proc i).state = s)
    (hd : pc ≠ .dead) (hs : (m.proc p).state = pc.stateOn) :
    (e.proc m p).state = pc'.stateOn ∧ pc' ≠ .dead := by
  refine choose_cases (P := fun pc e pc' => (∀ q, e ≠ .swtch q) →
      (∀ i s, pc.expects = some (i, s) → (m.proc i).state = s) → pc ≠ .dead →
      (m.proc p).state = pc.stateOn → (e.proc m p).state = pc'.stateOn ∧ pc' ≠ .dead)
    ?_ ?_ ?_ ?_ hok h he hexp hd hs
  · intro pc b hok he hexp hd hs
    cases pc with
    | wakeup chan w ret =>
      have hret := Pc.stateOn_of_callsWakeup hok
      have hdead : ret ≠ .dead := by
        rintro rfl
        cases hok
      cases w <;> simp only [threadCode, wakeupCode] <;> (try split_ifs) <;>
        grind [Effect.proc, Pc.stateOn]
    | sleepReacquire lk => cases lk <;> exact ⟨hs, nofun⟩
    | yieldRelease back =>
      refine ⟨hs.trans (Pc.stateOn_of_interruptible hok).symm, ?_⟩
      rintro rfl
      cases hok
    | forkFound np | forkFree np | forkPublish np | waitFree np =>
      have hne : p ≠ np := by
        rintro rfl
        have := (hexp p _ rfl).symm.trans hs
        cases this
      simp only [threadCode, Effect.proc, if_neg hne]
      exact ⟨hs, nofun⟩
    | _ =>
      simp only [threadCode] at he ⊢
      grind [Effect.proc, Pc.stateOn]
  · intro pc hi _ _ _ hs
    exact ⟨hs.trans (Pc.stateOn_of_interruptible hi), nofun⟩
  · intro pc chan hi _ _ _ hs
    exact ⟨hs.trans (Pc.stateOn_of_interruptible hi), nofun⟩
  · intro k pc pc' hk _ _ _ hs
    obtain ⟨-, -, hs', hs₀, -, hd⟩ := Call.entry_spec hk
    exact ⟨hs.trans (hs₀.trans hs'.symm), hd⟩

/-- `sched` is called with only the process's own lock held and its state changed. -/
theorem choose_swtch {q : ℕ} (hok : pc.ok = true) (h : choose m p pc a = some (.swtch q, pc')) :
    q = p ∧ (∀ l, pc.holds p l ↔ l = .proc p) ∧ Rest pc.stateOn pc' := by
  refine choose_cases (P := fun pc e pc' => e = .swtch q → q = p ∧
    (∀ l, pc.holds p l ↔ l = .proc p) ∧ Rest pc.stateOn pc') ?_ ?_ ?_ ?_ hok h rfl
  · intro pc b hok he
    cases pc with
    | sleepSched lk | yieldSched back =>
      cases he
      exact ⟨rfl, fun l => Iff.rfl, by simp [Pc.stateOn], .inl rfl, nofun⟩
    | exitSched =>
      cases he
      exact ⟨rfl, fun l => Iff.rfl, by simp [Pc.stateOn], .inr rfl, fun _ => .inl rfl⟩
    | wakeup chan w ret =>
      cases w <;> simp only [threadCode, wakeupCode] at he <;> grind
    | _ =>
      simp only [threadCode] at he
      grind
  · exact fun _ _ => nofun
  · exact fun _ _ _ => nofun
  · exact fun _ _ _ _ => nofun

theorem choose_current (hok : pc.ok = true) (h : choose m p pc a = some (e, pc'))
    (x : Option ℕ) : e.current x = x := by
  refine choose_cases (P := fun _ e _ => e.current x = x) ?_ (fun _ _ => rfl) (fun _ _ _ => rfl)
    (fun _ _ _ _ => rfl) hok h
  intro pc b _
  cases pc with
  | wakeup chan w ret => cases w <;> simp only [threadCode, wakeupCode] <;> grind [Effect.current]
  | _ =>
    simp only [threadCode]
    grind [Effect.current]

/-- How a thread comes to know the state of a process: it has read it, or set it. -/
theorem choose_expects {i : ℕ} {s : ProcState} (hok : pc.ok = true)
    (h : choose m p pc a = some (e, pc')) (hexp : pc'.expects = some (i, s)) :
    pc.expects = some (i, s) ∨ e = .skip ∧ (m.proc i).state = s ∧ s ≠ .used ∨
      pc.expects = some (i, .unused) ∧ (e.proc m i).state = s ∧ e.thread m i = .forkret := by
  refine choose_cases (P := fun pc e pc' => pc'.expects = some (i, s) →
    pc.expects = some (i, s) ∨ e = .skip ∧ (m.proc i).state = s ∧ s ≠ .used ∨
      pc.expects = some (i, .unused) ∧ (e.proc m i).state = s ∧ e.thread m i = .forkret)
    ?_ ?_ ?_ ?_ hok h hexp
  · intro pc b hok hexp
    cases pc with
    | wakeup chan w ret =>
      left
      cases w <;> simp only [threadCode, wakeupCode] at hexp <;> (try split_ifs at hexp) <;>
        exact hexp
    | sleepReacquire lk => cases lk <;> cases hexp
    | _ =>
      simp only [threadCode] at hexp ⊢
      grind [Effect.proc, Effect.thread, Pc.expects]
  · exact fun pc _ hexp => .inl hexp
  · exact fun pc _ _ hexp => .inl hexp
  · intro k pc pc' hk hexp
    obtain ⟨-, -, -, -, hnone, -⟩ := Call.entry_spec hk
    rw [hnone] at hexp
    cases hexp

theorem Effect.thread_expects {q : ℕ} {x : ℕ × ProcState} (h : (e.thread m q).expects = some x) :
    (m.thread q).expects = some x := by
  unfold Effect.thread at h
  cases e <;> simp only at h <;> (try exact h)
  split_ifs at h
  · cases h
  · exact h

section
variable {x y : Cpu}

theorem chooseScheduler_cases {P : Cpu → Effect → Cpu → Prop}
    (go : P x (schedulerCode m x).1 (schedulerCode m x).2)
    (device : ∀ i chan, x = .scan i → P x .skip (.wakeup chan (.scan 0) i))
    (h : chooseScheduler m x a = some (e, y)) : P x e y := by
  unfold chooseScheduler at h
  split at h
  · rw [Option.some.injEq] at h
    rwa [h] at go
  · split at h
    · cases h
      exact device _ _ rfl
    · cases h
  · cases h

theorem chooseScheduler_changes (h : chooseScheduler m x a = some (e, y)) (i : ℕ) :
    e.thread m i = m.thread i ∧ ((e.proc m i).state = (m.proc i).state ∨
      x.holds m.thread (.proc i) ∧ x.claims = none ∧
        ((m.proc i).state = .sleeping ∧ (e.proc m i).state = .runnable ∨
          (m.proc i).state = .runnable ∧ (e.proc m i).state = .running ∧ y = .assign i)) := by
  refine chooseScheduler_cases (P := fun x e y => e.thread m i = m.thread i ∧
    ((e.proc m i).state = (m.proc i).state ∨ x.holds m.thread (.proc i) ∧ x.claims = none ∧
        ((m.proc i).state = .sleeping ∧ (e.proc m i).state = .runnable ∨
          (m.proc i).state = .runnable ∧ (e.proc m i).state = .running ∧ y = .assign i))) ?_ ?_ h
  · cases x with
    | wakeup chan w j =>
      obtain ⟨ht, hs⟩ := wakeupCode_change (m := m) none chan w i
      exact ⟨ht, hs.imp_right fun ⟨hl, hs⟩ => ⟨hl, rfl, .inl hs⟩⟩
    | _ =>
      simp only [schedulerCode]
      grind [Effect.proc, Effect.thread, Cpu.holds, Cpu.claims]
  · exact fun _ _ _ => ⟨rfl, .inl rfl⟩

theorem chooseScheduler_holds (hx : ∀ i, x ≠ .swtch i) (h : chooseScheduler m x a = some (e, y))
    (l : Lock) : y.holds m.thread l ↔ e.holds (x.holds m.thread) l := by
  refine chooseScheduler_cases (P := fun x e y => y.holds m.thread l ↔
    e.holds (x.holds m.thread) l) ?_ ?_ h
  · cases x with
    | wakeup chan w j =>
      cases w <;> simp only [schedulerCode, wakeupCode] <;> (try split_ifs) <;>
        simp only [Option.elim, Cpu.holds, Wakeup.holds, Effect.holds] <;> grind
    | swtch i => exact absurd rfl (hx i)
    | _ =>
      simp only [schedulerCode]
      (try split_ifs) <;> simp only [Cpu.holds, Effect.holds] <;> grind
  · rintro i chan rfl
    exact Iff.rfl

theorem chooseScheduler_current (h : chooseScheduler m x a = some (e, y)) :
    e.current x.current = y.current := by
  refine chooseScheduler_cases (P := fun x e y => e.current x.current = y.current) ?_ ?_ h
  · cases x with
    | wakeup chan w j =>
      cases w <;> simp only [schedulerCode, wakeupCode] <;> (try split_ifs) <;> rfl
    | _ =>
      simp only [schedulerCode]
      (try split_ifs) <;> rfl
  · rintro i chan rfl
    rfl

theorem chooseScheduler_claims (hx : ∀ q, x ≠ .run q) (h : chooseScheduler m x a = some (e, y)) :
    (x.claims = none ∧ y.claims = none) ∨
      (∃ i, x = .test i ∧ y = .assign i ∧ (m.proc i).state = .runnable ∧
        (e.proc m i).state = .running) ∨
      (∃ i, x = .assign i ∧ y = .swtch i) ∨ (∃ i, x = .swtch i ∧ y = .run i) ∨
      ∃ i, x = .clear i ∧ y = .unlock i := by
  refine chooseScheduler_cases (P := fun x e y => (x.claims = none ∧ y.claims = none) ∨
      (∃ i, x = .test i ∧ y = .assign i ∧ (m.proc i).state = .runnable ∧
        (e.proc m i).state = .running) ∨
      (∃ i, x = .assign i ∧ y = .swtch i) ∨ (∃ i, x = .swtch i ∧ y = .run i) ∨
      ∃ i, x = .clear i ∧ y = .unlock i) ?_ ?_ h
  · cases x with
    | run q => exact absurd rfl (hx q)
    | wakeup chan w j =>
      left
      cases w <;> simp only [schedulerCode, wakeupCode] <;> (try split_ifs) <;> exact ⟨rfl, rfl⟩
    | _ =>
      simp only [schedulerCode]
      grind [Cpu.claims, Effect.proc]
  · rintro i chan rfl
    exact .inl ⟨rfl, rfl⟩

end

end

end Cpus
end Xv6
