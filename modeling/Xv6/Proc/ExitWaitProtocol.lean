import Xv6.Proc.ExitWaitSafety

/-!
What the exit/wait protocol guarantees in every run: the life cycle of each process, how
often its exit is reported and to whom, that children always have a parent to report to,
and that a parent with a zombie child gets it.
-/

namespace Xv6
namespace ExitWait

/-! ### Exits and reports -/

def Event.isExit (i : ℕ) : Event → Bool
  | exit j _ => j = i
  | _ => false

def Event.isReap (i : ℕ) : Event → Bool
  | reap _ j _ _ => j = i
  | _ => false

def exits (h : List Event) (i : ℕ) : ℕ := h.countP (Event.isExit i)

def reaps (h : List Event) (i : ℕ) : ℕ := h.countP (Event.isReap i)

def Life.isExited : Life → Bool
  | exited _ _ => true
  | _ => false

/-- Every exit has been reported once, except that of a process still to be reaped. -/
theorem Sound.exits_eq {h : List Event} (hs : Sound h) (i : ℕ) :
    exits h i = reaps h i + (life h i).isExited.toNat := by
  induction h with
  | nil =>
    simp only [exits, reaps, life, List.countP_nil]
    split_ifs <;> rfl
  | cons e h ih =>
    unfold exits reaps at ih ⊢
    cases e with
    | fork q j pid =>
      obtain ⟨ha, hs⟩ := hs
      have := ih hs
      by_cases hij : i = j
      · rw [hij, ha] at this
        simpa [Event.isExit, Event.isReap, life, hij, Life.isExited] using this
      · simpa [Event.isExit, Event.isReap, life, hij] using this
    | exit j st =>
      obtain ⟨⟨pid, ha⟩, hs⟩ := hs
      have := ih hs
      by_cases hij : i = j
      · rw [hij, ha] at this
        simp [Event.isExit, Event.isReap, life, hij, ha, this, Life.isExited]
      · have hne : ¬ j = i := fun h => hij h.symm
        simp only [List.countP_cons, Event.isExit, Event.isReap, life, hne, decide_false]
        rw [this]
        cases life h i <;> simp [hij]
    | reap q j pid st =>
      obtain ⟨ha, -, hs⟩ := hs
      have := ih hs
      by_cases hij : i = j
      · rw [hij, ha] at this
        simp [Event.isExit, Event.isReap, life, hij, this, Life.isExited]
      · have hne : ¬ j = i := fun h => hij h.symm
        simpa [Event.isExit, Event.isReap, life, hne, hij] using this
    | copyoutFailed q j =>
      obtain ⟨-, -, hs⟩ := hs
      simpa [Event.isExit, Event.isReap, life] using ih hs
    | free j s =>
      obtain ⟨-, hs⟩ := hs
      simpa [Event.isExit, Event.isReap, life] using ih hs

theorem Proc.isExited_life (x : Proc) : x.life.isExited = decide (x.state = .zombie) := by
  unfold Proc.life
  cases x.state <;> rfl

section
variable {m m' : Machine}

theorem Inv.exits_eq (h : Inv m) (i : ℕ) :
    exits m.history i = reaps m.history i + if (m.proc i).state = .zombie then 1 else 0 := by
  rw [h.logged.sound.exits_eq, h.logged.life, Proc.isExited_life]
  split_ifs with hz <;> simp [hz]

/-- The process in the slot can be seen by `wait` and `scheduler`. -/
def Proc.published (x : Proc) : Prop := x.state ≠ .unused ∧ x.state ≠ .used

theorem Inv.parent_live (h : Inv m) {i : ℕ} (hi : i ≠ init) (hp : (m.proc i).published) :
    ∃ q, (m.proc i).parent = some q ∧ isLive (m.proc q).state = true := by
  cases hq : (m.proc i).parent with
  | none =>
    rcases h.table.orphan i hq with hu | hu | hu
    · exact absurd hu hp.1
    · exact absurd hu hp.2
    · exact absurd hu hi
  | some q => exact ⟨q, rfl, h.table.parent i q hq⟩

/-! ### What `wait` returns -/

theorem Machine.goto_thread (m : Machine) (p : ℕ) (pc : Pc) : (m.goto p pc).thread p = pc := by
  simp [Machine.goto]

inductive WaitReturns (m : Machine) (q : ℕ) (m' : Machine) : ℤ → Prop
  /-- There is nothing to wait for, or the process has been killed. -/
  | none (hP : m'.proc = m.proc) (hh : m'.history = m.history)
      (hz : ∀ i, (m.proc i).parent = some q → (m.proc i).state ≠ .zombie) : WaitReturns m q m' (-1)
  /-- The status of a child cannot be copied out. The child stays. -/
  | failed (i : ℕ) (hz : (m.proc i).state = .zombie) (hi : (m.proc i).parent = some q)
      (hP : m'.proc = m.proc) (hh : m'.history = .copyoutFailed q i :: m.history) :
      WaitReturns m q m' (-1)
  | reaped (i : ℕ) (hz : (m.proc i).state = .zombie) (hi : (m.proc i).parent = some q)
      (hP : m'.proc = Function.update m.proc i freeproc)
      (hh : m'.history = .reap q i (m.proc i).pid (m.proc i).xstate :: .free i .zombie ::
        m.history) : WaitReturns m q m' (m.proc i).pid

theorem Inv.wait_returns (h : Inv m) {q addr k : ℕ} {kids ok : Bool} {a0 : ℤ}
    (hpc : m.thread q = .waitScan addr k kids) (hs : ExitWait.step m q (.go ok) = some m')
    (ha : m'.thread q = .user a0) : WaitReturns m q m' a0 := by
  simp only [ExitWait.step, hpc, ExitWait.callStep] at hs
  split_ifs at hs with hrun hi hpar hz hcopy hnokids <;> cases hs <;> rw [Machine.goto_thread] at ha <;>
    cases ha
  · exact .failed k hz hpar rfl rfl
  · exact .reaped k hz hpar rfl (by rw [← hz]; rfl)
  · refine .none rfl rfl fun z hzq hzz => ?_
    exact h.awake.scanned q addr k kids hpc z
      ((h.table.lt_of_life (by rw [Proc.life, hzz]; simp)).trans_le (not_lt.1 hi)) hzq hzz

/-! ### A parent gets its children -/

/-- Nobody sleeps in `wait` over a zombie child while `wait_lock` is free. -/
theorem Inv.not_asleep (h : Inv m) (hfree : m.waitLock = none) {i q : ℕ}
    (hz : (m.proc i).state = .zombie) (hi : (m.proc i).parent = some q) :
    (m.proc q).state = .runnable ∨ (m.proc q).state = .running := by
  have hlive := h.table.parent i q hi
  have hs : (m.proc q).state ≠ .sleeping := by
    intro hs
    obtain ⟨-, e, he⟩ := h.awake.pending i q hz hi hs
    have hlock : (m.thread e).locked = true := by
      revert he
      cases m.thread e <;> simp [Pc.wakesInit, Pc.locked]
    rw [← h.table.lock, hfree] at hlock
    cases hlock
  revert hlive hs
  cases (m.proc q).state <;> simp [isLive]

/-- The next `n` steps of process `q`, in which nothing fails. -/
def goOn (m : Machine) (q n : ℕ) : Option Machine :=
  Transition.exec (fun m _ => step m q (.go true)) m (List.replicate n ())

theorem goOn_succ (m : Machine) (q n : ℕ) :
    goOn m q (n + 1) = (step m q (.go true)).bind fun m => goOn m q n := rfl

theorem scan_reaps {q addr k : ℕ} {kids : Bool} (hrun : (m.proc q).state = .running)
    (hpc : m.thread q = .waitScan addr k kids) (hk : k < NPROC)
    (hz : (m.proc k).state = .zombie) (hp : (m.proc k).parent = some q) :
    ∃ m', step m q (.go true) = some m' ∧ m'.thread q = .user (m.proc k).pid ∧
      m'.proc = Function.update m.proc k freeproc := by
  rw [step, if_pos hrun, hpc, callStep, if_pos hk, if_pos hp, if_pos hz, if_neg (by simp)]
  exact ⟨_, rfl, Machine.goto_thread _ _ _, rfl⟩

theorem scan_next {q addr k : ℕ} {kids : Bool} (hrun : (m.proc q).state = .running)
    (hpc : m.thread q = .waitScan addr k kids) (hk : k < NPROC)
    (hn : ¬ ((m.proc k).state = .zombie ∧ (m.proc k).parent = some q)) :
    ∃ kids', step m q (.go true) = some (m.goto q (.waitScan addr (k + 1) kids')) := by
  rw [step, if_pos hrun, hpc, callStep, if_pos hk]
  by_cases hp : (m.proc k).parent = some q
  · rw [if_pos hp, if_neg fun hz => hn ⟨hz, hp⟩]
    exact ⟨true, rfl⟩
  · rw [if_neg hp]
    exact ⟨kids, rfl⟩

/-- A scan that has not passed a zombie child ends by returning one. -/
theorem reap_from_scan {q addr k i : ℕ} {kids : Bool} (hrun : (m.proc q).state = .running)
    (hpc : m.thread q = .waitScan addr k kids) (hk : k ≤ i) (hi : i < NPROC)
    (hz : (m.proc i).state = .zombie) (hiq : (m.proc i).parent = some q) :
    ∃ n m' z, goOn m q n = some m' ∧ (m.proc z).state = .zombie ∧
      (m.proc z).parent = some q ∧ m'.thread q = .user (m.proc z).pid ∧
      m'.proc = Function.update m.proc z freeproc := by
  obtain ⟨d, rfl⟩ := Nat.exists_eq_add_of_le hk
  induction d generalizing m k kids with
  | zero =>
    obtain ⟨m', hs, ha, hP⟩ := scan_reaps hrun hpc hi hz hiq
    refine ⟨1, m', k, ?_, hz, hiq, ha, hP⟩
    rw [goOn_succ, hs]
    rfl
  | succ d ih =>
    by_cases hn : (m.proc k).state = .zombie ∧ (m.proc k).parent = some q
    · obtain ⟨m', hs, ha, hP⟩ := scan_reaps hrun hpc (by omega) hn.1 hn.2
      refine ⟨1, m', k, ?_, hn.1, hn.2, ha, hP⟩
      rw [goOn_succ, hs]
      rfl
    · obtain ⟨kids', hs⟩ := scan_next hrun hpc (by omega) hn
      have hd : k + 1 + d = k + (d + 1) := by omega
      obtain ⟨n, m', z, hgo, hend⟩ := ih (m := m.goto q (.waitScan addr (k + 1) kids')) hrun
        (Machine.goto_thread m q _) (by omega) (hd ▸ hi) (hd ▸ hz) (hd ▸ hiq)
      refine ⟨n + 1, m', z, ?_, hend⟩
      rw [goOn_succ, hs]
      exact hgo

theorem Inv.reap_from_wait (h : Inv m) (hfree : m.waitLock = none) {q addr i : ℕ}
    (hrun : (m.proc q).state = .running) (hpc : m.thread q = .waitLock addr)
    (hz : (m.proc i).state = .zombie) (hiq : (m.proc i).parent = some q) :
    ∃ n m' z, goOn m q n = some m' ∧ (m.proc z).state = .zombie ∧
      (m.proc z).parent = some q ∧ m'.thread q = .user (m.proc z).pid ∧
      m'.proc = Function.update m.proc z freeproc := by
  have hs : ExitWait.step m q (.go true) =
      some ({ m with waitLock := some q }.goto q (.waitScan addr 0 false)) := by
    rw [ExitWait.step, if_pos hrun, hpc, ExitWait.callStep, Machine.acquireWait, if_pos hfree]
  have hi : i < NPROC := h.table.lt_of_life (by rw [Proc.life, hz]; simp)
  obtain ⟨n, m', z, hgo, hend⟩ := reap_from_scan
    (m := { m with waitLock := some q }.goto q (.waitScan addr 0 false)) hrun
    (Machine.goto_thread _ q _) (Nat.zero_le i) hi hz hiq
  refine ⟨n + 1, m', z, ?_, hend⟩
  rw [goOn_succ, hs]
  exact hgo

/-! ### Every run -/

/-- In every run, the history is one of life cycles: a process is created once, exits
once, and is reaped once with its own pid and status, by the process that created it or,
when that has exited, by `init`; a slot is freed when its process is a zombie or before
it is published. The table is what the history says, so every exit has been reaped or
its process is a zombie. Published processes have a live parent, which does not sleep
over a zombie child and gets one when it waits. A `wait` that cannot copy out the status
returns `-1` and changes no process. -/
theorem exit_wait_protocol (h : Reachable m) :
    Sound m.history ∧ (∀ i, life m.history i = (m.proc i).life) ∧
    (∀ i, exits m.history i =
      reaps m.history i + if (m.proc i).state = .zombie then 1 else 0) ∧
    (∀ i, i ≠ init → (m.proc i).published →
      ∃ q, (m.proc i).parent = some q ∧ isLive (m.proc q).state = true) ∧
    (∀ q addr k kids ok m' a0, m.thread q = .waitScan addr k kids →
      step m q (.go ok) = some m' → m'.thread q = .user a0 → WaitReturns m q m' a0) ∧
    (m.waitLock = none → ∀ i q, (m.proc i).state = .zombie → (m.proc i).parent = some q →
      ((m.proc q).state = .runnable ∨ (m.proc q).state = .running) ∧
      ∀ addr, m.thread q = .waitLock addr → (m.proc q).state = .running →
        ∃ n m' z, goOn m q n = some m' ∧ (m.proc z).state = .zombie ∧
          (m.proc z).parent = some q ∧ m'.thread q = .user (m.proc z).pid ∧
          m'.proc = Function.update m.proc z freeproc) := by
  have hinv := h.inv
  refine ⟨hinv.logged.sound, hinv.logged.life, hinv.exits_eq, fun i hi hp => hinv.parent_live hi hp,
    fun q addr k kids ok m' a0 hpc hs ha => hinv.wait_returns hpc hs ha, fun hfree i q hz hi => ?_⟩
  exact ⟨hinv.not_asleep hfree hz hi,
    fun addr hpc hrun => hinv.reap_from_wait hfree hrun hpc hz hi⟩

end

def exec (es : List (ℕ × Act)) : Option Machine :=
  Transition.exec (fun m e => step m e.1 e.2) start es

theorem reachable_exec {m : Machine} {es : List (ℕ × Act)} (h : exec es = some m) : Reachable m :=
  Transition.Reachable.exec (fun _ _ _ hs => hs) (.start start rfl) h

/-- `init` forks, the child exits with status 7, and `init` waits for it. -/
def forkExitWait : List (ℕ × Act) :=
  [(0, .run), (0, .fork)] ++ List.replicate 4 (0, .go true) ++ [(1, .run), (1, .exit 7)] ++
    List.replicate 132 (1, .go true) ++ (0, .wait 4096) :: List.replicate 3 (0, .go true)

theorem exit_wait_protocol_forkExitWait :
    ∃ m, exec forkExitWait = some m ∧ m.thread 0 = .user 2 ∧
      m.history = [.reap 0 1 2 7, .free 1 .zombie, .exit 1 7, .fork 0 1 2] ∧ Sound m.history := by
  have hrun : ((exec forkExitWait).any fun m => decide (m.thread 0 = .user 2 ∧
      m.history = [.reap 0 1 2 7, .free 1 .zombie, .exit 1 7, .fork 0 1 2])) = true := by
    decide +kernel
  obtain ⟨m, hm, hend⟩ := (Option.any_eq_true _ _).1 hrun
  obtain ⟨ha, hh⟩ := of_decide_eq_true hend
  exact ⟨m, hm, ha, hh, (exit_wait_protocol (reachable_exec hm)).1⟩

/-- When an allocation of `fork` fails, `freeproc` frees a slot that is `USED`. -/
theorem fork_frees_used : ∃ m, Reachable m ∧ .free 1 .used ∈ m.history := by
  have hrun : ((exec [(0, .run), (0, .fork), (0, .go true), (0, .go false)]).any fun m =>
      decide (.free 1 .used ∈ m.history)) = true := by
    decide +kernel
  obtain ⟨m, hm, hend⟩ := (Option.any_eq_true _ _).1 hrun
  exact ⟨m, reachable_exec hm, of_decide_eq_true hend⟩

end ExitWait
end Xv6
