import Xv6.Lib.Transition
import Xv6.Proc.Basic

/-!
`push_off` and `pop_off` of `spinlock.c` under the scheduler of `proc.c`, on any number of CPUs.
The kernel thread of a process makes any calls of `push_off`, `pop_off`, `acquire` and `release`,
and of `sched`; interrupt handlers are part of the thread they interrupt. What is asked of a
thread is that it holds what it releases, that it turns interrupts on or off by other means
only where no `push_off` is unmatched, that it changes the state of a process under `p->lock`,
and that a process which has given up `RUNNING` does not release its `p->lock` but calls
`sched`. A spinning `acquire` is not a step, and neither is a panic other than those of `pop_off`.

For each thread the machine keeps whether interrupts were on before each of its unmatched calls of
`push_off`, the outermost one last.
-/

namespace Xv6
namespace PushOff

/-- The fields of `struct cpu`, and the interrupt enable bit of `sstatus`. -/
structure Cpu where
  noff : ℕ
  intena : Bool
  sie : Bool
  deriving DecidableEq, Repr

namespace Cpu

def pushOff (x : Cpu) : Cpu := ⟨x.noff + 1, if x.noff = 0 then x.sie else x.intena, false⟩

/-- `none` is a panic. -/
def popOff (x : Cpu) : Option Cpu :=
  if x.sie = true then none
  else if x.noff < 1 then none
  else some ⟨x.noff - 1, x.intena, if x.noff - 1 = 0 ∧ x.intena = true then true else x.sie⟩

end Cpu

inductive Lock where
  | proc (p : ℕ) | other (k : ℕ)
  deriving DecidableEq, Repr

inductive Thread where
  | proc (p : ℕ) | sched (c : ℕ)
  deriving DecidableEq, Repr

inductive Phase where
  | ready
  /-- In the loop of `acquire`. -/
  | acquiring (l : Lock)
  /-- In `release`, before `pop_off`. -/
  | releasing
  /-- A new process, which starts at `forkret`. -/
  | fresh
  /-- In `sched`, behind `swtch`. -/
  | resuming
  deriving DecidableEq, Repr

structure Frame where
  pushes : List Bool
  locks : List Lock
  /-- Calls of `push_off` that are not in `acquire`. -/
  bare : ℕ
  phase : Phase
  deriving DecidableEq, Repr

inductive Place where
  | top | scan (i : ℕ) | test (i : ℕ) | unlock (i : ℕ)
  deriving DecidableEq, Repr

structure Machine where
  cpu : ℕ → Cpu
  /-- `c->proc`. -/
  run : ℕ → Option ℕ
  place : ℕ → Place
  /-- The CPU that holds a lock. -/
  lock : Lock → Option ℕ
  state : ℕ → ProcState
  /-- The variable `intena` of `sched`. -/
  saved : ℕ → Bool
  frame : Thread → Frame
  /-- Whether `pop_off` has panicked. -/
  panicked : Bool

/-- A process whose context is set up by `allocproc`: the lock it will hold when it starts is
that of the scheduler. -/
def Frame.new (p : ℕ) : Frame := ⟨[false], [.proc p], 0, .fresh⟩

namespace Machine
variable (m : Machine)

def current (c : ℕ) : Thread :=
  match m.run c with
  | some p => .proc p
  | none => .sched c

def setFrame (t : Thread) (f : Frame) : Machine := { m with frame := Function.update m.frame t f }

def goto (c : ℕ) (x : Place) : Machine := { m with place := Function.update m.place c x }

/-- Thread `t` on CPU `c` changes registers and locks. -/
def move (c : ℕ) (t : Thread) (x : Cpu) (f : Frame) (lock : Lock → Option ℕ) : Machine :=
  { m with
    cpu := Function.update m.cpu c x
    frame := Function.update m.frame t f
    lock := lock }

def push (c : ℕ) (t : Thread) (f : Frame) : Machine :=
  m.move c t (m.cpu c).pushOff { f with pushes := (m.cpu c).sie :: f.pushes } m.lock

def pop (c : ℕ) (t : Thread) (f : Frame) : Machine :=
  match (m.cpu c).popOff with
  | none => { m with panicked := true }
  | some x => m.move c t x { f with pushes := f.pushes.tail } m.lock

end Machine

inductive Op where
  | pushOff | popOff
  | acquire (l : Lock) | spin
  | release (l : Lock) | released
  /-- `intr_on`, `intr_off`, a trap or the return from one. -/
  | intr (on : Bool)
  | setState (p : ℕ) (st : ProcState)
  /-- `allocproc` sets up the context of a process. -/
  | context (p : ℕ)
  | sched | resume
  /-- The next statement of `scheduler`. -/
  | loop
  deriving DecidableEq, Repr

namespace Machine
variable (m : Machine)

/-- The calls of any kernel thread `t` on CPU `c`. -/
def kernel (c : ℕ) (t : Thread) : Op → Option Machine
  | .pushOff =>
      if (m.frame t).phase = .ready then
        some (m.push c t { m.frame t with bare := (m.frame t).bare + 1 })
      else none
  | .popOff =>
      if (m.frame t).phase = .ready ∧ 0 < (m.frame t).bare then
        some (m.pop c t { m.frame t with bare := (m.frame t).bare - 1 })
      else none
  | .acquire l =>
      if (m.frame t).phase = .ready ∧ m.lock l ≠ some c then
        some (m.push c t { m.frame t with phase := .acquiring l })
      else none
  | .spin =>
      match (m.frame t).phase with
      | .acquiring l =>
          if m.lock l = none then
            some (m.move c t (m.cpu c)
              { m.frame t with locks := l :: (m.frame t).locks, phase := .ready }
              (Function.update m.lock l (some c)))
          else none
      | _ => none
  | .release l =>
      if (m.frame t).phase = .ready ∧ m.lock l = some c then
        some (m.move c t (m.cpu c)
          { m.frame t with locks := (m.frame t).locks.erase l, phase := .releasing }
          (Function.update m.lock l none))
      else none
  | .released =>
      if (m.frame t).phase = .releasing then some (m.pop c t { m.frame t with phase := .ready })
      else none
  | .intr on =>
      if (m.frame t).phase = .ready ∧ (m.frame t).pushes = [] then
        some (m.move c t { m.cpu c with sie := on } (m.frame t) m.lock)
      else none
  | .setState p st =>
      if (m.frame t).phase = .ready ∧ m.lock (.proc p) = some c ∧ st ≠ .running ∧
          (t = .proc p ∨ m.state p ≠ .running) then
        some { m with state := Function.update m.state p st }
      else none
  | .context p =>
      if (m.frame t).phase = .ready ∧ m.lock (.proc p) = some c ∧ t ≠ .proc p ∧
          m.state p ≠ .running then
        some (m.setFrame (.proc p) (.new p))
      else none
  | .sched | .resume | .loop => none

/-- `sched` saves `intena` and switches to the scheduler, which goes on from the `acquire` of
process `p`. -/
def leave (c p : ℕ) : Machine :=
  { m with
    run := Function.update m.run c none
    saved := Function.update m.saved p (m.cpu c).intena
    frame := Function.update
      (Function.update m.frame (.proc p) { m.frame (.proc p) with phase := .resuming })
      (.sched c) { m.frame (.sched c) with pushes := (m.frame (.proc p)).pushes } }

/-- `swtch` to the thread of process `p`. A new one goes on from the scheduler's `acquire`. -/
def swtch (c p : ℕ) : Machine :=
  { m with
    run := Function.update m.run c (some p)
    state := Function.update m.state p .running
    place := Function.update m.place c (.unlock p)
    frame := Function.update m.frame (.proc p)
      (if (m.frame (.proc p)).phase = .fresh then
        { m.frame (.proc p) with pushes := (m.frame (.sched c)).pushes, phase := .ready }
      else m.frame (.proc p)) }

def thread (c p : ℕ) : Op → Option Machine
  | .release l =>
      if l = .proc p ∧ m.state p ≠ .running then none else m.kernel c (.proc p) (.release l)
  | .sched =>
      if (m.frame (.proc p)).phase = .ready ∧ m.lock (.proc p) = some c ∧ (m.cpu c).noff = 1 ∧
          m.state p ≠ .running ∧ (m.cpu c).sie = false then
        some (m.leave c p)
      else none
  | .resume =>
      if (m.frame (.proc p)).phase = .resuming then
        some (m.move c (.proc p) { m.cpu c with intena := m.saved p }
          { m.frame (.proc p) with phase := .ready } m.lock)
      else none
  | op => m.kernel c (.proc p) op

/-- The scheduler of CPU `c`; it is interrupted between two processes only. -/
def scheduler (c : ℕ) : Op → Option Machine
  | .loop =>
      if (m.frame (.sched c)).phase = .ready then
        match m.place c with
        | .top => some ((m.move c (.sched c) { m.cpu c with sie := true } (m.frame (.sched c))
            m.lock).goto c (.scan 0))
        | .scan i =>
            if (m.frame (.sched c)).pushes ≠ [] then none
            else if i < NPROC then
              (m.kernel c (.sched c) (.acquire (.proc i))).map (·.goto c (.test i))
            else some (m.goto c .top)
        | .test i =>
            if m.state i = .runnable then some (m.swtch c i) else some (m.goto c (.unlock i))
        | .unlock i => (m.kernel c (.sched c) (.release (.proc i))).map (·.goto c (.scan (i + 1)))
      else none
  | .spin => m.kernel c (.sched c) .spin
  | .released => m.kernel c (.sched c) .released
  | op =>
      match m.place c with
      | .scan _ => m.kernel c (.sched c) op
      | _ => none

end Machine

def step (m : Machine) (e : ℕ × Op) : Option Machine :=
  match m.run e.1 with
  | some p => m.thread e.1 p e.2
  | none => m.scheduler e.1 e.2

structure Initial (m : Machine) : Prop where
  noff : ∀ c, (m.cpu c).noff = 0
  run : ∀ c, m.run c = none
  place : ∀ c, m.place c = .top
  lock : ∀ l, m.lock l = none
  state : ∀ p, m.state p ≠ .running
  sched : ∀ c, m.frame (.sched c) = ⟨[], [], 0, .ready⟩
  proc : ∀ p, m.frame (.proc p) = .new p
  panicked : m.panicked = false

def Reachable (m : Machine) : Prop :=
  Transition.Reachable Initial (fun m e m' => step m e = some m') m

end PushOff
end Xv6
