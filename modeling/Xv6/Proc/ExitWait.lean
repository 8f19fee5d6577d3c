import Xv6.Lib.Transition
import Xv6.Proc.Basic

/-!
`fork`, `exit` and `wait` of `proc.c`, one critical section at a time. A step of a
process is a section under a `p->lock`, or the part of a section under `wait_lock`
between two of these. A section that takes `p->lock`, releases `wait_lock` and ends in
`sched` is one step. The scheduler, timer interrupts and `kill` interleave with all of
it. What the processes do besides (their memory and their files) is left out; whether
an allocation or a copy to user memory succeeds is left open.
-/

namespace Xv6
namespace ExitWait

/-- `initproc`, the first slot `allocproc` finds. -/
def init : ℕ := 0

structure Proc where
  state : ProcState
  chan : Option ℕ
  killed : Bool
  pid : ℤ
  xstate : ℤ
  parent : Option ℕ
  deriving DecidableEq, Repr

/-- The slot after `freeproc`. -/
def freeproc : Proc := ⟨.unused, none, false, 0, 0, none⟩

inductive Event where
  /-- Process `q` made the process in slot `i` runnable. -/
  | fork (q i : ℕ) (pid : ℤ)
  | exit (i : ℕ) (status : ℤ)
  /-- `wait` by process `q` returned this pid and copied out this status. -/
  | reap (q i : ℕ) (pid status : ℤ)
  /-- `wait` by process `q` could not copy out the status of the process in slot `i`. -/
  | copyoutFailed (q i : ℕ)
  /-- `freeproc` was called on a process in this state. -/
  | free (i : ℕ) (state : ProcState)
  deriving DecidableEq, Repr

inductive Pc where
  /-- The slot has no process that runs. -/
  | dead
  /-- In user space, with the result of its last call. -/
  | user (a0 : ℤ)
  | forkScan (i : ℕ) | forkParent (np : ℕ) | forkPublish (np : ℕ)
  | exitLock (status : ℤ) | exitReparent (status : ℤ) (i : ℕ)
  | exitReparentWakeup (status : ℤ) (i j : ℕ) | exitWakeup (status : ℤ) (j : ℕ)
  | exitZombie (status : ℤ)
  | waitLock (addr : ℕ) | waitScan (addr i : ℕ) (havekids : Bool) | waitResume (addr : ℕ)
  deriving DecidableEq, Repr

structure Machine where
  proc : ℕ → Proc
  thread : ℕ → Pc
  /-- The process that holds `wait_lock`. -/
  waitLock : Option ℕ
  nextpid : ℤ
  /-- The events so far, latest first. -/
  history : List Event

namespace Machine
variable (m : Machine)

def goto (p : ℕ) (pc : Pc) : Machine := { m with thread := Function.update m.thread p pc }

def setProc (i : ℕ) (x : Proc) : Machine := { m with proc := Function.update m.proc i x }

def record (e : Event) : Machine := { m with history := e :: m.history }

def wakeupOne (p : ℕ) (chan : Option ℕ) (j : ℕ) : Machine :=
  if j ≠ p ∧ (m.proc j).state = .sleeping ∧ (m.proc j).chan = chan then
    m.setProc j { m.proc j with state := .runnable }
  else m

/-- `acquire(&wait_lock)` by `p`, which spins while the lock is held. -/
def acquireWait (p : ℕ) (pc : Pc) : Option Machine :=
  if m.waitLock = none then some ({ m with waitLock := some p }.goto p pc) else none

def releaseWait : Machine := { m with waitLock := none }

end Machine

/-- The next step of a call that process `p` is in. When `ok` is false, an allocation of
`fork` fails and the new slot is freed before its lock is released, or a copy to the
user address of `wait` fails. -/
def callStep (m : Machine) (p : ℕ) (ok : Bool) : Pc → Option Machine
  | .dead | .user _ => none
  | .forkScan i =>
      if i < NPROC then
        if (m.proc i).state = .unused then
          let np := { m.proc i with pid := m.nextpid, state := .used }
          let m := { m with nextpid := Int.bmod (m.nextpid + 1) (2 ^ 32) }
          if ok then some ((m.setProc i np).goto p (.forkParent i))
          else some (((m.setProc i freeproc).record (.free i np.state)).goto p (.user (-1)))
        else some (m.goto p (.forkScan (i + 1)))
      else some (m.goto p (.user (-1)))
  | .forkParent np =>
      if m.waitLock = none then
        some ((m.setProc np { m.proc np with parent := some p }).goto p (.forkPublish np))
      else none
  | .forkPublish np =>
      let pid := (m.proc np).pid
      let m := (m.setProc np { m.proc np with state := .runnable }).goto np (.user 0)
      some ((m.record (.fork p np pid)).goto p (.user pid))
  | .exitLock st => m.acquireWait p (.exitReparent st 0)
  | .exitReparent st i =>
      if i < NPROC then
        if (m.proc i).parent = some p then
          some ((m.setProc i { m.proc i with parent := some init }).goto p
            (.exitReparentWakeup st i 0))
        else some (m.goto p (.exitReparent st (i + 1)))
      else some (m.goto p (.exitWakeup st 0))
  | .exitReparentWakeup st i j =>
      if j < NPROC then
        some ((m.wakeupOne p (some init) j).goto p (.exitReparentWakeup st i (j + 1)))
      else some (m.goto p (.exitReparent st (i + 1)))
  | .exitWakeup st j =>
      if j < NPROC then
        some ((m.wakeupOne p (m.proc p).parent j).goto p (.exitWakeup st (j + 1)))
      else some (m.goto p (.exitZombie st))
  | .exitZombie st =>
      let m := m.setProc p { m.proc p with xstate := st, state := .zombie }
      some ((m.releaseWait.record (.exit p st)).goto p .dead)
  | .waitLock addr => m.acquireWait p (.waitScan addr 0 false)
  | .waitScan addr i havekids =>
      if i < NPROC then
        if (m.proc i).parent = some p then
          if (m.proc i).state = .zombie then
            if addr ≠ 0 ∧ ok = false then
              some ((m.releaseWait.record (.copyoutFailed p i)).goto p (.user (-1)))
            else
              let np := m.proc i
              let m := (m.setProc i freeproc).record (.free i np.state)
              some ((m.releaseWait.record (.reap p i np.pid np.xstate)).goto p (.user np.pid))
          else some (m.goto p (.waitScan addr (i + 1) true))
        else some (m.goto p (.waitScan addr (i + 1) havekids))
      else if havekids = false ∨ (m.proc p).killed = true then
        some (m.releaseWait.goto p (.user (-1)))
      else
        let m := m.setProc p { m.proc p with chan := some p, state := .sleeping }
        some (m.releaseWait.goto p (.waitResume addr))
  | .waitResume addr =>
      some ((m.setProc p { m.proc p with chan := none }).goto p (.waitLock addr))

/-- Whether the code at this place runs with `wait_lock` held. -/
def Pc.locked : Pc → Bool
  | exitReparent _ _ | exitReparentWakeup _ _ _ | exitWakeup _ _ | exitZombie _
  | waitScan _ _ _ => true
  | _ => false

def Pc.inUser : Pc → Bool
  | user _ => true
  | _ => false

inductive Act where
  | fork | exit (status : ℤ) | wait (addr : ℕ)
  /-- Go on with the call. -/
  | go (ok : Bool)
  /-- `scheduler` picks the process, or a timer interrupt makes it `yield`. -/
  | run | yield
  /-- Somebody kills the process. -/
  | kill
  deriving DecidableEq, Repr

def step (m : Machine) (p : ℕ) : Act → Option Machine
  | .run =>
      if (m.proc p).state = .runnable then
        some (m.setProc p { m.proc p with state := .running })
      else none
  | .yield =>
      if (m.proc p).state = .running ∧ (m.thread p).locked = false then
        some (m.setProc p { m.proc p with state := .runnable })
      else none
  | .kill =>
      let x := { m.proc p with killed := true }
      some (m.setProc p (if x.state = .sleeping then { x with state := .runnable } else x))
  | .fork =>
      if (m.proc p).state = .running ∧ (m.thread p).inUser then some (m.goto p (.forkScan 0))
      else none
  | .exit st =>
      if (m.proc p).state = .running ∧ (m.thread p).inUser ∧ p ≠ init then
        some (m.goto p (.exitLock st))
      else none
  | .wait addr =>
      if (m.proc p).state = .running ∧ (m.thread p).inUser then some (m.goto p (.waitLock addr))
      else none
  | .go ok => if (m.proc p).state = .running then callStep m p ok (m.thread p) else none

/-- After `userinit`: one process, ready to run. -/
def start : Machine where
  proc i := if i = init then ⟨.runnable, none, false, 1, 0, none⟩ else freeproc
  thread i := if i = init then .user 0 else .dead
  waitLock := none
  nextpid := 2
  history := []

def Step (m : Machine) (e : ℕ × Act) (m' : Machine) : Prop := step m e.1 e.2 = some m'

def Reachable (m : Machine) : Prop := Transition.Reachable (· = start) Step m

end ExitWait
end Xv6
