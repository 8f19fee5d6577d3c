import Xv6.Lib.Transition
import Xv6.Proc.ExitWait

/-!
All of `proc.c` that moves a process from one CPU to the next: the scheduler with the
`c->proc` it keeps, and `yield`, `sleep`, `wakeup`, `kill`, `fork`, `exit` and `wait`, one
lock operation or one store at a time, on any number of CPUs. A CPU runs its scheduler
loop or the kernel thread of a process, and takes interrupts where they are on. A kernel
thread makes calls in any order; a driver that sleeps or wakes does so in a critical
section of its own lock. The locks of interrupt handlers are left out, so the handlers
here can do more than those of the kernel. Whether an allocation or a copy to user memory
succeeds is left open. A spinning `acquire` is not a step, and neither is a panic.
-/

namespace Xv6
namespace Cpus

open ExitWait (Proc freeproc init)

/-- The locks that `sleep` is called with: those of the drivers, and `wait_lock`. -/
inductive SleepLock where
  | driver (k : ℕ) | wait
  deriving DecidableEq, Repr

inductive Lock where
  | sleep (lk : SleepLock)
  | proc (i : ℕ)
  deriving DecidableEq, Repr

inductive Wakeup where
  | scan (i : ℕ) | test (i : ℕ) | unlock (i : ℕ)
  deriving DecidableEq, Repr

/-- Where a kernel thread is: the operation it does next. -/
inductive Pc where
  /-- In user space, or between two calls. -/
  | idle
  /-- Behind the `sched` of `exit`, which does not return. -/
  | dead
  | forkret
  | driverAcquire (k : ℕ) | driver (k : ℕ)
  | sleepAcquire (chan : ℕ) (lk : SleepLock) | sleepRelease (chan : ℕ) (lk : SleepLock)
  | sleepChan (chan : ℕ) (lk : SleepLock) | sleepState (lk : SleepLock)
  | sleepSched (lk : SleepLock) | sleepResume (lk : SleepLock) | sleepUnlock (lk : SleepLock)
  | sleepReacquire (lk : SleepLock)
  /-- `wakeup(chan)`, called by the thread or by an interrupt handler on top of it. -/
  | wakeup (chan : Option ℕ) (w : Wakeup) (ret : Pc)
  | killScan (pid : ℤ) (i : ℕ) | killTest (pid : ℤ) (i : ℕ)
  | killUnlock (pid : ℤ) (i : ℕ) | killReturn (i : ℕ)
  /-- `yield` on a timer interrupt, which returns to `back`. -/
  | yieldAcquire (back : Pc) | yieldState (back : Pc) | yieldSched (back : Pc)
  | yieldRelease (back : Pc)
  | forkScan (i : ℕ) | forkTest (i : ℕ) | forkSkip (i : ℕ) | forkFound (np : ℕ)
  | forkCopy (np : ℕ) | forkFree (np : ℕ) | forkFail (np : ℕ) | forkRelease (np : ℕ)
  | forkWaitLock (np : ℕ) | forkParent (np : ℕ) | forkWaitUnlock (np : ℕ)
  | forkLock (np : ℕ) | forkPublish (np : ℕ) | forkUnlock (np : ℕ)
  | exitLock (status : ℤ) | exitReparent (status : ℤ) (i : ℕ) | exitAcquire (status : ℤ)
  | exitState (status : ℤ) | exitRelease | exitSched
  | waitLock | waitScan (i : ℕ) (havekids : Bool) | waitTest (i : ℕ) | waitSkip (i : ℕ)
  | waitFree (i : ℕ) | waitUnlockChild (i : ℕ) | waitUnlock
  deriving DecidableEq, Repr

/-- What a CPU does: a place in the loop of `scheduler`, or the thread of a process. -/
inductive Cpu where
  | scan (i : ℕ) | test (i : ℕ) | assign (i : ℕ) | swtch (i : ℕ)
  | run (p : ℕ)
  | clear (i : ℕ) | unlock (i : ℕ)
  /-- `wakeup(chan)` in an interrupt handler, which returns to the loop at `i`. -/
  | wakeup (chan : Option ℕ) (w : Wakeup) (i : ℕ)
  deriving DecidableEq, Repr

structure Machine where
  proc : ℕ → Proc
  /-- The CPU that holds a lock. -/
  lock : Lock → Option ℕ
  cpu : ℕ → Cpu
  /-- `c->proc`. -/
  current : ℕ → Option ℕ
  thread : ℕ → Pc
  nextpid : ℤ

namespace Machine
variable (m : Machine)

def goto (p : ℕ) (pc : Pc) : Machine := { m with thread := Function.update m.thread p pc }

def setCpu (c : ℕ) (x : Cpu) : Machine := { m with cpu := Function.update m.cpu c x }

def setProc (i : ℕ) (x : Proc) : Machine := { m with proc := Function.update m.proc i x }

def setCurrent (c : ℕ) (x : Option ℕ) : Machine :=
  { m with current := Function.update m.current c x }

def acquire (c : ℕ) (l : Lock) : Option Machine :=
  if m.lock l = none then some { m with lock := Function.update m.lock l (some c) } else none

def release (c : ℕ) (l : Lock) : Option Machine :=
  if m.lock l = some c then some { m with lock := Function.update m.lock l none } else none

end Machine

inductive Effect where
  | skip
  | acquire (l : Lock)
  | release (l : Lock)
  /-- A store to `proc[i]`. -/
  | setProc (i : ℕ) (x : Proc)
  /-- `allocproc` sets up `proc[i]` with its thread, which will start at `forkret`. -/
  | spawn (i : ℕ) (x : Proc)
  /-- A store to `c->proc`. -/
  | setCurrent (x : Option ℕ)
  /-- `swtch` from the thread of process `p` to the scheduler of this CPU. -/
  | swtch (p : ℕ)
  deriving DecidableEq, Repr

def Effect.apply (m : Machine) (c : ℕ) : Effect → Option Machine
  | skip => some m
  | acquire l => m.acquire c l
  | release l => m.release c l
  | setProc i x => some (m.setProc i x)
  | spawn i x => some { (m.setProc i x).goto i .forkret with
      nextpid := Int.bmod (m.nextpid + 1) (2 ^ 32) }
  | setCurrent x => some (m.setCurrent c x)
  | swtch p => some (m.setCpu c (.clear p))

/-- The code of `wakeup(chan)`, called by process `me` or by no process; it returns when
there is no next place. -/
def wakeupCode (m : Machine) (me chan : Option ℕ) : Wakeup → Effect × Option Wakeup
  | .scan i =>
      if i < NPROC then
        if some i = me then (.skip, some (.scan (i + 1)))
        else (.acquire (.proc i), some (.test i))
      else (.skip, none)
  | .test i =>
      if (m.proc i).state = .sleeping ∧ (m.proc i).chan = chan then
        (.setProc i { m.proc i with state := .runnable }, some (.unlock i))
      else (.skip, some (.unlock i))
  | .unlock i => (.release (.proc i), some (.scan (i + 1)))

/-- `sleep` returns with its lock held, to its caller's loop. -/
def SleepLock.caller : SleepLock → Pc
  | driver k => .driver k
  | wait => .waitScan 0 false

/-- The code of the thread of process `p`: what it does at a place, and where it goes.
Allocations and copies to user memory succeed if `ok`. -/
def threadCode (m : Machine) (p : ℕ) (ok : Bool) : Pc → Effect × Pc
  | .idle => (.skip, .idle)
  | .dead => (.skip, .dead)
  | .forkret => (.release (.proc p), .idle)
  | .driverAcquire k => (.acquire (.sleep (.driver k)), .driver k)
  | .driver k => (.release (.sleep (.driver k)), .idle)
  | .sleepAcquire chan lk => (.acquire (.proc p), .sleepRelease chan lk)
  | .sleepRelease chan lk => (.release (.sleep lk), .sleepChan chan lk)
  | .sleepChan chan lk => (.setProc p { m.proc p with chan := some chan }, .sleepState lk)
  | .sleepState lk => (.setProc p { m.proc p with state := .sleeping }, .sleepSched lk)
  | .sleepSched lk => (.swtch p, .sleepResume lk)
  | .sleepResume lk => (.setProc p { m.proc p with chan := none }, .sleepUnlock lk)
  | .sleepUnlock lk => (.release (.proc p), .sleepReacquire lk)
  | .sleepReacquire lk => (.acquire (.sleep lk), lk.caller)
  | .wakeup chan w ret =>
      ((wakeupCode m (some p) chan w).1,
        (wakeupCode m (some p) chan w).2.elim ret fun w' => .wakeup chan w' ret)
  | .killScan pid i =>
      if i < NPROC then (.acquire (.proc i), .killTest pid i) else (.skip, .idle)
  | .killTest pid i =>
      if (m.proc i).pid = pid then
        (.setProc i { m.proc i with
            killed := true
            state := if (m.proc i).state = .sleeping then .runnable else (m.proc i).state },
          .killReturn i)
      else (.skip, .killUnlock pid i)
  | .killUnlock pid i => (.release (.proc i), .killScan pid (i + 1))
  | .killReturn i => (.release (.proc i), .idle)
  | .yieldAcquire back => (.acquire (.proc p), .yieldState back)
  | .yieldState back => (.setProc p { m.proc p with state := .runnable }, .yieldSched back)
  | .yieldSched back => (.swtch p, .yieldRelease back)
  | .yieldRelease back => (.release (.proc p), back)
  | .forkScan i => if i < NPROC then (.acquire (.proc i), .forkTest i) else (.skip, .idle)
  | .forkTest i =>
      if (m.proc i).state = .unused then (.skip, .forkFound i) else (.skip, .forkSkip i)
  | .forkSkip i => (.release (.proc i), .forkScan (i + 1))
  | .forkFound np =>
      (.spawn np { m.proc np with pid := m.nextpid, state := .used }, .forkCopy np)
  | .forkCopy np => if ok then (.skip, .forkRelease np) else (.skip, .forkFree np)
  | .forkFree np => (.setProc np freeproc, .forkFail np)
  | .forkFail np => (.release (.proc np), .idle)
  | .forkRelease np => (.release (.proc np), .forkWaitLock np)
  | .forkWaitLock np => (.acquire (.sleep .wait), .forkParent np)
  | .forkParent np => (.setProc np { m.proc np with parent := some p }, .forkWaitUnlock np)
  | .forkWaitUnlock np => (.release (.sleep .wait), .forkLock np)
  | .forkLock np => (.acquire (.proc np), .forkPublish np)
  | .forkPublish np => (.setProc np { m.proc np with state := .runnable }, .forkUnlock np)
  | .forkUnlock np => (.release (.proc np), .idle)
  | .exitLock status => (.acquire (.sleep .wait), .exitReparent status 0)
  | .exitReparent status i =>
      if i < NPROC then
        if (m.proc i).parent = some p then
          (.setProc i { m.proc i with parent := some init },
            .wakeup (some init) (.scan 0) (.exitReparent status (i + 1)))
        else (.skip, .exitReparent status (i + 1))
      else (.skip, .wakeup (m.proc p).parent (.scan 0) (.exitAcquire status))
  | .exitAcquire status => (.acquire (.proc p), .exitState status)
  | .exitState status =>
      (.setProc p { m.proc p with xstate := status, state := .zombie }, .exitRelease)
  | .exitRelease => (.release (.sleep .wait), .exitSched)
  | .exitSched => (.swtch p, .dead)
  | .waitLock => (.acquire (.sleep .wait), .waitScan 0 false)
  | .waitScan i havekids =>
      if i < NPROC then
        if (m.proc i).parent = some p then (.acquire (.proc i), .waitTest i)
        else (.skip, .waitScan (i + 1) havekids)
      else if havekids = false ∨ (m.proc p).killed = true then (.skip, .waitUnlock)
      else (.skip, .sleepAcquire p .wait)
  | .waitTest i =>
      if (m.proc i).state = .zombie then
        if ok then (.skip, .waitFree i) else (.skip, .waitUnlockChild i)
      else (.skip, .waitSkip i)
  | .waitSkip i => (.release (.proc i), .waitScan (i + 1) true)
  | .waitFree i => (.setProc i freeproc, .waitUnlockChild i)
  | .waitUnlockChild i => (.release (.proc i), .waitUnlock)
  | .waitUnlock => (.release (.sleep .wait), .idle)

def schedulerCode (m : Machine) : Cpu → Effect × Cpu
  | .scan i => if i < NPROC then (.acquire (.proc i), .test i) else (.skip, .scan 0)
  | .test i =>
      if (m.proc i).state = .runnable then
        (.setProc i { m.proc i with state := .running }, .assign i)
      else (.skip, .unlock i)
  | .assign i => (.setCurrent (some i), .swtch i)
  | .swtch i => (.skip, .run i)
  | .run p => (.skip, .run p)
  | .clear i => (.setCurrent none, .unlock i)
  | .unlock i => (.release (.proc i), .scan (i + 1))
  | .wakeup chan w i =>
      ((wakeupCode m none chan w).1,
        (wakeupCode m none chan w).2.elim (.scan i) fun w' => .wakeup chan w' i)

inductive Call where
  | driver (k : ℕ) | sleep (chan : ℕ) | wakeup (chan : ℕ)
  | kill (pid : ℤ) | fork | exit (status : ℤ) | wait
  deriving DecidableEq, Repr

/-- Where a call by process `p` starts. Process `init` does not exit. -/
def Call.entry (p : ℕ) : Call → Pc → Option Pc
  | driver k, .idle => some (.driverAcquire k)
  | kill pid, .idle => some (.killScan pid 0)
  | fork, .idle => some (.forkScan 0)
  | exit status, .idle => if p = init then none else some (.exitLock status)
  | wait, .idle => some .waitLock
  | sleep chan, .driver k => some (.sleepAcquire chan (.driver k))
  | wakeup chan, .driver k => some (.wakeup (some chan) (.scan 0) (.driver k))
  | _, _ => none

/-- Interrupts are on where no spinlock is held. -/
@[simp] def Pc.interruptible : Pc → Bool
  | idle | driverAcquire _ | sleepReacquire _ | killScan _ _ | forkScan _ | forkWaitLock _
  | forkLock _ | exitLock _ | waitLock => true
  | _ => false

inductive Choice where
  | go (ok : Bool)
  /-- A timer interrupt. -/
  | timer
  /-- An interrupt whose handler calls `wakeup(chan)`. -/
  | device (chan : ℕ)
  | call (k : Call)
  deriving DecidableEq, Repr

/-- What the thread of process `p` at `pc` may do: go on in its code, be interrupted, or
make a call. -/
def choose (m : Machine) (p : ℕ) (pc : Pc) : Choice → Option (Effect × Pc)
  | .go ok => some (threadCode m p ok pc)
  | .timer => if pc.interruptible then some (.skip, .yieldAcquire pc) else none
  | .device chan =>
      if pc.interruptible then some (.skip, .wakeup (some chan) (.scan 0) pc) else none
  | .call k => (k.entry p pc).map fun pc' => (.skip, pc')

/-- What the scheduler loop may do: go on, or be interrupted between two processes. -/
def chooseScheduler (m : Machine) (x : Cpu) : Choice → Option (Effect × Cpu)
  | .go _ => some (schedulerCode m x)
  | .device chan =>
      match x with
      | .scan i => some (.skip, .wakeup (some chan) (.scan 0) i)
      | _ => none
  | _ => none

def cpuStep (m : Machine) (c : ℕ) (a : Choice) : Option Machine :=
  match m.cpu c with
  | .run p => do
      let (e, pc) ← choose m p (m.thread p) a
      return (← e.apply m c).goto p pc
  | x => do
      let (e, y) ← chooseScheduler m x a
      return (← e.apply m c).setCpu c y

/-- After `userinit`: process `init` can run, the other slots are unused and the CPUs
enter their loops. -/
structure Initial (m : Machine) : Prop where
  state : ∀ p, (m.proc p).state = if p = init then .runnable else .unused
  thread : ∀ p, m.thread p = .forkret
  lock : ∀ l, m.lock l = none
  cpu : ∀ c, m.cpu c = .scan 0
  current : ∀ c, m.current c = none

def Step (m : Machine) (e : ℕ × Choice) (m' : Machine) : Prop := cpuStep m e.1 e.2 = some m'

def Reachable (m : Machine) : Prop := Transition.Reachable Initial Step m

def exec (m : Machine) (es : List (ℕ × Choice)) : Option Machine :=
  Transition.exec (fun m e => cpuStep m e.1 e.2) m es

theorem reachable_exec {m m' : Machine} {es : List (ℕ × Choice)} (h : Reachable m)
    (hm : exec m es = some m') : Reachable m' :=
  Transition.Reachable.exec (fun _ _ _ hs => hs) h hm

end Cpus
end Xv6
