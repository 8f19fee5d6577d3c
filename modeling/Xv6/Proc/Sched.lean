import Xv6.Lib.Transition
import Xv6.Proc.Basic

/-!
`sleep`, `wakeup`, `kill`, `yield` and the scheduler of `proc.c`, one lock operation or
one store at a time, on any number of CPUs. The processes run any sequence of waits,
wakes and kills around one condition `C`, its lock `lk` and one channel:

  wait: acquire(lk); while(!C) sleep(chan, lk); release(lk);
  wake: acquire(lk); C := true; wakeup(chan); release(lk);

A CPU runs either its scheduler loop or the kernel thread of the process it switched
to. A spinning `acquire` is not a step, and neither is a panic.
-/

namespace Xv6
namespace Sched

/-- The channel of the waits; `0` is no channel. -/
def chan : ℕ := 1

structure Proc where
  state : ProcState
  chan : ℕ
  killed : Bool
  pid : ℤ
  deriving DecidableEq, Repr

inductive Lock where
  | lk
  | proc (i : ℕ)
  deriving DecidableEq, Repr

inductive Pc where
  /-- In user space, or between two calls. -/
  | idle
  | forkret
  | waitAcquire | waitTest | waitRelease
  | sleepAcquire | sleepRelease | sleepChan | sleepState | sleepSched
  | sleepResume | sleepUnlock
  | wakerAcquire | wakerSet | wakerRelease
  | wakeupScan (i : ℕ) | wakeupTest (i : ℕ) | wakeupUnlock (i : ℕ)
  | killScan (pid : ℤ) (i : ℕ) | killTest (pid : ℤ) (i : ℕ)
  | killUnlock (pid : ℤ) (i : ℕ) | killReturn (i : ℕ)
  /-- `yield` on a timer interrupt, which returns to `back`. -/
  | yieldAcquire (back : Pc) | yieldState (back : Pc) | yieldSched (back : Pc)
  | yieldRelease (back : Pc)
  deriving DecidableEq, Repr

inductive Cpu where
  | scan (i : ℕ) | test (i : ℕ) | unlock (i : ℕ)
  | run (p : ℕ)
  deriving DecidableEq, Repr

structure Machine where
  proc : ℕ → Proc
  /-- The CPU that holds a lock. -/
  lock : Lock → Option ℕ
  cpu : ℕ → Cpu
  thread : ℕ → Pc
  C : Bool

namespace Machine
variable (m : Machine)

def goto (p : ℕ) (pc : Pc) : Machine := { m with thread := Function.update m.thread p pc }

def setCpu (c : ℕ) (x : Cpu) : Machine := { m with cpu := Function.update m.cpu c x }

def setProc (i : ℕ) (x : Proc) : Machine := { m with proc := Function.update m.proc i x }

def acquire (c : ℕ) (l : Lock) : Option Machine :=
  if m.lock l = none then some { m with lock := Function.update m.lock l (some c) } else none

def release (c : ℕ) (l : Lock) : Option Machine :=
  if m.lock l = some c then some { m with lock := Function.update m.lock l none } else none

end Machine

inductive Call where
  | wait | wake | kill (pid : ℤ)
  deriving DecidableEq, Repr

def Call.entry : Call → Pc
  | wait => .waitAcquire
  | wake => .wakerAcquire
  | kill pid => .killScan pid 0

/-- Interrupts are on where no spinlock is held. -/
def Pc.interruptible : Pc → Bool
  | idle | waitAcquire | wakerAcquire | killScan _ _ => true
  | _ => false

inductive Choice where
  | go | interrupt | call (k : Call)
  deriving DecidableEq, Repr

inductive Effect where
  | skip
  | acquire (l : Lock)
  | release (l : Lock)
  /-- A store to `proc[i]`. -/
  | setProc (i : ℕ) (x : Proc)
  | setC
  /-- `swtch` from `sched` to the scheduler of this CPU. -/
  | swtch
  deriving DecidableEq, Repr

def Effect.apply (m : Machine) (c p : ℕ) : Effect → Option Machine
  | skip => some m
  | acquire l => m.acquire c l
  | release l => m.release c l
  | setProc i x => some (m.setProc i x)
  | setC => some { m with C := true }
  | swtch => some (m.setCpu c (.unlock p))

def Proc.wake (x : Proc) : Proc :=
  if x.state = .sleeping then { x with state := .runnable } else x

/-- The code of the thread of process `p`: what it does at a place, and where it goes. -/
def threadCode (m : Machine) (p : ℕ) : Pc → Effect × Pc
  | .idle => (.skip, .idle)
  | .forkret => (.release (.proc p), .idle)
  | .waitAcquire => (.acquire .lk, .waitTest)
  | .waitTest => (.skip, if m.C then .waitRelease else .sleepAcquire)
  | .waitRelease => (.release .lk, .idle)
  | .sleepAcquire => (.acquire (.proc p), .sleepRelease)
  | .sleepRelease => (.release .lk, .sleepChan)
  | .sleepChan => (.setProc p { m.proc p with chan := chan }, .sleepState)
  | .sleepState => (.setProc p { m.proc p with state := .sleeping }, .sleepSched)
  | .sleepSched => (.swtch, .sleepResume)
  | .sleepResume => (.setProc p { m.proc p with chan := 0 }, .sleepUnlock)
  | .sleepUnlock => (.release (.proc p), .waitAcquire)
  | .wakerAcquire => (.acquire .lk, .wakerSet)
  | .wakerSet => (.setC, .wakeupScan 0)
  | .wakeupScan i =>
      if i < NPROC then
        if i = p then (.skip, .wakeupScan (i + 1)) else (.acquire (.proc i), .wakeupTest i)
      else (.skip, .wakerRelease)
  | .wakeupTest i =>
      if (m.proc i).chan = chan then (.setProc i (m.proc i).wake, .wakeupUnlock i)
      else (.skip, .wakeupUnlock i)
  | .wakeupUnlock i => (.release (.proc i), .wakeupScan (i + 1))
  | .wakerRelease => (.release .lk, .idle)
  | .killScan pid i =>
      if i < NPROC then (.acquire (.proc i), .killTest pid i) else (.skip, .idle)
  | .killTest pid i =>
      if (m.proc i).pid = pid then (.setProc i { (m.proc i).wake with killed := true }, .killReturn i)
      else (.skip, .killUnlock pid i)
  | .killUnlock pid i => (.release (.proc i), .killScan pid (i + 1))
  | .killReturn i => (.release (.proc i), .idle)
  | .yieldAcquire back => (.acquire (.proc p), .yieldState back)
  | .yieldState back => (.setProc p { m.proc p with state := .runnable }, .yieldSched back)
  | .yieldSched back => (.swtch, .yieldRelease back)
  | .yieldRelease back => (.release (.proc p), back)

/-- What the thread of process `p` at `pc` may do: go on in its code, be interrupted by
the timer, or, between two calls, make a call. -/
def choose (m : Machine) (p : ℕ) (pc : Pc) : Choice → Option (Effect × Pc)
  | .go => some (threadCode m p pc)
  | .interrupt => if pc.interruptible then some (.skip, .yieldAcquire pc) else none
  | .call k => if pc = .idle then some (.skip, k.entry) else none

def cpuStep (m : Machine) (c : ℕ) (a : Choice) : Option Machine :=
  match m.cpu c with
  | .scan i =>
      if i < NPROC then do return (← m.acquire c (.proc i)).setCpu c (.test i)
      else some (m.setCpu c (.scan 0))
  | .test i =>
      if (m.proc i).state = .runnable then
        some ((m.setProc i { m.proc i with state := .running }).setCpu c (.run i))
      else some (m.setCpu c (.unlock i))
  | .unlock i => do return (← m.release c (.proc i)).setCpu c (.scan (i + 1))
  | .run p => do
      let (e, pc) ← choose m p (m.thread p) a
      return (← e.apply m c p).goto p pc

structure Initial (m : Machine) : Prop where
  state : ∀ p, (m.proc p).state = .unused ∨ (m.proc p).state = .runnable
  thread : ∀ p, m.thread p = .forkret
  lock : ∀ l, m.lock l = none
  cpu : ∀ c, m.cpu c = .scan 0

def Step (m : Machine) (e : ℕ × Choice) (m' : Machine) : Prop := cpuStep m e.1 e.2 = some m'

def Reachable (m : Machine) : Prop := Transition.Reachable Initial Step m

def exec (m : Machine) (es : List (ℕ × Choice)) : Option Machine :=
  Transition.exec (fun m e => cpuStep m e.1 e.2) m es

theorem reachable_exec {m m' : Machine} {es : List (ℕ × Choice)} (h : Reachable m)
    (hm : exec m es = some m') : Reachable m' :=
  Transition.Reachable.exec (fun _ _ _ hs => hs) h hm

end Sched
end Xv6
