import Xv6.Lib.Transition
import Xv6.Proc.Basic
import Xv6.Fs.Exec
import Xv6.Fs.Mkfs

/-!
Booting on a disk image, and sequential runs of file-system calls. A run ends at
the first panic, or at a call that would sleep for ever.
-/

namespace Xv6

/-- Memory after `binit`, `iinit` and `fileinit`: all tables empty. -/
def powerOn (disk : TMap Block) : State where
  store := ⟨disk, [], .empty, binitLru, ⟨0, 0, 0, false, 0, []⟩⟩
  sb := ⟨0, 0, 0, 0, 0, 0, 0⟩
  itable := .empty
  ftable := .empty
  procs := .empty
  cur := 0
  umem := .empty

def fsinit (dev : ℕ) : K Unit := do
  let bp ← bread dev 1
  let data := (← getBuf bp).data
  modify fun s => { s with sb := getSuperblock data }
  brelse bp
  if data.getLE 0 4 ≠ FSMAGIC then panic .invalidFileSystem
  initlog dev (getSuperblock data)

/-- `userinit` gives the first process the root directory before the disk is read;
`forkret` runs `fsinit` in that process. -/
def boot : K Unit := do
  let root ← namei [SLASH]
  modifyProc fun p => { p with cwd := root }
  fsinit ROOTDEV

inductive Syscall where
  | dup (fd : ℤ)
  | read (fd : ℤ) (addr : ℕ) (n ext : ℤ)
  | write (fd : ℤ) (addr : ℕ) (n ext : ℤ)
  | close (fd : ℤ)
  | link (old new : Option Path)
  | unlink (path : Option Path)
  | open (path : Option Path) (omode : ℕ)
  | mkdir (path : Option Path)
  | mknod (path : Option Path) (major minor : ℤ)
  | chdir (path : Option Path)
  | pipe (fdarray : ℕ) (pi : Option ℕ)
  | exec (path : Option Path) (args : Bool) (mem : ExecMem)
  | fork (np : Option ℕ)
  | exit

structure Call where
  pid : ℕ
  umem : UserMem
  sys : Syscall

/-- A process with no current directory is not running; `fork` picks such a slot of the
process table, or fails before it comes to the files. -/
def alive (s : State) (p : ℕ) : Bool := (s.procs.get p).cwd.isSome

def Syscall.run : Syscall → K ℤ
  | dup fd => sysDup fd
  | read fd addr n ext => sysRead fd addr n ext
  | write fd addr n ext => sysWrite fd addr n ext
  | close fd => sysClose fd
  | link old new => sysLink old new
  | unlink path => sysUnlink path
  | .open path omode => sysOpen path omode
  | mkdir path => sysMkdir path
  | mknod path major minor => sysMknod path major minor
  | chdir path => sysChdir path
  | pipe fdarray pi => sysPipe fdarray pi
  | exec path args mem => sysExec path args mem
  | fork np => do
      match np with
      | some np =>
          forkFs np
          return np
      | none => return -1
  | exit => do
      exitFs
      return 0

def Call.enabled (c : Call) (s : State) : Bool :=
  alive s c.pid && match c.sys with
    | .fork np => np.all fun np => decide (np < NPROC) && !alive s np
    | .exit => c.pid ≠ 0
    | _ => true

def Call.run (c : Call) : K ℤ := do
  modify fun s => { s with cur := c.pid, umem := c.umem }
  c.sys.run

/-- The state after a call that returns. -/
def Call.next (s : State) (c : Call) : Option State :=
  if c.enabled s then
    match c.run s with
    | .ok _ t => some t
    | .error _ _ => none
  else none

/-- The kernel after it has booted on a disk. -/
def BootedOn (disk : TMap Block) (s : State) : Prop := boot (powerOn disk) = .ok () s

/-- A state between two calls of a run from the boot on `disk`. -/
def Reached (disk : TMap Block) : State → Prop :=
  Transition.Reachable (BootedOn disk) fun s c t => Call.next s c = some t

/-- The state after a boot on `disk` and a list of calls. -/
def runOn (disk : TMap Block) (cs : List Call) : Option State :=
  match boot (powerOn disk) with
  | .ok _ s => Transition.exec Call.next s cs
  | .error _ _ => none

theorem reached_runOn {disk : TMap Block} {cs : List Call} {s : State}
    (h : runOn disk cs = some s) : Reached disk s := by
  unfold runOn at h
  cases hb : boot (powerOn disk) with
  | error e t => rw [hb] at h; cases h
  | ok a t =>
    rw [hb] at h
    exact Transition.Reachable.exec (fun _ _ _ ht => ht) (.start t hb) h

end Xv6
