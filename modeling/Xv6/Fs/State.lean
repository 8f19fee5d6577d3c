import Xv6.Fs.Layout
import Xv6.Proc.File

/-!
The state the file-system half of the kernel works on, and the monad its functions
run in. A function either returns, panics, or sleeps for ever because the lock or
the log space it waits for is never given back in a sequential run.
-/

namespace Xv6

inductive Panic where
  | bgetNoBuffers | bwrite | brelse
  | tooBigTransaction | logWriteOutsideTrans | logCommitting
  | ballocOutOfBlocks | freeingFreeBlock
  | iallocNoInodes | igetNoInodes | ilock | ilockNoType | iunlock | bmapOutOfRange
  | dirlookupNotDir | dirlookupRead | dirlinkRead | dirlink
  | isdiremptyReadi | unlinkNlink | unlinkWritei
  | createDots | createDirlink
  | filedup | fileclose | fileread | filewrite | initExiting | invalidFileSystem
  deriving DecidableEq, Repr

inductive Fault where
  | panic (p : Panic)
  | asleep
  deriving DecidableEq, Repr

/-- `struct buf`. The field `disk`, by which the driver hands the buffer to the device,
is not kept: a request is one step here. -/
structure Buf where
  valid : Bool
  dev : ℕ
  blockno : ℕ
  locked : Bool
  refcnt : ℕ
  data : Block
  deriving DecidableEq, Repr

instance : Inhabited Buf := ⟨⟨false, 0, 0, false, 0, .empty⟩⟩

/-- `struct log`; `lh` lists `lh.block[0..lh.n)`. -/
structure Log where
  start : ℕ
  size : ℕ
  outstanding : ℤ
  committing : Bool
  dev : ℕ
  lh : List ℕ
  deriving DecidableEq, Repr

/-- In-memory `struct inode`; the fields after the lock are the copy of the disk inode. -/
structure Inode extends Dinode where
  dev : ℕ
  inum : ℕ
  ref : ℕ
  locked : Bool
  valid : Bool
  deriving DecidableEq, Repr

instance : Inhabited Inode := ⟨⟨zeroDinode, 0, 0, 0, false, false⟩⟩

structure FsProc where
  ofile : TMap (Option ℕ)
  cwd : Option ℕ
  deriving DecidableEq, Repr

instance : Inhabited FsProc := ⟨⟨.empty, none⟩⟩

/-- User memory as `copyin` and `copyout` see it: the page at a page-aligned address,
when `walkaddr` finds one. -/
abbrev UserMem := TMap Bytes

/-- What `bio.c` and `log.c` keep: the device with every write request made to it so
far, latest first; `bcache.buf` and the list through `head.next`, most recently used
first; and the log. -/
structure Store where
  disk : TMap Block
  writes : List (ℕ × Block)
  bufs : TMap Buf
  lru : List ℕ
  log : Log
  deriving DecidableEq, Repr

structure State where
  store : Store
  sb : Superblock
  itable : TMap Inode
  ftable : TMap File
  procs : TMap FsProc
  /-- `myproc()` and its user memory. -/
  cur : ℕ
  umem : UserMem
  deriving DecidableEq, Repr

abbrev B := EStateM Fault Store
abbrev K := EStateM Fault State

/-- Block-level code run by the file system changes the store only. -/
def onStore {α : Type} (m : B α) : K α := fun s =>
  match m s.store with
  | .ok a t => .ok a { s with store := t }
  | .error e t => .error e { s with store := t }

instance : MonadLift B K := ⟨onStore⟩

section
variable {σ α : Type}

def panic (p : Panic) : EStateM Fault σ α := throw (.panic p)

/-- Waiting for something that nobody else will give back. -/
def sleepForever : EStateM Fault σ α := throw .asleep

end

end Xv6
