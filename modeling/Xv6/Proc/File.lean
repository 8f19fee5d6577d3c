import Xv6.Lib.TMap

/-!
The file table of `file.c`, which the file system and the pipes share.
-/

namespace Xv6

def NOFILE : ℕ := 16
def NFILE : ℕ := 100

inductive FileType where
  | none | pipe | inode | device
  deriving DecidableEq, Repr

/-- `struct file`; `ip` is an index into the inode table and `pipe` names a pipe. -/
structure File where
  type : FileType
  ref : ℕ
  readable : Bool
  writable : Bool
  pipe : ℕ
  ip : ℕ
  off : ℕ
  major : ℤ
  deriving DecidableEq, Repr

instance : Inhabited File := ⟨⟨.none, 0, false, false, 0, 0, 0, 0⟩⟩

/-- The first free file structure, taken. -/
def allocFile (t : TMap File) : Option (ℕ × TMap File) :=
  ((List.range NFILE).find? fun i => (t.get i).ref = 0).map fun i =>
    (i, t.set i { t.get i with ref := 1 })

end Xv6
