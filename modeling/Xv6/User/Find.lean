import Mathlib.Tactic

/-!
The program `find.c`. A directory is the list of its entries as `read` returns them. The call
`find(path, filename)` takes the tree that the kernel finds at `path`, the number of file
descriptors that are free, and the number of activations of `find` that the stack still has
room for. An activation has two arrays of 512 bytes, a `dirent` and a `stat`, and `exec` gives
the program one page of stack: there is room for three.
-/

namespace Xv6
namespace Find

def DIRSIZ : ℕ := 14
def MAXPATH : ℕ := 128

def BUFSIZE : ℕ := 512

def SLASH : UInt8 := 47
def DOT : List UInt8 := [46]
def DOTDOT : List UInt8 := [46, 46]

def bytes (s : String) : List UInt8 := s.toUTF8.toList

/-- The name of a file: one to `DIRSIZ` bytes that are no slash. -/
structure Name where
  text : List UInt8
  length_le : text.length ≤ DIRSIZ
  ne_nil : text ≠ []
  ok : ∀ c ∈ text, c ≠ SLASH ∧ c ≠ 0
  not_dot : text ≠ DOT ∧ text ≠ DOTDOT

/-- The name as a directory entry has it, without a final zero if it is `DIRSIZ` bytes long. -/
def pad (name : List UInt8) : List UInt8 := name ++ List.replicate (DIRSIZ - name.length) 0

mutual

inductive Tree where
  | file
  | dir (entries : Entries)

/-- The entries of a directory: free ones (`inum == 0`), `.` and `..`, and its files. -/
inductive Entries where
  | nil
  | free (rest : Entries)
  | self (rest : Entries)
  | parent (rest : Entries)
  | named (name : Name) (t : Tree) (rest : Entries)

end

/-! ### The program -/

def cstring (l : List UInt8) : List UInt8 := l.takeWhile (· ≠ 0)

/-- The difference of the first characters that differ, or of a character and the final zero. -/
def strcmp : List UInt8 → List UInt8 → ℤ
  | [], [] => 0
  | p :: _, [] => p.toNat
  | [], q :: _ => -q.toNat
  | p :: ps, q :: qs => if p = q then strcmp ps qs else p.toNat - q.toNat

/-- The part after the last slash; a name of `DIRSIZ` bytes is not copied. -/
def fmtname (path : List UInt8) : List UInt8 := (path.reverse.takeWhile (· ≠ SLASH)).reverse

def decimal (n : ℤ) : List UInt8 :=
  (if n < 0 then [45] else []) ++
    (if n = 0 then [0] else (Nat.digits 10 n.natAbs).reverse).map fun d => UInt8.ofNat (48 + d)

/-- `open(path, 0)` of a path that names a file. -/
def canOpen (fds : ℕ) (path : List UInt8) : Bool := path.length < MAXPATH ∧ 0 < fds

def join (path name : List UInt8) : List UInt8 := path ++ SLASH :: name

/-- What is printed, line by line, and whether the process is alive after it: it is not when
the stack is full. -/
structure Out where
  lines : List (List UInt8)
  alive : Bool

def say (lines : List (List UInt8)) : Out := ⟨lines, true⟩

def Out.seq (a b : Out) : Out := if a.alive then ⟨a.lines ++ b.lines, b.alive⟩ else a

/-- One round of the loop for an entry with this name. The last argument is the call
`find(buf, filename)`. -/
def visit (fds : ℕ) (path filename name : List UInt8) (below : Out) : Out :=
  let buf := join path (cstring (pad name))
  -- `stat` opens the file
  if !canOpen fds buf then say [bytes "find: cannot stat " ++ buf]
  else
    let bufname := fmtname buf
    (say [bytes "the file in dir " ++ bufname,
      bytes "bufname cmp: " ++ decimal (strcmp bufname DOT)]).seq
    (if strcmp bufname DOT = 0 ∨ strcmp bufname DOTDOT = 0 then say []
    else if strcmp bufname filename = 0 then say [join path filename]
    else below)

mutual

def find (fds acts : ℕ) (path filename : List UInt8) : Tree → Out
  | .file =>
      if acts = 0 then ⟨[], false⟩
      else if !canOpen fds path then say [bytes "find: cannot open " ++ path]
      else say []
  | .dir entries =>
      if acts = 0 then ⟨[], false⟩
      else if !canOpen fds path then say [bytes "find: cannot open " ++ path]
      else if path.length + 1 + DIRSIZ + 1 > BUFSIZE then say [bytes "find: path too long"]
      else findEntries (fds - 1) (acts - 1) path filename entries

/-- The loop over the entries. -/
def findEntries (fds acts : ℕ) (path filename : List UInt8) : Entries → Out
  | .nil => say []
  | .free rest => findEntries fds acts path filename rest
  | .self rest =>
      (visit fds path filename DOT (say [])).seq (findEntries fds acts path filename rest)
  | .parent rest =>
      (visit fds path filename DOTDOT (say [])).seq (findEntries fds acts path filename rest)
  | .named name t rest =>
      (visit fds path filename name.text
        (find fds acts (join path (cstring (pad name.text))) filename t)).seq
      (findEntries fds acts path filename rest)

end

/-! ### What it should print -/

mutual

/-- The lines for the entries below `path` with the name `filename`, at any depth. -/
def Tree.entries (path filename : List UInt8) : Tree → List (List UInt8)
  | .file => []
  | .dir entries => entries.lines path filename

def Entries.lines (path filename : List UInt8) : Entries → List (List UInt8)
  | .nil => []
  | .free rest => rest.lines path filename
  | .self rest => rest.lines path filename
  | .parent rest => rest.lines path filename
  | .named name t rest =>
      (if name.text = filename then [join path filename] else []) ++
        t.entries (join path name.text) filename ++ rest.lines path filename

end

/-- There is one line for each entry with the name, and no line for another entry. Lines with a
slash are those with a path. -/
def Reports (path filename : List UInt8) (t : Tree) (out : List (List UInt8)) : Prop :=
  (∀ l ∈ t.entries path filename, out.count l = 1) ∧
    ∀ l ∈ out, SLASH ∈ l → l ∈ t.entries path filename

def Entries.names : Entries → List (List UInt8)
  | .nil => []
  | .free rest => rest.names
  | .self rest => rest.names
  | .parent rest => rest.names
  | .named name _ rest => name.text :: rest.names

mutual

/-- No directory has two entries with one name. -/
def Tree.Distinct : Tree → Prop
  | .file => True
  | .dir entries => entries.names.Nodup ∧ entries.Distinct

def Entries.Distinct : Entries → Prop
  | .nil => True
  | .free rest => rest.Distinct
  | .self rest => rest.Distinct
  | .parent rest => rest.Distinct
  | .named _ t rest => t.Distinct ∧ rest.Distinct

end

mutual

/-- The limits on paths, descriptors and the stack: every entry that the search comes to can be
opened while the directories above it are, and there is room for `find` on it if it is called. -/
def Tree.Within (fds acts : ℕ) (path filename : List UInt8) : Tree → Prop
  | .file => 0 < acts ∧ canOpen fds path = true
  | .dir entries =>
      0 < acts ∧ canOpen fds path = true ∧ entries.Within (fds - 1) (acts - 1) path filename

def Entries.Within (fds acts : ℕ) (path filename : List UInt8) : Entries → Prop
  | .nil => True
  | .free rest => rest.Within fds acts path filename
  | .self rest => canOpen fds (join path DOT) = true ∧ rest.Within fds acts path filename
  | .parent rest => canOpen fds (join path DOTDOT) = true ∧ rest.Within fds acts path filename
  | .named name t rest =>
      canOpen fds (join path name.text) = true ∧
        (name.text ≠ filename → t.Within fds acts (join path name.text) filename) ∧
        rest.Within fds acts path filename

end

mutual

/-- An entry below has the name. -/
def Tree.has (filename : List UInt8) : Tree → Bool
  | .file => false
  | .dir entries => entries.has filename

def Entries.has (filename : List UInt8) : Entries → Bool
  | .nil => false
  | .free rest => rest.has filename
  | .self rest => rest.has filename
  | .parent rest => rest.has filename
  | .named name t rest => name.text = filename || t.has filename || rest.has filename

end

mutual

/-- No directory with the name has an entry with the name below it. -/
def Tree.Flat (filename : List UInt8) : Tree → Prop
  | .file => True
  | .dir entries => entries.Flat filename

def Entries.Flat (filename : List UInt8) : Entries → Prop
  | .nil => True
  | .free rest => rest.Flat filename
  | .self rest => rest.Flat filename
  | .parent rest => rest.Flat filename
  | .named name t rest =>
      (if name.text = filename then t.has filename = false else t.Flat filename) ∧
        rest.Flat filename

end

end Find
end Xv6
