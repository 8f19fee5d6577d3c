import Xv6.Fs.Inode

/-!
Directories and paths, `fs.c`. Strings are lists of bytes without the final NUL; a
byte past the end of a list reads as NUL.
-/

namespace Xv6

def strncmp : ℕ → List UInt8 → List UInt8 → ℤ
  | 0, _, _ => 0
  | n + 1, p, q =>
      if p.headD 0 ≠ 0 ∧ p.headD 0 = q.headD 0 then strncmp n p.tail q.tail
      else (p.headD 0).toNat - (q.headD 0).toNat

/-- `strncpy` of `n` bytes: NUL-padded, and not terminated when `t` is longer. -/
def strncpy : ℕ → List UInt8 → List UInt8
  | 0, _ => []
  | n + 1, t => if t.headD 0 = 0 then List.replicate (n + 1) 0 else t.headD 0 :: strncpy n t.tail

@[simp] theorem length_strncpy (n : ℕ) (t : List UInt8) : (strncpy n t).length = n := by
  induction n generalizing t with
  | zero => rfl
  | succ n ih =>
    unfold strncpy
    split_ifs
    · exact List.length_replicate
    · rw [List.length_cons, ih]

def namecmp (s t : List UInt8) : ℤ := strncmp DIRSIZ s t

/-- `readi(dp, 0, &de, off, sizeof(de))`, with the caller's panic on a short read. -/
def readDirent (dp off : ℕ) (short : Panic) : K Dirent := do
  let (r, dst) ← readi dp (.kernel []) off DIRENTSIZE
  match dst with
  | .kernel bytes => if r = some DIRENTSIZE then return Dirent.decode bytes else panic short
  | .user _ => panic short

/-- `writei(dp, 0, &de, off, sizeof(de)) != sizeof(de)` with the caller's panic. -/
def writeDirent (dp off : ℕ) (de : Dirent) (short : Panic) : K Unit := do
  if (← writei dp (.kernel de.encode) off DIRENTSIZE) ≠ some DIRENTSIZE then panic short

/-- Number of rounds of `for(off = 0; off < size; off += sizeof(de))`. -/
def direntCount (size : ℕ) : ℕ := (size + DIRENTSIZE - 1) / DIRENTSIZE

/-- The loop of `dirlookup` from `off` on for `n` rounds: the inode and the offset of
the entry found. -/
def dirlookupFrom (dp : ℕ) (name : List UInt8) (off : ℕ) : ℕ → K (Option (ℕ × ℕ))
  | 0 => return none
  | n + 1 => do
      let de ← readDirent dp off .dirlookupRead
      if de.inum ≠ 0 ∧ namecmp name de.name = 0 then
        let ip ← iget (← getInode dp).dev de.inum
        return some (ip, off)
      else
        dirlookupFrom dp name (off + DIRENTSIZE) n

def dirlookup (dp : ℕ) (name : List UInt8) : K (Option (ℕ × ℕ)) := do
  if (← getInode dp).type ≠ T_DIR then panic .dirlookupNotDir
  dirlookupFrom dp name 0 (direntCount (← getInode dp).size)

/-- The loop of `dirlink` that looks for an empty entry. -/
def emptyDirent (dp off : ℕ) : ℕ → K ℕ
  | 0 => return off
  | n + 1 => do
      let de ← readDirent dp off .dirlinkRead
      if de.inum = 0 then return off else emptyDirent dp (off + DIRENTSIZE) n

/-- `false` stands for the `-1` of a name that is already there. -/
def dirlink (dp : ℕ) (name : List UInt8) (inum : ℕ) : K Bool := do
  match ← dirlookup dp name with
  | some (ip, _) =>
      iput ip
      return false
  | none =>
      let off ← emptyDirent dp 0 (direntCount (← getInode dp).size)
      writeDirent dp off ⟨inum, strncpy DIRSIZ name⟩ .dirlink
      return true

def SLASH : UInt8 := 47

/-- The rest of the path and the element taken off its front. -/
def skipelem (path : List UInt8) : Option (List UInt8 × List UInt8) :=
  let path := path.dropWhile (· = SLASH)
  if path = [] then none
  else
    let elem := path.takeWhile (· ≠ SLASH)
    some ((path.dropWhile (· ≠ SLASH)).dropWhile (· = SLASH), elem.take DIRSIZ)

/-- The loop of `namex`. Each round takes at least one byte off the path, so one round
more than its length is enough. -/
def namexLoop (parent : Bool) : ℕ → ℕ → List UInt8 → List UInt8 → K (Option (ℕ × List UInt8))
  | 0, _, _, _ => sleepForever
  | fuel + 1, ip, path, name => do
      match skipelem path with
      | none =>
          if parent then
            iput ip
            return none
          else
            return some (ip, name)
      | some (path, name) =>
          ilock ip
          if (← getInode ip).type ≠ T_DIR then
            iunlockput ip
            return none
          else if parent ∧ path = [] then
            iunlock ip
            return some (ip, name)
          else
            match ← dirlookup ip name with
            | none =>
                iunlockput ip
                return none
            | some (next, _) =>
                iunlockput ip
                namexLoop parent fuel next path name

def myproc : K FsProc := do
  let s ← get
  return s.procs.get s.cur

def modifyProc (f : FsProc → FsProc) : K Unit :=
  modify fun s => { s with procs := s.procs.set s.cur (f (s.procs.get s.cur)) }

def namex (path : List UInt8) (parent : Bool) : K (Option (ℕ × List UInt8)) := do
  let ip ← if path.head? = some SLASH then iget ROOTDEV ROOTINO
    else idup ((← myproc).cwd.getD 0)
  namexLoop parent (path.length + 1) ip path []

def namei (path : List UInt8) : K (Option ℕ) :=
  return (← namex path false).map Prod.fst

def nameiparent (path : List UInt8) : K (Option (ℕ × List UInt8)) := namex path true

end Xv6
