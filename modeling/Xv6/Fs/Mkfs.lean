import Xv6.Fs.Dir

/-!
`mkfs.c` on a little-endian host, where `xint` and `xshort` are the identity. The
image file has `FSSIZE` zero blocks before anything else is written; reading a
sector past its end makes `mkfs` die.
-/

namespace Xv6
namespace Mkfs

def NINODES : ℕ := 200
def nbitmap : ℕ := FSSIZE / (BSIZE * 8) + 1
def ninodeblocks : ℕ := NINODES / IPB + 1
def nlog : ℕ := LOGSIZE
def nmeta : ℕ := 2 + nlog + ninodeblocks + nbitmap

def sb : Superblock where
  size := FSSIZE
  nblocks := FSSIZE - nmeta
  ninodes := NINODES
  nlog := nlog
  logstart := 2
  inodestart := 2 + nlog
  bmapstart := 2 + nlog + ninodeblocks

inductive Exit where
  | die
  | assert
  deriving DecidableEq, Repr

/-- The last field is a record of what `winode` last wrote for each inode; the program
keeps none. -/
structure St where
  img : TMap Block
  freeinode : ℕ
  freeblock : ℕ
  inodes : TMap Dinode
  deriving DecidableEq, Repr

abbrev M := EStateM Exit St

def wsect (sec : ℕ) (buf : Block) : M Unit := modify fun s => { s with img := s.img.set sec buf }

def rsect (sec : ℕ) : M Block := do
  if sec ≥ FSSIZE then throw .die
  return (← get).img.get sec

def winode (inum : ℕ) (d : Dinode) : M Unit := do
  let buf ← rsect (sb.IBLOCK inum)
  wsect (sb.IBLOCK inum) (putDinode buf (inum % IPB) d)
  modify fun s => { s with inodes := s.inodes.set inum d }

def rinode (inum : ℕ) : M Dinode := do
  return getDinode (← rsect (sb.IBLOCK inum)) (inum % IPB)

def ialloc (type : ℤ) : M ℕ := do
  let inum := (← get).freeinode
  modify fun s => { s with freeinode := s.freeinode + 1 }
  winode inum { zeroDinode with type := type, nlink := 1 }
  return inum

def takeBlock : M ℕ := do
  let b := (← get).freeblock
  modify fun s => { s with freeblock := s.freeblock + 1 }
  return b

def withIndirect (d : Dinode) : M Dinode := do
  if d.addrs.getD NDIRECT 0 = 0 then
    return { d with addrs := d.addrs.set NDIRECT (← takeBlock) }
  else
    return d

/-- The block number of file block `fbn`, and the inode with the slots filled in. -/
def blockFor (d : Dinode) (fbn : ℕ) : M (ℕ × Dinode) := do
  if fbn < NDIRECT then
    if d.addrs.getD fbn 0 = 0 then
      let x ← takeBlock
      return (x, { d with addrs := d.addrs.set fbn x })
    else
      return (d.addrs.getD fbn 0, d)
  else
    let d ← withIndirect d
    let indirect ← rsect (d.addrs.getD NDIRECT 0)
    if getWord indirect (fbn - NDIRECT) = 0 then
      let x ← takeBlock
      wsect (d.addrs.getD NDIRECT 0) (putWord indirect (fbn - NDIRECT) x)
      return (x, d)
    else
      return (getWord indirect (fbn - NDIRECT), d)

/-- The loop of `iappend`; each round appends at least one byte. -/
def iappendLoop : ℕ → Dinode → ℕ → List UInt8 → M (Dinode × ℕ)
  | 0, d, off, _ => return (d, off)
  | fuel + 1, d, off, p => do
      if p = [] then
        return (d, off)
      else
        let fbn := off / BSIZE
        if ¬ fbn < MAXFILE then throw .assert
        let (x, d) ← blockFor d fbn
        let n1 := min p.length ((fbn + 1) * BSIZE - off)
        let buf ← rsect x
        wsect x (buf.putBytes (off - fbn * BSIZE) (p.take n1))
        iappendLoop fuel d (off + n1) (p.drop n1)

def iappend (inum : ℕ) (p : List UInt8) : M Unit := do
  let d ← rinode inum
  let (d, off) ← iappendLoop p.length d d.size p
  winode inum { d with size := off }

/-- Bits `i..used-1` of the bitmap, for `n` rounds. -/
def markUsed (buf : Block) (i : ℕ) : ℕ → Block
  | 0 => buf
  | n + 1 => markUsed (setBit buf i) (i + 1) n

def balloc (used : ℕ) : M Unit := do
  if ¬ used < BSIZE * 8 then throw .assert
  wsect sb.bmapstart (markUsed .empty 0 used)

/-- An input file: its path on the host and what the successive `read` calls return. -/
structure Input where
  path : List UInt8
  chunks : List (List UInt8)

/-- The bytes of `"user/"`. -/
def userDir : List UInt8 := [117, 115, 101, 114, 47]

def UNDERSCORE : UInt8 := 95

/-- `argv[i]` without a leading `user/`. -/
def stripUser (path : List UInt8) : List UInt8 :=
  if userDir.isPrefixOf path then path.drop 5 else path

def shortname (path : List UInt8) : List UInt8 :=
  if (stripUser path).head? = some UNDERSCORE then (stripUser path).tail else stripUser path

def appendDirent (dir inum : ℕ) (name : List UInt8) : M Unit :=
  iappend dir (Dirent.mk inum (strncpy DIRSIZ name)).encode

def appendChunks (inum : ℕ) : List (List UInt8) → M Unit
  | [] => return
  | c :: cs => do
      iappend inum c
      appendChunks inum cs

def addFile (rootino : ℕ) (f : Input) : M Unit := do
  if SLASH ∈ stripUser f.path then throw .assert
  let inum ← ialloc T_FILE
  appendDirent rootino inum (shortname f.path)
  appendChunks inum f.chunks

def addFiles (rootino : ℕ) : List Input → M Unit
  | [] => return
  | f :: fs => do
      addFile rootino f
      addFiles rootino fs

def main (files : List Input) : M Unit := do
  wsect 1 (putSuperblock .empty sb)
  let rootino ← ialloc T_DIR
  if rootino ≠ ROOTINO then throw .assert
  appendDirent rootino rootino [46]
  appendDirent rootino rootino [46, 46]
  addFiles rootino files
  let din ← rinode rootino
  winode rootino { din with size := (din.size / BSIZE + 1) * BSIZE }
  balloc (← get).freeblock

/-- The image `mkfs` leaves, when it exits with success. -/
def image (files : List Input) : Option (TMap Block) :=
  match main files ⟨.empty, 1, nmeta, .empty⟩ with
  | .ok _ s => some s.img
  | .error _ _ => none

end Mkfs
end Xv6
