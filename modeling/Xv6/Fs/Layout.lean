import Xv6.Lib.Bytes

/-!
Sizes and on-disk formats of the file system: `param.h`, `fs.h`, `stat.h`, `fcntl.h`.
Blocks are byte memories; inodes, directory entries, bitmap bits and the log header
are read from and written into them at the offsets the C structures have.
-/

namespace Xv6

def NBUF : ℕ := 30
def MAXOPBLOCKS : ℕ := 10
def LOGSIZE : ℕ := MAXOPBLOCKS * 3
def NINODE : ℕ := 50
def NDEV : ℕ := 10
def ROOTDEV : ℕ := 1
def ROOTINO : ℕ := 1
def FSSIZE : ℕ := 1000
def BSIZE : ℕ := 1024
def NDIRECT : ℕ := 12
def NINDIRECT : ℕ := BSIZE / 4
def MAXFILE : ℕ := NDIRECT + NINDIRECT
def DIRSIZ : ℕ := 14

/-- `sizeof(struct dinode)` and `sizeof(struct dirent)`. -/
def DINODESIZE : ℕ := 64
def DIRENTSIZE : ℕ := 16

/-- Inodes per block and bitmap bits per block. -/
def IPB : ℕ := BSIZE / DINODESIZE
def BPB : ℕ := BSIZE * 8

def T_DIR : ℤ := 1
def T_FILE : ℤ := 2
def T_DEVICE : ℤ := 3

def O_WRONLY : ℕ := 0x001
def O_RDWR : ℕ := 0x002
def O_CREATE : ℕ := 0x200
def O_TRUNC : ℕ := 0x400

abbrev Block := Bytes

/-- The value a C `short` holds after `x` is stored in it. -/
def short (x : ℤ) : ℤ := (x + 32768) % 65536 - 32768

/-- The two's complement halfword of a `short`, and back. -/
def shortBits (x : ℤ) : ℕ := (x % 65536).toNat

def ofShortBits (n : ℕ) : ℤ := if n < 32768 then n else n - 65536

structure Superblock where
  size : ℕ
  nblocks : ℕ
  ninodes : ℕ
  nlog : ℕ
  logstart : ℕ
  inodestart : ℕ
  bmapstart : ℕ
  deriving DecidableEq, Repr

namespace Superblock

/-- Block containing inode `i`. -/
def IBLOCK (sb : Superblock) (i : ℕ) : ℕ := i / IPB + sb.inodestart

/-- Block of the free map containing the bit of block `b`. -/
def BBLOCK (sb : Superblock) (b : ℕ) : ℕ := b / BPB + sb.bmapstart

end Superblock

def FSMAGIC : ℕ := 0x10203040

def getSuperblock (b : Block) : Superblock where
  size := b.getLE 4 4
  nblocks := b.getLE 8 4
  ninodes := b.getLE 12 4
  nlog := b.getLE 16 4
  logstart := b.getLE 20 4
  inodestart := b.getLE 24 4
  bmapstart := b.getLE 28 4

def putSuperblock (b : Block) (sb : Superblock) : Block :=
  b.putBytes 0 (Bytes.le 4 FSMAGIC ++ Bytes.le 4 sb.size ++ Bytes.le 4 sb.nblocks ++
    Bytes.le 4 sb.ninodes ++ Bytes.le 4 sb.nlog ++ Bytes.le 4 sb.logstart ++
    Bytes.le 4 sb.inodestart ++ Bytes.le 4 sb.bmapstart)

/-- `struct dinode`; the slots `0..NDIRECT-1` of `addrs` are direct and slot `NDIRECT`
holds the indirect block. -/
structure Dinode where
  type : ℤ
  major : ℤ
  minor : ℤ
  nlink : ℤ
  size : ℕ
  addrs : List ℕ
  deriving DecidableEq, Repr

def zeroDinode : Dinode := ⟨0, 0, 0, 0, 0, List.replicate (NDIRECT + 1) 0⟩

instance : Inhabited Dinode := ⟨zeroDinode⟩

def getU32s (b : Block) (o : ℕ) : ℕ → List ℕ
  | 0 => []
  | n + 1 => b.getLE o 4 :: getU32s b (o + 4) n

/-- `((struct dinode*)b) + i`. -/
def getDinode (b : Block) (i : ℕ) : Dinode where
  type := ofShortBits (b.getLE (DINODESIZE * i) 2)
  major := ofShortBits (b.getLE (DINODESIZE * i + 2) 2)
  minor := ofShortBits (b.getLE (DINODESIZE * i + 4) 2)
  nlink := ofShortBits (b.getLE (DINODESIZE * i + 6) 2)
  size := b.getLE (DINODESIZE * i + 8) 4
  addrs := getU32s b (DINODESIZE * i + 12) (NDIRECT + 1)

def Dinode.encode (d : Dinode) : List UInt8 :=
  Bytes.le 2 (shortBits d.type) ++ Bytes.le 2 (shortBits d.major) ++
    Bytes.le 2 (shortBits d.minor) ++ Bytes.le 2 (shortBits d.nlink) ++ Bytes.le 4 d.size ++
    d.addrs.flatMap (Bytes.le 4)

def putDinode (b : Block) (i : ℕ) (d : Dinode) : Block := b.putBytes (DINODESIZE * i) d.encode

/-- `struct dirent`: the name field is `DIRSIZ` bytes, NUL-padded when it is shorter. -/
structure Dirent where
  inum : ℕ
  name : List UInt8
  deriving DecidableEq, Repr

def Dirent.encode (de : Dirent) : List UInt8 := Bytes.le 2 de.inum ++ de.name

def Dirent.decode (l : List UInt8) : Dirent := ⟨Bytes.ofLE (l.take 2), l.drop 2⟩

/-- Bit `bi` of a bitmap block: `data[bi/8] & (1 << (bi % 8))`. -/
def getBit (b : Block) (bi : ℕ) : Bool := (b.get (bi / 8)).toNat.testBit (bi % 8)

/-- `data[bi/8] |= m`. -/
def setBit (b : Block) (bi : ℕ) : Block :=
  b.set (bi / 8) (UInt8.ofNat ((b.get (bi / 8)).toNat ||| 2 ^ (bi % 8)))

/-- `data[bi/8] &= ~m`. -/
def clearBit (b : Block) (bi : ℕ) : Block :=
  b.set (bi / 8) (UInt8.ofNat ((b.get (bi / 8)).toNat &&& (255 - 2 ^ (bi % 8))))

/-- Entry `j` of an indirect block, or of the `block[]` array of the log header. -/
def getWord (b : Block) (j : ℕ) : ℕ := b.getLE (4 * j) 4

def putWord (b : Block) (j v : ℕ) : Block := b.putLE (4 * j) 4 v

end Xv6
