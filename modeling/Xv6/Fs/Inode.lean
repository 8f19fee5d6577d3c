import Xv6.Fs.Log
import Xv6.Fs.UserCopy

/-!
Blocks and inodes, `fs.c`: the block allocator, the inode table, and the contents
of inodes. A `struct inode *` is an index into the inode table.
-/

namespace Xv6

/-- The first clear bit of a bitmap block from `bi` on, among `n` bits. -/
def firstClear (data : Block) : ℕ → ℕ → Option ℕ
  | _, 0 => none
  | bi, n + 1 => if getBit data bi then firstClear data (bi + 1) n else some bi

def bzero (dev bno : ℕ) : K Unit := do
  let bp ← bread dev bno
  setData bp .empty
  logWrite bp
  brelse bp

/-- `balloc` over the first blocks `b` of the bitmap blocks still to look at. -/
def ballocFrom (dev : ℕ) : List ℕ → K ℕ
  | [] => panic .ballocOutOfBlocks
  | b :: bs => do
      let sb := (← get).sb
      let bp ← bread dev (sb.BBLOCK b)
      let data := (← getBuf bp).data
      match firstClear data 0 (min BPB (sb.size - b)) with
      | some bi =>
          setData bp (setBit data bi)
          logWrite bp
          brelse bp
          bzero dev (b + bi)
          return b + bi
      | none =>
          brelse bp
          ballocFrom dev bs

def balloc (dev : ℕ) : K ℕ := do
  ballocFrom dev ((List.range (((← get).sb.size + BPB - 1) / BPB)).map (· * BPB))

def bfree (dev b : ℕ) : K Unit := do
  let bp ← bread dev ((← get).sb.BBLOCK b)
  let data := (← getBuf bp).data
  if !getBit data (b % BPB) then panic .freeingFreeBlock
  setData bp (clearBit data (b % BPB))
  logWrite bp
  brelse bp

def modifyInode (ip : ℕ) (f : Inode → Inode) : K Unit :=
  modify fun s => { s with itable := s.itable.set ip (f (s.itable.get ip)) }

def getInode (ip : ℕ) : K Inode := return (← get).itable.get ip

def iget (dev inum : ℕ) : K ℕ := do
  let t := (← get).itable
  match (List.range NINODE).find? fun i =>
      0 < (t.get i).ref ∧ (t.get i).dev = dev ∧ (t.get i).inum = inum with
  | some i =>
      modifyInode i fun n => { n with ref := n.ref + 1 }
      return i
  | none =>
      match (List.range NINODE).find? fun i => (t.get i).ref = 0 with
      | some i =>
          modifyInode i fun n => { n with dev := dev, inum := inum, ref := 1, valid := false }
          return i
      | none => panic .igetNoInodes

def idup (ip : ℕ) : K ℕ := do
  modifyInode ip fun n => { n with ref := n.ref + 1 }
  return ip

/-- `ialloc` looking at `n` inode numbers from `inum` on. -/
def iallocFrom (dev : ℕ) (type : ℤ) (inum : ℕ) : ℕ → K ℕ
  | 0 => panic .iallocNoInodes
  | n + 1 => do
      let bp ← bread dev ((← get).sb.IBLOCK inum)
      let data := (← getBuf bp).data
      if (getDinode data (inum % IPB)).type = 0 then
        setData bp (putDinode data (inum % IPB) { zeroDinode with type := type })
        logWrite bp
        brelse bp
        iget dev inum
      else
        brelse bp
        iallocFrom dev type (inum + 1) n

def ialloc (dev : ℕ) (type : ℤ) : K ℕ := do
  iallocFrom dev type 1 ((← get).sb.ninodes - 1)

def iupdate (ip : ℕ) : K Unit := do
  let n ← getInode ip
  let bp ← bread n.dev ((← get).sb.IBLOCK n.inum)
  setData bp (putDinode (← getBuf bp).data (n.inum % IPB) n.toDinode)
  logWrite bp
  brelse bp

def ilock (ip : ℕ) : K Unit := do
  if (← getInode ip).ref < 1 then panic .ilock
  if (← getInode ip).locked then sleepForever
  modifyInode ip fun n => { n with locked := true }
  let n ← getInode ip
  if !n.valid then
    let bp ← bread n.dev ((← get).sb.IBLOCK n.inum)
    let dip := getDinode (← getBuf bp).data (n.inum % IPB)
    modifyInode ip fun n => { n with toDinode := dip }
    brelse bp
    modifyInode ip fun n => { n with valid := true }
    if dip.type = 0 then panic .ilockNoType

def iunlock (ip : ℕ) : K Unit := do
  let n ← getInode ip
  if !n.locked || n.ref < 1 then panic .iunlock
  modifyInode ip fun n => { n with locked := false }

/-- The indirect block of `ip`, allocated if there is none. -/
def bmapIndirect (ip : ℕ) : K ℕ := do
  let n ← getInode ip
  if n.addrs.getD NDIRECT 0 = 0 then
    let addr ← balloc n.dev
    modifyInode ip fun n => { n with addrs := n.addrs.set NDIRECT addr }
    return addr
  else
    return n.addrs.getD NDIRECT 0

def bmap (ip bn : ℕ) : K ℕ := do
  let n ← getInode ip
  if bn < NDIRECT then
    if n.addrs.getD bn 0 = 0 then
      let addr ← balloc n.dev
      modifyInode ip fun n => { n with addrs := n.addrs.set bn addr }
      return addr
    else
      return n.addrs.getD bn 0
  else if bn - NDIRECT < NINDIRECT then
    let ind ← bmapIndirect ip
    let bp ← bread n.dev ind
    let addr := getWord (← getBuf bp).data (bn - NDIRECT)
    if addr = 0 then
      let addr ← balloc n.dev
      setData bp (putWord (← getBuf bp).data (bn - NDIRECT) addr)
      logWrite bp
      brelse bp
      return addr
    else
      brelse bp
      return addr
  else
    panic .bmapOutOfRange

/-- `for(i = 0; i < NDIRECT; i++)` of `itrunc`, from `i` on for `n` rounds. -/
def itruncDirect (ip i : ℕ) : ℕ → K Unit
  | 0 => return
  | n + 1 => do
      let d ← getInode ip
      let addr := d.addrs.getD i 0
      if addr ≠ 0 then
        bfree d.dev addr
        modifyInode ip fun d => { d with addrs := d.addrs.set i 0 }
      itruncDirect ip (i + 1) n

/-- `for(j = 0; j < NINDIRECT; j++)` of `itrunc`, from `j` on for `n` rounds. -/
def itruncIndirect (dev bp j : ℕ) : ℕ → K Unit
  | 0 => return
  | n + 1 => do
      let addr := getWord (← getBuf bp).data j
      if addr ≠ 0 then bfree dev addr
      itruncIndirect dev bp (j + 1) n

def itrunc (ip : ℕ) : K Unit := do
  itruncDirect ip 0 NDIRECT
  let d ← getInode ip
  let addr := d.addrs.getD NDIRECT 0
  if addr ≠ 0 then
    let bp ← bread d.dev addr
    itruncIndirect d.dev bp 0 NINDIRECT
    brelse bp
    bfree d.dev addr
    modifyInode ip fun d => { d with addrs := d.addrs.set NDIRECT 0 }
  modifyInode ip fun d => { d with size := 0 }
  iupdate ip

def iput (ip : ℕ) : K Unit := do
  let n ← getInode ip
  if n.ref = 1 ∧ n.valid ∧ n.nlink = 0 then
    if n.locked then sleepForever
    modifyInode ip fun n => { n with locked := true }
    itrunc ip
    modifyInode ip fun n => { n with type := 0 }
    iupdate ip
    modifyInode ip fun n => { n with valid := false }
    modifyInode ip fun n => { n with locked := false }
  modifyInode ip fun n => { n with ref := n.ref - 1 }

def iunlockput (ip : ℕ) : K Unit := do
  iunlock ip
  iput ip

/-- The loop of `readi`. Each round delivers at least one byte, so `n` rounds are enough.
`none` stands for the `-1` of a failed copy. -/
def readiLoop (ip : ℕ) : ℕ → ℕ → ℕ → ℕ → Dst → K (Option ℕ × Dst)
  | 0, tot, _, _, dst => return (some tot, dst)
  | fuel + 1, tot, off, n, dst => do
      if tot < n then
        let bp ← bread (← getInode ip).dev (← bmap ip (off / BSIZE))
        let m := min (n - tot) (BSIZE - off % BSIZE)
        match ← eitherCopyout dst ((← getBuf bp).data.getBytes (off % BSIZE) m) with
        | none =>
            brelse bp
            return (none, dst)
        | some dst' =>
            brelse bp
            readiLoop ip fuel (tot + m) (off + m) n dst'
      else
        return (some tot, dst)

/-- `off` and `n` are 32-bit; the sum `off + n` wraps. -/
def readi (ip : ℕ) (dst : Dst) (off n : ℕ) : K (Option ℕ × Dst) := do
  let size := (← getInode ip).size
  if off > size ∨ (off + n) % 2 ^ 32 < off then
    return (some 0, dst)
  else
    let n := if off + n > size then size - off else n
    readiLoop ip n 0 off n dst

/-- The loop of `writei`: the bytes written and the offset reached. -/
def writeiLoop (ip : ℕ) : ℕ → ℕ → ℕ → ℕ → Src → K (ℕ × ℕ)
  | 0, tot, off, _, _ => return (tot, off)
  | fuel + 1, tot, off, n, src => do
      if tot < n then
        let bp ← bread (← getInode ip).dev (← bmap ip (off / BSIZE))
        let m := min (n - tot) (BSIZE - off % BSIZE)
        let (data, ok) := eitherCopyin (← get).umem (← getBuf bp).data (off % BSIZE) src m
        setData bp data
        if ok then
          logWrite bp
          brelse bp
          writeiLoop ip fuel (tot + m) (off + m) n (src.advance m)
        else
          brelse bp
          return (tot, off)
      else
        return (tot, off)

/-- `none` stands for the `-1` of a refused write. -/
def writei (ip : ℕ) (src : Src) (off n : ℕ) : K (Option ℕ) := do
  if off > (← getInode ip).size ∨ (off + n) % 2 ^ 32 < off then
    return none
  else if off + n > MAXFILE * BSIZE then
    return none
  else
    let (tot, off) ← writeiLoop ip n 0 off n src
    if off > (← getInode ip).size then
      modifyInode ip fun d => { d with size := off }
    iupdate ip
    return some tot

end Xv6
