import Xv6.Fs.State

/-!
Buffer cache, `bio.c`. A `struct buf *` is an index into `bufs`; the doubly linked
list through `head` is the list `lru` of these indices in `next` order.
-/

namespace Xv6

def Store.setBuf (s : Store) (i : ℕ) (x : Buf) : Store := { s with bufs := s.bufs.set i x }

def modifyBuf (i : ℕ) (f : Buf → Buf) : B Unit := modify fun s => s.setBuf i (f (s.bufs.get i))

def getBuf (i : ℕ) : B Buf := return (← get).bufs.get i

/-- `b->data = ...` on a buffer the caller holds. -/
def setData (i : ℕ) (data : Block) : B Unit := modifyBuf i fun b => { b with data := data }

def acquireBuf (i : ℕ) : B Unit := do
  if (← getBuf i).locked then sleepForever
  modifyBuf i fun b => { b with locked := true }

def virtioDiskRw (i : ℕ) (write : Bool) : B Unit := do
  let b ← getBuf i
  if write then
    modify fun s => { s with
      disk := s.disk.set b.blockno b.data, writes := (b.blockno, b.data) :: s.writes }
  else
    setData i ((← get).disk.get b.blockno)

def bget (dev blockno : ℕ) : B ℕ := do
  let s ← get
  match s.lru.find? fun i => (s.bufs.get i).dev = dev ∧ (s.bufs.get i).blockno = blockno with
  | some i =>
      modifyBuf i fun b => { b with refcnt := b.refcnt + 1 }
      acquireBuf i
      return i
  | none =>
      match s.lru.reverse.find? fun i => (s.bufs.get i).refcnt = 0 with
      | some i =>
          modifyBuf i fun b =>
            { b with dev := dev, blockno := blockno, valid := false, refcnt := 1 }
          acquireBuf i
          return i
      | none => panic .bgetNoBuffers

def bread (dev blockno : ℕ) : B ℕ := do
  let i ← bget dev blockno
  if !(← getBuf i).valid then
    virtioDiskRw i false
    modifyBuf i fun b => { b with valid := true }
  return i

def bwrite (i : ℕ) : B Unit := do
  if !(← getBuf i).locked then panic .bwrite
  virtioDiskRw i true

def brelse (i : ℕ) : B Unit := do
  if !(← getBuf i).locked then panic .brelse
  modifyBuf i fun b => { b with locked := false, refcnt := b.refcnt - 1 }
  if (← getBuf i).refcnt = 0 then
    modify fun s => { s with lru := i :: s.lru.erase i }

def bpin (i : ℕ) : B Unit := modifyBuf i fun b => { b with refcnt := b.refcnt + 1 }

def bunpin (i : ℕ) : B Unit := modifyBuf i fun b => { b with refcnt := b.refcnt - 1 }

/-- `binit`: every buffer is put right after `head`, so the last one comes first. -/
def binitLru : List ℕ := (List.range NBUF).reverse

end Xv6
