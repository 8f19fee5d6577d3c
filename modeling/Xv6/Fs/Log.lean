import Xv6.Fs.Bio

/-!
Redo log, `log.c`. The header block holds `n` in word `0` and `block[i]` in word
`i + 1`. Words past `n` keep what earlier transactions left there.
-/

namespace Xv6

namespace Log

/-- The condition under which `begin_op` goes to sleep. -/
def mustWait (l : Log) : Bool :=
  l.committing || decide ((l.lh.length : ℤ) + (l.outstanding + 1) * MAXOPBLOCKS > LOGSIZE)

/-- `lh.n` is at one of the two limits `log_write` tests. -/
def full (l : Log) : Bool := decide (l.lh.length ≥ LOGSIZE ∨ l.lh.length ≥ l.size - 1)

/-- The locked part of `log_write`: absorption, or a new entry at the end. -/
def record (l : Log) (blockno : ℕ) : Log :=
  if blockno ∈ l.lh then l else { l with lh := l.lh ++ [blockno] }

end Log

def Store.withLog (s : Store) (l : Log) : Store := { s with log := l }

def modifyLog (f : Log → Log) : B Unit := modify fun s => s.withLog (f s.log)

def headerBlocks (b : Block) : List ℕ := (List.range (getWord b 0)).map fun i => getWord b (i + 1)

/-- `hb->block[i] = log.lh.block[i]` for the entries from `i` on. -/
def putEntries (b : Block) (i : ℕ) : List ℕ → Block
  | [] => b
  | v :: vs => putEntries (putWord b (i + 1) v) (i + 1) vs

def putHeader (b : Block) (lh : List ℕ) : Block := putEntries (putWord b 0 lh.length) 0 lh

/-- `install_trans` from entry `tail` of the header on. -/
def installTransFrom (recovering : Bool) (tail : ℕ) : List ℕ → B Unit
  | [] => return
  | blockno :: rest => do
      let l := (← get).log
      let lbuf ← bread l.dev (l.start + tail + 1)
      let dbuf ← bread l.dev blockno
      setData dbuf (← getBuf lbuf).data
      bwrite dbuf
      if !recovering then bunpin dbuf
      brelse lbuf
      brelse dbuf
      installTransFrom recovering (tail + 1) rest

def installTrans (recovering : Bool) : B Unit := do
  installTransFrom recovering 0 (← get).log.lh

def readHead : B Unit := do
  let l := (← get).log
  let buf ← bread l.dev l.start
  let b ← getBuf buf
  modifyLog fun l => { l with lh := headerBlocks b.data }
  brelse buf

def writeHead : B Unit := do
  let l := (← get).log
  let buf ← bread l.dev l.start
  setData buf (putHeader (← getBuf buf).data l.lh)
  bwrite buf
  brelse buf

def recoverFromLog : B Unit := do
  readHead
  installTrans true
  modifyLog fun l => { l with lh := [] }
  writeHead

def initlog (dev : ℕ) (sb : Superblock) : B Unit := do
  modifyLog fun l => { l with start := sb.logstart, size := sb.nlog, dev := dev }
  recoverFromLog

def beginOp : B Unit := do
  if (← get).log.mustWait then sleepForever
  modifyLog fun l => { l with outstanding := l.outstanding + 1 }

/-- `write_log` from entry `tail` of the header on. -/
def writeLogFrom (tail : ℕ) : List ℕ → B Unit
  | [] => return
  | blockno :: rest => do
      let l := (← get).log
      let toBuf ← bread l.dev (l.start + tail + 1)
      let fromBuf ← bread l.dev blockno
      setData toBuf (← getBuf fromBuf).data
      bwrite toBuf
      brelse fromBuf
      brelse toBuf
      writeLogFrom (tail + 1) rest

def writeLog : B Unit := do
  writeLogFrom 0 (← get).log.lh

def commit : B Unit := do
  if (← get).log.lh.length > 0 then
    writeLog
    writeHead
    installTrans false
    modifyLog fun l => { l with lh := [] }
    writeHead

def endOp : B Unit := do
  modifyLog fun l => { l with outstanding := l.outstanding - 1 }
  if (← get).log.committing then panic .logCommitting
  if (← get).log.outstanding = 0 then
    modifyLog fun l => { l with committing := true }
    commit
    modifyLog fun l => { l with committing := false }

def logWrite (i : ℕ) : B Unit := do
  let l := (← get).log
  let b ← getBuf i
  if l.full then panic .tooBigTransaction
  if l.outstanding < 1 then panic .logWriteOutsideTrans
  if b.blockno ∉ l.lh then bpin i
  modifyLog fun l => l.record b.blockno

end Xv6
