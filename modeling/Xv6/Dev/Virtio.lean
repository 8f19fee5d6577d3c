import Xv6.Fs.Layout
import Xv6.Lib.Transition

/-!
The virtio disk driver, `virtio_disk.c`, with the device at the other end of its rings.
Any number of processes call `virtio_disk_rw`, the interrupt handler runs at any time,
and the device takes the entries of the avail ring in order and completes them in any
order. What the driver does under `vdisk_lock` between two stores that the device can
see is one step.

The machine also keeps a history: the requests in the order of their submission, how
many of them the device has taken, those it has completed in the order of completion,
and how many of these the interrupt handler has dealt with.
-/

namespace Xv6
namespace Virtio

def NUM : ℕ := 8
def VRING_DESC_F_NEXT : ℕ := 1
def VRING_DESC_F_WRITE : ℕ := 2
def VIRTIO_BLK_T_IN : ℕ := 0
def VIRTIO_BLK_T_OUT : ℕ := 1

inductive Addr where
  | null
  | op (i : ℕ)
  | data (b : ℕ)
  | status (i : ℕ)
  deriving DecidableEq, Repr

structure Desc where
  addr : Addr
  len : ℕ
  flags : ℕ
  next : ℕ
  deriving DecidableEq, Repr

structure Op where
  type : ℕ
  reserved : ℕ
  sector : ℕ
  deriving DecidableEq, Repr

/-- `struct disk`; the indices of the rings are `uint16`. -/
structure Disk where
  desc : ℕ → Desc
  availIdx : ℕ
  availRing : ℕ → ℕ
  usedIdx : ℕ
  usedRing : ℕ → ℕ
  free : ℕ → Bool
  /-- `disk.used_idx`, how far the driver has looked into the used ring. -/
  usedSeen : ℕ
  infoB : ℕ → Option ℕ
  infoStatus : ℕ → ℕ
  ops : ℕ → Op

structure Request where
  b : ℕ
  write : Bool
  d0 : ℕ
  d1 : ℕ
  d2 : ℕ
  deriving DecidableEq, Repr

/-- Where a process, or a run of the interrupt handler, is. After its submission a request
has a number in the history. -/
inductive Pc where
  | idle
  | rwAcquire (b : ℕ) (write : Bool)
  | rwAlloc (b : ℕ) (write : Bool)
  /-- Asleep on `&disk.free[0]`. -/
  | rwSleepFree (b : ℕ) (write : Bool)
  | rwFormat (r : Request)
  | rwRing (r : Request)
  | rwIdx (r : Request)
  | rwWait (r : Request) (n : ℕ)
  /-- Asleep on `b`. -/
  | rwSleep (r : Request) (n : ℕ)
  | rwReacquire (r : Request) (n : ℕ)
  | rwFree (r : Request) (n : ℕ)
  | rwRelease (b : ℕ)
  | intrAcquire
  | intrLoop
  | intrEntry
  | intrFinish (id : ℕ)
  deriving DecidableEq, Repr

/-- A chain that the device works on: its head, where its status goes, and the number of
the request. -/
structure Job where
  head : ℕ
  status : Addr
  n : ℕ
  deriving DecidableEq, Repr

/-- What the driver and the device share, with the history. -/
structure Shared where
  disk : Disk
  /-- `b->disk` and `b->blockno` -/
  bufDisk : ℕ → Bool
  blockno : ℕ → ℕ
  /-- The device: its index in the avail ring, and its chains. -/
  availSeen : ℕ
  working : List Job
  submitted : List Request
  taken : ℕ
  completed : List (ℕ × ℕ)
  handled : ℕ

structure Machine extends Shared where
  /-- The holder of `vdisk_lock`. -/
  lock : Option ℕ
  thread : ℕ → Pc

inductive Panic where
  | freeDesc1 | freeDesc2 | intrStatus
  /-- A store through a null `struct buf` pointer. -/
  | kerneltrap
  deriving DecidableEq, Repr

namespace Machine
variable (m : Machine)

def goto (p : ℕ) (pc : Pc) : Machine := { m with thread := Function.update m.thread p pc }

def release : Machine := { m with lock := none }

end Machine

/-- `wakeup(&disk.free[0])` -/
def Pc.wakeFree : Pc → Pc
  | rwSleepFree b write => rwAcquire b write
  | pc => pc

/-- `wakeup(b)` -/
def Pc.wakeBuf (b : ℕ) : Pc → Pc
  | rwSleep r n => if r.b = b then rwReacquire r n else rwSleep r n
  | pc => pc

/-! ### Descriptors -/

def allocDesc (m : Machine) : Option (ℕ × Machine) :=
  ((List.range NUM).find? fun i => m.disk.free i).map fun i =>
    (i, { m with disk := { m.disk with free := Function.update m.disk.free i false } })

def freeDesc (m : Machine) (i : ℕ) : Except Panic Machine :=
  if i ≥ NUM then
    .error .freeDesc1
  else if m.disk.free i then
    .error .freeDesc2
  else
    .ok { m with
      disk := { m.disk with
        desc := Function.update m.disk.desc i ⟨.null, 0, 0, 0⟩
        free := Function.update m.disk.free i true }
      thread := fun q => (m.thread q).wakeFree }

/-- The loop of `free_chain`. A round more than there are descriptors finds one that is
free. -/
def freeChainFrom : ℕ → Machine → ℕ → Except Panic Machine
  | 0, _, _ => .error .freeDesc2
  | fuel + 1, m, i => do
      let flag := (m.disk.desc i).flags
      let nxt := (m.disk.desc i).next
      let m ← freeDesc m i
      if flag &&& VRING_DESC_F_NEXT ≠ 0 then freeChainFrom fuel m nxt else return m

def freeChain (m : Machine) (i : ℕ) : Except Panic Machine := freeChainFrom (NUM + 1) m i

/-- The three rounds of `alloc3_desc`. -/
def alloc3Desc (m : Machine) : Except Panic (Option (ℕ × ℕ × ℕ) × Machine) :=
  match allocDesc m with
  | none => .ok (none, m)
  | some (i0, m0) =>
      match allocDesc m0 with
      | none => do
          let m ← freeDesc m0 i0
          return (none, m)
      | some (i1, m1) =>
          match allocDesc m1 with
          | none => do
              let m ← freeDesc m1 i0
              let m ← freeDesc m i1
              return (none, m)
          | some (i2, m2) => .ok (some (i0, i1, i2), m2)

/-! ### The driver -/

/-- The descriptors, the header and the status byte of a request, as `virtio_disk_rw`
formats them. -/
def Disk.format (d : Disk) (r : Request) (blockno : ℕ) : Disk :=
  { d with
    ops := Function.update d.ops r.d0 ⟨if r.write then VIRTIO_BLK_T_OUT else VIRTIO_BLK_T_IN, 0,
      blockno * (BSIZE / 512) % 2 ^ 32⟩
    desc := Function.update (Function.update (Function.update d.desc
      r.d0 ⟨.op r.d0, 16, VRING_DESC_F_NEXT, r.d1⟩)
      r.d1 ⟨.data r.b, BSIZE, (if r.write then 0 else VRING_DESC_F_WRITE) ||| VRING_DESC_F_NEXT, r.d2⟩)
      r.d2 ⟨.status r.d0, 1, VRING_DESC_F_WRITE, 0⟩
    infoStatus := Function.update d.infoStatus r.d0 0xff
    infoB := Function.update d.infoB r.d0 (some r.b) }

inductive Outcome where
  | ok (m : Machine)
  | blocked
  | panic (p : Panic)

def Outcome.ofExcept {α : Type} (x : Except Panic α) (f : α → Machine) : Outcome :=
  match x with
  | .ok a => .ok (f a)
  | .error p => .panic p

def acquire (m : Machine) (p : ℕ) (pc : Pc) : Outcome :=
  if m.lock = none then .ok { m.goto p pc with lock := some p } else .blocked

/-- One step of process `p`, or of a run of `virtio_disk_intr`. -/
def go (m : Machine) (p : ℕ) : Pc → Outcome
  | .idle => .blocked
  | .rwAcquire b write => acquire m p (.rwAlloc b write)
  | .rwAlloc b write =>
      .ofExcept (alloc3Desc m) fun x =>
        match x with
        | (some (d0, d1, d2), m) => m.goto p (.rwFormat ⟨b, write, d0, d1, d2⟩)
        | (none, m) => m.release.goto p (.rwSleepFree b write)
  | .rwSleepFree _ _ => .blocked
  | .rwFormat r =>
      .ok ({ m with
        disk := m.disk.format r (m.blockno r.b)
        bufDisk := Function.update m.bufDisk r.b true }.goto p (.rwRing r))
  | .rwRing r =>
      .ok ({ m with disk := { m.disk with
        availRing := Function.update m.disk.availRing (m.disk.availIdx % NUM) r.d0 } }.goto p
          (.rwIdx r))
  | .rwIdx r =>
      .ok ({ m with
        disk := { m.disk with availIdx := (m.disk.availIdx + 1) % 2 ^ 16 }
        submitted := m.submitted ++ [r] }.goto p (.rwWait r m.submitted.length))
  | .rwWait r n =>
      if m.bufDisk r.b then .ok (m.release.goto p (.rwSleep r n)) else .ok (m.goto p (.rwFree r n))
  | .rwSleep _ _ => .blocked
  | .rwReacquire r n => acquire m p (.rwWait r n)
  | .rwFree r _ =>
      .ofExcept (freeChain { m with disk := { m.disk with
        infoB := Function.update m.disk.infoB r.d0 none } } r.d0) fun m => m.goto p (.rwRelease r.b)
  | .rwRelease _ => .ok (m.release.goto p .idle)
  | .intrAcquire => acquire m p .intrLoop
  | .intrLoop =>
      if m.disk.usedSeen ≠ m.disk.usedIdx then .ok (m.goto p .intrEntry)
      else .ok (m.release.goto p .idle)
  | .intrEntry => .ok (m.goto p (.intrFinish (m.disk.usedRing (m.disk.usedSeen % NUM))))
  | .intrFinish id =>
      if m.disk.infoStatus id ≠ 0 then
        .panic .intrStatus
      else
        match m.disk.infoB id with
        | none => .panic .kerneltrap
        | some b =>
            .ok ({ m with
              disk := { m.disk with usedSeen := (m.disk.usedSeen + 1) % 2 ^ 16 }
              bufDisk := Function.update m.bufDisk b false
              thread := fun q => (m.thread q).wakeBuf b
              handled := m.handled + 1 }.goto p .intrLoop)

/-! ### The device -/

/-- The chain at a head, as the device reads it: header, data and status. -/
def readChain (desc : ℕ → Desc) (d0 : ℕ) : Option (Addr × Addr × Addr) :=
  let x0 := desc d0
  let x1 := desc x0.next
  let x2 := desc x1.next
  if x0.flags &&& VRING_DESC_F_NEXT ≠ 0 ∧ x1.flags &&& VRING_DESC_F_NEXT ≠ 0 ∧
      x2.flags &&& VRING_DESC_F_NEXT = 0 then
    some (x0.addr, x1.addr, x2.addr)
  else
    none

/-- The device takes the next entry of the avail ring. -/
def deviceTake (m : Machine) : Outcome :=
  if m.availSeen = m.disk.availIdx then
    .blocked
  else
    let head := m.disk.availRing (m.availSeen % NUM)
    match readChain m.disk.desc head with
    | none => .blocked
    | some (_, _, status) =>
        .ok { m with
          availSeen := (m.availSeen + 1) % 2 ^ 16
          working := m.working ++ [⟨head, status, m.taken⟩]
          taken := m.taken + 1 }

/-- The device writes `0` to a status byte. -/
def Disk.succeed (d : Disk) : Addr → Disk
  | .status i => { d with infoStatus := Function.update d.infoStatus i 0 }
  | .null | .op _ | .data _ => d

/-- The device completes one of its chains. -/
def deviceComplete (m : Machine) (i : ℕ) : Outcome :=
  match m.working[i]? with
  | none => .blocked
  | some job =>
      let d := m.disk.succeed job.status
      .ok { m with
        disk := { d with
          usedRing := Function.update d.usedRing (d.usedIdx % NUM) job.head
          usedIdx := (d.usedIdx + 1) % 2 ^ 16 }
        working := m.working.eraseIdx i
        completed := m.completed ++ [(job.n, job.head)] }

/-! ### Runs -/

inductive Choice where
  /-- `virtio_disk_rw(b, write)` -/
  | rw (b : ℕ) (write : Bool)
  | intr
  | go
  | take
  | complete (i : ℕ)
  deriving DecidableEq, Repr

def step (m : Machine) (p : ℕ) : Choice → Outcome
  | .rw b write => if m.thread p = .idle then .ok (m.goto p (.rwAcquire b write)) else .blocked
  | .intr => if m.thread p = .idle then .ok (m.goto p .intrAcquire) else .blocked
  | .go => go m p (m.thread p)
  | .take => deviceTake m
  | .complete i => deviceComplete m i

/-- The buffer that a process is at work on. -/
def Pc.buf : Pc → Option ℕ
  | rwAcquire b _ | rwAlloc b _ | rwSleepFree b _ | rwRelease b => some b
  | rwFormat r | rwRing r | rwIdx r | rwWait r _ | rwSleep r _ | rwReacquire r _ | rwFree r _ =>
      some r.b
  | idle | intrAcquire | intrLoop | intrEntry | intrFinish _ => none

/-- The caller of `virtio_disk_rw` has locked its buffer. -/
def Enabled (m : Machine) : Choice → Prop
  | .rw b _ => ∀ q, (m.thread q).buf ≠ some b
  | .intr | .go | .take | .complete _ => True

structure Initial (m : Machine) : Prop where
  free : ∀ i, i < NUM → m.disk.free i = true
  availIdx : m.disk.availIdx = 0
  usedIdx : m.disk.usedIdx = 0
  usedSeen : m.disk.usedSeen = 0
  lock : m.lock = none
  thread : ∀ p, m.thread p = .idle
  availSeen : m.availSeen = 0
  working : m.working = []
  submitted : m.submitted = []
  taken : m.taken = 0
  completed : m.completed = []
  handled : m.handled = 0

def Step (m : Machine) (e : ℕ × Choice) (m' : Machine) : Prop :=
  Enabled m e.2 ∧ step m e.1 e.2 = .ok m'

def Reachable (m : Machine) : Prop := Transition.Reachable Initial Step m

end Virtio
end Xv6
