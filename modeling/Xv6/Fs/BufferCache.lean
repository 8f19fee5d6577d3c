import Xv6.Lib.Transition
import Xv6.Fs.BioSpec

/-!
The buffer cache under any number of callers. A call of `bread` looks for a buffer under
`bcache.lock`, waits for the buffer's lock, and reads the disk if the buffer is new; then
its caller changes the data and hands them to `bwrite` or `log_write`, and `brelse` gives
the lock back and drops the reference. Between these steps others make theirs. A changed
buffer is written or logged before it is released, and `bunpin` follows the `bwrite` of
the buffer, as in `install_trans`.
-/

namespace Xv6
open Hoare

/-- The part of `bget` under `bcache.lock`. -/
def bgetScan (dev blockno : ℕ) : B ℕ := do
  let s ← get
  match s.lru.find? fun i => (s.bufs.get i).dev = dev ∧ (s.bufs.get i).blockno = blockno with
  | some i =>
      modifyBuf i fun b => { b with refcnt := b.refcnt + 1 }
      return i
  | none =>
      match s.lru.reverse.find? fun i => (s.bufs.get i).refcnt = 0 with
      | some i =>
          modifyBuf i fun b =>
            { b with dev := dev, blockno := blockno, valid := false, refcnt := 1 }
          return i
      | none => panic .bgetNoBuffers

/-- `bread` with the buffer locked. -/
def breadFill (i : ℕ) : B Unit := do
  if !(← getBuf i).valid then
    virtioDiskRw i false
    modifyBuf i fun b => { b with valid := true }

/-- `brelse` up to `releasesleep`. -/
def brelseUnlock (i : ℕ) : B Unit := do
  if !(← getBuf i).locked then panic .brelse
  modifyBuf i fun b => { b with locked := false }

/-- The part of `brelse` under `bcache.lock`. -/
def brelseDrop (i : ℕ) : B Unit := do
  modifyBuf i fun b => { b with refcnt := b.refcnt - 1 }
  if (← getBuf i).refcnt = 0 then
    modify fun s => { s with lru := i :: s.lru.erase i }

theorem bget_eq_steps (dev blockno : ℕ) : bget dev blockno = (do
    let i ← bgetScan dev blockno
    acquireBuf i
    return i) := by
  simp only [bget, bgetScan, bind_assoc]
  congr 1
  funext s
  cases s.lru.find? fun i =>
      decide ((s.bufs.get i).dev = dev ∧ (s.bufs.get i).blockno = blockno) with
  | some i => simp only [bind_assoc, pure_bind]
  | none =>
    cases s.lru.reverse.find? fun i => decide ((s.bufs.get i).refcnt = 0) with
    | some i => simp only [bind_assoc, pure_bind]
    | none => rfl

/-- Without a step of another caller in between, the parts make up `bread`. -/
theorem bread_eq_steps (dev blockno : ℕ) : bread dev blockno = (do
    let i ← bgetScan dev blockno
    acquireBuf i
    breadFill i
    return i) := by
  simp only [bread, breadFill, bget_eq_steps, bind_assoc, pure_bind]
  congr 1
  funext i
  congr 1
  funext _
  congr 1
  funext b
  cases b.valid <;> simp

theorem brelse_eq_steps (i : ℕ) : brelse i = (do
    brelseUnlock i
    brelseDrop i) := by
  simp only [brelse, brelseUnlock, brelseDrop, bind_assoc]
  congr 1
  funext b
  cases b.locked with
  | false => rfl
  | true =>
    simp only [Bool.not_true, Bool.false_eq_true, if_false, ← bind_assoc]
    congr 2
    funext s
    exact (Post.eq_ok (by simp)).symm

section
variable {s : Store} {i : ℕ}

theorem bgetScan_hit {dev b : ℕ}
    (hf : s.lru.find? (fun j => decide ((s.bufs.get j).dev = dev ∧ (s.bufs.get j).blockno = b)) =
      some i) : bgetScan dev b s =
    .ok i (s.setBuf i { s.bufs.get i with refcnt := (s.bufs.get i).refcnt + 1 }) :=
  Post.eq_ok (by
    simp only [bgetScan, post_bind, post_get, hf, post_modifyBuf, post_pure, and_self])

theorem bgetScan_recycle {dev b : ℕ}
    (hf : s.lru.find? (fun j => decide ((s.bufs.get j).dev = dev ∧ (s.bufs.get j).blockno = b)) =
      none)
    (hz : s.lru.reverse.find? (fun j => decide ((s.bufs.get j).refcnt = 0)) = some i) :
    bgetScan dev b s = .ok i (s.setBuf i
      { s.bufs.get i with dev := dev, blockno := b, valid := false, refcnt := 1 }) :=
  Post.eq_ok (by
    simp only [bgetScan, post_bind, post_get, hf, hz, post_modifyBuf, post_pure, and_self])

theorem bgetScan_full {dev b : ℕ}
    (hf : s.lru.find? (fun j => decide ((s.bufs.get j).dev = dev ∧ (s.bufs.get j).blockno = b)) =
      none)
    (hz : s.lru.reverse.find? (fun j => decide ((s.bufs.get j).refcnt = 0)) = none) :
    bgetScan dev b s = .error (.panic .bgetNoBuffers) s := by
  unfold bgetScan
  rw [run_bind (m := get) rfl, hf, hz]
  rfl

theorem acquireBuf_run (hl : (s.bufs.get i).locked = false) :
    acquireBuf i s = .ok () (s.setBuf i { s.bufs.get i with locked := true }) :=
  Post.eq_ok (by simp [acquireBuf, hl])

theorem breadFill_run (hv : (s.bufs.get i).valid = false) :
    breadFill i s = .ok () (s.setBuf i { s.bufs.get i with
      data := s.disk.get (s.bufs.get i).blockno, valid := true }) :=
  Post.eq_ok (by simp [breadFill, virtioDiskRw, setData, hv])

theorem bwrite_run (hl : (s.bufs.get i).locked = true) :
    bwrite i s = .ok () { s with
      disk := s.disk.set (s.bufs.get i).blockno (s.bufs.get i).data
      writes := ((s.bufs.get i).blockno, (s.bufs.get i).data) :: s.writes } :=
  Post.eq_ok (by simp [bwrite, virtioDiskRw, hl])

theorem brelseUnlock_run (hl : (s.bufs.get i).locked = true) :
    brelseUnlock i s = .ok () (s.setBuf i { s.bufs.get i with locked := false }) :=
  Post.eq_ok (by simp [brelseUnlock, hl])

theorem brelseDrop_run : brelseDrop i s =
    .ok () { s.setBuf i { s.bufs.get i with refcnt := (s.bufs.get i).refcnt - 1 } with
      lru := if (s.bufs.get i).refcnt - 1 = 0 then i :: s.lru.erase i else s.lru } := by
  apply Post.eq_ok
  by_cases h0 : (s.bufs.get i).refcnt - 1 = 0
  · simp [brelseDrop, h0]
  · simp [brelseDrop, h0]
    rfl

end

namespace BufferCache

/-- How far a call of `bread` and what its caller does with the buffer has got. -/
inductive Phase where
  /-- For the lock of the buffer. -/
  | waiting
  | filling
  /-- `bread` has returned. The data may be changed and neither written nor logged since
  (`dirty`), or be those that `bwrite` has last written (`synced`). -/
  | held (dirty synced : Bool)
  /-- In `brelse`, with the lock given back. -/
  | leaving
  deriving DecidableEq, Repr

structure Call where
  buf : ℕ
  block : ℕ
  phase : Phase
  deriving DecidableEq, Repr

structure Machine where
  store : Store
  calls : ℕ → Option Call
  /-- The blocks in the log, `log.lh`. -/
  lh : List ℕ
  /-- What was last given to `bwrite` or `log_write` for a block. -/
  written : ℕ → Block

namespace Machine
variable (m : Machine)

def buf (i : ℕ) : Buf := m.store.bufs.get i

def after (t : ℕ) (o : Option Call) (s : Store) : Machine :=
  { m with store := s, calls := Function.update m.calls t o }

/-- The data of buffer `i` count as written to block `b`. -/
def record (i b : ℕ) : Machine :=
  { m with written := Function.update m.written b (m.buf i).data }

end Machine

inductive Op where
  /-- A new call `t` of `bread` for block `b`. -/
  | bread (t b : ℕ)
  | acquire (t : ℕ) | fill (t : ℕ)
  | modify (t : ℕ) (data : Block)
  | bwrite (t : ℕ) | logWrite (t : ℕ) | bunpin (t : ℕ)
  | unlock (t : ℕ) | drop (t : ℕ)
  deriving DecidableEq, Repr

def result {α : Type} (x : B α) (s : Store) (f : α → Store → Machine) : Except Fault Machine :=
  match x s with
  | .ok a s' => .ok (f a s')
  | .error e _ => .error e

/-- One step on device `dev`. Without a value the step is not to be taken: call `t` is
elsewhere, or waits, or would break the rules for a changed or a pinned buffer. -/
def step (dev : ℕ) (m : Machine) : Op → Option (Except Fault Machine)
  | .bread t b =>
      match m.calls t with
      | none => some (result (bgetScan dev b) m.store fun i => m.after t (some ⟨i, b, .waiting⟩))
      | some _ => none
  | .acquire t =>
      match m.calls t with
      | some ⟨i, b, .waiting⟩ =>
          if (m.buf i).locked then none
          else some (result (acquireBuf i) m.store fun _ => m.after t
            (some ⟨i, b, if (m.buf i).valid then .held false false else .filling⟩))
      | _ => none
  | .fill t =>
      match m.calls t with
      | some ⟨i, b, .filling⟩ =>
          some (result (breadFill i) m.store fun _ => m.after t (some ⟨i, b, .held false false⟩))
      | _ => none
  | .modify t data =>
      match m.calls t with
      | some ⟨i, b, .held _ _⟩ =>
          some (result (setData i data) m.store fun _ => m.after t (some ⟨i, b, .held true false⟩))
      | _ => none
  | .bwrite t =>
      match m.calls t with
      | some ⟨i, b, .held _ _⟩ =>
          some (result (Xv6.bwrite i) m.store fun _ =>
            (m.record i b).after t (some ⟨i, b, .held false true⟩))
      | _ => none
  | .logWrite t =>
      match m.calls t with
      | some ⟨i, b, .held _ synced⟩ =>
          some (result (if b ∉ m.lh then bpin i else pure ()) m.store fun _ =>
            { m.record i b with lh := if b ∈ m.lh then m.lh else m.lh ++ [b] }.after t
              (some ⟨i, b, .held false synced⟩))
      | _ => none
  | .bunpin t =>
      match m.calls t with
      | some ⟨i, b, .held dirty true⟩ =>
          if b ∈ m.lh then
            some (result (Xv6.bunpin i) m.store fun _ =>
              { m with lh := m.lh.erase b }.after t (some ⟨i, b, .held dirty true⟩))
          else none
      | _ => none
  | .unlock t =>
      match m.calls t with
      | some ⟨i, b, .held false _⟩ =>
          some (result (brelseUnlock i) m.store fun _ => m.after t (some ⟨i, b, .leaving⟩))
      | _ => none
  | .drop t =>
      match m.calls t with
      | some ⟨i, _, .leaving⟩ => some (result (brelseDrop i) m.store fun _ => m.after t none)
      | _ => none

structure Initial (m : Machine) : Prop where
  bufs : m.store.bufs = .empty
  lru : m.store.lru = binitLru
  calls : ∀ t, m.calls t = none
  lh : m.lh = []
  written : ∀ b, m.written b = m.store.disk.get b

def Reachable (dev : ℕ) (m : Machine) : Prop :=
  Transition.Reachable Initial (fun m op m' => step dev m op = some (.ok m')) m

def exec (dev : ℕ) (m : Machine) (ops : List Op) : Option Machine :=
  Transition.exec (fun m op => (step dev m op).bind Except.toOption) m ops

theorem reachable_exec {dev : ℕ} {m m' : Machine} {ops : List Op} (h : Reachable dev m)
    (hm : exec dev m ops = some m') : Reachable dev m' := by
  refine Transition.Reachable.exec (fun s op t hs => ?_) h hm
  obtain ⟨x, hx, ht⟩ := Option.bind_eq_some_iff.1 hs
  cases x with
  | error e => cases ht
  | ok u =>
    cases ht
    exact hx

end BufferCache
end Xv6
