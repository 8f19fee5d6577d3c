import Xv6.Lib.Ring
import Xv6.Lib.Transition

/-!
`pipewrite`, `piperead` and `pipeclose` of `pipe.c`, for any number of processes on one
pipe. The loops run one round at a time under the pipe's lock, and a process that sleeps
gives the lock up between two bytes. The machine also keeps the history of the pipe: the
bytes stored by writers and the bytes delivered to readers.
-/

namespace Xv6
namespace PipeFifo

open RingBuffer

def PIPESIZE : ℕ := 512

/-- The fields of `struct pipe` under its lock; the counters are `uint`. -/
structure Pipe where
  data : ℕ → UInt8
  nread : ℕ
  nwrite : ℕ
  readopen : Bool
  writeopen : Bool

namespace Pipe
variable (pi : Pipe)

/-- `pi->data[pi->nwrite++ % PIPESIZE] = ch` -/
def put (ch : UInt8) : Pipe :=
  { pi with
    data := Function.update pi.data (pi.nwrite % PIPESIZE) ch
    nwrite := (pi.nwrite + 1) % 2 ^ 32 }

/-- `pi->data[pi->nread % PIPESIZE]` -/
def front : UInt8 := pi.data (pi.nread % PIPESIZE)

def advance : Pipe := { pi with nread := (pi.nread + 1) % 2 ^ 32 }

def isOpen (writable : Bool) : Bool := if writable then pi.writeopen else pi.readopen

def close (writable : Bool) : Pipe :=
  if writable then { pi with writeopen := false } else { pi with readopen := false }

/-- `nwrite - nread` as a `uint`. -/
def count : ℕ := RingBuffer.count (2 ^ 32) pi.nread pi.nwrite

/-- The bytes in the buffer, oldest first. -/
def contents : List UInt8 :=
  RingBuffer.contents (2 ^ 32) PIPESIZE pi.data pi.nread pi.nwrite

end Pipe

inductive Chan where
  | nread | nwrite
  deriving DecidableEq, Repr

/-- Where a process is. `src i` is the byte at `addr + i` of a writer, if that address is
mapped, and `dst i` says whether `addr + i` of a reader is. -/
inductive Pc where
  | idle
  | writeAcquire (src : ℕ → Option UInt8) (n : ℤ) (i : ℕ)
  | writeLoop (src : ℕ → Option UInt8) (n : ℤ) (i : ℕ)
  | writeSleep (src : ℕ → Option UInt8) (n : ℤ) (i : ℕ)
  /-- About to return `i`. -/
  | writeDone (i : ℕ)
  | readAcquire (dst : ℕ → Bool) (n : ℤ)
  | readTest (dst : ℕ → Bool) (n : ℤ)
  | readSleep (dst : ℕ → Bool) (n : ℤ)
  | readLoop (dst : ℕ → Bool) (n : ℤ) (i : ℕ)
  /-- About to return `i` from a read of `n` bytes. -/
  | readDone (n : ℤ) (i : ℕ)
  /-- About to return `-1`, from `pipewrite` or from `piperead`. -/
  | fail (writable : Bool)
  | closeAcquire (writable : Bool)
  | closeClear (writable : Bool)
  | closeRelease

namespace Pc

def wake (c : Chan) : Pc → Pc
  | writeSleep src n i => if c = .nwrite then writeAcquire src n i else writeSleep src n i
  | readSleep dst n => if c = .nread then readAcquire dst n else readSleep dst n
  | pc => pc

def locked : Pc → Bool
  | writeLoop _ _ _ | writeDone _ | readTest _ _ | readLoop _ _ _ | readDone _ _ | fail _
  | closeClear _ | closeRelease => true
  | idle | writeAcquire _ _ _ | writeSleep _ _ _ | readAcquire _ _ | readSleep _ _
  | closeAcquire _ => false

/-- The end that a process reads or writes. -/
def uses : Pc → Option Bool
  | writeAcquire _ _ _ | writeLoop _ _ _ | writeSleep _ _ _ | writeDone _ => some true
  | readAcquire _ _ | readTest _ _ | readSleep _ _ | readLoop _ _ _ | readDone _ _ => some false
  | fail writable => some writable
  | idle | closeAcquire _ | closeClear _ | closeRelease => none

/-- The end that a process is about to close. -/
def closes : Pc → Option Bool
  | closeAcquire writable | closeClear writable => some writable
  | idle | writeAcquire _ _ _ | writeLoop _ _ _ | writeSleep _ _ _ | writeDone _ | readAcquire _ _
  | readTest _ _ | readSleep _ _ | readLoop _ _ _ | readDone _ _ | fail _ | closeRelease => none

end Pc

structure Machine where
  pipe : Pipe
  /-- The process that holds the pipe's lock. -/
  lock : Option ℕ
  thread : ℕ → Pc
  killed : ℕ → Bool
  /-- Whether the file of an end has references. -/
  ref : Bool → Bool
  /-- The page of the pipe has been given back. -/
  freed : Bool
  stored : List UInt8
  delivered : List UInt8

namespace Machine
variable (m : Machine)

def goto (p : ℕ) (pc : Pc) : Machine := { m with thread := Function.update m.thread p pc }

def acquire (p : ℕ) (pc : Pc) : Option Machine :=
  if m.lock = none then some { m.goto p pc with lock := some p } else none

def release : Machine := { m with lock := none }

def wakeup (c : Chan) : Machine := { m with thread := fun q => (m.thread q).wake c }

end Machine

/-- One round of the code of process `p`. -/
def go (m : Machine) (p : ℕ) : Pc → Option Machine
  | .idle => none
  | .writeAcquire src n i => m.acquire p (.writeLoop src n i)
  | .writeLoop src n i =>
      if (i : ℤ) < n then
        if m.pipe.readopen = false ∨ m.killed p = true then
          some (m.goto p (.fail true))
        else if m.pipe.nwrite = (m.pipe.nread + PIPESIZE) % 2 ^ 32 then
          some ((m.wakeup .nread).release.goto p (.writeSleep src n i))
        else
          match src i with
          | none => some (m.goto p (.writeDone i))
          | some ch => some ({ m with pipe := m.pipe.put ch, stored := m.stored ++ [ch] }.goto p
              (.writeLoop src n (i + 1)))
      else
        some (m.goto p (.writeDone i))
  | .writeSleep _ _ _ => none
  | .writeDone _ => some ((m.wakeup .nread).release.goto p .idle)
  | .readAcquire dst n => m.acquire p (.readTest dst n)
  | .readTest dst n =>
      if m.pipe.nread = m.pipe.nwrite ∧ m.pipe.writeopen = true then
        if m.killed p = true then some (m.goto p (.fail false))
        else some (m.release.goto p (.readSleep dst n))
      else
        some (m.goto p (.readLoop dst n 0))
  | .readSleep _ _ => none
  | .readLoop dst n i =>
      if (i : ℤ) < n then
        if m.pipe.nread = m.pipe.nwrite then
          some (m.goto p (.readDone n i))
        else if dst i then
          some ({ m with
            pipe := m.pipe.advance, delivered := m.delivered ++ [m.pipe.front] }.goto p
              (.readLoop dst n (i + 1)))
        else
          -- the byte is gone when `copyout` fails
          some ({ m with pipe := m.pipe.advance }.goto p (.readDone n i))
      else
        some (m.goto p (.readDone n i))
  | .readDone _ _ => some ((m.wakeup .nwrite).release.goto p .idle)
  | .fail _ => some (m.release.goto p .idle)
  | .closeAcquire writable => m.acquire p (.closeClear writable)
  | .closeClear writable =>
      some ({ m with pipe := m.pipe.close writable }.wakeup (if writable then .nread else .nwrite)
        |>.goto p .closeRelease)
  | .closeRelease =>
      if m.pipe.readopen = false ∧ m.pipe.writeopen = false then
        some { m.release.goto p .idle with freed := true }
      else
        some (m.release.goto p .idle)

inductive Call where
  | write (src : ℕ → Option UInt8) (n : ℤ)
  | read (dst : ℕ → Bool) (n : ℤ)
  /-- `fileclose` of the last reference to an end. -/
  | close (writable : Bool)

/-- A call starts when the file of its end has references; a close takes them away. -/
def begin (m : Machine) (p : ℕ) : Call → Option Machine
  | .write src n => if m.ref true then some (m.goto p (.writeAcquire src n 0)) else none
  | .read dst n => if m.ref false then some (m.goto p (.readAcquire dst n)) else none
  | .close writable =>
      if m.ref writable then
        some { m.goto p (.closeAcquire writable) with ref := Function.update m.ref writable false }
      else none

inductive Choice where
  | call (k : Call)
  | kill
  | go

def step (m : Machine) (p : ℕ) : Choice → Option Machine
  | .call k =>
      match m.thread p with
      | .idle => begin m p k
      | _ => none
  | .kill => some { m.goto p (((m.thread p).wake .nread).wake .nwrite) with
      killed := Function.update m.killed p true }
  | .go => go m p (m.thread p)

/-- A process within a call on an end has a reference to its file, so the last one is not
dropped meanwhile. -/
def Enabled (m : Machine) : Choice → Prop
  | .call (.close writable) => ∀ q, (m.thread q).uses ≠ some writable
  | .call (.write _ _) | .call (.read _ _) | .kill | .go => True

/-- All user addresses of the call are mapped. -/
def Choice.Mapped : Choice → Prop
  | .call (.write src n) => ∀ i : ℕ, (i : ℤ) < n → src i ≠ none
  | .call (.read dst n) => ∀ i : ℕ, (i : ℤ) < n → dst i = true
  | .call (.close _) | .kill | .go => True

structure Initial (m : Machine) : Prop where
  nread : m.pipe.nread = 0
  nwrite : m.pipe.nwrite = 0
  isOpen : ∀ w, m.pipe.isOpen w = true
  ref : ∀ w, m.ref w = true
  lock : m.lock = none
  thread : ∀ p, m.thread p = .idle
  freed : m.freed = false
  stored : m.stored = []
  delivered : m.delivered = []

def Step (m : Machine) (e : ℕ × Choice) (m' : Machine) : Prop :=
  Enabled m e.2 ∧ step m e.1 e.2 = some m'

def Reachable (m : Machine) : Prop :=
  Transition.Reachable Initial (fun m (e : ℕ × Choice) m' => e.2.Mapped ∧ Step m e m') m

/-! ### The ring and the lock -/

variable {m m' : Machine} {p q : ℕ} {pc pc' : Pc} {pi pi' : Pipe} {delivered stored : List UInt8}

structure Holds (pi : Pipe) (delivered stored : List UInt8) : Prop where
  ring : Ring (2 ^ 32) PIPESIZE pi.data pi.nread pi.nwrite delivered.length stored
  history : delivered <+: stored

theorem dvd : PIPESIZE ∣ 2 ^ 32 := by decide

namespace Holds

theorem put (h : Holds pi delivered stored) (hfull : pi.nwrite ≠ (pi.nread + PIPESIZE) % 2 ^ 32)
    (ch : UInt8) : Holds (pi.put ch) delivered (stored ++ [ch]) := by
  rw [Ne, h.ring.full_iff (by decide)] at hfull
  exact ⟨h.ring.push dvd (lt_of_le_of_ne h.ring.room hfull) ch,
    h.history.trans (List.prefix_append _ _)⟩

theorem take (h : Holds pi delivered stored) (hempty : pi.nread ≠ pi.nwrite) :
    Holds pi.advance (delivered ++ [pi.front]) stored := by
  have hne := h.ring.lt_of_ne (by decide) hempty
  have hnext := h.ring.next dvd hne
  constructor
  · rw [List.length_append]
    exact h.ring.pop hne
  · obtain ⟨l, rfl⟩ := h.history
    rw [List.getElem?_append_right le_rfl, Nat.sub_self] at hnext
    cases l with
    | nil => simp at hnext
    | cons a l =>
      rw [List.getElem?_cons_zero, Option.some.injEq] at hnext
      exact ⟨l, by rw [Pipe.front, ← hnext, List.append_assoc, List.singleton_append]⟩

theorem stored_eq (h : Holds pi delivered stored) : stored = delivered ++ pi.contents := by
  rw [Pipe.contents, h.ring.contents_eq dvd (by decide)]
  obtain ⟨l, rfl⟩ := h.history
  rw [List.drop_left]

end Holds

/-- What a process knows about its arguments and, within the critical section, about the
pipe. -/
def Fits (pi : Pipe) : Pc → Prop
  | .writeAcquire src n _ | .writeLoop src n _ | .writeSleep src n _ =>
      ∀ i : ℕ, (i : ℤ) < n → src i ≠ none
  | .readAcquire dst n | .readTest dst n | .readSleep dst n => ∀ i : ℕ, (i : ℤ) < n → dst i = true
  | .readLoop dst n i => (∀ i : ℕ, (i : ℤ) < n → dst i = true) ∧
      (i = 0 → pi.nread ≠ pi.nwrite ∨ pi.writeopen = false)
  | .readDone n i => 0 < n → i = 0 → pi.nread = pi.nwrite ∧ pi.writeopen = false
  | .idle | .writeDone _ | .fail _ | .closeAcquire _ | .closeClear _ | .closeRelease => True

theorem Fits.congr (h : Fits pi pc) (hl : pc.locked = false) : Fits pi' pc := by
  cases pc with
  | writeLoop | writeDone | readTest | readLoop | readDone | fail | closeClear | closeRelease =>
    cases hl
  | _ => exact h

/-- A process that slept goes on, or nothing changes. -/
def Woken (pc pc' : Pc) : Prop :=
  pc' = pc ∨ (∃ src n i, pc = .writeSleep src n i ∧ pc' = .writeAcquire src n i) ∨
    ∃ dst n, pc = .readSleep dst n ∧ pc' = .readAcquire dst n

theorem woken_wake (c : Chan) (pc : Pc) : Woken pc (pc.wake c) := by
  cases pc with
  | writeSleep src n i =>
    rw [Pc.wake]
    split_ifs
    · exact .inr (.inl ⟨src, n, i, rfl, rfl⟩)
    · exact .inl rfl
  | readSleep dst n =>
    rw [Pc.wake]
    split_ifs
    · exact .inr (.inr ⟨dst, n, rfl, rfl⟩)
    · exact .inl rfl
  | _ => exact .inl rfl

namespace Woken

theorem locked (h : Woken pc pc') : pc'.locked = pc.locked := by
  obtain rfl | ⟨src, n, i, rfl, rfl⟩ | ⟨dst, n, rfl, rfl⟩ := h <;> rfl

theorem uses (h : Woken pc pc') : pc'.uses = pc.uses := by
  obtain rfl | ⟨src, n, i, rfl, rfl⟩ | ⟨dst, n, rfl, rfl⟩ := h <;> rfl

theorem closes (h : Woken pc pc') : pc'.closes = pc.closes := by
  obtain rfl | ⟨src, n, i, rfl, rfl⟩ | ⟨dst, n, rfl, rfl⟩ := h <;> rfl

theorem fits (h : Woken pc pc') (hf : Fits pi pc) : Fits pi pc' := by
  obtain rfl | ⟨src, n, i, rfl, rfl⟩ | ⟨dst, n, rfl, rfl⟩ := h
  · exact hf
  · exact hf
  · exact hf

end Woken

structure Inv (m : Machine) : Prop where
  ring : Holds m.pipe m.delivered m.stored
  mutex : ∀ p, (m.thread p).locked = true → m.lock = some p
  fits : ∀ p, Fits m.pipe (m.thread p)
  uses : ∀ p w, (m.thread p).uses = some w → m.ref w = true
  closes : ∀ p w, (m.thread p).closes = some w → m.pipe.isOpen w = true ∧ m.ref w = false ∧
    ∀ q, (m.thread q).closes = some w → q = p
  shut : ∀ w, m.pipe.isOpen w = false → m.ref w = false
  freed : m.freed = true → (∀ w, m.pipe.isOpen w = false) ∧ ∀ p, m.thread p = .idle

theorem Initial.inv (h : Initial m) : Inv m := by
  have hidle := h.thread
  constructor
  · constructor
    · rw [h.nread, h.nwrite, h.stored, h.delivered]
      exact .empty _ _ _
    · rw [h.delivered]
      exact List.nil_prefix
  · intro p hp
    rw [hidle] at hp
    cases hp
  · intro p
    rw [hidle]
    trivial
  · intro p w hp
    rw [hidle] at hp
    cases hp
  · intro p w hp
    rw [hidle] at hp
    cases hp
  · intro w hw
    rw [h.isOpen] at hw
    cases hw
  · intro hf
    rw [h.freed] at hf
    cases hf

namespace Inv

theorem not_freed (h : Inv m) (hp : m.thread p ≠ .idle) : m.freed = false := by
  by_contra hf
  exact hp ((h.freed (by simpa using hf)).2 p)

theorem unlocked (h : Inv m) (hl : m.lock = some p ∨ m.lock = none) (hq : q ≠ p) :
    (m.thread q).locked = false := by
  by_contra hlocked
  have hlock := h.mutex q (by simpa using hlocked)
  rcases hl with hl | hl <;> rw [hl] at hlock <;> cases hlock
  exact hq rfl

/-- A process goes on without opening, closing or freeing anything. It may touch the lock
and the pipe when nobody else is in the critical section. -/
theorem move (h : Inv m) (hne : m.thread p ≠ .idle)
    (hother : ∀ q, q ≠ p → Woken (m.thread q) (m'.thread q))
    (hring : Holds m'.pipe m'.delivered m'.stored)
    (hlock : m.lock = some p ∨ m.lock = none)
    (hmutex : (m'.thread p).locked = true → m'.lock = some p)
    (hfits : Fits m'.pipe (m'.thread p))
    (huses : ∀ w, (m'.thread p).uses = some w → (m.thread p).uses = some w)
    (hcloses : ∀ w, (m'.thread p).closes = some w → (m.thread p).closes = some w)
    (hopen : ∀ w, m'.pipe.isOpen w = m.pipe.isOpen w) (href : m'.ref = m.ref)
    (hfreed : m'.freed = m.freed) : Inv m' := by
  have hcloses' : ∀ q w, (m'.thread q).closes = some w → (m.thread q).closes = some w := by
    intro q w hq
    by_cases hqp : q = p
    · rw [hqp] at hq ⊢
      exact hcloses w hq
    · rwa [← (hother q hqp).closes]
  constructor
  · exact hring
  · intro q hq
    by_cases hqp : q = p
    · rw [hqp] at hq ⊢
      exact hmutex hq
    · rw [(hother q hqp).locked, h.unlocked hlock hqp] at hq
      cases hq
  · intro q
    by_cases hqp : q = p
    · rw [hqp]
      exact hfits
    · exact (hother q hqp).fits ((h.fits q).congr (h.unlocked hlock hqp))
  · intro q w hq
    rw [href]
    by_cases hqp : q = p
    · rw [hqp] at hq
      exact h.uses p w (huses w hq)
    · rw [(hother q hqp).uses] at hq
      exact h.uses q w hq
  · intro q w hq
    obtain ⟨hop, hr, huniq⟩ := h.closes q w (hcloses' q w hq)
    rw [hopen, href]
    exact ⟨hop, hr, fun q' hq' => huniq q' (hcloses' q' w hq')⟩
  · intro w hw
    rw [hopen] at hw
    rw [href]
    exact h.shut w hw
  · intro hf
    rw [hfreed, h.not_freed hne] at hf
    cases hf

theorem acquire (h : Inv m) (hne : m.thread p ≠ .idle) (hs : m.acquire p pc = some m')
    (hfits : Fits m.pipe pc) (huses : pc.uses = (m.thread p).uses)
    (hcloses : pc.closes = (m.thread p).closes) : Inv m' := by
  unfold Machine.acquire at hs
  split_ifs at hs with hl
  cases hs
  have hself : Function.update m.thread p pc p = pc := Function.update_self p pc m.thread
  refine h.move hne (fun q hq => ?_) h.ring (.inr hl) (fun _ => rfl) ?_ (fun w hw => ?_)
    (fun w hw => ?_) (fun _ => rfl) rfl rfl
  · exact .inl (Function.update_of_ne hq _ _)
  · show Fits m.pipe (Function.update m.thread p pc p)
    rwa [hself]
  · rw [← huses, ← hself]
    exact hw
  · rw [← hcloses, ← hself]
    exact hw

theorem leave (h : Inv m) (hl : (m.thread p).locked = true)
    (hother : ∀ q, Woken (m.thread q) (m'.thread q)) (hpipe : m'.pipe = m.pipe)
    (hhist : m'.delivered = m.delivered ∧ m'.stored = m.stored) (href : m'.ref = m.ref)
    (hfreed : m'.freed = m.freed) (hpc : pc.locked = false) (hfits : Fits m.pipe pc)
    (huses : ∀ w, pc.uses = some w → (m.thread p).uses = some w) (hcloses : pc.closes = none) :
    Inv (m'.release.goto p pc) := by
  have hself : Function.update m'.thread p pc p = pc := Function.update_self p pc m'.thread
  have hne : m.thread p ≠ .idle := by
    intro hidle
    rw [hidle] at hl
    cases hl
  refine h.move hne (fun q hq => ?_) ?_ (.inl (h.mutex p hl)) (fun hlocked => ?_) ?_ (fun w hw => ?_)
    (fun w hw => ?_) (fun w => ?_) href hfreed
  · show Woken _ (Function.update m'.thread p pc q)
    rw [Function.update_of_ne hq]
    exact hother q
  · show Holds m'.pipe m'.delivered m'.stored
    rw [hpipe, hhist.1, hhist.2]
    exact h.ring
  · change (Function.update m'.thread p pc p).locked = true at hlocked
    rw [hself, hpc] at hlocked
    cases hlocked
  · show Fits m'.pipe (Function.update m'.thread p pc p)
    rwa [hself, hpipe]
  · change (Function.update m'.thread p pc p).uses = some w at hw
    rw [hself] at hw
    exact huses w hw
  · change (Function.update m'.thread p pc p).closes = some w at hw
    rw [hself, hcloses] at hw
    cases hw
  · show m'.pipe.isOpen w = _
    rw [hpipe]

theorem stay (h : Inv m) (hl : (m.thread p).locked = true) (hthread : m'.thread = m.thread)
    (hlock : m'.lock = m.lock)
    (hring : Holds m'.pipe m'.delivered m'.stored)
    (hopen : ∀ w, m'.pipe.isOpen w = m.pipe.isOpen w) (href : m'.ref = m.ref)
    (hfreed : m'.freed = m.freed) (hfits : Fits m'.pipe pc)
    (huses : pc.uses = (m.thread p).uses) (hcloses : pc.closes = none) : Inv (m'.goto p pc) := by
  have hself : Function.update m'.thread p pc p = pc := Function.update_self p pc m'.thread
  have hne : m.thread p ≠ .idle := by
    intro hidle
    rw [hidle] at hl
    cases hl
  refine h.move hne (fun q hq => ?_) hring (.inl (h.mutex p hl)) (fun _ => ?_) ?_ (fun w hw => ?_)
    (fun w hw => ?_) hopen href hfreed
  · show Woken _ (Function.update m'.thread p pc q)
    rw [Function.update_of_ne hq, hthread]
    exact .inl rfl
  · show m'.lock = some p
    rw [hlock, h.mutex p hl]
  · show Fits m'.pipe (Function.update m'.thread p pc p)
    rwa [hself]
  · change (Function.update m'.thread p pc p).uses = some w at hw
    rwa [hself, huses] at hw
  · change (Function.update m'.thread p pc p).closes = some w at hw
    rw [hself, hcloses] at hw
    cases hw

theorem writeLoop {src : ℕ → Option UInt8} {n : ℤ} {i : ℕ} (h : Inv m)
    (hpc : m.thread p = .writeLoop src n i) (hs : PipeFifo.go m p (.writeLoop src n i) = some m') :
    Inv m' := by
  have hl : (m.thread p).locked = true := by rw [hpc]; rfl
  have hsrc : ∀ j : ℕ, (j : ℤ) < n → src j ≠ none := by
    have hf := h.fits p
    rw [hpc] at hf
    exact hf
  have hstay : ∀ {pc}, Fits m.pipe pc → pc.uses = some true → pc.closes = none →
      Inv (m.goto p pc) := by
    intro pc hf hu hc
    exact h.stay hl rfl rfl h.ring (fun _ => rfl) rfl rfl hf (by rw [hu, hpc]; rfl) hc
  rw [PipeFifo.go] at hs
  split_ifs at hs with hi hkilled hfull
  · cases hs
    exact hstay trivial rfl rfl
  · cases hs
    refine h.leave hl (fun q => woken_wake .nread _) rfl ⟨rfl, rfl⟩ rfl rfl rfl hsrc (fun w hw => ?_)
      rfl
    rw [hpc]
    exact hw
  · cases hch : src i with
    | none => exact absurd hch (hsrc i hi)
    | some ch =>
      rw [hch] at hs
      cases hs
      exact h.stay hl rfl rfl (h.ring.put hfull ch) (fun _ => rfl) rfl rfl hsrc
        (by rw [hpc]; rfl) rfl
  · cases hs
    exact hstay trivial rfl rfl

theorem readTest {dst : ℕ → Bool} {n : ℤ} (h : Inv m) (hpc : m.thread p = .readTest dst n)
    (hs : PipeFifo.go m p (.readTest dst n) = some m') : Inv m' := by
  have hl : (m.thread p).locked = true := by rw [hpc]; rfl
  have hdst : ∀ j : ℕ, (j : ℤ) < n → dst j = true := by
    have hf := h.fits p
    rw [hpc] at hf
    exact hf
  rw [PipeFifo.go] at hs
  split_ifs at hs with hempty hkilled
  · cases hs
    exact h.stay hl rfl rfl h.ring (fun _ => rfl) rfl rfl trivial (by rw [hpc]; rfl) rfl
  · cases hs
    refine h.leave hl (fun q => .inl rfl) rfl ⟨rfl, rfl⟩ rfl rfl rfl hdst (fun w hw => ?_) rfl
    rw [hpc]
    exact hw
  · cases hs
    refine h.stay hl rfl rfl h.ring (fun _ => rfl) rfl rfl ⟨hdst, fun _ => ?_⟩ (by rw [hpc]; rfl) rfl
    by_cases hne : m.pipe.nread = m.pipe.nwrite
    · exact .inr (by simpa [hne] using hempty)
    · exact .inl hne

theorem readLoop {dst : ℕ → Bool} {n : ℤ} {i : ℕ} (h : Inv m)
    (hpc : m.thread p = .readLoop dst n i) (hs : PipeFifo.go m p (.readLoop dst n i) = some m') :
    Inv m' := by
  have hl : (m.thread p).locked = true := by rw [hpc]; rfl
  obtain ⟨hdst, hfirst⟩ : (∀ j : ℕ, (j : ℤ) < n → dst j = true) ∧
      (i = 0 → m.pipe.nread ≠ m.pipe.nwrite ∨ m.pipe.writeopen = false) := by
    have hf := h.fits p
    rw [hpc] at hf
    exact hf
  have hdone : Fits m.pipe (.readDone n i) → Inv (m.goto p (.readDone n i)) := fun hf =>
    h.stay hl rfl rfl h.ring (fun _ => rfl) rfl rfl hf (by rw [hpc]; rfl) rfl
  rw [PipeFifo.go] at hs
  split_ifs at hs with hi hempty hmapped
  · cases hs
    refine hdone fun _ h0 => ⟨hempty, (hfirst h0).resolve_left fun hne => hne hempty⟩
  · cases hs
    refine h.stay hl rfl rfl (h.ring.take hempty) (fun _ => rfl) rfl rfl ⟨hdst, fun h0 => ?_⟩
      (by rw [hpc]; rfl) rfl
    cases h0
  · rw [hdst i hi] at hmapped
    cases hmapped rfl
  · cases hs
    refine hdone fun h0 hi0 => ?_
    rw [hi0] at hi
    exact absurd h0 hi

theorem isOpen_close (pi : Pipe) (w w' : Bool) :
    (pi.close w).isOpen w' = if w' = w then false else pi.isOpen w' := by
  cases w <;> cases w' <;> rfl

theorem closeClear {w : Bool} (h : Inv m) (hpc : m.thread p = .closeClear w)
    (hs : PipeFifo.go m p (.closeClear w) = some m') : Inv m' := by
  have hl : (m.thread p).locked = true := by rw [hpc]; rfl
  have hlock := h.mutex p hl
  have hfr : m.freed = false := h.not_freed (by rw [hpc]; simp)
  obtain ⟨-, href, huniq⟩ := h.closes p w (by rw [hpc]; rfl)
  cases hs
  let T := Function.update (fun q => (m.thread q).wake (if w then .nread else .nwrite)) p .closeRelease
  have hself : T p = .closeRelease := Function.update_self p _ _
  have hother : ∀ q, q ≠ p → Woken (m.thread q) (T q) := by
    intro q hq
    have hkeep : T q = (m.thread q).wake _ := Function.update_of_ne hq _ _
    rw [hkeep]
    exact woken_wake _ _
  have hcl : ∀ q w', (T q).closes = some w' → q ≠ p ∧ (m.thread q).closes = some w' := by
    intro q w' hq
    by_cases hqp : q = p
    · rw [hqp, hself] at hq
      cases hq
    · rw [(hother q hqp).closes] at hq
      exact ⟨hqp, hq⟩
  refine ⟨?_, fun q (hq : (T q).locked = true) => ?_, fun q => ?_,
    fun q w' (hq : (T q).uses = some w') => ?_, fun q w' hq => ?_,
    fun w' (hw : (m.pipe.close w).isOpen w' = false) => ?_, fun (hf : m.freed = true) => ?_⟩
  · show Holds (m.pipe.close w) m.delivered m.stored
    cases w <;> exact ⟨h.ring.ring, h.ring.history⟩
  · by_cases hqp : q = p
    · rw [hqp]
      exact hlock
    · rw [(hother q hqp).locked] at hq
      exact h.mutex q hq
  · show Fits (m.pipe.close w) (T q)
    by_cases hqp : q = p
    · rw [hqp, hself]
      trivial
    · exact (hother q hqp).fits ((h.fits q).congr (h.unlocked (.inl hlock) hqp))
  · by_cases hqp : q = p
    · rw [hqp, hself] at hq
      cases hq
    · rw [(hother q hqp).uses] at hq
      exact h.uses q w' hq
  · obtain ⟨hqp, hold⟩ := hcl q w' hq
    obtain ⟨hop, hr, hu⟩ := h.closes q w' hold
    have hww : w' ≠ w := by
      rintro rfl
      exact hqp (huniq q hold)
    refine ⟨?_, hr, fun q' hq' => hu q' (hcl q' w' hq').2⟩
    show (m.pipe.close w).isOpen w' = true
    rw [isOpen_close, if_neg hww, hop]
  · rw [isOpen_close] at hw
    split_ifs at hw with hww
    · rw [hww]
      exact href
    · exact h.shut w' hw
  · rw [hfr] at hf
    cases hf

/-- When both ends are shut, nobody else is at work on the pipe. -/
theorem others_idle (h : Inv m) (hl : m.lock = some p) (hshut : ∀ w, m.pipe.isOpen w = false)
    (hq : q ≠ p) : m.thread q = .idle := by
  have huses : (m.thread q).uses = none := by
    rw [Option.eq_none_iff_forall_ne_some]
    intro w hw
    have := h.uses q w hw
    rw [h.shut w (hshut w)] at this
    cases this
  have hcloses : (m.thread q).closes = none := by
    rw [Option.eq_none_iff_forall_ne_some]
    intro w hw
    have := (h.closes q w hw).1
    rw [hshut w] at this
    cases this
  have hlocked := h.unlocked (.inl hl) hq
  cases hpc : m.thread q with
  | idle => rfl
  | closeAcquire | closeClear =>
    rw [hpc] at hcloses
    cases hcloses
  | closeRelease =>
    rw [hpc] at hlocked
    cases hlocked
  | _ =>
    rw [hpc] at huses
    cases huses

theorem closeRelease (h : Inv m) (hpc : m.thread p = .closeRelease)
    (hs : PipeFifo.go m p .closeRelease = some m') : Inv m' := by
  have hl : (m.thread p).locked = true := by rw [hpc]; rfl
  have hleave : Inv (m.release.goto p .idle) :=
    h.leave hl (fun _ => .inl rfl) rfl ⟨rfl, rfl⟩ rfl rfl rfl trivial (fun w hw => nomatch hw) rfl
  rw [PipeFifo.go] at hs
  split_ifs at hs with hshut
  · cases hs
    refine ⟨hleave.1, hleave.2, hleave.3, hleave.4, hleave.5, hleave.6, fun _ => ?_⟩
    have hall : ∀ w, m.pipe.isOpen w = false := by
      intro w
      cases w
      · exact hshut.1
      · exact hshut.2
    refine ⟨hall, fun q => ?_⟩
    show Function.update m.thread p .idle q = .idle
    by_cases hqp : q = p
    · rw [hqp, Function.update_self]
    · rw [Function.update_of_ne hqp]
      exact h.others_idle (h.mutex p hl) hall hqp
  · cases hs
    exact hleave

theorem go (h : Inv m) (hs : PipeFifo.go m p (m.thread p) = some m') : Inv m' := by
  cases hpc : m.thread p with
  | idle | writeSleep | readSleep =>
    rw [hpc] at hs
    cases hs
  | writeAcquire src n i =>
    rw [hpc] at hs
    have hf := h.fits p
    rw [hpc] at hf
    exact h.acquire (by rw [hpc]; simp) hs hf (by rw [hpc]; rfl) (by rw [hpc]; rfl)
  | readAcquire dst n =>
    rw [hpc] at hs
    have hf := h.fits p
    rw [hpc] at hf
    exact h.acquire (by rw [hpc]; simp) hs hf (by rw [hpc]; rfl) (by rw [hpc]; rfl)
  | closeAcquire w =>
    rw [hpc] at hs
    exact h.acquire (by rw [hpc]; simp) hs trivial (by rw [hpc]; rfl) (by rw [hpc]; rfl)
  | writeLoop src n i => exact h.writeLoop hpc (hpc ▸ hs)
  | readTest dst n => exact h.readTest hpc (hpc ▸ hs)
  | readLoop dst n i => exact h.readLoop hpc (hpc ▸ hs)
  | closeClear w => exact h.closeClear hpc (hpc ▸ hs)
  | closeRelease => exact h.closeRelease hpc (hpc ▸ hs)
  | writeDone i =>
    rw [hpc] at hs
    cases hs
    exact h.leave (by rw [hpc]; rfl) (fun q => woken_wake _ _) rfl ⟨rfl, rfl⟩ rfl rfl rfl trivial
      (fun w hw => nomatch hw) rfl
  | readDone n i =>
    rw [hpc] at hs
    cases hs
    exact h.leave (by rw [hpc]; rfl) (fun q => woken_wake _ _) rfl ⟨rfl, rfl⟩ rfl rfl rfl trivial
      (fun w hw => nomatch hw) rfl
  | fail w =>
    rw [hpc] at hs
    cases hs
    exact h.leave (by rw [hpc]; rfl) (fun _ => .inl rfl) rfl ⟨rfl, rfl⟩ rfl rfl rfl trivial
      (fun w hw => nomatch hw) rfl

/-- A process gets to another place outside of the critical section; an end that nobody
uses may lose its references. -/
theorem replace {ref' : Bool → Bool} {killed' : ℕ → Bool} (h : Inv m)
    (hlocked : pc.locked = true → (m.thread p).locked = true) (hfits : Fits m.pipe pc)
    (huses : ∀ w, pc.uses = some w → ref' w = true)
    (hcloses : ∀ w, pc.closes = some w → m.pipe.isOpen w = true ∧ ref' w = false ∧
      ∀ q, q ≠ p → (m.thread q).closes ≠ some w)
    (href : ∀ w, ref' w = m.ref w ∨ ref' w = false ∧ ∀ q, (m.thread q).uses ≠ some w)
    (hfreed : m.freed = true → pc = .idle) :
    Inv { m.goto p pc with ref := ref', killed := killed' } := by
  let T := Function.update m.thread p pc
  have hself : T p = pc := Function.update_self p _ _
  have hother : ∀ q, q ≠ p → T q = m.thread q := fun q hq => Function.update_of_ne hq _ _
  have hlost : ∀ w, m.ref w = false → ref' w = false := by
    intro w hw
    rcases href w with hr | ⟨hr, -⟩
    · rw [hr, hw]
    · exact hr
  refine ⟨h.ring, fun q (hq : (T q).locked = true) => ?_, fun q => ?_,
    fun q w (hq : (T q).uses = some w) => ?_, fun q w (hq : (T q).closes = some w) => ?_,
    fun w hw => hlost w (h.shut w hw), fun hf => ?_⟩
  · by_cases hqp : q = p
    · rw [hqp] at hq ⊢
      rw [hself] at hq
      exact h.mutex p (hlocked hq)
    · rw [hother q hqp] at hq
      exact h.mutex q hq
  · show Fits m.pipe (T q)
    by_cases hqp : q = p
    · rwa [hqp, hself]
    · rw [hother q hqp]
      exact h.fits q
  · by_cases hqp : q = p
    · rw [hqp, hself] at hq
      exact huses w hq
    · rw [hother q hqp] at hq
      rcases href w with hr | ⟨-, hnone⟩
      · show ref' w = true
        rw [hr, h.uses q w hq]
      · exact absurd hq (hnone q)
  · by_cases hqp : q = p
    · rw [hqp, hself] at hq
      obtain ⟨hop, hr, hno⟩ := hcloses w hq
      refine ⟨hop, hr, fun q' (hq' : (T q').closes = some w) => ?_⟩
      by_contra hne
      rw [hqp] at hne
      rw [hother q' hne] at hq'
      exact hno q' hne hq'
    · rw [hother q hqp] at hq
      obtain ⟨hop, hr, huniq⟩ := h.closes q w hq
      refine ⟨hop, hlost w hr, fun q' (hq' : (T q').closes = some w) => ?_⟩
      by_cases hqp' : q' = p
      · rw [hqp', hself] at hq'
        exact absurd hq ((hcloses w hq').2.2 q hqp)
      · rw [hother q' hqp'] at hq'
        exact huniq q' hq'
  · obtain ⟨hshut, hidle⟩ := h.freed hf
    refine ⟨hshut, fun q => ?_⟩
    show T q = .idle
    by_cases hqp : q = p
    · rw [hqp, hself]
      exact hfreed hf
    · rw [hother q hqp]
      exact hidle q

/-- An end with references is open, and nobody has begun to close it. -/
theorem of_ref {w : Bool} (h : Inv m) (hw : m.ref w = true) :
    m.freed = false ∧ m.pipe.isOpen w = true ∧ ∀ q, (m.thread q).closes ≠ some w := by
  have hopen : m.pipe.isOpen w = true := by
    by_contra hc
    rw [h.shut w (by simpa using hc)] at hw
    cases hw
  refine ⟨?_, hopen, fun q hq => ?_⟩
  · by_contra hf
    have := (h.freed (by simpa using hf)).1 w
    rw [hopen] at this
    cases this
  · have := (h.closes q w hq).2.1
    rw [hw] at this
    cases this

theorem begin {k : Call} (h : Inv m) (hen : Enabled m (.call k)) (hmap : (Choice.call k).Mapped)
    (hs : PipeFifo.begin m p k = some m') : Inv m' := by
  cases k with
  | write src n =>
    rw [PipeFifo.begin] at hs
    split_ifs at hs with hw
    cases hs
    refine h.replace (fun hl => nomatch hl) hmap (fun w hu => ?_) (fun w hc => nomatch hc)
      (fun _ => .inl rfl) fun hf => ?_
    · cases hu
      exact hw
    · rw [(h.of_ref hw).1] at hf
      cases hf
  | read dst n =>
    rw [PipeFifo.begin] at hs
    split_ifs at hs with hw
    cases hs
    refine h.replace (fun hl => nomatch hl) hmap (fun w hu => ?_) (fun w hc => nomatch hc)
      (fun _ => .inl rfl) fun hf => ?_
    · cases hu
      exact hw
    · rw [(h.of_ref hw).1] at hf
      cases hf
  | close w =>
    rw [PipeFifo.begin] at hs
    split_ifs at hs with hw
    cases hs
    obtain ⟨hfr, hop, hno⟩ := h.of_ref hw
    refine h.replace (fun hl => nomatch hl) trivial (fun w hu => nomatch hu) (fun w' hc => ?_)
      (fun w' => ?_) fun hf => ?_
    · cases hc
      exact ⟨hop, Function.update_self _ _ _, fun q _ => hno q⟩
    · by_cases hww : w' = w
      · rw [hww, Function.update_self]
        exact .inr ⟨rfl, hen⟩
      · rw [Function.update_of_ne hww]
        exact .inl rfl
    · rw [hfr] at hf
      cases hf

theorem kill (h : Inv m) : Inv { m.goto p (((m.thread p).wake .nread).wake .nwrite) with
    killed := Function.update m.killed p true } := by
  have h1 := woken_wake .nread (m.thread p)
  have h2 := woken_wake .nwrite ((m.thread p).wake .nread)
  refine h.replace (fun hl => ?_) (h2.fits (h1.fits (h.fits p))) (fun w hu => ?_) (fun w hc => ?_)
    (fun _ => .inl rfl) fun hf => ?_
  · rwa [h2.locked, h1.locked] at hl
  · rw [h2.uses, h1.uses] at hu
    exact h.uses p w hu
  · rw [h2.closes, h1.closes] at hc
    obtain ⟨hop, hr, huniq⟩ := h.closes p w hc
    exact ⟨hop, hr, fun q hq hqc => hq (huniq q hqc)⟩
  · rw [(h.freed hf).2 p]
    rfl

theorem step {a : Choice} (h : Inv m) (hmap : a.Mapped) (hs : Step m (p, a) m') : Inv m' := by
  obtain ⟨hen, hs⟩ := hs
  cases a with
  | call k =>
    simp only [PipeFifo.step] at hs
    split at hs
    · exact h.begin hen hmap hs
    · cases hs
  | kill =>
    cases hs
    exact h.kill
  | go => exact h.go hs

end Inv

theorem Reachable.inv (h : Reachable m) : Inv m :=
  Transition.Reachable.invariant (fun _ hi => hi.inv) (fun _ _ _ hi hs => hi.step hs.1 hs.2) h

/-- The bytes delivered to readers are those stored by writers, in order, and the rest of
these is in the buffer; a reader sees the end of the pipe only when it is empty and closed
for writing. -/
theorem pipe_fifo (h : Reachable m) :
    m.delivered <+: m.stored ∧ m.stored = m.delivered ++ m.pipe.contents ∧
    m.pipe.contents.length = m.pipe.count ∧ m.pipe.count ≤ PIPESIZE ∧
    ∀ p n, m.thread p = .readDone n 0 → 0 < n →
      m.pipe.nread = m.pipe.nwrite ∧ m.pipe.writeopen = false := by
  have hi := h.inv
  refine ⟨hi.ring.history, hi.ring.stored_eq, ?_, hi.ring.ring.count_le (by decide),
    fun p n hp hn => ?_⟩
  · rw [Pipe.contents, RingBuffer.contents, List.length_map, List.length_range, Pipe.count]
  · have hf := hi.fits p
    rw [hp] at hf
    exact hf hn rfl

/-- Process `0` writes a byte and closes its end; process `1` reads the byte and then the
end of the pipe. -/
theorem pipe_fifo_end : ∃ m, Reachable m ∧ m.delivered = [7] ∧ m.thread 1 = .readDone 2 0 ∧
    m.pipe.nread = m.pipe.nwrite ∧ m.pipe.writeopen = false := by
  have h0 : Reachable ⟨⟨fun _ => 0, 0, 0, true, true⟩, none, fun _ => .idle, fun _ => false,
      fun _ => true, false, [], []⟩ :=
    .start _ ⟨rfl, rfl, fun w => by cases w <;> rfl, fun _ => rfl, rfl, fun _ => rfl, rfl, rfl, rfl⟩
  have hgo : ∀ p {m m'}, Reachable m → step m p .go = some m' → Reachable m' :=
    fun p _ _ h hs => .next _ _ (p, .go) h ⟨trivial, trivial, hs⟩
  have h1 : Reachable _ := .next _ _ (0, .call (.write (fun _ => some 7) 1)) h0
    ⟨fun _ _ => Option.some_ne_none _, trivial, rfl⟩
  have h2 := hgo 0 (hgo 0 (hgo 0 (hgo 0 h1 rfl) rfl) rfl) rfl
  have h3 : Reachable _ := .next _ _ (0, .call (.close true)) h2
    ⟨trivial, fun q => by cases q <;> exact (Option.some_ne_none _).symm, rfl⟩
  have h4 := hgo 0 (hgo 0 (hgo 0 h3 rfl) rfl) rfl
  have h5 : Reachable _ := .next _ _ (1, .call (.read (fun _ => true) 1)) h4
    ⟨fun _ _ => rfl, trivial, rfl⟩
  have h6 := hgo 1 (hgo 1 (hgo 1 (hgo 1 (hgo 1 h5 rfl) rfl) rfl) rfl) rfl
  have h7 : Reachable _ := .next _ _ (1, .call (.read (fun _ => true) 2)) h6
    ⟨fun _ _ => rfl, trivial, rfl⟩
  have h8 := hgo 1 (hgo 1 (hgo 1 h7 rfl) rfl) rfl
  exact ⟨_, h8, rfl, rfl, (pipe_fifo h8).2.2.2.2 1 2 rfl (by decide)⟩

end PipeFifo
end Xv6
