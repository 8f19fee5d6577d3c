import Xv6.Lib.Blocks

/-!
The heap allocator of user programs, `umalloc.c`. A pointer is an address; a unit is the 16
bytes of a `Header`. The memory is seen through the headers at its addresses. A loop takes
the number of rounds it may make, and `none` says that these did not suffice.
-/

namespace Xv6
namespace Umalloc
open Blocks

structure Header where
  ptr : ℕ
  size : ℕ
  deriving DecidableEq, Repr

def UNIT : ℕ := 16

/-- The memory of the program, the variable `freep`, and the regions that `sbrk` returned. -/
structure Heap where
  mem : ℕ → Header
  freep : ℕ
  regions : List Span

/-- `p + n` for a `Header *`. -/
def after (p n : ℕ) : ℕ := (p + UNIT * n) % 2 ^ 64

def Heap.stop (h : Heap) (p : ℕ) : ℕ := after p (h.mem p).size

def Heap.set (h : Heap) (p : ℕ) (hd : Header) : Heap :=
  { h with mem := Function.update h.mem p hd }

def place (mem : ℕ → Header) (bp : ℕ) : ℕ → ℕ → Option ℕ
  | 0, _ => none
  | n + 1, p =>
      let q := (mem p).ptr
      if p < bp ∧ bp < q then some p
      else if q ≤ p ∧ (p < bp ∨ bp < q) then some p
      else place mem bp n q

/-- `free` after its loop: the block at `bp` is joined to the one after it, then to `p`. -/
def link (h : Heap) (p bp : ℕ) : Heap :=
  let q := (h.mem p).ptr
  let h₁ :=
    if h.stop bp = q then
      h.set bp ⟨(h.mem q).ptr, ((h.mem bp).size + (h.mem q).size) % 2 ^ 32⟩
    else h.set bp ⟨q, (h.mem bp).size⟩
  let h₂ :=
    if h₁.stop p = bp then
      h₁.set p ⟨(h₁.mem bp).ptr, ((h₁.mem p).size + (h₁.mem bp).size) % 2 ^ 32⟩
    else h₁.set p ⟨bp, (h₁.mem p).size⟩
  { h₂ with freep := p }

def free (n : ℕ) (ap : ℕ) (h : Heap) : Option Heap := do
  let bp := ap - UNIT
  let p ← place h.mem bp n h.freep
  return link h p bp

/-- What `sbrk(k)` returns in a program that has the regions already. -/
abbrev Sbrk := List Span → ℤ → Option ℕ

/-- `morecore`; the null pointer is `0`. The argument of `sbrk` is an `int`. -/
def morecore (sbrk : Sbrk) (n : ℕ) (nu : ℕ) (h : Heap) : Option (ℕ × Heap) :=
  let nu := if nu < 4096 then 4096 else nu
  let k := Int.bmod (nu * UNIT) (2 ^ 32)
  match sbrk h.regions k with
  | none => some (0, h)
  | some a => do
      let h₁ := { h with regions := ⟨a, k.toNat⟩ :: h.regions }
      let h₂ := h₁.set a ⟨(h₁.mem a).ptr, nu⟩
      let h₃ ← free n (a + UNIT) h₂
      return (h₃.freep, h₃)

/-- The block at `p`, or the end of it, is taken off the list. -/
def take (nunits prevp p : ℕ) (h : Heap) : ℕ × Heap :=
  if (h.mem p).size = nunits then
    let h₁ := h.set prevp ⟨(h.mem p).ptr, (h.mem prevp).size⟩
    (p + UNIT, { h₁ with freep := prevp })
  else
    let h₁ := h.set p ⟨(h.mem p).ptr, (h.mem p).size - nunits⟩
    let p' := h₁.stop p
    let h₂ := h₁.set p' ⟨(h₁.mem p').ptr, nunits⟩
    (p' + UNIT, { h₂ with freep := prevp })

def search (sbrk : Sbrk) (nunits : ℕ) : ℕ → ℕ → ℕ → Heap → Option (ℕ × Heap)
  | 0, _, _, _ => none
  | n + 1, prevp, p, h =>
      if (h.mem p).size ≥ nunits then some (take nunits prevp p h)
      else if p = h.freep then do
        let (p', h') ← morecore sbrk n nunits h
        if p' = 0 then return (0, h')
        else search sbrk nunits n p' (h'.mem p').ptr h'
      else search sbrk nunits n p (h.mem p).ptr h

def units (nbytes : ℕ) : ℕ := (nbytes + UNIT - 1) / UNIT + 1

/-- `base` is the address of the static header. -/
def malloc (base : ℕ) (sbrk : Sbrk) (n : ℕ) (nbytes : ℕ) (h : Heap) : Option (ℕ × Heap) :=
  let h := if h.freep = 0 then { h.set base ⟨base, 0⟩ with freep := base } else h
  search sbrk (units nbytes) n h.freep (h.mem h.freep).ptr h

/-- A program and the pointers it got from `malloc` and did not free, with what it asked for. -/
structure Prog where
  heap : Heap
  live : List (ℕ × ℕ)

inductive Op where
  | malloc (nbytes : ℕ) (sbrk : Sbrk)
  | free (ap : ℕ)
  /-- The program writes its memory. -/
  | write (mem : ℕ → Header)

/-- Loops make at most `n` rounds. -/
def call (base n : ℕ) (s : Prog) : Op → Option Prog
  | .malloc nbytes sbrk => do
      let (ap, h) ← malloc base sbrk n nbytes s.heap
      return if ap = 0 then { s with heap := h } else ⟨h, (ap, nbytes) :: s.live⟩
  | .free ap => do
      let h ← free n ap s.heap
      return ⟨h, s.live.eraseP (·.1 = ap)⟩
  | .write mem => some { s with heap := { s.heap with mem := mem } }

/-- `sbrk` fails or returns a region above the earlier ones and above `base`. -/
def SbrkOk (base : ℕ) (sbrk : Sbrk) : Prop :=
  ∀ rs k a, sbrk rs k = some a →
    0 ≤ k ∧ base + UNIT ≤ a ∧ (∀ r ∈ rs, r.stop ≤ a) ∧ a + k.toNat < 2 ^ 64

/-- The calls of a program that frees what is live and writes only there. -/
def Legal (base : ℕ) (s : Prog) : Op → Prop
  | .malloc nbytes sbrk => nbytes < 2 ^ 32 ∧ SbrkOk base sbrk
  | .free ap => ∃ nbytes, (ap, nbytes) ∈ s.live
  | .write mem => ∀ a, (∀ l ∈ s.live, a + UNIT ≤ l.1 ∨ l.1 + l.2 ≤ a) → mem a = s.heap.mem a

end Umalloc
end Xv6
