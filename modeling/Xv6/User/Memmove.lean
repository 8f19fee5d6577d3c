import Xv6.Lib.Copy
import Mathlib.Tactic

/-!
The two `memmove`s, of `kernel/string.c` and of `user/ulib.c`. A pointer is a number below
`2 ^ 64`; a `char *` that is moved past the end of the address space is `0` again.
-/

namespace Xv6

/-- The bytes of an address space. -/
abbrev ByteMemory := ℕ → UInt8

namespace Memmove

/-- `while(n-- > 0) *d++ = *s++`. -/
def copyUp : ℕ → ℕ → ℕ → ByteMemory → ByteMemory
  | 0, _, _, mem => mem
  | n + 1, d, s, mem =>
      copyUp n ((d + 1) % 2 ^ 64) ((s + 1) % 2 ^ 64) (Function.update mem d (mem s))

/-- `while(n-- > 0) *--d = *--s`. -/
def copyDown : ℕ → ℕ → ℕ → ByteMemory → ByteMemory
  | 0, _, _, mem => mem
  | n + 1, d, s, mem =>
      let d' := (d + 2 ^ 64 - 1) % 2 ^ 64
      let s' := (s + 2 ^ 64 - 1) % 2 ^ 64
      copyDown n d' s' (Function.update mem d' (mem s'))

/-- `memmove` of the kernel, where `n` is a `uint`: what it returns, and the memory. -/
def kernelMemmove (dst src n : ℕ) (mem : ByteMemory) : ℕ × ByteMemory :=
  if n = 0 then (dst, mem)
  else if src < dst ∧ (src + n) % 2 ^ 64 > dst then
    (dst, copyDown n ((dst + n) % 2 ^ 64) ((src + n) % 2 ^ 64) mem)
  else (dst, copyUp n dst src mem)

/-- `memmove` of the user library, where `n` is an `int`. -/
def ulibMemmove (vdst vsrc : ℕ) (n : ℤ) (mem : ByteMemory) : ℕ × ByteMemory :=
  if vsrc > vdst then (vdst, copyUp n.toNat vdst vsrc mem)
  else
    let dst := ((vdst + n) % 2 ^ 64).toNat
    let src := ((vsrc + n) % 2 ^ 64).toNat
    (vdst, copyDown n.toNat dst src mem)

variable {mem : ByteMemory} {dst src n : ℕ}

/-- Upwards, a byte must not be written before it is read. -/
theorem copyUp_eq (hs : src + n ≤ 2 ^ 64) (hd : dst + n ≤ 2 ^ 64)
    (h : ¬(src < dst ∧ dst < src + n)) : copyUp n dst src mem = Copy.move mem dst src n := by
  induction n generalizing mem dst src with
  | zero => rw [copyUp, Copy.move_zero]
  | succ n ih =>
    rw [copyUp, ← Copy.move_first (by omega)]
    cases n with
    | zero => rw [copyUp, Copy.move_zero]
    | succ n =>
      have hd' : (dst + 1) % 2 ^ 64 = dst + 1 := Nat.mod_eq_of_lt (by omega)
      have hs' : (src + 1) % 2 ^ 64 = src + 1 := Nat.mod_eq_of_lt (by omega)
      rw [hd', hs', ih (by omega) (by omega) (by omega)]

theorem copyDown_eq (hs : src + n ≤ 2 ^ 64) (hd : dst + n ≤ 2 ^ 64)
    (h : ¬(dst < src ∧ src < dst + n)) :
    copyDown n ((dst + n) % 2 ^ 64) ((src + n) % 2 ^ 64) mem = Copy.move mem dst src n := by
  induction n generalizing mem with
  | zero => rw [copyDown, Copy.move_zero]
  | succ n ih =>
    have hlast : ∀ p, p + (n + 1) ≤ 2 ^ 64 →
        ((p + (n + 1)) % 2 ^ 64 + 2 ^ 64 - 1) % 2 ^ 64 = (p + n) % 2 ^ 64 := by
      intro p hp
      omega
    have hd' : (dst + n) % 2 ^ 64 = dst + n := Nat.mod_eq_of_lt (by omega)
    have hs' : (src + n) % 2 ^ 64 = src + n := Nat.mod_eq_of_lt (by omega)
    rw [copyDown, ← Copy.move_last (by omega)]
    simp only [hlast dst hd, hlast src hs]
    rw [ih (by omega) (by omega) (by omega), hd', hs']

theorem kernelMemmove_eq (hs : src + n ≤ 2 ^ 64) (hd : dst + n ≤ 2 ^ 64) :
    kernelMemmove dst src n mem = (dst, Copy.move mem dst src n) := by
  unfold kernelMemmove
  split_ifs with h0 hdown
  · rw [h0, Copy.move_zero]
  · rw [copyDown_eq hs hd (by omega)]
  · -- `s + n` does not wrap around when `s < d`
    have hup : ¬(src < dst ∧ dst < src + n) := by
      rintro ⟨hlt, hov⟩
      rw [Nat.mod_eq_of_lt (by omega)] at hdown
      exact hdown ⟨hlt, hov⟩
    rw [copyUp_eq hs hd hup]

theorem ulibMemmove_eq (hs : src + n ≤ 2 ^ 64) (hd : dst + n ≤ 2 ^ 64) :
    ulibMemmove dst src n mem = (dst, Copy.move mem dst src n) := by
  have hcast : ∀ p : ℕ, (((p : ℤ) + n) % 2 ^ 64).toNat = (p + n) % 2 ^ 64 := by
    intro p
    omega
  unfold ulibMemmove
  simp only [Int.toNat_natCast, hcast]
  split_ifs with hup
  · rw [copyUp_eq hs hd (by omega)]
  · rw [copyDown_eq hs hd (by omega)]

/-- Every byte of the range at `dst` is the one that was at `src`, and no other byte changes. -/
structure Moved (mem : ByteMemory) (dst src n : ℕ) (mem' : ByteMemory) : Prop where
  copied : ∀ i < n, mem' (dst + i) = mem (src + i)
  frame : ∀ a, ¬(dst ≤ a ∧ a < dst + n) → mem' a = mem a

theorem moved_move : Moved mem dst src n (Copy.move mem dst src n) :=
  ⟨fun _ => Copy.move_add, fun _ => Copy.move_outside⟩

/-- Both functions copy the range at once, whatever the overlap, and so they agree. -/
theorem memmove_simultaneous (hs : src + n ≤ 2 ^ 64) (hd : dst + n ≤ 2 ^ 64) (mem : ByteMemory) :
    Moved mem dst src n (kernelMemmove dst src n mem).2 ∧
    Moved mem dst src n (ulibMemmove dst src n mem).2 ∧
    kernelMemmove dst src n mem = ulibMemmove dst src n mem := by
  rw [kernelMemmove_eq hs hd, ulibMemmove_eq hs hd]
  exact ⟨moved_move, moved_move, rfl⟩

/-- Three bytes at the end of the address space are moved down by one. -/
theorem memmove_simultaneous_top :
    kernelMemmove (2 ^ 64 - 4) (2 ^ 64 - 3) 3 (fun a => a.toUInt8) =
      ulibMemmove (2 ^ 64 - 4) (2 ^ 64 - 3) 3 (fun a => a.toUInt8) :=
  (memmove_simultaneous (n := 3) (by decide) (by decide) _).2.2

end Memmove
end Xv6
