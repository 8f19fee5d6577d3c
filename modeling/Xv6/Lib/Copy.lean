import Mathlib.Data.Nat.Basic
import Mathlib.Logic.Function.Basic
import Mathlib.Tactic.SplitIfs

/-!
Copies of ranges of a memory that may overlap. `move` copies all cells at once; it can be done
cell by cell, from the first one or from the last one, as long as no cell is overwritten before
it is read.
-/

namespace Copy

variable {α : Type*} {mem mem' : ℕ → α} {dst src n : ℕ}

/-- The memory after `[src, src + n)` is copied to `[dst, dst + n)`. -/
def move (mem : ℕ → α) (dst src n : ℕ) (a : ℕ) : α :=
  if dst ≤ a ∧ a < dst + n then mem (src + (a - dst)) else mem a

@[simp] theorem move_zero (mem : ℕ → α) (dst src : ℕ) : move mem dst src 0 = mem := by
  funext a
  rw [move, if_neg (by omega)]

theorem move_add {i : ℕ} (hi : i < n) : move mem dst src n (dst + i) = mem (src + i) := by
  rw [move, if_pos (by omega), Nat.add_sub_cancel_left]

theorem move_outside {a : ℕ} (ha : ¬(dst ≤ a ∧ a < dst + n)) : move mem dst src n a = mem a :=
  if_neg ha

/-- The first cell is copied first: it must not be one that is read later. -/
theorem move_first (h : ¬(src < dst ∧ dst ≤ src + n)) :
    move (Function.update mem dst (mem src)) (dst + 1) (src + 1) n = move mem dst src (n + 1) := by
  funext a
  unfold move
  by_cases ha : dst + 1 ≤ a ∧ a < dst + 1 + n
  · have hne : src + 1 + (a - (dst + 1)) ≠ dst := by omega
    rw [if_pos ha, if_pos (by omega), Function.update_of_ne hne,
      show src + 1 + (a - (dst + 1)) = src + (a - dst) by omega]
  · rw [if_neg ha]
    by_cases hd : a = dst
    · rw [hd, Function.update_self, if_pos (by omega), Nat.sub_self, Nat.add_zero]
    · rw [Function.update_of_ne hd, if_neg (by omega)]

theorem move_last (h : ¬(dst < src ∧ src ≤ dst + n)) :
    move (Function.update mem (dst + n) (mem (src + n))) dst src n = move mem dst src (n + 1) := by
  funext a
  unfold move
  by_cases ha : dst ≤ a ∧ a < dst + n
  · have hne : src + (a - dst) ≠ dst + n := by omega
    rw [if_pos ha, if_pos (by omega), Function.update_of_ne hne]
  · rw [if_neg ha]
    by_cases hd : a = dst + n
    · rw [hd, Function.update_self, if_pos (by omega), Nat.add_sub_cancel_left]
    · rw [Function.update_of_ne hd, if_neg (by omega)]

end Copy
