import Mathlib.Algebra.BigOperators.Group.Finset.Basic
import Mathlib.Tactic

/-!
Sums over an initial segment when one of the terms changes.
-/

namespace Count
open Finset

theorem sum_change {n k : ℕ} {f g : ℕ → ℕ} (hk : k < n) (h : ∀ j, j ≠ k → g j = f j) :
    ∑ j ∈ range n, g j + f k = ∑ j ∈ range n, f j + g k := by
  have hm : k ∈ range n := mem_range.2 hk
  have hrest : ∑ j ∈ (range n).erase k, g j = ∑ j ∈ (range n).erase k, f j :=
    sum_congr rfl fun j hj => h j (ne_of_mem_erase hj)
  rw [← sum_erase_add _ g hm, ← sum_erase_add _ f hm, hrest]
  omega

end Count
