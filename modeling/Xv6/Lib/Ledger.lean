import Mathlib.Tactic

/-!
Ledgers of an allocator. Places of type `ι` hold resources, numbered from `1`; a place
that holds nothing has `0`. `Ledger S used` says that the resources in places are used
ones and that no resource is in two places; `Exact` that no used resource is lost.
-/

structure Ledger {ι : Type} (S : ι → ℕ) (used : Set ℕ) : Prop where
  used_of : ∀ p, S p ≠ 0 → S p ∈ used
  inj : ∀ p q, S p ≠ 0 → S p = S q → p = q

namespace Ledger
variable {ι : Type} {S T : ι → ℕ} {used : Set ℕ} {p : ι} {b : ℕ}

/-- Every used resource is in some place. -/
def Exact (S : ι → ℕ) (used : Set ℕ) : Prop := ∀ b ∈ used, ∃ p, S p = b

/-- What is not used is in no place. -/
theorem ne_of_not_mem (h : Ledger S used) (h0 : b ≠ 0) (hb : b ∉ used) (q : ι) : S q ≠ b := by
  intro hq
  apply hb
  rw [← hq]
  exact h.used_of q (by rwa [hq])

variable [DecidableEq ι]

theorem take (h : Ledger S used) (h0 : b ≠ 0) (hb : b ∉ used) :
    Ledger (Function.update S p b) (insert b used) := by
  have hfresh := h.ne_of_not_mem h0 hb
  constructor
  · intro q hq
    by_cases hqp : q = p
    · simp [hqp]
    · rw [Function.update_of_ne hqp] at hq ⊢
      exact Set.mem_insert_of_mem b (h.used_of q hq)
  · intro q r hq hqr
    by_cases hqp : q = p <;> by_cases hrp : r = p
    · rw [hqp, hrp]
    · rw [hqp, Function.update_self, Function.update_of_ne hrp] at hqr
      exact absurd hqr.symm (hfresh r)
    · rw [hrp, Function.update_self, Function.update_of_ne hqp] at hqr
      exact absurd hqr (hfresh q)
    · rw [Function.update_of_ne hqp] at hq hqr
      rw [Function.update_of_ne hrp] at hqr
      exact h.inj q r hq hqr

theorem Exact.take (h : Exact S used) (hp : S p = 0) (h0 : (0 : ℕ) ∉ used) :
    Exact (Function.update S p b) (insert b used) := by
  intro c hc
  rcases hc with rfl | hc
  · exact ⟨p, Function.update_self p _ S⟩
  · obtain ⟨q, hq⟩ := h c hc
    have hqp : q ≠ p := by
      rintro rfl
      rw [hp] at hq
      exact h0 (hq ▸ hc)
    exact ⟨q, by rw [Function.update_of_ne hqp, hq]⟩

end Ledger
