import Mathlib.Data.Nat.Digits.Lemmas

/-!
Numerals: the digits of a number in base `b`, the first one first. There is at least one digit,
and the first one is not `0` unless the number is.
-/

namespace Numeral

def numeral (b n : ℕ) : List ℕ := if n = 0 then [0] else (Nat.digits b n).reverse

variable {b m n k : ℕ}

structure Spells (b n : ℕ) (ds : List ℕ) : Prop where
  ne_nil : ds ≠ []
  lt : ∀ d ∈ ds, d < b
  value : Nat.ofDigits b ds.reverse = n
  canonical : ds.head? = some 0 → ds = [0]

theorem ofDigits_numeral (b n : ℕ) : Nat.ofDigits b (numeral b n).reverse = n := by
  unfold numeral
  split_ifs with h0
  · rw [h0, List.reverse_singleton, Nat.ofDigits_singleton]
  · rw [List.reverse_reverse, Nat.ofDigits_digits]

theorem numeral_injective (b : ℕ) : Function.Injective (numeral b) := by
  intro m n h
  rw [← ofDigits_numeral b m, h, ofDigits_numeral]

theorem spells_numeral (hb : 1 < b) (n : ℕ) : Spells b n (numeral b n) := by
  by_cases h0 : n = 0
  · subst h0
    exact ⟨nofun, by simp [numeral]; omega, ofDigits_numeral b 0, fun _ => if_pos rfl⟩
  · have hdigits : numeral b n = (Nat.digits b n).reverse := if_neg h0
    refine ⟨?_, fun d hd => ?_, ofDigits_numeral b n, fun h => ?_⟩
    · rw [hdigits, Ne, List.reverse_eq_nil_iff]
      exact Nat.digits_ne_nil_iff_ne_zero.2 h0
    · rw [hdigits, List.mem_reverse] at hd
      exact Nat.digits_lt_base hb hd
    · rw [hdigits, List.head?_reverse] at h
      exact absurd (List.getLast_of_mem_getLast? h) (Nat.getLast_digit_ne_zero b h0)

theorem Spells.eq_numeral {ds : List ℕ} (hb : 1 < b) (h : Spells b n ds) : ds = numeral b n := by
  by_cases hhead : ds.head? = some 0
  · have hds := h.canonical hhead
    have hn := h.value
    rw [hds, List.reverse_singleton, Nat.ofDigits_singleton] at hn
    rw [hds, ← hn, numeral, if_pos rfl]
  · have hlast : ∀ hne : ds.reverse ≠ [], ds.reverse.getLast hne ≠ 0 := by
      intro hne h0
      apply hhead
      rw [← List.getLast?_reverse, List.getLast?_eq_some_getLast hne, h0]
    have hdigits := Nat.digits_ofDigits b hb ds.reverse
      (fun d hd => h.lt d (List.mem_reverse.1 hd)) hlast
    rw [h.value] at hdigits
    have hn : n ≠ 0 := by
      rintro rfl
      rw [Nat.digits_zero] at hdigits
      exact h.ne_nil (List.reverse_eq_nil_iff.1 hdigits.symm)
    rw [numeral, if_neg hn, hdigits, List.reverse_reverse]

theorem numeral_eq (hb : 1 < b) (n : ℕ) :
    numeral b n = (if n / b = 0 then [] else numeral b (n / b)) ++ [n % b] := by
  by_cases h0 : n = 0
  · rw [h0, Nat.zero_div, if_pos rfl, Nat.zero_mod, numeral, if_pos rfl, List.nil_append]
  · rw [numeral, if_neg h0, Nat.digits_def' hb (Nat.pos_of_ne_zero h0), List.reverse_cons]
    congr 1
    split_ifs with hq
    · rw [hq, Nat.digits_zero, List.reverse_nil]
    · rw [numeral, if_neg hq]

theorem length_numeral_le (hb : 1 < b) (hk : 0 < k) (h : n < b ^ k) :
    (numeral b n).length ≤ k := by
  unfold numeral
  split_ifs
  · exact hk
  · rw [List.length_reverse]
    exact (Nat.digits_length_le_iff hb n).2 h

theorem length_numeral_mono (b : ℕ) (h : m ≤ n) : (numeral b m).length ≤ (numeral b n).length := by
  unfold numeral
  split_ifs with hm hn hn
  · exact le_rfl
  · rw [List.length_reverse]
    exact List.length_pos_of_ne_nil (Nat.digits_ne_nil_iff_ne_zero.2 hn)
  · omega
  · rw [List.length_reverse, List.length_reverse]
    exact Nat.le_length_digits_le b m n h

/-- The digits of `n` at the first `k` places, the last one first. -/
theorem ofDigits_places (b n k : ℕ) :
    Nat.ofDigits b ((List.range k).map fun i => n / b ^ i % b) = n % b ^ k := by
  induction k with
  | zero => rw [List.range_zero, List.map_nil, Nat.ofDigits_nil, pow_zero, Nat.mod_one]
  | succ k ih =>
    rw [List.range_succ, List.map_append, Nat.ofDigits_append, ih, List.map_singleton,
      Nat.ofDigits_singleton, List.length_map, List.length_range, Nat.mod_pow_succ]

end Numeral
