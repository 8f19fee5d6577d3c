import Mathlib.Tactic

/-!
Finite maps in an array of slots, some of which are empty. A key is looked for from the front.
-/

namespace SlotMap
variable {κ ν : Type} [DecidableEq κ] {f : ℕ → Option (κ × ν)} {n k : ℕ} {key : κ}

/-- The first of `n` slots that holds `key`. -/
def find (f : ℕ → Option (κ × ν)) (n : ℕ) (key : κ) : Option ℕ :=
  (List.range n).find? fun k => decide ((f k).map Prod.fst = some key)

/-- No key is in two slots. -/
def Distinct (f : ℕ → Option (κ × ν)) (n : ℕ) : Prop :=
  ∀ j k key x y, j < n → k < n → f j = some (key, x) → f k = some (key, y) → j = k

omit [DecidableEq κ] in
theorem map_fst_eq_some : (f k).map Prod.fst = some key ↔ ∃ val, f k = some (key, val) := by
  rw [Option.map_eq_some_iff]
  constructor
  · rintro ⟨⟨x, val⟩, h, rfl⟩
    exact ⟨val, h⟩
  · rintro ⟨val, h⟩
    exact ⟨(key, val), h, rfl⟩

theorem find_eq_none : find f n key = none ↔ ∀ k < n, ∀ val, f k ≠ some (key, val) := by
  simp only [find, List.find?_eq_none, List.mem_range, decide_eq_true_eq, map_fst_eq_some,
    not_exists]

theorem of_find (h : find f n key = some k) : k < n ∧ ∃ val, f k = some (key, val) := by
  refine ⟨List.mem_range.1 (List.mem_of_find?_eq_some h), map_fst_eq_some.1 ?_⟩
  simpa using List.find?_some h

theorem find_eq_some (hd : Distinct f n) :
    find f n key = some k ↔ k < n ∧ ∃ val, f k = some (key, val) := by
  refine ⟨of_find, ?_⟩
  rintro ⟨hk, val, hv⟩
  cases h : find f n key with
  | none => exact absurd hv (find_eq_none.1 h k hk val)
  | some j =>
    obtain ⟨hj, x, hx⟩ := of_find h
    rw [hd j k key x val hj hk hx hv]

end SlotMap
