import Mathlib.Tactic

/-!
Lists that run through the memory of their own nodes. `next` is the word that a node
holds, and the null node `0` ends the list.
-/

namespace FreeList
variable {next next' : ℕ → ℕ} {head x : ℕ} {l l' : List ℕ}

def Chain (next : ℕ → ℕ) : ℕ → List ℕ → Prop
  | head, [] => head = 0
  | head, x :: l => head = x ∧ x ≠ 0 ∧ Chain next (next x) l

instance decidableChain (next : ℕ → ℕ) : (head : ℕ) → (l : List ℕ) → Decidable (Chain next head l)
  | head, [] => inferInstanceAs (Decidable (head = 0))
  | head, x :: l =>
      have := decidableChain next (next x) l
      inferInstanceAs (Decidable (head = x ∧ x ≠ 0 ∧ Chain next (next x) l))

theorem Chain.congr (h : Chain next head l) (hn : ∀ x, x ∈ l → next' x = next x) :
    Chain next' head l := by
  induction l generalizing head with
  | nil => exact h
  | cons x l ih =>
    obtain ⟨hx, h0, hl⟩ := h
    refine ⟨hx, h0, ?_⟩
    rw [hn x (by simp)]
    exact ih hl fun y hy => hn y (by simp [hy])

theorem Chain.push (h : Chain next head l) (hx : x ≠ 0) (hn : next' x = head)
    (hl : ∀ y, y ∈ l → next' y = next y) : Chain next' x (x :: l) :=
  ⟨rfl, hx, hn ▸ h.congr hl⟩

theorem Chain.exists_of_ne (h : Chain next head l) (h0 : head ≠ 0) :
    ∃ l', l = head :: l' ∧ Chain next (next head) l' := by
  cases l with
  | nil => exact absurd h h0
  | cons x l =>
    obtain ⟨hx, -, hl⟩ := h
    exact ⟨l, by rw [hx], hx ▸ hl⟩

theorem Chain.eq_nil (h : Chain next 0 l) : l = [] := by
  cases l with
  | nil => rfl
  | cons x l => exact absurd h.1.symm h.2.1

/-- The memory determines the list. -/
theorem Chain.unique (h : Chain next head l) (h' : Chain next head l') : l = l' := by
  induction l generalizing head l' with
  | nil =>
    have h0 : head = 0 := h
    rw [h0] at h'
    exact h'.eq_nil.symm
  | cons x l ih =>
    obtain ⟨rfl, h0, hl⟩ := h
    obtain ⟨m, rfl, hm⟩ := h'.exists_of_ne h0
    rw [ih hl hm]

end FreeList
