import Mathlib.Tactic

/-!
Total maps on `ℕ` stored as binary tries. A trie reads and writes in the number of
binary digits of the key, and two tries compare by `decide`, so that models that
keep an array or a memory in one can be run by the kernel.
-/

/-- Key `0` sits at the root, `2j+1` in the left child and `2j+2` in the right child. -/
inductive TMap (α : Type) where
  | empty
  | node (l : TMap α) (v : Option α) (r : TMap α)
  deriving DecidableEq, Repr

namespace TMap
variable {α : Type}

instance : Inhabited (TMap α) := ⟨.empty⟩

def get? : TMap α → ℕ → Option α
  | .empty, _ => none
  | .node l v r, k =>
      if k = 0 then v else if k % 2 = 1 then l.get? (k / 2) else r.get? (k / 2 - 1)

def left : TMap α → TMap α
  | .empty => .empty
  | .node l _ _ => l

def right : TMap α → TMap α
  | .empty => .empty
  | .node _ _ r => r

def root : TMap α → Option α
  | .empty => none
  | .node _ v _ => v

/-- The recursion is on a bound of the key; a write uses one level for each digit. -/
def setAux : ℕ → TMap α → ℕ → α → TMap α
  | 0, m, _, _ => m
  | f + 1, m, k, a =>
      if k = 0 then .node m.left (some a) m.right
      else if k % 2 = 1 then .node (setAux f m.left (k / 2) a) m.root m.right
      else .node m.left m.root (setAux f m.right (k / 2 - 1) a)

def set (m : TMap α) (k : ℕ) (a : α) : TMap α := setAux (k + 1) m k a

def get [Inhabited α] (m : TMap α) (k : ℕ) : α := (m.get? k).getD default

theorem get?_eq_children (m : TMap α) (k : ℕ) :
    m.get? k = if k = 0 then m.root else if k % 2 = 1 then m.left.get? (k / 2)
      else m.right.get? (k / 2 - 1) := by
  cases m with
  | empty => simp [get?, root, left, right]
  | node l v r => rfl

theorem get?_setAux (f : ℕ) (m : TMap α) (k j : ℕ) (a : α) (hk : k < f) :
    (setAux f m k a).get? j = if j = k then some a else m.get? j := by
  induction f generalizing m k j with
  | zero => omega
  | succ f ih =>
    rw [setAux, get?_eq_children m j]
    by_cases h0 : k = 0
    · rw [if_pos h0, get?]
      by_cases hj : j = 0 <;> simp [h0, hj]
    · rw [if_neg h0]
      by_cases hodd : k % 2 = 1
      · rw [if_pos hodd, get?, ih _ _ _ (by omega)]
        by_cases hj : j = k
        · simp [hj, h0, hodd]
        · rw [if_neg hj]
          split_ifs <;> first | rfl | omega
      · rw [if_neg hodd, get?, ih _ _ _ (by omega)]
        by_cases hj : j = k
        · simp [hj, h0, hodd]
        · rw [if_neg hj]
          split_ifs <;> first | rfl | omega

theorem get?_set (m : TMap α) (k j : ℕ) (a : α) :
    (m.set k a).get? j = if j = k then some a else m.get? j :=
  get?_setAux _ m k j a (Nat.lt_succ_self k)

theorem setAux_setAux (f : ℕ) (m : TMap α) (k : ℕ) (a b : α) :
    setAux f (setAux f m k a) k b = setAux f m k b := by
  induction f generalizing m k with
  | zero => rfl
  | succ f ih =>
    by_cases h0 : k = 0
    · simp [setAux, h0, left, right]
    · by_cases hodd : k % 2 = 1 <;> simp [setAux, h0, hodd, left, right, root, ih]

@[simp] theorem set_set (m : TMap α) (k : ℕ) (a b : α) : (m.set k a).set k b = m.set k b :=
  setAux_setAux _ m k a b

def fillAux : ℕ → TMap α → ℕ → ℕ → α → TMap α
  | 0, m, _, _, _ => m
  | f + 1, m, a, b, c =>
      if a < b then
        .node (fillAux f m.left (a / 2) (b / 2) c) (if a = 0 then some c else m.root)
          (fillAux f m.right ((a - 1) / 2) ((b - 1) / 2) c)
      else m

/-- The keys `[a, b)` get the value `c`. -/
def fill (m : TMap α) (a b : ℕ) (c : α) : TMap α := fillAux b m a b c

theorem fillAux_self (f : ℕ) (m : TMap α) (a : ℕ) (c : α) : fillAux f m a a c = m := by
  cases f with
  | zero => rfl
  | succ f => rw [fillAux, if_neg (Nat.lt_irrefl a)]

section
variable {f a b : ℕ} {m : TMap α} {c : α}

theorem left_fillAux (h : a ≤ b) :
    (fillAux (f + 1) m a b c).left = fillAux f m.left (a / 2) (b / 2) c := by
  rcases h.eq_or_lt with rfl | hlt
  · rw [fillAux_self, fillAux_self]
  · rw [fillAux, if_pos hlt]
    rfl

theorem right_fillAux (h : a ≤ b) :
    (fillAux (f + 1) m a b c).right = fillAux f m.right ((a - 1) / 2) ((b - 1) / 2) c := by
  rcases h.eq_or_lt with rfl | hlt
  · rw [fillAux_self, fillAux_self]
  · rw [fillAux, if_pos hlt]
    rfl

theorem root_fillAux (h : a ≤ b) (hb : b ≠ 0) :
    (fillAux (f + 1) m a b c).root = if a = 0 then some c else m.root := by
  rcases h.eq_or_lt with rfl | hlt
  · rw [fillAux_self, if_neg hb]
  · rw [fillAux, if_pos hlt]
    rfl

theorem setAux_fillAux {g : ℕ} (h : a ≤ b) (hf : b < f) (hg : b < g) :
    setAux g (fillAux f m a b c) b c = fillAux f m a (b + 1) c := by
  induction f generalizing g m a b with
  | zero => omega
  | succ f ih =>
    obtain ⟨g, rfl⟩ : ∃ k, g = k + 1 := ⟨g - 1, by omega⟩
    have hnext : fillAux (f + 1) m a (b + 1) c = .node (fillAux f m.left (a / 2) ((b + 1) / 2) c)
        (if a = 0 then some c else m.root) (fillAux f m.right ((a - 1) / 2) (b / 2) c) := by
      rw [fillAux, if_pos (Nat.lt_succ_of_le h), Nat.add_sub_cancel]
    rw [hnext, setAux, left_fillAux h, right_fillAux h]
    by_cases h0 : b = 0
    · obtain rfl : a = 0 := by omega
      rw [if_pos h0, if_pos rfl, h0]
    · rw [if_neg h0, root_fillAux h h0]
      by_cases hodd : b % 2 = 1
      · rw [if_pos hodd, ih (Nat.div_le_div_right h) (by omega) (by omega),
          show (b + 1) / 2 = b / 2 + 1 by omega, show (b - 1) / 2 = b / 2 by omega]
      · rw [if_neg hodd, show b / 2 - 1 = (b - 1) / 2 by omega,
          ih (Nat.div_le_div_right (Nat.sub_le_sub_right h 1)) (by omega) (by omega),
          show (b + 1) / 2 = b / 2 by omega, show (b - 1) / 2 + 1 = b / 2 by omega]
end

variable [Inhabited α]

@[simp] theorem get_empty (k : ℕ) : (empty : TMap α).get k = default := rfl

theorem get_set (m : TMap α) (k j : ℕ) (a : α) :
    (m.set k a).get j = if j = k then a else m.get j := by
  simp only [get, get?_set]
  split_ifs <;> rfl

@[simp] theorem get_set_self (m : TMap α) (k : ℕ) (a : α) : (m.set k a).get k = a := by
  simp [get_set]

theorem get_set_ne (m : TMap α) {k j : ℕ} (a : α) (h : j ≠ k) :
    (m.set k a).get j = m.get j := by
  simp [get_set, h]

theorem get_set_eq_update (m : TMap α) (k : ℕ) (a : α) :
    (m.set k a).get = Function.update m.get k a := by
  funext j
  rw [get_set, Function.update_apply]

theorem get_set_get (m : TMap α) (k j : ℕ) : (m.set k (m.get k)).get j = m.get j := by
  rw [get_set]
  split_ifs with h
  · rw [h]
  · rfl

end TMap
