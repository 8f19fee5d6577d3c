import Xv6.Lib.Pattern
import Xv6.User.Grep

/-!
The matcher of `grep` decides the language of its pattern. `matchhere` looks for a word of the
items at one place, and `matchstar` for a word of a starred item and the items after it.
-/

namespace Xv6
namespace Grep
open Pattern

/-- The string a `char *` points to. -/
def cstring (s : List UInt8) : List UInt8 := s.takeWhile (· ≠ 0)

/-- The characters that `c` stands for in a pattern. -/
def charSet (c : UInt8) : Set UInt8 := {x | c = DOT ∨ x = c}

/-- The items of a pattern, and whether there is a final `$`. -/
def items : List UInt8 → List (Item UInt8) × Bool
  | [] => ([], false)
  | [c] => if c = DOLLAR then ([], true) else ([.one (charSet c)], false)
  | c :: d :: re =>
      if d = STAR then (.star (charSet c) :: (items re).1, (items re).2)
      else (.one (charSet c) :: (items (d :: re)).1, (items (d :: re)).2)

/-- A pattern read: whether there is a leading `^`, then the items. -/
structure Regex where
  anchored : Bool
  items : List (Item UInt8)
  atEnd : Bool

def parse : List UInt8 → Regex
  | [] => ⟨false, [], false⟩
  | c :: re =>
      if c = CARET then ⟨true, (items re).1, (items re).2⟩
      else ⟨false, (items (c :: re)).1, (items (c :: re)).2⟩

/-- Some substring of the text is in the language of the items: a prefix if there is a `^`, and a
suffix if there is a `$`. -/
def Regex.Selects (r : Regex) (text : List UInt8) : Prop :=
  ∃ pre mid post, text = pre ++ mid ++ post ∧ mid ∈ lang r.items ∧
    (r.anchored = true → pre = []) ∧ (r.atEnd = true → post = [])

/-! ### Strings -/

theorem cstring_eq_nil {s : List UInt8} (h : ch s 0 = 0) : cstring s = [] := by
  cases s with
  | nil => rfl
  | cons c s =>
    have hc : c = 0 := h
    exact List.takeWhile_cons_of_neg (by simpa using hc)

theorem cstring_eq_cons {s : List UInt8} (h : ch s 0 ≠ 0) :
    cstring s = ch s 0 :: cstring (s.drop 1) := by
  cases s with
  | nil => exact absurd rfl h
  | cons c s =>
    have hc : c ≠ 0 := h
    exact List.takeWhile_cons_of_pos (by simpa using hc)

theorem ch_drop_one (s : List UInt8) : ch (s.drop 1) 0 = ch s 1 := by
  rw [ch, ch, List.getD_eq_getElem?_getD, List.getD_eq_getElem?_getD, List.getElem?_drop]

theorem exists_cons_cstring {text : List UInt8} {S : Set UInt8} {P : List UInt8 → Prop} :
    (∃ x t, cstring text = x :: t ∧ x ∈ S ∧ P t) ↔
      ch text 0 ≠ 0 ∧ ch text 0 ∈ S ∧ P (cstring (text.drop 1)) := by
  by_cases h0 : ch text 0 = 0
  · rw [cstring_eq_nil h0]
    refine iff_of_false ?_ fun h => h.1 h0
    rintro ⟨x, t, ht, -⟩
    cases ht
  · rw [cstring_eq_cons h0]
    constructor
    · rintro ⟨x, t, ht, hx, hP⟩
      obtain ⟨rfl, rfl⟩ := List.cons.inj ht
      exact ⟨h0, hx, hP⟩
    · rintro ⟨-, hx, hP⟩
      exact ⟨_, _, rfl, hx, hP⟩

/-! ### The items of a pattern, as `matchhere` looks at them -/

section
variable {re : List UInt8}

theorem items_nil (h0 : ch re 0 = 0) : items (cstring re) = ([], false) := by
  rw [cstring_eq_nil h0, items]

theorem items_star (h0 : ch re 0 ≠ 0) (h1 : ch re 1 = STAR) : items (cstring re) =
    (.star (charSet (ch re 0)) :: (items (cstring (re.drop 2))).1,
      (items (cstring (re.drop 2))).2) := by
  have h1' : ch (re.drop 1) 0 ≠ 0 := by
    rw [ch_drop_one, h1]
    decide
  rw [cstring_eq_cons h0, cstring_eq_cons h1', ch_drop_one, List.drop_drop, items, if_pos h1]

theorem items_dollar (h0 : ch re 0 = DOLLAR) (h1 : ch re 1 = 0) :
    items (cstring re) = ([], true) := by
  have h0' : ch re 0 ≠ 0 := by
    rw [h0]
    decide
  rw [cstring_eq_cons h0', cstring_eq_nil (by rwa [ch_drop_one]), items, if_pos h0]

theorem items_one (h0 : ch re 0 ≠ 0) (h1 : ch re 1 ≠ STAR) (h2 : ¬(ch re 0 = DOLLAR ∧ ch re 1 = 0)) :
    items (cstring re) = (.one (charSet (ch re 0)) :: (items (cstring (re.drop 1))).1,
      (items (cstring (re.drop 1))).2) := by
  rw [cstring_eq_cons h0]
  by_cases hlast : ch re 1 = 0
  · have hone : items [ch re 0] = ([.one (charSet (ch re 0))], false) := by
      rw [items, if_neg fun h => h2 ⟨h, hlast⟩]
    rw [cstring_eq_nil (by rwa [ch_drop_one]), hone, items]
  · rw [cstring_eq_cons (s := re.drop 1) (by rwa [ch_drop_one]), ch_drop_one, items, if_neg h1]

end

/-! ### The matcher -/

/-- The text starts with a word of the pattern. -/
abbrev HereAt (re text : List UInt8) : Prop :=
  Here (items (cstring re)).1 (items (cstring re)).2 (cstring text)

mutual

theorem matchhere_iff (re text : List UInt8) : matchhere re text = true ↔ HereAt re text := by
  rw [matchhere]
  by_cases h0 : ch re 0 = 0
  · rw [if_pos h0, HereAt, items_nil h0]
    exact iff_of_true rfl here_nil_false
  rw [if_neg h0]
  by_cases h1 : ch re 1 = STAR
  · rw [if_pos h1, HereAt, items_star h0 h1]
    exact matchstar_iff (ch re 0) (re.drop 2) text
  rw [if_neg h1]
  by_cases h2 : ch re 0 = DOLLAR ∧ ch re 1 = 0
  · rw [if_pos h2, HereAt, items_dollar h2.1 h2.2, here_nil_true, decide_eq_true_eq]
    constructor
    · exact cstring_eq_nil
    · intro h
      by_contra hne
      rw [cstring_eq_cons hne] at h
      cases h
  · rw [if_neg h2, HereAt, items_one h0 h1 h2, here_one, exists_cons_cstring]
    have hset : ch text 0 ∈ charSet (ch re 0) ↔ ch re 0 = DOT ∨ ch re 0 = ch text 0 :=
      or_congr Iff.rfl eq_comm
    rw [hset, ← and_assoc]
    by_cases h3 : ch text 0 ≠ 0 ∧ (ch re 0 = DOT ∨ ch re 0 = ch text 0)
    · rw [if_pos h3, matchhere_iff (re.drop 1) (text.drop 1), and_iff_right h3]
    · rw [if_neg h3]
      exact iff_of_false Bool.false_ne_true fun h => h3 h.1
termination_by (re.length, text.length, 0)
decreasing_by
  all_goals
    have : 0 < re.length := length_pos_of_ch (by assumption)
    refine Prod.Lex.left _ _ ?_
    rw [List.length_drop]
    omega

theorem matchstar_iff (c : UInt8) (re text : List UInt8) : matchstar c re text = true ↔
    Here (.star (charSet c) :: (items (cstring re)).1) (items (cstring re)).2 (cstring text) := by
  rw [matchstar, here_star, exists_cons_cstring, ← HereAt, ← matchhere_iff re text]
  have hset : ch text 0 ∈ charSet c ↔ ch text 0 = c ∨ c = DOT := or_comm
  rw [hset, ← and_assoc]
  by_cases h1 : matchhere re text = true
  · rw [if_pos h1]
    exact iff_of_true rfl (.inl h1)
  rw [if_neg h1, or_iff_right h1]
  by_cases h2 : ch text 0 ≠ 0 ∧ (ch text 0 = c ∨ c = DOT)
  · rw [if_pos h2, matchstar_iff c re (text.drop 1), and_iff_right h2]
  · rw [if_neg h2]
    exact iff_of_false Bool.false_ne_true fun h => h2 h.1
termination_by (re.length, text.length, 1)
decreasing_by
  · exact Prod.Lex.right _ (Prod.Lex.right _ Nat.zero_lt_one)
  · have : 0 < text.length := length_pos_of_ch (And.left (by assumption))
    refine Prod.Lex.right _ (Prod.Lex.left _ _ ?_)
    rw [List.length_drop]
    omega

end

/-- All suffixes of the text are tried, the empty one too. -/
theorem matchFrom_iff (re text : List UInt8) : matchFrom re text = true ↔
    ∃ pre t, cstring text = pre ++ t ∧ Here (items (cstring re)).1 (items (cstring re)).2 t := by
  rw [matchFrom]
  by_cases h1 : matchhere re text = true
  · rw [if_pos h1]
    exact iff_of_true rfl ⟨[], _, rfl, (matchhere_iff re text).1 h1⟩
  rw [if_neg h1]
  rw [matchhere_iff] at h1
  by_cases h2 : ch text 0 = 0
  · rw [if_neg (not_not.2 h2)]
    refine iff_of_false Bool.false_ne_true ?_
    rintro ⟨pre, t, ht, h⟩
    rw [cstring_eq_nil h2] at ht
    rw [(List.append_eq_nil_iff.1 ht.symm).2, ← cstring_eq_nil h2] at h
    exact h1 h
  · rw [if_pos h2, matchFrom_iff re (text.drop 1), cstring_eq_cons h2]
    constructor
    · rintro ⟨pre, t, ht, h⟩
      exact ⟨ch text 0 :: pre, t, congrArg (ch text 0 :: ·) ht, h⟩
    · rintro ⟨pre, t, ht, h⟩
      cases pre with
      | nil =>
        rw [List.nil_append] at ht
        rw [← ht, ← cstring_eq_cons h2] at h
        exact absurd h h1
      | cons x pre => exact ⟨pre, t, (List.cons.inj ht).2, h⟩
termination_by text.length
decreasing_by
  have : 0 < text.length := length_pos_of_ch (by assumption)
  rw [List.length_drop]
  omega

/-- Only the string counts, not the bytes behind it. -/
theorem matchText_congr (re : List UInt8) {text text' : List UInt8} (h : cstring text = cstring text') :
    matchText re text = matchText re text' := by
  rw [matchText, matchText]
  split_ifs
  · rw [Bool.eq_iff_iff, matchhere_iff, matchhere_iff, HereAt, h]
  · rw [Bool.eq_iff_iff, matchFrom_iff, matchFrom_iff, h]

/-- `match` returns, and it returns `1` if and only if the pattern selects the text. -/
theorem matchText_iff_selects (re text : List UInt8) :
    matchText re text = true ↔ (parse (cstring re)).Selects (cstring text) := by
  rw [matchText]
  by_cases hc : ch re 0 = CARET
  · have h0 : ch re 0 ≠ 0 := by
      rw [hc]
      decide
    rw [if_pos hc, matchhere_iff, cstring_eq_cons h0, parse, if_pos hc]
    constructor
    · rintro ⟨mid, post, ht, hmid, hpost⟩
      exact ⟨[], mid, post, ht, hmid, fun _ => rfl, hpost⟩
    · rintro ⟨pre, mid, post, ht, hmid, hpre, hpost⟩
      rw [hpre rfl, List.nil_append] at ht
      exact ⟨mid, post, ht, hmid, hpost⟩
  · have hparse : parse (cstring re) = ⟨false, (items (cstring re)).1, (items (cstring re)).2⟩ := by
      by_cases h0 : ch re 0 = 0
      · rw [cstring_eq_nil h0, parse, items]
      · rw [cstring_eq_cons h0, parse, if_neg hc]
    rw [if_neg hc, matchFrom_iff, hparse]
    constructor
    · rintro ⟨pre, t, ht, mid, post, rfl, hmid, hpost⟩
      exact ⟨pre, mid, post, by rw [ht, List.append_assoc], hmid, nofun, hpost⟩
    · rintro ⟨pre, mid, post, ht, hmid, -, hpost⟩
      exact ⟨pre, mid ++ post, by rw [ht, List.append_assoc], mid, post, rfl, hmid, hpost⟩

end Grep
end Xv6
