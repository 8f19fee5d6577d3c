import Mathlib.Computability.Language

/-!
Patterns: sequences of sets of letters, each taken once or any number of times. `Here` says that a
word starts with a word of the pattern; it can be decided letter by letter.
-/

namespace Pattern

variable {α : Type*}

inductive Item (α : Type*) where
  | one (S : Set α)
  | star (S : Set α)

/-- The words of one letter of `S`. -/
def letter (S : Set α) : Language α := {w | ∃ x ∈ S, w = [x]}

def Item.lang : Item α → Language α
  | .one S => letter S
  | .star S => KStar.kstar (letter S)

/-- The language of a sequence of items. -/
def lang (items : List (Item α)) : Language α := (items.map Item.lang).prod

/-- The word starts with a word of the items, which is all of it if `atEnd`. -/
def Here (items : List (Item α)) (atEnd : Bool) (t : List α) : Prop :=
  ∃ mid post, t = mid ++ post ∧ mid ∈ lang items ∧ (atEnd = true → post = [])

variable {S : Set α} {items : List (Item α)} {atEnd : Bool} {t : List α}

theorem here_nil_false : Here [] false t := ⟨[], t, rfl, rfl, nofun⟩

theorem here_nil_true : Here [] true t ↔ t = [] := by
  constructor
  · rintro ⟨mid, post, rfl, hmid, hpost⟩
    rw [hpost rfl, show mid = [] from hmid]
    rfl
  · rintro rfl
    exact ⟨[], [], rfl, rfl, fun _ => rfl⟩

theorem lang_one (S : Set α) (items : List (Item α)) :
    lang (.one S :: items) = letter S * lang items := List.prod_cons

/-- A starred set is left out, or one of its letters is taken and it comes again. -/
theorem lang_star (S : Set α) (items : List (Item α)) :
    lang (.star S :: items) = lang items + letter S * lang (.star S :: items) := by
  have hstar : lang (.star S :: items) = KStar.kstar (letter S) * lang items := List.prod_cons
  rw [hstar]
  nth_rewrite 1 [← Language.one_add_self_mul_kstar_eq_kstar]
  rw [add_mul, one_mul, mul_assoc]

theorem exists_letter_mul {L : Language α} :
    (∃ mid post, t = mid ++ post ∧ mid ∈ letter S * L ∧ (atEnd = true → post = [])) ↔
      ∃ x t', t = x :: t' ∧ x ∈ S ∧
        ∃ mid post, t' = mid ++ post ∧ mid ∈ L ∧ (atEnd = true → post = []) := by
  constructor
  · rintro ⟨mid, post, rfl, hmid, hpost⟩
    obtain ⟨w, ⟨x, hx, rfl⟩, rest, hrest, rfl⟩ := Language.mem_mul.1 hmid
    exact ⟨x, rest ++ post, rfl, hx, rest, post, rfl, hrest, hpost⟩
  · rintro ⟨x, t', rfl, hx, mid, post, rfl, hmid, hpost⟩
    exact ⟨x :: mid, post, rfl, Language.mem_mul.2 ⟨[x], ⟨x, hx, rfl⟩, mid, hmid, rfl⟩, hpost⟩

theorem here_one : Here (.one S :: items) atEnd t ↔
    ∃ x t', t = x :: t' ∧ x ∈ S ∧ Here items atEnd t' := by
  rw [Here, lang_one, exists_letter_mul]
  rfl

theorem here_star : Here (.star S :: items) atEnd t ↔
    Here items atEnd t ∨ ∃ x t', t = x :: t' ∧ x ∈ S ∧ Here (.star S :: items) atEnd t' := by
  have hsplit : Here (.star S :: items) atEnd t ↔ Here items atEnd t ∨
      ∃ mid post, t = mid ++ post ∧ mid ∈ letter S * lang (.star S :: items) ∧
        (atEnd = true → post = []) := by
    constructor
    · rintro ⟨mid, post, ht, hmid, hpost⟩
      rw [lang_star] at hmid
      obtain hmid | hmid := (Language.mem_add _ _ _).1 hmid
      · exact .inl ⟨mid, post, ht, hmid, hpost⟩
      · exact .inr ⟨mid, post, ht, hmid, hpost⟩
    · rintro (⟨mid, post, ht, hmid, hpost⟩ | ⟨mid, post, ht, hmid, hpost⟩)
      · exact ⟨mid, post, ht, lang_star S items ▸ (Language.mem_add _ _ _).2 (.inl hmid), hpost⟩
      · exact ⟨mid, post, ht, lang_star S items ▸ (Language.mem_add _ _ _).2 (.inr hmid), hpost⟩
  rw [hsplit, exists_letter_mul]
  rfl

end Pattern
