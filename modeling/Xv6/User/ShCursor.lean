import Xv6.Lib.Hoare
import Xv6.User.ShGrammar

/-!
The cursor of the parser stands before the tokens that `lex` finds in the rest of the line;
`peek` looks at the first of them and `gettoken` takes it.
-/

namespace Xv6
namespace Sh
open Hoare

/-- The code `gettoken` returns for a token. -/
def Token.code : Token → UInt8
  | .bar => BAR
  | .lparen => LPAREN
  | .rparen => RPAREN
  | .semi => SEMI
  | .amp => AMP
  | .lt => LT
  | .gt => GT
  | .gtgt => APPEND
  | .word _ => WORD

/-- The symbol a token starts with. -/
def Token.lead : Token → Option UInt8
  | .bar => some BAR
  | .lparen => some LPAREN
  | .rparen => some RPAREN
  | .semi => some SEMI
  | .amp => some AMP
  | .lt => some LT
  | .gt => some GT
  | .gtgt => some GT
  | .word _ => none

/-- The first of the tokens starts with one of the symbols `toks`. -/
def leads (toks : List UInt8) (ts : List Token) : Bool :=
  ts.head?.any fun t => t.lead.any toks.contains

structure Spells (str : List UInt8) (p : Span) (w : Word) : Prop where
  text : (str.drop p.1).take w.length = w
  stop : p.2 = p.1 + w.length
  within : p.2 ≤ str.length
  chars : ∀ c ∈ w, isWord c = true
  ends : ∀ c ∈ (str.drop p.2).head?, isWord c = false

structure Cursor (str : List UInt8) (s : ℕ) (ts : List Token) : Prop where
  le : s ≤ str.length
  tokens : lex (str.drop s) = ts

section
variable {str : List UInt8} {s : ℕ} {ts : List Token}

theorem drop_skip (p : UInt8 → Bool) (s : ℕ) :
    str.drop (skip str p s) = (str.drop s).dropWhile p := by
  have h := List.takeWhile_append_dropWhile (p := p) (l := str.drop s)
  rw [skip, ← List.drop_drop]
  nth_rewrite 2 [← h]
  exact List.drop_left

theorem skip_le (p : UInt8 → Bool) (hs : s ≤ str.length) : skip str p s ≤ str.length := by
  have h := (List.takeWhile_sublist (l := str.drop s) p).length_le
  rw [List.length_drop] at h
  unfold skip
  omega

theorem charAt_eq (str : List UInt8) (s : ℕ) : charAt str s = (str.drop s).headD 0 := by
  rw [charAt, List.headD_eq_head?_getD, List.head?_drop, List.getD_eq_getElem?_getD]

theorem lex_dropWhile (l : List UInt8) : lex (l.dropWhile isSpace) = lex l := by
  induction l with
  | nil => rfl
  | cons c l ih =>
    by_cases hc : isSpace c = true
    · rw [List.dropWhile_cons_of_pos hc, ih]
      conv_rhs => rw [lex, if_pos hc]
    · rw [List.dropWhile_cons_of_neg hc]

theorem Cursor.skip (h : Cursor str s ts) : Cursor str (skip str isSpace s) ts := by
  refine ⟨skip_le _ h.le, ?_⟩
  rw [drop_skip, lex_dropWhile, h.tokens]

/-- No whitespace follows. -/
def Settled (str : List UInt8) (s : ℕ) : Prop := ∀ c ∈ (str.drop s).head?, isSpace c = false

theorem settled_skip (s : ℕ) : Settled str (Sh.skip str isSpace s) := by
  intro c hc
  rw [drop_skip] at hc
  have := List.head?_dropWhile_not (p := isSpace) (l := str.drop s)
  rw [Option.mem_def] at hc
  rw [hc] at this
  simpa using this

theorem drop_eq_cons {c : UInt8} {l : List UInt8} (h : str.drop s = c :: l) :
    s < str.length ∧ str.drop (s + 1) = l := by
  constructor
  · by_contra hge
    rw [List.drop_eq_nil_of_le (by omega)] at h
    cases h
  · rw [← List.drop_drop, h]
    rfl

theorem symbolToken_eq_none {c : UInt8} (h : symbolToken c = none) :
    c ≠ BAR ∧ c ≠ LPAREN ∧ c ≠ RPAREN ∧ c ≠ SEMI ∧ c ≠ AMP ∧ c ≠ LT := by
  unfold symbolToken at h
  split_ifs at h
  simp_all

theorem symbolToken_eq_some {c : UInt8} {t : Token} (h : symbolToken c = some t) :
    (c = BAR ∨ c = LPAREN ∨ c = RPAREN ∨ c = SEMI ∨ c = AMP ∨ c = LT) ∧ t.code = c ∧
      t.lead = some c ∧ ∀ w, t ≠ .word w := by
  unfold symbolToken at h
  split_ifs at h with h₁ h₂ h₃ h₄ h₅ h₆ <;> cases h <;> simp_all [Token.code, Token.lead]

theorem isWord_of_symbolToken {c : UInt8} (hs : isSpace c = false) (h : symbolToken c = none)
    (hgt : c ≠ GT) : isWord c = true := by
  obtain ⟨h₁, h₂, h₃, h₄, h₅, h₆⟩ := symbolToken_eq_none h
  unfold isSpace at hs
  unfold isWord symbols
  rw [hs]
  simp only [BAR, LPAREN, RPAREN, SEMI, AMP, LT, GT] at *
  simp [*]

theorem spells_skip {c : UInt8} {l : List UInt8} (hs : s ≤ str.length)
    (hr : str.drop s = c :: l) (hc : isWord c = true) :
    Spells str (s, Sh.skip str isWord s) (c :: l.takeWhile isWord) := by
  have htake : (str.drop s).takeWhile isWord = c :: l.takeWhile isWord := by
    rw [hr, List.takeWhile_cons_of_pos hc]
  constructor
  case text =>
    rw [← htake]
    exact (List.prefix_iff_eq_take.mp (List.takeWhile_prefix isWord)).symm
  case stop => rw [← htake]; rfl
  case within => exact skip_le _ hs
  case chars =>
    rw [← htake]
    exact fun d hd => List.all_eq_true.mp List.all_takeWhile d hd
  case ends =>
    intro d hd
    rw [drop_skip] at hd
    have := List.head?_dropWhile_not (p := isWord) (l := str.drop s)
    rw [Option.mem_def] at hd
    rw [hd] at this
    simpa using this

/-- The first token of what follows the cursor. -/
theorem tokenAt_spec (hz : 0 ∉ str) (h : Cursor str s ts) (hs : Settled str s) :
    (tokenAt str s).1 = ts.head?.elim 0 Token.code ∧ Cursor str (tokenAt str s).2 ts.tail ∧
      (∀ w, ts.head? = some (.word w) → Spells str (s, (tokenAt str s).2) w) := by
  have htok := h.tokens
  have hchar := charAt_eq str s
  cases hr : str.drop s with
  | nil =>
    rw [hr] at htok hchar
    simp only [List.headD_nil] at hchar
    have hts : ts = [] := by rw [← htok, lex]
    subst hts
    unfold tokenAt
    simp only [hchar, if_true, List.head?_nil, Option.elim_none, List.tail_nil, true_and]
    exact ⟨h, fun w hw => by cases hw⟩
  | cons c l =>
    obtain ⟨hlt, hl⟩ := drop_eq_cons hr
    have hspace : isSpace c = false := hs c (by rw [hr]; rfl)
    have hc0 : c ≠ 0 := by
      rintro rfl
      exact hz (List.mem_of_mem_drop (hr ▸ List.mem_cons_self))
    rw [hr] at htok hchar
    simp only [List.headD_cons] at hchar
    rw [lex, if_neg (by rw [hspace]; exact Bool.false_ne_true)] at htok
    unfold tokenAt
    simp only [hchar, if_neg hc0]
    cases hsym : symbolToken c with
    | some t =>
      obtain ⟨hone, hcode, -, hword⟩ := symbolToken_eq_some hsym
      rw [hsym] at htok
      subst htok
      rw [if_pos hone]
      refine ⟨hcode.symm, ⟨hlt, by rw [hl]; rfl⟩, fun w hw => ?_⟩
      exact absurd (Option.some.inj hw) (hword w)
    | none =>
      obtain ⟨h₁, h₂, h₃, h₄, h₅, h₆⟩ := symbolToken_eq_none hsym
      rw [hsym] at htok
      simp only at htok
      rw [if_neg (by simp [h₁, h₂, h₃, h₄, h₅, h₆])]
      have hnext : charAt str (s + 1) = l.headD 0 := by rw [charAt_eq, hl]
      by_cases hgt : c = GT
      · rw [if_pos hgt] at htok ⊢
        by_cases hgg : l.head? = some GT
        · rw [if_pos hgg] at htok
          subst htok
          obtain ⟨l', rfl⟩ : ∃ l', l = GT :: l' := by
            cases l with
            | nil => cases hgg
            | cons d l' => exact ⟨l', by rw [Option.some.inj hgg]⟩
          obtain ⟨hlt', hl'⟩ := drop_eq_cons hl
          rw [if_pos (by rw [hnext]; rfl)]
          exact ⟨rfl, ⟨hlt', by rw [hl']; rfl⟩, fun w hw => by cases hw⟩
        · rw [if_neg hgg] at htok
          subst htok
          have hne : charAt str (s + 1) ≠ GT := by
            rw [hnext]
            cases l with
            | nil => decide
            | cons d l' => exact fun hd => hgg (congrArg some hd)
          rw [if_neg hne]
          exact ⟨rfl, ⟨hlt, by rw [hl]; rfl⟩, fun w hw => by cases hw⟩
      · rw [if_neg hgt] at htok ⊢
        subst htok
        have hword := isWord_of_symbolToken hspace hsym hgt
        have hdrop : str.drop (Sh.skip str isWord s) = l.dropWhile isWord := by
          rw [drop_skip, hr, List.dropWhile_cons_of_pos hword]
        refine ⟨rfl, ⟨skip_le _ h.le, by rw [hdrop]; rfl⟩, fun w hw => ?_⟩
        cases hw
        exact spells_skip h.le hr hword

theorem gettoken_nil (hz : 0 ∉ str) (h : Cursor str s []) {Q : UInt8 × Span → ℕ → Prop}
    {E : Fault → ℕ → Prop} (hQ : ∀ p t, Cursor str t [] → Q (0, p) t) :
    Post (gettoken str) s Q E := by
  obtain ⟨htok, hcur, -⟩ := tokenAt_spec hz h.skip (settled_skip s)
  unfold gettoken
  simp only [post_bind, post_get, post_set, post_pure]
  rw [htok]
  exact hQ _ _ hcur.skip

theorem gettoken_cons (hz : 0 ∉ str) {tok : Token} (h : Cursor str s (tok :: ts))
    {Q : UInt8 × Span → ℕ → Prop} {E : Fault → ℕ → Prop}
    (hQ : ∀ p t, Cursor str t ts → (∀ w, tok = .word w → Spells str p w) → Q (tok.code, p) t) :
    Post (gettoken str) s Q E := by
  obtain ⟨htok, hcur, hword⟩ := tokenAt_spec hz h.skip (settled_skip s)
  unfold gettoken
  simp only [post_bind, post_get, post_set, post_pure]
  rw [htok]
  exact hQ _ _ hcur.skip fun w hw => hword w (congrArg some hw)

theorem charAt_spec (hz : 0 ∉ str) (h : Cursor str s ts) (hs : Settled str s)
    {toks : List UInt8} (ht : ∀ c ∈ toks, isWord c = false) :
    (charAt str s ≠ 0 && toks.contains (charAt str s)) = leads toks ts := by
  have htok := h.tokens
  have hchar := charAt_eq str s
  cases hr : str.drop s with
  | nil =>
    rw [hr] at htok hchar
    rw [← htok, lex, hchar]
    rfl
  | cons c l =>
    have hspace : isSpace c = false := hs c (by rw [hr]; rfl)
    have hc0 : c ≠ 0 := by
      rintro rfl
      exact hz (List.mem_of_mem_drop (hr ▸ List.mem_cons_self))
    rw [hr] at htok hchar
    simp only [List.headD_cons] at hchar
    rw [lex, if_neg (by rw [hspace]; exact Bool.false_ne_true)] at htok
    rw [hchar]
    have hlead : ∀ t ts', t.lead = some c → ts = t :: ts' →
        (c ≠ 0 && toks.contains c) = leads toks ts := by
      rintro t ts' hl rfl
      simp [leads, hl, hc0]
    cases hsym : symbolToken c with
    | some t =>
      rw [hsym] at htok
      exact hlead t _ (symbolToken_eq_some hsym).2.2.1 htok.symm
    | none =>
      rw [hsym] at htok
      simp only at htok
      by_cases hgt : c = GT
      · rw [if_pos hgt] at htok
        split_ifs at htok
        · exact hlead .gtgt _ (by rw [hgt]; rfl) htok.symm
        · exact hlead .gt _ (by rw [hgt]; rfl) htok.symm
      · rw [if_neg hgt] at htok
        have hword := isWord_of_symbolToken hspace hsym hgt
        have hnot : toks.contains c = false := by
          by_contra hcon
          have hmem : c ∈ toks := by simpa using hcon
          rw [ht c hmem] at hword
          exact Bool.false_ne_true hword
        rw [← htok, hnot, Bool.and_false]
        rfl

theorem peek_spec (hz : 0 ∉ str) (h : Cursor str s ts) {toks : List UInt8}
    (ht : toks.any isWord = false) {Q : Bool → ℕ → Prop} {E : Fault → ℕ → Prop}
    (hQ : ∀ t, Cursor str t ts → Settled str t → Q (leads toks ts) t) :
    Post (peek str toks) s Q E := by
  have ht : ∀ c ∈ toks, isWord c = false := by simpa using ht
  unfold peek
  simp only [post_bind, post_get, post_set, post_pure]
  rw [charAt_spec hz h.skip (settled_skip s) ht]
  exact hQ _ h.skip (settled_skip s)

end

end Sh
end Xv6
