import Xv6.User.ShCursor

/-!
The parser of the shell accepts exactly the lines of the grammar. Soundness follows the
recursion of the parser: what a function consumed derives from its symbol, and a fault is a
syntax error. Completeness follows a derivation, with the tokens that may come after it.
-/

namespace Xv6
namespace Sh
open Hoare

/-- The parser gives up on the line. -/
def Fault.Rejects (f : Fault) : Prop := ∃ p, f = .panic p ∧ p ≠ .parseblock

structure RepRedir (str : List UInt8) (r : Redir) (a : Redirection) : Prop where
  file : Spells str r.file a.file
  mode : r.mode = a.mode
  fd : r.fd = a.fd

/-- The pointers of `c` point to the words of `t`. -/
inductive Rep (str : List UInt8) : Cmd → Tree → Prop
  | exec {argv : List Span} {ws : List Word} (h : List.Forall₂ (Spells str) argv ws) :
      Rep str (.exec argv) (.exec ws)
  | redir {c : Cmd} {t : Tree} {r : Redir} {a : Redirection} (h : Rep str c t)
      (hr : RepRedir str r a) : Rep str (.redir c r) (.redir t a.file a.mode a.fd)
  | pipe {c d : Cmd} {t u : Tree} (h : Rep str c t) (h' : Rep str d u) :
      Rep str (.pipe c d) (.pipe t u)
  | list {c d : Cmd} {t u : Tree} (h : Rep str c t) (h' : Rep str d u) :
      Rep str (.list c d) (.list t u)
  | back {c : Cmd} {t : Tree} (h : Rep str c t) : Rep str (.back c) (.back t)

section
variable {str : List UInt8} {s n : ℕ} {ts : List Token}

theorem Rep.wrap {c : Cmd} {t : Tree} {rs : List Redir} {a : List Redirection}
    (h : Rep str c t) (hr : List.Forall₂ (RepRedir str) rs a) :
    Rep str (wrap c rs) (t.wrap a) := by
  induction hr generalizing c t with
  | nil => exact h
  | cons hra hrs ih => exact ih (.redir h hra)

theorem Rep.backs {c : Cmd} {t : Tree} (h : Rep str c t) (k : ℕ) :
    Rep str (Cmd.back^[k] c) (Tree.back^[k] t) := by
  induction k generalizing c t with
  | zero => exact h
  | succ k ih => exact ih (.back h)

theorem leads_nil (toks : List UInt8) : leads toks [] = false := rfl

theorem leads_cons (toks : List UInt8) (t : Token) (ts : List Token) :
    leads toks (t :: ts) = t.lead.any toks.contains := rfl

theorem leads_head (tok : Token) {c : UInt8} (hc : tok.lead = some c) :
    leads [c] (tok :: ts) = true := by
  rw [leads_cons, hc]
  simp

theorem exists_of_leads (tok : Token) {c : UInt8} (hc : tok.lead = some c) (hgt : c ≠ GT)
    (h : leads [c] ts = true) : ∃ rest, ts = tok :: rest := by
  cases ts with
  | nil => exact absurd h Bool.false_ne_true
  | cons tok' rest =>
    have hc' : tok'.lead = some c := by
      rw [leads_cons, Option.any_eq_true] at h
      obtain ⟨d, hd, hdc⟩ := h
      rw [hd, List.mem_singleton.mp (List.contains_iff_mem.mp hdc)]
    refine ⟨rest, congrArg (· :: rest) ?_⟩
    cases tok <;> cases hc <;> cases tok' <;> first | rfl | exact absurd rfl hgt | cases hc'

@[simp] theorem post_panic {α : Type} {p : Panic} {Q : α → ℕ → Prop} {E : Fault → ℕ → Prop} :
    Post (panic p : P α) s Q E ↔ E (.panic p) s := post_throw

/-- The operators of a redirection are the tokens that `parseredirs` looks for. -/
theorem exists_opens {t : Token} (h : t.lead.any [LT, GT].contains = true) (file : Span) :
    ∃ mode fd, t.opens = some (mode, fd) ∧ redirOf t.code file = ⟨file, mode, fd⟩ := by
  cases t with
  | lt => exact ⟨_, _, rfl, rfl⟩
  | gt => exact ⟨_, _, rfl, rfl⟩
  | gtgt => exact ⟨_, _, rfl, rfl⟩
  | word w => exact absurd h Bool.false_ne_true
  | _ => exact absurd h (by decide)

theorem redirOf_opens {t : Token} {mode fd : ℕ} (h : t.opens = some (mode, fd)) (file : Span) :
    redirOf t.code file = ⟨file, mode, fd⟩ ∧ t.lead.any [LT, GT].contains = true := by
  cases t <;> cases h <;> exact ⟨rfl, rfl⟩

theorem code_eq_WORD {t : Token} : t.code = WORD ↔ ∃ w, t = .word w := by
  cases t <;> simp [Token.code] <;> decide

theorem code_word (w : Word) : (Token.word w).code = WORD := rfl

theorem code_ne_zero (t : Token) : t.code ≠ 0 := by
  cases t <;> exact of_decide_eq_true rfl

/-! ### Soundness -/

theorem parseredirs_sound (hz : 0 ∉ str) (h : Cursor str s ts) (hn : ts.length + 1 ≤ n) :
    Post (parseredirs str n) s
      (fun rs s' => ∃ used rest a, ts = used ++ rest ∧ Redirs used a ∧
        List.Forall₂ (RepRedir str) rs a ∧ Cursor str s' rest)
      (fun f _ => f.Rejects) := by
  induction n generalizing s ts with
  | zero => omega
  | succ n ih =>
    unfold parseredirs
    rw [post_bind]
    refine peek_spec hz h (by decide) fun s₁ h₁ _ => ?_
    rw [post_ite]
    refine ⟨fun hlead => ?_, fun _ => post_pure.mpr ⟨[], ts, [], rfl, .nil, .nil, h₁⟩⟩
    cases ts with
    | nil => exact absurd hlead (by rw [leads_nil]; exact Bool.false_ne_true)
    | cons op ts =>
      rw [post_bind]
      refine gettoken_cons hz h₁ fun p s₂ h₂ _ => ?_
      rw [post_bind]
      cases ts with
      | nil =>
        refine gettoken_nil hz h₂ fun q s₃ h₃ => ?_
        simp only [if_pos (show (0 : UInt8) ≠ WORD by decide), post_bind, post_panic]
        exact ⟨.missingFile, rfl, by decide⟩
      | cons tok ts =>
        refine gettoken_cons hz h₂ fun file s₃ h₃ hword => ?_
        by_cases htok : tok.code = WORD
        · obtain ⟨w, rfl⟩ := code_eq_WORD.mp htok
          obtain ⟨mode, fd, hop, hredir⟩ := exists_opens hlead file
          simp only [htok, ne_eq, not_true_eq_false, if_false, post_bind, post_pure, hredir]
          simp only [List.length_cons] at hn
          refine (ih h₃ (by omega)).imp ?_
          rintro rs s' ⟨used, rest, a, rfl, hus, hrs, h'⟩
          exact ⟨op :: .word w :: used, rest, ⟨w, mode, fd⟩ :: a, rfl, .cons hop hus,
            .cons ⟨hword w rfl, rfl, rfl⟩ hrs, h'⟩
        · simp only [ne_eq, htok, not_false_eq_true, if_true, post_bind, post_panic]
          exact ⟨.missingFile, rfl, by decide⟩

theorem parseargs_sound (hz : 0 ∉ str) (h : Cursor str s ts) (hn : ts.length + 1 ≤ n)
    {argv : List Span} (hargv : argv.length ≤ MAXARGS - 1) (rs : List Redir) :
    Post (parseargs str n argv rs) s
      (fun c s' => ∃ used rest ws b argv' rs', ts = used ++ rest ∧ Args used ws b ∧
        List.Forall₂ (Spells str) argv' ws ∧ List.Forall₂ (RepRedir str) rs' b ∧
        argv.length + ws.length ≤ MAXARGS - 1 ∧
        c = wrap (.exec (argv ++ argv')) (rs ++ rs') ∧ Cursor str s' rest)
      (fun f _ => f.Rejects) := by
  induction n generalizing s ts argv rs with
  | zero => omega
  | succ n ih =>
    unfold parseargs
    rw [post_bind]
    refine peek_spec hz h (by decide) fun s₁ h₁ _ => ?_
    have hstop : ∀ s', Cursor str s' ts → ∃ used rest ws b argv' rs', ts = used ++ rest ∧
        Args used ws b ∧ List.Forall₂ (Spells str) argv' ws ∧
        List.Forall₂ (RepRedir str) rs' b ∧ argv.length + ws.length ≤ MAXARGS - 1 ∧
        wrap (.exec argv) rs = wrap (.exec (argv ++ argv')) (rs ++ rs') ∧ Cursor str s' rest :=
      fun s' h' => ⟨[], ts, [], [], [], [], rfl, .nil, .nil, .nil, hargv,
        by rw [List.append_nil, List.append_nil], h'⟩
    rw [post_ite]
    refine ⟨fun _ => post_pure.mpr (hstop s₁ h₁), fun _ => ?_⟩
    rw [post_bind]
    cases ts with
    | nil =>
      refine gettoken_nil hz h₁ fun p s₂ h₂ => ?_
      simp only [if_true, post_pure]
      exact hstop s₂ h₂
    | cons tok ts =>
      refine gettoken_cons hz h₁ fun arg s₂ h₂ hword => ?_
      simp only [code_ne_zero, if_false]
      by_cases htok : tok.code = WORD
      · obtain ⟨w, rfl⟩ := code_eq_WORD.mp htok
        simp only [List.length_cons] at hn
        simp only [htok, ne_eq, not_true_eq_false, if_false]
        by_cases hmax : argv.length + 1 ≥ MAXARGS
        · rw [if_pos hmax]
          simp only [post_bind, post_panic]
          exact ⟨.tooManyArgs, rfl, by decide⟩
        · rw [if_neg hmax]
          simp only [post_bind]
          refine (parseredirs_sound hz h₂ (by omega)).imp ?_
          rintro r s₃ ⟨used, rest, a, rfl, hus, hrs, h₃⟩
          simp only [List.length_append] at hn
          have hlen : (argv ++ [arg]).length ≤ MAXARGS - 1 := by
            rw [List.length_append, List.length_singleton]
            omega
          refine (ih h₃ (by omega) hlen (rs ++ r)).imp ?_
          rintro c s' ⟨used', rest', ws, b, argv', rs', rfl, hargs, hspell, hrep, hws, rfl, h'⟩
          refine ⟨.word w :: (used ++ used'), rest', w :: ws, a ++ b, arg :: argv', r ++ rs',
            ?_, .cons hus hargs, .cons (hword w rfl) hspell, ?_, ?_, ?_, h'⟩
          · rw [List.cons_append, List.append_assoc]
          · exact List.rel_append hrs hrep
          · simp only [List.length_append, List.length_cons, List.length_nil] at hws ⊢
            omega
          · simp only [List.append_assoc, List.singleton_append]
      · simp only [ne_eq, htok, not_false_eq_true, if_true, post_bind, post_panic]
        exact ⟨.syntaxError, rfl, by decide⟩

theorem parsebacks_sound (hz : 0 ∉ str) (h : Cursor str s ts) (hn : ts.length + 1 ≤ n)
    (c : Cmd) :
    Post (parsebacks str n c) s
      (fun c' s' => ∃ k rest, ts = List.replicate k .amp ++ rest ∧ c' = Cmd.back^[k] c ∧
        Cursor str s' rest)
      (fun f _ => f.Rejects) := by
  induction n generalizing s ts c with
  | zero => omega
  | succ n ih =>
    unfold parsebacks
    rw [post_bind]
    refine peek_spec hz h (by decide) fun s₁ h₁ _ => ?_
    rw [post_ite]
    refine ⟨fun hlead => ?_, fun _ => post_pure.mpr ⟨0, ts, rfl, rfl, h₁⟩⟩
    obtain ⟨ts, rfl⟩ := exists_of_leads .amp rfl (by decide) hlead
    rw [post_bind]
    refine gettoken_cons hz h₁ fun p s₂ h₂ _ => ?_
    simp only [List.length_cons] at hn
    refine (ih h₂ (by omega) (.back c)).imp ?_
    rintro c' s' ⟨k, rest, rfl, rfl, h'⟩
    exact ⟨k + 1, rest, rfl, rfl, h'⟩

/-- Run before the tokens `ts`, `m` consumes what derives from `sym`. -/
def Parses (str : List UInt8) (sym : Symbol) (m : P Cmd) (s : ℕ) (ts : List Token) : Prop :=
  Post m s
    (fun c s' => ∃ used rest t, ts = used ++ rest ∧ Derives sym used t ∧ Rep str c t ∧
      Cursor str s' rest)
    (fun f _ => f.Rejects)

/-- The four functions with `n` rounds, on the tokens these are enough for. -/
structure Sound (str : List UInt8) (n : ℕ) : Prop where
  line : ∀ s ts, Cursor str s ts → 4 * ts.length + 4 ≤ n → Parses str .line (parseline str n) s ts
  pipe : ∀ s ts, Cursor str s ts → 4 * ts.length + 3 ≤ n → Parses str .pipe (parsepipe str n) s ts
  exec : ∀ s ts, Cursor str s ts → 4 * ts.length + 2 ≤ n → Parses str .cmd (parseexec str n) s ts
  block : ∀ s ts, Cursor str s (.lparen :: ts) → 4 * ts.length + 5 ≤ n →
    Parses str .cmd (parseblock str n) s (.lparen :: ts)

theorem Sound.parseline (hz : 0 ∉ str) (ih : Sound str n) (h : Cursor str s ts)
    (hn : 4 * ts.length + 4 ≤ n + 1) : Parses str .line (parseline str (n + 1)) s ts := by
  unfold Parses Sh.parseline
  rw [post_bind]
  refine (ih.pipe s ts h (by omega)).imp ?_
  rintro c s₁ ⟨used, rest, t, rfl, hp, hrep, h₁⟩
  simp only [List.length_append] at hn
  rw [post_bind]
  refine (parsebacks_sound hz h₁ (by omega) c).imp ?_
  rintro c' s₂ ⟨k, rest, rfl, rfl, h₂⟩
  rw [post_bind]
  refine peek_spec hz h₂ (by decide) fun s₃ h₃ _ => ?_
  rw [post_ite]
  constructor
  · intro hlead
    obtain ⟨rest, rfl⟩ := exists_of_leads .semi rfl (by decide) hlead
    rw [post_bind]
    refine gettoken_cons hz h₃ fun p s₄ h₄ _ => ?_
    simp only [List.length_append, List.length_cons] at hn
    simp only [post_bind, post_pure]
    refine (ih.line s₄ rest h₄ (by omega)).imp ?_
    rintro d s₅ ⟨used', rest', u, rfl, hl, hrep', h₅⟩
    refine ⟨used ++ List.replicate k .amp ++ .semi :: used', rest', _, ?_,
      .lines k hp hl, .list (hrep.backs k) hrep', h₅⟩
    simp only [List.append_assoc, List.cons_append]
  · intro _
    exact post_pure.mpr ⟨used ++ List.replicate k .amp, rest, _, (List.append_assoc ..).symm,
      .line k hp, hrep.backs k, h₃⟩

theorem Sound.parsepipe (hz : 0 ∉ str) (ih : Sound str n) (h : Cursor str s ts)
    (hn : 4 * ts.length + 3 ≤ n + 1) : Parses str .pipe (parsepipe str (n + 1)) s ts := by
  unfold Parses Sh.parsepipe
  rw [post_bind]
  refine (ih.exec s ts h (by omega)).imp ?_
  rintro c s₁ ⟨used, rest, t, rfl, hc, hrep, h₁⟩
  rw [post_bind]
  refine peek_spec hz h₁ (by decide) fun s₂ h₂ _ => ?_
  rw [post_ite]
  constructor
  · intro hlead
    obtain ⟨rest, rfl⟩ := exists_of_leads .bar rfl (by decide) hlead
    rw [post_bind]
    refine gettoken_cons hz h₂ fun p s₃ h₃ _ => ?_
    simp only [List.length_append, List.length_cons] at hn
    simp only [post_bind, post_pure]
    refine (ih.pipe s₃ rest h₃ (by omega)).imp ?_
    rintro d s₄ ⟨used', rest', u, rfl, hp, hrep', h₄⟩
    refine ⟨used ++ .bar :: used', rest', _, ?_, .pipe hc hp, .pipe hrep hrep', h₄⟩
    simp only [List.append_assoc, List.cons_append]
  · intro _
    exact post_pure.mpr ⟨used, rest, t, rfl, .single hc, hrep, h₂⟩

theorem Sound.parseblock (hz : 0 ∉ str) (ih : Sound str n) (h : Cursor str s (.lparen :: ts))
    (hn : 4 * ts.length + 5 ≤ n + 1) :
    Parses str .cmd (parseblock str (n + 1)) s (.lparen :: ts) := by
  unfold Parses Sh.parseblock
  rw [post_bind]
  refine peek_spec hz h (by decide) fun s₁ h₁ _ => ?_
  rw [leads_head .lparen rfl, Bool.not_true, if_neg Bool.false_ne_true]
  dsimp only
  rw [post_bind]
  refine gettoken_cons hz h₁ fun p s₂ h₂ _ => ?_
  rw [post_bind]
  refine (ih.line s₂ ts h₂ (by omega)).imp ?_
  rintro c s₃ ⟨used, rest, t, rfl, hl, hrep, h₃⟩
  rw [post_bind]
  refine peek_spec hz h₃ (by decide) fun s₄ h₄ _ => ?_
  by_cases hlead : leads [RPAREN] rest = true
  · obtain ⟨rest, rfl⟩ := exists_of_leads .rparen rfl (by decide) hlead
    rw [hlead, Bool.not_true, if_neg Bool.false_ne_true]
    rw [post_bind]
    refine gettoken_cons hz h₄ fun p s₅ h₅ _ => ?_
    simp only [List.length_append, List.length_cons] at hn
    simp only [post_bind, post_pure]
    refine (parseredirs_sound hz h₅ (by omega)).imp ?_
    rintro rs s₆ ⟨used', rest', a, rfl, hr, hrs, h₆⟩
    refine ⟨.lparen :: (used ++ .rparen :: used'), rest', _, ?_, .block hl hr, hrep.wrap hrs, h₆⟩
    simp only [List.append_assoc, List.cons_append]
  · rw [Bool.not_eq_true] at hlead
    rw [hlead, Bool.not_false, if_pos rfl]
    simp only [post_bind, post_panic]
    exact ⟨.missingParen, rfl, by decide⟩

theorem Sound.parseexec (hz : 0 ∉ str) (ih : Sound str n) (h : Cursor str s ts)
    (hn : 4 * ts.length + 2 ≤ n + 1) : Parses str .cmd (parseexec str (n + 1)) s ts := by
  unfold Parses Sh.parseexec
  rw [post_bind]
  refine peek_spec hz h (by decide) fun s₁ h₁ _ => ?_
  rw [post_ite]
  constructor
  · intro hlead
    obtain ⟨ts, rfl⟩ := exists_of_leads .lparen rfl (by decide) hlead
    simp only [List.length_cons] at hn
    exact ih.block s₁ ts h₁ (by omega)
  · intro _
    rw [post_bind]
    refine (parseredirs_sound hz h₁ (by omega)).imp ?_
    rintro rs s₂ ⟨used, rest, a, rfl, hr, hrs, h₂⟩
    simp only [List.length_append] at hn
    refine (parseargs_sound hz h₂ (by omega) (Nat.zero_le _) rs).imp ?_
    rintro c s₃ ⟨used', rest', ws, b, argv', rs', rfl, hargs, hspell, hrep, hws, rfl, h₃⟩
    refine ⟨used ++ used', rest', _, (List.append_assoc ..).symm,
      .simple hr hargs (by simpa using hws), ?_, h₃⟩
    exact (Rep.exec hspell).wrap (List.rel_append hrs hrep)

theorem sound (hz : 0 ∉ str) (n : ℕ) : Sound str n := by
  induction n with
  | zero => constructor <;> intros <;> omega
  | succ n ih =>
    exact ⟨fun _ _ => ih.parseline hz, fun _ _ => ih.parsepipe hz, fun _ _ => ih.parseexec hz,
      fun _ _ => ih.parseblock hz⟩

/-! ### Completeness -/

/-- The tokens that may come after what derives from a symbol. -/
def Symbol.follows : Symbol → List Token
  | .line => [.rparen]
  | .pipe => [.rparen, .amp, .semi]
  | .cmd => [.rparen, .amp, .semi, .bar]

def Follows (sym : Symbol) (rest : List Token) : Prop := ∀ t ∈ rest.head?, t ∈ sym.follows

theorem leads_of_follows {sym : Symbol} {rest : List Token} (h : Follows sym rest)
    {toks : List UInt8} (hf : ∀ t ∈ sym.follows, t.lead.any toks.contains = false) :
    leads toks rest = false := by
  cases rest with
  | nil => rfl
  | cons t rest => exact hf t (h t rfl)

theorem Args.leads_append {ts rest : List Token} {ws : List Word} {b : List Redirection}
    (h : Args ts ws b) (hf : Follows .cmd rest) {toks : List UInt8}
    (ht : ∀ t ∈ Symbol.follows .cmd, t.lead.any toks.contains = false) :
    leads toks (ts ++ rest) = false := by
  cases h with
  | nil => exact leads_of_follows hf ht
  | cons => rfl

theorem Redirs.leads_append {r rest : List Token} {a : List Redirection} (h : Redirs r a)
    {toks : List UInt8} (ht : LT ∉ toks ∧ GT ∉ toks) (hf : leads toks rest = false) :
    leads toks (r ++ rest) = false := by
  cases h with
  | nil => exact hf
  | @cons op w mode fd ts rs hop h =>
    cases op <;> cases hop <;> simp [leads_cons, Token.lead, ht.1, ht.2]

theorem parseredirs_complete (hz : 0 ∉ str) {used rest : List Token} {a : List Redirection}
    (hr : Redirs used a) (h : Cursor str s (used ++ rest)) (hf : leads [LT, GT] rest = false) :
    Post (parseredirs str n) s
      (fun rs s' => List.Forall₂ (RepRedir str) rs a ∧ Cursor str s' rest)
      (fun f _ => f = .rounds) := by
  induction hr generalizing s n with
  | nil =>
    cases n with
    | zero => exact post_throw.mpr rfl
    | succ n =>
      unfold parseredirs
      rw [post_bind]
      refine peek_spec hz h (by decide) fun s₁ h₁ _ => ?_
      rw [List.nil_append, hf, if_neg Bool.false_ne_true]
      exact post_pure.mpr ⟨.nil, h₁⟩
  | @cons op w mode fd ts rs hop _ ih =>
    cases n with
    | zero => exact post_throw.mpr rfl
    | succ n =>
      unfold parseredirs
      rw [post_bind]
      refine peek_spec hz h (by decide) fun s₁ h₁ _ => ?_
      rw [List.cons_append, leads_cons, (redirOf_opens hop (0, 0)).2, if_pos rfl, post_bind]
      refine gettoken_cons hz h₁ fun p s₂ h₂ _ => ?_
      rw [post_bind]
      refine gettoken_cons hz h₂ fun file s₃ h₃ hword => ?_
      simp only [code_word, ne_eq, not_true_eq_false, if_false, post_bind, post_pure]
      refine (ih h₃).imp ?_
      rintro rs' s' ⟨hrs, h'⟩
      refine ⟨.cons ?_ hrs, h'⟩
      rw [(redirOf_opens hop file).1]
      exact ⟨hword w rfl, rfl, rfl⟩

theorem parseargs_complete (hz : 0 ∉ str) {used rest : List Token} {ws : List Word}
    {b : List Redirection} (ha : Args used ws b) (h : Cursor str s (used ++ rest))
    (hf : Follows .cmd rest) {argv : List Span} (hargv : argv.length + ws.length ≤ MAXARGS - 1)
    (rs : List Redir) :
    Post (parseargs str n argv rs) s
      (fun c s' => ∃ argv' rs', List.Forall₂ (Spells str) argv' ws ∧
        List.Forall₂ (RepRedir str) rs' b ∧ c = wrap (.exec (argv ++ argv')) (rs ++ rs') ∧
        Cursor str s' rest)
      (fun f _ => f = .rounds) := by
  induction ha generalizing s n argv rs with
  | nil =>
    cases n with
    | zero => exact post_throw.mpr rfl
    | succ n =>
      have hstop : ∀ s', Cursor str s' rest → ∃ argv' rs', List.Forall₂ (Spells str) argv' [] ∧
          List.Forall₂ (RepRedir str) rs' [] ∧
          wrap (.exec argv) rs = wrap (.exec (argv ++ argv')) (rs ++ rs') ∧ Cursor str s' rest :=
        fun s' h' => ⟨[], [], .nil, .nil, by rw [List.append_nil, List.append_nil], h'⟩
      unfold parseargs
      rw [post_bind]
      refine peek_spec hz h (by decide) fun s₁ h₁ _ => ?_
      cases rest with
      | nil =>
        rw [List.append_nil, leads_nil, if_neg Bool.false_ne_true, post_bind]
        refine gettoken_nil hz h₁ fun p s₂ h₂ => ?_
        simp only [if_true, post_pure]
        exact hstop s₂ h₂
      | cons t rest =>
        have hlead : ∀ t ∈ Symbol.follows .cmd,
            t.lead.any [BAR, RPAREN, AMP, SEMI].contains = true := by decide
        rw [List.nil_append, leads_cons, hlead t (hf t rfl), if_pos rfl]
        exact post_pure.mpr (hstop s₁ h₁)
  | @cons w r ts ws a b hr hts ih =>
    cases n with
    | zero => exact post_throw.mpr rfl
    | succ n =>
      simp only [List.length_cons] at hargv
      rw [List.cons_append, List.append_assoc] at h
      unfold parseargs
      rw [post_bind]
      refine peek_spec hz h (by decide) fun s₁ h₁ _ => ?_
      rw [leads_cons, if_neg (show ¬(Token.word w).lead.any _ = true from Bool.false_ne_true), post_bind]
      refine gettoken_cons hz h₁ fun arg s₂ h₂ hword => ?_
      have hmax : ¬argv.length + 1 ≥ MAXARGS := by
        unfold MAXARGS at *
        omega
      simp only [code_ne_zero, if_false]
      simp only [code_word, ne_eq, not_true_eq_false, if_false, if_neg hmax, post_bind]
      refine (parseredirs_complete hz hr h₂ (hts.leads_append hf (by decide))).imp ?_
      rintro rs₁ s₃ ⟨hrs₁, h₃⟩
      have hlen : (argv ++ [arg]).length + ws.length ≤ MAXARGS - 1 := by
        rw [List.length_append, List.length_singleton]
        omega
      refine (ih h₃ hlen (rs ++ rs₁)).imp ?_
      rintro c s' ⟨argv', rs', hspell, hrs, rfl, h'⟩
      refine ⟨arg :: argv', rs₁ ++ rs', .cons (hword w rfl) hspell, List.rel_append hrs₁ hrs,
        ?_, h'⟩
      simp only [List.append_assoc, List.singleton_append]

theorem parsebacks_complete (hz : 0 ∉ str) {rest : List Token} (k : ℕ)
    (h : Cursor str s (List.replicate k .amp ++ rest)) (hf : leads [AMP] rest = false) (c : Cmd) :
    Post (parsebacks str n c) s (fun c' s' => c' = Cmd.back^[k] c ∧ Cursor str s' rest)
      (fun f _ => f = .rounds) := by
  induction k generalizing s n c with
  | zero =>
    cases n with
    | zero => exact post_throw.mpr rfl
    | succ n =>
      unfold parsebacks
      rw [post_bind]
      refine peek_spec hz h (by decide) fun s₁ h₁ _ => ?_
      rw [List.replicate_zero, List.nil_append, hf, if_neg Bool.false_ne_true]
      exact post_pure.mpr ⟨rfl, h₁⟩
  | succ k ih =>
    cases n with
    | zero => exact post_throw.mpr rfl
    | succ n =>
      unfold parsebacks
      rw [List.replicate_succ, List.cons_append] at h
      rw [post_bind]
      refine peek_spec hz h (by decide) fun s₁ h₁ _ => ?_
      rw [if_pos (leads_head .amp rfl), post_bind]
      exact gettoken_cons hz h₁ fun p s₂ h₂ _ => ih h₂ (.back c)

/-- The function for a symbol. -/
def Symbol.parse (str : List UInt8) : Symbol → ℕ → P Cmd
  | .line => parseline str
  | .pipe => parsepipe str
  | .cmd => parseexec str

theorem follows_pipe {rest : List Token} (k : ℕ)
    (h : Follows .line rest ∨ ∃ l, rest = .semi :: l) :
    Follows .pipe (List.replicate k .amp ++ rest) := by
  intro t ht
  cases k with
  | zero =>
    obtain hf | ⟨l, rfl⟩ := h
    · have := hf t ht
      simp_all [Symbol.follows]
    · obtain rfl : Token.semi = t := Option.some.inj ht
      decide
  | succ k =>
    obtain rfl : Token.amp = t := Option.some.inj ht
    decide

/-- The function for a symbol reads `used`, which is derived for `t`, and stops before what may
follow. -/
def Reads (str : List UInt8) (sym : Symbol) (used : List Token) (t : Tree) : Prop :=
  ∀ ⦃s n : ℕ⦄ ⦃rest : List Token⦄, Cursor str s (used ++ rest) → Follows sym rest →
    Post (sym.parse str n) s (fun c s' => Rep str c t ∧ Cursor str s' rest)
      (fun f _ => f = .rounds)

theorem reads_line (hz : 0 ∉ str) {p : List Token} {t : Tree} (k : ℕ)
    (ih : Reads str .pipe p t) :
    Reads str .line (p ++ List.replicate k .amp) (Tree.back^[k] t) := by
  intro s n rest h hf
  cases n with
  | zero => exact post_throw.mpr rfl
  | succ n =>
    show Post (parseline str (n + 1)) s _ _
    unfold parseline
    rw [List.append_assoc] at h
    rw [post_bind]
    refine (ih h (follows_pipe k (.inl hf))).imp ?_
    rintro c s₁ ⟨hrep, h₁⟩
    rw [post_bind]
    refine (parsebacks_complete hz k h₁ (leads_of_follows hf (by decide)) c).imp ?_
    rintro c' s₂ ⟨rfl, h₂⟩
    rw [post_bind]
    refine peek_spec hz h₂ (by decide) fun s₃ h₃ _ => ?_
    rw [leads_of_follows hf (by decide), if_neg Bool.false_ne_true]
    exact post_pure.mpr ⟨hrep.backs k, h₃⟩

theorem reads_lines (hz : 0 ∉ str) {p l : List Token} {t u : Tree} (k : ℕ)
    (ihp : Reads str .pipe p t) (ihl : Reads str .line l u) :
    Reads str .line (p ++ List.replicate k .amp ++ .semi :: l) (.list (Tree.back^[k] t) u) := by
  intro s n rest h hf
  cases n with
  | zero => exact post_throw.mpr rfl
  | succ n =>
    show Post (parseline str (n + 1)) s _ _
    unfold parseline
    rw [List.append_assoc, List.append_assoc, List.cons_append] at h
    rw [post_bind]
    refine (ihp h (follows_pipe k (.inr ⟨_, rfl⟩))).imp ?_
    rintro c s₁ ⟨hrep, h₁⟩
    rw [post_bind]
    refine (parsebacks_complete hz k h₁ rfl c).imp ?_
    rintro c' s₂ ⟨rfl, h₂⟩
    rw [post_bind]
    refine peek_spec hz h₂ (by decide) fun s₃ h₃ _ => ?_
    rw [if_pos (leads_head .semi rfl), post_bind]
    refine gettoken_cons hz h₃ fun p s₄ h₄ _ => ?_
    rw [post_bind]
    refine (ihl h₄ hf).imp ?_
    rintro d s₅ ⟨hrep', h₅⟩
    exact post_pure.mpr ⟨.list (hrep.backs k) hrep', h₅⟩

theorem reads_single (hz : 0 ∉ str) {c : List Token} {t : Tree} (ih : Reads str .cmd c t) :
    Reads str .pipe c t := by
  intro s n rest h hf
  cases n with
  | zero => exact post_throw.mpr rfl
  | succ n =>
    have hf' : Follows .cmd rest := fun t ht => by
      have := hf t ht
      simp_all [Symbol.follows]
      tauto
    show Post (parsepipe str (n + 1)) s _ _
    unfold parsepipe
    rw [post_bind]
    refine (ih h hf').imp ?_
    rintro c s₁ ⟨hrep, h₁⟩
    rw [post_bind]
    refine peek_spec hz h₁ (by decide) fun s₂ h₂ _ => ?_
    rw [leads_of_follows hf (by decide), if_neg Bool.false_ne_true]
    exact post_pure.mpr ⟨hrep, h₂⟩

theorem reads_pipe (hz : 0 ∉ str) {c p : List Token} {t u : Tree} (ihc : Reads str .cmd c t)
    (ihp : Reads str .pipe p u) : Reads str .pipe (c ++ .bar :: p) (.pipe t u) := by
  intro s n rest h hf
  cases n with
  | zero => exact post_throw.mpr rfl
  | succ n =>
    show Post (parsepipe str (n + 1)) s _ _
    unfold parsepipe
    rw [List.append_assoc, List.cons_append] at h
    rw [post_bind]
    have hbar : Follows .cmd (.bar :: (p ++ rest)) := fun t ht => by
      obtain rfl : Token.bar = t := Option.some.inj ht
      decide
    refine (ihc h hbar).imp ?_
    rintro c s₁ ⟨hrep, h₁⟩
    rw [post_bind]
    refine peek_spec hz h₁ (by decide) fun s₂ h₂ _ => ?_
    rw [if_pos (leads_head .bar rfl), post_bind]
    refine gettoken_cons hz h₂ fun q s₃ h₃ _ => ?_
    rw [post_bind]
    refine (ihp h₃ hf).imp ?_
    rintro d s₄ ⟨hrep', h₄⟩
    exact post_pure.mpr ⟨.pipe hrep hrep', h₄⟩

theorem reads_block (hz : 0 ∉ str) {l r : List Token} {t : Tree} {a : List Redirection}
    (ih : Reads str .line l t) (hr : Redirs r a) :
    Reads str .cmd (.lparen :: (l ++ .rparen :: r)) (t.wrap a) := by
  intro s n rest h hf
  cases n with
  | zero => exact post_throw.mpr rfl
  | succ n =>
    show Post (parseexec str (n + 1)) s _ _
    unfold parseexec
    rw [List.cons_append, List.append_assoc, List.cons_append] at h
    rw [post_bind]
    refine peek_spec hz h (by decide) fun s₁ h₁ _ => ?_
    rw [if_pos (leads_head .lparen rfl)]
    cases n with
    | zero => exact post_throw.mpr rfl
    | succ n =>
      unfold parseblock
      rw [post_bind]
      refine peek_spec hz h₁ (by decide) fun s₂ h₂ _ => ?_
      rw [leads_head .lparen rfl, Bool.not_true, if_neg Bool.false_ne_true]
      dsimp only
      rw [post_bind]
      refine gettoken_cons hz h₂ fun p s₃ h₃ _ => ?_
      have hparen : Follows .line (.rparen :: (r ++ rest)) := fun t ht => by
        obtain rfl : Token.rparen = t := Option.some.inj ht
        decide
      rw [post_bind]
      refine (ih h₃ hparen).imp ?_
      rintro c s₄ ⟨hrep, h₄⟩
      rw [post_bind]
      refine peek_spec hz h₄ (by decide) fun s₅ h₅ _ => ?_
      rw [leads_head .rparen rfl, Bool.not_true, if_neg Bool.false_ne_true]
      rw [post_bind]
      refine gettoken_cons hz h₅ fun q s₆ h₆ _ => ?_
      rw [post_bind]
      refine (parseredirs_complete hz hr h₆ (leads_of_follows hf (by decide))).imp ?_
      rintro rs s₇ ⟨hrs, h₇⟩
      exact post_pure.mpr ⟨hrep.wrap hrs, h₇⟩

theorem reads_simple (hz : 0 ∉ str) {r ts : List Token} {ws : List Word}
    {a b : List Redirection} (hr : Redirs r a) (hts : Args ts ws b)
    (hlen : ws.length ≤ MAXARGS - 1) :
    Reads str .cmd (r ++ ts) ((Tree.exec ws).wrap (a ++ b)) := by
  intro s n rest h hf
  cases n with
  | zero => exact post_throw.mpr rfl
  | succ n =>
    show Post (parseexec str (n + 1)) s _ _
    unfold parseexec
    rw [List.append_assoc] at h
    rw [post_bind]
    refine peek_spec hz h (by decide) fun s₁ h₁ _ => ?_
    rw [hr.leads_append (by decide) (hts.leads_append hf (by decide)),
      if_neg Bool.false_ne_true, post_bind]
    refine (parseredirs_complete hz hr h₁ (hts.leads_append hf (by decide))).imp ?_
    rintro rs s₂ ⟨hrs, h₂⟩
    refine (parseargs_complete hz hts h₂ hf (by simpa using hlen) rs).imp ?_
    rintro c s₃ ⟨argv', rs', hspell, hrs', rfl, h₃⟩
    exact ⟨(Rep.exec hspell).wrap (List.rel_append hrs hrs'), h₃⟩

theorem complete (hz : 0 ∉ str) {sym : Symbol} {used : List Token} {t : Tree}
    (hd : Derives sym used t) : Reads str sym used t := by
  induction hd with
  | line k _ ih => exact reads_line hz k ih
  | lines k _ _ ihp ihl => exact reads_lines hz k ihp ihl
  | single _ ih => exact reads_single hz ih
  | pipe _ _ ihc ihp => exact reads_pipe hz ihc ihp
  | block _ hr ih => exact reads_block hz ih hr
  | simple hr hts hlen => exact reads_simple hz hr hts hlen

end

end Sh
end Xv6
