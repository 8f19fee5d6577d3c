import Xv6.User.ShParser

/-!
`parsecmd` returns the tree of the line. The pointers of the tree point into the buffer of
the line, where `nulterminate` ends the words; it overwrites only bytes that follow a word.
-/

namespace Xv6
namespace Sh
open Hoare

/-- The string a `char *` points to. -/
def cstr (buf : List UInt8) (s : ℕ) : Word := (buf.drop s).takeWhile (· ≠ 0)

/-- The tree that a command and its strings make. -/
def Cmd.tree (buf : List UInt8) : Cmd → Tree
  | .exec argv => .exec (argv.map fun a => cstr buf a.1)
  | .redir cmd r => .redir (cmd.tree buf) (cstr buf r.file.1) r.mode r.fd
  | .pipe left right => .pipe (left.tree buf) (right.tree buf)
  | .list left right => .list (left.tree buf) (right.tree buf)
  | .back cmd => .back (cmd.tree buf)

def Cmd.spans : Cmd → List Span
  | .exec argv => argv
  | .redir cmd r => cmd.spans ++ [r.file]
  | .pipe left right => left.spans ++ right.spans
  | .list left right => left.spans ++ right.spans
  | .back cmd => cmd.spans

structure Cut (str buf : List UInt8) : Prop where
  length : buf.length = str.length + 1
  words : ∀ (i : ℕ) (c : UInt8), str[i]? = some c → isWord c = true → buf[i]? = some c

section
variable {str buf : List UInt8} {p : Span} {w : Word}

theorem cut_line (str : List UInt8) : Cut str (str ++ [0]) := by
  constructor
  case length => rw [List.length_append, List.length_singleton]
  case words =>
    intro i c hc _
    rw [List.getElem?_append_left (List.getElem?_eq_some_iff.mp hc).1, hc]

theorem Cut.set (h : Cut str buf) (hp : Spells str p w) : Cut str (buf.set p.2 0) := by
  constructor
  case length => rw [List.length_set, h.length]
  case words =>
    intro i c hc hword
    have hne : p.2 ≠ i := by
      rintro rfl
      rw [hp.ends c (by rw [List.head?_drop]; exact hc)] at hword
      exact Bool.false_ne_true hword
    rw [List.getElem?_set_ne hne, h.words i c hc hword]

theorem getElem?_set_zero {i j : ℕ} (h : buf[i]? = some 0) : (buf.set j 0)[i]? = some 0 := by
  obtain ⟨hi, hv⟩ := List.getElem?_eq_some_iff.mp h
  rw [List.getElem?_set]
  split_ifs with hj hlt
  · rfl
  · omega
  · exact h

structure Ends (str buf : List UInt8) (ps : List Span) (buf' : List UInt8) : Prop where
  cut : Cut str buf'
  keeps : ∀ i : ℕ, buf[i]? = some 0 → buf'[i]? = some 0
  ended : ∀ p ∈ ps, buf'[p.2]? = some 0

theorem Ends.nil (h : Cut str buf) : Ends str buf [] buf :=
  ⟨h, fun _ hi => hi, fun _ hp => nomatch hp⟩

theorem Ends.append {ps qs : List Span} {buf₁ buf₂ : List UInt8} (h : Ends str buf ps buf₁)
    (h' : Ends str buf₁ qs buf₂) : Ends str buf (ps ++ qs) buf₂ := by
  constructor
  case cut => exact h'.cut
  case keeps => exact fun i hi => h'.keeps i (h.keeps i hi)
  case ended =>
    intro p hp
    obtain hp | hp := List.mem_append.mp hp
    · exact h'.keeps _ (h.ended p hp)
    · exact h'.ended p hp

theorem Ends.set (h : Cut str buf) (hp : Spells str p w) :
    Ends str buf [p] (buf.set p.2 0) := by
  constructor
  case cut => exact h.set hp
  case keeps => exact fun i hi => getElem?_set_zero hi
  case ended =>
    intro q hq
    obtain rfl := List.mem_singleton.mp hq
    have hlt : q.2 < buf.length := by
      rw [h.length]
      exact Nat.lt_succ_of_le hp.within
    rw [List.getElem?_set_self hlt]

theorem ends_foldl {argv : List Span} {ws : List Word}
    (ha : List.Forall₂ (Spells str) argv ws) (h : Cut str buf) :
    Ends str buf argv (argv.foldl (fun buf a => buf.set a.2 0) buf) := by
  induction ha generalizing buf with
  | nil => exact .nil h
  | @cons a w argv ws hw _ ih =>
    have h₁ := Ends.set h hw
    exact h₁.append (ih h₁.cut)

theorem nulterminate_ends {c : Cmd} {t : Tree} (hc : Rep str c t) (h : Cut str buf) :
    Ends str buf c.spans (nulterminate c buf) := by
  induction hc generalizing buf with
  | exec ha => exact ends_foldl ha h
  | redir _ hr ih =>
    have h₁ := ih h
    exact h₁.append (.set h₁.cut hr.file)
  | pipe _ _ ih ih' =>
    have h₁ := ih h
    exact h₁.append (ih' h₁.cut)
  | list _ _ ih ih' =>
    have h₁ := ih h
    exact h₁.append (ih' h₁.cut)
  | back _ ih => exact ih h

theorem cstr_eq (hz : 0 ∉ str) (h : Cut str buf) (hp : Spells str p w)
    (hend : buf[p.2]? = some 0) : cstr buf p.1 = w := by
  have hget : ∀ i < w.length, str[p.1 + i]? = w[i]? := by
    intro i hi
    conv_rhs => rw [← hp.text]
    rw [List.getElem?_take_of_lt hi, List.getElem?_drop]
  have htake : (buf.drop p.1).take w.length = w := by
    apply List.ext_getElem?
    intro i
    by_cases hi : i < w.length
    · rw [List.getElem?_take_of_lt hi, List.getElem?_drop]
      have hw : w[i]? = some w[i] := List.getElem?_eq_getElem hi
      rw [h.words _ _ ((hget i hi).trans hw) (hp.chars _ (List.getElem_mem hi)), hw]
    · have hlen := List.length_take_le w.length (buf.drop p.1)
      rw [List.getElem?_eq_none (hlen.trans (by omega)), List.getElem?_eq_none (by omega)]
  obtain ⟨l, hl⟩ : ∃ l, buf.drop p.2 = 0 :: l := by
    obtain ⟨hlt, hv⟩ := List.getElem?_eq_some_iff.mp hend
    exact ⟨_, by rw [List.drop_eq_getElem_cons hlt, hv]⟩
  have hdrop : buf.drop p.1 = w ++ 0 :: l := by
    have hsplit := List.take_append_drop w.length (buf.drop p.1)
    rw [htake, List.drop_drop, ← hp.stop, hl] at hsplit
    exact hsplit.symm
  have hne : ∀ c ∈ w, (c ≠ 0 : Bool) = true := by
    intro c hc
    rw [← hp.text] at hc
    have hmem : c ∈ str := List.mem_of_mem_drop (List.mem_of_mem_take hc)
    exact decide_eq_true fun h0 => hz (h0 ▸ hmem)
  rw [cstr, hdrop, List.takeWhile_append_of_pos hne]
  simp

theorem tree_eq (hz : 0 ∉ str) {c : Cmd} {t : Tree} (hc : Rep str c t) (h : Cut str buf)
    (hend : ∀ p ∈ c.spans, buf[p.2]? = some 0) : c.tree buf = t := by
  induction hc with
  | @exec argv ws ha =>
    refine congrArg Tree.exec ?_
    induction ha with
    | nil => rfl
    | @cons a w argv ws hw _ ih =>
      rw [List.map_cons, cstr_eq hz h hw (hend a List.mem_cons_self)]
      exact congrArg (w :: ·) (ih fun p hp => hend p (List.mem_cons_of_mem _ hp))
  | @redir c t r a _ hr ih =>
    have hfile := cstr_eq hz h hr.file
      (hend r.file (List.mem_append_right _ (List.mem_singleton_self _)))
    rw [Cmd.tree, ih fun p hp => hend p (List.mem_append_left _ hp), hfile, hr.mode, hr.fd]
  | pipe _ _ ih ih' =>
    rw [Cmd.tree, ih fun p hp => hend p (List.mem_append_left _ hp),
      ih' fun p hp => hend p (List.mem_append_right _ hp)]
  | list _ _ ih ih' =>
    rw [Cmd.tree, ih fun p hp => hend p (List.mem_append_left _ hp),
      ih' fun p hp => hend p (List.mem_append_right _ hp)]
  | back _ ih => rw [Cmd.tree, ih hend]

theorem nulterminate_tree (hz : 0 ∉ str) {c : Cmd} {t : Tree} (hc : Rep str c t) :
    c.tree (nulterminate c (str ++ [0])) = t := by
  have h := nulterminate_ends hc (cut_line str)
  exact tree_eq hz hc h.cut h.ended

theorem length_lex (l : List UInt8) : (lex l).length ≤ l.length := by
  fun_induction lex l with
  | case1 => exact le_rfl
  | case2 c l _ ih => exact ih.trans (Nat.le_succ _)
  | case3 c l _ t _ ih => exact Nat.succ_le_succ ih
  | case4 l _ _ _ ih =>
    rw [List.length_tail] at ih
    simp only [List.length_cons]
    omega
  | case5 l _ _ _ ih => exact Nat.succ_le_succ ih
  | case6 c l _ _ _ ih =>
    have := (List.dropWhile_sublist (l := l) isWord).length_le
    simp only [List.length_cons]
    omega

theorem Cursor.eq_length {s : ℕ} {ts : List Token} (h : Cursor str s ts) (hs : Settled str s) :
    s = str.length ↔ ts = [] := by
  constructor
  · rintro rfl
    rw [← h.tokens, List.drop_length, lex]
  · intro hts
    have hnil : str.drop s = [] := by
      cases hr : str.drop s with
      | nil => rfl
      | cons c l =>
        have hc : isSpace c = false := hs c (by rw [hr]; rfl)
        have htok := h.tokens
        rw [hr, lex, if_neg (by rw [hc]; exact Bool.false_ne_true), hts] at htok
        revert htok
        cases symbolToken c with
        | some t =>
          intro h
          cases h
        | none =>
          dsimp only
          split_ifs <;> intro h <;> cases h
    have := List.drop_eq_nil_iff.mp hnil
    exact le_antisymm h.le this

theorem cursor_start (str : List UInt8) : Cursor str 0 (lex str) := ⟨Nat.zero_le _, rfl⟩

theorem parseall_sound (hz : 0 ∉ str) :
    Post (parseall str) 0 (fun c _ => ∃ t, Derives .line (lex str) t ∧ Rep str c t)
      (fun f _ => f.Rejects) := by
  have hrounds : 4 * (lex str).length + 4 ≤ rounds str := by
    have := length_lex str
    unfold rounds
    omega
  unfold parseall
  rw [post_bind]
  refine ((sound hz _).line 0 _ (cursor_start str) hrounds).imp ?_
  rintro c s ⟨used, rest, t, hused, hd, hrep, h⟩
  rw [post_bind]
  refine peek_spec hz h (by decide) fun s' h' hs' => ?_
  simp only [post_bind, post_get]
  by_cases hend : s' = str.length
  · rw [if_neg (not_not.mpr hend)]
    rw [(h'.eq_length hs').mp hend, List.append_nil] at hused
    exact post_pure.mpr ⟨t, hused ▸ hd, hrep⟩
  · rw [if_pos hend]
    simp only [post_bind, post_panic]
    exact ⟨.syntaxError, rfl, by decide⟩

theorem parseall_complete (hz : 0 ∉ str) {t : Tree} (hd : Derives .line (lex str) t) :
    Post (parseall str) 0 (fun c _ => Rep str c t) (fun f _ => f = .rounds) := by
  have h₀ : Cursor str 0 (lex str ++ []) := by
    rw [List.append_nil]
    exact cursor_start str
  have hline : Post (Symbol.line.parse str (rounds str)) 0
      (fun c s' => Rep str c t ∧ Cursor str s' []) (fun f _ => f = .rounds) :=
    complete hz hd h₀ fun _ ht => nomatch ht
  unfold parseall
  rw [post_bind]
  refine hline.imp ?_
  rintro c s ⟨hrep, h⟩
  rw [post_bind]
  refine peek_spec hz h (by decide) fun s' h' hs' => ?_
  simp only [post_bind, post_get]
  rw [if_neg (not_not.mpr ((h'.eq_length hs').mpr rfl))]
  exact post_pure.mpr hrep

/-- A line of the grammar is parsed into its tree. -/
theorem parsecmd_complete (hz : 0 ∉ str) {t : Tree} (hd : Derives .line (lex str) t) :
    ∃ c buf, parsecmd str = .ok (c, buf) ∧ c.tree buf = t := by
  have hboth := (parseall_complete hz hd).and (parseall_sound hz)
  have hret : Post (parseall str) 0 (fun c _ => Rep str c t) fun _ _ => False := by
    refine hboth.mono (fun _ _ h => h.1) ?_
    rintro f _ ⟨rfl, p, hp, _⟩
    cases hp
  obtain ⟨c, s, hrun, hrep⟩ := hret.returns
  refine ⟨c, nulterminate c (str ++ [0]), ?_, nulterminate_tree hz hrep⟩
  rw [parsecmd, hrun]

/-- What is parsed is a line of the grammar. -/
theorem parsecmd_derives (hz : 0 ∉ str) {c : Cmd} {buf : List UInt8}
    (h : parsecmd str = .ok (c, buf)) : Derives .line (lex str) (c.tree buf) := by
  unfold parsecmd at h
  split at h
  · rename_i c' s hrun
    cases h
    obtain ⟨t, hd, hrep⟩ := (parseall_sound hz).of_ok hrun
    rw [nulterminate_tree hz hrep]
    exact hd
  · cases h

theorem parsecmd_rejects (hz : 0 ∉ str) {f : Fault} (h : parsecmd str = .error f) :
    f.Rejects := by
  unfold parsecmd at h
  split at h
  · cases h
  · rename_i e s hrun
    cases h
    exact (parseall_sound hz).of_error hrun

/-- `parsecmd` returns a tree exactly for the lines of the grammar, the tree of the line;
for any other line it panics with a syntax error. -/
theorem parsecmd_grammar (hz : 0 ∉ str) :
    (∀ t, Derives .line (lex str) t ↔ ∃ c buf, parsecmd str = .ok (c, buf) ∧ c.tree buf = t) ∧
      ((∀ t, ¬Derives .line (lex str) t) →
        ∃ p, parsecmd str = .error (.panic p) ∧ p ≠ .parseblock) := by
  constructor
  · intro t
    constructor
    · exact parsecmd_complete hz
    · rintro ⟨c, buf, h, rfl⟩
      exact parsecmd_derives hz h
  · intro hno
    cases h : parsecmd str with
    | ok r => exact absurd (parsecmd_derives hz h) (hno _)
    | error f =>
      obtain ⟨p, rfl, hp⟩ := parsecmd_rejects hz h
      exact ⟨p, rfl, hp⟩

end

/-- The line `a>f|(b)&`. -/
theorem parsecmd_grammar_pipe :
    Derives .line (lex [97, 62, 102, 124, 40, 98, 41, 38])
      (.back (.pipe (.redir (.exec [[97]]) [102] 0x601 1) (.exec [[98]]))) :=
  ((parsecmd_grammar (by decide)).1 _).mpr
    ⟨_, _, rfl, by decide +kernel⟩

end Sh
end Xv6
