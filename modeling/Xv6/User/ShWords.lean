import Xv6.User.ShCommand

/-!
The words of a command after `nulterminate`. All pointers of the tree point into the line, and each
word is ended by a NUL in the place of the character behind it, which belongs to no word.
-/

namespace Xv6
namespace Sh
open Hoare

/-- The bytes of a counted string. -/
def Span.text (str : List UInt8) (p : Span) : Word := (str.drop p.1).take (p.2 - p.1)

/-- A counted string of the line that is a word: characters of words, up to one that is not. -/
structure IsWordAt (str : List UInt8) (p : Span) : Prop where
  le : p.1 ≤ p.2
  within : p.2 ≤ str.length
  chars : ∀ c ∈ Span.text str p, isWord c = true
  ends : ∀ c, str[p.2]? = some c → isWord c = false

section
variable {str buf : List UInt8} {p : Span} {w : Word} {c : Cmd} {t : Tree}

theorem Spells.text_eq (h : Spells str p w) : Span.text str p = w := by
  rw [Span.text, h.stop, Nat.add_sub_cancel_left, h.text]

theorem Spells.isWordAt (h : Spells str p w) : IsWordAt str p := by
  refine ⟨by rw [h.stop]; exact Nat.le_add_right _ _, h.within, ?_, fun c hc => ?_⟩
  · rw [h.text_eq]
    exact h.chars
  · exact h.ends c (by rw [List.head?_drop]; exact hc)

theorem exists_spells {argv : List Span} {ws : List Word} (h : List.Forall₂ (Spells str) argv ws) :
    ∀ p ∈ argv, ∃ w, Spells str p w := by
  induction h with
  | nil => nofun
  | cons hw _ ih => exact List.forall_mem_cons.2 ⟨⟨_, hw⟩, ih⟩

/-- All pointers of a tree point to words. -/
theorem Rep.spells (h : Rep str c t) : ∀ p ∈ c.spans, ∃ w, Spells str p w := by
  induction h with
  | exec ha => exact exists_spells ha
  | redir _ hr ih =>
    exact List.forall_mem_append.2 ⟨ih, List.forall_mem_singleton.2 ⟨_, hr.file⟩⟩
  | pipe _ _ ih ih' => exact List.forall_mem_append.2 ⟨ih, ih'⟩
  | list _ _ ih ih' => exact List.forall_mem_append.2 ⟨ih, ih'⟩
  | back _ ih => exact ih

theorem getElem?_foldl_set {argv : List Span} {i : ℕ} (h : ∀ p ∈ argv, p.2 ≠ i) :
    (argv.foldl (fun buf a => buf.set a.2 0) buf)[i]? = buf[i]? := by
  induction argv generalizing buf with
  | nil => rfl
  | cons a argv ih =>
    obtain ⟨ha, h⟩ := List.forall_mem_cons.1 h
    rw [List.foldl_cons, ih h, List.getElem?_set_ne ha]

/-- `nulterminate` writes only behind the words. -/
theorem getElem?_nulterminate {i : ℕ} (h : ∀ p ∈ c.spans, p.2 ≠ i) :
    (nulterminate c buf)[i]? = buf[i]? := by
  induction c generalizing buf with
  | exec argv => exact getElem?_foldl_set h
  | redir c r ih =>
    obtain ⟨hc, hr⟩ := List.forall_mem_append.1 h
    rw [nulterminate, List.getElem?_set_ne (hr r.file List.mem_cons_self), ih hc]
  | pipe c d ih ih' =>
    obtain ⟨hc, hd⟩ := List.forall_mem_append.1 h
    rw [nulterminate, ih' hd, ih hc]
  | list c d ih ih' =>
    obtain ⟨hc, hd⟩ := List.forall_mem_append.1 h
    rw [nulterminate, ih' hd, ih hc]
  | back c ih => exact ih h

theorem parsecmd_rep (hz : 0 ∉ str) (h : parsecmd str = .ok (c, buf)) :
    ∃ t, Rep str c t ∧ buf = nulterminate c (str ++ [0]) := by
  unfold parsecmd at h
  split at h
  · rename_i c' s hrun
    cases h
    obtain ⟨t, -, hrep⟩ := (parseall_sound hz).of_ok hrun
    exact ⟨t, hrep, rfl⟩
  · cases h

/-- Every string of the tree that `parsecmd` returns is a word of the line, and reads as that word;
the tree is that of the line. No character of a word is overwritten, and nothing but the places
behind the words of the tree is. -/
theorem parsecmd_words_survive (hz : 0 ∉ str) (h : parsecmd str = .ok (c, buf)) :
    (∀ p ∈ c.spans, IsWordAt str p ∧ cstr buf p.1 = p.text str) ∧
    Derives .line (lex str) (c.tree buf) ∧
    (∀ (i : ℕ) (x : UInt8), str[i]? = some x → isWord x = true → buf[i]? = some x) ∧
    ∀ i : ℕ, buf[i]? ≠ (str ++ [0])[i]? → ∃ p ∈ c.spans, i = p.2 := by
  obtain ⟨t, hrep, hbuf⟩ := parsecmd_rep hz h
  have hends := nulterminate_ends hrep (cut_line str)
  rw [← hbuf] at hends
  refine ⟨fun p hp => ?_, parsecmd_derives hz h, hends.cut.words, fun i hi => ?_⟩
  · obtain ⟨w, hw⟩ := hrep.spells p hp
    refine ⟨hw.isWordAt, ?_⟩
    rw [cstr_eq hz hends.cut hw (hends.ended p hp), hw.text_eq]
  · by_contra hno
    push Not at hno
    rw [hbuf] at hi
    exact hi (getElem?_nulterminate fun p hp => (hno p hp).symm)

end

/-- The line `a>f|(b)&`: nothing is between the words but symbols. -/
theorem parsecmd_words_survive_pipe : ∃ c buf,
    parsecmd [97, 62, 102, 124, 40, 98, 41, 38] = .ok (c, buf) ∧
      ∀ p ∈ c.spans, cstr buf p.1 = p.text [97, 62, 102, 124, 40, 98, 41, 38] := by
  refine ⟨_, _, rfl, fun p hp => ?_⟩
  exact ((parsecmd_words_survive (by decide) rfl).1 p hp).2

end Sh
end Xv6
