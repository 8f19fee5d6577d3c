import Xv6.User.GrepMatch
import Mathlib.Data.List.GetD
import Mathlib.Data.List.TakeWhile

/-!
The output of `grep` is the lines that match, wherever `read` cuts the input. Between two reads the
buffer holds the bytes after the last newline.
-/

namespace Xv6
namespace Grep

/-- The lines that a newline ends, without it. -/
def linesOf (input : List UInt8) : List (List UInt8) := (input.splitOn NL).dropLast

def unlines (texts : List (List UInt8)) : List UInt8 := (texts.map (· ++ [NL])).flatten

section
variable {l tail : List UInt8} {texts : List (List UInt8)}

theorem linesOf_of_notMem (h : NL ∉ l) : linesOf l = [] := by
  rw [linesOf, List.splitOn_eq_singleton h]
  rfl

theorem linesOf_cons (h : NL ∉ l) (t : List UInt8) : linesOf (l ++ NL :: t) = l :: linesOf t := by
  have hne : ∀ x ∈ l, (x == NL) = false := fun x hx => beq_false_of_ne fun hNL => h (hNL ▸ hx)
  have hfirst : (l ++ NL :: t).splitOn NL = l :: t.splitOn NL :=
    List.splitOnP_append_cons_of_forall_mem hne NL (beq_self_eq_true NL) t
  have htail : t.splitOn NL ≠ [] := List.splitOnP_ne_nil _ _
  rw [linesOf, hfirst, List.dropLast_cons_of_ne_nil htail, linesOf]

theorem unlines_cons (l : List UInt8) (texts : List (List UInt8)) :
    unlines (l :: texts) = l ++ NL :: unlines texts := by
  rw [unlines, List.map_cons, List.flatten_cons, List.append_assoc]
  rfl

theorem linesOf_unlines (h : ∀ l ∈ texts, NL ∉ l) (t : List UInt8) :
    linesOf (unlines texts ++ t) = texts ++ linesOf t := by
  induction texts with
  | nil => rfl
  | cons l texts ih =>
    obtain ⟨hl, h⟩ := List.forall_mem_cons.1 h
    rw [unlines_cons, List.append_assoc, List.cons_append, linesOf_cons hl, ih h, List.cons_append]

theorem exists_unlines (d : List UInt8) : ∃ texts tail, d = unlines texts ++ tail ∧
    (∀ l ∈ texts, NL ∉ l) ∧ NL ∉ tail := by
  induction hn : d.length using Nat.strong_induction_on generalizing d with
  | _ n ih =>
    by_cases h : NL ∈ d
    · obtain ⟨l, t, rfl, hl⟩ := List.eq_append_cons_of_mem h
      obtain ⟨texts, tail, ht, htexts, htail⟩ :=
        ih t.length (by rw [← hn, List.length_append, List.length_cons]; omega) t rfl
      refine ⟨l :: texts, tail, ?_, List.forall_mem_cons.2 ⟨hl, htexts⟩, htail⟩
      rw [unlines_cons, List.append_assoc, List.cons_append, ← ht]
    · exact ⟨[], d, rfl, nofun, h⟩

end

/-! ### Memory -/

section
variable {mem mem' : ByteMemory} {p q n : ℕ} {c : UInt8} {l : List UInt8}

@[simp] theorem length_bytesAt (mem : ByteMemory) (p n : ℕ) : (bytesAt mem p n).length = n := by
  rw [bytesAt, List.length_map, List.length_range]

theorem bytesAt_add (mem : ByteMemory) (p m n : ℕ) :
    bytesAt mem p (m + n) = bytesAt mem p m ++ bytesAt mem (p + m) n := by
  simp only [bytesAt, List.range_add, List.map_append, List.map_map, Function.comp_def, Nat.add_assoc]

theorem bytesAt_succ (mem : ByteMemory) (p n : ℕ) :
    bytesAt mem p (n + 1) = mem p :: bytesAt mem (p + 1) n := by
  rw [Nat.add_comm, bytesAt_add]
  rfl

theorem bytesAt_congr (h : ∀ a, p ≤ a → a < p + n → mem a = mem' a) :
    bytesAt mem p n = bytesAt mem' p n := by
  refine List.map_congr_left fun i hi => h _ (by omega) ?_
  rw [List.mem_range] at hi
  omega

theorem bytesAt_update (hq : q < p ∨ p + n ≤ q) :
    bytesAt (Function.update mem q c) p n = bytesAt mem p n :=
  bytesAt_congr fun a _ _ => Function.update_of_ne (by omega) ..

/-- The bytes `d` are at `p`. -/
def Holds (mem : ByteMemory) (p : ℕ) (d : List UInt8) : Prop := bytesAt mem p d.length = d

theorem holds_append {d e : List UInt8} :
    Holds mem p (d ++ e) ↔ Holds mem p d ∧ Holds mem (p + d.length) e := by
  rw [Holds, List.length_append, bytesAt_add]
  constructor
  · intro h
    exact List.append_inj h (length_bytesAt ..)
  · rintro ⟨h, h'⟩
    rw [h, h']

theorem holds_cons {d : List UInt8} : Holds mem p (c :: d) ↔ mem p = c ∧ Holds mem (p + 1) d := by
  rw [Holds, List.length_cons, bytesAt_succ, List.cons_eq_cons]
  rfl

theorem holds_update {d : List UInt8} (hq : q < p ∨ p + d.length ≤ q) :
    Holds (Function.update mem q c) p d ↔ Holds mem p d := by
  rw [Holds, bytesAt_update hq, Holds]

/-- The search goes on behind bytes that are neither NUL nor `c`. -/
theorem strchr_skip (h : Holds mem p l) (hc : c ∉ l) (h0 : 0 ∉ l) (n : ℕ) :
    strchr mem c (l.length + n) p = strchr mem c n (p + l.length) := by
  induction l generalizing p with
  | nil => rw [List.length_nil, Nat.zero_add, Nat.add_zero]
  | cons x l ih =>
    obtain ⟨rfl, hl⟩ := holds_cons.1 h
    rw [List.mem_cons, not_or] at hc h0
    rw [List.length_cons, Nat.add_right_comm, strchr, if_neg (Ne.symm h0.1), if_neg (Ne.symm hc.1),
      ih hl hc.2 h0.2, Nat.add_assoc, Nat.add_comm 1]

/-- With a NUL behind it, the text that is matched is the line. -/
theorem matchText_bytesAt (pattern : List UInt8) (h : Holds mem p l) (h0 : 0 ∉ l)
    (hend : mem (p + l.length) = 0) (n : ℕ) :
    matchText pattern (bytesAt mem p (l.length + (n + 1))) = matchText pattern l := by
  have hne : ∀ x ∈ l, (x ≠ 0 : Bool) = true := fun x hx => decide_eq_true fun hx0 => h0 (hx0 ▸ hx)
  have hself : cstring l = l := List.takeWhile_eq_self_iff.2 hne
  apply matchText_congr
  rw [hself, bytesAt_add, h, bytesAt_succ, hend, cstring, List.takeWhile_append_of_pos hne,
    List.takeWhile_cons_of_neg (by decide), List.append_nil]

end

/-! ### The lines in the buffer -/

/-- What the loop over the lines makes of the bytes at `p`: the lines that match are written, and
`p` is moved to the rest. -/
structure Scanned (pattern : List UInt8) (g r : Progress) (texts : List (List UInt8))
    (tail : List UInt8) : Prop where
  p : r.p = g.p + (unlines texts).length
  out : r.out = g.out ++ (texts.filter (matchText pattern)).map (· ++ [NL])
  rest : Holds r.mem r.p tail

section
variable {pattern tail l : List UInt8} {texts : List (List UInt8)} {g r : Progress} {n : ℕ}

theorem Scanned.cons {g' : Progress} (h : Scanned pattern g' r texts tail)
    (hp : g'.p = g.p + l.length + 1)
    (hout : g'.out = g.out ++ if matchText pattern l then [l ++ [NL]] else []) :
    Scanned pattern g r (l :: texts) tail := by
  refine ⟨?_, ?_, h.rest⟩
  · rw [h.p, hp, unlines_cons, List.length_append, List.length_cons]
    omega
  · rw [h.out, hout, List.append_assoc, List.filter_cons]
    split_ifs <;> rfl

theorem grepLines_spec (hmem : Holds g.mem g.p (unlines texts ++ tail ++ [0]))
    (hn : (unlines texts ++ tail).length < n) (hNL : ∀ l ∈ texts, NL ∉ l) (htail : NL ∉ tail)
    (h0 : 0 ∉ unlines texts ++ tail) : Scanned pattern g (grepLines pattern n g) texts tail := by
  induction texts generalizing g n with
  | nil =>
    obtain ⟨hrest, hend⟩ := holds_append.1 hmem
    have hnone : strchr g.mem NL n g.p = none := by
      obtain ⟨k, rfl⟩ := Nat.exists_eq_add_of_lt hn
      rw [Nat.add_assoc, strchr_skip hrest htail h0, strchr, if_pos (holds_cons.1 hend).1]
    rw [grepLines]
    split
    · exact ⟨rfl, (List.append_nil _).symm, hrest⟩
    · rename_i q hq
      rw [hnone] at hq
      cases hq
  | cons l texts ih =>
    obtain ⟨hl, hNL⟩ := List.forall_mem_cons.1 hNL
    rw [unlines_cons, List.append_assoc, List.cons_append] at h0 hn
    rw [unlines_cons, List.append_assoc, List.append_assoc, List.cons_append, holds_append,
      holds_cons, ← List.append_assoc] at hmem
    obtain ⟨hline, hnl, hrest⟩ := hmem
    rw [List.mem_append, List.mem_cons, not_or, not_or] at h0
    rw [List.length_append, List.length_cons] at hn
    have hsome : strchr g.mem NL n g.p = some (g.p + l.length) := by
      obtain ⟨k, rfl⟩ : ∃ k, n = l.length + (k + 1) := ⟨n - l.length - 1, by omega⟩
      rw [strchr_skip hline hl h0.1, strchr, if_neg (by rw [hnl]; decide), if_pos hnl]
    rw [grepLines]
    split
    · rename_i hq
      rw [hsome] at hq
      cases hq
    · rename_i q hq
      rw [hsome] at hq
      cases hq
      have hq1 : g.p + l.length + 1 - g.p = l.length + 1 := by omega
      have hmatch : matchText pattern (bytesAt (Function.update g.mem (g.p + l.length) 0) g.p n) =
          matchText pattern l := by
        obtain ⟨k, rfl⟩ : ∃ k, n = l.length + (k + 1) := ⟨n - l.length - 1, by omega⟩
        exact matchText_bytesAt pattern ((holds_update (.inr le_rfl)).2 hline) h0.1
          (Function.update_self ..) k
      have hbehind : ∀ c, Holds (Function.update g.mem (g.p + l.length) c) (g.p + l.length + 1)
          (unlines texts ++ tail ++ [0]) :=
        fun c => (holds_update (.inl (Nat.lt_succ_self _))).2 hrest
      dsimp only
      rw [hmatch, Function.update_idem, hq1]
      by_cases hm : matchText pattern l = true
      · have hwritten : bytesAt (Function.update g.mem (g.p + l.length) NL) g.p (l.length + 1) =
            l ++ [NL] := by
          have hupdate : Holds (Function.update g.mem (g.p + l.length) NL) g.p (l ++ [NL]) :=
            holds_append.2 ⟨(holds_update (.inr le_rfl)).2 hline,
              holds_cons.2 ⟨Function.update_self .., rfl⟩⟩
          rw [Holds, List.length_append] at hupdate
          exact hupdate
        rw [if_pos hm, hwritten]
        refine (ih (hbehind NL) (by omega) hNL h0.2.2).cons rfl ?_
        rw [if_pos hm]
      · rw [if_neg hm]
        refine (ih (hbehind 0) (by omega) hNL h0.2.2).cons rfl ?_
        rw [if_neg hm, List.append_nil]

end

/-! ### The loop over the reads -/

section
variable {pattern : List UInt8} {buf : ℕ} {g : State} {chunks : List (List UInt8)}

structure Between (buf : ℕ) (g : State) (tail : List UInt8) : Prop where
  m : g.m = tail.length
  holds : Holds g.mem buf tail
  newline : NL ∉ tail
  fits : g.m ≤ BUFSIZE - 1

theorem flatten_read (n : ℕ) (chunks : List (List UInt8)) :
    (read n chunks).1 ++ (read n chunks).2.flatten = chunks.flatten := by
  cases chunks with
  | nil => rfl
  | cons c cs =>
    rw [read]
    split_ifs
    · rw [List.flatten_cons, List.flatten_cons, ← List.append_assoc, List.take_append_drop]
    · rw [List.flatten_cons]

theorem length_read_le (n : ℕ) (chunks : List (List UInt8)) : (read n chunks).1.length ≤ n := by
  cases chunks with
  | nil => exact Nat.zero_le n
  | cons c cs =>
    rw [read]
    split_ifs with h
    · exact List.length_take_le n c
    · exact not_lt.1 h

theorem read_ne_nil {n : ℕ} (hne : ∀ c ∈ chunks, c ≠ []) : ∀ c ∈ (read n chunks).2, c ≠ [] := by
  cases chunks with
  | nil => exact hne
  | cons c cs =>
    obtain ⟨-, hcs⟩ := List.forall_mem_cons.1 hne
    rw [read]
    split_ifs with h
    · refine List.forall_mem_cons.2 ⟨?_, hcs⟩
      rw [Ne, List.drop_eq_nil_iff]
      omega
    · exact hcs

theorem read_eq_nil {n : ℕ} (hne : ∀ c ∈ chunks, c ≠ []) (h : (read n chunks).1 = []) :
    chunks = [] ∨ n = 0 := by
  cases chunks with
  | nil => exact .inl rfl
  | cons c cs =>
    right
    rw [read] at h
    split_ifs at h with hlt
    · have hlen := congrArg List.length h
      rw [List.length_take, List.length_nil] at hlen
      omega
    · exact absurd h (hne c List.mem_cons_self)

theorem holds_store {mem : ByteMemory} {a : ℕ} (c : List UInt8) : Holds (store mem a c) a c := by
  refine List.ext_getElem (length_bytesAt ..) fun i hi hi' => ?_
  simp only [bytesAt, List.getElem_map, List.getElem_range]
  rw [store, if_pos (by omega), Nat.add_sub_cancel_left, List.getD_eq_getElem _ _ hi']

theorem store_outside {mem : ByteMemory} {a b : ℕ} {c : List UInt8} (h : b < a) :
    store mem a c b = mem b := if_neg (by omega)

theorem grepRound_spec (pattern : List UInt8) {tail c : List UInt8} (hb : buf + BUFSIZE ≤ 2 ^ 64)
    (h : Between buf g tail) (hc : c ≠ []) (hfit : g.m + c.length ≤ BUFSIZE - 1)
    (h0 : 0 ∉ tail ++ c) : ∃ texts tail', tail ++ c = unlines texts ++ tail' ∧
      (∀ l ∈ texts, NL ∉ l) ∧ Between buf (grepRound pattern buf g c) tail' ∧
      (grepRound pattern buf g c).out =
        g.out ++ (texts.filter (matchText pattern)).map (· ++ [NL]) := by
  obtain ⟨texts, tail', hsplit, hNL, htail⟩ := exists_unlines (tail ++ c)
  refine ⟨texts, tail', hsplit, hNL, ?_⟩
  have hpos := List.length_pos_of_ne_nil hc
  have hm : g.m + c.length = (unlines texts ++ tail').length := by
    rw [← hsplit, List.length_append, h.m]
  have hmem : Holds (Function.update (store g.mem (buf + g.m) c) (buf + (g.m + c.length)) 0) buf
      (unlines texts ++ tail' ++ [0]) := by
    rw [← hsplit, holds_append, List.length_append, ← h.m]
    refine ⟨(holds_update (.inr (by rw [List.length_append, h.m]))).2 (holds_append.2 ⟨?_, ?_⟩),
      holds_cons.2 ⟨Function.update_self .., rfl⟩⟩
    · have hkept : bytesAt (store g.mem (buf + g.m) c) buf tail.length = bytesAt g.mem buf tail.length :=
        bytesAt_congr fun a _ ha => store_outside (by rw [h.m]; exact ha)
      rw [Holds, hkept]
      exact h.holds
    · rw [← h.m]
      exact holds_store c
  let mem := Function.update (store g.mem (buf + g.m) c) (buf + (g.m + c.length)) 0
  have hscan : Scanned pattern ⟨buf, mem, g.out⟩ (grepLines pattern BUFSIZE ⟨buf, mem, g.out⟩)
      texts tail' :=
    grepLines_spec hmem (by rw [← hm]; unfold BUFSIZE at *; omega) hNL htail (hsplit ▸ h0)
  rw [List.length_append] at hm
  have hround : grepRound pattern buf g c =
      if 0 < g.m + c.length then
        ⟨g.m + c.length - ((grepLines pattern BUFSIZE ⟨buf, mem, g.out⟩).p - buf), _, _⟩
      else _ := rfl
  rw [hround, if_pos (by omega)]
  generalize grepLines pattern BUFSIZE ⟨buf, mem, g.out⟩ = r at hscan
  have hp : r.p = buf + (unlines texts).length := hscan.p
  have hlen : g.m + c.length - (r.p - buf) = tail'.length := by
    rw [hp]
    omega
  refine ⟨⟨hlen, ?_, htail, ?_⟩, hscan.out⟩
  · show Holds (Memmove.ulibMemmove buf r.p ((g.m + c.length - (r.p - buf) : ℕ) : ℤ) r.mem).2 buf tail'
    rw [hlen, Memmove.ulibMemmove_eq (by unfold BUFSIZE at *; omega) (by unfold BUFSIZE at *; omega)]
    refine Eq.trans ?_ hscan.rest
    refine List.map_congr_left fun i hi => ?_
    exact Copy.move_add (List.mem_range.1 hi)
  · show g.m + c.length - (r.p - buf) ≤ BUFSIZE - 1
    omega

/-- The loop over the reads writes the lines of what is in the buffer and of what is still to be
read. -/
theorem grepLoop_spec (hb : buf + BUFSIZE ≤ 2 ^ 64) {tail : List UInt8} (h : Between buf g tail)
    (hne : ∀ c ∈ chunks, c ≠ []) (h0 : 0 ∉ tail ++ chunks.flatten)
    (hlines : ∀ l ∈ linesOf (tail ++ chunks.flatten), l.length + 1 ≤ BUFSIZE - 1) :
    (grepLoop pattern buf g chunks).out = g.out ++
      ((linesOf (tail ++ chunks.flatten)).filter (matchText pattern)).map (· ++ [NL]) := by
  induction hn : chunks.flatten.length using Nat.strong_induction_on generalizing g chunks tail with
  | _ n ih =>
    have hflat := flatten_read (BUFSIZE - g.m - 1) chunks
    have hlen := length_read (BUFSIZE - g.m - 1) chunks
    have hle := length_read_le (BUFSIZE - g.m - 1) chunks
    have hne' := read_ne_nil (n := BUFSIZE - g.m - 1) hne
    rw [grepLoop]
    by_cases hpos : 0 < (read (BUFSIZE - g.m - 1) chunks).1.length
    · rw [if_pos hpos]
      rw [← hflat, ← List.append_assoc] at h0 hlines ⊢
      obtain ⟨texts, tail', hsplit, hNL, hbetween, hout⟩ := grepRound_spec pattern hb h
        (List.ne_nil_of_length_pos hpos) (by have := h.fits; omega)
        fun hmem => h0 (List.mem_append_left _ hmem)
      rw [hsplit, List.append_assoc] at h0 hlines ⊢
      rw [linesOf_unlines hNL] at hlines ⊢
      rw [ih _ (by omega) hbetween hne' ?_ ?_ rfl, hout, List.append_assoc, List.filter_append,
        List.map_append]
      · exact fun hmem => h0 (List.mem_append_right _ hmem)
      · exact fun l hl => hlines l (List.mem_append_right _ hl)
    · rw [if_neg hpos]
      have hnil := List.eq_nil_of_length_eq_zero (Nat.eq_zero_of_not_pos hpos)
      have hnone : linesOf (tail ++ chunks.flatten) = [] := by
        obtain rfl | hfull := read_eq_nil hne hnil
        · rw [List.flatten_nil, List.append_nil, linesOf_of_notMem h.newline]
        · refine linesOf_of_notMem fun hmem => ?_
          obtain htail | hmem := List.mem_append.1 hmem
          · exact h.newline htail
          obtain ⟨l, t, ht, hl⟩ := List.eq_append_cons_of_mem hmem
          have hl' : NL ∉ tail ++ l := fun hm => (List.mem_append.1 hm).elim h.newline hl
          rw [ht, ← List.append_assoc, linesOf_cons hl'] at hlines
          have hlong := hlines (tail ++ l) List.mem_cons_self
          rw [List.length_append, ← h.m] at hlong
          omega
      rw [hnone, List.filter_nil, List.map_nil, List.append_nil]

end

/-- `grep` writes the lines of its input that match, each once and in order, wherever the reads cut
the input. -/
theorem grep_writes_matching_lines {pattern : List UInt8} {buf : ℕ} {mem : ByteMemory}
    {chunks : List (List UInt8)} (hb : buf + BUFSIZE ≤ 2 ^ 64) (hne : ∀ c ∈ chunks, c ≠ [])
    (h0 : 0 ∉ chunks.flatten)
    (hlines : ∀ l ∈ linesOf chunks.flatten, l.length + 1 ≤ BUFSIZE - 1) :
    grep pattern buf mem chunks =
      ((linesOf chunks.flatten).filter (matchText pattern)).map (· ++ [NL]) :=
  grepLoop_spec (g := ⟨0, mem, []⟩) hb (show Between buf _ [] from ⟨rfl, rfl, nofun, Nat.zero_le _⟩)
    hne h0 hlines

/-- The empty pattern, and a line in two chunks. -/
theorem grep_writes_two_chunks :
    grep [] 4096 (fun _ => 0) [[98], [97, 10, 97]] = [[98, 97, 10]] := by
  have hall : matchText [] [98, 97] = true := by
    rw [matchText, if_neg (by decide), matchFrom, matchhere, if_pos (show ch [] 0 = 0 from rfl),
      if_pos rfl]
  have hlines : linesOf [98, 97, 10, 97] = [[98, 97]] := by decide
  have hgrep := @grep_writes_matching_lines [] 4096 (fun _ => 0) [[98], [97, 10, 97]] (by decide)
    (by decide) (by decide) (by decide)
  rw [hgrep]
  show ((linesOf [98, 97, 10, 97]).filter (matchText [])).map (· ++ [NL]) = _
  rw [hlines, List.filter_cons_of_pos hall]
  rfl

end Grep
end Xv6
