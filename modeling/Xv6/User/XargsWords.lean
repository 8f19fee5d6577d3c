import Xv6.User.XargsRuns

/-!
The arguments that `xargs` passes for a line. The words of the line are put where they belong,
but no null pointer is stored after the last one: what stood there before ends the vector, or
does not. A `\r` ends a line as well, so that a line is a list of segments for the program.
-/

namespace Xv6
namespace Xargs

/-- `argvBuf` after these words. -/
def packed (ps : List (List UInt8)) : List UInt8 := (ps.map (· ++ [0])).flatten

def cut (w : List UInt8) : List UInt8 := w.takeWhile (· ≠ 0)

structure Mid (v₀ : Vars) (nargs : ℕ) (ps : List (List UInt8)) (cur : List UInt8) (v : Vars) :
    Prop where
  size : v.argvBufSize = (packed ps).length + cur.length
  ptr : v.argvbufp = (packed ps).length
  index : v.argvi = nargs + ps.length
  buf : (List.range v.argvBufSize).map v.argvBuf = packed ps ++ cur
  entry : ∀ j < ps.length, v.cmdArgv (nargs + j) = .buf (packed (ps.take j)).length
  rest : ∀ i, i < nargs ∨ nargs + ps.length ≤ i → v.cmdArgv i = v₀.cmdArgv i

structure Ended (v₀ : Vars) (nargs : ℕ) (ps : List (List UInt8)) (v : Vars) : Prop where
  buf : (List.range (packed ps).length).map v.argvBuf = packed ps
  entry : ∀ j < ps.length, v.cmdArgv (nargs + j) = .buf (packed (ps.take j)).length
  rest : ∀ i, i < nargs ∨ nargs + ps.length ≤ i → v.cmdArgv i = v₀.cmdArgv i

section
variable {nargs n : ℕ} {v v₀ : Vars} {ps : List (List UInt8)} {cur w l s t : List UInt8} {c : UInt8}
  {lines : List (List UInt8)}

/-! ### Pieces -/

theorem mem_splitOn {x : UInt8} (hw : w ∈ l.splitOn x) : x ∉ w ∧ ∀ c ∈ w, c ∈ l := by
  induction l generalizing w with
  | nil =>
    rw [List.mem_singleton.1 (show w ∈ [[]] from hw)]
    simp
  | cons d l ih =>
    rw [List.splitOn_cons_eq_if_modifyHead] at hw
    split_ifs at hw with hd
    · obtain rfl | hw := List.mem_cons.1 hw
      · simp
      · exact ⟨(ih hw).1, fun c hc => List.mem_cons_of_mem _ ((ih hw).2 c hc)⟩
    · obtain ⟨r, rs, hr⟩ := List.exists_cons_of_ne_nil (List.splitOn_ne_nil x l)
      rw [hr, List.modifyHead_cons] at hw
      obtain rfl | hw := List.mem_cons.1 hw
      · have hr := ih (hr ▸ List.mem_cons_self)
        refine ⟨fun hx => ?_, fun c hc => ?_⟩
        · obtain rfl | hx := List.mem_cons.1 hx
          · exact hd (beq_self_eq_true _)
          · exact hr.1 hx
        · obtain rfl | hc := List.mem_cons.1 hc
          · exact List.mem_cons_self
          · exact List.mem_cons_of_mem _ (hr.2 c hc)
      · have hr := ih (hr ▸ List.mem_cons_of_mem _ hw)
        exact ⟨hr.1, fun c hc => List.mem_cons_of_mem _ (hr.2 c hc)⟩

theorem pieces_append (s t : List UInt8) : ∃ qs w z ys, pieces s = qs ++ [w] ∧ pieces t = z :: ys ∧
    pieces (s ++ t) = qs ++ (w ++ z) :: ys := by
  induction s with
  | nil =>
    obtain ⟨z, ys, ht⟩ := List.exists_cons_of_ne_nil (List.splitOn_ne_nil SPACE t)
    exact ⟨[], [], z, ys, rfl, ht, ht⟩
  | cons c s ih =>
    obtain ⟨qs, w, z, ys, hs, ht, hst⟩ := ih
    unfold pieces at hs hst ⊢
    rw [List.cons_append, List.splitOn_cons_eq_if_modifyHead, List.splitOn_cons_eq_if_modifyHead,
      hs, hst]
    split_ifs
    · exact ⟨[] :: qs, w, z, ys, rfl, ht, rfl⟩
    · cases qs with
      | nil => exact ⟨[], c :: w, z, ys, rfl, ht, rfl⟩
      | cons q qs => exact ⟨(c :: q) :: qs, w, z, ys, rfl, ht, rfl⟩

/-- The words before a `\r` are not the first words of the line. -/
theorem not_prefix_of_cr (s t : List UInt8) :
    ¬(pieces s).map cut <+: words (s ++ CR :: t) := by
  rintro ⟨r, hr⟩
  obtain ⟨qs, w, z, ys, hs, ht, hst⟩ := pieces_append s (CR :: t)
  have hz : z ≠ [] := by
    rw [pieces, List.splitOn_cons_eq_if_modifyHead, if_neg (by decide)] at ht
    obtain ⟨y, ys', hy⟩ := List.exists_cons_of_ne_nil (List.splitOn_ne_nil SPACE t)
    rw [hy, List.modifyHead_cons, List.cons.injEq] at ht
    rw [← ht.1]
    exact List.cons_ne_nil _ _
  have hq : qs.filter (· ≠ []) = qs := by
    refine List.filter_eq_self.2 fun q hq => decide_eq_true fun hnil => ?_
    have hmem : cut q ∈ words (s ++ CR :: t) := by
      rw [← hr, hs]
      exact List.mem_append_left _ (List.mem_map_of_mem (List.mem_append_left _ hq))
    rw [hnil] at hmem
    exact of_decide_eq_true (List.mem_filter.1 hmem).2 rfl
  have hwords : words (s ++ CR :: t) = qs ++ (w ++ z) :: ys.filter (· ≠ []) := by
    rw [words, hst, List.filter_append, hq, List.filter_cons_of_pos]
    exact decide_eq_true (List.append_ne_nil_of_right_ne_nil _ hz)
  rw [hwords, hs, List.map_append, List.append_assoc] at hr
  obtain ⟨-, hlast⟩ := List.append_inj hr (List.length_map _)
  have hlen := congrArg List.length (List.cons.inj hlast).1
  have hcut : (cut w).length ≤ w.length := (List.takeWhile_prefix _).length_le
  have := List.length_pos_iff.2 hz
  rw [List.length_append] at hlen
  omega

/-! ### The arrays while a line is read -/

theorem packed_append (ps qs : List (List UInt8)) : packed (ps ++ qs) = packed ps ++ packed qs := by
  rw [packed, List.map_append, List.flatten_append]
  rfl

theorem packed_cons (w : List UInt8) (ps : List (List UInt8)) :
    packed (w :: ps) = w ++ 0 :: packed ps := by
  rw [packed, List.map_cons, List.flatten_cons, List.append_assoc]
  rfl

theorem packed_concat (ps : List (List UInt8)) (w : List UInt8) :
    packed (ps ++ [w]) = packed ps ++ w ++ [0] := by
  rw [packed_append, packed_cons, List.append_assoc]
  rfl

theorem map_range_add {α : Type} (f : ℕ → α) (a b : ℕ) :
    (List.range (a + b)).map f = (List.range a).map f ++ (List.range b).map fun i => f (a + i) := by
  rw [List.range_add, List.map_append, List.map_map]
  rfl

theorem map_range_update (f : ℕ → UInt8) (n : ℕ) (c : UInt8) :
    (List.range (n + 1)).map (Function.update f n c) = (List.range n).map f ++ [c] := by
  rw [List.range_succ, List.map_append, List.map_singleton, Function.update_self]
  congr 1
  refine List.map_congr_left fun i hi => Function.update_of_ne ?_ _ _
  exact (List.mem_range.1 hi).ne

theorem Mid.endWord (h : Mid v₀ nargs ps cur v) : Ended v₀ nargs (ps ++ [cur]) v.endWord := by
  have hlen : (packed (ps ++ [cur])).length = v.argvBufSize + 1 := by
    rw [packed_concat, List.length_append, List.length_append, h.size]
    rfl
  constructor
  · rw [hlen]
    show (List.range (v.argvBufSize + 1)).map (Function.update v.argvBuf v.argvBufSize 0) = _
    rw [map_range_update, h.buf, packed_concat]
  · intro j hj
    show Function.update v.cmdArgv v.argvi (.buf v.argvbufp) (nargs + j) = _
    rw [List.length_append, List.length_singleton] at hj
    by_cases hjl : j = ps.length
    · rw [hjl, h.index, Function.update_self, h.ptr, List.take_left]
    · rw [Function.update_of_ne (by rw [h.index]; omega), h.entry j (by omega),
        List.take_append_of_le_length (by omega)]
  · intro i hi
    show Function.update v.cmdArgv v.argvi (.buf v.argvbufp) i = _
    rw [List.length_append, List.length_singleton] at hi
    rw [Function.update_of_ne (by rw [h.index]; omega)]
    exact h.rest i (by omega)

theorem Mid.onSpace (h : Mid v₀ nargs ps cur v) : Mid v₀ nargs (ps ++ [cur]) [] v.onSpace := by
  have he := h.endWord
  have hlen : (packed (ps ++ [cur])).length = v.argvBufSize + 1 := by
    rw [packed_concat, List.length_append, List.length_append, h.size]
    rfl
  refine ⟨hlen.symm, hlen.symm, ?_, ?_, he.entry, he.rest⟩
  · show v.argvi + 1 = _
    rw [h.index, List.length_append, List.length_singleton, Nat.add_assoc]
  · rw [List.append_nil, ← he.buf, hlen]
    rfl

theorem Mid.onChar (h : Mid v₀ nargs ps cur v) (c : UInt8) :
    Mid v₀ nargs ps (cur ++ [c]) (v.onChar c) := by
  refine ⟨?_, h.ptr, h.index, ?_, h.entry, h.rest⟩
  · show v.argvBufSize + 1 = _
    rw [h.size, List.length_append, List.length_singleton, Nat.add_assoc]
  · show (List.range (v.argvBufSize + 1)).map (Function.update v.argvBuf v.argvBufSize c) = _
    rw [map_range_update, h.buf, List.append_assoc]

theorem Mid.word (h : Mid v₀ nargs ps cur v) (hspace : SPACE ∉ w)
    (hend : ∀ c ∈ w, isEnd c = false) : Mid v₀ nargs ps (cur ++ w) (after nargs v w) := by
  induction w generalizing v cur with
  | nil => rwa [List.append_nil]
  | cons c w ih =>
    have hc : ¬(c = NL ∨ c = CR) := fun hc => by
      have := hend c List.mem_cons_self
      rw [isEnd_iff.2 hc] at this
      cases this
    have hstep : v.step nargs c = v.onChar c := by
      rw [Vars.step, if_neg (fun h : c = SPACE => hspace (h ▸ List.mem_cons_self)), if_neg hc]
    rw [after, List.foldl_cons, hstep, List.append_cons]
    exact ih (h.onChar c) (fun hs => hspace (List.mem_cons_of_mem _ hs))
      fun d hd => hend d (List.mem_cons_of_mem _ hd)

/-- The variables after a text, piece by piece. -/
theorem Mid.text (h : Mid v₀ nargs ps [] v) {qs : List (List UInt8)} (hne : qs ≠ [])
    (hq : ∀ w ∈ qs, SPACE ∉ w ∧ ∀ c ∈ w, isEnd c = false) :
    ∃ qs' w, qs = qs' ++ [w] ∧
      Mid v₀ nargs (ps ++ qs') w (after nargs v ([SPACE].intercalate qs)) := by
  induction qs generalizing v ps with
  | nil => exact absurd rfl hne
  | cons w qs ih =>
    obtain ⟨hspace, hend⟩ := hq w List.mem_cons_self
    have hw := h.word hspace hend
    rw [List.nil_append] at hw
    cases qs with
    | nil =>
      refine ⟨[], w, rfl, ?_⟩
      rwa [List.intercalate_singleton, List.append_nil]
    | cons w' qs =>
      obtain ⟨qs', u, hqs, hmid⟩ := ih (v := (after nargs v w).onSpace)
        hw.onSpace (List.cons_ne_nil _ _) fun x hx => hq x (List.mem_cons_of_mem _ hx)
      refine ⟨w :: qs', u, by rw [hqs]; rfl, ?_⟩
      rw [List.intercalate_cons_cons, after_append, after_append, List.append_cons]
      exact hmid

/-- `exec` is called with the pieces of the segment in their places. -/
theorem ended_segment (hs : ∀ c ∈ s, isEnd c = false) (hv : Mid v₀ nargs [] [] v) :
    Ended v₀ nargs (pieces s) (after nargs v s).endWord := by
  obtain ⟨qs, w, hqs, hmid⟩ := hv.text (List.splitOn_ne_nil SPACE s) fun w hw =>
    ⟨(mem_splitOn hw).1, fun c hc => hs c ((mem_splitOn hw).2 c hc)⟩
  rw [List.intercalate_splitOn] at hmid
  rw [pieces, hqs]
  exact hmid.endWord

/-! ### The vector -/

theorem cut_append (w r : List UInt8) : cut (w ++ 0 :: r) = cut w := by
  rw [cut, List.takeWhile_append, List.takeWhile_cons_of_neg (by simp), List.append_nil]
  split_ifs with hlen
  · exact ((List.takeWhile_prefix _).eq_of_length hlen).symm
  · rfl

theorem cut_eq_self : cut w = w ↔ 0 ∉ w := by
  rw [cut, List.takeWhile_eq_self_iff]
  constructor
  · exact fun h h0 => of_decide_eq_true (h 0 h0) rfl
  · exact fun h c hc => decide_eq_true fun h0 => h (h0 ▸ hc)

theorem Ended.string (h : Ended v₀ nargs ps v) (hlen : (packed ps).length ≤ BUFSIZE)
    {j : ℕ} (hj : j < ps.length) :
    string v.argvBuf (packed (ps.take j)).length = cut ps[j] := by
  obtain ⟨a, ha⟩ : ∃ a, a = (packed (ps.take j)).length := ⟨_, rfl⟩
  have hsplit : packed ps = packed (ps.take j) ++ (ps[j] ++ 0 :: packed (ps.drop (j + 1))) := by
    rw [← packed_cons, ← List.drop_eq_getElem_cons hj, ← packed_append, List.take_append_drop]
  have hle : a ≤ (packed ps).length := by
    rw [hsplit, List.length_append]
    omega
  obtain ⟨r, hr⟩ : ∃ r, BUFSIZE = (packed ps).length + r := ⟨_, (Nat.add_sub_cancel' hlen).symm⟩
  have hfront : (List.range a).map v.argvBuf = packed (ps.take j) := by
    have := congrArg (List.take a) h.buf
    rw [← List.map_take, List.take_range, min_eq_left hle] at this
    rw [this, hsplit, ha, List.take_left]
  have hall : (List.range a).map v.argvBuf ++
      (List.range (BUFSIZE - a)).map (fun i => v.argvBuf (a + i)) =
      packed ps ++ (List.range r).map fun i => v.argvBuf ((packed ps).length + i) := by
    rw [← map_range_add, Nat.add_sub_cancel' (hle.trans hlen), hr, map_range_add, h.buf]
  rw [hfront, hsplit, List.append_assoc] at hall
  have hback := List.append_cancel_left hall
  rw [Xargs.string, ← ha, hback, List.append_assoc, List.cons_append]
  exact cut_append _ _

theorem vector_eq {f : ℕ → Ptr} {m : ℕ} (hm : m < MAXARG) (hf : ∀ i < m, f i ≠ .null)
    (hnull : f m = .null) : vector f = some ((List.range m).map f) := by
  obtain ⟨r, hr⟩ : ∃ r, MAXARG = m + (1 + r) := ⟨MAXARG - m - 1, by omega⟩
  have hsplit : (List.range MAXARG).map f = (List.range m).map f ++
      .null :: (List.range r).map fun i => f (m + (1 + i)) := by
    rw [hr, map_range_add, map_range_add]
    simp [hnull]
  rw [vector, hsplit, if_pos (by simp), List.takeWhile_append_of_pos]
  · simp
  · intro p hp
    obtain ⟨i, hi, rfl⟩ := List.mem_map.1 hp
    exact decide_eq_true (hf i (List.mem_range.1 hi))

/-- The entries before the first null pointer are in the vector. -/
theorem prefix_of_vector {f : ℕ → Ptr} {m : ℕ} (hm : m ≤ MAXARG) (hf : ∀ i < m, f i ≠ .null)
    {ptrs : List Ptr} (hv : vector f = some ptrs) : (List.range m).map f <+: ptrs := by
  unfold vector at hv
  dsimp only at hv
  split_ifs at hv
  cases hv
  obtain ⟨r, hr⟩ : ∃ r, MAXARG = m + r := ⟨MAXARG - m, by omega⟩
  rw [hr, map_range_add, List.takeWhile_append_of_pos]
  · exact List.prefix_append _ _
  · intro p hp
    obtain ⟨i, hi, rfl⟩ := List.mem_map.1 hp
    exact decide_eq_true (hf i (List.mem_range.1 hi))

section
variable {args : List (List UInt8)} {other : ℕ → List UInt8} {x : List (List UInt8)}

theorem Ended.ne_null (h : Ended v₀ args.length ps v)
    (hargs : ∀ i < args.length, v₀.cmdArgv i = .arg i) {i : ℕ} (hi : i < args.length + ps.length) :
    v.cmdArgv i ≠ .null := by
  by_cases hia : i < args.length
  · rw [h.rest i (.inl hia), hargs i hia]
    simp
  · obtain ⟨j, rfl⟩ : ∃ j, i = args.length + j := ⟨i - args.length, by omega⟩
    rw [h.entry j (by omega)]
    simp

theorem Ended.strings (h : Ended v₀ args.length ps v)
    (hargs : ∀ i < args.length, v₀.cmdArgv i = .arg i) (hlen : (packed ps).length ≤ BUFSIZE)
    (other : ℕ → List UInt8) :
    ((List.range (args.length + ps.length)).map v.cmdArgv).map (v.deref args other) =
      args ++ ps.map cut := by
  refine List.ext_getElem (by simp) fun i hi hi' => ?_
  rw [List.getElem_map, List.getElem_map, List.getElem_range]
  by_cases hia : i < args.length
  · rw [h.rest i (.inl hia), hargs i hia, List.getElem_append_left hia]
    simp [Vars.deref, hia]
  · obtain ⟨j, rfl⟩ : ∃ j, i = args.length + j := ⟨i - args.length, by omega⟩
    have hj : j < ps.length := by
      rw [List.length_append, List.length_map] at hi'
      omega
    rw [h.entry j hj, List.getElem_append_right (by omega)]
    simp only [Nat.add_sub_cancel_left, List.getElem_map]
    exact h.string hlen hj

theorem Ended.prefix_execArgs (h : Ended v₀ args.length ps v)
    (hargs : ∀ i < args.length, v₀.cmdArgv i = .arg i) (hlen : (packed ps).length ≤ BUFSIZE)
    (hmax : args.length + ps.length < MAXARG) (hx : v.execArgs args other = some x) :
    args ++ ps.map cut <+: x ∧
      (v₀.cmdArgv (args.length + ps.length) ≠ .null → args.length + ps.length < x.length) := by
  obtain ⟨ptrs, hvec, rfl⟩ := Option.map_eq_some_iff.1 hx
  have hlast := h.rest (args.length + ps.length) (.inr le_rfl)
  constructor
  · rw [← h.strings hargs hlen other]
    exact (prefix_of_vector hmax.le (fun i hi => h.ne_null hargs hi) hvec).map _
  · intro hnull
    have hpre := (prefix_of_vector (m := args.length + ps.length + 1) hmax (fun i hi => by
      obtain hi | rfl := (Nat.lt_succ_iff.1 hi).lt_or_eq
      · exact h.ne_null hargs hi
      · rwa [hlast]) hvec).length_le
    rw [List.length_map, List.length_range] at hpre
    rw [List.length_map]
    exact hpre

/-- The arguments are those of the line exactly if its pieces are words and C strings, and the
entry after the last of them is null. -/
theorem Ended.execArgs_eq_iff (h : Ended v₀ args.length (pieces l) v)
    (hargs : ∀ i < args.length, v₀.cmdArgv i = .arg i) (hlen : (packed (pieces l)).length ≤ BUFSIZE)
    (hmax : args.length + (pieces l).length < MAXARG) :
    v.execArgs args other = some (args ++ words l) ↔
      (∀ w ∈ pieces l, w ≠ [] ∧ 0 ∉ w) ∧
        v₀.cmdArgv (args.length + (pieces l).length) = .null := by
  have hle : (words l).length ≤ (pieces l).length := List.length_filter_le _ _
  by_cases hnull : v₀.cmdArgv (args.length + (pieces l).length) = .null
  · have hvec := vector_eq hmax (fun i hi => h.ne_null hargs hi)
      ((h.rest _ (.inr le_rfl)).trans hnull)
    rw [Vars.execArgs, hvec, Option.map_some, h.strings hargs hlen, Option.some_inj,
      List.append_cancel_left_eq, and_iff_left hnull]
    constructor
    · intro heq
      have hlength : (words l).length = (pieces l).length := by
        rw [← heq, List.length_map]
      have hall : words l = pieces l := List.filter_sublist.eq_of_length hlength
      rw [hall] at heq
      intro w hw
      refine ⟨of_decide_eq_true (List.filter_eq_self.1 hall w hw), cut_eq_self.1 ?_⟩
      exact List.map_inj_left.1 (heq.trans (List.map_id _).symm) w hw
    · intro hw
      rw [words, List.filter_eq_self.2 fun w hmem => decide_eq_true (hw w hmem).1]
      refine Eq.trans (List.map_inj_left.2 fun w hmem => ?_) (List.map_id _)
      exact cut_eq_self.2 (hw w hmem).2
  · refine iff_of_false (fun heq => ?_) fun hc => hnull hc.2
    have := (h.prefix_execArgs hargs hlen hmax heq).2 hnull
    rw [List.length_append] at this
    omega

end

/-! ### Line after line -/

structure Fresh (nargs : ℕ) (stack : ℕ → Ptr) (segs : List (List UInt8)) (v : Vars) : Prop where
  mid : Mid v nargs [] [] v
  args : ∀ i < nargs, v.cmdArgv i = .arg i
  old : ∀ j, (∀ s ∈ segs, (pieces s).length ≤ j) → v.cmdArgv (nargs + j) = stack (nargs + j)
  used : ∀ j, ∀ s ∈ segs, j < (pieces s).length → v.cmdArgv (nargs + j) ≠ .null

theorem mid_nil (hs : v.argvBufSize = 0) (hp : v.argvbufp = 0) (hi : v.argvi = nargs) :
    Mid v nargs [] [] v := by
  refine ⟨hs, hp, hi, ?_, fun j hj => absurd hj (Nat.not_lt_zero j), fun _ _ => rfl⟩
  rw [hs]
  rfl

theorem fresh_start (nargs : ℕ) (stack : ℕ → Ptr) (buf : ℕ → UInt8) :
    Fresh nargs stack [] (start nargs stack buf) := by
  refine ⟨mid_nil rfl rfl rfl, fun i hi => if_pos hi, fun j _ => if_neg (by omega), ?_⟩
  exact fun j l hl => absurd hl List.not_mem_nil

theorem Fresh.segment {stack : ℕ → Ptr} {segs : List (List UInt8)} (h : Fresh nargs stack segs v)
    (hs : ∀ c ∈ s, isEnd c = false) (hc : isEnd c = true) :
    Fresh nargs stack (segs ++ [s]) (after nargs v (s ++ [c])) := by
  have he := ended_segment hs h.mid
  have hspace : c ≠ SPACE := by
    rintro rfl
    exact absurd hc (by decide)
  have hstep : after nargs v (s ++ [c]) = (after nargs v s).endWord.nextLine nargs := by
    rw [after_append]
    show (after nargs v s).step nargs c = _
    rw [Vars.step, if_neg hspace, if_pos (isEnd_iff.1 hc)]
  rw [hstep]
  refine ⟨mid_nil rfl rfl rfl, fun i hi => (he.rest i (.inl hi)).trans (h.args i hi), ?_, ?_⟩
  · intro j hj
    have hl : (pieces s).length ≤ j := hj s (by simp)
    exact (he.rest _ (.inr (by omega))).trans
      (h.old j fun m hm => hj m (List.mem_append_left _ hm))
  · intro j m hm hjm
    by_cases hjl : j < (pieces s).length
    · exact (he.entry j hjl).trans_ne (by simp)
    · have hm' : m ∈ segs := by
        obtain hm | hm := List.mem_append.1 hm
        · exact hm
        · rw [List.mem_singleton.1 hm] at hjm
          exact absurd hjm hjl
      exact (he.rest _ (.inr (by omega))).trans_ne (h.used j m hm' hjm)

theorem Fresh.segments {stack : ℕ → Ptr} {segs qs : List (List UInt8)}
    (h : Fresh nargs stack segs v) (hne : qs ≠ []) (hq : ∀ s ∈ qs, ∀ c ∈ s, isEnd c = false) :
    Fresh nargs stack (segs ++ qs) (after nargs v ([CR].intercalate qs ++ [NL])) := by
  induction qs generalizing segs v with
  | nil => exact absurd rfl hne
  | cons s qs ih =>
    have hs := hq s List.mem_cons_self
    cases qs with
    | nil =>
      rw [List.intercalate_singleton]
      exact h.segment hs (by decide)
    | cons s' qs =>
      have hrest := ih (h.segment (c := CR) hs (by decide)) (List.cons_ne_nil _ _)
        fun m hm => hq m (List.mem_cons_of_mem _ hm)
      rw [← after_append, List.append_assoc] at hrest
      rw [List.intercalate_cons_cons, List.append_assoc]
      exact hrest

theorem not_isEnd (hnl : NL ∉ l) (hcr : CR ∉ l) : ∀ c ∈ l, isEnd c = false := by
  intro c hc
  rw [Bool.eq_false_iff, ne_eq, isEnd_iff]
  rintro (rfl | rfl)
  · exact hnl hc
  · exact hcr hc

theorem fresh_after (stack : ℕ → Ptr) (buf : ℕ → UInt8) (hl : ∀ l ∈ lines, NL ∉ l) :
    Fresh nargs stack (lines.flatMap (·.splitOn CR))
      (after nargs (start nargs stack buf) (ofLines lines)) := by
  induction lines using List.reverseRecOn with
  | nil => exact fresh_start nargs stack buf
  | append_singleton lines l ih =>
    have hnl : NL ∉ l := hl l (by simp)
    have hsegs := (ih fun m hm => hl m (List.mem_append_left _ hm)).segments
      (List.splitOn_ne_nil CR l) fun s hs =>
        not_isEnd (fun h => hnl ((mem_splitOn hs).2 _ h)) (mem_splitOn hs).1
    rw [List.intercalate_splitOn, ← after_append] at hsegs
    rw [List.flatMap_append, ofLines_append, ofLines_cons, List.flatMap_singleton]
    exact hsegs

/-- The entry after the words of a line is null if it was so at first and no segment before had
more words. -/
theorem Fresh.null_iff {stack : ℕ → Ptr} {segs : List (List UInt8)} (h : Fresh nargs stack segs v)
    (j : ℕ) : v.cmdArgv (nargs + j) = .null ↔
      stack (nargs + j) = .null ∧ ∀ s ∈ segs, (pieces s).length ≤ j := by
  by_cases hj : ∀ s ∈ segs, (pieces s).length ≤ j
  · rw [h.old j hj]
    exact (and_iff_left hj).symm
  · refine iff_of_false (fun hnull => ?_) fun hc => hj hc.2
    push Not at hj
    obtain ⟨l, hl, hlt⟩ := hj
    exact h.used j l hl hlt hnull

theorem length_packed (hne : ps ≠ []) :
    (packed ps).length = ([SPACE].intercalate ps).length + 1 := by
  induction ps with
  | nil => exact absurd rfl hne
  | cons w ps ih =>
    rw [packed_cons]
    cases ps with
    | nil =>
      rw [List.intercalate_singleton, List.length_append]
      rfl
    | cons w' ps =>
      rw [List.intercalate_cons_cons, List.length_append, List.length_cons, ih (by simp)]
      simp only [List.length_append, List.length_singleton]
      omega

theorem length_packed_pieces (s : List UInt8) : (packed (pieces s)).length = s.length + 1 := by
  rw [pieces, length_packed (List.splitOn_ne_nil SPACE s), List.intercalate_splitOn]

/-! ### The calls for a line -/

theorem mem_ends_bounds {off x : ℕ} (h : x ∈ ends off l) : off ≤ x ∧ x < off + l.length := by
  induction l generalizing off with
  | nil => cases h
  | cons c l ih =>
    have hrest : x ∈ ends (off + 1) l → off ≤ x ∧ x < off + (c :: l).length := by
      intro hx
      have := ih hx
      rw [List.length_cons]
      omega
    rw [ends] at h
    split_ifs at h
    · obtain rfl | h := List.mem_cons.1 h
      · rw [List.length_cons]
        omega
      · exact hrest h
    · exact hrest h

theorem lineOf_append (hpre : ∀ m ∈ lines, NL ∉ m) (hs : NL ∉ s) :
    lineOf (ofLines lines ++ (s ++ t)) (ofLines lines ++ s).length = lines.length := by
  rw [lineOf, ← List.append_assoc, List.take_left, List.count_append, count_ofLines hpre,
    List.count_eq_zero.2 hs]
  rfl

/-- A line without `\r` has one line end. -/
theorem off_eq_of_lineOf (hpre : ∀ m ∈ lines, NL ∉ m) (hl : ∀ c ∈ l, isEnd c = false) {x : ℕ}
    (hx : x ∈ ends 0 (ofLines lines ++ (l ++ NL :: t)))
    (hline : lineOf (ofLines lines ++ (l ++ NL :: t)) x = lines.length) :
    x = (ofLines lines ++ l).length := by
  have hcount := count_ofLines hpre
  rw [lineOf] at hline
  rw [ends_append, ends_append, List.mem_append, List.mem_append, Nat.zero_add] at hx
  obtain hx | hx | hx := hx
  · have hlt := (mem_ends_bounds hx).2
    rw [Nat.zero_add] at hlt
    rw [List.take_append_of_le_length hlt.le] at hline
    obtain ⟨lines, m, rfl⟩ | rfl := (List.eq_nil_or_concat lines).symm
    · rw [List.concat_eq_append, ofLines_append, ofLines_cons] at hlt hline
      rw [← List.append_assoc] at hline
      rw [← List.append_assoc, List.length_append] at hlt
      rw [List.concat_eq_append] at hpre
      have hle : x ≤ (ofLines lines ++ m).length := by
        have : (NL :: ofLines []).length = 1 := rfl
        omega
      rw [List.take_append_of_le_length hle] at hline
      have := (List.take_prefix x (ofLines lines ++ m)).sublist.count_le NL
      rw [List.count_append, count_ofLines fun m hm => hpre m (List.mem_append_left _ hm),
        List.count_eq_zero.2 (hpre m (by simp)), hline] at this
      simp at this
    · cases hlt
  · have hnil : ends (ofLines lines).length l = [] := List.length_eq_zero_iff.1 (by
      rw [length_ends, List.countP_eq_zero]
      exact fun c hc => by rw [hl c hc]; exact Bool.false_ne_true)
    rw [hnil] at hx
    cases hx
  · rw [ends, if_pos (by decide)] at hx
    rw [List.length_append]
    obtain hx | hx := List.mem_cons.1 hx
    · exact hx
    · have hlt := (mem_ends_bounds hx).1
      have hpre' : ofLines lines ++ (l ++ [NL]) <+: (ofLines lines ++ (l ++ NL :: t)).take x := by
        rw [List.prefix_take_iff]
        refine ⟨⟨t, by simp⟩, ?_⟩
        simp only [List.length_append, List.length_singleton]
        omega
      have := hpre'.sublist.count_le NL
      rw [List.count_append, List.count_append, hcount, List.count_singleton_self, hline] at this
      omega

end

section
variable {args : List (List UInt8)} {stack : ℕ → Ptr} {buf : ℕ → UInt8} {other : ℕ → List UInt8}
  {forks ok : ℕ → Bool} {chunks pre post : List (List UInt8)} {l : List UInt8} {log : List Attempt}

/-- The variables in a call of `exec` at the end of the segment `s` of a line. -/
theorem Calls.ended {input s t : List UInt8} {c : UInt8} (hf : ∀ i, forks i = true)
    (hd : Delivers input chunks) (hpre : ∀ m ∈ pre, NL ∉ m)
    (hc : Calls args.length forks ok chunks (start args.length stack buf) log)
    (hs : ∀ d ∈ s, isEnd d = false) (hinput : input = ofLines pre ++ (s ++ c :: t)) :
    ∃ v₀, Fresh args.length stack (pre.flatMap (·.splitOn CR)) v₀ ∧
      ∀ a ∈ log, a.off = (ofLines pre ++ s).length →
        Ended v₀ args.length (pieces s) a.vars := by
  have hfresh : Fresh args.length stack (pre.flatMap (·.splitOn CR)) _ :=
    fresh_after stack buf hpre
  refine ⟨_, hfresh, fun a ha hoff => ?_⟩
  obtain ⟨w, hran, rfl⟩ := hc.ran hf hd
  have hvars := (hran.vars (along_start hd) (by simp) a ha).2
  rw [hoff, hinput, ← List.append_assoc, List.take_left, after_append] at hvars
  rw [hvars]
  exact ended_segment hs hfresh.mid

/-- Within the limits, and when no `fork` fails, `exec` is called for the line after `pre`, and
the arguments are the initial ones and the words of the line exactly if the line has no `\r`, if
there are single spaces between its words, which are C strings, if the entry of `cmdArgv` after
them was null at first, and if no line before, cut at each `\r`, had more words. -/
theorem execArgs_iff (hf : ∀ i, forks i = true) (hl : ∀ m ∈ pre ++ l :: post, NL ∉ m)
    (hfits : ∀ m ∈ pre ++ l :: post, Fits args.length m)
    (hd : Delivers (ofLines (pre ++ l :: post)) chunks) :
    (∃ log, Calls args.length forks ok chunks (start args.length stack buf) log) ∧
    ∀ log, Calls args.length forks ok chunks (start args.length stack buf) log →
      (∃ a ∈ log, lineOf (ofLines (pre ++ l :: post)) a.off = pre.length) ∧
      ((∀ a ∈ log, lineOf (ofLines (pre ++ l :: post)) a.off = pre.length →
          a.vars.execArgs args other = some (args ++ words l)) ↔
        CR ∉ l ∧ (∀ w ∈ pieces l, w ≠ [] ∧ 0 ∉ w) ∧
          stack (args.length + (pieces l).length) = .null ∧
          ∀ m ∈ pre, ∀ s ∈ m.splitOn CR, (pieces s).length ≤ (pieces l).length) := by
  refine ⟨calls_exists hf (safe_of_fits stack buf hfits) hd, fun log hc => ?_⟩
  have hpre : ∀ m ∈ pre, NL ∉ m := fun m hm => hl m (List.mem_append_left _ hm)
  have hnl : NL ∉ l := hl l (by simp)
  obtain ⟨hlen, hmax⟩ := hfits l (by simp)
  have hinput : ofLines (pre ++ l :: post) = ofLines pre ++ (l ++ NL :: ofLines post) := by
    rw [ofLines_append, ofLines_cons]
  have hcover := hc.covers hf hd
  rw [hinput] at hd hcover ⊢
  have hcall : ∀ {s : List UInt8} {c : UInt8} {t : List UInt8}, isEnd c = true →
      l ++ NL :: ofLines post = s ++ c :: t →
      ∃ a ∈ log, a.off = (ofLines pre ++ s).length := by
    intro s c t hc heq
    have hmem := mem_ends_append (ofLines pre ++ s) t hc
    rw [List.append_assoc, ← heq] at hmem
    exact List.mem_map.1 (hcover _ hmem)
  constructor
  · obtain ⟨a, ha, hoff⟩ := hcall (by decide) rfl
    exact ⟨a, ha, by rw [hoff, lineOf_append hpre hnl]⟩
  by_cases hcr : CR ∈ l
  · refine iff_of_false (fun hall => ?_) fun h => h.1 hcr
    obtain ⟨s, t, rfl, hs⟩ := List.eq_append_cons_of_mem hcr
    have hnls : NL ∉ s := fun h => hnl (List.mem_append_left _ h)
    have heq : s ++ CR :: t ++ NL :: ofLines post = s ++ CR :: (t ++ NL :: ofLines post) := by
      rw [List.append_assoc, List.cons_append]
    obtain ⟨a, ha, hoff⟩ := hcall (by decide) heq
    have hargs := hall a ha (by rw [hoff, heq, lineOf_append hpre hnls])
    rw [heq] at hd
    obtain ⟨v₀, hfresh, hended⟩ := hc.ended hf hd hpre (not_isEnd hnls hs) rfl
    have hpieces : (pieces s).length ≤ (pieces (s ++ CR :: t)).length := by
      rw [length_pieces, length_pieces, List.count_append]
      omega
    rw [List.length_append] at hlen
    have hpre' := ((hended a ha hoff).prefix_execArgs hfresh.args
      (by rw [length_packed_pieces]; omega) (by omega) hargs).1
    exact not_prefix_of_cr s t ((List.prefix_append_right_inj _).1 hpre')
  · have hend := not_isEnd hnl hcr
    obtain ⟨v₀, hfresh, hended⟩ := hc.ended hf hd hpre hend rfl
    have hiff : ∀ a ∈ log, a.off = (ofLines pre ++ l).length →
        (a.vars.execArgs args other = some (args ++ words l) ↔
          (∀ w ∈ pieces l, w ≠ [] ∧ 0 ∉ w) ∧ stack (args.length + (pieces l).length) = .null ∧
          ∀ m ∈ pre, ∀ s ∈ m.splitOn CR, (pieces s).length ≤ (pieces l).length) := by
      intro a ha hoff
      rw [(hended a ha hoff).execArgs_eq_iff hfresh.args
        (by rw [length_packed_pieces]; exact hlen) hmax, hfresh.null_iff]
      simp only [List.mem_flatMap, forall_exists_index, and_imp]
      constructor
      · exact fun h => ⟨h.1, h.2.1, fun m hm s hs => h.2.2 s m hm hs⟩
      · exact fun h => ⟨h.1, h.2.1, fun s m hm hs => h.2.2 m hm s hs⟩
    rw [and_iff_right hcr]
    constructor
    · intro hall
      obtain ⟨a, ha, hoff⟩ := hcall (by decide) rfl
      exact (hiff a ha hoff).1 (hall a ha (by rw [hoff, lineOf_append hpre hnl]))
    · intro h a ha hline
      obtain ⟨w, hran, rfl⟩ := hc.ran hf hd
      have hmem := (hran.vars (along_start hd) (by simp) a ha).1
      exact (hiff a ha (off_eq_of_lineOf hpre hend hmem hline)).2 h

end

/-! ### Fixed lines -/

/-- Behind the line `a b`, the line `c` still has the pointer to `b`. The command is `echo`. -/
theorem second_line_keeps_word : ∃ log,
    Calls 1 (fun _ => true) (fun _ => true) [ofLines [[97, SPACE, 98], [99]]]
      (start 1 (fun _ => .null) fun _ => 0) log ∧
    log.map (fun a => a.vars.execArgs [[101, 99, 104, 111]] fun _ => []) =
      [some [[101, 99, 104, 111], [97], [98]], some [[101, 99, 104, 111], [99], [98]]] := by
  have hrun : (run 1 (fun _ => true) (fun _ => true) 20
      ⟨start 1 (fun _ => .null) fun _ => 0, [], 0⟩
      ⟨[ofLines [[97, SPACE, 98], [99]]], 0, 0, []⟩).toOption.map
        (fun w => w.log.map (fun a => a.vars.execArgs [[101, 99, 104, 111]] fun _ => [])) =
      some [some [[101, 99, 104, 111], [97], [98]], some [[101, 99, 104, 111], [99], [98]]] := by
    decide +kernel
  obtain ⟨w, hw, hlog⟩ := exists_of_toOption hrun
  exact ⟨w.log, ⟨20, w, hw, rfl⟩, hlog⟩

/-- With the lines the other way round all is well. -/
theorem execArgs_longer : ∃ log,
    Calls 1 (fun _ => true) (fun _ => true) [ofLines [[99], [97, SPACE, 98]]]
      (start 1 (fun _ => .null) fun _ => 0) log ∧
    ∀ a ∈ log, lineOf (ofLines [[99], [97, SPACE, 98]]) a.off = 1 →
      a.vars.execArgs [[101, 99, 104, 111]] (fun _ => []) =
        some [[101, 99, 104, 111], [97], [98]] := by
  obtain ⟨⟨log, hlog⟩, hiff⟩ := @execArgs_iff [[101, 99, 104, 111]] (fun _ => .null) (fun _ => 0)
    (fun _ => []) (fun _ => true) (fun _ => true) [ofLines [[99], [97, SPACE, 98]]] [[99]] []
    [97, SPACE, 98] (fun _ => rfl) (by decide) (by unfold Fits; decide) ⟨rfl, by decide⟩
  exact ⟨log, hlog, (hiff log hlog).2.2 ⟨by decide, by decide, rfl, by decide⟩⟩

end Xargs
end Xv6
