import Xv6.User.Find

/-!
What `find` prints. It goes through the tree in order, but it does not go into a directory that
has the name itself: what is below such a directory is not found.
-/

namespace Xv6
namespace Find

variable {fds acts : ℕ} {path filename name : List UInt8} {l : List UInt8}

/-! ### Strings -/

theorem cstring_pad (h : ∀ c ∈ name, c ≠ 0) : cstring (pad name) = name := by
  rw [cstring, pad, List.takeWhile_append_of_pos fun c hc => decide_eq_true (h c hc)]
  have hzero : (List.replicate (DIRSIZ - name.length) (0 : UInt8)).takeWhile (· ≠ 0) = [] := by
    cases DIRSIZ - name.length with
    | zero => rfl
    | succ n => rfl
  rw [hzero, List.append_nil]

theorem fmtname_join (path : List UInt8) (h : ∀ c ∈ name, c ≠ SLASH) :
    fmtname (join path name) = name := by
  rw [fmtname, join, List.reverse_append, List.reverse_cons, List.append_assoc,
    List.takeWhile_append_of_pos fun c hc => decide_eq_true (h c (List.mem_reverse.1 hc))]
  rw [List.singleton_append, List.takeWhile_cons, if_neg (by simp), List.append_nil,
    List.reverse_reverse]

theorem strcmp_eq_zero {a b : List UInt8} (ha : ∀ c ∈ a, c ≠ 0) (hb : ∀ c ∈ b, c ≠ 0) :
    strcmp a b = 0 ↔ a = b := by
  have hpos : ∀ {c : UInt8}, c ≠ 0 → (c.toNat : ℤ) ≠ 0 := by
    intro c hc h0
    exact hc (UInt8.toNat_inj.1 (Int.natCast_eq_zero.1 h0))
  induction a generalizing b with
  | nil =>
    cases b with
    | nil => exact iff_of_true rfl rfl
    | cons q qs =>
      refine iff_of_false ?_ nofun
      rw [strcmp, neg_eq_zero]
      exact hpos (hb q List.mem_cons_self)
  | cons p ps ih =>
    cases b with
    | nil => exact iff_of_false (hpos (ha p List.mem_cons_self)) nofun
    | cons q qs =>
      rw [strcmp, List.cons.injEq]
      by_cases hpq : p = q
      · rw [if_pos hpq, and_iff_right hpq]
        exact ih (fun c hc => ha c (List.mem_cons_of_mem _ hc))
          fun c hc => hb c (List.mem_cons_of_mem _ hc)
      · rw [if_neg hpq]
        refine iff_of_false (fun h => hpq ?_) fun h => hpq h.1
        exact UInt8.toNat_inj.1 (by omega)

theorem slash_notMem_decimal (n : ℤ) : SLASH ∉ decimal n := by
  have hdigit : ∀ d < 10, UInt8.ofNat (48 + d) ≠ SLASH := by decide
  unfold decimal
  rw [List.mem_append, not_or]
  constructor
  · split_ifs <;> decide
  · intro hmem
    obtain ⟨d, hd, heq⟩ := List.mem_map.1 hmem
    refine hdigit d ?_ heq
    split_ifs at hd
    · rw [List.mem_singleton.1 hd]
      decide
    · exact Nat.digits_lt_base (by decide) (List.mem_reverse.1 hd)

/-! ### The lines with a path -/

def slashes (out : List (List UInt8)) : List (List UInt8) := out.filter (SLASH ∈ ·)

theorem slashes_append (a b : List (List UInt8)) : slashes (a ++ b) = slashes a ++ slashes b :=
  List.filter_append ..

theorem dot_ok : ∀ c ∈ DOT, c ≠ SLASH ∧ c ≠ 0 := by
  simp [DOT, SLASH]

theorem dotdot_ok : ∀ c ∈ DOTDOT, c ≠ SLASH ∧ c ≠ 0 := by
  simp [DOTDOT, SLASH]

theorem Out.seq_of_alive {a : Out} (h : a.alive = true) (b : Out) :
    a.seq b = ⟨a.lines ++ b.lines, b.alive⟩ := if_pos h

/-- A round of the loop within the limits prints the path of the entry, or what is below. -/
theorem visit_spec {below : Out} (hopen : canOpen fds (join path name) = true)
    (hname : ∀ c ∈ name, c ≠ SLASH ∧ c ≠ 0) (hf : ∀ c ∈ filename, c ≠ 0)
    (hbelow : ¬(name = DOT ∨ name = DOTDOT) → name ≠ filename → below.alive = true) :
    (visit fds path filename name below).alive = true ∧
    slashes (visit fds path filename name below).lines =
      if name = DOT ∨ name = DOTDOT then []
      else if name = filename then [join path filename] else slashes below.lines := by
  have hzero : ∀ c ∈ name, c ≠ 0 := fun c hc => (hname c hc).2
  have hslash : SLASH ∉ name := fun h => (hname _ h).1 rfl
  have hdebug : slashes [bytes "the file in dir " ++ name,
      bytes "bufname cmp: " ++ decimal (strcmp name DOT)] = [] := by
    have h₁ : SLASH ∉ bytes "the file in dir " := by decide +kernel
    have h₂ : SLASH ∉ bytes "bufname cmp: " := by decide +kernel
    simp [slashes, h₁, h₂, hslash, slash_notMem_decimal]
  rw [visit, cstring_pad hzero, hopen]
  simp only [Bool.not_true, Bool.false_eq_true, if_false, Out.seq_of_alive, say, slashes_append,
    fmtname_join path fun c hc => (hname c hc).1, hdebug, List.nil_append,
    strcmp_eq_zero hzero fun c hc => (dot_ok c hc).2,
    strcmp_eq_zero hzero fun c hc => (dotdot_ok c hc).2, strcmp_eq_zero hzero hf]
  split_ifs with hdot hmatch
  · exact ⟨rfl, rfl⟩
  · exact ⟨rfl, by simp [slashes, join]⟩
  · exact ⟨hbelow hdot hmatch, rfl⟩

mutual

/-- The paths that are printed: those of entries with the name, as far as the search goes. -/
def Tree.printed (path filename : List UInt8) : Tree → List (List UInt8)
  | .file => []
  | .dir entries => entries.printed path filename

def Entries.printed (path filename : List UInt8) : Entries → List (List UInt8)
  | .nil => []
  | .free rest => rest.printed path filename
  | .self rest => rest.printed path filename
  | .parent rest => rest.printed path filename
  | .named name t rest =>
      (if name.text = filename then [join path filename]
        else t.printed (join path name.text) filename) ++ rest.printed path filename

end

theorem Out.seq_spec {a b : Out} {x y : List (List UInt8)}
    (ha : a.alive = true ∧ slashes a.lines = x) (hb : b.alive = true ∧ slashes b.lines = y) :
    (a.seq b).alive = true ∧ slashes (a.seq b).lines = x ++ y := by
  rw [Out.seq_of_alive ha.1, slashes_append, ha.2, hb.2]
  exact ⟨hb.1, rfl⟩

mutual

theorem find_spec (hf : ∀ c ∈ filename, c ≠ 0) : ∀ (fds acts : ℕ) (path : List UInt8) (t : Tree),
    t.Within fds acts path filename → (find fds acts path filename t).alive = true ∧
      slashes (find fds acts path filename t).lines = t.printed path filename
  | fds, acts, path, .file, h => by
    obtain ⟨hacts, hopen⟩ := h
    rw [find, if_neg hacts.ne', hopen]
    exact ⟨rfl, rfl⟩
  | fds, acts, path, .dir entries, h => by
    obtain ⟨hacts, hopen, hentries⟩ := h
    have hlen : path.length < MAXPATH := (of_decide_eq_true hopen).1
    rw [find, if_neg hacts.ne', hopen, Tree.printed]
    rw [if_neg (by simp), if_neg (by unfold MAXPATH at hlen; unfold DIRSIZ BUFSIZE; omega)]
    exact findEntries_spec hf (fds - 1) (acts - 1) path entries hentries

theorem findEntries_spec (hf : ∀ c ∈ filename, c ≠ 0) :
    ∀ (fds acts : ℕ) (path : List UInt8) (e : Entries), e.Within fds acts path filename →
      (findEntries fds acts path filename e).alive = true ∧
      slashes (findEntries fds acts path filename e).lines = e.printed path filename
  | fds, acts, path, .nil, _ => ⟨rfl, rfl⟩
  | fds, acts, path, .free rest, h => findEntries_spec hf fds acts path rest h
  | fds, acts, path, .self rest, h => by
    have hvisit := @visit_spec fds path filename DOT (say []) h.1 dot_ok hf fun _ _ => rfl
    rw [if_pos (.inl rfl)] at hvisit
    rw [findEntries, Entries.printed]
    exact Out.seq_spec hvisit (findEntries_spec hf fds acts path rest h.2)
  | fds, acts, path, .parent rest, h => by
    have hvisit := @visit_spec fds path filename DOTDOT (say []) h.1 dotdot_ok hf fun _ _ => rfl
    rw [if_pos (.inr rfl)] at hvisit
    rw [findEntries, Entries.printed]
    exact Out.seq_spec hvisit (findEntries_spec hf fds acts path rest h.2)
  | fds, acts, path, .named name t rest, h => by
    have hzero : ∀ c ∈ name.text, c ≠ 0 := fun c hc => (name.ok c hc).2
    have hbelow := fun hne => find_spec hf fds acts (join path name.text) t (h.2.1 hne)
    have hvisit := visit_spec h.1 name.ok hf fun _ hne => (hbelow hne).1
    rw [if_neg (not_or.2 name.not_dot)] at hvisit
    rw [findEntries, Entries.printed, cstring_pad hzero]
    refine Out.seq_spec ⟨hvisit.1, hvisit.2.trans ?_⟩ (findEntries_spec hf fds acts path rest h.2.2)
    by_cases hne : name.text = filename
    · rw [if_pos hne, if_pos hne]
    · rw [if_neg hne, if_neg hne, (hbelow hne).2]

end

/-! ### Printed lines and entries -/

mutual

theorem Tree.printed_sublist (filename : List UInt8) : ∀ (path : List UInt8) (t : Tree),
    (t.printed path filename).Sublist (t.entries path filename)
  | _, .file => .refl _
  | path, .dir entries => Entries.printed_sublist filename path entries

theorem Entries.printed_sublist (filename : List UInt8) : ∀ (path : List UInt8) (e : Entries),
    (e.printed path filename).Sublist (e.lines path filename)
  | _, .nil => .refl _
  | path, .free rest => Entries.printed_sublist filename path rest
  | path, .self rest => Entries.printed_sublist filename path rest
  | path, .parent rest => Entries.printed_sublist filename path rest
  | path, .named name t rest => by
    rw [Entries.printed, Entries.lines]
    refine .append ?_ (Entries.printed_sublist filename path rest)
    by_cases hname : name.text = filename
    · rw [if_pos hname, if_pos hname]
      exact List.sublist_append_left _ _
    · rw [if_neg hname, if_neg hname]
      exact Tree.printed_sublist filename (join path name.text) t

end

mutual

theorem Tree.entries_eq_nil (filename : List UInt8) : ∀ (path : List UInt8) (t : Tree),
    t.entries path filename = [] ↔ t.has filename = false
  | _, .file => iff_of_true rfl rfl
  | path, .dir entries => Entries.lines_eq_nil filename path entries

theorem Entries.lines_eq_nil (filename : List UInt8) : ∀ (path : List UInt8) (e : Entries),
    e.lines path filename = [] ↔ e.has filename = false
  | _, .nil => iff_of_true rfl rfl
  | path, .free rest => Entries.lines_eq_nil filename path rest
  | path, .self rest => Entries.lines_eq_nil filename path rest
  | path, .parent rest => Entries.lines_eq_nil filename path rest
  | path, .named name t rest => by
    rw [Entries.lines, Entries.has, List.append_eq_nil_iff, List.append_eq_nil_iff,
      Tree.entries_eq_nil filename (join path name.text) t,
      Entries.lines_eq_nil filename path rest, Bool.or_eq_false_iff, Bool.or_eq_false_iff]
    by_cases hname : name.text = filename <;> simp [hname]

end

theorem append_eq_append_iff_of_sublist {α : Type} {a a' b b' : List α} (ha : a.Sublist a')
    (hb : b.Sublist b') : a ++ b = a' ++ b' ↔ a = a' ∧ b = b' := by
  refine ⟨fun h => ?_, fun h => by rw [h.1, h.2]⟩
  have hlen := congrArg List.length h
  have h₁ := ha.length_le
  have h₂ := hb.length_le
  rw [List.length_append, List.length_append] at hlen
  exact ⟨ha.eq_of_length (by omega), hb.eq_of_length (by omega)⟩

mutual

/-- All entries with the name are printed exactly if none is below another. -/
theorem Tree.printed_eq_iff (filename : List UInt8) : ∀ (path : List UInt8) (t : Tree),
    t.printed path filename = t.entries path filename ↔ t.Flat filename
  | _, .file => iff_of_true rfl trivial
  | path, .dir entries => Entries.printed_eq_iff filename path entries

theorem Entries.printed_eq_iff (filename : List UInt8) : ∀ (path : List UInt8) (e : Entries),
    e.printed path filename = e.lines path filename ↔ e.Flat filename
  | _, .nil => iff_of_true rfl trivial
  | path, .free rest => Entries.printed_eq_iff filename path rest
  | path, .self rest => Entries.printed_eq_iff filename path rest
  | path, .parent rest => Entries.printed_eq_iff filename path rest
  | path, .named name t rest => by
    have hrest := rest.printed_sublist filename path
    rw [Entries.printed, Entries.lines, Entries.Flat,
      ← Entries.printed_eq_iff filename path rest]
    by_cases hname : name.text = filename
    · rw [if_pos hname, if_pos hname, if_pos hname, ← t.entries_eq_nil filename (join path name.text),
        append_eq_append_iff_of_sublist (List.sublist_append_left _ _) hrest, List.self_eq_append_right]
    · rw [if_neg hname, if_neg hname, if_neg hname, List.nil_append,
        append_eq_append_iff_of_sublist (t.printed_sublist filename _) hrest,
        Tree.printed_eq_iff filename (join path name.text) t]

end

/-! ### Different entries have different paths -/

mutual

theorem Tree.exists_of_mem_entries (filename : List UInt8) : ∀ (path : List UInt8) (t : Tree)
    (l : List UInt8), l ∈ t.entries path filename → ∃ s, l = join path s
  | _, .file, _, h => nomatch h
  | path, .dir entries, l, h => by
    obtain ⟨n, -, s, hl, -⟩ := Entries.exists_of_mem_lines filename path entries l h
    exact ⟨n.text ++ s, hl⟩

theorem Entries.exists_of_mem_lines (filename : List UInt8) : ∀ (path : List UInt8) (e : Entries)
    (l : List UInt8), l ∈ e.lines path filename → ∃ n : Name, n.text ∈ e.names ∧
      ∃ s, l = join path (n.text ++ s) ∧ (s = [] ∨ ∃ r, s = SLASH :: r)
  | _, .nil, _, h => nomatch h
  | path, .free rest, l, h => Entries.exists_of_mem_lines filename path rest l h
  | path, .self rest, l, h => Entries.exists_of_mem_lines filename path rest l h
  | path, .parent rest, l, h => Entries.exists_of_mem_lines filename path rest l h
  | path, .named name t rest, l, h => by
    rw [Entries.lines, List.mem_append, List.mem_append] at h
    obtain (h | h) | h := h
    · split_ifs at h with hname
      · refine ⟨name, List.mem_cons_self, [], ?_, .inl rfl⟩
        rw [List.append_nil, List.mem_singleton.1 h, hname]
      · exact nomatch h
    · obtain ⟨s, rfl⟩ := Tree.exists_of_mem_entries filename _ t l h
      refine ⟨name, List.mem_cons_self, SLASH :: s, ?_, .inr ⟨s, rfl⟩⟩
      simp [join]
    · obtain ⟨n, hn, hs⟩ := Entries.exists_of_mem_lines filename path rest l h
      exact ⟨n, List.mem_cons_of_mem _ hn, hs⟩

end

theorem join_inj {a b : List UInt8} : join path a = join path b ↔ a = b := by
  simp [join]

theorem Name.eq_of_append {m n : Name} {a b : List UInt8} (ha : a = [] ∨ ∃ r, a = SLASH :: r)
    (hb : b = [] ∨ ∃ r, b = SLASH :: r) (h : m.text ++ a = n.text ++ b) : m.text = n.text := by
  have hfirst : ∀ (n : Name) (b : List UInt8), (b = [] ∨ ∃ r, b = SLASH :: r) →
      (n.text ++ b).takeWhile (· ≠ SLASH) = n.text := by
    intro n b hb
    rw [List.takeWhile_append_of_pos fun c hc => decide_eq_true (n.ok c hc).1]
    obtain rfl | ⟨r, rfl⟩ := hb
    · exact List.append_nil _
    · rw [List.takeWhile_cons, if_neg (by simp), List.append_nil]
  rw [← hfirst m a ha, h, hfirst n b hb]

mutual

theorem Tree.nodup_entries (filename : List UInt8) : ∀ (path : List UInt8) (t : Tree),
    t.Distinct → (t.entries path filename).Nodup
  | _, .file, _ => List.nodup_nil
  | path, .dir entries, h => Entries.nodup_lines filename path entries h.1 h.2

theorem Entries.nodup_lines (filename : List UInt8) : ∀ (path : List UInt8) (e : Entries),
    e.names.Nodup → e.Distinct → (e.lines path filename).Nodup
  | _, .nil, _, _ => List.nodup_nil
  | path, .free rest, hn, h => Entries.nodup_lines filename path rest hn h
  | path, .self rest, hn, h => Entries.nodup_lines filename path rest hn h
  | path, .parent rest, hn, h => Entries.nodup_lines filename path rest hn h
  | path, .named name t rest, hn, h => by
    obtain ⟨hname, hn⟩ := List.nodup_cons.1 hn
    have hbelow : ∀ l ∈ t.entries (join path name.text) filename,
        ∃ s, l = join path (name.text ++ SLASH :: s) := by
      intro l hl
      obtain ⟨s, rfl⟩ := Tree.exists_of_mem_entries filename _ t l hl
      exact ⟨s, by simp [join]⟩
    rw [Entries.lines]
    refine List.Nodup.append (List.Nodup.append ?_ (Tree.nodup_entries filename _ t h.1) ?_)
      (Entries.nodup_lines filename path rest hn h.2) ?_
    · split_ifs
      · exact List.nodup_singleton _
      · exact List.nodup_nil
    · intro l hl hl'
      obtain ⟨s, rfl⟩ := hbelow l hl'
      split_ifs at hl with hfile
      · have := join_inj.1 (List.mem_singleton.1 hl)
        simp [← hfile] at this
      · cases hl
    · intro l hl hl'
      obtain ⟨n, hmem, s, rfl, hs⟩ := Entries.exists_of_mem_lines filename path rest l hl'
      suffices ∃ a, (a = [] ∨ ∃ r, a = SLASH :: r) ∧ name.text ++ a = n.text ++ s by
        obtain ⟨a, ha, heq⟩ := this
        exact hname (Name.eq_of_append ha hs heq ▸ hmem)
      obtain hl | hl := List.mem_append.1 hl
      · split_ifs at hl with hfile
        · refine ⟨[], .inl rfl, ?_⟩
          rw [List.append_nil, hfile, ← join_inj, ← List.mem_singleton.1 hl]
        · cases hl
      · obtain ⟨r, hr⟩ := hbelow _ hl
        exact ⟨SLASH :: r, .inr ⟨r, rfl⟩, (join_inj.1 hr).symm⟩

end

/-- Within the limits `find` returns, and it reports every entry with the name once and nothing
else exactly if no directory with the name has an entry with the name below it. -/
theorem reports_iff {t : Tree} (hf : ∀ c ∈ filename, c ≠ 0) (hd : t.Distinct)
    (hw : t.Within fds acts path filename) :
    (find fds acts path filename t).alive = true ∧
    (Reports path filename t (find fds acts path filename t).lines ↔ t.Flat filename) := by
  obtain ⟨halive, hprinted⟩ := find_spec hf fds acts path t hw
  refine ⟨halive, ?_⟩
  have hslash : ∀ l ∈ t.entries path filename, SLASH ∈ l := by
    intro l hl
    obtain ⟨s, rfl⟩ := Tree.exists_of_mem_entries filename path t l hl
    simp [join]
  have hcount : ∀ l, SLASH ∈ l →
      (find fds acts path filename t).lines.count l = (t.printed path filename).count l := by
    intro l hl
    rw [← hprinted]
    exact (List.count_filter (p := fun l => decide (SLASH ∈ l)) (decide_eq_true hl)).symm
  have hsub := t.printed_sublist filename path
  have hnodup := Tree.nodup_entries filename path t hd
  rw [← Tree.printed_eq_iff filename path t]
  constructor
  · rintro ⟨hone, -⟩
    refine hsub.eq_of_length (le_antisymm hsub.length_le ?_)
    refine (hnodup.subperm fun l hl => ?_).length_le
    refine List.count_pos_iff.1 ?_
    rw [← hcount l (hslash l hl), hone l hl]
    exact Nat.one_pos
  · intro heq
    constructor
    · intro l hl
      rw [hcount l (hslash l hl), heq]
      exact List.count_eq_one_of_mem hnodup hl
    · intro l hl hls
      rw [← List.count_pos_iff, hcount l hls] at hl
      exact hsub.subset (List.count_pos_iff.1 hl)

/-! ### Fixed trees -/

def nameA : Name := ⟨[97], by decide, by decide, by simp [SLASH], by decide⟩
def nameB : Name := ⟨[98], by decide, by decide, by simp [SLASH], by decide⟩

def only (name : Name) (t : Tree) : Tree := .dir (.self (.parent (.named name t .nil)))

/-- The file `./a/a` is not found, since `./a` is a match. -/
theorem find_misses_nested :
    ¬Reports DOT nameA.text (only nameA (only nameA .file))
      (find 13 3 DOT nameA.text (only nameA (only nameA .file))).lines ∧
    slashes (find 13 3 DOT nameA.text (only nameA (only nameA .file))).lines =
      [join DOT nameA.text] ∧
    (only nameA (only nameA .file)).entries DOT nameA.text =
      [join DOT nameA.text, join (join DOT nameA.text) nameA.text] := by
  obtain ⟨-, hprinted⟩ := find_spec (fun c hc => (nameA.ok c hc).2) 13 3 DOT
    (only nameA (only nameA .file))
    ⟨by decide, rfl, rfl, rfl, rfl, fun h => absurd rfl h, trivial⟩
  refine ⟨fun h => ?_, hprinted, rfl⟩
  have hone := h.1 (join (join DOT nameA.text) nameA.text) (by decide)
  have hmem := List.count_pos_iff.1 (hone ▸ Nat.one_pos)
  have : join (join DOT nameA.text) nameA.text ∈
      slashes (find 13 3 DOT nameA.text (only nameA (only nameA .file))).lines :=
    List.mem_filter.2 ⟨hmem, by decide⟩
  rw [hprinted] at this
  exact absurd this (by decide)

/-- The file `./a/a/b` is found. -/
theorem reports_b : (find 13 3 DOT nameB.text (only nameA (only nameA (only nameB .file)))).alive ∧
    Reports DOT nameB.text (only nameA (only nameA (only nameB .file)))
      (find 13 3 DOT nameB.text (only nameA (only nameA (only nameB .file)))).lines := by
  have hd : (only nameA (only nameA (only nameB .file))).Distinct :=
    ⟨List.nodup_singleton _, ⟨List.nodup_singleton _, ⟨List.nodup_singleton _, trivial, trivial⟩,
      trivial⟩, trivial⟩
  have hw : (only nameA (only nameA (only nameB .file))).Within 13 3 DOT nameB.text :=
    ⟨by decide, rfl, rfl, rfl, rfl, fun _ => ⟨by decide, rfl, rfl, rfl, rfl, fun _ =>
      ⟨by decide, rfl, rfl, rfl, rfl, fun h => absurd rfl h, trivial⟩, trivial⟩, trivial⟩
  obtain ⟨halive, hiff⟩ := reports_iff (fun c hc => (nameB.ok c hc).2) hd hw
  exact ⟨halive, hiff.2 ⟨⟨⟨rfl, trivial⟩, trivial⟩, trivial⟩⟩

/-- With a file `./a/a/a` that is not looked for, the fourth activation finds no room on the
stack. -/
example : (find 13 3 DOT nameB.text (only nameA (only nameA (only nameA .file)))).alive = false := by
  decide +kernel

end Find
end Xv6
