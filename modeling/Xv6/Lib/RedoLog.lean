import Mathlib.Tactic

/-!
Redo logging over single-block writes. A log region starts with a header block that
lists home blocks; the following blocks hold their new contents. A commit copies the
contents into the log, writes the header, installs the copies and clears the header.
Recovery installs what the header lists and clears it. The results say what is on the
disk when any of these is cut off after any number of writes.
-/

namespace RedoLog
variable {α : Type}

/-- The disk after a list of writes, first write first. -/
def wr (d : ℕ → α) : List (ℕ × α) → ℕ → α
  | [] => d
  | w :: ws => wr (Function.update d w.1 w.2) ws

theorem wr_append (d : ℕ → α) (ws vs : List (ℕ × α)) : wr d (ws ++ vs) = wr (wr d ws) vs := by
  induction ws generalizing d with
  | nil => rfl
  | cons w ws ih => exact ih _

theorem wr_untouched {d : ℕ → α} {ws : List (ℕ × α)} {b : ℕ} (h : ∀ w ∈ ws, w.1 ≠ b) :
    wr d ws b = d b := by
  induction ws generalizing d with
  | nil => rfl
  | cons w ws ih =>
    rw [wr, ih fun v hv => h v (List.mem_cons_of_mem w hv)]
    exact Function.update_of_ne (h w List.mem_cons_self).symm _ _

theorem wr_congr {d e : ℕ → α} {ws : List (ℕ × α)} {b : ℕ}
    (h : (∀ w ∈ ws, w.1 ≠ b) → d b = e b) : wr d ws b = wr e ws b := by
  induction ws generalizing d e with
  | nil => exact h (by simp)
  | cons w ws ih =>
    apply ih
    intro hws
    by_cases hw : w.1 = b
    · simp [hw]
    · rw [Function.update_of_ne (Ne.symm hw), Function.update_of_ne (Ne.symm hw)]
      exact h fun v hv => (List.mem_cons.1 hv).elim (fun he => he ▸ hw) (hws v)

/-- Redoing a list of writes some of which were done already. -/
theorem wr_redo (d : ℕ → α) {vs ws : List (ℕ × α)} (h : vs <+: ws) (b : ℕ) :
    wr (wr d vs) ws b = wr d ws b :=
  wr_congr fun hws => wr_untouched fun w hw => hws w (h.subset hw)

theorem wr_map (d f : ℕ → α) (l : List ℕ) (b : ℕ) :
    wr d (l.map fun c => (c, f c)) b = if b ∈ l then f b else d b := by
  induction l generalizing d with
  | nil => rfl
  | cons c l ih =>
    rw [List.map_cons, wr, ih]
    by_cases hc : b = c
    · simp [hc]
    · simp [hc, Function.update_of_ne]

theorem prefix_append_cases {β : Type} {l a b : List β} (h : l <+: a ++ b) :
    l <+: a ∨ ∃ c, l = a ++ c ∧ c <+: b := by
  obtain ⟨r, hr⟩ := h
  rcases List.append_eq_append_iff.1 hr with ⟨c, ha, _⟩ | ⟨c, hl, hb⟩
  · exact .inl ⟨c, ha.symm⟩
  · exact .inr ⟨c, hl, r, hb.symm⟩

/-- How header blocks are read and written. Writing keeps parts of the old block. -/
structure Format (α : Type) where
  entries : α → List ℕ
  record : α → List ℕ → α
  Fits : List ℕ → Prop
  fits_nil : Fits []
  entries_record : ∀ h l, Fits l → entries (record h l) = l

variable (F : Format α) (start size : ℕ)

/-- Blocks outside the log region. -/
def Home (b : ℕ) : Prop := ¬ (start ≤ b ∧ b < start + size)

def copies (V : ℕ → α) : ℕ → List ℕ → List (ℕ × α)
  | _, [] => []
  | k, b :: bs => (start + k + 1, V b) :: copies V (k + 1) bs

def homes (d : ℕ → α) : ℕ → List ℕ → List (ℕ × α)
  | _, [] => []
  | k, b :: bs => (b, d (start + k + 1)) :: homes d (k + 1) bs

/-- The writes of a commit of the blocks `lh` with contents `V`, header `h` on disk. -/
def commitWrites (h : α) (lh : List ℕ) (V : ℕ → α) : List (ℕ × α) :=
  copies start V 0 lh ++ (start, F.record h lh) :: (lh.map fun b => (b, V b)) ++
    [(start, F.record (F.record h lh) [])]

/-- The writes of a recovery from disk `d`. -/
def recoverWrites (d : ℕ → α) : List (ℕ × α) :=
  homes start d 0 (F.entries (d start)) ++ [(start, F.record (d start) [])]

variable {F start size}

theorem mem_copies {V : ℕ → α} {k : ℕ} {lh : List ℕ} {w : ℕ × α} (hw : w ∈ copies start V k lh) :
    start + k < w.1 ∧ w.1 ≤ start + k + lh.length := by
  induction lh generalizing k with
  | nil => simp [copies] at hw
  | cons b bs ih =>
    rw [copies, List.mem_cons] at hw
    rw [List.length_cons]
    rcases hw with rfl | hw
    · constructor <;> simp only <;> omega
    · have := ih hw
      omega

theorem mem_homes {d : ℕ → α} {k : ℕ} {lh : List ℕ} {w : ℕ × α} (hw : w ∈ homes start d k lh) :
    w.1 ∈ lh := by
  induction lh generalizing k with
  | nil => simp [homes] at hw
  | cons b bs ih =>
    rw [homes, List.mem_cons] at hw
    rcases hw with rfl | hw
    · exact List.mem_cons_self
    · exact List.mem_cons_of_mem b (ih hw)

theorem homes_congr {d e : ℕ → α} {k : ℕ} {lh : List ℕ}
    (h : ∀ j, k ≤ j → j < k + lh.length → d (start + j + 1) = e (start + j + 1)) :
    homes start d k lh = homes start e k lh := by
  induction lh generalizing k with
  | nil => rfl
  | cons b bs ih =>
    simp only [List.length_cons] at h
    rw [homes, homes, h k le_rfl (by omega), ih fun j h₁ h₂ => h j (by omega) (by omega)]

theorem homes_of_copies {d V : ℕ → α} {k : ℕ} (lh : List ℕ) :
    homes start (wr d (copies start V k lh)) k lh = lh.map fun b => (b, V b) := by
  induction lh generalizing d k with
  | nil => rfl
  | cons b bs ih =>
    rw [homes, copies, List.map_cons, wr]
    congr 1
    · congr 1
      rw [wr_untouched]
      · simp
      · intro w hw
        have := mem_copies hw
        omega
    · rw [← ih (d := Function.update d (start + k + 1) (V b)) (k := k + 1)]

/-- A commit of contents that are already there changes no home block. -/
theorem wr_commitWrites_home {h : α} {lh : List ℕ} {V : ℕ → α} {b : ℕ} (hroom : lh.length < size)
    (hb : Home start size b) : wr V (commitWrites F start h lh V) b = V b := by
  have hbs : b ≠ start := by
    rintro rfl
    exact hb ⟨le_rfl, by omega⟩
  rw [commitWrites, wr_append, wr_append]
  simp only [wr]
  rw [Function.update_of_ne hbs, wr_map, Function.update_of_ne hbs, wr_untouched, ite_self]
  rintro w hw rfl
  have := mem_copies hw
  exact hb ⟨by omega, by omega⟩

/-- Recovery of `d` gives the home contents `T`, and `d` can be recovered: the header
lists home blocks that fit in the log region. -/
structure Recovers (F : Format α) (start size : ℕ) (d T : ℕ → α) : Prop where
  home : ∀ b ∈ F.entries (d start), Home start size b
  room : (F.entries (d start)).length < size
  result : ∀ b, Home start size b → wr d (recoverWrites F start d) b = T b

/-- A disk whose header is empty recovers to itself. -/
theorem recovers_of_empty {d T : ℕ → α} (hsize : 0 < size) (he : F.entries (d start) = [])
    (hT : ∀ b, Home start size b → d b = T b) : Recovers F start size d T := by
  refine ⟨by simp [he], by simpa [he] using hsize, fun b hb => ?_⟩
  have hbs : b ≠ start := by
    rintro rfl
    exact hb ⟨le_rfl, by omega⟩
  rw [recoverWrites, he, ← hT b hb]
  exact Function.update_of_ne hbs _ _

theorem home_ne_start {b : ℕ} (hsize : 0 < size) (hb : Home start size b) : b ≠ start := by
  rintro rfl
  exact hb ⟨le_rfl, by omega⟩

theorem recover_empty {d : ℕ → α} (F : Format α) :
    F.entries (wr d (recoverWrites F start d) start) = [] := by
  rw [recoverWrites, wr_append]
  simp [wr, F.entries_record _ _ F.fits_nil]

theorem commit_empty {d V : ℕ → α} {h : α} {lh : List ℕ} (F : Format α) :
    F.entries (wr d (commitWrites F start h lh V) start) = [] := by
  rw [commitWrites, wr_append]
  simp [wr, F.entries_record _ _ F.fits_nil]

/-- Recovery can be cut off anywhere and started again. -/
theorem Recovers.interrupted {d T : ℕ → α} {ws : List (ℕ × α)} (hsize : 0 < size)
    (h : Recovers F start size d T) (hws : ws <+: recoverWrites F start d) :
    Recovers F start size (wr d ws) T := by
  rcases List.prefix_concat_iff.1 (hws : ws <+: _ ++ [_]) with rfl | hpre
  · apply recovers_of_empty hsize (recover_empty F)
    exact h.result
  have hlog : ∀ b, ¬ Home start size b → wr d ws b = d b := by
    intro b hb
    apply wr_untouched
    rintro w hw rfl
    exact hb (h.home w.1 (mem_homes (hpre.subset hw)))
  have hstart : wr d ws start = d start :=
    hlog start fun hs => hs ⟨le_rfl, by omega⟩
  have hrec : recoverWrites F start (wr d ws) = recoverWrites F start d := by
    rw [recoverWrites, recoverWrites, hstart]
    congr 1
    apply homes_congr
    intro j _ hj
    apply hlog
    intro hh
    have := h.room
    exact hh ⟨by omega, by omega⟩
  refine ⟨by rw [hstart]; exact h.home, by rw [hstart]; exact h.room, fun b hb => ?_⟩
  rw [hrec, wr_redo d hws]
  exact h.result b hb

/-- A commit can be cut off anywhere: recovery gives the old contents `C`, or those with
all blocks of `lh` new. -/
theorem commit_interrupted {d V C : ℕ → α} {lh : List ℕ} {ws : List (ℕ × α)}
    (hfit : F.Fits lh) (hhome : ∀ b ∈ lh, Home start size b) (hroom : lh.length < size)
    (he : F.entries (d start) = []) (hC : ∀ b, Home start size b → d b = C b)
    (hws : ws <+: commitWrites F start (d start) lh V) :
    Recovers F start size (wr d ws) C ∨
      Recovers F start size (wr d ws) fun b => if b ∈ lh then V b else C b := by
  have hsize : 0 < size := by omega
  have hcopy : ∀ w ∈ copies start V 0 lh, ¬ Home start size w.1 ∧ w.1 ≠ start := by
    intro w hw
    have := mem_copies hw
    exact ⟨fun hh => hh ⟨by omega, by omega⟩, by omega⟩
  -- nothing but the log area was written: the header still reads as empty
  have hold : ∀ {vs : List (ℕ × α)}, vs <+: copies start V 0 lh →
      Recovers F start size (wr d vs) C := by
    intro vs hvs
    apply recovers_of_empty hsize
    · rw [wr_untouched fun w hw => (hcopy w (hvs.subset hw)).2, he]
    · intro b hb
      rw [wr_untouched, hC b hb]
      rintro w hw rfl
      exact (hcopy w (hvs.subset hw)).1 hb
  have hother : ∀ {us : List (ℕ × α)}, us <+: (lh.map fun b => (b, V b)) → ∀ b,
      Home start size b → b ∉ lh →
      wr (Function.update (wr d (copies start V 0 lh)) start (F.record (d start) lh)) us b =
        C b := by
    intro us hus b hb hbl
    rw [wr_untouched, Function.update_of_ne (home_ne_start hsize hb), wr_untouched, hC b hb]
    · rintro w hw rfl
      exact (hcopy w hw).1 hb
    · rintro w hw rfl
      obtain ⟨c, hc, rfl⟩ := List.mem_map.1 (hus.subset hw)
      exact hbl hc
  rcases List.prefix_concat_iff.1 (hws : ws <+: _ ++ [_]) with rfl | hpre
  · right
    apply recovers_of_empty hsize
    · rw [wr_append]
      simp [wr, F.entries_record _ _ F.fits_nil]
    · intro b hb
      rw [wr_append, wr_append]
      simp only [wr]
      rw [Function.update_of_ne (home_ne_start hsize hb)]
      by_cases hbl : b ∈ lh
      · rw [wr_map, if_pos hbl, if_pos hbl]
      · rw [hother List.prefix_rfl b hb hbl, if_neg hbl]
  rcases prefix_append_cases hpre with hpre | ⟨vs, rfl, hvs⟩
  · exact .inl (hold hpre)
  rcases List.prefix_cons_iff.1 hvs with rfl | ⟨us, rfl, hus⟩
  · rw [List.append_nil]
    exact .inl (hold List.prefix_rfl)
  -- the header is written: what it lists is in the log area, whatever was installed
  right
  rw [wr_append, wr]
  generalize hd' :
    wr (Function.update (wr d (copies start V 0 lh)) start (F.record (d start) lh)) us = d'
  have hlog : ∀ b, ¬ Home start size b → d' b =
      Function.update (wr d (copies start V 0 lh)) start (F.record (d start) lh) b := by
    intro b hb
    rw [← hd']
    apply wr_untouched
    rintro w hw rfl
    obtain ⟨c, hc, rfl⟩ := List.mem_map.1 (hus.subset hw)
    exact hb (hhome c hc)
  have hstart : F.entries (d' start) = lh := by
    rw [hlog start fun hs => hs ⟨le_rfl, by omega⟩, Function.update_self,
      F.entries_record _ _ hfit]
  have hhomes : homes start d' 0 lh = lh.map fun b => (b, V b) := by
    rw [← homes_of_copies (d := d) (k := 0) lh]
    apply homes_congr
    intro j _ hj
    rw [hlog _ fun hh => hh ⟨by omega, by omega⟩, Function.update_of_ne (by omega)]
  refine ⟨by rwa [hstart], by rwa [hstart], fun b hb => ?_⟩
  rw [recoverWrites, hstart, hhomes, wr_append]
  simp only [wr]
  rw [Function.update_of_ne (home_ne_start hsize hb), wr_map]
  split_ifs with hbl
  · rfl
  · rw [← hd']
    exact hother hus b hb hbl

end RedoLog
