import Xv6.Lib.RedoLog
import Xv6.Fs.BioSpec
import Xv6.Fs.Log

/-!
The disk writes of `log.c`. Each function makes the writes the redo-log protocol
prescribes, in order; when it stops at a panic it has made a first part of them.
-/

namespace Xv6
open Hoare RedoLog

namespace Store
variable (s : Store) (l : Log)

@[simp] theorem withLog_disk : (s.withLog l).disk = s.disk := rfl
@[simp] theorem withLog_writes : (s.withLog l).writes = s.writes := rfl
@[simp] theorem withLog_bufs : (s.withLog l).bufs = s.bufs := rfl
@[simp] theorem withLog_log : (s.withLog l).log = l := rfl
@[simp] theorem withLog_withLog (k : Log) : (s.withLog l).withLog k = s.withLog k := rfl
@[simp] theorem withLog_caches (i b : ℕ) : (s.withLog l).Caches i b ↔ s.Caches i b := Iff.rfl

end Store

@[simp] theorem post_modifyLog {f : Log → Log} {s : Store} {Q : Unit → Store → Prop}
    {E : Fault → Store → Prop} :
    Post (modifyLog f) s Q E ↔ Q () (s.withLog (f s.log)) := by
  simp [modifyLog]

theorem getWord_putWord_self (b : Block) (j v : ℕ) : getWord (putWord b j v) j = v % 2 ^ 32 := by
  rw [getWord, putWord, Bytes.getLE_putLE_self]
  norm_num

theorem getWord_putWord_ne (b : Block) {j k : ℕ} (v : ℕ) (h : k ≠ j) :
    getWord (putWord b j v) k = getWord b k := by
  rw [getWord, putWord, Bytes.getLE_putLE_disjoint b v (by omega), getWord]

theorem getWord_putEntries (b : Block) (i : ℕ) (l : List ℕ) (j : ℕ) :
    getWord (putEntries b i l) j =
      if i < j ∧ j ≤ i + l.length then l.getD (j - i - 1) 0 % 2 ^ 32 else getWord b j := by
  induction l generalizing b i with
  | nil =>
    rw [putEntries, if_neg]
    simp only [List.length_nil]
    omega
  | cons v vs ih =>
    rw [putEntries, ih, List.length_cons]
    by_cases hj : j = i + 1
    · rw [if_neg (by omega), if_pos (by omega), hj, getWord_putWord_self]
      simp
    · rw [getWord_putWord_ne b v hj]
      by_cases hin : i < j ∧ j ≤ i + (vs.length + 1)
      · obtain ⟨k, hk⟩ : ∃ k, j - i - 1 = k + 1 := ⟨j - i - 2, by omega⟩
        rw [if_pos (by omega), if_pos hin, hk, List.getD_cons_succ,
          show j - (i + 1) - 1 = k by omega]
      · rw [if_neg (by omega), if_neg hin]

/-- What the header block can hold without loss. -/
def HeaderFits (l : List ℕ) : Prop := l.length ≤ LOGSIZE ∧ ∀ b ∈ l, b < 2 ^ 32

theorem headerBlocks_putHeader (b : Block) (l : List ℕ) (hl : HeaderFits l) :
    headerBlocks (putHeader b l) = l := by
  have hlen : getWord (putHeader b l) 0 = l.length := by
    have : l.length < 2 ^ 32 := lt_of_le_of_lt hl.1 (by decide)
    rw [putHeader, getWord_putEntries, if_neg (by omega), getWord_putWord_self,
      Nat.mod_eq_of_lt this]
  rw [headerBlocks, hlen]
  apply List.ext_getElem (by simp)
  intro i h₁ h₂
  rw [List.getElem_map, List.getElem_range, putHeader, getWord_putEntries, if_pos (by omega),
    show i + 1 - 0 - 1 = i by omega, List.getD_eq_getElem?_getD, List.getElem?_eq_getElem h₂,
    Option.getD_some, Nat.mod_eq_of_lt (hl.2 _ (List.getElem_mem h₂))]

/-- The header block of `log.c` as a redo-log header. -/
def headerFormat : Format Block where
  entries := headerBlocks
  record := putHeader
  Fits := HeaderFits
  fits_nil := ⟨by simp, by simp⟩
  entries_record := headerBlocks_putHeader

theorem headerFormat_entries (b : Block) : headerFormat.entries b = headerBlocks b := rfl

structure Wrote (s : Store) (ws : List (ℕ × Block)) (t : Store) : Prop where
  writes : t.writes = ws.reverse ++ s.writes
  disk : ∀ b, t.disk.get b = wr s.disk.get ws b

theorem Wrote.refl (s : Store) : Wrote s [] s := ⟨rfl, fun _ => rfl⟩

theorem Quiet.wrote {s t : Store} (h : Quiet s t) : Wrote s [] t :=
  ⟨h.writes, fun b => by rw [h.disk]; rfl⟩

theorem Wrote.trans {s t u : Store} {ws vs : List (ℕ × Block)} (h₁ : Wrote s ws t)
    (h₂ : Wrote t vs u) : Wrote s (ws ++ vs) u := by
  refine ⟨by rw [h₂.writes, h₁.writes]; simp, fun b => ?_⟩
  rw [h₂.disk, wr_append, show t.disk.get = wr s.disk.get ws from funext h₁.disk]

theorem copies_congr {start k : ℕ} {V V' : ℕ → Block} {lh : List ℕ} (h : ∀ b ∈ lh, V b = V' b) :
    copies start V k lh = copies start V' k lh := by
  induction lh generalizing k with
  | nil => rfl
  | cons b bs ih =>
    rw [copies, copies, h b List.mem_cons_self,
      ih fun c hc => h c (List.mem_cons_of_mem b hc)]

theorem Bio.withLog {D : Set ℕ} {H P : Finset ℕ} {V : ℕ → Block} {s : Store}
    (h : Bio D H P V s) (l : Log) : Bio D H P V (s.withLog l) :=
  ⟨h.lru_mem, h.unique, h.valid, h.locked, h.refcnt, h.idle, h.here, h.data, h.clean⟩

theorem Bio.written {D : Set ℕ} {b : ℕ} (hb : b ∉ D) : insert b D \ {b} = D := by
  ext c
  simp only [Set.mem_sdiff, Set.mem_insert_iff, Set.mem_singleton_iff]
  constructor
  · rintro ⟨rfl | hc, hcb⟩
    · exact absurd rfl hcb
    · exact hc
  · intro hc
    exact ⟨.inr hc, fun hcb => hb (hcb ▸ hc)⟩

section
variable {D : Set ℕ} {P : Finset ℕ} {V : ℕ → Block} {s : Store} {start size tail : ℕ}
  {E : Fault → Store → Prop}

theorem readTwo_spec {a b : ℕ} {R : ℕ → ℕ → Store → Prop} (h : Bio D ∅ P V s) (hab : a ≠ b)
    (hE : NBUF ≤ P.card + 1 → ∀ t, Quiet s t → E (.panic .bgetNoBuffers) t)
    (hR : ∀ i j t, Bio D (insert b (insert a ∅)) P V t → t.Caches i a → t.Caches j b →
      Quiet s t → R i j t) :
    Post (bread ROOTDEV a) s (fun i t => Post (bread ROOTDEV b) t (fun j t => R i j t) E) E := by
  apply (bread_spec h (by simp) fun hn _ => ?_).imp
  · rintro i t₁ ⟨h₁, hi, -, hq₁⟩
    apply (bread_spec h₁ (by simp [hab.symm]) fun hn hbP => ?_).imp
    · rintro j t₂ ⟨h₂, hj, hst, hq₂⟩
      exact hR i j t₂ h₂ (hst i a (by simp) hi) hj (hq₁.trans hq₂)
    · refine hE (hn.trans ?_) t₁ hq₁
      have := Finset.card_union_le (insert a ∅) P
      simp only [insert_empty_eq, Finset.card_singleton] at this ⊢
      omega
  · exact hE (by simpa using hn.trans (Nat.le_succ _)) s (Quiet.refl s)

theorem overwrite_spec {H : Finset ℕ} {i b : ℕ} (h : Bio D H P V s) (hb : b ∈ H) (hD : b ∉ D)
    (hc : s.Caches i b) (d : Block) :
    Post (bwrite i) (s.setBuf i { s.bufs.get i with data := d })
      (fun _ t => Bio D H P (Function.update V b d) t ∧ SameCaches s t ∧ Wrote s [(b, d)] t ∧
        t.log = s.log) E := by
  obtain ⟨h₃, hsc⟩ := h.setData hc d
  apply (bwrite_spec h₃ hb ((hsc i b).2 hc)).imp
  rintro _ t ⟨h₄, hsc', -, hlog, hdisk, hw⟩
  rw [Bio.written hD] at h₄
  simp only [Store.setBuf_bufs, TMap.get_set_self] at h₄ hdisk hw
  refine ⟨h₄, fun j c => (hsc' j c).trans (hsc j c), ⟨hw, fun c => ?_⟩, hlog⟩
  rw [hdisk, TMap.get_set, Store.setBuf_disk, wr, wr, Function.update_apply]

theorem releaseTwo_spec {a b i j : ℕ} {R : Store → Prop}
    (h : Bio D (insert b (insert a ∅)) P V s) (hab : a ≠ b) (hi : s.Caches i a)
    (hj : s.Caches j b) (hR : ∀ t, Bio D ∅ P V t → Quiet s t → R t) :
    Post (brelse j) s (fun _ t => Post (brelse i) t (fun _ t => R t) E) E := by
  apply (brelse_spec h (by simp [hab.symm]) hj).imp
  rintro _ t₁ ⟨h₁, hsc₁, hq₁⟩
  apply (brelse_spec h₁ (by simp) ((hsc₁ i a).2 hi)).imp
  rintro _ t₂ ⟨h₂, -, hq₂⟩
  exact hR t₂ h₂ (hq₁.trans hq₂)

/-- `write_log` copies the logged blocks into the log area. -/
theorem writeLogFrom_spec (lh : List ℕ) (h : Bio D ∅ P V s) (hstart : s.log.start = start)
    (hdev : s.log.dev = ROOTDEV) (hD : ∀ b, ¬ Home start size b → b ∉ D)
    (hroom : tail + lh.length < size) (hlh : ∀ b ∈ lh, Home start size b ∧ b ∉ D)
    (hE : NBUF ≤ P.card + 1 → ∀ ws t, ws <+: copies start V tail lh → Wrote s ws t →
      E (.panic .bgetNoBuffers) t) :
    Post (writeLogFrom tail lh) s
      (fun _ t => Bio D ∅ P (wr V (copies start V tail lh)) t ∧
        Wrote s (copies start V tail lh) t ∧ t.log = s.log) E := by
  induction lh generalizing V s tail with
  | nil => exact post_pure.2 ⟨h, Wrote.refl s, rfl⟩
  | cons b bs ih =>
    simp only [List.length_cons] at hroom
    obtain ⟨hbh, hbD⟩ := hlh b List.mem_cons_self
    have hlog : ¬ Home start size (start + tail + 1) := fun hh => hh ⟨by omega, by omega⟩
    have hne : start + tail + 1 ≠ b := fun he => hlog (he ▸ hbh)
    have hrest : copies start (Function.update V (start + tail + 1) (V b)) (tail + 1) bs =
        copies start V (tail + 1) bs := by
      apply copies_congr
      intro c hc
      apply Function.update_of_ne
      rintro rfl
      exact hlog (hlh _ (List.mem_cons_of_mem b hc)).1
    simp only [writeLogFrom, post_bind, post_get, hstart, hdev]
    apply readTwo_spec h hne (fun hn t hq => hE hn [] t List.nil_prefix hq.wrote)
    intro i j t₁ h₁ hi hj hq₁
    simp only [post_getBuf, post_setData, h₁.data j b hj hbD]
    apply (overwrite_spec h₁ (by simp) (hD _ hlog) hi (V b)).imp
    rintro _ t₂ ⟨h₂, hsc, hw, hl₂⟩
    apply releaseTwo_spec h₂ hne ((hsc i _).2 hi) ((hsc j b).2 hj)
    intro t₃ h₃ hq₃
    have hw₃ : Wrote s [(start + tail + 1, V b)] t₃ := (hq₁.wrote.trans hw).trans hq₃.wrote
    have hl₃ : t₃.log = s.log := by rw [hq₃.log, hl₂, hq₁.log]
    apply (ih h₃ (hl₃ ▸ hstart) (hl₃ ▸ hdev) (by omega)
      (fun c hc => hlh c (List.mem_cons_of_mem b hc)) ?_).imp
    · rintro _ t ⟨ht, hwt, hlt⟩
      rw [hrest] at ht hwt
      exact ⟨ht, hw₃.trans hwt, hlt.trans hl₃⟩
    · intro hn ws t hws hwt
      rw [hrest] at hws
      exact hE hn _ t (List.prefix_cons_inj _ |>.2 hws) (hw₃.trans hwt)

/-- The blocks still pinned after `install_trans`. -/
def pinsAfter (recovering : Bool) (P : Finset ℕ) (lh : List ℕ) : Finset ℕ :=
  if recovering then P else P \ lh.toFinset

/-- `install_trans` copies the log area to the blocks the header lists. -/
theorem installTransFrom_spec (r : Bool) (lh : List ℕ) (h : Bio D ∅ P V s)
    (hstart : s.log.start = start) (hdev : s.log.dev = ROOTDEV)
    (hD : ∀ b, ¬ Home start size b → b ∉ D) (hroom : tail + lh.length < size)
    (hlh : ∀ b ∈ lh, Home start size b ∧ b ∉ D)
    (hpin : r = false → lh.Nodup ∧ ∀ b ∈ lh, b ∈ P)
    (hE : NBUF ≤ P.card + 1 → ∀ ws t, ws <+: homes start V tail lh → Wrote s ws t →
      E (.panic .bgetNoBuffers) t) :
    Post (installTransFrom r tail lh) s
      (fun _ t => Bio D ∅ (pinsAfter r P lh) (wr V (homes start V tail lh)) t ∧
        Wrote s (homes start V tail lh) t ∧ t.log = s.log) E := by
  induction lh generalizing V s tail P with
  | nil => exact post_pure.2 ⟨by simpa [pinsAfter, homes, wr] using h, Wrote.refl s, rfl⟩
  | cons b bs ih =>
    simp only [List.length_cons] at hroom
    obtain ⟨hbh, hbD⟩ := hlh b List.mem_cons_self
    have hlog : ∀ j, j ≤ tail + bs.length → ¬ Home start size (start + j + 1) :=
      fun j hj hh => hh ⟨by omega, by omega⟩
    have hne : start + tail + 1 ≠ b := fun he => hlog tail (by omega) (he ▸ hbh)
    have hrest : homes start (Function.update V b (V (start + tail + 1))) (tail + 1) bs =
        homes start V (tail + 1) bs := by
      apply homes_congr
      intro j _ hj
      apply Function.update_of_ne
      rintro rfl
      exact hlog j (by omega) hbh
    have hnext : ∀ (P' : Finset ℕ) (t : Store),
        Bio D ∅ P' (Function.update V b (V (start + tail + 1))) t →
        Wrote s [(b, V (start + tail + 1))] t → t.log = s.log → P'.card ≤ P.card →
        (r = false → bs.Nodup ∧ ∀ c ∈ bs, c ∈ P') → pinsAfter r P' bs = pinsAfter r P (b :: bs) →
        Post (installTransFrom r (tail + 1) bs) t
          (fun _ t => Bio D ∅ (pinsAfter r P (b :: bs)) (wr V (homes start V tail (b :: bs))) t ∧
            Wrote s (homes start V tail (b :: bs)) t ∧ t.log = s.log) E := by
      intro P' t ht hw hl hcard hpin' hP'
      apply (ih ht (hl ▸ hstart) (hl ▸ hdev) (by omega)
        (fun c hc => hlh c (List.mem_cons_of_mem b hc)) hpin' ?_).imp
      · rintro _ u ⟨hu, hwu, hlu⟩
        rw [hrest] at hu hwu
        rw [hP'] at hu
        exact ⟨hu, hw.trans hwu, hlu.trans hl⟩
      · intro hn ws u hws hwu
        rw [hrest] at hws
        exact hE (by omega) _ u (List.prefix_cons_inj _ |>.2 hws) (hw.trans hwu)
    simp only [installTransFrom, post_bind, post_get, hstart, hdev]
    apply readTwo_spec h hne (fun hn t hq => hE hn [] t List.nil_prefix hq.wrote)
    intro i j t₁ h₁ hi hj hq₁
    simp only [post_getBuf, post_setData, h₁.data i _ hi (hD _ (hlog tail (by omega)))]
    apply (overwrite_spec h₁ (by simp) hbD hj _).imp
    rintro _ t₂ ⟨h₂, hsc, hw₂, hl₂⟩
    have hw : Wrote s [(b, V (start + tail + 1))] t₂ := hq₁.wrote.trans hw₂
    have hl : t₂.log = s.log := hl₂.trans hq₁.log
    have hi₂ := (hsc i _).2 hi
    have hj₂ := (hsc j b).2 hj
    cases r with
    | true =>
      simp only [Bool.not_true, Bool.false_eq_true, if_false, post_bind]
      rw [Finset.insert_comm] at h₂
      apply releaseTwo_spec h₂ hne.symm hj₂ hi₂
      intro t₃ h₃ hq₃
      exact hnext P t₃ h₃ (hw.trans hq₃.wrote) (hq₃.log.trans hl) le_rfl (by simp) rfl
    | false =>
      obtain ⟨hnd, hP⟩ := hpin rfl
      rw [List.nodup_cons] at hnd
      simp only [Bool.not_false, if_true, post_bind]
      apply (bunpin_spec h₂ (hP b List.mem_cons_self) hj₂ fun _ => ?_).imp
      · rintro _ t₃ ⟨h₃, hsc₃, hq₃⟩
        rw [Finset.insert_comm] at h₃
        apply releaseTwo_spec h₃ hne.symm ((hsc₃ j b).2 hj₂) ((hsc₃ i _).2 hi₂)
        intro t₄ h₄ hq₄
        refine hnext (P.erase b) t₄ h₄ ((hw.trans hq₃.wrote).trans hq₄.wrote)
          (hq₄.log.trans (hq₃.log.trans hl)) (Finset.card_erase_le) (fun _ => ⟨hnd.2, ?_⟩) ?_
        · intro c hc
          refine Finset.mem_erase.2 ⟨?_, hP c (List.mem_cons_of_mem b hc)⟩
          rintro rfl
          exact hnd.1 hc
        · ext c
          simp only [pinsAfter, Bool.false_eq_true, if_false, Finset.mem_sdiff, Finset.mem_erase,
            List.mem_toFinset, List.mem_cons]
          tauto
      · rw [hw.disk]
        simp [wr]

theorem writeHead_spec (h : Bio D ∅ P V s) (hstart : s.log.start = start)
    (hdev : s.log.dev = ROOTDEV) (hD : start ∉ D)
    (hE : NBUF ≤ P.card → E (.panic .bgetNoBuffers) s) :
    Post writeHead s
      (fun _ t => Bio D ∅ P (Function.update V start (putHeader (V start) s.log.lh)) t ∧
        Wrote s [(start, putHeader (V start) s.log.lh)] t ∧ t.log = s.log) E := by
  simp only [writeHead, post_bind, post_get, hstart, hdev]
  apply (bread_spec h (by simp) fun hn _ => hE (by simpa using hn)).imp
  rintro i t₁ ⟨h₁, hi, -, hq₁⟩
  simp only [post_getBuf, post_setData, h₁.data i start hi hD]
  apply (overwrite_spec h₁ (by simp) hD hi _).imp
  rintro _ t₂ ⟨h₂, hsc, hw, hl₂⟩
  apply (brelse_spec h₂ (by simp) ((hsc i start).2 hi)).imp
  rintro _ t₃ ⟨h₃, -, hq₃⟩
  exact ⟨h₃, (hq₁.wrote.trans hw).trans hq₃.wrote, hq₃.log.trans (hl₂.trans hq₁.log)⟩

theorem readHead_spec (h : Bio D ∅ P V s) (hstart : s.log.start = start)
    (hdev : s.log.dev = ROOTDEV) (hD : start ∉ D)
    (hE : NBUF ≤ P.card → E (.panic .bgetNoBuffers) s) :
    Post readHead s
      (fun _ t => Bio D ∅ P V t ∧ Wrote s [] t ∧
        t.log = { s.log with lh := headerBlocks (V start) }) E := by
  simp only [readHead, post_bind, post_get, hstart, hdev]
  apply (bread_spec h (by simp) fun hn _ => hE (by simpa using hn)).imp
  rintro i t₁ ⟨h₁, hi, -, hq₁⟩
  simp only [post_getBuf, h₁.data i start hi hD, post_modifyLog]
  apply (brelse_spec (h₁.withLog _) (by simp) (by simpa using hi)).imp
  rintro _ t₂ ⟨h₂, -, hq₂⟩
  refine ⟨h₂, ⟨?_, fun b => ?_⟩, ?_⟩
  · rw [hq₂.writes, Store.withLog_writes, hq₁.writes]
    rfl
  · rw [hq₂.disk, Store.withLog_disk, hq₁.disk]
    rfl
  · rw [hq₂.log, Store.withLog_log, hq₁.log]
    simp [hstart, hdev]

/-- `recover_from_log` makes the writes of a recovery and cannot fail. -/
theorem recoverFromLog_spec (h : Bio ∅ ∅ ∅ V s) (hstart : s.log.start = start)
    (hdev : s.log.dev = ROOTDEV) (hhome : ∀ b ∈ headerBlocks (V start), Home start size b)
    (hroom : (headerBlocks (V start)).length < size) :
    Post recoverFromLog s
      (fun _ t => Bio ∅ ∅ ∅ (wr V (recoverWrites headerFormat start V)) t ∧
        Wrote s (recoverWrites headerFormat start V) t ∧ t.log = { s.log with lh := [] })
      fun _ _ => False := by
  have hnb : ¬ NBUF ≤ (∅ : Finset ℕ).card + 1 := by decide
  simp only [recoverFromLog, installTrans, post_bind, post_get, post_modifyLog]
  apply (readHead_spec h hstart hdev (by simp) fun hn => hnb (hn.trans (Nat.le_succ _))).imp
  rintro _ t₁ ⟨h₁, hw₁, hl₁⟩
  rw [hl₁]
  apply (installTransFrom_spec true _ h₁ (hl₁ ▸ hstart) (hl₁ ▸ hdev) (by simp)
    (by simpa using hroom) (fun b hb => ⟨hhome b hb, by simp⟩) (by simp)
    fun hn => absurd hn hnb).imp
  rintro _ t₂ ⟨h₂, hw₂, hl₂⟩
  have hs₂ : wr V (homes start V 0 (headerBlocks (V start))) start = V start := by
    apply wr_untouched
    rintro w hw rfl
    exact hhome w.1 (mem_homes hw) ⟨le_rfl, by omega⟩
  have hl : t₂.log = { s.log with lh := headerBlocks (V start) } := hl₂.trans hl₁
  have hstart₂ : (t₂.withLog { t₂.log with lh := [] }).log.start = start := by simp [hl, hstart]
  apply (writeHead_spec (h₂.withLog _) hstart₂ (by simp [hl, hdev]) (by simp) fun hn => hnb (hn.trans (Nat.le_succ _))).imp
  rintro _ t₃ ⟨h₃, hw₃, hl₃⟩
  simp only [hs₂, Store.withLog_log] at h₃ hw₃ hl₃
  refine ⟨?_, ?_, ?_⟩
  · rw [recoverWrites, wr_append]
    exact h₃
  · exact (hw₁.trans hw₂).trans ⟨hw₃.writes, hw₃.disk⟩
  · rw [hl₃, hl]

/-- `commit` makes the writes of a commit, or a first part of them before a panic. -/
theorem commit_spec (h : Bio D ∅ s.log.lh.toFinset V s) (hstart : s.log.start = start)
    (hdev : s.log.dev = ROOTDEV) (hD : ∀ b, ¬ Home start size b → b ∉ D)
    (hlh : ∀ b ∈ s.log.lh, Home start size b ∧ b ∉ D) (hnd : s.log.lh.Nodup)
    (hne : s.log.lh ≠ []) (hroom : s.log.lh.length < size)
    (hE : ∀ ws t, ws <+: commitWrites headerFormat start (V start) s.log.lh V → Wrote s ws t →
      E (.panic .bgetNoBuffers) t) :
    Post commit s
      (fun _ t => Bio D ∅ ∅ (wr V (commitWrites headerFormat start (V start) s.log.lh V)) t ∧
        Wrote s (commitWrites headerFormat start (V start) s.log.lh V) t ∧
        t.log = { s.log with lh := [] }) E := by
  generalize hlheq : s.log.lh = lh at *
  have hsh : ¬ Home start size start := fun hh => hh ⟨le_rfl, by omega⟩
  have hsD : start ∉ D := hD start hsh
  have hpos : 0 < lh.length := List.length_pos_of_ne_nil hne
  let W₁ := copies start V 0 lh
  let V₁ := wr V W₁
  let V₂ := Function.update V₁ start (putHeader (V start) lh)
  let W₃ := lh.map fun b => (b, V b)
  have hs₁ : V₁ start = V start := by
    apply wr_untouched
    intro w hw
    have := (mem_copies hw).1
    omega
  have hhomes : homes start V₂ 0 lh = W₃ := by
    have hcopied : homes start (wr V (copies start V 0 lh)) 0 lh = W₃ := homes_of_copies lh
    rw [← hcopied]
    apply homes_congr
    intro j _ _
    exact Function.update_of_ne (by omega) _ _
  have hs₃ : wr V₂ W₃ start = putHeader (V start) lh := by
    rw [wr_untouched]
    · exact Function.update_self ..
    · rintro w hw rfl
      obtain ⟨b, hb, rfl⟩ := List.mem_map.1 hw
      exact hsh (hlh b hb).1
  have hW : commitWrites headerFormat start (V start) lh V =
      ((W₁ ++ [(start, putHeader (V start) lh)]) ++ W₃) ++
        [(start, putHeader (putHeader (V start) lh) [])] := by
    simp [commitWrites, headerFormat, W₁, W₃]
  rw [hW] at hE ⊢
  have hp₁ : W₁ <+: ((W₁ ++ [(start, putHeader (V start) lh)]) ++ W₃) ++
      [(start, putHeader (putHeader (V start) lh) [])] := by
    rw [List.append_assoc, List.append_assoc]
    exact List.prefix_append _ _
  simp only [commit, writeLog, installTrans, post_bind, post_get, hlheq, hpos, gt_iff_lt, if_true,
    post_modifyLog]
  apply (writeLogFrom_spec lh h hstart hdev hD (by omega) hlh fun _ ws t hws hwt =>
    hE ws t (hws.trans hp₁) hwt).imp
  rintro _ t₁ ⟨h₁, hw₁, hl₁⟩
  apply (writeHead_spec h₁ (hl₁ ▸ hstart) (hl₁ ▸ hdev) hsD fun _ => hE W₁ t₁ hp₁ hw₁).imp
  rintro _ t₂ ⟨h₂, hw₂, hl₂⟩
  rw [hl₁, hlheq, show wr V (copies start V 0 lh) start = V start from hs₁] at h₂ hw₂
  have hl₂' : t₂.log = s.log := hl₂.trans hl₁
  have hw₂' := hw₁.trans hw₂
  rw [hl₂', hlheq]
  apply (installTransFrom_spec false lh h₂ (hl₂' ▸ hstart) (hl₂' ▸ hdev) hD (by omega) hlh
    (fun _ => ⟨hnd, by simp⟩) fun _ ws t hws hwt => hE _ t ?_ (hw₂'.trans hwt)).imp
  · rintro _ t₃ ⟨h₃, hw₃, hl₃⟩
    have hl₃' : t₃.log = s.log := hl₃.trans hl₂'
    rw [show homes start _ 0 lh = W₃ from hhomes] at h₃ hw₃
    have hw₃' := hw₂'.trans hw₃
    have hstart₃ : (t₃.withLog { t₃.log with lh := [] }).log.start = start := by
      simp [hl₃', hstart]
    apply (writeHead_spec (h₃.withLog _) hstart₃ (by simp [hl₃', hdev]) hsD
      fun _ => hE _ _ ⟨_, rfl⟩ ⟨hw₃'.writes, hw₃'.disk⟩).imp
    rintro _ t₄ ⟨h₄, hw₄, hl₄⟩
    simp only [Store.withLog_log] at h₄ hw₄ hl₄
    simp only [show wr (Function.update (wr V (copies start V 0 lh)) start _) W₃ start = _ from hs₃]
      at h₄ hw₄
    refine ⟨?_, hw₃'.trans ⟨hw₄.writes, hw₄.disk⟩, hl₄.trans (by rw [hl₃'])⟩
    rw [wr_append, wr_append, wr_append]
    rwa [pinsAfter, if_neg Bool.false_ne_true, Finset.sdiff_self] at h₄
  · rw [hhomes] at hws
    exact (List.prefix_append_right_inj _ |>.2 hws).trans ⟨_, rfl⟩

end

end Xv6
