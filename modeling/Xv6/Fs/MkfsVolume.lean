import Xv6.Fs.BootSpec
import Xv6.Fs.Directory
import Xv6.Fs.MkfsRegions

/-!
The image of `mkfs` as a volume: it is consistent, the kernel boots on it, and its root
directory holds the names of the files. The only hole an image can have is the last block of
the root directory, whose size is rounded up to more than was written.
-/

namespace Xv6
namespace Mkfs
open Hoare

def volume (n : ℕ) : Volume := ⟨sb, {i | i = ROOTINO ∧ (n + 2) % 64 = 0}, False⟩

theorem wellFormed : sb.WellFormed where
  log := by decide
  ninodes := by decide
  root := by decide
  bitmap := by decide
  size := by decide

section
variable {files : List Input} {din : ℕ → Dinode} {s : St} {b i k : ℕ}

theorem inodeCount_eq : sb.inodeCount = 208 := rfl

theorem dataStart_eq : sb.dataStart = 46 := rfl

theorem used_iff {V : ℕ → Block} (hb : b < sb.size) :
    used sb V b ↔ getBit (V sb.bmapstart) b = true := by
  have h1000 : b < 1000 := hb
  have hdiv : b / BPB = 0 := Nat.div_eq_of_lt (lt_trans h1000 (by decide))
  have hmod : b % BPB = b := Nat.mod_eq_of_lt (lt_trans h1000 (by decide))
  rw [used, Superblock.BBLOCK, hdiv, hmod, Nat.zero_add]

theorem getD_flatMap {α β : Type} {f : α → List β} {w j : ℕ} {z : β} {l : List α}
    (hw : ∀ a ∈ l, (f a).length = w) (hk : k < l.length) (hj : j < w) :
    (l.flatMap f).getD (k * w + j) z = (f l[k]).getD j z := by
  induction l generalizing k with
  | nil => exact absurd hk (Nat.not_lt_zero k)
  | cons a l ih =>
    have ha : (f a).length = w := hw a List.mem_cons_self
    rw [List.flatMap_cons]
    cases k with
    | zero =>
      rw [Nat.zero_mul, Nat.zero_add, List.getD_append _ _ _ _ (by omega), List.getElem_cons_zero]
    | succ k =>
      rw [List.getD_append_right _ _ _ _ (by rw [ha, Nat.succ_mul]; omega), ha, List.getElem_cons_succ,
        ← ih (fun a ha => hw a (List.mem_cons_of_mem _ ha)) (by simpa using hk)]
      congr 1
      rw [Nat.succ_mul]
      omega

theorem length_rootDirents (files : List Input) : (rootDirents files).length = files.length + 2 := by
  simp [rootDirents]

theorem rootDirents_ok (hn : files.length ≤ 206) : ∀ de ∈ rootDirents files,
    de.Ok ∧ de.inum ≠ 0 ∧ de.inum < sb.inodeCount := by
  intro de hde
  rw [inodeCount_eq]
  simp only [rootDirents, List.mem_cons, List.mem_map] at hde
  rcases hde with rfl | rfl | ⟨⟨f, i⟩, hp, rfl⟩
  · exact ⟨⟨by decide, length_strncpy _ _⟩, by decide, by decide⟩
  · exact ⟨⟨by decide, length_strncpy _ _⟩, by decide, by decide⟩
  · obtain ⟨h₁, h₂, -⟩ := List.mem_zipIdx hp
    have hi : (fileDirent f i).inum = i := rfl
    refine ⟨⟨?_, length_strncpy _ _⟩, ?_, ?_⟩ <;> rw [hi] <;> omega

namespace Made

theorem root_size (h : Made files din s) :
    (din ROOTINO).size = (DIRENTSIZE * (files.length + 2) / BSIZE + 1) * BSIZE := by
  rw [h.root.2.2.2.2, length_rootBytes]

theorem dirent (h : Made files din s) (hn : files.length ≤ 206) (hk : k < (rootDirents files).length) :
    direntAt s.img.get (din ROOTINO) k = (rootDirents files)[k] := by
  have hlen := length_rootDirents files
  have hok := rootDirents_ok hn
  apply direntAt_eq (hok _ (List.getElem_mem hk)).1
  intro j hj
  rw [h.laid.contents]
  · exact getD_flatMap (fun de hde => (hok de hde).1.length_encode) hk hj
  · rw [show MAXFILE = 268 from rfl]
    unfold DIRENTSIZE BSIZE at *
    omega

theorem dirent_free (h : Made files din s) (hk : files.length + 2 ≤ k)
    (hmax : (k + 1) * DIRENTSIZE ≤ MAXFILE * BSIZE) :
    (direntAt s.img.get (din ROOTINO) k).inum = 0 := by
  have hz : direntAt s.img.get (din ROOTINO) k = ⟨0, List.replicate DIRSIZ 0⟩ := by
    apply direntAt_eq ⟨by decide, rfl⟩
    intro j hj
    rw [h.laid.contents _ _ (by rw [Nat.succ_mul] at hmax; omega)]
    show (rootBytes files).getD _ 0 = _
    rw [List.getD_eq_default _ _ (by rw [length_rootBytes]; unfold DIRENTSIZE at *; omega)]
    exact (by decide : ∀ j < DIRENTSIZE, (0 : UInt8) =
      (Dirent.mk 0 (List.replicate DIRSIZ 0)).encode.getD j 0) j hj
  rw [hz]

theorem isDir (h : Made files din s) (hn : files.length ≤ 206) :
    IsDir (volume files.length) s.img.get (din ROOTINO) := by
  have hsize := h.root_size
  refine ⟨h.root.1, ?_, fun k hk => ?_⟩
  · rw [hsize]
    unfold DIRENTSIZE BSIZE
    omega
  · by_cases hlt : k < (rootDirents files).length
    · rw [h.dirent hn hlt]
      exact (rootDirents_ok hn _ (List.getElem_mem hlt)).2.2
    · rw [length_rootDirents] at hlt
      rw [h.dirent_free (by omega)]
      · exact (by decide : 0 < sb.inodeCount)
      · rw [hsize] at hk
        rw [show MAXFILE = 268 from rfl]
        unfold direntCount DIRENTSIZE BSIZE at *
        omega

theorem distinct (h : Made files din s) (hn : files.length ≤ 206)
    (hnames : ((rootDirents files).map Dirent.name).Nodup) :
    SlotMap.Distinct (dirSlots s.img.get (din ROOTINO)) (direntCount (din ROOTINO).size) := by
  have hlive : ∀ j key x, j < direntCount (din ROOTINO).size →
      dirSlots s.img.get (din ROOTINO) j = some (key, x) →
      ∃ hj : j < (rootDirents files).length, strncpy DIRSIZ (rootDirents files)[j].name = key := by
    intro j key x hj hs
    by_cases hlt : j < (rootDirents files).length
    · rw [dirSlots, h.dirent hn hlt, Dirent.live] at hs
      split_ifs at hs
      simp only [Option.some.injEq, Prod.mk.injEq] at hs
      exact ⟨hlt, hs.1⟩
    · rw [length_rootDirents] at hlt
      have hfree := h.dirent_free (k := j) (by omega) (by
        rw [h.root_size] at hj
        rw [show MAXFILE = 268 from rfl]
        unfold direntCount DIRENTSIZE BSIZE at *
        omega)
      rw [dirSlots, dirent_live_eq_none.2 hfree] at hs
      cases hs
  have hstored : ∀ de ∈ rootDirents files, strncpy DIRSIZ de.name = de.name := by
    intro de hde
    simp only [rootDirents, List.mem_cons, List.mem_map] at hde
    rcases hde with rfl | rfl | ⟨p, -, rfl⟩
    · exact strncpy_strncpy DIRSIZ [46]
    · exact strncpy_strncpy DIRSIZ [46, 46]
    · exact strncpy_strncpy _ _
  intro j k key x y hj hk hx hy
  obtain ⟨hj', rfl⟩ := hlive j key x hj hx
  obtain ⟨hk', hkey⟩ := hlive k _ y hk hy
  rw [hstored _ (List.getElem_mem hj'), hstored _ (List.getElem_mem hk')] at hkey
  have hlen : ((rootDirents files).map Dirent.name).length = (rootDirents files).length :=
    List.length_map _
  have he : ((rootDirents files).map Dirent.name)[j] = ((rootDirents files).map Dirent.name)[k] := by
    rw [List.getElem_map, List.getElem_map]
    exact hkey.symm
  exact hnames.getElem_inj_iff.1 he

theorem used_iff (h : Made files din s) (hb : b < sb.size) :
    used sb s.img.get b ↔ b < s.freeblock := by
  rw [Mkfs.used_iff hb, h.bitmap, decide_eq_true_eq]

theorem inodes_eq (h : Made files din s) (hn : files.length ≤ 206) : inodes sb s.img.get = din := by
  funext i
  unfold inodes
  split_ifs with hi
  · exact h.disk i hi
  · rw [inodeCount_eq] at hi
    exact (h.free i (.inr (by omega))).symm

theorem type_ne_zero (h : Made files din s) (h1 : 1 ≤ i) (hi : i < files.length + 2) :
    (din i).type ≠ 0 := by
  by_cases hr : i = ROOTINO
  · rw [hr, h.root.1]
    exact (by decide : T_DIR ≠ 0)
  · have h2 : 2 ≤ i := by
      unfold ROOTINO at hr
      omega
    rw [(h.file i h2 hi).1]
    exact (by decide : T_FILE ≠ 0)

theorem dataUsed_eq (h : Made files din s) : dataUsed sb s.img.get = given s := by
  ext b
  have htaken : s.freeblock ≤ 1000 := h.laid.taken
  constructor
  · rintro ⟨h₁, h₂, h₃⟩
    exact ⟨h₁, (h.used_iff h₂).1 h₃⟩
  · rintro ⟨h₁, h₂⟩
    have hb : b < sb.size := lt_of_lt_of_le h₂ htaken
    exact ⟨h₁, hb, (h.used_iff hb).2 h₂⟩

/-- The root directory has a block for every entry, and one less than its size says when the
entries fill their blocks. -/
theorem root_filled (h : Made files din s) (hk : k < nblocks (din ROOTINO).size)
    (hn : files.length ≤ 206) :
    blockOf s.img.get (din ROOTINO) k ≠ 0 ↔ (files.length + 2) % 64 ≠ 0 ∨ k + 1 < nblocks (din ROOTINO).size := by
  have hM : MAXFILE = 268 := rfl
  rw [h.root_size] at hk ⊢
  rw [h.laid.filled ROOTINO k]
  · show k < nblocks (rootBytes files).length ↔ _
    rw [length_rootBytes]
    unfold nblocks BSIZE DIRENTSIZE at *
    omega
  · unfold nblocks BSIZE DIRENTSIZE at *
    omega

theorem consistent (h : Made files din s) (hn : files.length ≤ 206) :
    Consistent (volume files.length) ∅ s.img.get (inodes sb s.img.get) := by
  have hcap : ∀ i, i = 0 ∨ files.length + 2 ≤ i ∨ i = ROOTINO ∨ (2 ≤ i ∧ i < files.length + 2) := by
    intro i
    unfold ROOTINO
    omega
  rw [h.inodes_eq hn]
  refine ⟨wellFormed, fun b hb => ?_, fun i => ?_, ⟨?_, fun _ => ?_⟩, fun i hi σ => ?_, fun i => ?_,
    fun i hh hty k hk => ?_, fun b hb => absurd hb (Set.notMem_empty b),
    fun i σ hm => absurd hm (Set.notMem_empty _)⟩
  · have hlt : b < 46 := by
      rw [← dataStart_eq]
      exact hb
    have hsize : b < sb.size := lt_trans hlt (show 46 < 1000 by norm_num)
    have hstart : 46 ≤ s.freeblock := h.laid.start
    exact (h.used_iff hsize).2 (by omega)
  · rw [← h.inodes_eq hn]
    exact inodes_ok sb s.img.get i
  · show Ledger _ (dataUsed sb s.img.get)
    rw [h.dataUsed_eq]
    exact h.laid.ledger
  · show Ledger.Exact _ (dataUsed sb s.img.get)
    rw [h.dataUsed_eq]
    exact h.laid.exact
  · have hfree : i = 0 ∨ files.length + 2 ≤ i := by
      by_contra hc
      exact h.type_ne_zero (by omega) (by omega) hi
    rw [h.free i hfree, slot_zeroDinode]
  · rcases hcap i with hi | hi | rfl | hi
    · rw [h.free i (.inl hi)]
      exact Nat.zero_le _
    · rw [h.free i (.inr hi)]
      exact Nat.zero_le _
    · rw [h.root_size, show MAXFILE = 268 from rfl]
      unfold BSIZE DIRENTSIZE
      omega
    · rw [(h.file i hi.1 hi.2).2.2.2.2]
      exact h.laid.fits i
  · rcases hcap i with hi | hi | rfl | hi
    · rw [h.free i (.inl hi)] at hty
      exact absurd rfl hty
    · rw [h.free i (.inr hi)] at hty
      exact absurd rfl hty
    · rw [h.root_filled hk hn]
      exact .inl fun hc => hh ⟨rfl, hc⟩
    · have hfits := h.laid.fits i
      rw [(h.file i hi.1 hi.2).2.2.2.2] at hk
      dsimp only at hk
      rw [h.laid.filled i k]
      · exact hk
      · unfold nblocks BSIZE at *
        omega

theorem bootable (h : Made files din s) (hn : files.length ≤ 206) :
    Bootable (volume files.length) s.img := by
  refine ⟨?_, ?_, (by decide : 0 < sb.nlog), ?_, h.consistent hn⟩
  · rw [h.super]
    exact (by decide +kernel : getSuperblock (putSuperblock .empty sb) = sb)
  · rw [h.super]
    decide +kernel
  · show headerBlocks (s.img.get 2) = []
    rw [TMap.get, h.low 2 (by decide) (by decide)]
    decide +kernel

end Made

end

end Mkfs
end Xv6
