import Xv6.Fs.MkfsReadBack
import Xv6.Fs.Namei

/-!
A freshly made file system is in order: its one directory is, every inode has a link, and no
entry names a free inode.
-/

namespace Xv6
namespace Mkfs
open Hoare

section
variable {files : List Input} {din : ℕ → Dinode} {m : St} {V : ℕ → Block} {n : ℕ}

theorem volume_holey (hm : (files.length + 2) % 64 ≠ 0) : (volume files.length).holey = ∅ :=
  Set.eq_empty_of_forall_notMem fun _ hi => hm hi.2

theorem rootDirents_inum : ∀ de ∈ rootDirents files, 1 ≤ de.inum ∧ de.inum < files.length + 2 := by
  intro de hde
  simp only [rootDirents, List.mem_cons, List.mem_map] at hde
  rcases hde with rfl | rfl | ⟨⟨f, i⟩, hp, rfl⟩
  · exact ⟨le_rfl, show 1 < files.length + 2 by omega⟩
  · exact ⟨le_rfl, show 1 < files.length + 2 by omega⟩
  · obtain ⟨h₁, h₂, -⟩ := List.mem_zipIdx hp
    show 1 ≤ i ∧ i < files.length + 2
    omega

namespace Made

theorem eq_root (h : Made files din m) (ht : (din n).type = T_DIR) : n = ROOTINO := by
  by_contra hne
  have hne' : n ≠ 1 := hne
  by_cases hfree : n = 0 ∨ files.length + 2 ≤ n
  · rw [h.free n hfree] at ht
    exact absurd ht (by decide)
  · rw [(h.file n (by omega) (by omega)).1] at ht
    exact absurd ht (show T_FILE ≠ T_DIR by decide)

theorem nlink_ne_zero (h : Made files din m) (ht : (din n).type ≠ 0) : (din n).nlink ≠ 0 := by
  by_cases hfree : n = 0 ∨ files.length + 2 ≤ n
  · rw [h.free n hfree] at ht
    exact absurd rfl ht
  · by_cases hr : n = ROOTINO
    · rw [hr, h.root.2.2.2.1]
      exact one_ne_zero
    · have hr' : n ≠ 1 := hr
      rw [(h.file n (by omega) (by omega)).2.2.2.1]
      exact one_ne_zero

theorem dirSlots_eq {k : ℕ} (h : Made files din m) (hn : files.length ≤ 206)
    (hk : k < (rootDirents files).length) : dirSlots m.img.get (din ROOTINO) k =
      some (strncpy DIRSIZ (rootDirents files)[k].name, (rootDirents files)[k].inum) := by
  rw [dirSlots, h.dirent hn hk, Dirent.live,
    if_neg (rootDirents_ok hn _ (List.getElem_mem hk)).2.1]

theorem tidy_root (h : Made files din m) (hn : files.length ≤ 206)
    (hnames : ((rootDirents files).map Dirent.name).Nodup)
    (hin : inodes sb V = inodes sb m.img.get)
    (hsame : ∀ n, Undisturbed m.img.get V (inodes sb m.img.get n)) :
    TidyDir (volume files.length) V ROOTINO := by
  have hlen := length_rootDirents files
  have hdin : inodes (volume files.length).sb V = din := hin.trans (h.inodes_eq hn)
  have hroot : Undisturbed m.img.get V (din ROOTINO) := by
    rw [← h.inodes_eq hn]
    exact hsame ROOTINO
  refine ⟨?_, ?_, ?_, ?_, ?_⟩ <;> rw [hdin]
  · exact hroot.isDir (h.isDir hn)
  · rw [hroot.dirSlots_eq]
    exact h.distinct hn hnames
  · rw [h.root_size]
    unfold direntCount DIRENTSIZE BSIZE
    omega
  · rw [hroot.dirSlots_eq, h.dirSlots_eq hn (by omega)]
    exact congrArg (fun l => some (l, ROOTINO)) (strncpy_strncpy DIRSIZ DOT)
  · refine ⟨ROOTINO, ?_⟩
    rw [hroot.dirSlots_eq, h.dirSlots_eq hn (by omega)]
    exact congrArg (fun l => some (l, ROOTINO)) (strncpy_strncpy DIRSIZ DOTDOT)

theorem linked (h : Made files din m) (hn : files.length ≤ 206)
    (hin : inodes sb V = inodes sb m.img.get)
    (hsame : ∀ n, Undisturbed m.img.get V (inodes sb m.img.get n)) :
    NoDangling (volume files.length) V := by
  have hdin : inodes (volume files.length).sb V = din := hin.trans (h.inodes_eq hn)
  have hroot : Undisturbed m.img.get V (din ROOTINO) := by
    rw [← h.inodes_eq hn]
    exact hsame ROOTINO
  intro n name k hc
  unfold child at hc
  rw [hdin] at hc ⊢
  split_ifs at hc with hd
  obtain rfl := h.eq_root hd
  obtain ⟨j, hj, rfl⟩ := Option.map_eq_some_iff.1 hc
  rw [hroot.dirFind_eq] at hj
  obtain ⟨hlt, x, hx⟩ := SlotMap.of_find hj
  have hjlen : j < (rootDirents files).length := by
    by_contra hge
    rw [length_rootDirents] at hge
    rw [h.root_size] at hlt
    have hfree := h.dirent_free (k := j) (by omega) (by
      rw [show MAXFILE = 268 from rfl]
      unfold direntCount DIRENTSIZE BSIZE at *
      omega)
    rw [dirSlots, dirent_live_eq_none.2 hfree] at hx
    cases hx
  rw [hroot.direntAt_eq, h.dirent hn hjlen]
  obtain ⟨h₁, h₂⟩ := rootDirents_inum _ (List.getElem_mem hjlen)
  exact h.type_ne_zero h₁ h₂

theorem booted (h : Made files din m) (hn : files.length ≤ 206)
    (hnames : ((rootDirents files).map Dirent.name).Nodup) :
    ∃ V s, BootedOn m.img s ∧ (∀ b, b ≠ sb.logstart → V b = m.img.get b) ∧
      Fs (volume files.length) (.boot (volume files.length) V) s ∧
      (inodes sb V ROOTINO).type = T_DIR ∧ (∀ n, (inodes sb V n).type = T_DIR → TidyDir (volume files.length) V n) ∧
      (∀ n, (inodes sb V n).type ≠ 0 → (inodes sb V n).nlink ≠ 0) ∧
      NoDangling (volume files.length) V := by
  obtain ⟨_, s, hs, V, hV, hin, hsame, hfs⟩ := (boot_shows (h.bootable hn)).returns
  have hdin : inodes sb V = din := Eq.trans hin (h.inodes_eq hn)
  refine ⟨V, s, hs, hV, hfs, by rw [hdin, h.root.1], fun n hd => ?_, fun n ht => ?_, h.linked hn hin hsame⟩
  · rw [hdin] at hd
    rw [h.eq_root hd]
    exact h.tidy_root hn hnames hin hsame
  · rw [hdin] at ht ⊢
    exact h.nlink_ne_zero ht

end Made

end

end Mkfs
end Xv6
