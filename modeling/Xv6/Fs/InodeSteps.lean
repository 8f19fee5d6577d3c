import Xv6.Fs.FileSystem

/-!
Reading inodes of a file system, and its blocks between two operations.
-/

namespace Xv6
open Hoare RefTable

section
variable {v : Volume} {a : Snap} {s t : State} {ip i j n m : ℕ} {w w' : Work} {E : Fault → Prop}
  {d : Dinode}

/-- The files are where they were. -/
theorem Consistent.relog_undisturbed {D : Set ℕ} {V W : ℕ → Block}
    (h : Consistent v D V (inodes v.sb V)) (hW : ∀ b, v.sb.inodestart ≤ b → W b = V b) (n : ℕ) :
    Undisturbed V W (inodes v.sb V n) := by
  have hilt := h.wf.inodestart_lt
  have hbm := h.wf.bmapstart_le
  exact h.undisturbed fun c hc _ _ => hW c (by omega)

theorem Consistent.relog {D : Set ℕ} {V W : ℕ → Block} (h : Consistent v D V (inodes v.sb V))
    (hW : ∀ b, v.sb.inodestart ≤ b → W b = V b) :
    inodes v.sb W = inodes v.sb V ∧ Consistent v D W (inodes v.sb W) := by
  have hbm := h.wf.bmapstart_le
  have hilt := h.wf.inodestart_lt
  have hinodes : inodes v.sb W = inodes v.sb V := inodes_congr fun c hc _ => hW c hc
  rw [hinodes]
  refine ⟨rfl, h.congr subset_rfl (fun c hc => used_congr (hW _ ?_)) fun m σ => ?_⟩
  · have := h.wf.bitmaps_range (Superblock.BBLOCK_mem hc)
    omega
  · exact (h.relog_undisturbed hW m σ).1

namespace Fs

theorem withUmem (h : Fs v a s) (um : UserMem) :
    Fs v { a with umem := um } { s with umem := um } :=
  ⟨h.view.congr rfl rfl, h.vol, h.bitmaps, h.ops, h.tab, h.table, h.names, h.locked,
    h.locked_use, h.valid, h.valid_use, h.copy, h.ftable, h.procs, h.cur, rfl⟩

theorem not_holed {off len : ℕ} (h : Fs v a s) (hi : a.Has ip n) (hv : ip ∈ a.valid)
    (hh : n ∉ v.holey) (hle : off + len ≤ (inodes v.sb a.V n).size) :
    ¬ Holed (a.work v n) off len := by
  rintro ⟨x, -, hx, h0⟩
  exact h.vol.solid n hh (h.copy ip n hi hv).2 _ (lt_nblocks (by omega)) h0

theorem not_holed_read {off N : ℕ} (h : Fs v a s) (hi : a.Has ip n) (hv : ip ∈ a.valid)
    (hh : n ∉ v.holey) : ¬ Holed (a.work v n) off (readLen (inodes v.sb a.V n).size off N) := by
  rintro ⟨x, hlo, hx, h0⟩
  have hlt : x < (inodes v.sb a.V n).size := by
    unfold readLen at hx
    split_ifs at hx <;> omega
  exact h.vol.solid n hh (h.copy ip n hi hv).2 _ (lt_nblocks hlt) h0

theorem readi_fs {off N : ℕ} {dst : Dst} (h : Fs v a s) (hi : a.Has ip n) (hv : ip ∈ a.valid)
    (hh : ¬ Holed (a.work v n) off (readLen (inodes v.sb a.V n).size off N))
    (hB : Buffers v.sb E a.L.card) :
    Post (readi ip dst off N) s (fun r t => Fs v { a with umem := t.umem } t ∧
      ∀ l, dst = .kernel l → t.umem = a.umem ∧
        ((∀ k, blockOf a.V (inodes v.sb a.V n) k ∉ a.D) →
          r = (some (readLen (inodes v.sb a.V n).size off N),
            .kernel (l ++ readBytes a.V (inodes v.sb a.V n) off
              (readLen (inodes v.sb a.V n).size off N))))) fun f _ => E f := by
  apply (readi_spec (h.editing hi hv) hB (.inl hh)).imp
  rintro r t ⟨w, hE, hed, -, hsame, hk⟩
  obtain rfl := hsame hh
  refine ⟨(h.withUmem t.umem).edited (a := { a with umem := t.umem }) hE hed, fun l hl => ?_⟩
  obtain ⟨hum, hr⟩ := hk l hl
  exact ⟨hum.trans h.umem, hr⟩

/-! Operations of the log. -/

theorem lh_nil (h : Fs v a s) (ho : a.o = 0) : s.store.log.lh = [] := by
  by_contra hne
  have := h.view.tx.log.in_trans hne
  rw [h.ops, ho] at this
  omega

theorem disk (h : Fs v a s) (hlh : s.store.log.lh = []) (b : ℕ) : s.store.disk.get b = a.V b := by
  by_cases hb : b ∈ a.D
  · exact h.view.old b hb
  · apply h.view.tx.bio.clean b _ hb
    rw [hlh]
    exact List.not_mem_nil ∘ List.mem_toFinset.1

end Fs

end

end Xv6
