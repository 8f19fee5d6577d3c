import Xv6.Fs.CrashSafety
import Xv6.Fs.RefRuns
import Xv6.Fs.InodeSteps

/-!
The boot. On a disk that holds a consistent volume and an empty log, the kernel comes up with
nothing in its tables but the root directory of the first process.
-/

namespace Xv6
open Hoare RedoLog

structure Bootable (v : Volume) (d : TMap Block) : Prop where
  super : getSuperblock (d.get 1) = v.sb
  magic : (d.get 1).getLE 0 4 = FSMAGIC
  nlog : 0 < v.sb.nlog
  clean : headerBlocks (d.get v.sb.logstart) = []
  vol : Consistent v ∅ d.get (inodes v.sb d.get)

/-- The root directory is the current directory of process `0`. -/
def Snap.boot (v : Volume) (V : ℕ → Block) : Snap where
  V := V
  D := ∅
  L := v.sb.bitmaps
  o := 0
  T := Function.update (fun _ => none) 0 (some (1, ROOTDEV, ROOTINO))
  locked := ∅
  valid := ∅
  ftable := .empty
  procs := TMap.empty.set 0 ⟨.empty, some 0⟩
  cur := 0
  umem := .empty

section
variable {v : Volume} {d : TMap Block}

theorem Snap.boot_root (v : Volume) (V : ℕ → Block) :
    (Snap.boot v V).T 0 = some (1, ROOTDEV, ROOTINO) := rfl

theorem Snap.boot_free (v : Volume) (V : ℕ → Block) {i : ℕ} (hi : i ≠ 0) :
    (Snap.boot v V).T i = none := by
  show Function.update (fun _ : ℕ => (none : Option (ℕ × ℕ × ℕ))) 0 _ i = none
  rw [Function.update_of_ne hi]

/-- The inode table after the root directory was looked up. -/
def rootTable : TMap Inode :=
  TMap.empty.set 0 ⟨zeroDinode, ROOTDEV, ROOTINO, 1, false, false⟩

theorem namei_powerOn (d : TMap Block) :
    namei [SLASH] (powerOn d) = .ok (some 0) { powerOn d with itable := rootTable } := rfl

theorem fsinit_spec (h : Bootable v d) {s : State} (hs : s.store = (powerOn d).store) :
    Post (fsinit ROOTDEV) s (fun _ t => t = { s with sb := v.sb, store := t.store } ∧ ∃ V,
      (∀ b, b ≠ v.sb.logstart → V b = d.get b) ∧ Tx v.sb.logstart v.sb.nlog ∅ ∅ V t.store ∧
      t.store.log = ⟨v.sb.logstart, v.sb.nlog, 0, false, ROOTDEV, []⟩) fun _ _ => False := by
  have hnb : ¬ NBUF ≤ ((∅ : Finset ℕ) ∪ ∅).card := by decide
  simp only [fsinit, post_bind]
  rw [post_lift, hs]
  apply (bread_spec (bio_powerOn d) (Finset.notMem_empty 1) fun hn => absurd hn hnb).imp
  rintro i t ⟨ht, hi, -, hq⟩
  have hdata : (t.bufs.get i).data = d.get 1 := ht.data i 1 hi (Set.notMem_empty 1)
  simp only [post_liftGetBuf, hdata, h.super, h.magic, post_modify, ne_eq, not_true, if_false]
  rw [post_lift]
  apply (brelse_spec ht (Finset.notMem_empty 1) hi).imp
  rintro _ u ⟨hu, -, hq'⟩
  rw [post_lift]
  simp only [initlog, post_bind, post_modifyLog]
  have hlog : u.log = ⟨0, 0, 0, false, 0, []⟩ := (hq.trans hq').log
  rw [hlog]
  have hwrites : recoverWrites headerFormat v.sb.logstart d.get =
      [(v.sb.logstart, headerFormat.record (d.get v.sb.logstart) [])] := by
    rw [recoverWrites, headerFormat_entries, h.clean]
    rfl
  apply (recoverFromLog_spec (s := u.withLog ⟨v.sb.logstart, v.sb.nlog, 0, false, ROOTDEV, []⟩)
    (hu.withLog _) rfl rfl (by simp [h.clean])
    (show _ < v.sb.nlog by simpa [h.clean] using h.nlog)).imp
  rintro _ x ⟨hx, -, hl⟩
  have hl' : x.log = ⟨v.sb.logstart, v.sb.nlog, 0, false, ROOTDEV, []⟩ := hl
  refine ⟨trivial, wr d.get (recoverWrites headerFormat v.sb.logstart d.get), fun b hb => ?_,
    ⟨?_, ?_⟩, hl'⟩
  · rw [hwrites]
    exact wr_untouched fun w hw => by
      rw [List.mem_singleton.1 hw]
      exact fun he => hb he.symm
  · rw [hl']
    exact hx
  · rw [hl']
    exact ⟨rfl, rfl, rfl, rfl, le_rfl, by simp, by simp, by simp, headerFormat.fits_nil, h.nlog⟩

theorem boot_fs (h : Bootable v d) : Post boot (powerOn d) (fun _ t => ∃ V,
    (∀ b, b ≠ v.sb.logstart → V b = d.get b) ∧ Fs v (.boot v V) t ∧ t.store.log.lh = [])
    fun _ _ => False := by
  have hnamei : Post (namei [SLASH]) (powerOn d) (fun r t => r = some 0 ∧
      t = { powerOn d with itable := rootTable }) fun _ _ => False :=
    post_of_ok (namei_powerOn d) ⟨rfl, rfl⟩
  unfold boot
  apply hnamei.seq
  rintro _ _ ⟨rfl, rfl⟩
  rw [post_bind, post_modifyProc]
  refine (fsinit_spec (s := { powerOn d with
    itable := rootTable, procs := TMap.empty.set 0 ⟨.empty, some 0⟩ }) h rfl).imp ?_
  rintro _ t ⟨ht, V, hV, htx, hlog⟩
  have hlow := h.vol.wf.log
  have hnlog := h.nlog
  have hhome : ∀ b, v.sb.inodestart ≤ b → V b = d.get b := fun b hb => hV b (by omega)
  refine ⟨V, hV, ?_, by rw [hlog]⟩
  have hentry : t.itable = rootTable := by rw [ht]
  have hget : ∀ i, i ≠ 0 → t.itable.get i = ⟨zeroDinode, 0, 0, 0, false, false⟩ := by
    intro i hi
    rw [hentry, rootTable, TMap.get_set_ne _ _ hi]
    rfl
  have hroot : t.itable.get 0 = ⟨zeroDinode, ROOTDEV, ROOTINO, 1, false, false⟩ := by
    rw [hentry, rootTable, TMap.get_set_self]
  have htab : t.tab = (Snap.boot v V).T := by
    funext i
    by_cases hi : i = 0
    · rw [hi, State.tab, hroot]
      rfl
    · rw [State.tab, hget i hi, Snap.boot_free v V hi]
      exact if_neg fun hc => hc.2 rfl
  have hT : ∀ i r n, (Snap.boot v V).T i = some (r, n) → i = 0 ∧ r ≠ 0 ∧ n = (ROOTDEV, ROOTINO) := by
    intro i r n hi
    by_cases h0 : i = 0
    · rw [h0, Snap.boot_root] at hi
      cases hi
      exact ⟨h0, Nat.one_ne_zero, rfl⟩
    · rw [Snap.boot_free v V h0] at hi
      cases hi
  refine ⟨⟨by rw [ht], htx, ?_, ?_, ?_⟩, (h.vol.relog hhome).2, subset_rfl, by rw [hlog]; rfl, ?_,
    ?_, ?_, ?_, ?_, ?_, ?_, ?_, by rw [ht]; rfl, by rw [ht]; rfl, by rw [ht]; rfl, by rw [ht]; rfl⟩
  · rw [hlog]
    exact fun b hb => absurd hb List.not_mem_nil
  · rw [hlog]
    exact Finset.empty_subset _
  · exact fun b hb => absurd hb (Set.notMem_empty b)
  · exact htab
  · exact ⟨fun i n hi => (hT i 0 n hi).2.1 rfl, fun i j r q n hi hj => by
      rw [(hT i r n hi).1, (hT j q n hj).1]⟩
  · intro i r n hi
    rw [(hT i r n hi).2.2]
    exact ⟨rfl, h.vol.wf.root⟩
  · intro i _
    by_cases hi : i = 0
    · rw [hi, hroot]
      exact ⟨fun hc => absurd hc Bool.false_ne_true, fun hm => absurd hm (Set.notMem_empty 0)⟩
    · rw [hget i hi]
      exact ⟨fun hc => absurd hc Bool.false_ne_true, fun hm => absurd hm (Set.notMem_empty i)⟩
  · exact fun i hm => absurd hm (Set.notMem_empty i)
  · intro i _
    by_cases hi : i = 0
    · rw [hi, hroot]
      exact ⟨fun hc => absurd hc Bool.false_ne_true, fun hm => absurd hm (Set.notMem_empty 0)⟩
    · rw [hget i hi]
      exact ⟨fun hc => absurd hc Bool.false_ne_true, fun hm => absurd hm (Set.notMem_empty i)⟩
  · exact fun i hm => absurd hm (Set.notMem_empty i)
  · exact fun i _ _ hm => absurd hm (Set.notMem_empty i)

end

end Xv6
