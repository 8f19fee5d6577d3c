import Xv6.Fs.MkfsImage

/-!
Inode numbers are handed out by a counter that nothing compares with `NINODES`, so the
regions of the image stay apart for as many files as there are inodes left for them.
-/

namespace Xv6
namespace Mkfs
open Hoare

/-- `m` allocates no inode. -/
def Keeps {α : Type} (m : M α) : Prop :=
  ∀ s, Post m s (fun _ t => t.freeinode = s.freeinode) fun _ _ => True

section
variable {α β : Type} {m : M α} {f : α → M β}

theorem Keeps.bind (hm : Keeps m) (hf : ∀ a, Keeps (f a)) : Keeps (m >>= f) := by
  intro s
  apply (hm s).seq
  intro a t ht
  apply (hf a t).imp
  exact fun _ _ hu => hu.trans ht

theorem keeps_pure (a : α) : Keeps (pure a : M α) := fun _ => post_pure.2 rfl

theorem keeps_throw (e : Exit) : Keeps (throw e : M α) := fun _ => post_throw.2 trivial

theorem keeps_modify {g : St → St} (h : ∀ s, (g s).freeinode = s.freeinode) :
    Keeps (modify g : M Unit) := fun s => post_modify.2 (h s)

theorem keeps_get : Keeps (get : M St) := fun _ => post_get.2 rfl

theorem Keeps.ite {c : Prop} [Decidable c] {m n : M α} (hm : Keeps m) (hn : Keeps n) :
    Keeps (if c then m else n) := by
  split_ifs
  · exact hm
  · exact hn

theorem keeps_rsect (sec : ℕ) : Keeps (rsect sec) := by
  unfold rsect
  exact (keeps_throw _).ite (keeps_get.bind fun _ => keeps_pure _)

theorem keeps_wsect (sec : ℕ) (buf : Block) : Keeps (wsect sec buf) := keeps_modify fun _ => rfl

theorem keeps_takeBlock : Keeps takeBlock := fun _ => post_takeBlock.2 rfl

theorem keeps_winode (inum : ℕ) (d : Dinode) : Keeps (winode inum d) :=
  (keeps_rsect _).bind fun _ => (keeps_wsect _ _).bind fun _ => keeps_modify fun _ => rfl

theorem keeps_rinode (inum : ℕ) : Keeps (rinode inum) :=
  (keeps_rsect _).bind fun _ => keeps_pure _

theorem keeps_blockFor (d : Dinode) (fbn : ℕ) : Keeps (blockFor d fbn) := by
  unfold blockFor
  apply Keeps.ite
  · apply Keeps.ite
    · exact keeps_takeBlock.bind fun _ => keeps_pure _
    · exact keeps_pure _
  · apply Keeps.bind
    · unfold withIndirect
      exact (keeps_takeBlock.bind fun _ => keeps_pure _).ite (keeps_pure _)
    · intro d
      apply (keeps_rsect _).bind
      intro indirect
      apply Keeps.ite
      · exact keeps_takeBlock.bind fun _ => (keeps_wsect _ _).bind fun _ => keeps_pure _
      · exact keeps_pure _

theorem keeps_iappendLoop (fuel : ℕ) (d : Dinode) (off : ℕ) (p : List UInt8) :
    Keeps (iappendLoop fuel d off p) := by
  induction fuel generalizing d off p with
  | zero => exact keeps_pure _
  | succ fuel ih =>
    unfold iappendLoop
    apply Keeps.ite (keeps_pure _)
    apply Keeps.ite (keeps_throw _)
    apply (keeps_blockFor _ _).bind
    rintro ⟨x, d⟩
    exact (keeps_rsect _).bind fun _ => (keeps_wsect _ _).bind fun _ => ih _ _ _

theorem keeps_iappend (inum : ℕ) (p : List UInt8) : Keeps (iappend inum p) :=
  (keeps_rinode _).bind fun _ => (keeps_iappendLoop _ _ _ _).bind fun _ => keeps_winode _ _

theorem keeps_appendChunks (inum : ℕ) (cs : List (List UInt8)) : Keeps (appendChunks inum cs) := by
  induction cs with
  | nil => exact keeps_pure _
  | cons c cs ih => exact (keeps_iappend _ _).bind fun _ => ih

end

theorem ialloc_freeinode (type : ℤ) (s : St) :
    Post (ialloc type) s (fun _ t => t.freeinode = s.freeinode + 1) fun _ _ => True := by
  simp only [ialloc, post_bind, post_get, post_modify, post_pure]
  exact keeps_winode s.freeinode _ { s with freeinode := s.freeinode + 1 }

theorem addFile_freeinode (rootino : ℕ) (f : Input) (s : St) :
    Post (addFile rootino f) s (fun _ t => t.freeinode = s.freeinode + 1) fun _ _ => True := by
  simp only [addFile, post_bind, post_ite, post_throw, implies_true, true_and]
  intro _
  apply (ialloc_freeinode T_FILE s).imp
  intro inum t ht
  rw [← post_bind]
  apply (((keeps_iappend _ _).bind fun _ => keeps_appendChunks _ _) t).imp
  exact fun _ _ hu => hu.trans ht

theorem addFiles_freeinode (rootino : ℕ) (files : List Input) (s : St) :
    Post (addFiles rootino files) s (fun _ t => t.freeinode = s.freeinode + files.length)
      fun _ _ => True := by
  induction files generalizing s with
  | nil => exact post_pure.2 rfl
  | cons f files ih =>
    apply (addFile_freeinode rootino f s).seq
    intro _ t ht
    apply (ih t).imp
    intro _ u hu
    rw [List.length_cons]
    omega

/-- One inode for the root directory and one for each file, however many there are. -/
theorem main_freeinode (files : List Input) :
    Post (main files) start (fun _ t => t.freeinode = files.length + 2) fun _ _ => True := by
  simp only [main, post_bind, post_wsect]
  apply (ialloc_freeinode T_DIR _).imp
  intro rootino s₁ h₁
  have hs₁ : s₁.freeinode = 2 := h₁
  simp only [post_ite, post_bind, post_throw, implies_true, true_and]
  intro _
  apply (keeps_iappend _ _ s₁).imp
  intro _ s₂ h₂
  apply (keeps_iappend _ _ s₂).imp
  intro _ s₃ h₃
  apply (addFiles_freeinode rootino files s₃).imp
  intro _ s₄ h₄
  have hend : Keeps (rinode rootino >>= fun din => do
      winode rootino { din with size := (din.size / BSIZE + 1) * BSIZE }
      balloc (← get).freeblock) := by
    apply (keeps_rinode _).bind
    intro din
    apply (keeps_winode _ _).bind
    intro _
    apply keeps_get.bind
    intro s
    unfold balloc
    exact Keeps.ite (keeps_throw _) (keeps_wsect _ _)
  have hs := (hend s₄).imp fun _ s₅ h₅ => show s₅.freeinode = files.length + 2 by
    rw [h₅, h₄, h₃, h₂, hs₁, Nat.add_comm]
  simpa only [post_bind] using hs

/-- Allocated inodes have a number below `ninodes` and a slot among the inode blocks, and
read back as `winode` last wrote them; no block past the end of the image was written. -/
def RegionsApart (s : St) : Prop :=
  (∀ inum, 1 ≤ inum → inum < s.freeinode →
    inum < sb.ninodes ∧ sb.inodestart ≤ sb.IBLOCK inum ∧ sb.IBLOCK inum < sb.bmapstart ∧
      s.inodes.get? inum = some (dinodeAt sb s.img.get inum)) ∧
  ∀ b, s.img.get? b ≠ none → b < FSSIZE

theorem Made.regionsApart {files : List Input} {din : ℕ → Dinode} {s : St}
    (h : Made files din s) (hn : files.length + 2 ≤ NINODES) : RegionsApart s := by
  have hN : NINODES = 200 := rfl
  refine ⟨fun inum h₁ hlt => ?_, h.laid.written⟩
  rw [h.next] at hlt
  have hslot : inum < ninodeblocks * IPB := by
    simp only [show ninodeblocks = 13 from rfl, show IPB = 16 from rfl]
    omega
  refine ⟨lt_of_lt_of_le hlt hn, ?_, ?_, ?_⟩
  · exact Nat.le_add_left _ _
  · simp only [Superblock.IBLOCK, show sb.bmapstart = 45 from rfl,
      show sb.inodestart = 32 from rfl, show IPB = 16 from rfl]
    omega
  · rw [h.disk inum hslot]
    exact h.last inum h₁ hlt

/-- `mkfs` keeps its regions apart exactly when there is an inode for every file. -/
theorem regions_apart_iff (files : List Input) (s : St) (h : main files start = .ok () s) :
    RegionsApart s ↔ files.length + 2 ≤ NINODES := by
  have hnext := (main_freeinode files).of_ok h
  constructor
  · intro hr
    have hlast := (hr.1 (files.length + 1) (by omega) (by omega)).1
    rw [show sb.ninodes = NINODES from rfl] at hlast
    omega
  · intro hn
    have hslots : files.length + 2 ≤ inodeSlots := le_trans hn (by decide)
    obtain ⟨din, hmade⟩ := (main_spec (E := fun _ _ => True) hslots fun _ _ _ => trivial).of_ok h
    exact hmade.regionsApart hn

/-- Any number of empty files is accepted, as long as their entries fit. -/
theorem main_replicate {n : ℕ} (hn : n + 2 ≤ inodeSlots)
    (hroot : (rootBytes (List.replicate n ⟨[97], []⟩)).length ≤ MAXFILE * BSIZE)
    (hneed : need (fun j => nblocks (bytesOf (List.replicate n ⟨[97], []⟩) j).length) ≤ FSSIZE) :
    ∃ s, main (List.replicate n ⟨[97], []⟩) start = .ok () s ∧ s.freeinode = n + 2 := by
  have hfits : Fits (List.replicate n ⟨[97], []⟩) := by
    refine ⟨hneed, fun j => ?_, fun f hf => ?_⟩
    · unfold bytesOf
      split_ifs
      · exact Nat.zero_le _
      · exact hroot
      · rw [List.getElem?_replicate]
        split_ifs <;> exact Nat.zero_le _
    · rw [List.eq_of_mem_replicate hf]
      decide
  have hlen : (List.replicate n (⟨[97], []⟩ : Input)).length = n := List.length_replicate
  obtain ⟨_, s, hm, -⟩ := (main_spec (E := fun _ _ => False) (hlen.symm ▸ hn)
    (absurd hfits)).returns
  have hnext := (main_freeinode _).of_ok hm
  rw [hlen] at hnext
  exact ⟨s, hm, hnext⟩

/-- The last number of files that leaves the regions apart. -/
theorem regions_apart_iff_allInodes : ∃ s, main (List.replicate 198 ⟨[97], []⟩) start = .ok () s ∧
    RegionsApart s := by
  obtain ⟨s, hs, -⟩ := main_replicate (n := 198) (by decide) (by decide +kernel) (by decide +kernel)
  exact ⟨s, hs, (regions_apart_iff _ s hs).2 (by rw [List.length_replicate]; decide)⟩

/-- `199` empty files get the inode numbers up to `200`, one more than `sb.ninodes` allows. -/
theorem regions_meet : ∃ s, main (List.replicate 199 ⟨[97], []⟩) start = .ok () s ∧
    ¬ RegionsApart s := by
  obtain ⟨s, hm, hnext⟩ := main_replicate (n := 199) (by decide) (by decide +kernel)
    (by decide +kernel)
  refine ⟨s, hm, fun hr => ?_⟩
  have hlast := (hr.1 200 (by decide) (by omega)).1
  exact absurd hlast (by decide)

end Mkfs
end Xv6
