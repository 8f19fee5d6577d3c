import Xv6.Fs.Volume

/-!
The block map of an inode. While `bmap` gives blocks to an inode, its copy in memory is
ahead of the inode blocks; `Editing` is what holds then. A hole reads as zeros, and so does
the block that takes its place: `bmap` changes the contents of no file.
-/

namespace Xv6
open Hoare

/-- What is seen while an inode is worked on: the blocks, those that are dirty, those that
may be in the log, and the copy of the inode. -/
structure Work where
  V : ℕ → Block
  D : Set ℕ
  L : Finset ℕ
  d : Dinode

/-- Entry `ip` holds inode `n`, whose copy in memory is `w.d`. -/
structure Editing (v : Volume) (ip n : ℕ) (w : Work) (s : State) : Prop where
  view : View v.sb w.D ∅ w.L w.V s
  vol : Consistent v w.D w.V (Function.update (inodes v.sb w.V) n w.d)
  dev : (s.itable.get ip).dev = ROOTDEV
  inum : (s.itable.get ip).inum = n
  copy : (s.itable.get ip).toDinode = w.d
  lt : n < v.sb.inodeCount
  type : w.d.type ≠ 0
  bitmaps : v.sb.bitmaps ⊆ w.L

/-- From `s` to `t` only blocks and the copy in entry `ip` changed. -/
structure Edited (ip : ℕ) (s t : State) : Prop where
  sb : t.sb = s.sb
  ftable : t.ftable = s.ftable
  procs : t.procs = s.procs
  cur : t.cur = s.cur
  umem : t.umem = s.umem
  others : ∀ j, j ≠ ip → t.itable.get j = s.itable.get j
  entry : t.itable.get ip = { s.itable.get ip with toDinode := (t.itable.get ip).toDinode }
  outstanding : t.store.log.outstanding = s.store.log.outstanding
  disk : t.store.disk = s.store.disk
  writes : t.store.writes = s.store.writes

/-- The contents of all files are the same in `w` and `w'`, where inode `n` may have more
blocks. -/
structure Grown (v : Volume) (n : ℕ) (w w' : Work) : Prop where
  head : SameHead w.d w'.d
  data : ∀ k, dataOf w'.V w'.d k = dataOf w.V w.d k
  mapped : ∀ k, blockOf w.V w.d k ≠ 0 → blockOf w'.V w'.d k = blockOf w.V w.d k
  others : ∀ m, m ≠ n → Undisturbed w.V w'.V (inodes v.sb w.V m)
  inodes : inodes v.sb w'.V = inodes v.sb w.V
  dirty : w'.D ⊆ w.D
  fresh : ∀ k, blockOf w'.V w'.d k ∈ w'.D → blockOf w'.V w'.d k = blockOf w.V w.d k
  logged : w.L ⊆ w'.L

section
variable {v : Volume} {ip n k : ℕ} {w w' w'' : Work} {s t u : State} {E : Fault → Prop}

theorem Edited.of_frame (h : Frame s t) : Edited ip s t := by
  refine ⟨?_, ?_, ?_, ?_, h.umem, ?_, ?_, h.outstanding, h.disk, h.writes⟩
  iterate 4 rw [h.store]
  · intro j _
    rw [h.itable]
  · rw [h.itable]

theorem Edited.refl (ip : ℕ) (s : State) : Edited ip s s := .of_frame (.refl s)

theorem Edited.trans (h₁ : Edited ip s t) (h₂ : Edited ip t u) : Edited ip s u := by
  refine ⟨h₂.sb.trans h₁.sb, h₂.ftable.trans h₁.ftable, h₂.procs.trans h₁.procs,
    h₂.cur.trans h₁.cur, h₂.umem.trans h₁.umem, fun j hj => (h₂.others j hj).trans (h₁.others j hj), ?_,
    h₂.outstanding.trans h₁.outstanding, h₂.disk.trans h₁.disk, h₂.writes.trans h₁.writes⟩
  rw [h₂.entry, h₁.entry]

theorem Edited.copy (s : State) (ip : ℕ) (d : Dinode) :
    Edited ip s { s with itable := s.itable.set ip { s.itable.get ip with toDinode := d } } := by
  refine ⟨rfl, rfl, rfl, rfl, rfl, fun j hj => TMap.get_set_ne _ _ hj, ?_, rfl, rfl, rfl⟩
  simp only [TMap.get_set_self]

theorem Grown.refl (v : Volume) (n : ℕ) (w : Work) : Grown v n w w :=
  ⟨.refl _, fun _ => rfl, fun _ _ => rfl, fun _ _ => .refl _ _, rfl, subset_rfl, fun _ _ => rfl,
    subset_rfl⟩

theorem Grown.trans (h₁ : Grown v n w w') (h₂ : Grown v n w' w'') : Grown v n w w'' := by
  refine ⟨h₁.head.trans h₂.head, fun k => (h₂.data k).trans (h₁.data k), fun k h0 => ?_,
    fun m hm => (h₁.others m hm).trans ?_, h₂.inodes.trans h₁.inodes, h₂.dirty.trans h₁.dirty,
    fun k hk => ?_, h₁.logged.trans h₂.logged⟩
  · have he := h₁.mapped k h0
    rw [h₂.mapped k (by rwa [he]), he]
  · have := h₂.others m hm
    rwa [h₁.inodes] at this
  · have he := h₂.fresh k hk
    rw [he] at hk ⊢
    exact h₁.fresh k (h₂.dirty hk)

theorem Editing.frame (h : Editing v ip n w s) (hf : Frame s t) {V : ℕ → Block} {D : Set ℕ}
    {L : Finset ℕ} (hview : View v.sb D ∅ L V t) (hL : w.L ⊆ L)
    (hvol : Consistent v D V (Function.update (Xv6.inodes v.sb V) n w.d)) :
    Editing v ip n ⟨V, D, L, w.d⟩ t := by
  refine ⟨hview, hvol, ?_, ?_, ?_, h.lt, h.type, h.bitmaps.trans hL⟩
  · rw [hf.itable]
    exact h.dev
  · rw [hf.itable]
    exact h.inum
  · rw [hf.itable]
    exact h.copy

theorem Editing.keep (h : Editing v ip n w s) (hf : Frame s t)
    (hview : View v.sb w.D ∅ w.L w.V t) : Editing v ip n w t :=
  h.frame hf hview subset_rfl h.vol

theorem Consistent.mapOk {D : Set ℕ} {V : ℕ → Block} {din : ℕ → Dinode}
    (h : Consistent v D V din) {L : Finset ℕ} (hL : v.sb.bitmaps ⊆ L) {H : Finset ℕ}
    (hH : H.card ≤ 1) (hmem : ∀ b ∈ H, b ∈ dataUsed v.sb V) : MapOk v.sb D H L V where
  wf := h.wf
  reserved := h.reserved
  clean b hb hD := by
    have := (h.wf.bitmaps_range hb).2
    have := (h.dirty b hD).1
    omega
  logged := hL
  held := hH
  used b hb := (hmem b hb).2
  data b hb := (hmem b hb).1

theorem inodes_allocated {sb : Superblock} (hsb : sb.WellFormed) {V : ℕ → Block} {b : ℕ}
    (h₁ : sb.dataStart ≤ b) (h₂ : b < sb.size) : inodes sb (allocated sb V b) = inodes sb V := by
  apply inodes_congr
  intro c _ hc
  have := hsb.bmapstart_le
  have := hsb.bitmaps_range (Superblock.BBLOCK_mem h₂)
  exact allocated_of_ne (by omega) (by omega)

theorem inodes_update {sb : Superblock} (hsb : sb.WellFormed) {V : ℕ → Block} {b : ℕ} {x : Block}
    (hb : sb.dataStart ≤ b) : inodes sb (Function.update V b x) = inodes sb V := by
  apply inodes_congr
  intro c _ hc
  have := hsb.bmapstart_le
  exact Function.update_of_ne (by omega) _ _

theorem used_update {sb : Superblock} (hsb : sb.WellFormed) {V : ℕ → Block} {b c : ℕ} {x : Block}
    (hb : sb.dataStart ≤ b) (hc : c < sb.size) :
    used sb (Function.update V b x) c ↔ used sb V c := by
  apply used_congr
  have := hsb.bitmaps_range (Superblock.BBLOCK_mem hc)
  exact Function.update_of_ne (by omega) _ _

theorem dataOf_fill {V W : ℕ → Block} {d e : Dinode} {σ b : ℕ} (hz : slot V d σ = 0)
    (hs : ∀ τ, slot W e τ = if τ = σ then b else slot V d τ)
    (hW : ∀ τ, τ ≠ NDIRECT → slot V d τ ≠ 0 → W (slot V d τ) = V (slot V d τ))
    (hb : σ ≠ NDIRECT → W b = .empty) (k : ℕ) : dataOf W e k = dataOf V d k := by
  by_cases hk : slotOf k = σ
  · have hV : blockOf V d k = 0 := by rw [blockOf, hk, hz]
    have hW' : blockOf W e k = b := by rw [blockOf, hs, if_pos hk]
    rw [dataOf, dataOf, hV, hW', if_pos rfl, hb (hk ▸ slotOf_ne k)]
    exact ite_self _
  · apply dataOf_congr
    · rw [blockOf, hs, if_neg hk]
      rfl
    · exact hW _ (slotOf_ne k)

/-- The new block of an inode: its slot `σ`, which was empty, has `b`. -/
theorem Editing.fill (h : Editing v ip n w s) {V : ℕ → Block} {L : Finset ℕ} {e : Dinode}
    {σ b : ℕ} (h₁ : v.sb.dataStart ≤ b) (h₂ : b < v.sb.size) (hb : ¬ used v.sb w.V b)
    (hz : slot w.V w.d σ = 0) (hu : ∀ c < v.sb.size, used v.sb V c ↔ used v.sb w.V c ∨ c = b)
    (hi : inodes v.sb V = inodes v.sb w.V)
    (hs : ∀ τ, slot V e τ = if τ = σ then b else slot w.V w.d τ)
    (hd : ∀ τ, τ ≠ NDIRECT → slot w.V w.d τ ≠ 0 → V (slot w.V w.d τ) = w.V (slot w.V w.d τ))
    (hm : ∀ m, m ≠ n → Undisturbed w.V V (inodes v.sb w.V m))
    (he : σ ≠ NDIRECT → V b = .empty) (hhead : SameHead w.d e) (hok : e.Ok) (hL : w.L ⊆ L)
    (hview : View v.sb (w.D \ {b}) ∅ L V t) (hedit : Edited ip s t)
    (hcopy : (t.itable.get ip).toDinode = e) :
    Editing v ip n ⟨V, w.D \ {b}, L, e⟩ t ∧ Grown v n w ⟨V, w.D \ {b}, L, e⟩ := by
  have hself : Function.update (inodes v.sb w.V) n w.d n = w.d := Function.update_self ..
  have hvol := h.vol.fill (n := n) (σ := σ) (d := e) (W := V) h₁ h₂ hb (by rwa [hself]) hu
    (by rwa [hself]) (fun m hmn τ => by
      rw [Function.update_of_ne hmn]
      exact (hm m hmn τ).1) (by rwa [hself]) hok (by rw [hself]; exact h.type)
  rw [Function.update_idem] at hvol
  refine ⟨⟨hview, ?_, ?_, ?_, hcopy, h.lt, ?_, h.bitmaps.trans hL⟩, hhead, ?_, ?_, hm, hi,
    Set.sdiff_subset, ?_, hL⟩
  · rw [hi]
    exact hvol
  · rw [hedit.entry]
    exact h.dev
  · rw [hedit.entry]
    exact h.inum
  · rw [hhead.1]
    exact h.type
  · exact dataOf_fill hz hs hd he
  · intro k h0
    rw [blockOf, hs, if_neg]
    · rfl
    · intro hk
      rw [blockOf, hk] at h0
      exact h0 hz
  · rintro k ⟨-, hne⟩
    rw [blockOf, hs] at hne ⊢
    split_ifs at hne ⊢
    · exact absurd rfl hne
    · rfl

theorem Editing.slot_range (h : Editing v ip n w s) {σ : ℕ} (h0 : slot w.V w.d σ ≠ 0) :
    v.sb.dataStart ≤ slot w.V w.d σ ∧ slot w.V w.d σ < v.sb.size ∧
      used v.sb w.V (slot w.V w.d σ) := by
  have := h.vol.slot_range (n := n) (σ := σ)
  rw [Function.update_self] at this
  exact this h0

theorem Editing.indirect_clean (h : Editing v ip n w s) : slot w.V w.d NDIRECT ∉ w.D := by
  intro hm
  have := h.vol.dirty_slot n NDIRECT
  rw [Function.update_self] at this
  exact (this hm).1 rfl

theorem Editing.ok (h : Editing v ip n w s) : w.d.Ok := by
  have := h.vol.ok n
  rwa [Function.update_self] at this

theorem Editing.undisturbed_allocated (h : Editing v ip n w s) {b : ℕ}
    (hb : ¬ used v.sb w.V b) (h₂ : b < v.sb.size) :
    Undisturbed w.V (allocated v.sb w.V b) w.d := by
  have := h.vol.undisturbed_allocated (n := n) hb h₂
  rwa [Function.update_self] at this

theorem Editing.others_allocated (h : Editing v ip n w s) {b : ℕ}
    (hb : ¬ used v.sb w.V b) (h₂ : b < v.sb.size) (m : ℕ) (hm : m ≠ n) :
    Undisturbed w.V (allocated v.sb w.V b) (inodes v.sb w.V m) := by
  have := h.vol.undisturbed_allocated (n := m) hb h₂
  rwa [Function.update_of_ne hm] at this

theorem ok_setAddr {d : Dinode} (h : d.Ok) {σ b : ℕ} (hb : b < 2 ^ 32) :
    Dinode.Ok { d with addrs := d.addrs.set σ b } where
  type := h.type
  major := h.major
  minor := h.minor
  nlink := h.nlink
  size := h.size
  length := by rw [List.length_set]; exact h.length
  addrs a ha := by
    rcases List.mem_or_eq_of_mem_set ha with ha | rfl
    · exact h.addrs a ha
    · exact hb

theorem Editing.allocAddr (h : Editing v ip n w s) {σ : ℕ} (hσ : σ ≤ NDIRECT)
    (hz : slot w.V w.d σ = 0) (hR : Room v.sb E w.L.card s.store.log.outstanding)
    (hN : freeBlocks v.sb w.V = ∅ → E (.panic .ballocOutOfBlocks)) :
    Post (do
      let addr ← balloc ROOTDEV
      modifyInode ip fun n => { n with addrs := n.addrs.set σ addr }
      return addr : K ℕ) s (fun b t => ∃ w', Editing v ip n w' t ∧ Edited ip s t ∧
        Grown v n w w' ∧ b = slot w'.V w'.d σ ∧ b ≠ 0 ∧ w'.L = insert b w.L ∧
        (freeBlocks v.sb w.V).card ≤ (freeBlocks v.sb w'.V).card + 1) fun f _ => E f := by
  have hwf := h.vol.wf
  rw [post_bind]
  apply (balloc_view (h.vol.mapOk h.bitmaps (by simp) (by simp)) hR h.view hN).imp
  rintro b t ⟨h₁, h₂, hb, ht, hf, -⟩
  have hb0 : b ≠ 0 := by
    have := hwf.dataStart_pos
    omega
  have h32 : b < 2 ^ 32 := lt_trans h₂ hwf.size
  have hlen := h.ok.length
  have hU := h.undisturbed_allocated hb h₂
  have hcopy : (t.itable.get ip).toDinode = w.d := by
    rw [hf.itable]
    exact h.copy
  have hs : ∀ τ, slot (allocated v.sb w.V b) { w.d with addrs := w.d.addrs.set σ b } τ =
      if τ = σ then b else slot w.V w.d τ := by
    intro τ
    rw [← (hU τ).1]
    rcases Nat.lt_or_eq_of_le hσ with hlt | rfl
    · exact slot_setDirect hlen hlt
    · apply slot_setIndirect hlen
      · rw [(hU _).1, hz]
      · intro j
        rw [allocated_self, getWord_empty]
  simp only [post_bind, post_modifyInode, post_pure]
  have hedit := (Edited.of_frame hf).trans (Edited.copy t ip
    { w.d with addrs := w.d.addrs.set σ b })
  have hnode : ({ t.itable.get ip with addrs := (t.itable.get ip).addrs.set σ b } : Inode) =
      { t.itable.get ip with toDinode := { w.d with addrs := w.d.addrs.set σ b } } := by
    rw [← hcopy]
  rw [hnode]
  obtain ⟨hE, hG⟩ := h.fill (V := allocated v.sb w.V b) (L := insert b w.L)
    (e := { w.d with addrs := w.d.addrs.set σ b }) (t := { t with
      itable := t.itable.set ip
        { t.itable.get ip with toDinode := { w.d with addrs := w.d.addrs.set σ b } } })
    h₁ h₂ hb hz
    (fun c hc => used_allocated hwf h₁ hc) (inodes_allocated hwf h₁ h₂) hs
    (fun τ _ => (hU τ).2) (h.others_allocated hb h₂) (fun _ => allocated_self)
    ⟨rfl, rfl, rfl, rfl, rfl⟩ (ok_setAddr h.ok h32) (Finset.subset_insert b w.L)
    (ht.congr rfl rfl) hedit (by simp only [TMap.get_set_self])
  refine ⟨_, hE, hedit, hG, ?_, hb0, rfl, ?_⟩
  · rw [hs, if_pos rfl]
  · rw [freeBlocks_allocated hwf h₁]
    exact Nat.le_succ_of_pred_le Finset.pred_card_le_card_erase

theorem bmapIndirect_spec (h : Editing v ip n w s)
    (hN : slot w.V w.d NDIRECT = 0 → Room v.sb E w.L.card s.store.log.outstanding ∧
      (freeBlocks v.sb w.V = ∅ → E (.panic .ballocOutOfBlocks))) :
    Post (bmapIndirect ip) s (fun b t => ∃ w', Editing v ip n w' t ∧ Edited ip s t ∧
      Grown v n w w' ∧ b = slot w'.V w'.d NDIRECT ∧ b ≠ 0 ∧
      (slot w.V w.d NDIRECT ≠ 0 → w' = w) ∧ w'.L ⊆ insert b w.L ∧
      (freeBlocks v.sb w.V).card ≤ (freeBlocks v.sb w'.V).card + 1) fun f _ => E f := by
  have hslot : slot w.V w.d NDIRECT = (s.itable.get ip).addrs.getD NDIRECT 0 := by
    rw [slot_direct le_rfl, ← h.copy]
  simp only [bmapIndirect, post_bind, post_getInode, ← hslot, h.dev]
  split_ifs with h0
  · apply (h.allocAddr le_rfl h0 (hN h0).1 (hN h0).2).imp
    rintro b t ⟨w', ht, hf, hg, hb, hb0, hL, hfree⟩
    exact ⟨w', ht, hf, hg, hb, hb0, fun hne => absurd h0 hne, hL.subset, hfree⟩
  · refine post_pure.2 ⟨w, h, .refl ip s, .refl v n w, rfl, h0, fun _ => rfl, ?_, by omega⟩
    exact Finset.subset_insert _ _

theorem Editing.allocEntry (h : Editing v ip n w s) {σ j i b : ℕ} (hj : j < NINDIRECT)
    (hσ : σ = NDIRECT + 1 + j) (hind : slot w.V w.d NDIRECT ≠ 0) (hz : slot w.V w.d σ = 0)
    (h₁ : v.sb.dataStart ≤ b) (h₂ : b < v.sb.size) (hb : ¬ used v.sb w.V b)
    (hR : Room v.sb E (w.L.card + 1) t.store.log.outstanding) (hf : Frame s t)
    (ht : View v.sb (w.D \ {b}) (insert (slot w.V w.d NDIRECT) ∅) (insert b w.L)
      (allocated v.sb w.V b) t) (hi : t.store.Caches i (slot w.V w.d NDIRECT))
    {Q : Unit → State → Prop} (hQ : ∀ w' u, Editing v ip n w' u → Edited ip s u →
      Grown v n w w' → slot w'.V w'.d σ = b → w'.L = insert (slot w.V w.d NDIRECT) (insert b w.L) →
      freeBlocks v.sb w'.V = (freeBlocks v.sb w.V).erase b → Q () u) :
    Post (do
      setData i (putWord (← getBuf i).data j b)
      logWrite i
      brelse i : K Unit) t Q fun f _ => E f := by
  have hwf := h.vol.wf
  have hbm := hwf.bmapstart_le
  have hil := hwf.inodestart_lt
  have h32 := hwf.size
  obtain ⟨hr₁, hr₂, hr₃⟩ := h.slot_range hind
  have hU := h.undisturbed_allocated hb h₂
  have hindD := h.indirect_clean
  have hdata : (t.store.bufs.get i).data = w.V (slot w.V w.d NDIRECT) := by
    rw [ht.data hi fun hm => hindD hm.1]
    exact (hU NDIRECT).2 hind
  simp only [post_bind, post_liftGetBuf, hdata]
  have hcard : (insert b w.L).card ≤ w.L.card + 1 := Finset.card_insert_le b w.L
  apply logged_view hwf (hR.mono hcard) ht (Finset.notMem_empty _) hi (by omega) (by omega)
  intro u hu hf' _
  have hD : (w.D \ {b}) \ {slot w.V w.d NDIRECT} = w.D \ {b} :=
    Set.sdiff_singleton_eq_self fun hm => hindD hm.1
  rw [hD] at hu
  have hnb : slot w.V w.d NDIRECT ≠ b := by
    intro he
    exact hb (he ▸ hr₃)
  have hbits : ∀ c < v.sb.size, used v.sb (Function.update (allocated v.sb w.V b)
      (slot w.V w.d NDIRECT) (putWord (w.V (slot w.V w.d NDIRECT)) j b)) c ↔
      used v.sb w.V c ∨ c = b := fun c hc =>
    (used_update hwf hr₁ hc).trans (used_allocated hwf h₁ hc)
  have hslots : ∀ τ, slot (Function.update (allocated v.sb w.V b) (slot w.V w.d NDIRECT)
      (putWord (w.V (slot w.V w.d NDIRECT)) j b)) w.d τ = if τ = σ then b else slot w.V w.d τ := by
    intro τ
    rw [hσ]
    apply slot_putWord hj hind (lt_trans h₂ hwf.size)
    exact Function.update_self ..
  have hself : Function.update (inodes v.sb w.V) n w.d n = w.d := Function.update_self ..
  have hedit : Edited ip s u := .of_frame (hf.trans hf')
  obtain ⟨hE, hG⟩ := h.fill (t := u) h₁ h₂ hb hz hbits
    ((inodes_update hwf hr₁).trans (inodes_allocated hwf h₁ h₂)) hslots
    (fun τ hτ h0 => by
      rw [Function.update_of_ne]
      · exact (hU τ).2 h0
      · intro he
        have := h.vol.slot_inj (n := n) (m := n) (σ := τ) (τ := NDIRECT)
        rw [hself] at this
        exact hτ (this h0 he).2)
    (fun m hm => by
      apply (h.others_allocated hb h₂ m hm).trans
      apply undisturbed_of
      intro τ h0
      rw [Function.update_of_ne]
      intro he
      have hτ := (h.others_allocated hb h₂ m hm τ).1
      rw [hτ] at h0 he
      have := h.vol.slot_inj (n := m) (m := n) (σ := τ) (τ := NDIRECT)
      rw [hself, Function.update_of_ne hm] at this
      exact hm (this h0 he).1)
    (fun _ => by rw [Function.update_of_ne hnb.symm, allocated_self]) (.refl _) h.ok
    ((Finset.subset_insert b w.L).trans (Finset.subset_insert _ _)) hu hedit
    (by rw [hf'.itable, hf.itable]; exact h.copy)
  refine hQ _ u hE hedit hG ?_ rfl ?_
  · rw [hslots, if_pos rfl]
  · rw [← freeBlocks_allocated hwf h₁]
    ext c
    rw [mem_freeBlocks, mem_freeBlocks]
    exact and_congr_right fun hc => not_congr (used_update hwf hr₁ hc)

/-- A new block for a file block that the indirect block, whose buffer `i` is held, lacks. -/
theorem Editing.fillHole (h : Editing v ip n w s) {i : ℕ} (hk : k < MAXFILE) (hlt : ¬ k < NDIRECT)
    (hind : slot w.V w.d NDIRECT ≠ 0) (h0 : blockOf w.V w.d k = 0) (hf : Frame s t)
    (ht : View v.sb w.D (insert (slot w.V w.d NDIRECT) ∅) w.L w.V t)
    (hi : t.store.Caches i (slot w.V w.d NDIRECT))
    (hR : Room v.sb E (w.L.card + 1) s.store.log.outstanding)
    (hN : freeBlocks v.sb w.V = ∅ → E (.panic .ballocOutOfBlocks)) :
    Post (do
      let addr ← balloc ROOTDEV
      setData i (putWord (← getBuf i).data (k - NDIRECT) addr)
      logWrite i
      brelse i
      return addr : K ℕ) t (fun b u => ∃ w', Editing v ip n w' u ∧ Edited ip s u ∧
        Grown v n w w' ∧ b = blockOf w'.V w'.d k ∧ b ≠ 0 ∧
        w'.L = insert (slot w.V w.d NDIRECT) (insert b w.L) ∧
        (freeBlocks v.sb w.V).card ≤ (freeBlocks v.sb w'.V).card + 1) fun f _ => E f := by
  have hj : k - NDIRECT < NINDIRECT := by
    unfold MAXFILE at hk
    omega
  have hσ : slotOf k = NDIRECT + 1 + (k - NDIRECT) := by
    rw [slotOf, if_neg hlt]
    omega
  have hmap : MapOk v.sb w.D (insert (slot w.V w.d NDIRECT) ∅) w.L w.V := by
    apply h.vol.mapOk h.bitmaps
    · simp
    · intro b hb
      rw [Finset.mem_insert, or_iff_left (Finset.notMem_empty b)] at hb
      rw [hb]
      exact h.slot_range hind
  rw [post_bind]
  apply (balloc_view hmap (by rw [hf.outstanding]; exact hR.mono (by omega)) ht hN).imp
  rintro b u ⟨hb₁, hb₂, hb, hu, hf', hst⟩
  have hent := h.allocEntry (t := u) (E := E) (Q := fun _ y => ∃ w', Editing v ip n w' y ∧
      Edited ip s y ∧ Grown v n w w' ∧ b = blockOf w'.V w'.d k ∧ b ≠ 0 ∧
      w'.L = insert (slot w.V w.d NDIRECT) (insert b w.L) ∧
      (freeBlocks v.sb w.V).card ≤ (freeBlocks v.sb w'.V).card + 1) hj hσ hind h0 hb₁ hb₂ hb
    (by rwa [hf'.outstanding, hf.outstanding]) (hf.trans hf') hu
    (hst i _ (Finset.mem_insert_self _ _) hi) ?_
  · simpa only [post_bind, post_pure] using hent
  · intro w' y hy hfy hgy hby hLy hfree
    refine ⟨w', hy, hfy, hgy, hby.symm, ?_, hLy, ?_⟩
    · have := h.vol.wf.dataStart_pos
      omega
    · have := Finset.pred_card_le_card_erase (s := freeBlocks v.sb w.V) (a := b)
      rw [hfree]
      omega

/-- What `bmap` leaves when it returns `b` for file block `k`. -/
def BmapDone (v : Volume) (ip n k : ℕ) (w : Work) (s : State) (b : ℕ) (t : State) : Prop :=
  ∃ w', Editing v ip n w' t ∧ Edited ip s t ∧
    Grown v n w w' ∧ b = blockOf w'.V w'.d k ∧ b ≠ 0 ∧ (blockOf w.V w.d k ≠ 0 → w' = w) ∧
    (insert b w'.L).card ≤ w.L.card + 2 ∧
    (freeBlocks v.sb w.V).card ≤ (freeBlocks v.sb w'.V).card + 2

theorem bmap_direct (h : Editing v ip n w s) (hlt : k < NDIRECT)
    (hN : blockOf w.V w.d k = 0 → Room v.sb E (w.L.card + 2) s.store.log.outstanding ∧
      ((freeBlocks v.sb w.V).card < 2 → E (.panic .ballocOutOfBlocks))) :
    Post (bmap ip k) s (BmapDone v ip n k w s) fun f _ => E f := by
  have hslot : slotOf k = k := if_pos hlt
  have hblock : blockOf w.V w.d k = (s.itable.get ip).addrs.getD k 0 := by
    rw [blockOf, hslot, slot_direct hlt.le, ← h.copy]
  simp only [bmap, post_bind, post_getInode, h.dev]
  rw [if_pos hlt, ← hblock]
  split_ifs with h0
  · have hz : slot w.V w.d k = 0 := by rwa [blockOf, hslot] at h0
    apply (h.allocAddr hlt.le hz ((hN h0).1.mono (by omega)) fun he =>
      (hN h0).2 (by rw [he, Finset.card_empty]; omega)).imp
    rintro b t ⟨w', ht, hf, hg, hb, hb0, hL, hfree⟩
    refine ⟨w', ht, hf, hg, ?_, hb0, fun hne => absurd h0 hne, ?_, by omega⟩
    · rw [blockOf, hslot, hb]
    · rw [hL, Finset.insert_idem]
      exact le_trans (Finset.card_insert_le _ _) (by omega)
  · exact post_pure.2 ⟨w, h, .refl ip s, .refl v n w, rfl, h0, fun _ => rfl,
      le_trans (Finset.card_insert_le _ _) (by omega), by omega⟩

theorem card_logged_le {L L₁ : Finset ℕ} {b ind : ℕ} (h : L₁ ⊆ insert ind L) :
    (insert b (insert ind (insert b L₁))).card ≤ L.card + 2 := by
  have hsub : insert b (insert ind (insert b L₁)) ⊆ insert b (insert ind L) := by
    intro c hc
    rcases Finset.mem_insert.1 hc with rfl | hc
    · exact Finset.mem_insert_self _ _
    rcases Finset.mem_insert.1 hc with rfl | hc
    · exact Finset.mem_insert_of_mem (Finset.mem_insert_self _ _)
    rcases Finset.mem_insert.1 hc with rfl | hc
    · exact Finset.mem_insert_self _ _
    · exact Finset.mem_insert_of_mem (h hc)
  calc (insert b (insert ind (insert b L₁))).card
      ≤ (insert b (insert ind L)).card := Finset.card_le_card hsub
    _ ≤ (insert ind L).card + 1 := Finset.card_insert_le b _
    _ ≤ L.card + 2 := Nat.succ_le_succ (Finset.card_insert_le ind L)

theorem bmap_indirect (h : Editing v ip n w s) (hk : k < MAXFILE) (hlt : ¬ k < NDIRECT)
    (hB : Buffers v.sb E w.L.card)
    (hN : blockOf w.V w.d k = 0 → Room v.sb E (w.L.card + 2) s.store.log.outstanding ∧
      ((freeBlocks v.sb w.V).card < 2 → E (.panic .ballocOutOfBlocks))) :
    Post (bmap ip k) s (BmapDone v ip n k w s) fun f _ => E f := by
  have hj : k - NDIRECT < NINDIRECT := by
    unfold MAXFILE at hk
    omega
  have hσ : slotOf k = NDIRECT + 1 + (k - NDIRECT) := by
    rw [slotOf, if_neg hlt]
    omega
  have hzero : slot w.V w.d NDIRECT = 0 → blockOf w.V w.d k = 0 := fun hz =>
    slot_entry_of_none (by omega) hz
  simp only [bmap, post_bind, post_getInode, h.dev]
  rw [if_neg hlt, if_pos hj]
  simp only [post_bind]
  apply (bmapIndirect_spec h fun hz => ⟨(hN (hzero hz)).1.mono (by omega), fun he =>
    (hN (hzero hz)).2 (by rw [he, Finset.card_empty]; omega)⟩).imp
  rintro _ t ⟨w₁, h₁, hf₁, hg₁, rfl, hind, hsame, hL, hfree⟩
  have hL₁ : w₁.L.card ≤ w.L.card + 1 :=
    le_trans (Finset.card_le_card hL) (Finset.card_insert_le _ _)
  have hB₁ : Buffers v.sb E w₁.L.card := by
    by_cases hz : slot w.V w.d NDIRECT = 0
    · exact ((hN (hzero hz)).1.mono (by omega)).buffers
    · rw [hsame hz]
      exact hB
  apply (bread_view hB₁ h₁.view (by simp) (Finset.notMem_empty _)).imp
  rintro i u ⟨hu, hi, hf₂, -⟩
  have hword : getWord (w₁.V (slot w₁.V w₁.d NDIRECT)) (k - NDIRECT) = blockOf w₁.V w₁.d k := by
    rw [blockOf, slot_entry (by omega) (slotOf_lt hk) hind, hσ, Nat.add_sub_cancel_left]
  simp only [post_liftGetBuf, hu.data hi h₁.indirect_clean, hword]
  split_ifs with h0
  · have hhole : blockOf w.V w.d k = 0 := by
      by_contra hne
      rw [hg₁.mapped k hne] at h0
      exact hne h0
    have hR : Room v.sb E (w₁.L.card + 1) t.store.log.outstanding := by
      rw [hf₁.outstanding]
      exact (hN hhole).1.mono (by omega)
    have hfull : freeBlocks v.sb w₁.V = ∅ → E (.panic .ballocOutOfBlocks) := by
      intro he
      rw [he, Finset.card_empty] at hfree
      exact (hN hhole).2 (by omega)
    apply (h₁.fillHole hk hlt hind h0 hf₂ hu hi hR hfull).imp
    rintro b y ⟨w', hy, hfy, hgy, hb, hb0, hLy, hfreey⟩
    refine ⟨w', hy, hf₁.trans hfy, hg₁.trans hgy, hb, hb0, fun hne => absurd hhole hne, ?_, by omega⟩
    rw [hLy]
    exact card_logged_le hL
  · simp only [post_bind, post_pure]
    apply (brelse_view hu (Finset.notMem_empty _) hi).imp
    rintro _ y ⟨hy, hf₃, -⟩
    refine ⟨w₁, h₁.keep (hf₂.trans hf₃) hy, hf₁.trans (.of_frame (hf₂.trans hf₃)), hg₁, rfl, h0,
      fun hne => hsame fun hz => hne (hzero hz), ?_, by omega⟩
    exact le_trans (Finset.card_insert_le _ _) (by omega)

/-- `bmap` returns the block of file block `k`, which is a new one if there was a hole. -/
theorem bmap_spec (h : Editing v ip n w s) (hk : k < MAXFILE) (hB : Buffers v.sb E w.L.card)
    (hN : blockOf w.V w.d k = 0 → Room v.sb E (w.L.card + 2) s.store.log.outstanding ∧
      ((freeBlocks v.sb w.V).card < 2 → E (.panic .ballocOutOfBlocks))) :
    Post (bmap ip k) s (BmapDone v ip n k w s) fun f _ => E f := by
  by_cases hlt : k < NDIRECT
  · exact bmap_direct h hlt hN
  · exact bmap_indirect h hk hlt hB hN

end

end Xv6
