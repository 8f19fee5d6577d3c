import Xv6.Fs.Codec
import Xv6.Fs.Transaction
import Xv6.Fs.RefSpec

/-!
The block allocator over what the cache shows. `View sb D H L V s` says that block `b`
holds `V b`, outside `D`, and that the log lists blocks of `L` only; reading a block keeps
the view, a logged change updates it, and `balloc` and `bfree` change bits of the free map.
-/

namespace Xv6
open Hoare

namespace Superblock
variable (sb : Superblock)

/-- Inode numbers whose inode lies in the inode blocks. -/
def inodeCount : ℕ := (sb.bmapstart - sb.inodestart) * IPB

def dataStart : ℕ := sb.size - sb.nblocks

def bitmaps : Finset ℕ := (Finset.range ((sb.size + BPB - 1) / BPB)).image (· + sb.bmapstart)

structure WellFormed : Prop where
  log : sb.logstart + sb.nlog ≤ sb.inodestart
  ninodes : sb.ninodes ≤ sb.inodeCount
  root : ROOTINO < sb.inodeCount
  bitmap : sb.bmapstart + (sb.size + BPB - 1) / BPB ≤ sb.dataStart
  size : sb.size < 2 ^ 32

/-- Most blocks that can be in the log when one more is to be logged or read, with one
buffer held. -/
def logCap : ℕ := min (NBUF - 1) (min LOGSIZE (sb.nlog - 1))

variable {sb} {b n : ℕ}

theorem BBLOCK_mem (hb : b < sb.size) : sb.BBLOCK b ∈ sb.bitmaps := by
  refine Finset.mem_image.2 ⟨b / BPB, Finset.mem_range.2 ?_, rfl⟩
  have hpos : 0 < BPB := by decide
  rw [Nat.lt_div_iff_mul_lt hpos]
  have := Nat.div_mul_le_self b BPB
  omega

theorem IBLOCK_range (hn : n < sb.inodeCount) :
    sb.inodestart ≤ sb.IBLOCK n ∧ sb.IBLOCK n < sb.bmapstart := by
  have hq : n / IPB < sb.bmapstart - sb.inodestart :=
    Nat.div_lt_of_lt_mul (by rwa [Nat.mul_comm])
  exact ⟨Nat.le_add_left _ _, Nat.lt_sub_iff_add_lt.1 hq⟩

theorem dataStart_le (sb : Superblock) : sb.dataStart ≤ sb.size := Nat.sub_le _ _

namespace WellFormed
variable (h : sb.WellFormed)
include h

theorem inodestart_lt : sb.inodestart < sb.bmapstart := by
  have := h.root
  unfold inodeCount at this
  by_contra hle
  rw [show sb.bmapstart - sb.inodestart = 0 by omega, Nat.zero_mul] at this
  omega

theorem bitmaps_range (hb : b ∈ sb.bitmaps) : sb.bmapstart ≤ b ∧ b < sb.dataStart := by
  obtain ⟨k, hk, rfl⟩ := Finset.mem_image.1 hb
  have := h.bitmap
  have := Finset.mem_range.1 hk
  omega

theorem bmapstart_le : sb.bmapstart ≤ sb.dataStart := le_trans (Nat.le_add_right _ _) h.bitmap

theorem home (hb : sb.inodestart ≤ b) : RedoLog.Home sb.logstart sb.nlog b := by
  rintro ⟨-, hlt⟩
  have := h.log
  omega

end WellFormed

end Superblock

def used (sb : Superblock) (V : ℕ → Block) (b : ℕ) : Prop :=
  getBit (V (sb.BBLOCK b)) (b % BPB) = true

instance (sb : Superblock) (V : ℕ → Block) (b : ℕ) : Decidable (used sb V b) := by
  unfold used
  infer_instance

def freeBlocks (sb : Superblock) (V : ℕ → Block) : Finset ℕ :=
  (Finset.range sb.size).filter fun b => ¬ used sb V b

structure View (sb : Superblock) (D : Set ℕ) (H L : Finset ℕ) (V : ℕ → Block) (s : State) :
    Prop where
  sb_eq : s.sb = sb
  tx : Tx sb.logstart sb.nlog D H V s.store
  clean : ∀ b ∈ s.store.log.lh, b ∉ D
  logged : s.store.log.lh.toFinset ⊆ L
  /-- A block that was changed without being logged is unchanged on disk. -/
  old : ∀ b ∈ D, s.store.disk.get b = V b

structure Frame (s t : State) : Prop where
  store : t = { s with store := t.store }
  outstanding : t.store.log.outstanding = s.store.log.outstanding
  disk : t.store.disk = s.store.disk
  writes : t.store.writes = s.store.writes

/-- The faults of the log when it has `l` blocks and `o` operations are going on. -/
structure Room (sb : Superblock) (E : Fault → Prop) (l : ℕ) (o : ℤ) : Prop where
  log : sb.logCap ≤ l → E (.panic .bgetNoBuffers) ∧ E (.panic .tooBigTransaction)
  ops : o < 1 → E (.panic .logWriteOutsideTrans)

theorem Room.mono {sb : Superblock} {E : Fault → Prop} {l l' : ℕ} {o : ℤ} (h : Room sb E l o)
    (hl : l' ≤ l) : Room sb E l' o := ⟨fun hc => h.log (le_trans hc hl), h.ops⟩

/-- The fault of reading a block when the log has `l` blocks. -/
def Buffers (sb : Superblock) (E : Fault → Prop) (l : ℕ) : Prop :=
  sb.logCap ≤ l → E (.panic .bgetNoBuffers)

theorem Room.buffers {sb : Superblock} {E : Fault → Prop} {l : ℕ} {o : ℤ} (h : Room sb E l o) :
    Buffers sb E l := fun hc => (h.log hc).1

section
variable {sb : Superblock} {D : Set ℕ} {H L : Finset ℕ} {V W : ℕ → Block} {s t u : State}
  {i b c : ℕ} {E : Fault → Prop}

theorem Frame.refl (s : State) : Frame s s := ⟨rfl, rfl, rfl, rfl⟩

theorem Frame.trans (h₁ : Frame s t) (h₂ : Frame t u) : Frame s u := by
  refine ⟨?_, h₂.outstanding.trans h₁.outstanding, h₂.disk.trans h₁.disk,
    h₂.writes.trans h₁.writes⟩
  rw [h₂.store, h₁.store]

theorem Frame.itable (h : Frame s t) : t.itable = s.itable := by rw [h.store]

theorem Frame.umem (h : Frame s t) : t.umem = s.umem := by rw [h.store]

theorem Frame.withStore (s : State) {t : Store}
    (h : t.log.outstanding = s.store.log.outstanding) (hd : t.disk = s.store.disk)
    (hw : t.writes = s.store.writes) : Frame s { s with store := t } := ⟨rfl, h, hd, hw⟩

theorem View.congr (h : View sb D H L V s) (hs : t.store = s.store) (hb : t.sb = s.sb) :
    View sb D H L V t := by
  refine ⟨hb.trans h.sb_eq, ?_, ?_, ?_, ?_⟩
  · rw [hs]
    exact h.tx
  · rw [hs]
    exact h.clean
  · rw [hs]
    exact h.logged
  · rw [hs]
    exact h.old

theorem View.quiet (h : View sb D H L V s) {K : Finset ℕ} {t : Store} (hq : Quiet s.store t)
    (ht : Bio D K s.store.log.lh.toFinset V t) : View sb D K L V { s with store := t } := by
  refine ⟨h.sb_eq, ⟨?_, ?_⟩, ?_, ?_, ?_⟩
  · rwa [hq.log]
  · rw [hq.log]
    exact h.tx.log
  · rw [hq.log]
    exact h.clean
  · rw [hq.log]
    exact h.logged
  · rw [hq.disk]
    exact h.old

/-- With at most one buffer held, there is a buffer to read into unless the log is full. -/
theorem View.noBuffers (h : View sb D H L V s) (hH : H.card ≤ 1)
    (hn : NBUF ≤ (H ∪ s.store.log.lh.toFinset).card) : sb.logCap ≤ L.card := by
  have h₁ := Finset.card_union_le H s.store.log.lh.toFinset
  have h₂ := Finset.card_le_card h.logged
  have h₃ : sb.logCap ≤ NBUF - 1 := min_le_left _ _
  omega

theorem bread_view (hB : Buffers sb E L.card) (h : View sb D H L V s)
    (hH : H.card ≤ 1) (hb : b ∉ H) :
    Post (liftM (bread ROOTDEV b) : K ℕ) s (fun i t => View sb D (insert b H) L V t ∧
      t.store.Caches i b ∧ Frame s t ∧ Stable H s.store t.store) fun f _ => E f := by
  rw [post_lift]
  apply (bread_spec h.tx.bio hb fun hn _ => hB (h.noBuffers hH hn)).imp
  rintro i t ⟨ht, hi, hst, hq⟩
  exact ⟨h.quiet hq ht, hi, .withStore s (by rw [hq.log]) hq.disk hq.writes, hst⟩

theorem brelse_view (h : View sb D (insert b H) L V s) (hb : b ∉ H) (hi : s.store.Caches i b) :
    Post (liftM (brelse i) : K Unit) s (fun _ t => View sb D H L V t ∧ Frame s t ∧
      SameCaches s.store t.store) fun f _ => E f := by
  rw [post_lift]
  apply (brelse_spec h.tx.bio hb hi).imp
  rintro _ t ⟨ht, hsc, hq⟩
  exact ⟨h.quiet hq ht, .withStore s (by rw [hq.log]) hq.disk hq.writes, hsc⟩

@[simp] theorem post_liftGetBuf {Q : Buf → State → Prop} {F : Fault → State → Prop} :
    Post (liftM (getBuf i) : K Buf) s Q F ↔ Q (s.store.bufs.get i) s := by
  rw [post_lift, post_getBuf]

theorem View.data (h : View sb D H L V s) (hi : s.store.Caches i b) (hD : b ∉ D) :
    (s.store.bufs.get i).data = V b := h.tx.bio.data i b hi hD

theorem Log.logCap_le_of_full {l : Log} {start : ℕ} (h : l.Ok start sb.nlog)
    (hL : l.lh.toFinset ⊆ L) (hf : l.full = true) : sb.logCap ≤ L.card := by
  have h₁ := Finset.card_le_card hL
  rw [List.toFinset_card_of_nodup h.nodup] at h₁
  have h₂ : sb.logCap ≤ min LOGSIZE (sb.nlog - 1) := min_le_right _ _
  have h₃ : min LOGSIZE (sb.nlog - 1) ≤ l.lh.length := by
    simp only [Log.full, decide_eq_true_eq, h.size_eq] at hf
    rcases hf with hf | hf
    · exact le_trans (min_le_left _ _) hf
    · exact le_trans (min_le_right _ _) hf
  omega

theorem logged_view {d : Block} {Q : Unit → State → Prop} (hsb : sb.WellFormed)
    (hR : Room sb E L.card s.store.log.outstanding) (h : View sb D (insert b H) L V s)
    (hb : b ∉ H) (hi : s.store.Caches i b) (hlow : sb.inodestart ≤ b) (h32 : b < 2 ^ 32)
    (hQ : ∀ t, View sb (D \ {b}) H (insert b L) (Function.update V b d) t → Frame s t →
      SameCaches s.store t.store → Q () t) :
    Post (liftM (setData i d) : K Unit) s (fun _ t => Post (liftM (logWrite i) : K Unit) t
      (fun _ u => Post (liftM (brelse i) : K Unit) u Q fun f _ => E f) fun f _ => E f)
      fun f _ => E f := by
  rw [post_lift, post_setData]
  obtain ⟨hset, hsc⟩ := h.tx.bio.setData hi d
  have htx : Tx sb.logstart sb.nlog (insert b D) (insert b H) V
      (s.store.setBuf i { s.store.bufs.get i with data := d }) := ⟨hset, h.tx.log⟩
  rw [post_lift]
  apply (logWrite_spec htx ((hsc i b).2 hi) (hsb.home hlow) h32
    (fun hf => (hR.log (Log.logCap_le_of_full h.tx.log h.logged hf)).2) fun ho => hR.ops ho).imp
  rintro _ u ⟨hu, hsc', -, hlog, hdisk, hwrites⟩
  rw [Set.insert_sdiff_of_mem D (Set.mem_singleton b), Store.setBuf_bufs,
    TMap.get_set_self] at hu
  have hlh : u.log.lh.toFinset = insert b s.store.log.lh.toFinset := by
    rw [hlog, Store.setBuf_log, Log.record_toFinset]
  have hclean : ∀ c ∈ u.log.lh, c ∉ D \ {b} := by
    intro c hc
    rw [← List.mem_toFinset, hlh] at hc
    rcases Finset.mem_insert.1 hc with rfl | hc
    · exact fun hm => hm.2 rfl
    · exact fun hm => h.clean c (List.mem_toFinset.1 hc) hm.1
  have hview : View sb (D \ {b}) (insert b H) (insert b L) (Function.update V b d)
      { s with store := u } := by
    refine ⟨h.sb_eq, hu, hclean, ?_, ?_⟩
    · rw [hlh]
      exact Finset.insert_subset_insert b h.logged
    · rintro c ⟨hc, hne⟩
      rw [Function.update_of_ne hne, ← h.old c hc]
      exact congrArg (fun m => TMap.get m c) hdisk
  have hcaches : SameCaches s.store u := fun j c => (hsc' j c).trans (hsc j c)
  have hframe : Frame s { s with store := u } := by
    refine Frame.withStore s ?_ hdisk hwrites
    rw [hlog, Log.record_outstanding]
    rfl
  apply (brelse_view hview hb ((hcaches i b).2 hi)).imp
  rintro _ v ⟨hv, hf, hsc''⟩
  exact hQ v hv (hframe.trans hf) fun j c => (hsc'' j c).trans (hcaches j c)

/-! Bits of the free map. -/

theorem firstClear_spec (data : Block) {bi n c : ℕ} (h : firstClear data bi n = some c) :
    bi ≤ c ∧ c < bi + n ∧ getBit data c = false := by
  induction n generalizing bi with
  | zero => exact nomatch h
  | succ n ih =>
    unfold firstClear at h
    split_ifs at h with hb
    · obtain ⟨h₁, h₂, h₃⟩ := ih h
      exact ⟨by omega, by omega, h₃⟩
    · cases h
      exact ⟨le_rfl, by omega, by simpa using hb⟩

theorem firstClear_eq_none (data : Block) {bi n : ℕ} (h : firstClear data bi n = none) {c : ℕ}
    (hle : bi ≤ c) (hlt : c < bi + n) : getBit data c = true := by
  induction n generalizing bi with
  | zero => omega
  | succ n ih =>
    unfold firstClear at h
    split_ifs at h with hb
    by_cases hc : c = bi
    · rwa [hc]
    · exact ih h (by omega) (by omega)

/-- A new block holds zeros, and its bit is set. -/
def allocated (sb : Superblock) (V : ℕ → Block) (b : ℕ) : ℕ → Block :=
  Function.update (Function.update V (sb.BBLOCK b) (setBit (V (sb.BBLOCK b)) (b % BPB))) b .empty

theorem eq_of_bit (h : sb.BBLOCK c = sb.BBLOCK b) (hm : c % BPB = b % BPB) : c = b := by
  unfold Superblock.BBLOCK at h
  have hq : c / BPB = b / BPB := by omega
  rw [← Nat.div_add_mod c BPB, ← Nat.div_add_mod b BPB, hq, hm]

theorem used_congr (h : V (sb.BBLOCK c) = W (sb.BBLOCK c)) : used sb V c ↔ used sb W c := by
  unfold used
  rw [h]

theorem used_allocated (hsb : sb.WellFormed) (hb : sb.dataStart ≤ b) (hc : c < sb.size) :
    used sb (allocated sb V b) c ↔ used sb V c ∨ c = b := by
  have hne : sb.BBLOCK c ≠ b := by
    have := hsb.bitmaps_range (Superblock.BBLOCK_mem hc)
    omega
  unfold used allocated
  rw [Function.update_of_ne hne]
  by_cases hB : sb.BBLOCK c = sb.BBLOCK b
  · rw [hB, Function.update_self, getBit_setBit, Bool.or_eq_true, decide_eq_true_eq]
    exact or_congr_right ⟨eq_of_bit hB, fun he => by rw [he]⟩
  · rw [Function.update_of_ne hB]
    exact ⟨.inl, fun h => h.resolve_right fun he => hB (by rw [he])⟩

theorem mem_freeBlocks : b ∈ freeBlocks sb V ↔ b < sb.size ∧ ¬ used sb V b := by
  rw [freeBlocks, Finset.mem_filter, Finset.mem_range]

theorem freeBlocks_allocated (hsb : sb.WellFormed) (hb : sb.dataStart ≤ b) :
    freeBlocks sb (allocated sb V b) = (freeBlocks sb V).erase b := by
  ext c
  rw [Finset.mem_erase, mem_freeBlocks, mem_freeBlocks]
  constructor
  · rintro ⟨hc, hu⟩
    rw [used_allocated hsb hb hc, not_or] at hu
    exact ⟨hu.2, hc, hu.1⟩
  · rintro ⟨hne, hc, hu⟩
    rw [used_allocated hsb hb hc, not_or]
    exact ⟨hc, hu, hne⟩

theorem allocated_of_ne (hne : c ≠ b) (hc : c ≠ sb.BBLOCK b) : allocated sb V b c = V c := by
  rw [allocated, Function.update_of_ne hne, Function.update_of_ne hc]

theorem allocated_self : allocated sb V b b = .empty := Function.update_self ..

/-! The block allocator. -/

theorem bzero_view {Q : Unit → State → Prop} (hsb : sb.WellFormed)
    (hR : Room sb E L.card s.store.log.outstanding) (h : View sb D H L V s) (hH : H.card ≤ 1)
    (hb : b ∉ H) (hlow : sb.inodestart ≤ b) (h32 : b < 2 ^ 32)
    (hQ : ∀ t, View sb (D \ {b}) H (insert b L) (Function.update V b .empty) t → Frame s t →
      Stable H s.store t.store → Q () t) :
    Post (bzero ROOTDEV b) s Q fun f _ => E f := by
  unfold bzero
  apply (bread_view hR.buffers h hH hb).seq
  rintro i t ⟨ht, hi, hf, hst⟩
  simp only [post_bind]
  rw [← hf.outstanding] at hR
  apply logged_view hsb hR ht hb hi hlow h32
  intro u hu hf' hsc
  exact hQ u hu (hf.trans hf') fun j c hc hj => (hsc j c).2 (hst j c hc hj)

structure MapOk (sb : Superblock) (D : Set ℕ) (H L : Finset ℕ) (V : ℕ → Block) : Prop where
  wf : sb.WellFormed
  reserved : ∀ b < sb.dataStart, used sb V b
  clean : ∀ b ∈ sb.bitmaps, b ∉ D
  logged : sb.bitmaps ⊆ L
  held : H.card ≤ 1
  used : ∀ b ∈ H, b < sb.size ∧ used sb V b
  data : ∀ b ∈ H, sb.dataStart ≤ b

theorem MapOk.not_held (h : MapOk sb D H L V) (hb : b ∈ sb.bitmaps) : b ∉ H := by
  intro hm
  have := h.wf.bitmaps_range hb
  have := h.data b hm
  omega

/-- `balloc` over bitmap blocks, when those before them are full. -/
theorem ballocFrom_view (hm : MapOk sb D H L V) {k m : ℕ}
    (hk : k + m = (sb.size + BPB - 1) / BPB) (hfull : ∀ c < k * BPB, c < sb.size → used sb V c)
    (hR : Room sb E L.card s.store.log.outstanding) (h : View sb D H L V s)
    (hE : freeBlocks sb V = ∅ → E (.panic .ballocOutOfBlocks)) :
    Post (ballocFrom ROOTDEV ((List.range' k m).map (· * BPB))) s
      (fun b t => sb.dataStart ≤ b ∧ b < sb.size ∧ ¬ used sb V b ∧
        View sb (D \ {b}) H (insert b L) (allocated sb V b) t ∧ Frame s t ∧
        Stable H s.store t.store) fun f _ => E f := by
  have hpos : 0 < BPB := by decide
  induction m generalizing k s with
  | zero =>
    simp only [List.range'_zero, List.map_nil, ballocFrom, post_panic]
    apply hE
    rw [Finset.eq_empty_iff_forall_notMem]
    intro c hc
    rw [mem_freeBlocks] at hc
    refine hc.2 (hfull c ?_ hc.1)
    have := Nat.div_add_mod (sb.size + BPB - 1) BPB
    have := Nat.mod_lt (sb.size + BPB - 1) hpos
    rw [show k = (sb.size + BPB - 1) / BPB by omega, Nat.mul_comm]
    omega
  | succ m ih =>
    have hB : sb.BBLOCK (k * BPB) = k + sb.bmapstart := by
      rw [Superblock.BBLOCK, Nat.mul_div_cancel _ hpos]
    have hmem : k + sb.bmapstart ∈ sb.bitmaps :=
      Finset.mem_image.2 ⟨k, Finset.mem_range.2 (by omega), rfl⟩
    have hrange := hm.wf.bitmaps_range hmem
    have hnH := hm.not_held hmem
    have hbit : ∀ c, c < BPB → (used sb V (k * BPB + c) ↔
        getBit (V (k + sb.bmapstart)) c = true) := by
      intro c hc
      unfold used Superblock.BBLOCK
      rw [Nat.mul_comm, Nat.mul_add_div hpos, Nat.div_eq_of_lt hc, Nat.add_zero, Nat.mul_add_mod,
        Nat.mod_eq_of_lt hc]
    simp only [List.range'_succ, List.map_cons, ballocFrom, post_bind, post_get, h.sb_eq, hB]
    apply (bread_view hR.buffers h hm.held hnH).imp
    rintro i t ⟨ht, hi, hf, hst⟩
    simp only [post_liftGetBuf, ht.data hi (hm.clean _ hmem)]
    rw [← hf.outstanding] at hR
    cases hc : firstClear (V (k + sb.bmapstart)) 0 (min BPB (sb.size - k * BPB)) with
    | none =>
      simp only [post_bind]
      apply (brelse_view ht hnH hi).imp
      rintro _ u ⟨hu, hf', hsc⟩
      have hnext : ∀ c < (k + 1) * BPB, c < sb.size → used sb V c := by
        intro c hc' hsize
        by_cases hlt : c < k * BPB
        · exact hfull c hlt hsize
        · rw [Nat.succ_mul] at hc'
          rw [show c = k * BPB + (c - k * BPB) by omega, hbit _ (by omega)]
          refine firstClear_eq_none _ hc (Nat.zero_le _) ?_
          rw [Nat.zero_add]
          exact lt_min (by omega) (by omega)
      rw [← hf'.outstanding] at hR
      apply (ih (by omega) hnext hR hu).imp
      rintro b v ⟨h₁, h₂, h₃, h₄, h₅, h₆⟩
      refine ⟨h₁, h₂, h₃, h₄, (hf.trans hf').trans h₅, fun j c hc hj => ?_⟩
      exact h₆ j c hc ((hsc j c).2 (hst j c hc hj))
    | some bi =>
      obtain ⟨-, hlt, hclear⟩ := firstClear_spec _ hc
      rw [Nat.zero_add, lt_min_iff] at hlt
      have hfree : ¬ used sb V (k * BPB + bi) := by
        rw [hbit bi hlt.1, hclear]
        exact Bool.false_ne_true
      have hsize : k * BPB + bi < sb.size := by omega
      have hdata : sb.dataStart ≤ k * BPB + bi := by
        by_contra hlow
        exact hfree (hm.reserved _ (by omega))
      have hbH : k * BPB + bi ∉ H := fun hmem => hfree (hm.used _ hmem).2
      have hBB : sb.BBLOCK (k * BPB + bi) = k + sb.bmapstart ∧ (k * BPB + bi) % BPB = bi := by
        unfold Superblock.BBLOCK
        rw [Nat.mul_comm, Nat.mul_add_div hpos, Nat.div_eq_of_lt hlt.1, Nat.mul_add_mod,
          Nat.mod_eq_of_lt hlt.1]
        exact ⟨rfl, rfl⟩
      have hwf := hm.wf
      have hilt := hwf.inodestart_lt
      have h32 := hwf.size
      have hbm := hwf.bmapstart_le
      simp only [post_bind, post_pure]
      apply logged_view hwf hR ht hnH hi (by omega) (by omega)
      intro u hu hf' hsc
      rw [Set.sdiff_singleton_eq_self (hm.clean _ hmem), Finset.insert_eq_self.2
        (hm.logged hmem)] at hu
      rw [← hf'.outstanding] at hR
      apply bzero_view hwf hR hu hm.held hbH (by omega) (by omega)
      intro v hv hf'' hst'
      refine ⟨hdata, hsize, hfree, ?_, (hf.trans hf').trans hf'', fun j c hc hj => ?_⟩
      · rwa [allocated, hBB.1, hBB.2]
      · exact hst' j c hc ((hsc j c).2 (hst j c hc hj))

/-- `balloc` returns a block whose bit was clear. -/
theorem balloc_view (hm : MapOk sb D H L V) (hR : Room sb E L.card s.store.log.outstanding)
    (h : View sb D H L V s) (hE : freeBlocks sb V = ∅ → E (.panic .ballocOutOfBlocks)) :
    Post (balloc ROOTDEV) s
      (fun b t => sb.dataStart ≤ b ∧ b < sb.size ∧ ¬ used sb V b ∧
        View sb (D \ {b}) H (insert b L) (allocated sb V b) t ∧ Frame s t ∧
        Stable H s.store t.store) fun f _ => E f := by
  simp only [balloc, post_bind, post_get, h.sb_eq]
  rw [List.range_eq_range']
  exact ballocFrom_view hm (Nat.zero_add _) (fun c hc => absurd hc (by omega)) hR h hE

end

end Xv6
