import Xv6.Fs.BlockView
import Xv6.Fs.Slots

/-!
Consistent volumes. `Consistent v D V din` says that the blocks `V` and the inodes `din`
make a file system: the free map marks what is in use, no block is in two slots, and free
inodes have none. The lemmas say which changes of blocks and inodes keep it so.
-/

namespace Xv6

/-- A superblock, the inodes that may have holes, and whether blocks may be marked in the
free map without being in an inode. -/
structure Volume where
  sb : Superblock
  holey : Set ℕ
  leaky : Prop

/-- The inodes as the blocks hold them. -/
def inodes (sb : Superblock) (V : ℕ → Block) (n : ℕ) : Dinode :=
  if n < sb.inodeCount then dinodeAt sb V n else zeroDinode

/-- The data blocks marked in the free map. -/
def dataUsed (sb : Superblock) (V : ℕ → Block) : Set ℕ :=
  {b | sb.dataStart ≤ b ∧ b < sb.size ∧ used sb V b}

structure Balanced (v : Volume) (S : ℕ × ℕ → ℕ) (V : ℕ → Block) : Prop where
  ledger : Ledger S (dataUsed v.sb V)
  exact : ¬ v.leaky → Ledger.Exact S (dataUsed v.sb V)

structure Consistent (v : Volume) (D : Set ℕ) (V : ℕ → Block) (din : ℕ → Dinode) : Prop where
  wf : v.sb.WellFormed
  reserved : ∀ b < v.sb.dataStart, used v.sb V b
  ok : ∀ n, (din n).Ok
  books : Balanced v (place V din) V
  vacant : ∀ n, (din n).type = 0 → ∀ σ, slot V (din n) σ = 0
  size : ∀ n, (din n).size ≤ MAXFILE * BSIZE
  solid : ∀ n, n ∉ v.holey → (din n).type ≠ 0 →
    ∀ k < nblocks (din n).size, blockOf V (din n) k ≠ 0
  dirty : ∀ b ∈ D, v.sb.dataStart ≤ b ∧ b < v.sb.size
  dirty_slot : ∀ n σ, slot V (din n) σ ∈ D → σ ≠ NDIRECT ∧ (din n).type ≠ T_DIR

/-- The blocks of inode `d` are the same in `V` and `W`. -/
def Undisturbed (V W : ℕ → Block) (d : Dinode) : Prop :=
  ∀ σ, slot W d σ = slot V d σ ∧ (slot V d σ ≠ 0 → W (slot V d σ) = V (slot V d σ))

section
variable {v : Volume} {D : Set ℕ} {S : ℕ × ℕ → ℕ} {V W U : ℕ → Block} {din : ℕ → Dinode}
  {n b σ : ℕ} {d : Dinode}

theorem Undisturbed.refl (V : ℕ → Block) (d : Dinode) : Undisturbed V V d :=
  fun _ => ⟨rfl, fun _ => rfl⟩

theorem Undisturbed.trans (h₁ : Undisturbed V W d) (h₂ : Undisturbed W U d) :
    Undisturbed V U d := by
  intro σ
  obtain ⟨hs, hb⟩ := h₁ σ
  obtain ⟨hs', hb'⟩ := h₂ σ
  refine ⟨hs'.trans hs, fun h0 => ?_⟩
  rw [← hb h0, ← hs]
  exact hb' (by rwa [hs])

theorem undisturbed_of (h : ∀ σ, slot V d σ ≠ 0 → W (slot V d σ) = V (slot V d σ)) :
    Undisturbed V W d := fun σ => ⟨slot_congr (h NDIRECT), h σ⟩

theorem Undisturbed.dataOf_eq (h : Undisturbed V W d) (k : ℕ) : dataOf W d k = dataOf V d k :=
  dataOf_congr (h _).1 (h _).2

theorem Undisturbed.byteAt_eq (h : Undisturbed V W d) (off : ℕ) :
    byteAt W d off = byteAt V d off := by
  unfold byteAt
  rw [h.dataOf_eq]

/-! Accounts of the free map. -/

theorem Superblock.WellFormed.dataStart_pos {sb : Superblock} (h : sb.WellFormed) :
    0 < sb.dataStart := by
  have := h.inodestart_lt
  have := h.bmapstart_le
  omega

theorem dataUsed_congr {sb : Superblock} (h : ∀ c < sb.size, used sb W c ↔ used sb V c) :
    dataUsed sb W = dataUsed sb V := by
  ext c
  exact and_congr_right fun _ => and_congr_right fun hc => h c hc

theorem dataUsed_insert {sb : Superblock} (h₁ : sb.dataStart ≤ b) (h₂ : b < sb.size)
    (h : ∀ c < sb.size, used sb W c ↔ used sb V c ∨ c = b) :
    dataUsed sb W = insert b (dataUsed sb V) := by
  ext c
  constructor
  · rintro ⟨hc₁, hc₂, hc⟩
    rcases (h c hc₂).1 hc with hu | rfl
    · exact .inr ⟨hc₁, hc₂, hu⟩
    · exact .inl rfl
  · rintro (rfl | ⟨hc₁, hc₂, hc⟩)
    · exact ⟨h₁, h₂, (h c h₂).2 (.inr rfl)⟩
    · exact ⟨hc₁, hc₂, (h c hc₂).2 (.inl hc)⟩

theorem Balanced.range (h : Balanced v S V) {p : ℕ × ℕ} (h0 : S p ≠ 0) :
    v.sb.dataStart ≤ S p ∧ S p < v.sb.size ∧ used v.sb V (S p) := h.ledger.used_of p h0

theorem Balanced.congr (h : Balanced v S V) {T : ℕ × ℕ → ℕ} (hS : T = S)
    (hu : ∀ c < v.sb.size, used v.sb W c ↔ used v.sb V c) : Balanced v T W := by
  subst hS
  constructor
  · rw [dataUsed_congr hu]
    exact h.ledger
  · rw [dataUsed_congr hu]
    exact h.exact

theorem Balanced.take (h : Balanced v S V) {p : ℕ × ℕ} (hp : S p = 0) (h0 : 0 < v.sb.dataStart)
    (h₁ : v.sb.dataStart ≤ b) (h₂ : b < v.sb.size) (hb : ¬ used v.sb V b)
    (hu : ∀ c < v.sb.size, used v.sb W c ↔ used v.sb V c ∨ c = b) :
    Balanced v (Function.update S p b) W := by
  have hfresh : b ∉ dataUsed v.sb V := fun hm => hb hm.2.2
  have hzero : (0 : ℕ) ∉ dataUsed v.sb V := fun hm => absurd hm.1 (by omega)
  constructor
  · rw [dataUsed_insert h₁ h₂ hu]
    exact h.ledger.take (by omega) hfresh
  · intro he
    rw [dataUsed_insert h₁ h₂ hu]
    exact (h.exact he).take hp hzero

theorem inodes_congr {sb : Superblock}
    (h : ∀ c, sb.inodestart ≤ c → c < sb.bmapstart → W c = V c) : inodes sb W = inodes sb V := by
  funext n
  unfold inodes
  split_ifs with hn
  · obtain ⟨h₁, h₂⟩ := Superblock.IBLOCK_range hn
    rw [dinodeAt, h _ h₁ h₂]
    rfl
  · rfl

theorem inodes_ok (sb : Superblock) (V : ℕ → Block) (n : ℕ) : (inodes sb V n).Ok := by
  unfold inodes
  split_ifs
  · exact getDinode_ok _ _
  · exact zeroDinode_ok

namespace Consistent

theorem slot_range (h : Consistent v D V din) (h0 : slot V (din n) σ ≠ 0) :
    v.sb.dataStart ≤ slot V (din n) σ ∧ slot V (din n) σ < v.sb.size ∧
      used v.sb V (slot V (din n) σ) := h.books.range (p := (n, σ)) h0

theorem slot_inj (h : Consistent v D V din) {m τ : ℕ} (h0 : slot V (din n) σ ≠ 0)
    (he : slot V (din n) σ = slot V (din m) τ) : n = m ∧ σ = τ := by
  have := h.books.ledger.inj (n, σ) (m, τ) h0 he
  exact ⟨congrArg Prod.fst this, congrArg Prod.snd this⟩

/-- Changing blocks that are in no slot, and no bit of the free map. -/
theorem undisturbed (h : Consistent v D V din)
    (hW : ∀ c, v.sb.dataStart ≤ c → c < v.sb.size → used v.sb V c → W c = V c) :
    Undisturbed V W (din n) := by
  apply undisturbed_of
  intro σ h0
  obtain ⟨h₁, h₂, h₃⟩ := h.slot_range h0
  exact hW _ h₁ h₂ h₃

/-- Consistency depends on the bits of the free map and on the slots. -/
theorem congr (h : Consistent v D V din) {A : Set ℕ} (hA : A ⊆ D)
    (hu : ∀ c < v.sb.size, used v.sb W c ↔ used v.sb V c)
    (hs : ∀ n σ, slot W (din n) σ = slot V (din n) σ) : Consistent v A W din where
  wf := h.wf
  reserved b hb := (hu b (lt_of_lt_of_le hb v.sb.dataStart_le)).2 (h.reserved b hb)
  ok := h.ok
  books := h.books.congr (funext fun p => hs p.1 p.2) hu
  vacant n hn σ := by rw [hs]; exact h.vacant n hn σ
  size := h.size
  solid n hh hn k hk := by rw [blockOf, hs]; exact h.solid n hh hn k hk
  dirty b hb := h.dirty b (hA hb)
  dirty_slot n σ hm := by rw [hs] at hm; exact h.dirty_slot n σ (hA hm)

/-- A free block `b` goes into slot `σ` of inode `n`, which becomes `d`. -/
theorem fill (h : Consistent v D V din) (h₁ : v.sb.dataStart ≤ b) (h₂ : b < v.sb.size)
    (hb : ¬ used v.sb V b) (hσ : slot V (din n) σ = 0)
    (hu : ∀ c < v.sb.size, used v.sb W c ↔ used v.sb V c ∨ c = b)
    (hn : ∀ τ, slot W d τ = if τ = σ then b else slot V (din n) τ)
    (hm : ∀ m, m ≠ n → ∀ τ, slot W (din m) τ = slot V (din m) τ)
    (hd : SameHead (din n) d) (hok : d.Ok) (hty : (din n).type ≠ 0) :
    Consistent v (D \ {b}) W (Function.update din n d) := by
  have hb0 : b ≠ 0 := by
    have := h.wf.dataStart_pos
    omega
  have hplace : place W (Function.update din n d) = Function.update (place V din) (n, σ) b := by
    apply place_eq_update
    · rw [Function.update_self]
      exact hn
    · intro m hne τ
      rw [Function.update_of_ne hne]
      exact hm m hne τ
  obtain ⟨htype, -, -, -, hsize⟩ := hd
  refine ⟨h.wf, ?_, ?_, ?_, ?_, ?_, ?_, ?_, ?_⟩
  · exact fun c hc => (hu c (lt_of_lt_of_le hc v.sb.dataStart_le)).2 (.inl (h.reserved c hc))
  · intro m
    rw [Function.update_apply]
    split_ifs
    · exact hok
    · exact h.ok m
  · rw [hplace]
    exact h.books.take hσ h.wf.dataStart_pos h₁ h₂ hb hu
  · intro m hz τ
    by_cases hmn : m = n
    · rw [hmn, Function.update_self, htype] at hz
      exact absurd hz hty
    · rw [Function.update_of_ne hmn] at hz ⊢
      rw [hm m hmn]
      exact h.vacant m hz τ
  · intro m
    rw [Function.update_apply]
    split_ifs
    · rw [hsize]
      exact h.size n
    · exact h.size m
  · intro m hh hz k hk
    by_cases hmn : m = n
    · subst hmn
      rw [Function.update_self] at hz hk ⊢
      rw [htype] at hz
      rw [hsize] at hk
      rw [blockOf, hn]
      split_ifs
      · exact hb0
      · exact h.solid m hh hz k hk
    · rw [Function.update_of_ne hmn] at hz hk ⊢
      rw [blockOf, hm m hmn]
      exact h.solid m hh hz k hk
  · exact fun c hc => h.dirty c hc.1
  · rintro m τ ⟨hD, hne⟩
    by_cases hmn : m = n
    · subst hmn
      rw [Function.update_self] at hD hne ⊢
      rw [hn] at hD hne
      split_ifs at hD hne
      · exact absurd rfl hne
      · rw [htype]
        exact h.dirty_slot m τ hD
    · rw [Function.update_of_ne hmn] at hD ⊢
      rw [hm m hmn] at hD
      exact h.dirty_slot m τ hD

/-- Giving a block to inode `n` disturbs no block in use. -/
theorem undisturbed_allocated (h : Consistent v D V din) (hb : ¬ used v.sb V b)
    (h₂ : b < v.sb.size) : Undisturbed V (allocated v.sb V b) (din n) := by
  apply h.undisturbed
  intro c hc _ hu
  have hne : c ≠ b := by
    rintro rfl
    exact hb hu
  have := h.wf.bitmaps_range (Superblock.BBLOCK_mem h₂)
  exact allocated_of_ne hne (by omega)

end Consistent

end

end Xv6
