import Xv6.Fs.Codec
import Xv6.Fs.LogSpec
import Xv6.Lib.Ledger

/-!
The blocks of an inode. An inode has `NSLOT` slots: the direct block numbers, the
number of the indirect block, and the entries of the indirect block. `place` is the
table of all slots of all inodes, in which the block allocator's ledger is kept.
-/

namespace Xv6

def NSLOT : ℕ := MAXFILE + 1

/-- The slot that holds the block number of file block `bn`. -/
def slotOf (bn : ℕ) : ℕ := if bn < NDIRECT then bn else bn + 1

/-- The block number in slot `σ` of inode `d`, when blocks hold what `V` says. -/
def slot (V : ℕ → Block) (d : Dinode) (σ : ℕ) : ℕ :=
  if σ ≤ NDIRECT then d.addrs.getD σ 0
  else if σ < NSLOT ∧ d.addrs.getD NDIRECT 0 ≠ 0 then
    getWord (V (d.addrs.getD NDIRECT 0)) (σ - (NDIRECT + 1))
  else 0

/-- The block number of file block `bn`; `0` is a hole. -/
def blockOf (V : ℕ → Block) (d : Dinode) (bn : ℕ) : ℕ := slot V d (slotOf bn)

/-- The contents of file block `bn`; a hole reads as zeros. -/
def dataOf (V : ℕ → Block) (d : Dinode) (bn : ℕ) : Block :=
  if blockOf V d bn = 0 then .empty else V (blockOf V d bn)

def byteAt (V : ℕ → Block) (d : Dinode) (off : ℕ) : UInt8 :=
  (dataOf V d (off / BSIZE)).get (off % BSIZE)

/-- Slot `p.2` of inode `p.1`. -/
def place (V : ℕ → Block) (din : ℕ → Dinode) (p : ℕ × ℕ) : ℕ := slot V (din p.1) p.2

/-- Inode `inum` as the blocks hold it. -/
def dinodeAt (sb : Superblock) (V : ℕ → Block) (inum : ℕ) : Dinode :=
  getDinode (V (sb.IBLOCK inum)) (inum % IPB)

def nblocks (len : ℕ) : ℕ := (len + BSIZE - 1) / BSIZE

/-- Two inodes with the same fields before `addrs`. -/
def SameHead (d d' : Dinode) : Prop :=
  d'.type = d.type ∧ d'.major = d.major ∧ d'.minor = d.minor ∧ d'.nlink = d.nlink ∧
    d'.size = d.size

theorem SameHead.refl (d : Dinode) : SameHead d d := ⟨rfl, rfl, rfl, rfl, rfl⟩

theorem SameHead.trans {d e f : Dinode} (h₁ : SameHead d e) (h₂ : SameHead e f) :
    SameHead d f := by
  obtain ⟨a₁, a₂, a₃, a₄, a₅⟩ := h₁
  obtain ⟨b₁, b₂, b₃, b₄, b₅⟩ := h₂
  exact ⟨b₁.trans a₁, b₂.trans a₂, b₃.trans a₃, b₄.trans a₄, b₅.trans a₅⟩

section
variable {V W : ℕ → Block} {d : Dinode} {σ τ b : ℕ}

theorem slot_direct (h : σ ≤ NDIRECT) : slot V d σ = d.addrs.getD σ 0 := if_pos h

theorem slot_entry (h : NDIRECT < σ) (hσ : σ < NSLOT) (hi : slot V d NDIRECT ≠ 0) :
    slot V d σ = getWord (V (slot V d NDIRECT)) (σ - (NDIRECT + 1)) := by
  rw [slot_direct le_rfl] at hi ⊢
  rw [slot, if_neg (by omega), if_pos ⟨hσ, hi⟩]

theorem slot_entry_of_none (h : NDIRECT < σ) (hi : slot V d NDIRECT = 0) : slot V d σ = 0 := by
  rw [slot_direct le_rfl] at hi
  rw [slot, if_neg (by omega), if_neg fun hc => hc.2 hi]

theorem slot_out (h : NSLOT ≤ σ) : slot V d σ = 0 := by
  have : NDIRECT < NSLOT := by decide
  rw [slot, if_neg (by omega), if_neg fun hc => absurd hc.1 (by omega)]

theorem slotOf_ne (bn : ℕ) : slotOf bn ≠ NDIRECT := by
  unfold slotOf
  split_ifs <;> omega

theorem slotOf_lt {bn : ℕ} (h : bn < MAXFILE) : slotOf bn < NSLOT := by
  unfold slotOf NSLOT
  split_ifs <;> omega

theorem slotOf_inj {a c : ℕ} (h : slotOf a = slotOf c) : a = c := by
  unfold slotOf at h
  split_ifs at h <;> omega

theorem slot_congr (h : slot V d NDIRECT ≠ 0 → W (slot V d NDIRECT) = V (slot V d NDIRECT)) :
    slot W d σ = slot V d σ := by
  by_cases hσ : σ ≤ NDIRECT
  · rw [slot_direct hσ, slot_direct hσ]
  · by_cases hi : slot V d NDIRECT = 0
    · have hi' : slot W d NDIRECT = 0 := by rwa [slot_direct le_rfl] at hi ⊢
      rw [slot_entry_of_none (by omega) hi, slot_entry_of_none (by omega) hi']
    · have hi' : slot W d NDIRECT = slot V d NDIRECT := by
        rw [slot_direct le_rfl, slot_direct le_rfl]
      by_cases hlt : σ < NSLOT
      · rw [slot_entry (by omega) hlt hi, slot_entry (by omega) hlt (hi' ▸ hi), hi', h hi]
      · rw [slot_out (by omega), slot_out (by omega)]

theorem getD_set_addr {l : List ℕ} (hσ : σ < l.length) :
    (l.set σ b).getD τ 0 = if τ = σ then b else l.getD τ 0 := by
  rw [List.getD_eq_getElem?_getD, List.getD_eq_getElem?_getD, List.getElem?_set]
  by_cases h : σ = τ
  · rw [if_pos h, if_pos (h ▸ hσ), if_pos h.symm]
    rfl
  · rw [if_neg h, if_neg fun hc => h hc.symm]

theorem slot_setDirect (hd : d.addrs.length = NDIRECT + 1) (hσ : σ < NDIRECT) :
    slot V { d with addrs := d.addrs.set σ b } τ = if τ = σ then b else slot V d τ := by
  have hl : σ < d.addrs.length := by omega
  have hind : (d.addrs.set σ b).getD NDIRECT 0 = d.addrs.getD NDIRECT 0 := by
    rw [getD_set_addr hl, if_neg (by omega)]
  unfold slot
  by_cases hτ : τ ≤ NDIRECT
  · rw [if_pos hτ, if_pos hτ, getD_set_addr hl]
  · have hne : τ ≠ σ := by omega
    simp only [if_neg hτ, if_neg hne, hind]

theorem slot_setIndirect (hd : d.addrs.length = NDIRECT + 1) (h0 : slot V d NDIRECT = 0)
    (hb : ∀ j, getWord (V b) j = 0) :
    slot V { d with addrs := d.addrs.set NDIRECT b } τ =
      if τ = NDIRECT then b else slot V d τ := by
  have hl : NDIRECT < d.addrs.length := by omega
  by_cases hτ : τ ≤ NDIRECT
  · rw [slot_direct hτ, slot_direct hτ, getD_set_addr hl]
  · rw [if_neg (by omega), slot_entry_of_none (V := V) (d := d) (by omega) h0]
    unfold slot
    rw [if_neg hτ, getD_set_addr hl, if_pos rfl]
    split_ifs
    · exact hb _
    · rfl

theorem slot_putWord {j : ℕ} (hj : j < NINDIRECT) (hi : slot V d NDIRECT ≠ 0) (hb : b < 2 ^ 32)
    (hW : W (slot V d NDIRECT) = putWord (V (slot V d NDIRECT)) j b) :
    slot W d τ = if τ = NDIRECT + 1 + j then b else slot V d τ := by
  have hi' : slot W d NDIRECT = slot V d NDIRECT := by
    rw [slot_direct le_rfl, slot_direct le_rfl]
  have hn : NSLOT = NDIRECT + 1 + NINDIRECT := by decide
  by_cases hτ : τ ≤ NDIRECT
  · rw [if_neg (by omega), slot_direct hτ, slot_direct hτ]
  · by_cases hlt : τ < NSLOT
    · rw [slot_entry (by omega) hlt (hi' ▸ hi), hi', hW]
      by_cases he : τ = NDIRECT + 1 + j
      · rw [if_pos he, show τ - (NDIRECT + 1) = j by omega, getWord_putWord_self,
          Nat.mod_eq_of_lt hb]
      · rw [if_neg he, getWord_putWord_ne _ _ (by omega), slot_entry (by omega) hlt hi]
    · rw [if_neg (by omega), slot_out (by omega), slot_out (by omega)]

theorem getWord_empty (j : ℕ) : getWord .empty j = 0 := Bytes.getLE_empty _ _

theorem slot_zeroDinode : slot V zeroDinode σ = 0 := by
  have hz : ∀ k, zeroDinode.addrs.getD k 0 = 0 := by
    intro k
    rw [List.getD_eq_getElem?_getD]
    by_cases hk : k < NDIRECT + 1
    · rw [show zeroDinode.addrs = List.replicate (NDIRECT + 1) 0 from rfl,
        List.getElem?_replicate, if_pos hk]
      rfl
    · rw [List.getElem?_eq_none (by simpa [zeroDinode] using hk)]
      rfl
  have h0 : slot V zeroDinode NDIRECT = 0 := by rw [slot_direct le_rfl, hz]
  by_cases hσ : σ ≤ NDIRECT
  · rw [slot_direct hσ, hz]
  · exact slot_entry_of_none (by omega) h0

theorem dataOf_congr {d' : Dinode} {bn : ℕ} (hb : blockOf W d' bn = blockOf V d bn)
    (hV : blockOf V d bn ≠ 0 → W (blockOf V d bn) = V (blockOf V d bn)) :
    dataOf W d' bn = dataOf V d bn := by
  unfold dataOf
  rw [hb]
  split_ifs with h0
  · rfl
  · exact hV h0

theorem slot_addrs {d' : Dinode} (h : d'.addrs = d.addrs) : slot V d' σ = slot V d σ := by
  unfold slot
  rw [h]

/-- Writing an inode changes that inode and no other. -/
theorem dinodeAt_put (sb : Superblock) (V : ℕ → Block) (i j : ℕ) (h : d.Ok) :
    dinodeAt sb (Function.update V (sb.IBLOCK i) (putDinode (V (sb.IBLOCK i)) (i % IPB) d)) j =
      if j = i then d else dinodeAt sb V j := by
  unfold dinodeAt
  by_cases hji : j = i
  · rw [if_pos hji, hji, Function.update_self, getDinode_putDinode_self _ _ h]
  · rw [if_neg hji]
    by_cases hb : sb.IBLOCK j = sb.IBLOCK i
    · rw [hb, Function.update_self, getDinode_putDinode_ne _ h]
      intro hm
      apply hji
      unfold Superblock.IBLOCK at hb
      have hq : j / IPB = i / IPB := by omega
      rw [← Nat.div_add_mod j IPB, ← Nat.div_add_mod i IPB, hq, hm]
    · rw [Function.update_of_ne hb]

theorem place_eq_update {V W : ℕ → Block} {din din' : ℕ → Dinode} {i : ℕ}
    (hi : ∀ τ, slot W (din' i) τ = if τ = σ then b else slot V (din i) τ)
    (hj : ∀ j, j ≠ i → ∀ τ, slot W (din' j) τ = slot V (din j) τ) :
    place W din' = Function.update (place V din) (i, σ) b := by
  funext ⟨j, τ⟩
  by_cases hji : j = i
  · subst hji
    rw [place, hi, Function.update_apply]
    simp only [Prod.mk.injEq, true_and]
    rfl
  · rw [Function.update_of_ne (fun h => hji (congrArg Prod.fst h)), place, hj j hji]
    rfl

end

end Xv6
