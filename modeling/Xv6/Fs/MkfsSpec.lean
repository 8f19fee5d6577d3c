import Xv6.Lib.Count
import Xv6.Lib.Hoare
import Xv6.Fs.Mkfs
import Xv6.Fs.Slots

/-!
How `iappend` lays files out. `Work din nb bytes s` says what the image holds while
inode `i` is `din i`, has `nb i` blocks and contains `bytes i`: blocks are handed out in
order from `nmeta` on, each to one slot, and what was not written reads as zero.
-/

namespace Xv6
namespace Mkfs
open Hoare

/-- Inode slots below the first data block. The last `IPB` of them lie in the bitmap block. -/
def inodeSlots : ℕ := (nmeta - sb.inodestart) * IPB

def cost (n : ℕ) : ℕ := n + if NDIRECT < n then 1 else 0

/-- The blocks handed out so far. -/
def given (s : St) : Set ℕ := {b | nmeta ≤ b ∧ b < s.freeblock}

structure Work (din : ℕ → Dinode) (nb : ℕ → ℕ) (bytes : ℕ → List UInt8) (s : St) : Prop where
  start : nmeta ≤ s.freeblock
  fresh : ∀ b, s.freeblock ≤ b → s.img.get? b = none
  ledger : Ledger (place s.img.get din) (given s)
  exact : Ledger.Exact (place s.img.get din) (given s)
  length : ∀ i, (din i).addrs.length = NDIRECT + 1
  filled : ∀ i bn, bn < MAXFILE → (blockOf s.img.get (din i) bn ≠ 0 ↔ bn < nb i)
  contents : ∀ i off, off < MAXFILE * BSIZE →
    byteAt s.img.get (din i) off = (bytes i).getD off 0
  fits : ∀ i, (bytes i).length ≤ MAXFILE * BSIZE
  count : s.freeblock = nmeta + ∑ i ∈ Finset.range inodeSlots,
    (nb i + if slot s.img.get (din i) NDIRECT = 0 then 0 else 1)

section
variable {din : ℕ → Dinode} {nb : ℕ → ℕ} {bytes : ℕ → List UInt8} {s : St} {i : ℕ}

theorem Work.slot_given (h : Work din nb bytes s) {σ : ℕ} (h0 : slot s.img.get (din i) σ ≠ 0) :
    nmeta ≤ slot s.img.get (din i) σ ∧ slot s.img.get (din i) σ < s.freeblock :=
  h.ledger.used_of (i, σ) h0

theorem Work.slot_inj (h : Work din nb bytes s) {j σ τ : ℕ} (h0 : slot s.img.get (din i) σ ≠ 0)
    (he : slot s.img.get (din i) σ = slot s.img.get (din j) τ) : i = j ∧ σ = τ :=
  Prod.mk.inj (h.ledger.inj (i, σ) (j, τ) h0 he)

theorem Work.fresh_get (h : Work din nb bytes s) {b : ℕ} (hb : s.freeblock ≤ b) :
    s.img.get b = .empty := by
  rw [TMap.get, h.fresh b hb]
  rfl

theorem sum_update {f g : ℕ → ℕ} {v : ℕ} (hi : i < inodeSlots) (hg : g i = f i + v)
    (hj : ∀ j, j ≠ i → g j = f j) :
    ∑ j ∈ Finset.range inodeSlots, g j = (∑ j ∈ Finset.range inodeSlots, f j) + v := by
  have := Count.sum_change hi hj
  omega

theorem given_succ (s : St) (h : nmeta ≤ s.freeblock) (m : TMap Block) :
    given { s with img := m, freeblock := s.freeblock + 1 } = insert s.freeblock (given s) := by
  ext b
  simp only [given, Set.mem_ofPred_eq, Set.mem_insert_iff]
  omega

theorem zero_not_given (s : St) : (0 : ℕ) ∉ given s := by
  rintro ⟨h, -⟩
  exact absurd h (by decide)

theorem freeblock_not_given (s : St) : s.freeblock ∉ given s := fun h => lt_irrefl _ h.2

theorem Work.freeblock_ne (h : Work din nb bytes s) : s.freeblock ≠ 0 := by
  have := h.start
  simp only [show nmeta = 46 from rfl] at this
  omega

/-- An inode without an indirect block gets the next block as one. -/
theorem Work.addIndirect (h : Work din nb bytes s) (hi : i < inodeSlots)
    (h0 : slot s.img.get (din i) NDIRECT = 0) :
    Work (Function.update din i
        { din i with addrs := (din i).addrs.set NDIRECT s.freeblock }) nb bytes
      { s with freeblock := s.freeblock + 1 } := by
  have hnew : ∀ τ, slot s.img.get
      { din i with addrs := (din i).addrs.set NDIRECT s.freeblock } τ =
        if τ = NDIRECT then s.freeblock else slot s.img.get (din i) τ :=
    fun τ => slot_setIndirect (h.length i) h0 fun j => by
      rw [h.fresh_get le_rfl]
      exact getWord_empty j
  have hlen : ((din i).addrs.set NDIRECT s.freeblock).length = NDIRECT + 1 := by
    rw [List.length_set]
    exact h.length i
  generalize hd' : ({ din i with addrs := (din i).addrs.set NDIRECT s.freeblock } : Dinode) = d'
  rw [hd'] at hnew
  have hpos := h.freeblock_ne
  have hself : ∀ τ, slot s.img.get (Function.update din i d' i) τ =
      if τ = NDIRECT then s.freeblock else slot s.img.get (din i) τ := by
    intro τ
    rw [Function.update_self]
    exact hnew τ
  have hother : ∀ j, j ≠ i → Function.update din i d' j = din j :=
    fun j hj => Function.update_of_ne hj _ _
  have hplace : place s.img.get (Function.update din i d') =
      Function.update (place s.img.get din) (i, NDIRECT) s.freeblock :=
    place_eq_update hself fun j hj τ => by rw [hother j hj]
  have hblock : ∀ j bn, blockOf s.img.get (Function.update din i d' j) bn =
      blockOf s.img.get (din j) bn := by
    intro j bn
    unfold blockOf
    by_cases hj : j = i
    · rw [hj, hself, if_neg (slotOf_ne bn)]
    · rw [hother j hj]
  have hgiven := given_succ s h.start s.img
  constructor
  · exact Nat.le_succ_of_le h.start
  · exact fun b hb => h.fresh b (Nat.le_of_succ_le hb)
  · rw [hplace, hgiven]
    exact h.ledger.take hpos (freeblock_not_given s)
  · rw [hplace, hgiven]
    exact h.exact.take h0 (zero_not_given s)
  · intro j
    by_cases hj : j = i
    · rw [hj, Function.update_self, ← hd']
      exact hlen
    · rw [hother j hj]
      exact h.length j
  · intro j bn hbn
    rw [hblock]
    exact h.filled j bn hbn
  · intro j off hoff
    rw [← h.contents j off hoff, byteAt, byteAt, dataOf_congr (hblock j _) fun _ => rfl]
  · exact h.fits
  · show s.freeblock + 1 = _
    rw [sum_update (f := fun j => nb j + if slot s.img.get (din j) NDIRECT = 0 then 0 else 1)
      (v := 1) hi ?_ ?_, h.count]
    · omega
    · simp only [hself, if_true, if_neg hpos, h0]
    · intro j hj
      simp only [hother j hj]

section
variable {d' : Dinode} {m : TMap Block} (h : Work din nb bytes s)
  (hself : ∀ τ, slot m.get d' τ =
    if τ = slotOf (nb i) then s.freeblock else slot s.img.get (din i) τ)
  (hm : ∀ b, m.get? b ≠ s.img.get? b → b = slot s.img.get (din i) NDIRECT ∧ b ≠ 0)
include hm

theorem Work.fill_get {b : ℕ} (hb : b = slot s.img.get (din i) NDIRECT → b = 0) :
    m.get? b = s.img.get? b := by
  by_contra hne
  obtain ⟨he, h0⟩ := hm b hne
  exact h0 (hb he)

include h

/-- Beyond the blocks in use nothing changes. -/
theorem Work.fill_fresh {b : ℕ} (hb : s.freeblock ≤ b) : m.get? b = s.img.get? b := by
  refine fill_get hm fun he => ?_
  by_contra h0
  have := (h.slot_given (he ▸ h0)).2
  omega

theorem Work.fill_keep {j σ : ℕ} (hne : (j, σ) ≠ (i, NDIRECT))
    (h0 : slot s.img.get (din j) σ ≠ 0) :
    m.get (slot s.img.get (din j) σ) = s.img.get (slot s.img.get (din j) σ) := by
  rw [TMap.get, fill_get hm, TMap.get]
  intro he
  obtain ⟨rfl, rfl⟩ := h.slot_inj h0 he
  exact absurd rfl hne

theorem Work.fill_slot {j : ℕ} (hj : j ≠ i) (τ : ℕ) :
    slot m.get (Function.update din i d' j) τ = slot s.img.get (din j) τ := by
  rw [Function.update_of_ne hj]
  exact slot_congr (h.fill_keep hm fun he => hj (congrArg Prod.fst he))

include hself

/-- The block that is added reads as the hole it fills. -/
theorem Work.fill_data (hM : nb i < MAXFILE) (j bn : ℕ) :
    dataOf m.get (Function.update din i d' j) bn = dataOf s.img.get (din j) bn := by
  by_cases hj : j = i
  · subst hj
    rw [Function.update_self]
    by_cases he : slotOf bn = slotOf (nb j)
    · have hempty : slot s.img.get (din j) (slotOf (nb j)) = 0 := by
        by_contra h0
        exact lt_irrefl _ ((h.filled j (nb j) hM).1 h0)
      unfold dataOf blockOf
      rw [hself, he, if_pos rfl, if_neg h.freeblock_ne, hempty, if_pos rfl, TMap.get,
        h.fill_fresh hm le_rfl, ← TMap.get, h.fresh_get le_rfl]
    · apply dataOf_congr
      · unfold blockOf
        rw [hself, if_neg he]
      · exact h.fill_keep hm fun hc => slotOf_ne _ (congrArg Prod.snd hc)
  · apply dataOf_congr
    · exact h.fill_slot hm hj _
    · exact h.fill_keep hm fun hc => hj (congrArg Prod.fst hc)

/-- The next block goes to the next file block of an inode, through a direct slot or
through an entry of its indirect block. -/
theorem Work.fill (hi : i < inodeSlots) (hM : nb i < MAXFILE)
    (hlen : d'.addrs.length = NDIRECT + 1) :
    Work (Function.update din i d') (Function.update nb i (nb i + 1)) bytes
      { s with img := m, freeblock := s.freeblock + 1 } := by
  have hself' : ∀ τ, slot m.get (Function.update din i d' i) τ =
      if τ = slotOf (nb i) then s.freeblock else slot s.img.get (din i) τ := by
    intro τ
    rw [Function.update_self]
    exact hself τ
  have hempty : slot s.img.get (din i) (slotOf (nb i)) = 0 := by
    by_contra h0
    exact lt_irrefl _ ((h.filled i (nb i) hM).1 h0)
  have hplace : place m.get (Function.update din i d') =
      Function.update (place s.img.get din) (i, slotOf (nb i)) s.freeblock :=
    place_eq_update hself' fun j hj => h.fill_slot hm hj
  have hgiven := given_succ s h.start m
  constructor
  · exact Nat.le_succ_of_le h.start
  · intro b hb
    have hle : s.freeblock ≤ b := Nat.le_of_succ_le hb
    exact (h.fill_fresh hm hle).trans (h.fresh b hle)
  · rw [hplace, hgiven]
    exact h.ledger.take h.freeblock_ne (freeblock_not_given s)
  · rw [hplace, hgiven]
    exact h.exact.take hempty (zero_not_given s)
  · intro j
    by_cases hj : j = i
    · rw [hj, Function.update_self, hlen]
    · rw [Function.update_of_ne hj]
      exact h.length j
  · intro j bn hbn
    show slot m.get _ _ ≠ 0 ↔ _
    by_cases hj : j = i
    · subst hj
      rw [hself', Function.update_self]
      by_cases he : slotOf bn = slotOf (nb j)
      · rw [if_pos he, slotOf_inj he]
        simpa using h.freeblock_ne
      · have hne : bn ≠ nb j := fun hc => he (congrArg slotOf hc)
        rw [if_neg he, ← blockOf, h.filled j bn hbn]
        omega
    · rw [h.fill_slot hm hj, Function.update_of_ne hj]
      exact h.filled j bn hbn
  · intro j off hoff
    rw [← h.contents j off hoff, byteAt, byteAt]
    exact congrArg (TMap.get · _) (h.fill_data hself hm hM j _)
  · exact h.fits
  · show s.freeblock + 1 = _
    rw [sum_update (f := fun j => nb j + if slot s.img.get (din j) NDIRECT = 0 then 0 else 1)
      (v := 1) hi ?_ ?_, h.count]
    · omega
    · simp only [Function.update_self, hself, if_neg (slotOf_ne (nb i)).symm]
      omega
    · intro j hj
      rw [h.fill_slot hm hj, Function.update_of_ne hj]

end

/-- Bytes are appended inside a block that the inode has. -/
theorem Work.append (h : Work din nb bytes s) {p : List UInt8}
    (hbn : (bytes i).length / BSIZE < nb i) (hM : (bytes i).length / BSIZE < MAXFILE)
    (hp : (bytes i).length % BSIZE + p.length ≤ BSIZE) {x : ℕ}
    (hx : x = blockOf s.img.get (din i) ((bytes i).length / BSIZE)) :
    Work din nb (Function.update bytes i (bytes i ++ p))
      { s with
        img := s.img.set x ((s.img.get x).putBytes ((bytes i).length % BSIZE) p) } := by
  let m := s.img.set x ((s.img.get x).putBytes ((bytes i).length % BSIZE) p)
  have hx0 : x ≠ 0 := hx ▸ (h.filled i _ hM).2 hbn
  have hne : ∀ j σ, (j, σ) ≠ (i, slotOf ((bytes i).length / BSIZE)) →
      slot s.img.get (din j) σ ≠ x := by
    intro j σ hjs he
    rw [hx] at he hx0
    obtain ⟨rfl, rfl⟩ := h.slot_inj hx0 he.symm
    exact hjs rfl
  have hslot : ∀ j τ, slot m.get (din j) τ = slot s.img.get (din j) τ := by
    intro j τ
    apply slot_congr
    intro _
    exact TMap.get_set_ne _ _ (hne j NDIRECT fun he => slotOf_ne _ (congrArg Prod.snd he).symm)
  have hplace : place m.get din = place s.img.get din := funext fun q => hslot q.1 q.2
  have hxg : x < s.freeblock := by
    rw [hx] at hx0 ⊢
    exact (h.slot_given hx0).2
  constructor
  · exact h.start
  · intro b hb
    have hb' : s.freeblock ≤ b := hb
    show m.get? b = none
    rw [TMap.get?_set, if_neg (by omega), h.fresh b hb]
  · rw [show (St.img { s with img := m }).get = m.get from rfl, hplace]
    exact h.ledger
  · rw [show (St.img { s with img := m }).get = m.get from rfl, hplace]
    exact h.exact
  · exact h.length
  · intro j bn hb
    show slot m.get _ _ ≠ 0 ↔ _
    rw [hslot]
    exact h.filled j bn hb
  · intro j off hoff
    show (dataOf m.get (din j) (off / BSIZE)).get (off % BSIZE) = _
    by_cases hj : j = i ∧ off / BSIZE = (bytes i).length / BSIZE
    · obtain ⟨rfl, hb⟩ := hj
      have hold := h.contents j off hoff
      unfold byteAt dataOf blockOf at hold
      unfold dataOf blockOf
      rw [hslot, hb, ← blockOf, ← hx, if_neg hx0, Function.update_self, TMap.get_set_self,
        Bytes.get_putBytes]
      rw [hb, ← blockOf, ← hx, if_neg hx0] at hold
      by_cases hlt : off < (bytes j).length
      · have hout : ¬ ((bytes j).length % BSIZE ≤ off % BSIZE ∧
            off % BSIZE < (bytes j).length % BSIZE + p.length) := by
          simp only [BSIZE] at *
          omega
        rw [if_neg hout, List.getD_append _ _ _ _ hlt]
        exact hold
      · rw [List.getD_append_right _ _ _ _ (by omega)]
        have hsub : off % BSIZE - (bytes j).length % BSIZE = off - (bytes j).length ∧
            (bytes j).length % BSIZE ≤ off % BSIZE := by
          simp only [BSIZE] at *
          omega
        by_cases hin : off % BSIZE < (bytes j).length % BSIZE + p.length
        · rw [if_pos ⟨hsub.2, hin⟩, hsub.1]
        · rw [if_neg fun hc => hin hc.2, List.getD_eq_default _ _ (by omega)]
          rw [List.getD_eq_default _ _ (by omega)] at hold
          exact hold
    · have hold := h.contents j off hoff
      unfold byteAt at hold
      rw [dataOf_congr (hslot j _) fun _ => TMap.get_set_ne _ _ (hne j _ fun he => hj
        ⟨congrArg Prod.fst he, slotOf_inj (congrArg Prod.snd he)⟩), hold]
      by_cases hji : j = i
      · subst hji
        have hb : off / BSIZE ≠ (bytes j).length / BSIZE := fun he => hj ⟨rfl, he⟩
        rw [Function.update_self]
        simp only [BSIZE] at hb hp
        by_cases hlt : off < (bytes j).length
        · rw [List.getD_append _ _ _ _ hlt]
        · rw [List.getD_append_right _ _ _ _ (by omega), List.getD_eq_default _ _ (by omega),
            List.getD_eq_default _ _ (by omega)]
      · rw [Function.update_of_ne hji]
  · intro j
    by_cases hji : j = i
    · rw [hji, Function.update_self, List.length_append]
      simp only [BSIZE, show MAXFILE = 268 from rfl] at *
      omega
    · rw [Function.update_of_ne hji]
      exact h.fits j
  · exact h.count

theorem Work.fillEntry (h : Work din nb bytes s) (hi : i < inodeSlots) (hM : nb i < MAXFILE)
    (hn : NDIRECT ≤ nb i) {p : ℕ} (hp : p = slot s.img.get (din i) NDIRECT) (hp0 : p ≠ 0)
    (h32 : s.freeblock < 2 ^ 32) :
    Work din (Function.update nb i (nb i + 1)) bytes
      { s with
        img := s.img.set p (putWord (s.img.get p) (nb i - NDIRECT) s.freeblock)
        freeblock := s.freeblock + 1 } := by
  have hself : ∀ τ, slot (s.img.set p (putWord (s.img.get p) (nb i - NDIRECT) s.freeblock)).get
      (din i) τ = if τ = slotOf (nb i) then s.freeblock else slot s.img.get (din i) τ := by
    intro τ
    have hσ : slotOf (nb i) = NDIRECT + 1 + (nb i - NDIRECT) := by
      rw [slotOf, if_neg (by omega)]
      omega
    rw [hσ]
    apply slot_putWord
    · have : MAXFILE = NDIRECT + NINDIRECT := rfl
      omega
    · exact hp ▸ hp0
    · exact h32
    · rw [← hp, TMap.get_set_self]
  have hfill := h.fill hself (fun b hb => ?_) hi hM (h.length i)
  · rwa [Function.update_eq_self] at hfill
  · rw [TMap.get?_set] at hb
    by_cases hbp : b = p
    · exact ⟨hbp.trans hp, hbp ▸ hp0⟩
    · rw [if_neg hbp] at hb
      exact absurd rfl hb

/-- Between two rounds of `iappend` an inode has an indirect block only when it needs
one, and nothing past the end of the image was taken or written. -/
structure Laid (din : ℕ → Dinode) (nb : ℕ → ℕ) (bytes : ℕ → List UInt8) (s : St) : Prop
    extends Work din nb bytes s where
  snug : ∀ i, slot s.img.get (din i) NDIRECT ≠ 0 ↔ NDIRECT < nb i
  written : ∀ b, s.img.get? b ≠ none → b < FSSIZE
  taken : s.freeblock ≤ FSSIZE

structure Frame (s t : St) : Prop where
  img : ∀ b, b < nmeta → t.img.get? b = s.img.get? b
  freeinode : t.freeinode = s.freeinode
  inodes : t.inodes = s.inodes

theorem Frame.refl (s : St) : Frame s s := ⟨fun _ _ => rfl, rfl, rfl⟩

theorem Frame.trans {s t u : St} (h₁ : Frame s t) (h₂ : Frame t u) : Frame s u :=
  ⟨fun b hb => (h₂.img b hb).trans (h₁.img b hb), h₂.freeinode.trans h₁.freeinode,
    h₂.inodes.trans h₁.inodes⟩

section
variable {E : Exit → St → Prop}

@[simp] theorem post_rsect {sec : ℕ} {Q : Block → St → Prop} :
    Post (rsect sec) s Q E ↔
      (FSSIZE ≤ sec → E .die s) ∧ (sec < FSSIZE → Q (s.img.get sec) s) := by
  simp only [rsect, post_bind, post_ite, post_throw, post_pure, post_get, ge_iff_le, not_le]

@[simp] theorem post_wsect {sec : ℕ} {buf : Block} {Q : Unit → St → Prop} :
    Post (wsect sec buf) s Q E ↔ Q () { s with img := s.img.set sec buf } := by
  simp [wsect]

@[simp] theorem post_takeBlock {Q : ℕ → St → Prop} :
    Post takeBlock s Q E ↔ Q s.freeblock { s with freeblock := s.freeblock + 1 } := by
  simp [takeBlock]

/-- What `blockFor` leaves: file block `fbn` has block `x`, which is the last one taken
when any was. -/
structure Found (din : ℕ → Dinode) (nb : ℕ → ℕ) (bytes : ℕ → List UInt8) (s : St)
    (i fbn x : ℕ) (d' : Dinode) (t : St) : Prop
    extends Work (Function.update din i d') (Function.update nb i (max (nb i) (fbn + 1))) bytes t
    where
  snug : ∀ j, slot t.img.get (Function.update din i d' j) NDIRECT ≠ 0 ↔
    NDIRECT < Function.update nb i (max (nb i) (fbn + 1)) j
  written : ∀ b, t.img.get? b ≠ none → b < FSSIZE
  block : x = blockOf t.img.get d' fbn
  last : t.freeblock ≤ FSSIZE ∨ t.freeblock = x + 1
  head : SameHead (din i) d'
  frame : Frame s t

/-- The blocks an image takes whose inodes have `nb` blocks. -/
def need (nb : ℕ → ℕ) : ℕ := nmeta + ∑ i ∈ Finset.range inodeSlots, cost (nb i)

theorem Work.freeblock_eq (h : Work din nb bytes s)
    (hs : ∀ i, slot s.img.get (din i) NDIRECT ≠ 0 ↔ NDIRECT < nb i) : s.freeblock = need nb := by
  rw [h.count, need, Finset.sum_congr rfl]
  intro j _
  unfold cost
  by_cases hj : NDIRECT < nb j
  · rw [if_neg ((hs j).2 hj), if_pos hj]
  · rw [if_pos (not_not.1 fun h0 => hj ((hs j).1 h0)), if_neg hj]

theorem cost_mono {a b : ℕ} (h : a ≤ b) : cost a ≤ cost b := by
  unfold cost
  split_ifs <;> omega

theorem need_mono {f g : ℕ → ℕ} (h : ∀ j, f j ≤ g j) : need f ≤ need g := by
  unfold need
  apply Nat.add_le_add_left
  exact Finset.sum_le_sum fun j _ => cost_mono (h j)

theorem need_update {v : ℕ} (hi : i < inodeSlots) (hv : nb i ≤ v) :
    need (Function.update nb i v) = need nb + (cost v - cost (nb i)) := by
  have hc := cost_mono hv
  rw [need, need, sum_update (f := fun j => cost (nb j)) (v := cost v - cost (nb i)) hi,
    Nat.add_assoc]
  · rw [Function.update_self]
    omega
  · intro j hj
    rw [Function.update_of_ne hj]

theorem Laid.found (h : Laid din nb bytes s) {fbn : ℕ} (hlt : fbn < nb i) :
    Found din nb bytes s i fbn (blockOf s.img.get (din i) fbn) (din i) s := by
  have hmax : max (nb i) (fbn + 1) = nb i := by omega
  refine ⟨?_, ?_, h.written, rfl, .inl h.taken, .refl _, .refl s⟩
  · rw [hmax, Function.update_eq_self, Function.update_eq_self]
    exact h.toWork
  · rw [hmax, Function.update_eq_self, Function.update_eq_self]
    exact h.snug

theorem Laid.foundDirect (h : Laid din nb bytes s) (hi : i < inodeSlots) (hn : nb i < NDIRECT) :
    Found din nb bytes s i (nb i) s.freeblock
      { din i with addrs := (din i).addrs.set (nb i) s.freeblock }
      { s with freeblock := s.freeblock + 1 } := by
  have hM : nb i < MAXFILE := lt_trans hn (by decide)
  have hσ : slotOf (nb i) = nb i := if_pos hn
  have hself : ∀ τ, slot s.img.get { din i with addrs := (din i).addrs.set (nb i) s.freeblock } τ =
      if τ = slotOf (nb i) then s.freeblock else slot s.img.get (din i) τ := by
    intro τ
    rw [hσ]
    exact slot_setDirect (h.length i) hn
  have hlen : ((din i).addrs.set (nb i) s.freeblock).length = NDIRECT + 1 := by
    rw [List.length_set]
    exact h.length i
  have hmax : max (nb i) (nb i + 1) = nb i + 1 := by omega
  refine ⟨?_, ?_, h.written, ?_, .inr rfl, ⟨rfl, rfl, rfl, rfl, rfl⟩, ⟨fun _ _ => rfl, rfl, rfl⟩⟩
  · rw [hmax]
    exact h.fill hself (fun b hb => absurd rfl hb) hi hM hlen
  · intro j
    show slot s.img.get _ _ ≠ 0 ↔ _
    by_cases hj : j = i
    · subst hj
      rw [Function.update_self, Function.update_self, hself, if_neg (slotOf_ne _).symm, h.snug j]
      omega
    · rw [Function.update_of_ne hj, Function.update_of_ne hj]
      exact h.snug j
  · show _ = slot s.img.get _ _
    rw [hself, if_pos rfl]

theorem Work.foundEntry {din₀ : ℕ → Dinode} {s₀ : St} (h : Work din nb bytes s)
    (hi : i < inodeSlots) (hM : nb i < MAXFILE) (hn : NDIRECT ≤ nb i)
    {p : ℕ} (hp : p = slot s.img.get (din i) NDIRECT) (hp0 : p ≠ 0) (hpF : p < FSSIZE)
    (h32 : s.freeblock < 2 ^ 32)
    (hs : ∀ j, j ≠ i → (slot s.img.get (din j) NDIRECT ≠ 0 ↔ NDIRECT < nb j))
    (hw : ∀ b, s.img.get? b ≠ none → b < FSSIZE) (hdin : ∀ j, j ≠ i → din₀ j = din j)
    (hhead : SameHead (din₀ i) (din i)) (hf : Frame s₀ s) :
    Found din₀ nb bytes s₀ i (nb i) s.freeblock (din i)
      { s with
        img := s.img.set p (putWord (s.img.get p) (nb i - NDIRECT) s.freeblock)
        freeblock := s.freeblock + 1 } := by
  have hfill := h.fillEntry hi hM hn hp hp0 h32
  have hmax : max (nb i) (nb i + 1) = nb i + 1 := by omega
  have hd : Function.update din₀ i (din i) = din := by
    funext j
    by_cases hj : j = i
    · rw [hj, Function.update_self]
    · rw [Function.update_of_ne hj, hdin j hj]
  have hpn : nmeta ≤ p := by
    rw [hp] at hp0 ⊢
    exact (h.slot_given hp0).1
  refine ⟨?_, ?_, ?_, ?_, .inr rfl, hhead, ⟨fun b hb => ?_, hf.freeinode, hf.inodes⟩⟩
  · rw [hmax, hd]
    exact hfill
  · intro j
    rw [hd, hmax, slot_direct le_rfl, ← slot_direct (V := s.img.get) le_rfl]
    by_cases hj : j = i
    · subst hj
      rw [← hp, Function.update_self]
      simp only [ne_eq, hp0, not_false_eq_true, true_iff]
      omega
    · rw [Function.update_of_ne hj]
      exact hs j hj
  · intro b hb
    by_cases hbp : b = p
    · rwa [hbp]
    · apply hw b
      rwa [TMap.get?_set, if_neg hbp] at hb
  · have hlt : nb i < Function.update nb i (nb i + 1) i := by
      rw [Function.update_self]
      omega
    have hσ : slotOf (nb i) = NDIRECT + 1 + (nb i - NDIRECT) := by
      rw [slotOf, if_neg (by omega)]
      omega
    show _ = slot _ _ _
    rw [hσ, slot_putWord (V := s.img.get) (b := s.freeblock) (j := nb i - NDIRECT) ?_ (hp ▸ hp0) h32
      (by rw [← hp, TMap.get_set_self]), if_pos rfl]
    have : MAXFILE = NDIRECT + NINDIRECT := rfl
    omega
  · show (s.img.set p _).get? b = _
    rw [TMap.get?_set, if_neg (by omega), hf.img b hb]

theorem Found.freeblock_eq {fbn x : ℕ} {d' : Dinode} {t : St}
    (h : Found din nb bytes s i fbn x d' t) :
    t.freeblock = need (Function.update nb i (max (nb i) (fbn + 1))) :=
  h.toWork.freeblock_eq h.snug

theorem blockFor_spec (h : Laid din nb bytes s) (hi : i < inodeSlots) {fbn : ℕ}
    (hle : fbn ≤ nb i) (hM : fbn < MAXFILE)
    (hdie : FSSIZE < need (Function.update nb i (max (nb i) (fbn + 1))) → ∀ t, E .die t) :
    Post (blockFor (din i) fbn) s (fun r t => Found din nb bytes s i fbn r.1 r.2 t) E := by
  have hfilled := h.filled i fbn hM
  have hfree := h.toWork.freeblock_eq h.snug
  have hF : FSSIZE = 1000 := rfl
  have htaken := h.taken
  unfold blockFor
  by_cases hd : fbn < NDIRECT
  · have hblk : blockOf s.img.get (din i) fbn = (din i).addrs.getD fbn 0 := by
      rw [blockOf, slotOf, if_pos hd, slot_direct hd.le]
    simp only [hd, if_true]
    by_cases h0 : (din i).addrs.getD fbn 0 = 0
    · have hnb : fbn = nb i := by
        have : ¬ fbn < nb i := fun hlt => hfilled.2 hlt (hblk.trans h0)
        omega
      simp only [h0, if_true, post_bind, post_takeBlock, post_pure]
      subst hnb
      exact h.foundDirect hi hd
    · simp only [h0, if_false, post_pure]
      rw [← hblk] at h0 ⊢
      exact h.found (hfilled.1 h0)
  · have hblk : blockOf s.img.get (din i) fbn = slot s.img.get (din i) (fbn + 1) := by
      rw [blockOf, slotOf, if_neg hd]
    have hind : slot s.img.get (din i) NDIRECT = (din i).addrs.getD NDIRECT 0 := slot_direct le_rfl
    simp only [hd, if_false, post_bind]
    unfold withIndirect
    by_cases h0 : (din i).addrs.getD NDIRECT 0 = 0
    · -- the first block behind the indirect block: both are taken now
      have hnb : fbn = nb i ∧ nb i = NDIRECT := by
        have := (h.snug i).not.1 (not_not.2 (hind.trans h0))
        omega
      obtain ⟨rfl, hn⟩ := hnb
      have hadd := h.toWork.addIndirect hi (hind.trans h0)
      have hget : ((din i).addrs.set NDIRECT s.freeblock).getD NDIRECT 0 = s.freeblock := by
        rw [getD_set_addr (by rw [h.length i]; omega), if_pos rfl]
      have hgrow := need_update hi (show nb i ≤ max (nb i) (nb i + 1) by omega)
      have hcost : cost (max (nb i) (nb i + 1)) - cost (nb i) = 2 := by
        rw [hn]
        decide
      simp only [h0, if_true, post_bind, post_takeBlock, post_pure, hget, post_rsect]
      refine ⟨fun hge => hdie (by omega) _, fun hlt => ?_⟩
      rw [h.fresh_get le_rfl, getWord_empty, if_pos rfl]
      simp only [post_bind, post_takeBlock, post_wsect, post_pure]
      have hself : Function.update din i { din i with
          addrs := (din i).addrs.set NDIRECT s.freeblock } i = { din i with
          addrs := (din i).addrs.set NDIRECT s.freeblock } := Function.update_self ..
      have hfound : Found din nb bytes s i (nb i) _ _ _ := hadd.foundEntry (p := s.freeblock) hi hM
        hn.ge
        (by rw [hself, slot_direct le_rfl, hget])
        (by
          have := h.start
          simp only [show nmeta = 46 from rfl] at this
          omega)
        hlt (by simp only; omega)
        (fun j hj => by
          rw [Function.update_of_ne hj]
          exact h.snug j)
        h.written (fun j hj => (Function.update_of_ne hj _ _).symm)
        (by
          rw [hself]
          exact ⟨rfl, rfl, rfl, rfl, rfl⟩)
        ⟨fun _ _ => rfl, rfl, rfl⟩
      rw [hself] at hfound
      simp only [h.fresh_get le_rfl] at hfound
      exact hfound
    · have hp0 : slot s.img.get (din i) NDIRECT ≠ 0 := hind ▸ h0
      have hpF : slot s.img.get (din i) NDIRECT < FSSIZE := by
        have := (h.slot_given hp0).2
        omega
      have hentry : blockOf s.img.get (din i) fbn =
          getWord (s.img.get ((din i).addrs.getD NDIRECT 0)) (fbn - NDIRECT) := by
        rw [hblk, slot_entry (by omega) (by unfold NSLOT; omega) hp0, hind]
        congr 1
      rw [hind] at hpF
      simp only [h0, if_false, post_pure, post_rsect]
      refine ⟨fun hge => by omega, fun _ => ?_⟩
      rw [← hentry]
      by_cases he : blockOf s.img.get (din i) fbn = 0
      · have hnb : fbn = nb i := by
          have : ¬ fbn < nb i := fun hlt => hfilled.2 hlt he
          omega
        subst hnb
        simp only [he, if_true, post_bind, post_takeBlock, post_wsect, post_pure]
        exact h.toWork.foundEntry hi hM (by omega) hind.symm h0 hpF (by omega)
          (fun j _ => h.snug j) h.written (fun _ _ => rfl) (.refl _) (.refl s)
      · simp only [he, if_false, post_pure]
        exact h.found (hfilled.1 he)

structure Appended (din : ℕ → Dinode) (nb : ℕ → ℕ) (bytes : ℕ → List UInt8) (s : St) (i : ℕ)
    (p : List UInt8) (d' : Dinode) (t : St) : Prop
    extends Laid (Function.update din i d')
      (Function.update nb i (nblocks ((bytes i).length + p.length)))
      (Function.update bytes i (bytes i ++ p)) t where
  head : SameHead (din i) d'
  frame : Frame s t

theorem Laid.appended_nil (h : Laid din nb bytes s) (hnb : nb i = nblocks (bytes i).length) :
    Appended din nb bytes s i [] (din i) s := by
  refine ⟨?_, .refl _, .refl s⟩
  rw [List.length_nil, Nat.add_zero, ← hnb, List.append_nil, Function.update_eq_self,
    Function.update_eq_self, Function.update_eq_self]
  exact h

theorem Found.write {x : ℕ} {d' : Dinode} {t : St} {p : List UInt8}
    (h : Found din nb bytes s i ((bytes i).length / BSIZE) x d' t)
    (hM : (bytes i).length / BSIZE < MAXFILE)
    (hnb : nb i ≤ (bytes i).length / BSIZE + 1)
    (hp : (bytes i).length % BSIZE + p.length ≤ BSIZE) (hx : x < FSSIZE) :
    Laid (Function.update din i d') (Function.update nb i ((bytes i).length / BSIZE + 1))
      (Function.update bytes i (bytes i ++ p))
      { t with img := t.img.set x ((t.img.get x).putBytes ((bytes i).length % BSIZE) p) } := by
  have hmax : max (nb i) ((bytes i).length / BSIZE + 1) = (bytes i).length / BSIZE + 1 := by
    omega
  have hwork := h.toWork
  have hsnug := h.snug
  rw [hmax] at hwork hsnug
  refine ⟨?_, hsnug, ?_, ?_⟩
  · apply hwork.append
    · rw [Function.update_self]
      omega
    · exact hM
    · exact hp
    · rw [Function.update_self]
      exact h.block
  · intro b hb
    by_cases hbx : b = x
    · rwa [hbx]
    · apply h.written b
      rwa [TMap.get?_set, if_neg hbx] at hb
  · have := h.last
    show t.freeblock ≤ FSSIZE
    omega

theorem iappendLoop_spec {fuel : ℕ} {p : List UInt8} (hf : p.length ≤ fuel)
    (h : Laid din nb bytes s) (hi : i < inodeSlots) (hnb : nb i = nblocks (bytes i).length)
    (hdie : FSSIZE < need (Function.update nb i (nblocks ((bytes i).length + p.length))) →
      ∀ t, E .die t)
    (hassert : MAXFILE * BSIZE < (bytes i).length + p.length → ∀ t, E .assert t) :
    Post (iappendLoop fuel (din i) (bytes i).length p) s
      (fun r t => r.2 = (bytes i).length + p.length ∧ Appended din nb bytes s i p r.1 t) E := by
  induction fuel generalizing din nb bytes s p with
  | zero =>
    obtain rfl : p = [] := List.eq_nil_of_length_eq_zero (by omega)
    simp only [iappendLoop, post_pure]
    exact ⟨rfl, h.appended_nil hnb⟩
  | succ fuel ih =>
    unfold iappendLoop
    by_cases hp : p = []
    · subst hp
      simp only [if_true, post_pure]
      exact ⟨rfl, h.appended_nil hnb⟩
    · have hpos : 0 < p.length := List.length_pos_of_ne_nil hp
      simp only [hp, if_false]
      by_cases hM : (bytes i).length / BSIZE < MAXFILE
      · simp only [hM, not_true, if_false, post_bind]
        generalize hoff : (bytes i).length = off at *
        let n1 := min p.length ((off / BSIZE + 1) * BSIZE - off)
        have hn1 : 0 < n1 ∧ n1 ≤ p.length ∧ off % BSIZE + n1 ≤ BSIZE ∧
            nblocks (off + n1) = off / BSIZE + 1 ∧ nblocks off ≤ off / BSIZE + 1 ∧
            off / BSIZE ≤ nblocks off ∧ off - off / BSIZE * BSIZE = off % BSIZE ∧
            nblocks (off + n1) ≤ nblocks (off + p.length) := by
          simp only [n1, nblocks, BSIZE]
          omega
        obtain ⟨hn0, hnp, hfit, hnew, hold, hle, hmod, hmono⟩ := hn1
        have hmax : max (nb i) (off / BSIZE + 1) = off / BSIZE + 1 := by omega
        have hneed : need (Function.update nb i (off / BSIZE + 1)) ≤
            need (Function.update nb i (nblocks (off + p.length))) := by
          apply need_mono
          intro j
          by_cases hj : j = i
          · rw [hj, Function.update_self, Function.update_self]
            omega
          · rw [Function.update_of_ne hj, Function.update_of_ne hj]
        apply (blockFor_spec h hi (by omega) hM ?_).imp
        · rintro ⟨x, d'⟩ t hfound
          have hx0 : x ≠ 0 := by
            have := (hfound.filled i (off / BSIZE) hM).2
            rw [Function.update_self, Function.update_self, ← hfound.block] at this
            exact this (by omega)
          have hxt : x < t.freeblock := by
            have hb := hfound.block
            have := hfound.slot_given (i := i) (σ := slotOf (off / BSIZE))
            rw [Function.update_self, ← blockOf, ← hb] at this
            exact (this hx0).2
          have htf := hfound.freeblock_eq
          rw [hmax] at htf
          simp only [post_rsect, post_wsect]
          refine ⟨fun hge => hdie (by omega) t, fun hlt => ?_⟩
          have hlaid := Found.write (p := p.take n1) (hoff ▸ hfound) (hoff ▸ hM)
            (by rw [hoff]; omega) (by rw [hoff, List.length_take, min_eq_left hnp]; exact hfit) hlt
          rw [hoff] at hlaid
          have hlen : (Function.update bytes i (bytes i ++ p.take n1) i).length = off + n1 := by
            rw [Function.update_self, List.length_append, hoff, List.length_take, min_eq_left hnp]
          have hih := ih (p := p.drop n1) (by rw [List.length_drop]; omega) hlaid
            (by rw [Function.update_self, hlen, hnew])
            (by
              rw [hlen, List.length_drop, Function.update_idem,
                show off + n1 + (p.length - n1) = off + p.length by omega]
              exact hdie)
            (by
              rw [hlen, List.length_drop, show off + n1 + (p.length - n1) = off + p.length by omega]
              exact hassert)
          rw [hlen, Function.update_self] at hih
          rw [hmod]
          apply hih.imp
          rintro ⟨d'', off'⟩ u ⟨hr, happ⟩
          rw [List.length_drop] at hr
          refine ⟨by simp only at hr ⊢; omega, ?_, ?_, ?_⟩
          · have := happ.toLaid
            rw [Function.update_idem, Function.update_idem, Function.update_idem, hlen,
              List.length_drop, show off + n1 + (p.length - n1) = off + p.length by omega,
              Function.update_self, List.append_assoc, List.take_append_drop] at this
            rw [hoff]
            exact this
          · have := happ.head
            rw [Function.update_self] at this
            exact hfound.head.trans this
          · refine hfound.frame.trans ⟨fun b hb => ?_, happ.frame.freeinode, happ.frame.inodes⟩
            rw [happ.frame.img b hb, TMap.get?_set, if_neg]
            have hb' := hfound.block
            have := hfound.slot_given (i := i) (σ := slotOf (off / BSIZE))
            rw [Function.update_self, ← blockOf, ← hb'] at this
            have := (this hx0).1
            omega
        · rw [hmax]
          exact fun hlt => hdie (lt_of_lt_of_le hlt hneed)
      · simp only [hM, not_false_eq_true, if_true, post_bind, post_throw]
        have hlong : MAXFILE * BSIZE < (bytes i).length + p.length := by
          rw [Nat.not_lt, Nat.le_div_iff_mul_le (by decide)] at hM
          omega
        exact hassert hlong s

end

end

end Mkfs
end Xv6
