import Xv6.User.UmallocSearch

/-!
The heap of a program that uses the allocator. The free blocks and the live blocks divide the
memory that `sbrk` returned, and each call keeps it so.
-/

namespace Xv6
namespace Umalloc
open Blocks CircularList

def block (h : Heap) (l : ℕ × ℕ) : Span := ⟨l.1 - UNIT, UNIT * (h.mem (l.1 - UNIT)).size⟩

def liveBlocks (s : Prog) : List Span := s.live.map (block s.heap)

structure Divided (base : ℕ) (s : Prog) (F : List Span) : Prop where
  /-- The circular list visits `base` and the free blocks in address order; they do not touch. -/
  free : FreeList base s.heap F
  /-- A live block has a header and the bytes asked for. -/
  usable : ∀ l ∈ s.live, UNIT ≤ l.1 ∧ l.2 + UNIT ≤ (block s.heap l).len
  apart : (liveBlocks s).Pairwise fun b c => Disjoint b.bytes c.bytes
  owned : ∀ b ∈ liveBlocks s, Disjoint b.bytes (cover F)
  covers : cover F ∪ cover (liveBlocks s) = cover s.heap.regions
  sum : total F + total (liveBlocks s) = total s.heap.regions

structure Bounded (base : ℕ) (h : Heap) : Prop where
  above : ∀ r ∈ h.regions, base + UNIT ≤ r.start ∧ r.stop < 2 ^ 64
  room : total h.regions < UNIT * 2 ^ 32

/-- Before the first call. -/
def Unused (s : Prog) : Prop := s.heap.freep = 0 ∧ s.heap.regions = [] ∧ s.live = []

def Consistent (base : ℕ) (s : Prog) : Prop := Unused s ∨ ∃ F, Divided base s F

section
variable {base : ℕ} {s : Prog} {F : List Span} {b : Span} {l : ℕ × ℕ}

theorem Divided.mem_live (hl : l ∈ s.live) : block s.heap l ∈ liveBlocks s := List.mem_map_of_mem hl

theorem Divided.len_pos (h : Divided base s F) (hl : l ∈ s.live) : UNIT ≤ (block s.heap l).len :=
  le_trans (Nat.le_add_left _ _) (h.usable l hl).2

theorem Divided.subset (h : Divided base s F) (hl : l ∈ s.live) :
    (block s.heap l).bytes ⊆ cover s.heap.regions := by
  rw [← h.covers]
  exact (bytes_subset_cover (Divided.mem_live hl)).trans Set.subset_union_right

theorem Divided.start_mem (h : Divided base s F) (hl : l ∈ s.live) :
    (block s.heap l).start ∈ (block s.heap l).bytes :=
  start_mem_bytes (lt_of_lt_of_le (by decide) (h.len_pos hl))

theorem Bounded.base_lt (hb : Bounded base s.heap) {x : ℕ} (hx : x ∈ cover s.heap.regions) :
    base + UNIT ≤ x := by
  obtain ⟨r, hr, hxr⟩ := hx
  exact (hb.above r hr).1.trans (Set.mem_Ico.mp hxr).1

theorem Divided.not_node (h : Divided base s F) (hb : Bounded base s.heap) (hl : l ∈ s.live) :
    (block s.heap l).start ∉ base :: F.map Span.start := by
  intro hmem
  obtain heq | hmem := List.mem_cons.mp hmem
  · have := hb.base_lt (h.subset hl (h.start_mem hl))
    rw [heq] at this
    unfold UNIT at this
    omega
  · obtain ⟨c, hc, hcl⟩ := List.mem_map.mp hmem
    refine Set.disjoint_left.mp (h.owned _ (Divided.mem_live hl)) (h.start_mem hl) ?_
    rw [← hcl]
    exact bytes_subset_cover hc (start_mem_bytes (h.free.pos c hc))

theorem block_congr {h h' : Heap} (hl : h'.mem (block h l).start = h.mem (block h l).start) :
    block h' l = block h l := by
  unfold block at *
  rw [hl]

/-- The first call sets up the static header. -/
theorem freeList_init {h : Heap} (hbase : base < 2 ^ 64) :
    FreeList base { h.set base ⟨base, 0⟩ with freep := base } [] := by
  constructor
  case ring => exact linked_pair.mpr (congrArg Header.ptr (set_mem_self base _))
  case freep => exact List.mem_cons_self
  case sizes =>
    intro b hb
    obtain rfl := List.mem_singleton.mp hb
    show 0 = UNIT * ((h.set base ⟨base, 0⟩).mem base).size
    rw [set_mem_self]
    rfl
  case pos => exact fun b hb => nomatch hb
  case below =>
    intro b hb
    obtain rfl := List.mem_singleton.mp hb
    exact hbase
  case spaced => exact List.pairwise_singleton _ _

/-- `malloc` after the first call. -/
def ready (base : ℕ) (h : Heap) : Heap :=
  if h.freep = 0 then { h.set base ⟨base, 0⟩ with freep := base } else h

theorem Divided.freep_pos (h : Divided base s F) (hbase : 0 < base) : s.heap.freep ≠ 0 := by
  obtain heq | hmem := List.mem_cons.mp h.free.freep
  · omega
  · obtain ⟨c, hc, hca⟩ := List.mem_map.mp hmem
    have : base < c.start := h.free.spaced.lt hc
    omega

theorem Consistent.ready (h : Consistent base s) (hbase : 0 < base) (hb64 : base < 2 ^ 64) :
    (∃ F, Divided base { s with heap := ready base s.heap } F) ∧
      (Umalloc.ready base s.heap).regions = s.heap.regions := by
  obtain ⟨hfreep, hregions, hlive⟩ | ⟨F, hF⟩ := h
  · have hready : Umalloc.ready base s.heap = { s.heap.set base ⟨base, 0⟩ with freep := base } :=
      if_pos hfreep
    rw [hready]
    refine ⟨⟨[], freeList_init hb64, ?_, ?_, ?_, ?_, ?_⟩, rfl⟩
    · intro l hl
      rw [hlive] at hl
      cases hl
    · simp [liveBlocks, hlive]
    · simp [liveBlocks, hlive]
    · show cover [] ∪ cover (s.live.map _) = cover s.heap.regions
      simp [hlive, hregions]
    · show total [] + total (s.live.map _) = total s.heap.regions
      simp [hlive, hregions]
  · have hready : Umalloc.ready base s.heap = s.heap := if_neg (hF.freep_pos hbase)
    rw [hready]
    exact ⟨⟨F, hF⟩, rfl⟩

section
variable (h : Divided base s F) {rs F₁ F' : List Span} {h₁ h' : Heap} {ap nbytes : ℕ}
  (hg : Grown base s.heap F rs h₁ F₁)
include h hg

theorem Divided.apart_grown (hl : l ∈ s.live) : Disjoint (block s.heap l).bytes (cover F₁) := by
  rw [hg.cover, Set.disjoint_union_right]
  refine ⟨?_, h.owned _ (Divided.mem_live hl)⟩
  rw [Set.disjoint_left]
  rintro x hx ⟨r, hr, hxr⟩
  obtain ⟨q, hq, hxq⟩ := h.subset hl hx
  have h₁ := (hg.fresh r hr).2.2 q hq
  have h₂ := (Set.mem_Ico.mp hxr).1
  have h₃ := (Set.mem_Ico.mp hxq).2
  omega

/-- The blocks of the program stay as they are. -/
theorem Divided.block_taken (hb : Bounded base s.heap)
    (ht : Taken base h₁ F₁ (units nbytes) ap h' F' b) (hl : l ∈ s.live) :
    block h' l = block s.heap l := by
  have hstart := h.start_mem hl
  have hnode : (block s.heap l).start ∉ base :: F.map Span.start := h.not_node hb hl
  have hout : ∀ c : Span, c.bytes ⊆ cover F₁ → 0 < c.len → (block s.heap l).start ≠ c.start := by
    intro c hc hpos heq
    refine Set.disjoint_left.mp (h.apart_grown hg hl) hstart (hc ?_)
    rw [heq]
    exact start_mem_bytes hpos
  have hnode₁ : (block s.heap l).start ∉ base :: F₁.map Span.start := by
    intro hmem
    obtain heq | hmem := List.mem_cons.mp hmem
    · exact hnode (heq ▸ List.mem_cons_self)
    · obtain ⟨c, hc, hca⟩ := List.mem_map.mp hmem
      exact hout c (bytes_subset_cover hc) (hg.free.pos c hc) hca.symm
  have hrs : (block s.heap l).start ∉ rs.map Span.start := by
    intro hmem
    obtain ⟨r, hr, hra⟩ := List.mem_map.mp hmem
    obtain ⟨q, hq, hxq⟩ := h.subset hl hstart
    have h₁ := (hg.fresh r hr).2.2 q hq
    have h₃ := (Set.mem_Ico.mp hxq).2
    omega
  have hlb : (block s.heap l).start ≠ b.start := by
    refine hout b ?_ ?_
    · rw [ht.cover]
      exact Set.subset_union_left
    · rw [ht.len]
      exact Nat.mul_pos (by decide) (units_pos nbytes)
  refine block_congr ?_
  rw [ht.frame _ hnode₁ hlb, hg.frame _ hnode hrs]

/-- The program takes the block `b` that `malloc` returned. -/
theorem Divided.malloc (hb : Bounded base s.heap)
    (ht : Taken base h₁ F₁ (units nbytes) ap h' F' b) :
    Divided base ⟨h', (ap, nbytes) :: s.live⟩ F' ∧ Bounded base h' := by
  have hregions : h'.regions = rs ++ s.heap.regions := ht.regions.trans hg.regions
  have hkeep : ∀ l ∈ s.live, block h' l = block s.heap l := fun l hl => h.block_taken hg hb ht hl
  have hblock : block h' (ap, nbytes) = b := by
    have hstart : ap - UNIT = b.start := by rw [ht.ptr, Nat.add_sub_cancel]
    unfold block
    rw [hstart, ht.size, ← ht.len]
  have hlive : liveBlocks ⟨h', (ap, nbytes) :: s.live⟩ = b :: liveBlocks s := by
    unfold liveBlocks
    rw [List.map_cons, hblock]
    exact congrArg (b :: ·) (List.map_congr_left hkeep)
  have hcov := ht.cover
  have htot := ht.total
  rw [hg.cover] at hcov
  rw [hg.total] at htot
  refine ⟨⟨ht.free, ?_, ?_, ?_, ?_, ?_⟩, ?_, ?_⟩
  · intro l hl
    obtain rfl | hl := List.mem_cons.mp hl
    · refine ⟨ht.ptr ▸ Nat.le_add_left _ _, ?_⟩
      show nbytes + UNIT ≤ (block h' (ap, nbytes)).len
      rw [hblock, ht.len]
      unfold units UNIT
      omega
    · show _ ∧ l.2 + UNIT ≤ (block h' l).len
      rw [hkeep l hl]
      exact h.usable l hl
  · rw [hlive]
    refine List.pairwise_cons.mpr ⟨fun c hc => ?_, h.apart⟩
    obtain ⟨l, hl, rfl⟩ := List.mem_map.mp hc
    refine (Set.disjoint_of_subset_right ?_ (h.apart_grown hg hl)).symm
    rw [ht.cover]
    exact Set.subset_union_left
  · rw [hlive]
    intro c hc
    obtain rfl | hc := List.mem_cons.mp hc
    · exact ht.apart
    · obtain ⟨l, hl, rfl⟩ := List.mem_map.mp hc
      refine Set.disjoint_of_subset_right ?_ (h.apart_grown hg hl)
      rw [ht.cover]
      exact Set.subset_union_right
  · show cover F' ∪ cover (liveBlocks _) = cover h'.regions
    rw [hlive, hregions, cover_cons, cover_append, ← h.covers, ← Set.union_assoc,
      Set.union_comm (cover F'), ← hcov, Set.union_assoc]
  · show total F' + total (liveBlocks _) = total h'.regions
    rw [hlive, hregions, total_cons, total_append, ← h.sum]
    omega
  · intro r hr
    rw [hregions] at hr
    obtain hr | hr := List.mem_append.mp hr
    · exact ⟨(hg.fresh r hr).1, (hg.fresh r hr).2.1⟩
    · exact hb.above r hr
  · show total h'.regions < UNIT * 2 ^ 32
    rw [ht.regions]
    exact hg.room

end

theorem Divided.stop_lt (h : Divided base s F) (hb : Bounded base s.heap) (hl : l ∈ s.live) :
    (block s.heap l).stop < 2 ^ 64 := by
  have hlen := h.len_pos hl
  have hlast : (block s.heap l).stop - 1 ∈ (block s.heap l).bytes := by
    unfold Span.bytes Span.stop UNIT at *
    exact Set.mem_Ico.mpr (by omega)
  obtain ⟨r, hr, hxr⟩ := h.subset hl hlast
  have h₁ := (Set.mem_Ico.mp hxr).2
  have h₂ := (hb.above r hr).2
  omega

/-- `free` of a live pointer. -/
theorem Divided.release (h : Divided base s F) (hb : Bounded base s.heap) {ap nbytes : ℕ}
    (hl : (ap, nbytes) ∈ s.live) :
    ∃ h' F', (∃ n, Umalloc.free n ap s.heap = some h') ∧
      Divided base ⟨h', s.live.eraseP (·.1 = ap)⟩ F' ∧ Bounded base h' := by
  obtain ⟨l, ls₁, ls₂, -, hlap, hlive, herase⟩ :=
    List.exists_of_eraseP (p := fun l : ℕ × ℕ => decide (l.1 = ap)) hl (by simp)
  have hlap : l.1 = ap := by simpa using hlap
  have hmem : l ∈ s.live := by rw [hlive]; simp
  have hpos : 0 < (block s.heap l).len := lt_of_lt_of_le (by decide) (h.len_pos hmem)
  have hsum := h.sum
  have hroom := hb.room
  have hle := le_total (Divided.mem_live hmem)
  have hap : (block s.heap l).start + UNIT = ap := by
    show l.1 - UNIT + UNIT = ap
    rw [Nat.sub_add_cancel (h.usable l hmem).1, hlap]
  have hbase : base < (block s.heap l).start := by
    have := hb.base_lt (h.subset hmem (h.start_mem hmem))
    unfold UNIT at this
    omega
  have hfits : (block s.heap l).len + total F < UNIT * 2 ^ 32 := by
    unfold UNIT at *
    omega
  obtain ⟨h', F', hfree, hF', hcover, htotal, -, hregions, hframe⟩ :=
    h.free.free (b := block s.heap l) rfl hpos hbase (h.owned _ (Divided.mem_live hmem))
      (h.stop_lt hb hmem) hfits
  rw [hap] at hfree
  have hblocks : liveBlocks s = ls₁.map (block s.heap) ++ block s.heap l :: ls₂.map (block s.heap) := by
    unfold liveBlocks
    rw [hlive, List.map_append, List.map_cons]
  have hapart := h.apart
  rw [hblocks] at hapart
  obtain ⟨ha₁, ha₂, ha₁₂⟩ := List.pairwise_append.mp hapart
  obtain ⟨hal, ha₂⟩ := List.pairwise_cons.mp ha₂
  have hother : ∀ k ∈ ls₁ ++ ls₂, k ∈ s.live ∧
      Disjoint (block s.heap k).bytes (block s.heap l).bytes := by
    intro k hk
    obtain hk | hk := List.mem_append.mp hk
    · exact ⟨by rw [hlive]; simp [hk],
        ha₁₂ _ (List.mem_map_of_mem hk) _ List.mem_cons_self⟩
    · exact ⟨by rw [hlive]; simp [hk], (hal _ (List.mem_map_of_mem hk)).symm⟩
  have hkeep : ∀ k ∈ ls₁ ++ ls₂, block h' k = block s.heap k := by
    intro k hk
    obtain ⟨hkl, hdisj⟩ := hother k hk
    refine block_congr (hframe _ ?_ (h.not_node hb hkl))
    intro heq
    refine Set.disjoint_left.mp hdisj (h.start_mem hkl) ?_
    rw [heq]
    exact h.start_mem hmem
  have hnewlive : liveBlocks ⟨h', s.live.eraseP (·.1 = ap)⟩
      = ls₁.map (block s.heap) ++ ls₂.map (block s.heap) := by
    unfold liveBlocks
    rw [herase, ← List.map_append]
    exact List.map_congr_left hkeep
  have hcov := h.covers
  rw [hblocks] at hcov hsum
  simp only [cover_append, cover_cons, total_append, total_cons] at hcov hsum
  refine ⟨h', F', ⟨_, hfree _ le_rfl⟩, ⟨hF', ?_, ?_, ?_, ?_, ?_⟩, ?_, ?_⟩
  · intro k hk
    rw [show (Prog.mk h' (s.live.eraseP (·.1 = ap))).live = ls₁ ++ ls₂ from herase] at hk
    show _ ∧ k.2 + UNIT ≤ (block h' k).len
    rw [hkeep k hk]
    exact h.usable k (hother k hk).1
  · rw [hnewlive]
    exact List.pairwise_append.mpr ⟨ha₁, ha₂, fun b hb c hc => ha₁₂ b hb c (List.mem_cons_of_mem _ hc)⟩
  · rw [hnewlive, ← List.map_append]
    intro c hc
    obtain ⟨k, hk, rfl⟩ := List.mem_map.mp hc
    rw [hcover, Set.disjoint_union_right]
    exact ⟨(hother k hk).2, h.owned _ (Divided.mem_live (hother k hk).1)⟩
  · show cover F' ∪ cover (liveBlocks _) = cover h'.regions
    rw [hnewlive, hregions, hcover, cover_append, ← hcov]
    ext x
    simp only [Set.mem_union]
    tauto
  · show total F' + total (liveBlocks _) = total h'.regions
    rw [hnewlive, hregions, htotal, total_append]
    omega
  · rw [hregions]
    exact hb.above
  · rw [hregions]
    exact hb.room

theorem Divided.write (h : Divided base s F) (hb : Bounded base s.heap) {mem : ℕ → Header}
    (hw : ∀ a, (∀ l ∈ s.live, a + UNIT ≤ l.1 ∨ l.1 + l.2 ≤ a) → mem a = s.heap.mem a) :
    Divided base { s with heap := { s.heap with mem := mem } } F := by
  have hend : ∀ l ∈ s.live, (block s.heap l).start + UNIT = l.1 ∧
      l.1 + l.2 ≤ (block s.heap l).stop := by
    intro l hl
    obtain ⟨h₁, h₂⟩ := h.usable l hl
    have h₃ : (block s.heap l).start = l.1 - UNIT := rfl
    unfold Span.stop
    omega
  have hheader : ∀ b : Span, UNIT ≤ b.len →
      (∀ l ∈ s.live, b = block s.heap l ∨ Disjoint b.bytes (block s.heap l).bytes) →
      mem b.start = s.heap.mem b.start := by
    intro b hlen hdisj
    refine hw _ fun l hl => ?_
    obtain ⟨h₁, h₂⟩ := hend l hl
    obtain rfl | hd := hdisj l hl
    · exact .inl h₁.le
    · have hbpos : 0 < b.len := lt_of_lt_of_le (by decide) hlen
      have hlpos : 0 < (block s.heap l).len := lt_of_lt_of_le (by decide) (h.len_pos hl)
      obtain hle | hle := stop_le_or_stop_le hbpos hlpos hd
      · left
        have : b.stop = b.start + b.len := rfl
        omega
      · right
        omega
  have hpairwise : ∀ k ∈ s.live, ∀ l ∈ s.live, block s.heap k = block s.heap l ∨
      Disjoint (block s.heap k).bytes (block s.heap l).bytes := by
    intro k hk l hl
    have hsymm : Std.Symm fun b c : Span => Disjoint b.bytes c.bytes := ⟨fun _ _ h => h.symm⟩
    by_cases heq : block s.heap k = block s.heap l
    · exact .inl heq
    · exact .inr (h.apart.forall (Divided.mem_live hk) (Divided.mem_live hl) heq)
  have hkeep : ∀ k ∈ s.live, block { s.heap with mem := mem } k = block s.heap k := fun k hk =>
    block_congr (hheader _ (h.len_pos hk) (hpairwise k hk))
  have hlive : liveBlocks { s with heap := { s.heap with mem := mem } } = liveBlocks s :=
    List.map_congr_left hkeep
  refine ⟨h.free.congr rfl ?_, ?_, hlive ▸ h.apart, hlive ▸ h.owned, hlive ▸ h.covers,
    hlive ▸ h.sum⟩
  · intro a ha
    obtain rfl | ha := List.mem_cons.mp ha
    · refine hw _ fun l hl => .inl ?_
      have h₁ := hb.base_lt (h.subset hl (h.start_mem hl))
      have h₂ := (hend l hl).1
      omega
    · obtain ⟨c, hc, rfl⟩ := List.mem_map.mp ha
      refine hheader c ?_ fun l hl => .inr ?_
      · have h₁ := h.free.pos c hc
        have h₂ := h.free.sizes c (List.mem_cons_of_mem _ hc)
        unfold UNIT at *
        omega
      · refine Set.disjoint_of_subset_left (bytes_subset_cover hc) ?_
        exact (h.owned _ (Divided.mem_live hl)).symm
  · intro l hl
    show _ ∧ l.2 + UNIT ≤ (block { s.heap with mem := mem } l).len
    rw [hkeep l hl]
    exact h.usable l hl

end

end Umalloc
end Xv6
