import Mathlib.Tactic
import Mathlib.Order.CompletePartialOrder

/-!
Blocks of memory in address order. `Spaced` blocks neither overlap nor touch; `absorb` puts
a block in front of them and joins it with the first one if they touch.
-/

namespace Blocks

structure Span where
  start : ℕ
  len : ℕ
  deriving DecidableEq, Repr

def Span.stop (b : Span) : ℕ := b.start + b.len

def Span.bytes (b : Span) : Set ℕ := Set.Ico b.start b.stop

/-- The bytes of a list of blocks. -/
def cover (l : List Span) : Set ℕ := {x | ∃ b ∈ l, x ∈ b.bytes}

def total (l : List Span) : ℕ := (l.map Span.len).sum

def Spaced (l : List Span) : Prop := l.Pairwise fun b c => b.stop < c.start

variable {b c u v : Span} {l us vs : List Span}

@[simp] theorem cover_nil : cover [] = ∅ := by
  ext x
  simp [cover]

@[simp] theorem cover_cons : cover (b :: l) = b.bytes ∪ cover l := by
  ext x
  simp [cover]

@[simp] theorem cover_append : cover (us ++ vs) = cover us ∪ cover vs := by
  ext x
  simp only [cover, List.mem_append, Set.mem_ofPred_eq, Set.mem_union]
  grind

@[simp] theorem total_nil : total [] = 0 := rfl

@[simp] theorem total_cons : total (b :: l) = b.len + total l := List.sum_cons

@[simp] theorem total_append : total (us ++ vs) = total us + total vs := by
  simp [total]

theorem le_total (h : b ∈ l) : b.len ≤ total l := List.le_sum_of_mem (List.mem_map_of_mem h)

theorem bytes_subset_cover (h : b ∈ l) : b.bytes ⊆ cover l := fun _ hx => ⟨b, h, hx⟩

theorem start_mem_bytes (h : 0 < b.len) : b.start ∈ b.bytes := by
  unfold Span.bytes Span.stop
  exact Set.mem_Ico.mpr ⟨le_rfl, by omega⟩

theorem bytes_join (h : b.stop = c.start) :
    Span.bytes ⟨b.start, b.len + c.len⟩ = b.bytes ∪ c.bytes := by
  unfold Span.bytes Span.stop at *
  rw [← h, Set.Ico_union_Ico_eq_Ico (by omega) (by omega), Nat.add_assoc]

theorem disjoint_bytes (h : b.stop ≤ c.start) : Disjoint b.bytes c.bytes := by
  rw [Set.disjoint_left]
  intro x hb hc
  have h₁ := (Set.mem_Ico.mp hb).2
  have h₂ := (Set.mem_Ico.mp hc).1
  omega

theorem stop_le_or_stop_le (hb : 0 < b.len) (hc : 0 < c.len) (h : Disjoint b.bytes c.bytes) :
    b.stop ≤ c.start ∨ c.stop ≤ b.start := by
  by_contra hcon
  unfold Span.stop at hcon
  have hmem : max b.start c.start ∈ b.bytes ∩ c.bytes := by
    unfold Span.bytes Span.stop
    simp only [Set.mem_inter_iff, Set.mem_Ico]
    omega
  exact (Set.disjoint_iff.mp h) hmem

theorem Spaced.tail (h : Spaced (b :: l)) : Spaced l := (List.pairwise_cons.mp h).2

theorem Spaced.lt (h : Spaced (b :: l)) (hc : c ∈ l) : b.stop < c.start :=
  (List.pairwise_cons.mp h).1 c hc

theorem Spaced.disjoint (h : Spaced (b :: l)) : Disjoint b.bytes (cover l) := by
  rw [Set.disjoint_left]
  rintro x hx ⟨c, hc, hxc⟩
  exact Set.disjoint_left.mp (disjoint_bytes (h.lt hc).le) hx hxc

theorem Spaced.disjoint_rest (h : Spaced (us ++ b :: vs)) :
    Disjoint b.bytes (cover us ∪ cover vs) := by
  obtain ⟨-, hbvs, hlt⟩ := List.pairwise_append.mp h
  rw [Set.disjoint_union_right]
  refine ⟨?_, Spaced.disjoint hbvs⟩
  rw [Set.disjoint_left]
  rintro x hx ⟨c, hc, hxc⟩
  exact Set.disjoint_left.mp (disjoint_bytes (hlt c hc b List.mem_cons_self).le) hxc hx

theorem Spaced.starts (h : Spaced l) : (l.map Span.start).Pairwise (· < ·) := by
  rw [List.pairwise_map]
  refine h.imp fun {b c} hbc => ?_
  unfold Span.stop at hbc
  omega

/-- Where a block that overlaps none of them belongs. -/
theorem Spaced.exists_place (h : Spaced l) (hl : ∀ c ∈ l, 0 < c.len) (hb : 0 < b.len)
    (hd : Disjoint b.bytes (cover l)) :
    ∃ us vs, l = us ++ vs ∧ (∀ u ∈ us, u.stop ≤ b.start) ∧ ∀ v ∈ vs, b.stop ≤ v.start := by
  induction l with
  | nil => exact ⟨[], [], rfl, nofun, nofun⟩
  | cons c l ih =>
    rw [cover_cons, Set.disjoint_union_right] at hd
    obtain hbc | hcb := stop_le_or_stop_le hb (hl c List.mem_cons_self) hd.1
    · refine ⟨[], c :: l, rfl, nofun, fun v hv => ?_⟩
      obtain rfl | hv := List.mem_cons.mp hv
      · exact hbc
      · have := h.lt hv
        unfold Span.stop at *
        omega
    · obtain ⟨us, vs, rfl, hus, hvs⟩ := ih h.tail (fun d hd => hl d (List.mem_cons_of_mem _ hd)) hd.2
      refine ⟨c :: us, vs, rfl, fun u hu => ?_, hvs⟩
      obtain rfl | hu := List.mem_cons.mp hu
      · exact hcb
      · exact hus u hu

/-- `b` in front of the blocks `l`, joined with the first of them if they touch. -/
def absorb (b : Span) : List Span → List Span
  | [] => [b]
  | v :: vs => if b.stop = v.start then ⟨b.start, b.len + v.len⟩ :: vs else b :: v :: vs

theorem absorb_of_eq (h : b.stop = v.start) :
    absorb b (v :: vs) = ⟨b.start, b.len + v.len⟩ :: vs := if_pos h

theorem absorb_of_ne (h : ∀ v ∈ l.head?, b.stop ≠ v.start) : absorb b l = b :: l := by
  cases l with
  | nil => rfl
  | cons v vs => exact if_neg (h v rfl)

theorem absorb_cases (b : Span) (l : List Span) :
    (∃ v vs, l = v :: vs ∧ b.stop = v.start ∧ absorb b l = ⟨b.start, b.len + v.len⟩ :: vs) ∨
      ((∀ v ∈ l.head?, b.stop ≠ v.start) ∧ absorb b l = b :: l) := by
  cases l with
  | nil => exact .inr ⟨nofun, rfl⟩
  | cons v vs =>
    by_cases h : b.stop = v.start
    · exact .inl ⟨v, vs, rfl, h, absorb_of_eq h⟩
    · have hne : ∀ w ∈ (v :: vs).head?, b.stop ≠ w.start := fun w hw => by
        obtain rfl : v = w := Option.some.inj hw
        exact h
      exact .inr ⟨hne, absorb_of_ne hne⟩

theorem cover_absorb : cover (absorb b l) = b.bytes ∪ cover l := by
  obtain ⟨v, vs, rfl, h, he⟩ | ⟨-, he⟩ := absorb_cases b l
  · rw [he, cover_cons, cover_cons, bytes_join h, Set.union_assoc]
  · rw [he, cover_cons]

theorem total_absorb : total (absorb b l) = b.len + total l := by
  obtain ⟨v, vs, rfl, -, he⟩ | ⟨-, he⟩ := absorb_cases b l
  · rw [he, total_cons, total_cons, Nat.add_assoc]
  · rw [he, total_cons]

theorem start_le_of_mem_absorb (h : ∀ v ∈ l, b.stop ≤ v.start) (hc : c ∈ absorb b l) :
    b.start ≤ c.start := by
  have hv : ∀ v ∈ l, b.start ≤ v.start := fun v hv => le_trans (Nat.le_add_right _ _) (h v hv)
  obtain ⟨v, vs, rfl, -, he⟩ | ⟨-, he⟩ := absorb_cases b l
  · rw [he] at hc
    obtain rfl | hc := List.mem_cons.mp hc
    · exact le_rfl
    · exact hv c (List.mem_cons_of_mem _ hc)
  · rw [he] at hc
    obtain rfl | hc := List.mem_cons.mp hc
    · exact le_rfl
    · exact hv c hc

/-- Joining does not move the ends of the memory. -/
theorem stop_of_mem_absorb (hc : c ∈ absorb b l) : c.stop = b.stop ∨ ∃ v ∈ l, c.stop = v.stop := by
  obtain ⟨v, vs, rfl, hv, he⟩ | ⟨-, he⟩ := absorb_cases b l
  · rw [he] at hc
    obtain rfl | hc := List.mem_cons.mp hc
    · refine .inr ⟨v, List.mem_cons_self, ?_⟩
      simp only [Span.stop] at *
      omega
    · exact .inr ⟨c, List.mem_cons_of_mem _ hc, rfl⟩
  · rw [he] at hc
    obtain rfl | hc := List.mem_cons.mp hc
    · exact .inl rfl
    · exact .inr ⟨c, hc, rfl⟩

theorem eq_or_le_of_mem_absorb (hc : c ∈ absorb b l) : c = b ∨ ∃ v ∈ l, v.len ≤ c.len := by
  obtain ⟨v, vs, rfl, -, he⟩ | ⟨-, he⟩ := absorb_cases b l
  · rw [he] at hc
    obtain rfl | hc := List.mem_cons.mp hc
    · exact .inr ⟨v, List.mem_cons_self, Nat.le_add_left _ _⟩
    · exact .inr ⟨c, List.mem_cons_of_mem _ hc, le_rfl⟩
  · rw [he] at hc
    obtain rfl | hc := List.mem_cons.mp hc
    · exact .inl rfl
    · exact .inr ⟨c, hc, le_rfl⟩

theorem absorb_pos (hb : 0 < b.len) (hl : ∀ v ∈ l, 0 < v.len) (hc : c ∈ absorb b l) :
    0 < c.len := by
  obtain rfl | ⟨v, hv, hle⟩ := eq_or_le_of_mem_absorb hc
  · exact hb
  · exact (hl v hv).trans_le hle

theorem Spaced.absorb (h : Spaced l) (hl : ∀ v ∈ l, 0 < v.len)
    (hb : ∀ v ∈ l, b.stop ≤ v.start) : Spaced (absorb b l) := by
  obtain ⟨v, vs, rfl, hv, he⟩ | ⟨hne, he⟩ := absorb_cases b l
  · rw [he]
    refine List.pairwise_cons.mpr ⟨fun c hc => ?_, h.tail⟩
    have := h.lt hc
    simp only [Span.stop] at *
    omega
  · rw [he]
    refine List.pairwise_cons.mpr ⟨fun c hc => ?_, h⟩
    cases l with
    | nil => cases hc
    | cons v vs =>
      have hlt : b.stop < v.start := lt_of_le_of_ne (hb v List.mem_cons_self) (hne v rfl)
      obtain rfl | hc := List.mem_cons.mp hc
      · exact hlt
      · have := h.lt hc
        have := hl v List.mem_cons_self
        unfold Span.stop at *
        omega

/-- A block put between others, joined on both sides. -/
theorem Spaced.insert (h : Spaced (us ++ u :: vs)) (hpos : ∀ v ∈ vs, 0 < v.len)
    (hb : 0 < b.len) (hu : u.stop ≤ b.start) (hv : ∀ v ∈ vs, b.stop ≤ v.start) :
    Spaced (us ++ Blocks.absorb u (Blocks.absorb b vs)) := by
  obtain ⟨hus, huvs, hlt⟩ := List.pairwise_append.mp h
  have hin : ∀ d ∈ Blocks.absorb b vs, u.stop ≤ d.start := fun d hd =>
    hu.trans (start_le_of_mem_absorb hv hd)
  have hd : Spaced (Blocks.absorb b vs) := Spaced.absorb (Spaced.tail huvs) hpos hv
  refine List.pairwise_append.mpr ⟨hus, hd.absorb (fun d => absorb_pos hb hpos) hin, ?_⟩
  intro w hw d hd
  have := hlt w hw u List.mem_cons_self
  have := start_le_of_mem_absorb hin hd
  omega

theorem Spaced.shrink (h : Spaced (us ++ b :: vs)) (hs : c.start = b.start)
    (he : c.stop ≤ b.stop) : Spaced (us ++ c :: vs) := by
  obtain ⟨hus, hbvs, hlt⟩ := List.pairwise_append.mp h
  obtain ⟨hb, hvs⟩ := List.pairwise_cons.mp hbvs
  refine List.pairwise_append.mpr ⟨hus, List.pairwise_cons.mpr ⟨?_, hvs⟩, ?_⟩
  · exact fun v hv => he.trans_lt (hb v hv)
  · intro w hw v hv
    obtain rfl | hv := List.mem_cons.mp hv
    · rw [hs]
      exact hlt w hw b List.mem_cons_self
    · exact hlt w hw v (List.mem_cons_of_mem _ hv)

theorem exists_le_absorb (b : Span) (l : List Span) : ∃ c ∈ Blocks.absorb b l, b.len ≤ c.len := by
  obtain ⟨v, vs, rfl, -, he⟩ | ⟨-, he⟩ := absorb_cases b l
  · exact ⟨_, he ▸ List.mem_cons_self, Nat.le_add_right _ _⟩
  · exact ⟨b, he ▸ List.mem_cons_self, le_rfl⟩

/-- The blocks that were there are still there or part of a longer one. -/
theorem exists_le_of_mem (b : Span) (hc : c ∈ l) : ∃ d ∈ Blocks.absorb b l, c.len ≤ d.len := by
  obtain ⟨v, vs, rfl, -, he⟩ | ⟨-, he⟩ := absorb_cases b l
  · obtain rfl | hc := List.mem_cons.mp hc
    · exact ⟨_, he ▸ List.mem_cons_self, Nat.le_add_left _ _⟩
    · exact ⟨c, he ▸ List.mem_cons_of_mem _ hc, le_rfl⟩
  · exact ⟨c, he ▸ List.mem_cons_of_mem _ hc, le_rfl⟩

end Blocks
