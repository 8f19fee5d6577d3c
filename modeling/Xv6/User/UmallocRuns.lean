import Xv6.Lib.Transition
import Xv6.User.UmallocHeap

/-!
Runs of programs that use the allocator. Every call ends and keeps the heap consistent, as
long as the argument of `sbrk` and the sizes of the blocks do not overflow; a large request
and a large memory break it.
-/

namespace Xv6
namespace Umalloc
open Blocks CircularList

/-- The request for memory that `malloc` may make fits the `int` argument of `sbrk`. -/
def Op.Small : Op → Prop
  | .malloc nbytes _ => nbytes ≤ 2 ^ 32 - 32
  | _ => True

/-- The memory of the program has fewer than 2 ^ 32 units. -/
def Op.Roomy : Op → Prop
  | .malloc _ sbrk => Umalloc.Roomy sbrk
  | _ => True

def Returns (base : ℕ) (s : Prog) (op : Op) (t : Prog) : Prop := ∃ n, call base n s op = some t

/-- States of programs that make legal calls with the property `P`. -/
def Reached (base : ℕ) (P : Op → Prop) : Prog → Prop :=
  Transition.Reachable Unused fun s op t => Legal base s op ∧ P op ∧ Returns base s op t

section
variable {base : ℕ} {s t u : Prog} {op : Op}

theorem Returns.unique (ht : Returns base s op t) (hu : Returns base s op u) : t = u := by
  obtain ⟨n, hn⟩ := ht
  obtain ⟨m, hm⟩ := hu
  have h₁ := call_mono hn (le_max_left n m)
  have h₂ := call_mono hm (le_max_right n m)
  exact Option.some.inj (h₁.symm.trans h₂)

theorem units_lt {nbytes : ℕ} (h : nbytes ≤ 2 ^ 32 - 32) : units nbytes < 2 ^ 28 := by
  unfold units UNIT
  omega

theorem Consistent.malloc (hc : Consistent base s) (hb : Bounded base s.heap) (hbase : 0 < base)
    (hb64 : base < 2 ^ 64) {nbytes : ℕ} {sbrk : Sbrk} (hok : SbrkOk base sbrk)
    (hsmall : nbytes ≤ 2 ^ 32 - 32) (hroomy : Umalloc.Roomy sbrk) :
    ∃ t, Returns base s (.malloc nbytes sbrk) t ∧ Consistent base t ∧ Bounded base t.heap := by
  obtain ⟨⟨F, hF⟩, hregions⟩ := hc.ready hbase hb64
  have hb' : Bounded base (Umalloc.ready base s.heap) := ⟨hregions ▸ hb.above, hregions ▸ hb.room⟩
  have hcov : cover F ⊆ cover (Umalloc.ready base s.heap).regions := by
    rw [← hF.covers]
    exact Set.subset_union_left
  have htot : total F ≤ total (Umalloc.ready base s.heap).regions := by
    rw [← hF.sum]
    exact Nat.le_add_right _ _
  obtain ⟨n, hrun⟩ | ⟨rs, h₁, F₁, ap, h', F', b, hg, ht, n, hrun⟩ :=
    hF.free.search hbase hok hroomy (units_pos nbytes) (units_lt hsmall) hcov htot hb'.room
  · refine ⟨_, ⟨n, Option.bind_eq_some_iff.mpr ⟨_, hrun, rfl⟩⟩, ?_⟩
    rw [if_pos rfl]
    exact ⟨.inr ⟨F, hF⟩, hb'⟩
  · obtain ⟨hdiv, hbound⟩ := hF.malloc hg hb' ht
    refine ⟨_, ⟨n, Option.bind_eq_some_iff.mpr ⟨_, hrun, rfl⟩⟩, ?_⟩
    have hap : ap ≠ 0 := by
      rw [ht.ptr]
      unfold UNIT
      omega
    rw [if_neg hap]
    exact ⟨.inr ⟨F', hdiv⟩, hbound⟩

/-- Every call ends and keeps the heap consistent. -/
theorem Consistent.call (hc : Consistent base s) (hb : Bounded base s.heap) (hbase : 0 < base)
    (hb64 : base < 2 ^ 64) (hlegal : Legal base s op) (hsmall : op.Small) (hroomy : op.Roomy) :
    ∃ t, Returns base s op t ∧ Consistent base t ∧ Bounded base t.heap := by
  cases op with
  | malloc nbytes sbrk => exact hc.malloc hb hbase hb64 hlegal.2 hsmall hroomy
  | free ap =>
    obtain ⟨nbytes, hl⟩ := hlegal
    obtain ⟨-, -, hlive⟩ | ⟨F, hF⟩ := hc
    · rw [hlive] at hl
      cases hl
    · obtain ⟨h', F', ⟨n, hrun⟩, hdiv, hbound⟩ := hF.release hb hl
      exact ⟨_, ⟨n, Option.bind_eq_some_iff.mpr ⟨_, hrun, rfl⟩⟩, .inr ⟨F', hdiv⟩, hbound⟩
  | write mem =>
    refine ⟨_, ⟨0, rfl⟩, ?_, hb.above, hb.room⟩
    obtain hunused | ⟨F, hF⟩ := hc
    · exact .inl hunused
    · exact .inr ⟨F, hF.write hb hlegal⟩

theorem Reached.consistent (hbase : 0 < base) (hb64 : base < 2 ^ 64)
    (h : Reached base (fun op => op.Small ∧ op.Roomy) s) :
    Consistent base s ∧ Bounded base s.heap := by
  refine Transition.Reachable.invariant (P := fun s => Consistent base s ∧ Bounded base s.heap)
    ?_ ?_ h
  · intro s hs
    refine ⟨.inl hs, fun r hr => ?_, ?_⟩
    · rw [hs.2.1] at hr
      cases hr
    · rw [hs.2.1]
      decide
  · rintro s op t ⟨hc, hb⟩ ⟨hlegal, ⟨hsmall, hroomy⟩, hret⟩
    obtain ⟨u, hu, hcu⟩ := hc.call hb hbase hb64 hlegal hsmall hroomy
    rw [hret.unique hu]
    exact hcu

/-- In every program whose requests fit, the free blocks and the live blocks divide the
memory that `sbrk` returned, and every call of `malloc` and `free` ends. -/
theorem heap_consistent (hbase : 0 < base) (hb64 : base < 2 ^ 64)
    (h : Reached base (fun op => op.Small ∧ op.Roomy) s) :
    Consistent base s ∧
      ∀ op, Legal base s op → op.Small → op.Roomy → ∃ t, Returns base s op t := by
  obtain ⟨hc, hb⟩ := h.consistent hbase hb64
  refine ⟨hc, fun op hlegal hsmall hroomy => ?_⟩
  obtain ⟨t, ht, -⟩ := hc.call hb hbase hb64 hlegal hsmall hroomy
  exact ⟨t, ht⟩

end

/-! ### Programs on fixed requests -/

/-- An `sbrk` that returns adjacent regions from 1024 on, as long as they are less than
`lim` bytes. -/
def bump (lim : ℕ) : Sbrk := fun rs k =>
  let a := (rs.map Span.stop).foldr max 1024
  if 0 ≤ k ∧ a + k.toNat < 2 ^ 64 ∧ total rs + k.toNat < lim then some a else none

theorem bump_ok (lim : ℕ) : SbrkOk 16 (bump lim) := by
  intro rs k a ha
  unfold bump at ha
  dsimp only at ha
  split_ifs at ha with hcond
  cases ha
  refine ⟨hcond.1, ?_, ?_, hcond.2.1⟩
  · have : ∀ l : List ℕ, 1024 ≤ l.foldr max 1024 := by
      intro l
      induction l with
      | nil => exact le_rfl
      | cons x l ih => exact ih.trans (le_max_right _ _)
    exact le_trans (by decide) (this _)
  · intro r hr
    have : ∀ l : List ℕ, ∀ x ∈ l, x ≤ l.foldr max 1024 := by
      intro l x hx
      induction l with
      | nil => cases hx
      | cons y l ih =>
        obtain rfl | hx := List.mem_cons.mp hx
        · exact le_max_left _ _
        · exact (ih hx).trans (le_max_right _ _)
    exact this _ _ (List.mem_map_of_mem hr)

theorem bump_roomy : Roomy (bump (UNIT * 2 ^ 32)) := by
  intro rs k a ha
  unfold bump at ha
  dsimp only at ha
  split_ifs at ha with hcond
  exact hcond.2.2

/-- A program that mallocs (`inl`) and frees what is live (`inr`). -/
def runs (lim n : ℕ) : Prog → List (ℕ ⊕ ℕ) → Option Prog
  | s, [] => some s
  | s, .inl nbytes :: l =>
      if nbytes < 2 ^ 32 then
        (call 16 n s (.malloc nbytes (bump lim))).bind fun s => runs lim n s l
      else none
  | s, .inr ap :: l =>
      if s.live.any (·.1 = ap) then (call 16 n s (.free ap)).bind fun s => runs lim n s l
      else none

def start : Prog := ⟨⟨fun _ => ⟨0, 0⟩, 0, []⟩, []⟩

theorem reached_runs {P : Op → Prop} {lim n : ℕ} {s t : Prog} {l : List (ℕ ⊕ ℕ)}
    (hP : ∀ nbytes, .inl nbytes ∈ l → P (.malloc nbytes (bump lim))) (hfree : ∀ ap, P (.free ap))
    (hs : Reached 16 P s) (h : runs lim n s l = some t) : Reached 16 P t := by
  induction l generalizing s with
  | nil =>
    cases h
    exact hs
  | cons c l ih =>
    have hP' : ∀ nbytes, .inl nbytes ∈ l → P (.malloc nbytes (bump lim)) := fun nbytes hm =>
      hP nbytes (List.mem_cons_of_mem _ hm)
    cases c with
    | inl nbytes =>
      rw [runs] at h
      split_ifs at h with hlt
      obtain ⟨u, hu, h⟩ := Option.bind_eq_some_iff.mp h
      have hlegal : Legal 16 s (.malloc nbytes (bump lim)) := ⟨hlt, bump_ok lim⟩
      exact ih hP' (.next _ _ _ hs ⟨hlegal, hP nbytes List.mem_cons_self, n, hu⟩) h
    | inr ap =>
      rw [runs] at h
      split_ifs at h with hlive
      obtain ⟨u, hu, h⟩ := Option.bind_eq_some_iff.mp h
      have hlegal : Legal 16 s (.free ap) := by
        obtain ⟨a, ha, heq⟩ := List.any_eq_true.mp hlive
        have heq : a.1 = ap := by simpa using heq
        exact ⟨a.2, heq ▸ ha⟩
      exact ih hP' (.next _ _ _ hs ⟨hlegal, hfree ap, n, hu⟩) h

theorem reached_start (P : Op → Prop) : Reached 16 P start := .start _ ⟨rfl, rfl, rfl⟩

/-- Two blocks are allocated and the first one is freed again. -/
theorem heap_consistent_two : ∃ s, s.live = [(66400, 100)] ∧ Consistent 16 s := by
  have hrun : (runs (UNIT * 2 ^ 32) 20 start [.inl 20, .inl 100, .inr 66528]).any
      (fun s => decide (s.live = [(66400, 100)])) = true := by decide +kernel
  obtain ⟨s, hs, hlive⟩ := (Option.any_eq_true _ _).1 hrun
  refine ⟨s, of_decide_eq_true hlive, (heap_consistent (by decide) (by decide) ?_).1⟩
  refine reached_runs ?_ (fun _ => ⟨trivial, trivial⟩) (reached_start _) hs
  intro nbytes hmem
  refine ⟨?_, bump_roomy⟩
  have : nbytes = 20 ∨ nbytes = 100 := by simpa using hmem
  show nbytes ≤ 2 ^ 32 - 32
  omega

/-- A live block larger than the memory. -/
theorem not_consistent_of_large {base : ℕ} {s : Prog} {l : ℕ × ℕ} (hl : s.live = [l])
    (hlt : total s.heap.regions < (block s.heap l).len) : ¬Consistent base s := by
  rintro (⟨-, -, hnil⟩ | ⟨F, hF⟩)
  · rw [hl] at hnil
    cases hnil
  · have hsum := hF.sum
    unfold liveBlocks at hsum
    rw [hl, List.map_singleton, total_cons] at hsum
    omega

/-- One free block smaller than the memory. -/
theorem not_consistent_of_lost {base p : ℕ} {s : Prog} (hlive : s.live = [])
    (hbase : (s.heap.mem base).ptr = p) (hp : (s.heap.mem p).ptr = base) (hfreep : s.heap.freep ≠ 0)
    (hlt : UNIT * (s.heap.mem p).size < total s.heap.regions) : ¬Consistent base s := by
  rintro (⟨h0, -, -⟩ | ⟨F, hF⟩)
  · exact hfreep h0
  · have hsum := hF.sum
    unfold liveBlocks at hsum
    rw [hlive, List.map_nil, total_nil, Nat.add_zero] at hsum
    cases F with
    | nil =>
      rw [total_nil] at hsum
      omega
    | cons b F =>
      have hsplit : ⟨base, 0⟩ :: b :: F = [⟨base, 0⟩] ++ b :: F := rfl
      have hb : p = b.start := hbase.symm.trans (hF.free.linked (List.nil_append _).symm).next_head
      have hnext : base = (F.map Span.start).headD base := by
        have := (hF.free.linked hsplit).next_head
        rw [← hb, hp] at this
        exact this
      cases F with
      | nil =>
        have hlen := hF.free.sizes b (by simp)
        rw [total_cons, total_nil, hlen, ← hb] at hsum
        omega
      | cons c F =>
        have hlt : base < c.start := hF.free.spaced.lt (by simp)
        rw [List.map_cons, List.headD_cons] at hnext
        omega

/-- `malloc(0xffffffff)` asks `sbrk` for 16 bytes and returns a block of 2 ^ 28 + 1 units. And
when 33 adjacent blocks of 2 GB are freed, the size of the block they make overflows. -/
theorem heap_not_consistent :
    (∃ s, Reached 16 Op.Roomy s ∧ ¬Consistent 16 s) ∧
      ∃ s, Reached 16 Op.Small s ∧ ¬Consistent 16 s := by
  constructor
  · have hrun : (runs (UNIT * 2 ^ 32) 20 start [.inl (2 ^ 32 - 1)]).any (fun s =>
        decide (s.live = [(1040, 2 ^ 32 - 1)]) &&
        decide (total s.heap.regions < (block s.heap (1040, 2 ^ 32 - 1)).len)) = true := by
      decide +kernel
    obtain ⟨s, hs, hfacts⟩ := (Option.any_eq_true _ _).1 hrun
    rw [Bool.and_eq_true, decide_eq_true_eq, decide_eq_true_eq] at hfacts
    refine ⟨s, ?_, not_consistent_of_large hfacts.1 hfacts.2⟩
    exact reached_runs (fun _ _ => bump_roomy) (fun _ => trivial) (reached_start _) hs
  · have hrun : (runs (2 ^ 40) 20 start (List.replicate 33 (.inl (2 ^ 31 - 32)) ++
        (List.range 33).map fun i => .inr (1040 + i * (2 ^ 31 - 16)))).any (fun s =>
        decide (s.live = []) && decide ((s.heap.mem 16).ptr = 1024) &&
        decide ((s.heap.mem 1024).ptr = 16) && decide (s.heap.freep ≠ 0) &&
        decide (UNIT * (s.heap.mem 1024).size < total s.heap.regions)) = true := by
      decide +kernel
    obtain ⟨s, hs, hfacts⟩ := (Option.any_eq_true _ _).1 hrun
    simp only [Bool.and_eq_true, decide_eq_true_eq] at hfacts
    obtain ⟨⟨⟨⟨hlive, hbase⟩, hp⟩, hfreep⟩, hlt⟩ := hfacts
    refine ⟨s, ?_, not_consistent_of_lost hlive hbase hp hfreep hlt⟩
    refine reached_runs ?_ (fun _ => trivial) (reached_start _) hs
    intro nbytes hmem
    have : nbytes = 2 ^ 31 - 32 := by simpa using hmem
    rw [this]
    show 2 ^ 31 - 32 ≤ 2 ^ 32 - 32
    decide

end Umalloc
end Xv6
