import Xv6.Lib.FreeList
import Xv6.Lib.Hoare
import Xv6.Vm.Kalloc

/-!
What every physical page is used for, and the allocator in these terms: `kalloc` turns
a free page into one that its caller holds, and `kfree` makes any other page free. The
free list has exactly the free pages, each once.
-/

namespace Xv6
namespace Vm

open Hoare FreeList

/-- The use of a page. Page-table pages and user pages belong to the page table whose
root is the page `r`: the first by the indices that lead to them, the others by the
number of the virtual page. -/
inductive Use where
  /-- Not a page the allocator hands out. -/
  | outside
  | free
  /-- In the hands of the function that allocated it. -/
  | held
  | table (r : ℕ) (π : List ℕ)
  | user (r v : ℕ)
  | trapframe (p : ℕ)
  | kstack (p : ℕ)
  | pipe
  deriving DecidableEq, Repr

variable {k : Layout} {own own' : ℕ → Use} {s t : State} {p : ℕ} {E : Panic → State → Prop}

/-! ### Reading and writing a page -/

theorem load_pg (s : State) (p : ℕ) {o : ℕ} (ho : o < PGSIZE) (n : ℕ) :
    s.load (pg p + o) n = (s.mem.get p).getLE o n := by
  have h1 : (pg p + o) / PGSIZE = p := by
    unfold pg PGSIZE at *
    omega
  have h2 : (pg p + o) % PGSIZE = o := by
    unfold pg PGSIZE at *
    omega
  rw [State.load, h1, h2]

theorem setBytes_pg (s : State) (p : ℕ) {o : ℕ} (ho : o < PGSIZE) (l : List UInt8) :
    s.setBytes (pg p + o) l = { s with mem := s.mem.set p ((s.mem.get p).putBytes o l) } := by
  have h1 : (pg p + o) / PGSIZE = p := by
    unfold pg PGSIZE at *
    omega
  have h2 : (pg p + o) % PGSIZE = o := by
    unfold pg PGSIZE at *
    omega
  rw [State.setBytes, h1, h2]

theorem setBytes_pg0 (s : State) (p : ℕ) (l : List UInt8) :
    s.setBytes (pg p) l = { s with mem := s.mem.set p ((s.mem.get p).putBytes 0 l) } := by
  rw [← setBytes_pg s p (o := 0) (by decide) l, Nat.add_zero]

theorem load_pg0 (s : State) (p n : ℕ) : s.load (pg p) n = (s.mem.get p).getLE 0 n := by
  rw [← load_pg s p (o := 0) (by decide) n, Nat.add_zero]

structure Rest (s t : State) : Prop where
  kernelPagetable : t.kernelPagetable = s.kernelPagetable
  proc : t.proc = s.proc
  nextpid : t.nextpid = s.nextpid
  ftable : t.ftable = s.ftable
  fs : t.fs = s.fs

theorem Rest.refl (s : State) : Rest s s := ⟨rfl, rfl, rfl, rfl, rfl⟩

theorem Rest.trans {u : State} (h : Rest s t) (h' : Rest t u) : Rest s u :=
  ⟨h'.1.trans h.1, h'.2.trans h.2, h'.3.trans h.3, h'.4.trans h.4, h'.5.trans h.5⟩

/-! ### The free list -/

structure Pages (k : Layout) (own : ℕ → Use) (s : State) : Prop where
  kend : 0 < k.kend
  range : ∀ p, own p ≠ .outside ↔ k.kend ≤ pg p ∧ pg p < PHYSTOP
  list : ∃ l : List ℕ, Chain (fun a => s.load a 8) s.freelist (l.map pg) ∧ l.Nodup ∧
    ∀ p, p ∈ l ↔ own p = .free

namespace Pages

theorem pos (h : Pages k own s) (hp : own p ≠ .outside) : 0 < p := by
  have := ((h.range p).1 hp).1
  have := h.kend
  by_contra h0
  simp [Nat.eq_zero_of_not_pos h0, pg] at *
  omega

theorem small (h : Pages k own s) (hp : own p ≠ .outside) : p < 2 ^ 52 := by
  have := ((h.range p).1 hp).2
  unfold pg PGSIZE PHYSTOP KERNBASE at this
  omega

theorem freelist_lt (h : Pages k own s) : s.freelist < 256 ^ 8 := by
  obtain ⟨l, hl, -, hmem⟩ := h.list
  by_cases h0 : s.freelist = 0
  · rw [h0]
    decide
  · obtain ⟨l', hl', -⟩ := hl.exists_of_ne h0
    obtain ⟨p, hp, hpl⟩ := List.mem_map.1 (hl' ▸ List.mem_cons_self)
    have := ((h.range p).1 (by rw [(hmem p).1 hp]; simp)).2
    unfold PHYSTOP KERNBASE at this
    omega

/-- The list depends on the free pages only. -/
theorem congr (h : Pages k own s) (hfree : ∀ p, own' p = .free ↔ own p = .free)
    (hout : ∀ p, own' p = .outside ↔ own p = .outside) (hlist : t.freelist = s.freelist)
    (hmem : ∀ p, own p = .free → t.mem.get p = s.mem.get p) : Pages k own' t := by
  obtain ⟨l, hl, hnodup, hmeml⟩ := h.list
  refine ⟨h.kend, fun p => ?_, l, ?_, hnodup, fun p => (hmeml p).trans (hfree p).symm⟩
  · rw [Ne, hout]
    exact h.range p
  · rw [hlist]
    refine hl.congr fun a ha => ?_
    obtain ⟨p, hp, rfl⟩ := List.mem_map.1 ha
    have := hmem p ((hmeml p).1 hp)
    rw [load_pg0, load_pg0, this]

theorem retype (h : Pages k own s) {u : Use} (hf : own p ≠ .free) (ho : own p ≠ .outside)
    (huf : u ≠ .free) (huo : u ≠ .outside) : Pages k (Function.update own p u) s := by
  refine h.congr (fun q => ?_) (fun q => ?_) rfl fun _ _ => rfl
  · by_cases hq : q = p
    · rw [hq, Function.update_self]
      exact iff_of_false huf hf
    · rw [Function.update_of_ne hq]
  · by_cases hq : q = p
    · rw [hq, Function.update_self]
      exact iff_of_false huo ho
    · rw [Function.update_of_ne hq]

end Pages

/-- What `kfree` and `kalloc` do to memory: only the page itself may change. -/
def OnlyPage (p : ℕ) (s t : State) : Prop := ∀ q, q ≠ p → t.mem.get q = s.mem.get q

theorem kfree_spec (h : Pages k own s) (ho : own p ≠ .outside) (hf : own p ≠ .free) :
    Post (kfree k (pg p)) s (fun _ t => Pages k (Function.update own p .free) t ∧
      Rest s t ∧ t.deny = s.deny ∧ OnlyPage p s t) E := by
  have hr := (h.range p).1 ho
  have hok : ¬ (pg p % PGSIZE ≠ 0 ∨ pg p < k.kend ∨ pg p ≥ PHYSTOP) := by
    rw [pg_mod]
    omega
  simp only [kfree, memset_eq, writeBytes, write64, State.store, post_bind, post_ite, post_get,
    post_modify, hok, setBytes_pg0]
  refine ⟨False.elim, fun _ => ⟨?_, ⟨rfl, rfl, rfl, rfl, rfl⟩, trivial, ?_⟩⟩
  · obtain ⟨l, hl, hnodup, hmem⟩ := h.list
    have hpl : p ∉ l := fun hp => hf ((hmem p).1 hp)
    refine ⟨h.kend, fun q => ?_, p :: l, hl.push ?_ ?_ ?_, ?_, fun q => ?_⟩
    · by_cases hq : q = p
      · rw [hq, Function.update_self]
        exact iff_of_true (by simp) hr
      · rw [Function.update_of_ne hq]
        exact h.range q
    · exact fun h0 => (h.pos ho).ne' (pg_eq_zero.1 h0)
    · rw [load_pg0, TMap.get_set_self]
      exact (Bytes.getLE_putLE_self _ 0 8 _).trans (Nat.mod_eq_of_lt h.freelist_lt)
    · intro a ha
      obtain ⟨q, hq, rfl⟩ := List.mem_map.1 ha
      have hqp : q ≠ p := fun hqp => hpl (hqp ▸ hq)
      rw [load_pg0, load_pg0, TMap.get_set_ne _ _ hqp, TMap.get_set_ne _ _ hqp]
    · exact List.nodup_cons.2 ⟨hpl, hnodup⟩
    · by_cases hq : q = p
      · rw [hq, Function.update_self]
        simp
      · rw [Function.update_of_ne hq, List.mem_cons, hmem]
        simp [hq]
  · intro q hq
    simp [TMap.get_set_ne _ _ hq]

theorem kalloc_spec (h : Pages k own s) :
    Post kalloc s (fun r t => Rest s t ∧ t.deny = s.deny.tail ∧
      (r = 0 ∧ t.mem = s.mem ∧ Pages k own t ∧
          (s.deny.head? = some true ∨ ∀ p, own p ≠ .free) ∨
        ∃ p, r = pg p ∧ own p = .free ∧ Pages k (Function.update own p .held) t ∧
          OnlyPage p s t)) E := by
  simp only [kalloc, memset_eq, writeBytes, read64, post_bind, post_ite, post_get, post_modify,
    post_pure]
  have hdeny : Pages k own { s with deny := s.deny.tail } :=
    h.congr (fun _ => Iff.rfl) (fun _ => Iff.rfl) rfl fun _ _ => rfl
  refine ⟨fun hd => ⟨⟨rfl, rfl, rfl, rfl, rfl⟩, trivial, .inl ⟨trivial, trivial, hdeny, .inl hd⟩⟩,
    fun hd => ⟨fun hne => ?_, fun hz => ?_⟩⟩
  · obtain ⟨l, hl, hnodup, hmem⟩ := h.list
    obtain ⟨l', hl', hchain⟩ := hl.exists_of_ne hne
    obtain ⟨p, l, rfl, hp, rfl⟩ := List.map_eq_cons_iff.1 hl'
    rw [← hp, setBytes_pg0]
    obtain ⟨hpl, hnodup⟩ := List.nodup_cons.1 hnodup
    have hfree : own p = .free := (hmem p).1 List.mem_cons_self
    refine ⟨⟨rfl, rfl, rfl, rfl, rfl⟩, rfl, .inr ⟨p, rfl, hfree, ⟨h.kend, fun q => ?_, l, ?_,
      hnodup, fun q => ?_⟩, fun q hq => TMap.get_set_ne _ _ hq⟩⟩
    · by_cases hq : q = p
      · rw [hq, Function.update_self]
        exact iff_of_true (by simp) ((h.range p).1 (by rw [hfree]; simp))
      · rw [Function.update_of_ne hq]
        exact h.range q
    · rw [← hp] at hchain
      refine hchain.congr fun a ha => ?_
      obtain ⟨q, hq, rfl⟩ := List.mem_map.1 ha
      have hqp : q ≠ p := fun hqp => hpl (hqp ▸ hq)
      simp only [load_pg0, TMap.get_set_ne _ _ hqp]
    · by_cases hq : q = p
      · rw [hq, Function.update_self]
        exact iff_of_false hpl (by simp)
      · rw [Function.update_of_ne hq, ← hmem, List.mem_cons]
        simp [hq]
  · obtain ⟨l, hl, -, hmem⟩ := h.list
    have hz : s.freelist = 0 := by simpa using hz
    rw [hz] at hl
    have hnil := List.map_eq_nil_iff.1 hl.eq_nil
    refine ⟨⟨rfl, rfl, rfl, rfl, rfl⟩, trivial, .inl ⟨hz, trivial, hdeny, .inr fun p hp => ?_⟩⟩
    have := (hmem p).2 hp
    rw [hnil] at this
    cases this

end Vm
end Xv6
