import Xv6.Lib.Transition
import Xv6.Vm.Pages

/-!
Runs of the page allocator. After `kinit` the free list has every page from the end of the
kernel on; then pages are allocated, freed and written by their owners in any order.
-/

namespace Xv6
namespace Vm
open Hoare FreeList

/-- Page `p` is one of `[PGROUNDUP(end), PHYSTOP)`. -/
def InRange (k : Layout) (p : ℕ) : Prop := PGROUNDUP k.kend ≤ pg p ∧ pg p < PHYSTOP

instance (k : Layout) (p : ℕ) : Decidable (InRange k p) := instDecidableAnd

/-- The free list, threaded through the pages, has exactly the pages of `F`, each once. -/
def FreePages (s : State) (F : Set ℕ) : Prop :=
  ∃ l : List ℕ, Chain (fun a => s.load a 8) s.freelist (l.map pg) ∧ l.Nodup ∧ ∀ p, p ∈ l ↔ p ∈ F

structure Owned where
  state : State
  pages : Finset ℕ

inductive PageOp where
  | kalloc
  | kfree (p : ℕ)
  /-- Owners write to their pages. -/
  | write (mem : TMap Bytes)

/-- The allocator has been set up; its list was empty. -/
def AllocStart (k : Layout) (m : Owned) : Prop :=
  ∃ s u, s.freelist = 0 ∧ s.deny = [] ∧ kinit k s = .ok u m.state ∧ m.pages = ∅

def AllocStep (k : Layout) (m : Owned) : PageOp → Owned → Prop
  | .kalloc, m' => ∃ r t, kalloc m.state = .ok r t ∧
      m' = ⟨t, if r = 0 then m.pages else insert (r / PGSIZE) m.pages⟩
  | .kfree p, m' => p ∈ m.pages ∧ ∃ u t, kfree k (pg p) m.state = .ok u t ∧
      m' = ⟨t, m.pages.erase p⟩
  | .write mem, m' => (∀ q, q ∉ m.pages → mem.get q = m.state.mem.get q) ∧
      m' = ⟨{ m.state with mem := mem }, m.pages⟩

def AllocReached (k : Layout) : Owned → Prop := Transition.Reachable (AllocStart k) (AllocStep k)

/-- The use of the pages while `A` is allocated. -/
def uses (k : Layout) (A : Finset ℕ) (p : ℕ) : Use :=
  if p ∈ A then .held else if InRange k p then .free else .outside

variable {k : Layout} {own : ℕ → Use} {s t : State} {A : Finset ℕ} {m : Owned} {n p q : ℕ}
  {E : Panic → State → Prop}

theorem roundup_kend (hk : k.kend ≤ PHYSTOP) : PGROUNDUP k.kend = pg (pages k.kend) :=
  PGROUNDUP_eq (by unfold PHYSTOP KERNBASE PGSIZE at *; omega)

theorem pg_le_pg : pg p ≤ pg q ↔ p ≤ q := Nat.mul_le_mul_right_iff (by decide)

theorem inRange_iff (hk : k.kend ≤ PHYSTOP) : InRange k p ↔ k.kend ≤ pg p ∧ pg p < PHYSTOP := by
  unfold InRange
  rw [roundup_kend hk, pg_le_pg, pages_le_iff]

theorem inRange_iff_index (hk : k.kend ≤ PHYSTOP) : InRange k p ↔
    pages k.kend ≤ p ∧ p < pages k.kend + (PHYSTOP - pg (pages k.kend)) / PGSIZE := by
  unfold InRange
  rw [roundup_kend hk, pg_le_pg]
  unfold PHYSTOP KERNBASE pg PGSIZE
  omega

theorem uses_eq_free : uses k A p = .free ↔ InRange k p ∧ p ∉ A := by
  unfold uses
  split_ifs with hA hr
  · exact iff_of_false nofun fun h => h.2 hA
  · exact iff_of_true rfl ⟨hr, hA⟩
  · exact iff_of_false nofun fun h => hr h.1

theorem uses_eq_held : uses k A p = .held ↔ p ∈ A := by
  unfold uses
  split_ifs with hA hr
  · exact iff_of_true rfl hA
  · exact iff_of_false nofun hA
  · exact iff_of_false nofun hA

theorem update_held (k : Layout) (A : Finset ℕ) (p : ℕ) :
    Function.update (uses k A) p .held = uses k (insert p A) := by
  funext q
  by_cases hq : q = p
  · rw [hq, Function.update_self, eq_comm, uses_eq_held]
    exact Finset.mem_insert_self p A
  · rw [Function.update_of_ne hq]
    simp only [uses, Finset.mem_insert, hq, false_or]

theorem update_free (hp : InRange k p) :
    Function.update (uses k A) p .free = uses k (A.erase p) := by
  funext q
  by_cases hq : q = p
  · rw [hq, Function.update_self, eq_comm, uses_eq_free]
    exact ⟨hp, Finset.notMem_erase p A⟩
  · rw [Function.update_of_ne hq]
    simp only [uses, Finset.mem_erase, hq, not_false_eq_true, ne_eq, true_and]

theorem freerangeFrom_spec (h : Pages k own s)
    (hp : ∀ q, p ≤ q → q < p + n → own q = .held) :
    Post (freerangeFrom k n (pg p)) s (fun _ t =>
      Pages k (fun q => if p ≤ q ∧ q < p + n then .free else own q) t ∧ t.deny = s.deny) E := by
  induction n generalizing own s p with
  | zero =>
    rw [freerangeFrom, post_pure]
    refine ⟨?_, rfl⟩
    have hsame : (fun q => if p ≤ q ∧ q < p + 0 then .free else own q) = own := by
      funext q
      rw [if_neg (by omega)]
    rwa [hsame]
  | succ n ih =>
    have hheld := hp p le_rfl (by omega)
    rw [freerangeFrom, post_bind, ← pg_succ]
    refine (kfree_spec h (by rw [hheld]; nofun) (by rw [hheld]; nofun)).imp ?_
    rintro - u ⟨hu, -, hdeny, -⟩
    refine (ih hu fun q hq hq' => ?_).imp ?_
    · rw [Function.update_of_ne (by omega)]
      exact hp q (by omega) (by omega)
    · rintro - t ⟨ht, hdeny'⟩
      refine ⟨?_, hdeny'.trans hdeny⟩
      have hsame : (fun q => if p + 1 ≤ q ∧ q < p + 1 + n then Use.free
          else Function.update own p .free q) =
          fun q => if p ≤ q ∧ q < p + (n + 1) then .free else own q := by
        funext q
        by_cases hq : q = p
        · rw [hq, if_neg (by omega), if_pos (by omega), Function.update_self]
        · rw [Function.update_of_ne hq]
          by_cases hr : p ≤ q ∧ q < p + (n + 1)
          · rw [if_pos hr, if_pos (by omega)]
          · rw [if_neg hr, if_neg (by omega)]
      rwa [← hsame]

theorem pages_initial (hk : 0 < k.kend) (hk' : k.kend ≤ PHYSTOP) (h0 : s.freelist = 0) :
    Pages k (fun p => if InRange k p then .held else .outside) s := by
  refine ⟨hk, fun p => ?_, [], h0, List.nodup_nil, fun p => ?_⟩
  · rw [← inRange_iff hk']
    split_ifs with hr
    · exact iff_of_true nofun hr
    · exact iff_of_false (fun h => h rfl) hr
  · refine iff_of_false List.not_mem_nil ?_
    split_ifs <;> nofun

theorem kinit_spec (hk : 0 < k.kend) (hk' : k.kend ≤ PHYSTOP) (h0 : s.freelist = 0) :
    Post (kinit k) s (fun _ t => Pages k (uses k ∅) t ∧ t.deny = s.deny) E := by
  rw [kinit, freerange, roundup_kend hk']
  refine (freerangeFrom_spec (pages_initial hk hk' h0) fun q hq hq' => ?_).imp ?_
  · exact if_pos ((inRange_iff_index hk').2 ⟨hq, hq'⟩)
  · rintro - t ⟨ht, hdeny⟩
    refine ⟨?_, hdeny⟩
    have hsame : uses k ∅ = fun q => if pages k.kend ≤ q ∧
        q < pages k.kend + (PHYSTOP - pg (pages k.kend)) / PGSIZE
        then Use.free else if InRange k q then .held else .outside := by
      funext q
      rw [uses, if_neg (Finset.notMem_empty q)]
      by_cases hr : InRange k q
      · rw [if_pos hr, if_pos ((inRange_iff_index hk').1 hr)]
      · rw [if_neg hr, if_neg fun h => hr ((inRange_iff_index hk').2 h), if_neg hr]
    rwa [hsame]

structure Sound (k : Layout) (m : Owned) : Prop where
  pages : Pages k (uses k m.pages) m.state
  range : ∀ p ∈ m.pages, InRange k p
  deny : m.state.deny = []

theorem Sound.free (h : Sound k m) : FreePages m.state {p | InRange k p ∧ p ∉ m.pages} := by
  obtain ⟨l, hl, hnodup, hmem⟩ := h.pages.list
  exact ⟨l, hl, hnodup, fun p => (hmem p).trans uses_eq_free⟩

theorem Sound.kalloc (h : Sound k m) :
    Post kalloc m.state (fun r t =>
      Sound k ⟨t, if r = 0 then m.pages else insert (r / PGSIZE) m.pages⟩ ∧
      (r = 0 ∧ (∀ p, InRange k p → p ∈ m.pages) ∨
        ∃ p, r = pg p ∧ InRange k p ∧ p ∉ m.pages)) E := by
  refine (kalloc_spec h.pages).imp ?_
  rintro r t ⟨-, hdeny, ⟨rfl, -, hp, hnone⟩ | ⟨p, rfl, hfree, hp, -⟩⟩
  · rw [if_pos rfl]
    refine ⟨⟨hp, h.range, hdeny.trans (by rw [h.deny]; rfl)⟩, .inl ⟨rfl, fun p hr => ?_⟩⟩
    obtain hd | hnone := hnone
    · rw [h.deny] at hd
      cases hd
    · by_contra hA
      exact hnone p (uses_eq_free.2 ⟨hr, hA⟩)
  · obtain ⟨hr, hA⟩ := uses_eq_free.1 hfree
    have hpos : pg p ≠ 0 := fun h0 => (h.pages.pos (by rw [hfree]; nofun)).ne' (pg_eq_zero.1 h0)
    rw [if_neg hpos, pg_div]
    refine ⟨⟨update_held k m.pages p ▸ hp, fun q hq => ?_, hdeny.trans (by rw [h.deny]; rfl)⟩,
      .inr ⟨p, rfl, hr, hA⟩⟩
    obtain rfl | hq := Finset.mem_insert.1 hq
    · exact hr
    · exact h.range q hq

theorem Sound.kfree (h : Sound k m) (hp : p ∈ m.pages) :
    Post (kfree k (pg p)) m.state (fun _ t => Sound k ⟨t, m.pages.erase p⟩) E := by
  have hheld := uses_eq_held (k := k).2 hp
  refine (kfree_spec h.pages (by rw [hheld]; nofun) (by rw [hheld]; nofun)).imp ?_
  rintro - t ⟨ht, -, hdeny, -⟩
  exact ⟨update_free (h.range p hp) ▸ ht, fun q hq => h.range q (Finset.mem_of_mem_erase hq),
    hdeny.trans h.deny⟩

/-- Owners do not touch the links. -/
theorem Sound.write (h : Sound k m) {mem : TMap Bytes}
    (hmem : ∀ q, q ∉ m.pages → mem.get q = m.state.mem.get q) :
    Sound k ⟨{ m.state with mem := mem }, m.pages⟩ := by
  refine ⟨h.pages.congr (fun _ => Iff.rfl) (fun _ => Iff.rfl) rfl fun p hp => ?_, h.range, h.deny⟩
  exact hmem p (uses_eq_free.1 hp).2

theorem Sound.of_reached (hk : 0 < k.kend) (hk' : k.kend ≤ PHYSTOP) (h : AllocReached k m) : Sound k m := by
  refine h.invariant ?_ ?_
  · rintro m ⟨s, u, h0, hdeny, hrun, hA⟩
    obtain ⟨hp, hd⟩ := (kinit_spec (E := fun _ _ => True) hk hk' h0).of_ok hrun
    refine ⟨hA ▸ hp, fun p hp => ?_, hd.trans hdeny⟩
    rw [hA] at hp
    exact absurd hp (Finset.notMem_empty p)
  · rintro m op m' h hstep
    cases op with
    | kalloc =>
      obtain ⟨r, t, hrun, rfl⟩ := hstep
      exact ((h.kalloc (E := fun _ _ => True)).of_ok hrun).1
    | kfree p =>
      obtain ⟨hp, u, t, hrun, rfl⟩ := hstep
      exact (h.kfree (E := fun _ _ => True) hp).of_ok hrun
    | write mem =>
      obtain ⟨hmem, rfl⟩ := hstep
      exact h.write hmem

/-- After `kinit` the free list has every page of the range once. In every run that follows it
has exactly the pages that are not allocated; `kalloc` returns one of them, or `0` when there
is none, and pages in use can be freed. -/
theorem kalloc_partitions (hk : 0 < k.kend) (hk' : k.kend ≤ PHYSTOP) :
    (∀ s, s.freelist = 0 → ∃ u t, kinit k s = .ok u t ∧ FreePages t {p | InRange k p}) ∧
    ∀ m, AllocReached k m →
      FreePages m.state {p | InRange k p ∧ p ∉ m.pages} ∧ (∀ p ∈ m.pages, InRange k p) ∧
      (∃ r t, kalloc m.state = .ok r t ∧
        (r = 0 ∧ (∀ p, InRange k p → p ∈ m.pages) ∨
          ∃ p, r = pg p ∧ InRange k p ∧ p ∉ m.pages)) ∧
      ∀ p ∈ m.pages, ∃ u t, kfree k (pg p) m.state = .ok u t := by
  constructor
  · intro s h0
    obtain ⟨u, t, hrun, ht, -⟩ := (kinit_spec (E := fun _ _ => False) hk hk' h0).returns
    obtain ⟨l, hl, hnodup, hmem⟩ := ht.list
    refine ⟨u, t, hrun, l, hl, hnodup, fun p => (hmem p).trans ?_⟩
    rw [uses_eq_free]
    exact and_iff_left (Finset.notMem_empty p)
  · intro m hm
    have h := Sound.of_reached hk hk' hm
    obtain ⟨r, t, hrun, -, hr⟩ := (h.kalloc (E := fun _ _ => False)).returns
    refine ⟨h.free, h.range, ⟨r, t, hrun, hr⟩, fun p hp => ?_⟩
    obtain ⟨u, t, hrun, -⟩ := (h.kfree (E := fun _ _ => False) hp).returns
    exact ⟨u, t, hrun⟩

/-- A page is allocated, written and freed: then all pages of the range are free again. -/
theorem kalloc_partitions_useOne : ∃ m₀ m₁ m₂ m₃ p mem,
    AllocReached ⟨0, 0, KERNBASE⟩ m₀ ∧ AllocStep ⟨0, 0, KERNBASE⟩ m₀ .kalloc m₁ ∧ m₁.pages = {p} ∧
    AllocStep ⟨0, 0, KERNBASE⟩ m₁ (.write mem) m₂ ∧ mem.get p ≠ m₁.state.mem.get p ∧
    AllocStep ⟨0, 0, KERNBASE⟩ m₂ (.kfree p) m₃ ∧
    FreePages m₃.state {p | InRange ⟨0, 0, KERNBASE⟩ p} := by
  have hpart := kalloc_partitions (k := ⟨0, 0, KERNBASE⟩) (by decide) (by decide)
  obtain ⟨u, t, hrun, -⟩ := hpart.1 ⟨.empty, 0, 0, .empty, 0, .empty, [], []⟩ rfl
  have h₀ : AllocReached ⟨0, 0, KERNBASE⟩ ⟨t, ∅⟩ := .start _ ⟨_, u, rfl, rfl, hrun, rfl⟩
  obtain ⟨-, -, ⟨r, t₁, hk, ⟨-, hall⟩ | ⟨p, rfl, hp, -⟩⟩, -⟩ := hpart.2 _ h₀
  · exact absurd (hall 0x80000 (by decide)) (Finset.notMem_empty _)
  have hne : pg p ≠ 0 := by
    have := ((inRange_iff (by decide)).1 hp).1
    unfold KERNBASE at this
    dsimp only at this
    omega
  have hstep₁ : AllocStep ⟨0, 0, KERNBASE⟩ ⟨t, ∅⟩ .kalloc ⟨t₁, {p}⟩ := by
    refine ⟨_, t₁, hk, ?_⟩
    rw [if_neg hne, pg_div]
    rfl
  have h₁ := Transition.Reachable.next _ _ _ h₀ hstep₁
  obtain ⟨b, hb⟩ : ∃ b, b = (t₁.mem.get p).set 0 ((t₁.mem.get p).get 0 + 1) := ⟨_, rfl⟩
  have hstep₂ : AllocStep ⟨0, 0, KERNBASE⟩ ⟨t₁, {p}⟩ (.write (t₁.mem.set p b))
      ⟨{ t₁ with mem := t₁.mem.set p b }, {p}⟩ :=
    ⟨fun q hq => TMap.get_set_ne _ _ fun hqp => hq (Finset.mem_singleton.2 hqp), rfl⟩
  have h₂ := Transition.Reachable.next _ _ _ h₁ hstep₂
  obtain ⟨v, t₃, hfree⟩ := (hpart.2 _ h₂).2.2.2 p (Finset.mem_singleton_self p)
  have hstep₃ : AllocStep ⟨0, 0, KERNBASE⟩ ⟨{ t₁ with mem := t₁.mem.set p b }, {p}⟩ (.kfree p)
      ⟨t₃, ∅⟩ := ⟨Finset.mem_singleton_self p, v, t₃, hfree, by simp⟩
  have h₃ := Transition.Reachable.next _ _ _ h₂ hstep₃
  refine ⟨_, _, _, _, p, _, h₀, hstep₁, rfl, hstep₂, fun heq => ?_, hstep₃, ?_⟩
  · rw [TMap.get_set_self, hb] at heq
    have := congrArg (TMap.get · 0) heq
    dsimp only at this
    rw [TMap.get_set_self] at this
    simp at this
  · obtain ⟨l, hl, hnodup, hmem⟩ := (hpart.2 _ h₃).1
    refine ⟨l, hl, hnodup, fun q => (hmem q).trans (and_iff_left (Finset.notMem_empty q))⟩

end Vm
end Xv6
