import Xv6.Vm.Lifetime

/-!
The translation that a page table gives, as `walk` without allocation reads it, for the
tables that `walk` and `mappages` build from fresh pages. `mappages` adds the pages of
its range, or the first ones of them when memory runs out, and changes nothing else.
-/

namespace Xv6
namespace Vm

open Hoare RadixTree FreeList

variable {k : Layout} {own own' : ℕ → Use} {L L' : ℕ → List ℕ → ℕ} {s t : State}
  {E : Panic → State → Prop} {r n m va pa perm pagetable : ℕ} {H : List ℕ}

/-- The valid entry that `walk(pagetable, va, 0)` points to. -/
def translation (pagetable va : ℕ) (s : State) : Option ℕ :=
  match walk pagetable va false s with
  | .ok a t => if a = 0 ∨ t.load a 8 &&& PTE_V = 0 then none else some (t.load a 8)
  | .error _ _ => none

theorem translation_eq (h : Memory k own L s) (hr : own r = .table r []) (hva : va < MAXVA) :
    translation (pg r) va s =
      if L r (key va) &&& PTE_V = 0 then none else some (L r (key va)) := by
  obtain ⟨a, t, hrun, rfl, ⟨rfl, h0⟩ | ⟨d, hd, rfl⟩⟩ := (walk_find h hr hva).returns
  · rw [translation, hrun, h0]
    simp
  · rw [translation, hrun]
    dsimp only
    rw [h.load_key hr hd]
    simp only [h.addr_ne_zero hd, false_or]

theorem key_PGROUNDDOWN (va : ℕ) : key (PGROUNDDOWN va) = key va := by
  simp only [key, path, PX_PGROUNDDOWN]

/-! ### Tables built by `walk` and `mappages` -/

structure Allocator (k : Layout) (s : State) : Prop where
  kend : 0 < k.kend
  list : ∃ l : List ℕ, Chain (fun a => s.load a 8) s.freelist (l.map pg) ∧ l.Nodup ∧
    ∀ p, p ∈ l → k.kend ≤ pg p ∧ pg p < PHYSTOP

/-- The page table starts as a fresh page of zeros and then goes through `walk` and
`mappages`. In between its owner and the rest of the kernel allocate pages, write to
them and free them; `H` are the pages that are held so. -/
inductive Built (k : Layout) (pagetable : ℕ) : List ℕ → State → Prop
  | create {s t : State} : Allocator k s → uvmcreate s = .ok pagetable t → pagetable ≠ 0 →
      Built k pagetable [] t
  | kalloc {H : List ℕ} {s t : State} {p : ℕ} : Built k pagetable H s → kalloc s = .ok (pg p) t → pg p ≠ 0 →
      Built k pagetable (p :: H) t
  | write {H : List ℕ} {s : State} {p : ℕ} (l : List UInt8) : Built k pagetable H s → p ∈ H →
      Built k pagetable H (s.setBytes (pg p) l)
  | kfree {H : List ℕ} {s t : State} {p : ℕ} {u : Unit} : Built k pagetable H s → p ∈ H → kfree k (pg p) s = .ok u t →
      Built k pagetable (H.erase p) t
  | walk {H : List ℕ} {s t : State} {va a : ℕ} {alloc : Bool} : Built k pagetable H s → walk pagetable va alloc s = .ok a t →
      Built k pagetable H t
  | mappages {H : List ℕ} {s t : State} {va size pa perm : ℕ} {ok : Bool} :
      Built k pagetable H s → pa < 2 ^ 64 → perm < 1024 →
      mappages pagetable va size pa perm s = .ok ok t → Built k pagetable H t

/-- The table is a tree in a memory where the pages `H` are held. -/
def Holds (k : Layout) (r : ℕ) (H : List ℕ) (s : State) : Prop :=
  ∃ own L, Memory k own L s ∧ own r = .table r [] ∧ H.Nodup ∧ ∀ p, p ∈ H → own p = .held

theorem Holds.walked {K : List ℕ → Prop} (hw : Walked k r K L' own s own' t)
    (hr : own r = .table r []) (hn : H.Nodup) (hH : ∀ p, p ∈ H → own p = .held) :
    Holds k r H t := by
  refine ⟨own', L', hw.memory, ?_, hn, fun p hp => ?_⟩
  · rw [hw.grows.keep (by rw [hr]; simp), hr]
  · rw [hw.grows.keep (by rw [hH p hp]; simp), hH p hp]

theorem memory_of_freelist {l : List ℕ} (hk : 0 < k.kend)
    (hl : Chain (fun a => s.load a 8) s.freelist (l.map pg)) (hnodup : l.Nodup)
    (hrange : ∀ p, p ∈ l → k.kend ≤ pg p ∧ pg p < PHYSTOP) :
    ∃ own, Memory k own (fun _ _ => 0) s ∧ Rooted own ∧
      ∀ p, p ∉ l → k.kend ≤ pg p → pg p < PHYSTOP → own p = .held := by
  classical
  let own : ℕ → Use := fun p =>
    if p ∈ l then .free else if k.kend ≤ pg p ∧ pg p < PHYSTOP then .held else .outside
  have htable : ∀ p r π, own p ≠ .table r π := by
    intro p r π
    dsimp only [own]
    split_ifs <;> simp
  refine ⟨own, ⟨⟨hk, fun p => ?_, l, hl, hnodup, fun p => ?_⟩, fun r hr => ?_⟩, fun p r hp => ?_,
    fun p hp hlo hhi => ?_⟩
  · dsimp only [own]
    split_ifs with hp hp'
    · exact iff_of_true (by simp) (hrange p hp)
    · exact iff_of_true (by simp) hp'
    · exact iff_of_false (by simp) hp'
  · dsimp only [own]
    split_ifs with hp <;> simp [hp]
  · exact absurd hr (htable r r [])
  · dsimp only [own] at hp
    split_ifs at hp <;> exact hp.elim
  · dsimp only [own]
    rw [if_neg hp, if_pos ⟨hlo, hhi⟩]

theorem Allocator.memory (h : Allocator k s) :
    ∃ own, Memory k own (fun _ _ => 0) s ∧ Rooted own := by
  obtain ⟨l, hl, hnodup, hrange⟩ := h.list
  obtain ⟨own, hm, ho, -⟩ := memory_of_freelist h.kend hl hnodup hrange
  exact ⟨own, hm, ho⟩

theorem walk_lt {alloc : Bool} {a : ℕ} (h : walk pagetable va alloc s = .ok a t) : va < MAXVA := by
  by_contra hge
  have hpanic : Post (walk pagetable va alloc) s (fun _ _ => False) fun _ _ => True := by
    simp only [walk, panic, post_bind, post_ite, post_throw]
    exact ⟨fun _ => trivial, fun hlt => absurd (not_lt.1 hge) hlt⟩
  exact hpanic.of_ok h

theorem Holds.walk {alloc : Bool} {a : ℕ} (h : Holds k r H s)
    (hrun : walk (pg r) va alloc s = .ok a t) : Holds k r H t := by
  obtain ⟨own, L, hm, hr, hn, hH⟩ := h
  cases alloc with
  | false =>
    obtain ⟨rfl, -⟩ := (walk_find (E := fun _ _ => True) hm hr (walk_lt hrun)).of_ok hrun
    exact ⟨own, L, hm, hr, hn, hH⟩
  | true =>
    obtain ⟨own', hw, -⟩ := (walk_alloc (E := fun _ _ => True) hm hr (walk_lt hrun)).of_ok hrun
    exact .walked hw hr hn hH

theorem mapPage_holds {a : ℕ} (hperm : perm < 1024) (hpa : pa < 2 ^ 64) (h : Holds k r H s) :
    Post (mapPage (pg r) perm a pa) s (fun _ t => Holds k r H t) fun _ _ => True := by
  obtain ⟨own, L, hm, hr, hn, hH⟩ := h
  by_cases ha : a < MAXVA
  · by_cases h0 : L r (key a) &&& PTE_V = 0
    · refine (mapPage_spec hperm hm hr ha hpa h0).imp ?_
      rintro ok t ⟨own', hw, -⟩
      exact .walked hw hr hn hH
    · simp only [mapPage, read64, panic, post_bind, post_get, post_pure, post_ite, post_throw]
      refine (walk_alloc hm hr ha).imp ?_
      rintro pte t ⟨own', hw, ⟨rfl, -⟩ | ⟨d, hd, rfl⟩⟩
      · exact ⟨fun _ => .walked hw hr hn hH, fun hne => absurd rfl hne⟩
      · have hr' : own' r = .table r [] := by rw [hw.grows.keep (by rw [hr]; simp), hr]
        rw [hw.memory.load_key hr' hd]
        exact ⟨fun hz => absurd hz (hw.memory.addr_ne_zero hd),
          fun _ => ⟨fun _ => trivial, fun hv => absurd (by simpa using hv) h0⟩⟩
  · simp only [mapPage, Vm.walk, panic, post_bind, post_ite, post_throw]
    exact ⟨fun _ => trivial, fun hlt => absurd (not_lt.1 ha) hlt⟩

theorem mappagesFrom_holds (hperm : perm < 1024) (n : ℕ) : ∀ {s a pa}, pa < 2 ^ 64 →
    Holds k r H s →
    Post (mappagesFrom (pg r) perm n a pa) s (fun _ t => Holds k r H t) fun _ _ => True := by
  induction n with
  | zero =>
    intro s a pa hpa h
    exact mapPage_holds hperm hpa h
  | succ n ih =>
    intro s a pa hpa h
    simp only [mappagesFrom, post_bind, post_ite, post_pure]
    refine (mapPage_holds hperm hpa h).imp fun ok t ht => ⟨fun _ => ?_, fun _ => ht⟩
    exact ih (Nat.mod_lt _ (by decide)) ht

theorem Built.holds (h : Built k pagetable H s) : ∃ r, pagetable = pg r ∧ Holds k r H s := by
  induction h with
  | create ha hrun h0 =>
    obtain ⟨own, hm, ho⟩ := ha.memory
    obtain ⟨ha, -⟩ | ⟨r, own', L', rfl, -, -, he, hs, -⟩ :=
      (uvmcreate_spec (E := fun _ _ => True) hm ho).of_ok hrun
    · exact absurd ha h0
    · exact ⟨r, rfl, own', L', he.memory, hs.root, List.nodup_nil, fun _ hp => by cases hp⟩
  | @kalloc H s t p _ hrun h0 ih =>
    obtain ⟨r, rfl, own, L, hm, hr, hn, hH⟩ := ih
    obtain ⟨ha, -⟩ | ⟨u, hu, -, hf⟩ := (kalloc_fresh (E := fun _ _ => True) hm).of_ok hrun
    · exact absurd ha h0
    · cases pg_inj.1 hu
      have hne : ∀ {q}, own q ≠ .free → q ≠ p := by
        rintro q hq rfl
        exact hq hf.free
      refine ⟨r, rfl, _, L, hf.memory, ?_, List.nodup_cons.2 ⟨fun hp => ?_, hn⟩, fun q hq => ?_⟩
      · rw [Function.update_of_ne (hne (by rw [hr]; simp)), hr]
      · have := hH p hp
        rw [hf.free] at this
        cases this
      · obtain rfl | hq := List.mem_cons.1 hq
        · exact Function.update_self _ _ _
        · rw [Function.update_of_ne (hne (by rw [hH q hq]; simp)), hH q hq]
  | @write H s p l _ hp ih =>
    obtain ⟨r, rfl, own, L, hm, hr, hn, hH⟩ := ih
    refine ⟨r, rfl, own, L, hm.write (u := p) ?_ ?_ rfl fun q hq => mem_setBytes_ne s l hq, hr, hn,
      hH⟩
    · rw [hH p hp]
      simp
    · rw [hH p hp]
      simp
  | @kfree H s t p u _ hp hrun ih =>
    obtain ⟨r, rfl, own, L, hm, hr, hn, hH⟩ := ih
    have hheld := hH p hp
    obtain ⟨hm', -⟩ := (hm.free_page (E := fun _ _ => True) (by rw [hheld]; simp)
      (by rw [hheld]; simp) (by rw [hheld]; simp)).of_ok hrun
    refine ⟨r, rfl, _, L, hm', ?_, hn.erase p, fun q hq => ?_⟩
    · rw [Function.update_of_ne, hr]
      rintro rfl
      rw [hr] at hheld
      cases hheld
    · rw [Function.update_of_ne, hH q (List.mem_of_mem_erase hq)]
      exact (hn.mem_erase_iff.1 hq).1
  | walk _ hrun ih =>
    obtain ⟨r, rfl, ih⟩ := ih
    exact ⟨r, rfl, ih.walk hrun⟩
  | @mappages H s t va size pa perm ok _ hpa hperm hrun ih =>
    obtain ⟨r, rfl, ih⟩ := ih
    have hpost : Post (Vm.mappages (pg r) va size pa perm) s (fun _ t => Holds k r H t)
        fun _ _ => True := by
      simp only [Vm.mappages, panic, post_bind, post_ite, post_throw]
      exact ⟨fun _ => trivial, fun _ => mappagesFrom_holds hperm _ hpa ih⟩
    exact ⟨r, rfl, hpost.of_ok hrun⟩

theorem translation_create (h : Allocator k s) (hrun : uvmcreate s = .ok pagetable t)
    (h0 : pagetable ≠ 0) (hva : va < MAXVA) : translation pagetable va t = none := by
  obtain ⟨own, hm, ho⟩ := h.memory
  obtain ⟨ha, -⟩ | ⟨r, own', L', rfl, -, -, he, hs, -⟩ :=
    (uvmcreate_spec (E := fun _ _ => True) hm ho).of_ok hrun
  · exact absurd ha h0
  · have hzero : L' r (key va) = 0 := by
      rw [← key_PGROUNDDOWN, PGROUNDDOWN_eq, ← vkey,
        hs.top _ (Nat.zero_le _) (by unfold MAXVA PGSIZE at *; omega), topEntry, ite_self, ite_self]
    rw [translation_eq he.memory hs.root hva, hzero]
    simp

/-! ### The law -/

/-- Between `s` and `t` the table got the virtual addresses `[lo, hi)`, mapped to the
physical addresses from `pa` on, and nothing else. -/
structure MapsRange (pagetable pa perm lo hi : ℕ) (s t : State) : Prop where
  inside : ∀ v, lo ≤ v → v < hi → ∃ e, translation pagetable v t = some e ∧
    PTE2PA e = PGROUNDDOWN ((pa + (PGROUNDDOWN v - lo)) % 2 ^ 64) ∧ PTE_FLAGS e = perm ||| PTE_V
  outside : ∀ v, v < MAXVA → ¬ (lo ≤ v ∧ v < hi) →
    translation pagetable v t = translation pagetable v s

theorem mapEntry_valid (hperm : perm < 1024) (pa j : ℕ) : mapEntry perm pa j &&& PTE_V ≠ 0 := by
  have hbit : (perm ||| PTE_V) &&& PTE_V = PTE_V := by
    rw [Nat.and_or_distrib_right, Nat.and_self]
    have : perm &&& PTE_V ≤ 1 := Nat.and_le_right
    unfold PTE_V at *
    interval_cases perm &&& 1 <;> rfl
  rw [mapEntry, pte_and (or_lt hperm (by decide)) (by decide), hbit]
  decide

theorem MapsMore.mapsRange {lo : ℕ} (h : MapsMore r lo m (mapEntry perm pa) L L')
    (hm : Memory k own L s) (hr : own r = .table r []) (hm' : Memory k own' L' t)
    (hr' : own' r = .table r []) (hperm : perm < 1024) (hlo : lo % PGSIZE = 0)
    (hhi : lo + m * PGSIZE ≤ MAXVA) :
    MapsRange (pg r) pa perm lo (lo + m * PGSIZE) s t := by
  constructor
  · intro v hv hv'
    have hkey : L' r (key v) = mapEntry perm pa ((v - lo) / PGSIZE) := by
      have hdown : PGROUNDDOWN v = lo + (v - lo) / PGSIZE * PGSIZE := by
        unfold PGROUNDDOWN PGSIZE at *
        omega
      rw [← key_PGROUNDDOWN, hdown, h.new]
      rw [Nat.div_lt_iff_lt_mul (by decide)]
      omega
    have hoff : (v - lo) / PGSIZE * PGSIZE = PGROUNDDOWN v - lo := by
      unfold PGROUNDDOWN PGSIZE at *
      omega
    refine ⟨mapEntry perm pa ((v - lo) / PGSIZE), ?_, ?_, ?_⟩
    · rw [translation_eq hm' hr' (by omega), hkey, if_neg (mapEntry_valid hperm _ _)]
    · rw [mapEntry, hoff, PTE2PA_pte (by unfold PGSIZE; omega) (or_lt hperm (by decide)),
        ← PGROUNDDOWN_eq]
    · rw [mapEntry, PTE_FLAGS_pte (or_lt hperm (by decide))]
  · intro v hv hout
    have hkey : L' r (key v) = L r (key v) := by
      refine h.old _ fun j hj heq => hout ?_
      have hle : (j + 1) * PGSIZE ≤ m * PGSIZE := Nat.mul_le_mul_right _ hj
      rw [Nat.succ_mul] at hle
      have := key_inj (by unfold MAXVA at hv; omega) (by unfold MAXVA at hhi; omega) heq
      unfold PGSIZE at *
      omega
    rw [translation_eq hm' hr' hv, translation_eq hm hr hv, hkey]

theorem Built.mappages_spec {size : ℕ} (h : Built k pagetable H s) (hsize : 0 < size)
    (hva : va + size ≤ MAXVA) (hpa : pa < 2 ^ 64) (hperm : perm < 1024)
    (hfree : ∀ v, PGROUNDDOWN va ≤ v → v < va + size → translation pagetable v s = none) :
    Post (Vm.mappages pagetable va size pa perm) s (fun ok t =>
      ok = true ∧ MapsRange pagetable pa perm (PGROUNDDOWN va)
          (PGROUNDDOWN (va + size - 1) + PGSIZE) s t ∨
        ok = false ∧ ∃ stop, stop % PGSIZE = 0 ∧ PGROUNDDOWN va ≤ stop ∧
          stop ≤ PGROUNDDOWN (va + size - 1) ∧
          MapsRange pagetable pa perm (PGROUNDDOWN va) stop s t) E := by
  obtain ⟨r, rfl, own, L, hm, hr, -, -⟩ := h.holds
  obtain ⟨n, hn⟩ : ∃ n, PGROUNDDOWN (va + size - 1) = PGROUNDDOWN va + n * PGSIZE := by
    refine ⟨(va + size - 1) / PGSIZE - va / PGSIZE, ?_⟩
    unfold PGROUNDDOWN PGSIZE
    omega
  have hlo : PGROUNDDOWN va % PGSIZE = 0 := by
    unfold PGROUNDDOWN PGSIZE
    omega
  have hend : PGROUNDDOWN va + (n + 1) * PGSIZE ≤ MAXVA := by
    unfold PGROUNDDOWN PGSIZE MAXVA at *
    omega
  have hrounds : (PGROUNDDOWN ((va + size - 1) % 2 ^ 64) + 2 ^ 64 - PGROUNDDOWN va) % 2 ^ 64 /
      PGSIZE = n := by
    have hlt : va + size - 1 < 2 ^ 64 := by
      unfold MAXVA at hva
      omega
    rw [Nat.mod_eq_of_lt hlt, hn]
    unfold PGSIZE MAXVA at *
    omega
  simp only [Vm.mappages, post_bind, post_ite, hrounds]
  refine ⟨fun h0 => absurd h0 hsize.ne', fun _ => ?_⟩
  refine (mappagesFrom_spec hperm n hm hr (by unfold PGSIZE at *; omega) hpa ?_).imp ?_
  · intro j hj
    have hle : j * PGSIZE ≤ n * PGSIZE := Nat.mul_le_mul_right _ hj
    have hlast : PGROUNDDOWN (va + size - 1) ≤ va + size - 1 := Nat.sub_le _ _
    have hnone := hfree (PGROUNDDOWN va + j * PGSIZE) (by omega) (by omega)
    rw [translation_eq hm hr (by omega)] at hnone
    by_contra h0
    rw [if_neg h0] at hnone
    cases hnone
  · rintro ok t ⟨own', L', m, hw, hmaps, hwhy⟩
    have hr' : own' r = .table r [] := by rw [hw.grows.keep (by rw [hr]; simp), hr]
    have hrange : m ≤ n + 1 → MapsRange (pg r) pa perm (PGROUNDDOWN va)
        (PGROUNDDOWN va + m * PGSIZE) s t := by
      intro hmn
      refine hmaps.mapsRange hm hr hw.memory hr' hperm hlo ?_
      have := Nat.mul_le_mul_right PGSIZE hmn
      omega
    refine hwhy.imp ?_ ?_
    · rintro ⟨hok, rfl⟩
      refine ⟨hok, ?_⟩
      rw [hn, Nat.add_assoc, ← Nat.succ_mul]
      exact hrange le_rfl
    · rintro ⟨hok, hmn, -⟩
      refine ⟨hok, PGROUNDDOWN va + m * PGSIZE, ?_, by omega, ?_, hrange (by omega)⟩
      · rw [Nat.add_mul_mod_self_right, hlo]
      · have := Nat.mul_le_mul_right PGSIZE hmn
        omega

/-- `mappages` maps its range, or the first pages of it when it fails. -/
theorem mappages_law {size : ℕ} (h : Built k pagetable H s) (hsize : 0 < size)
    (hva : va + size ≤ MAXVA) (hpa : pa < 2 ^ 64) (hperm : perm < 1024)
    (hfree : ∀ v, PGROUNDDOWN va ≤ v → v < va + size → translation pagetable v s = none) :
    ∃ ok t, mappages pagetable va size pa perm s = .ok ok t ∧
      (ok = true ∧ MapsRange pagetable pa perm (PGROUNDDOWN va)
          (PGROUNDDOWN (va + size - 1) + PGSIZE) s t ∨
        ok = false ∧ ∃ stop, stop % PGSIZE = 0 ∧ PGROUNDDOWN va ≤ stop ∧
          stop ≤ PGROUNDDOWN (va + size - 1) ∧
          MapsRange pagetable pa perm (PGROUNDDOWN va) stop s t) :=
  (h.mappages_spec hsize hva hpa hperm hfree).returns

def topPages : List ℕ := (List.range 24).map (0x87fe8 + ·)

def manyFree : State :=
  let link (p : ℕ) (s : State) : State := { s.store (pg p) 8 s.freelist with freelist := pg p }
  topPages.foldr link ⟨.empty, 0, 0, .empty, 1, .empty, [], []⟩

theorem manyFree_chain : Chain (fun a => manyFree.load a 8) manyFree.freelist (topPages.map pg) := by
  decide +kernel

theorem manyFree_allocator : Allocator ⟨KERNBASE, KERNBASE, KERNBASE⟩ manyFree :=
  ⟨by decide, _, manyFree_chain, by decide, by decide⟩

def oneTable : State := final (uvmcreate manyFree)

theorem uvmcreate_manyFree : uvmcreate manyFree = .ok (pg 0x87fe8) oneTable :=
  eq_ok_of_returned (by decide +kernel)

/-- Two pages on both sides of a boundary between last-level tables. -/
theorem mappages_law_oneTable :
    ∃ t, mappages (pg 0x87fe8) 0x1ff800 PGSIZE KERNBASE (PTE_R ||| PTE_W) oneTable = .ok true t ∧
      MapsRange (pg 0x87fe8) KERNBASE (PTE_R ||| PTE_W) 0x1ff000 0x201000 oneTable t := by
  have hnone : ∀ v, PGROUNDDOWN 0x1ff800 ≤ v → v < 0x1ff800 + PGSIZE →
      translation (pg 0x87fe8) v oneTable = none := fun v _ hv =>
    translation_create manyFree_allocator uvmcreate_manyFree (by decide) (hv.trans (by decide))
  obtain ⟨ok, t, hrun, hend⟩ := mappages_law
    (.create manyFree_allocator uvmcreate_manyFree (by decide)) (by decide) (by decide)
    (show KERNBASE < 2 ^ 64 by decide) (show PTE_R ||| PTE_W < 1024 by decide) hnone
  obtain ⟨t', hrun'⟩ := exists_of_returned (show returned (mappages (pg 0x87fe8) 0x1ff800 PGSIZE
    KERNBASE (PTE_R ||| PTE_W) oneTable) = some true by decide +kernel)
  rw [hrun'] at hrun
  cases hrun
  obtain ⟨-, hmaps⟩ | ⟨hfalse, -⟩ := hend
  · exact ⟨_, hrun', hmaps⟩
  · cases hfalse

end Vm
end Xv6
