import Xv6.Vm.KallocRuns
import Xv6.Vm.Mapping

/-!
The kernel's page table. `kvmmake` lays regions of whole pages into an empty table, one after
the other; as long as they do not overlap, the table has their entries and no others. All tables
it needs are at the places `tablePaths`, so that the number of pages it allocates is bounded.
-/

namespace Xv6
namespace Vm

open Hoare RadixTree FreeList

variable {k : Layout} {own own' : ℕ → Use} {L L' : ℕ → List ℕ → ℕ} {s t : State}
  {E : Panic → State → Prop} {r n v : ℕ} {l : List ℕ} {stack : ℕ → ℕ}

/-! ### Regions -/

/-- The addresses `[va, va + size)`, mapped to `[pa, pa + size)`. -/
structure Region where
  va : ℕ
  size : ℕ
  pa : ℕ
  perm : ℕ

variable {R : Region} {rs : List Region}

namespace Region

def Has (R : Region) (v : ℕ) : Prop := R.va ≤ v ∧ v < R.va + R.size

structure Ok (R : Region) : Prop where
  aligned : R.va % PGSIZE = 0
  whole : R.size % PGSIZE = 0
  pos : 0 < R.size
  top : R.va + R.size ≤ MAXVA
  pa : R.pa < 2 ^ 64
  perm : R.perm < 1024

def entry (R : Region) (v : ℕ) : ℕ := mapEntry R.perm R.pa ((v - R.va) / PGSIZE)

theorem Ok.lt (h : R.Ok) (hv : R.Has v) : v < MAXVA := hv.2.trans_le h.top

theorem Ok.page (h : R.Ok) (hv : R.Has v) : (v - R.va) / PGSIZE < R.size / PGSIZE ∧
    key v = key (R.va + (v - R.va) / PGSIZE * PGSIZE) := by
  obtain ⟨haligned, hwhole, -, -, -, -⟩ := h
  obtain ⟨hlo, hhi⟩ := hv
  have hdown : PGROUNDDOWN v = R.va + (v - R.va) / PGSIZE * PGSIZE := by
    unfold PGROUNDDOWN PGSIZE at *
    omega
  refine ⟨?_, by rw [← hdown, key_PGROUNDDOWN]⟩
  unfold PGSIZE at *
  omega

theorem Ok.has_page (h : R.Ok) {j : ℕ} (hj : j < R.size / PGSIZE) : R.Has (R.va + j * PGSIZE) := by
  have hwhole := h.whole
  unfold Has PGSIZE at *
  omega

theorem Ok.has_of_key (h : R.Ok) {w : ℕ} (hw : R.Has w) (hv : v < MAXVA) (hkey : key v = key w) :
    R.Has v := by
  have hw' := h.lt hw
  have hdiv := key_inj (by unfold MAXVA at hv; omega) (by unfold MAXVA at hw'; omega) hkey
  obtain ⟨haligned, hwhole, -, -, -, -⟩ := h
  unfold Has PGSIZE at *
  omega

end Region

structure Lays (rs : List Region) (f : List ℕ → ℕ) : Prop where
  ok : ∀ R ∈ rs, R.Ok
  inside : ∀ R ∈ rs, ∀ v, R.Has v → f (key v) = R.entry v
  outside : ∀ v, v < MAXVA → (∀ R ∈ rs, ¬ R.Has v) → f (key v) = 0

theorem Lays.add (h : Lays rs (L r)) (hR : R.Ok) (hdisj : ∀ R' ∈ rs, ∀ v, R'.Has v → ¬ R.Has v)
    (hmaps : MapsMore r R.va (R.size / PGSIZE) (mapEntry R.perm R.pa) L L') :
    Lays (R :: rs) (L' r) := by
  have hold : ∀ v, v < MAXVA → ¬ R.Has v → L' r (key v) = L r (key v) := by
    intro v hv hno
    refine hmaps.old _ fun j hj hkey => hno ?_
    exact hR.has_of_key (hR.has_page hj) hv hkey
  refine ⟨List.forall_mem_cons.2 ⟨hR, h.ok⟩, List.forall_mem_cons.2 ⟨fun v hv => ?_, ?_⟩, ?_⟩
  · obtain ⟨hlt, hkey⟩ := hR.page hv
    rw [hkey, hmaps.new _ hlt, Region.entry]
  · intro R' hR' v hv
    rw [hold v ((h.ok R' hR').lt hv) (hdisj R' hR' v hv), h.inside R' hR' v hv]
  · intro v hv hno
    rw [hold v hv (hno R List.mem_cons_self),
      h.outside v hv fun R' hR' => hno R' (List.mem_cons_of_mem _ hR')]

theorem mappages_region (h : Memory k own L s) (hr : own r = .table r []) (hR : R.Ok)
    (h0 : ∀ v, R.Has v → L r (key v) = 0) :
    Post (mappages (pg r) R.va R.size R.pa R.perm) s (fun ok t => ∃ own' L' m,
      Walked k r (fun π => ∃ v, R.Has v ∧ π <+: path v) L' own s own' t ∧
      MapsMore r R.va m (mapEntry R.perm R.pa) L L' ∧
      (ok = true ∧ m = R.size / PGSIZE ∨ ok = false ∧ (s.deny = [] → ∀ p, own' p ≠ .free))) E := by
  obtain ⟨n, hn⟩ : ∃ n, R.size / PGSIZE = n + 1 := by
    refine Nat.exists_eq_succ_of_ne_zero ?_
    have := hR.pos
    have := hR.whole
    unfold PGSIZE at *
    omega
  have haligned := hR.aligned
  have hwhole := hR.whole
  have htop := hR.top
  have hfirst : PGROUNDDOWN R.va = R.va := by
    unfold PGROUNDDOWN
    omega
  have hlast : PGROUNDDOWN ((R.va + R.size - 1) % 2 ^ 64) = R.va + n * PGSIZE := by
    have hpos := hR.pos
    have hlt : R.va + R.size - 1 < 2 ^ 64 := by
      unfold MAXVA at htop
      omega
    rw [Nat.mod_eq_of_lt hlt]
    unfold PGROUNDDOWN PGSIZE at *
    omega
  have hrounds : (R.va + n * PGSIZE + 2 ^ 64 - R.va) % 2 ^ 64 / PGSIZE = n := by
    unfold PGSIZE MAXVA at *
    omega
  simp only [mappages, post_bind, post_ite, hfirst, hlast, hrounds]
  refine ⟨fun hz => absurd hz hR.pos.ne', fun _ => ?_⟩
  have hhas : ∀ j, j ≤ n → R.Has (R.va + j * PGSIZE) := fun j hj => hR.has_page (by omega)
  refine (mappagesFrom_spec hR.perm n h hr ?_ hR.pa fun j hj => ?_).imp ?_
  · exact hR.lt (hhas n le_rfl)
  · rw [h0 _ (hhas j hj), Nat.zero_and]
  · rintro ok t ⟨own', L', m, hw, hmaps, hwhy⟩
    refine ⟨own', L', m, hw.mono ?_, hmaps, hwhy.imp ?_ ?_⟩
    · rintro π ⟨j, hj, hπ⟩
      exact ⟨_, hhas j hj, hπ⟩
    · rintro ⟨hok, hm⟩
      exact ⟨hok, hm.trans hn.symm⟩
    · rintro ⟨hok, -, hwhy⟩
      exact ⟨hok, hwhy⟩

/-! ### The pages that are used -/

/-- The places of the tables for the devices, for memory, and for the pages at the top. -/
def tablePaths : List (List ℕ) :=
  [[], [0], [2], [255], [0, 96], [0, 97], [0, 128], [255, 511]] ++
    (List.range 64).map fun j => [2, j]

theorem length_tablePaths : tablePaths.length = 72 := by
  rw [tablePaths, List.length_append, List.length_map, List.length_range]
  rfl

/-- While `kvmmake` runs: of the pages `l`, some are tables, and `n` are stacks. -/
structure Uses (k : Layout) (r : ℕ) (l : List ℕ) (stack : ℕ → ℕ) (n : ℕ) (own : ℕ → Use)
    (L : ℕ → List ℕ → ℕ) (s : State) : Prop where
  memory : Memory k own L s
  root : own r = .table r []
  deny : s.deny = []
  used : ∀ p ∈ l, own p = .free ∨ (∃ π ∈ tablePaths, own p = .table r π) ∨
    ∃ i < n, own p = .kstack i
  stack : ∀ p i, own p = .kstack i ↔ i < n ∧ p = stack i

structure Kvm (k : Layout) (r : ℕ) (l : List ℕ) (stack : ℕ → ℕ) (n : ℕ) (rs : List Region)
    (s : State) : Prop where
  uses : ∃ own L, Uses k r l stack n own L s ∧ Lays rs (L r)

/-- There is a free page until all tables and stacks are there. -/
theorem Uses.exists_free (h : Uses k r l stack n own L s) (hl : l.Nodup)
    (hn : 72 + n < l.length) : ∃ p, own p = .free := by
  by_contra hno
  push Not at hno
  have hused : ∀ p ∈ l, (∃ π ∈ tablePaths, own p = .table r π) ∨ ∃ i < n, own p = .kstack i :=
    fun p hp => (h.used p hp).resolve_left (hno p)
  have hinj : ∀ p ∈ l, ∀ q ∈ l, own p = own q → p = q := by
    intro p hp q _ hpq
    rcases hused p hp with ⟨π, -, hπ⟩ | ⟨i, -, hi⟩
    · exact (h.memory.tables r h.root).inj p q π hπ (hpq ▸ hπ)
    · rw [((h.stack p i).1 hi).2, ((h.stack q i).1 (hpq ▸ hi)).2]
  have hsub : l.map own ⊆ tablePaths.map (.table r) ++ (List.range n).map .kstack := by
    intro u hu
    obtain ⟨p, hp, rfl⟩ := List.mem_map.1 hu
    rw [List.mem_append, List.mem_map, List.mem_map]
    rcases hused p hp with ⟨π, hπ, hpπ⟩ | ⟨i, hi, hpi⟩
    · exact .inl ⟨π, hπ, hpπ.symm⟩
    · exact .inr ⟨i, List.mem_range.2 hi, hpi.symm⟩
  have hle := ((hl.map_on hinj).subperm hsub).length_le
  rw [List.length_append, List.length_map, List.length_map, List.length_map, length_tablePaths,
    List.length_range] at hle
  omega

theorem Uses.walked {K : List ℕ → Prop} (h : Uses k r l stack n own L s)
    (hw : Walked k r K L' own s own' t) (hK : ∀ π, K π → π ∈ tablePaths) :
    Uses k r l stack n own' L' t := by
  refine ⟨hw.memory, ?_, hw.frame.deny h.deny, fun p hp => ?_, fun p i => ?_⟩
  · rw [hw.grows.keep (by rw [h.root]; simp), h.root]
  · obtain hp' | ⟨-, π, -, hπ, hp'⟩ := hw.grows p
    · rw [hp']
      exact h.used p hp
    · exact .inr (.inl ⟨π, hK π hπ, hp'⟩)
  · rw [← h.stack p i]
    obtain hp | ⟨hf, π, -, -, hp⟩ := hw.grows p
    · rw [hp]
    · rw [hp, hf]
      exact ⟨nofun, nofun⟩

theorem kalloc_of_free {q : ℕ} (h : Memory k own L s) (hdeny : s.deny = []) (hq : own q = .free) :
    Post kalloc s (fun a t => ∃ p, a = pg p ∧ pg p ≠ 0 ∧ Fresh k own L s p t) E := by
  refine ((kalloc_fresh h).also (kalloc_spec h.pages)).imp ?_
  rintro a t ⟨⟨rfl, -⟩ | hfresh, -, -, hspec⟩
  · obtain ⟨-, -, -, hd | hnone⟩ | ⟨p, hp, hfree, -⟩ := hspec
    · rw [hdeny] at hd
      cases hd
    · exact absurd hq (hnone q)
    · exact absurd (pg_eq_zero.1 hp.symm) (h.pages.pos (by rw [hfree]; nofun)).ne'
  · exact hfresh

section
variable (hl : l.Nodup)
include hl

theorem Kvm.kvmmap (h : Kvm k r l stack n rs s) (hn : 72 + n < l.length) (hR : R.Ok)
    (hdisj : ∀ R' ∈ rs, ∀ v, R'.Has v → ¬ R.Has v)
    (hpaths : ∀ v, R.Has v → ∀ π, π <+: path v → π ∈ tablePaths) :
    Post (kvmmap (pg r) R.va R.pa R.size R.perm) s
      (fun _ t => Kvm k r l stack n (R :: rs) t) E := by
  obtain ⟨own, L, huses, hlays⟩ := h.uses
  simp only [Vm.kvmmap, post_bind, post_ite]
  refine (mappages_region huses.memory huses.root hR fun v hv => ?_).imp ?_
  · exact hlays.outside v (hR.lt hv) fun R' hR' hv' => hdisj R' hR' v hv' hv
  rintro ok t ⟨own', L', m, hw, hmaps, hwhy⟩
  have huses' : Uses k r l stack n own' L' t := by
    refine huses.walked hw ?_
    rintro π ⟨v, hv, hπ⟩
    exact hpaths v hv π hπ
  obtain ⟨rfl, rfl⟩ | ⟨-, hnone⟩ := hwhy
  · refine ⟨fun h => absurd h (by decide), fun _ => ?_⟩
    exact post_pure.2 ⟨own', L', huses', hlays.add hR hdisj hmaps⟩
  · obtain ⟨p, hp⟩ := huses'.exists_free hl hn
    exact absurd hp (hnone huses.deny p)

theorem Kvm.kalloc (h : Kvm k r l stack n rs s) (hn : 72 + n < l.length) :
    Post kalloc s (fun a t => ∃ p, a = pg p ∧ pg p ≠ 0 ∧ pg p < 2 ^ 64 ∧
      Kvm k r l (Function.update stack n p) (n + 1) rs t) E := by
  obtain ⟨own, L, huses, hlays⟩ := h.uses
  obtain ⟨q, hq⟩ := huses.exists_free hl hn
  refine (kalloc_of_free huses.memory huses.deny hq).imp ?_
  rintro a t ⟨p, rfl, hp0, hf⟩
  have hne : ∀ {q}, own q ≠ .free → q ≠ p := by
    rintro q hq rfl
    exact hq hf.free
  have hown : ∀ q, Function.update own p (.kstack n) q = if q = p then .kstack n else own q :=
    fun q => Function.update_apply ..
  have hm := hf.memory.retype (w := .kstack n) (Function.update_self ..) nofun nofun nofun
  rw [Function.update_idem] at hm
  refine ⟨p, rfl, hp0, ?_, _, L, ⟨hm, ?_, hf.deny huses.deny, fun q hq => ?_, fun q i => ?_⟩, hlays⟩
  · have := huses.memory.pages.small (p := p) (by rw [hf.free]; nofun)
    unfold pg PGSIZE
    omega
  · rw [hown, if_neg (hne (by rw [huses.root]; nofun)), huses.root]
  · rw [hown]
    split_ifs
    · exact .inr (.inr ⟨n, Nat.lt_succ_self n, rfl⟩)
    · refine (huses.used q hq).imp_right (Or.imp_right ?_)
      rintro ⟨i, hi, hqi⟩
      exact ⟨i, Nat.lt_succ_of_lt hi, hqi⟩
  · rw [hown, Function.update_apply]
    split_ifs with hqp hi hi
    · rw [hi]
      exact iff_of_true rfl ⟨Nat.lt_succ_self n, hqp⟩
    · refine iff_of_false (fun he => hi (Use.kstack.inj he).symm) fun ⟨hin, hqi⟩ => ?_
      have hstack := (huses.stack q i).2 ⟨by omega, hqi⟩
      rw [hqp, hf.free] at hstack
      cases hstack
    · rw [hi]
      refine iff_of_false (fun he => ?_) fun he => hqp he.2
      exact absurd ((huses.stack q n).1 he).1 (lt_irrefl n)
    · rw [huses.stack]
      refine and_congr_left fun _ => ?_
      omega

end

/-! ### The regions of the kernel -/

/-- `kvmmap(kpgtbl, va, va, ...)`. -/
def Region.direct (va size perm : ℕ) : Region := ⟨va, size, va, perm⟩

/-- What `kvmmake` maps before the stacks, latest first. -/
def kernelRegions (k : Layout) : List Region :=
  [⟨TRAMPOLINE, PGSIZE, k.trampoline, PTE_R ||| PTE_X⟩,
    .direct k.etext (PHYSTOP - k.etext) (PTE_R ||| PTE_W),
    .direct KERNBASE (k.etext - KERNBASE) (PTE_R ||| PTE_X),
    .direct PLIC 0x400000 (PTE_R ||| PTE_W),
    .direct VIRTIO0 PGSIZE (PTE_R ||| PTE_W),
    .direct UART0 PGSIZE (PTE_R ||| PTE_W)]

def stackRegion (stack : ℕ → ℕ) (i : ℕ) : Region :=
  ⟨KSTACK i, PGSIZE, pg (stack i), PTE_R ||| PTE_W⟩

def stackRegions (stack : ℕ → ℕ) (n : ℕ) : List Region := (List.range n).map (stackRegion stack)

/-- The linker puts the end of the code and the trampoline at pages. -/
structure Layout.Ok (k : Layout) : Prop where
  aligned : k.etext % PGSIZE = 0
  lower : KERNBASE < k.etext
  upper : k.etext < PHYSTOP
  trampoline : k.trampoline % PGSIZE = 0
  small : k.trampoline < 2 ^ 64

theorem prefix_path {π : List ℕ} {a b : ℕ} (h2 : PX 2 v = a) (h1 : PX 1 v = b) (hπ : π <+: path v) :
    π = [] ∨ π = [a] ∨ π = [a, b] := by
  rw [path, h2, h1] at hπ
  obtain rfl | ⟨ρ, rfl, hρ⟩ := List.prefix_cons_iff.1 hπ
  · exact .inl rfl
  · obtain rfl | ⟨σ, rfl, hσ⟩ := List.prefix_cons_iff.1 hρ
    · exact .inr (.inl rfl)
    · rw [List.prefix_nil.1 hσ]
      exact .inr (.inr rfl)

theorem mem_tablePaths {π : List ℕ}
    (hv : PLIC ≤ v ∧ v < PLIC + 0x400000 ∨ UART0 ≤ v ∧ v < UART0 + 2 * PGSIZE ∨
      KERNBASE ≤ v ∧ v < PHYSTOP ∨ KSTACK NPROC ≤ v ∧ v < MAXVA)
    (hπ : π <+: path v) : π ∈ tablePaths := by
  have hfixed : ∀ ρ ∈ ([[], [0], [2], [255], [0, 96], [0, 97], [0, 128], [255, 511]] : List (List ℕ)),
      ρ ∈ tablePaths := fun ρ hρ => List.mem_append_left _ hρ
  have h2 := PX_eq 2 v
  have h1 := PX_eq 1 v
  unfold PLIC UART0 KERNBASE PHYSTOP KERNBASE KSTACK TRAMPOLINE MAXVA NPROC PGSIZE at hv
  obtain hv | hv | hv | hv := hv
  · have hb : PX 1 v = 96 ∨ PX 1 v = 97 := by omega
    obtain hb | hb := hb
    · obtain rfl | rfl | rfl := prefix_path (a := 0) (by omega) hb hπ <;> exact hfixed _ (by decide)
    · obtain rfl | rfl | rfl := prefix_path (a := 0) (by omega) hb hπ <;> exact hfixed _ (by decide)
  · obtain rfl | rfl | rfl := prefix_path (a := 0) (b := 128) (by omega) (by omega) hπ <;>
      exact hfixed _ (by decide)
  · obtain rfl | rfl | rfl := prefix_path (a := 2) (b := PX 1 v) (by omega) rfl hπ
    · exact hfixed _ (by decide)
    · exact hfixed _ (by decide)
    · exact List.mem_append_right _ (List.mem_map.2 ⟨PX 1 v, List.mem_range.2 (by omega), rfl⟩)
  · obtain rfl | rfl | rfl := prefix_path (a := 255) (b := 511) (by omega) (by omega) hπ <;>
      exact hfixed _ (by decide)

theorem Lays.congr {rs' : List Region} {f : List ℕ → ℕ} (h : Lays rs f)
    (hmem : ∀ R, R ∈ rs' ↔ R ∈ rs) : Lays rs' f :=
  ⟨fun R hR => h.ok R ((hmem R).1 hR), fun R hR => h.inside R ((hmem R).1 hR),
    fun v hv hno => h.outside v hv fun R hR => hno R ((hmem R).2 hR)⟩

theorem Kvm.congr {rs' : List Region} (h : Kvm k r l stack n rs s)
    (hmem : ∀ R, R ∈ rs' ↔ R ∈ rs) : Kvm k r l stack n rs' s := by
  obtain ⟨own, L, huses, hlays⟩ := h.uses
  exact ⟨own, L, huses, hlays.congr hmem⟩

theorem mem_stackRegions_succ {p : ℕ} {base : List Region} :
    R ∈ stackRegions (Function.update stack n p) (n + 1) ++ base ↔
      R ∈ stackRegion (Function.update stack n p) n :: (stackRegions stack n ++ base) := by
  have hsame : (List.range n).map (stackRegion (Function.update stack n p)) =
      (List.range n).map (stackRegion stack) :=
    List.map_congr_left fun i hi => by
      rw [stackRegion, Function.update_of_ne (List.mem_range.1 hi).ne, stackRegion]
  rw [stackRegions, List.range_succ, List.map_append, hsame, stackRegions, List.map_singleton]
  simp only [List.append_assoc, List.mem_append, List.mem_cons, List.not_mem_nil, or_false]
  exact or_left_comm

theorem KSTACK_eq (i : ℕ) : KSTACK i = 2 ^ 38 - 4096 - (i + 1) * 8192 := by
  unfold KSTACK TRAMPOLINE MAXVA PGSIZE
  omega

theorem stackRegion_ok {i : ℕ} (hi : i < 64) (hp : pg (stack i) < 2 ^ 64) :
    (stackRegion stack i).Ok := by
  have hk := KSTACK_eq i
  constructor
  · show KSTACK i % 4096 = 0
    omega
  · exact Nat.mod_self _
  · exact Nat.zero_lt_succ _
  · show KSTACK i + 4096 ≤ 2 ^ 38
    omega
  · exact hp
  · show PTE_R ||| PTE_W < 1024
    decide

theorem stackRegion_disjoint {stack' : ℕ → ℕ} {i j : ℕ} (hij : i < j) (hj : j < 64)
    (hv : (stackRegion stack i).Has v) : ¬ (stackRegion stack' j).Has v := by
  have hi := KSTACK_eq i
  have hj := KSTACK_eq j
  simp only [stackRegion, Region.Has, PGSIZE] at hv ⊢
  omega

theorem Kvm.root {u : ℕ} (hm : Memory k own (fun _ _ => 0) s) (ho : Rooted own)
    (hown : ∀ p ∈ l, own p = .free) (hstack : ∀ p i, own p ≠ .kstack i) (hdeny : s.deny = [])
    (hf : Fresh k own (fun _ _ => 0) s u t) :
    Kvm k u l (fun _ => 0) 0 [] (t.setBytes (pg u) (List.replicate PGSIZE 0)) := by
  have he := hf.root ho hm
  have hupdate : ∀ p, Function.update own u (.table u []) p = if p = u then .table u [] else own p :=
    fun p => Function.update_apply ..
  refine ⟨_, _, ⟨he.memory, Function.update_self .., he.frame.deny hdeny, fun p hp => ?_,
    fun p i => ?_⟩, nofun, nofun, fun v _ _ => ?_⟩
  · rw [hupdate]
    split_ifs
    · exact .inr (.inl ⟨[], List.mem_append_left _ List.mem_cons_self, rfl⟩)
    · exact .inl (hown p hp)
  · rw [hupdate]
    refine iff_of_false ?_ fun hi => absurd hi.1 (Nat.not_lt_zero i)
    split_ifs
    · exact nofun
    · exact hstack p i
  · rw [Function.update_self]

/-- The addresses `mem_tablePaths` speaks of. -/
def Region.Placed (R : Region) : Prop := ∀ v, R.Has v →
  PLIC ≤ v ∧ v < PLIC + 0x400000 ∨ UART0 ≤ v ∧ v < UART0 + 2 * PGSIZE ∨
    KERNBASE ≤ v ∧ v < PHYSTOP ∨ KSTACK NPROC ≤ v ∧ v < MAXVA

def Region.Apart (R R' : Region) : Prop := R.va + R.size ≤ R'.va ∨ R'.va + R'.size ≤ R.va

theorem Region.Apart.not_has {R' : Region} (h : R.Apart R') (hv : R'.Has v) : ¬ R.Has v := by
  unfold Apart Has at *
  omega

section kernelRegions
variable (hk : k.Ok)
include hk

theorem kernelRegions_ok : ∀ R ∈ kernelRegions k, R.Ok := by
  obtain ⟨haligned, hlower, hupper, -, hsmall⟩ := hk
  have hperm : PTE_R ||| PTE_W < 1024 ∧ PTE_R ||| PTE_X < 1024 := by decide
  have hok : ∀ {va size perm}, va % PGSIZE = 0 → size % PGSIZE = 0 → 0 < size → va + size ≤ PHYSTOP →
      perm < 1024 → (Region.direct va size perm).Ok := by
    intro va size perm h1 h2 h3 h4 h5
    refine ⟨h1, h2, h3, ?_, ?_, h5⟩ <;>
      simp only [Region.direct] <;> unfold PHYSTOP KERNBASE at h4 <;> unfold MAXVA at * <;> omega
  simp only [kernelRegions, List.forall_mem_cons]
  have htop : TRAMPOLINE % PGSIZE = 0 ∧ PGSIZE % PGSIZE = 0 ∧ 0 < PGSIZE ∧
      TRAMPOLINE + PGSIZE ≤ MAXVA := by decide
  refine ⟨⟨htop.1, htop.2.1, htop.2.2.1, htop.2.2.2, hsmall, hperm.2⟩, hok haligned ?_ ?_ ?_ hperm.1,
    hok rfl ?_ ?_ ?_ hperm.2, hok rfl rfl (by decide) (by decide) hperm.1,
    hok rfl rfl (by decide) (by decide) hperm.1, hok rfl rfl (by decide) (by decide) hperm.1, nofun⟩
  all_goals
    unfold PHYSTOP KERNBASE PGSIZE at *
    omega

theorem kernelRegions_placed : ∀ R ∈ kernelRegions k, R.Placed := by
  obtain ⟨-, hlower, hupper, -, -⟩ := hk
  simp only [kernelRegions, List.forall_mem_cons, Region.Placed, Region.Has, Region.direct]
  unfold PLIC UART0 VIRTIO0 PHYSTOP KERNBASE TRAMPOLINE KSTACK TRAMPOLINE NPROC MAXVA PGSIZE at *
  refine ⟨?_, ?_, ?_, ?_, ?_, ?_, nofun⟩ <;> intro v hv <;> omega

theorem kernelRegions_apart : (kernelRegions k).Pairwise Region.Apart := by
  obtain ⟨-, hlower, hupper, -, -⟩ := hk
  simp only [kernelRegions, List.pairwise_cons, List.forall_mem_cons, Region.Apart, Region.direct]
  unfold PLIC UART0 VIRTIO0 PHYSTOP KERNBASE TRAMPOLINE MAXVA PGSIZE at *
  simp only [List.not_mem_nil, false_implies, implies_true, List.Pairwise.nil, and_true]
  omega

/-- The stacks are between memory and the trampoline. -/
theorem kernelRegions_outside : ∀ R ∈ kernelRegions k, ∀ v, R.Has v → v < PHYSTOP ∨ TRAMPOLINE ≤ v := by
  obtain ⟨-, hlower, hupper, -, -⟩ := hk
  simp only [kernelRegions, List.forall_mem_cons, Region.Has, Region.direct]
  unfold PLIC UART0 VIRTIO0 PHYSTOP KERNBASE TRAMPOLINE MAXVA PGSIZE at *
  refine ⟨?_, ?_, ?_, ?_, ?_, ?_, nofun⟩ <;> intro v hv <;> omega

end kernelRegions

/-- The calls of `kvmmap` for a list of regions, the last one first. -/
def kvmmaps (kpgtbl : ℕ) : List Region → M Unit
  | [] => return
  | R :: rs => do
      kvmmaps kpgtbl rs
      kvmmap kpgtbl R.va R.pa R.size R.perm

section
variable (hl : l.Nodup) (henough : 137 ≤ l.length)
include hl henough

theorem Kvm.kvmmaps (h : Kvm k r l stack 0 [] s) (hok : ∀ R ∈ rs, R.Ok)
    (hplaced : ∀ R ∈ rs, R.Placed) (hapart : rs.Pairwise Region.Apart) :
    Post (kvmmaps (pg r) rs) s (fun _ t => Kvm k r l stack 0 rs t) E := by
  induction rs with
  | nil => exact post_pure.2 h
  | cons R rs ih =>
    obtain ⟨hR, hok⟩ := List.forall_mem_cons.1 hok
    obtain ⟨hPR, hplaced⟩ := List.forall_mem_cons.1 hplaced
    obtain ⟨hAR, hapart⟩ := List.pairwise_cons.1 hapart
    rw [Vm.kvmmaps, post_bind]
    refine (ih hok hplaced hapart).imp fun _ t ht => ?_
    refine ht.kvmmap hl (by omega) hR (fun R' hR' v hv => ?_) fun v hv π hπ => ?_
    · exact (hAR R' hR').not_has hv
    · exact mem_tablePaths (hPR v hv) hπ

theorem procMapstacksFrom_spec {base : List Region}
    (hbase : ∀ R ∈ base, ∀ v, R.Has v → v < PHYSTOP ∨ TRAMPOLINE ≤ v) (m : ℕ) :
    ∀ {s stack n}, n + m = NPROC → Kvm k r l stack n (stackRegions stack n ++ base) s →
    Post (procMapstacksFrom (pg r) m n) s (fun _ t => ∃ stack,
      Kvm k r l stack NPROC (stackRegions stack NPROC ++ base) t) E := by
  induction m with
  | zero =>
    intro s stack n hn h
    rw [Nat.add_zero] at hn
    exact post_pure.2 ⟨stack, hn ▸ h⟩
  | succ m ih =>
    intro s stack n hn h
    have hlt : n < 64 := by
      unfold NPROC at hn
      omega
    simp only [procMapstacksFrom, post_bind, post_ite, Vm.panic, post_throw]
    refine (h.kalloc hl (by omega)).imp ?_
    rintro a t ⟨p, rfl, hp0, hp64, ht⟩
    refine ⟨fun h0 => absurd h0 hp0, fun _ => ?_⟩
    have hk := KSTACK_eq n
    have hR : (stackRegion (Function.update stack n p) n).Ok :=
      stackRegion_ok hlt (by rwa [Function.update_self])
    have hstack : (stackRegion (Function.update stack n p) n).pa = pg p := by
      rw [stackRegion, Function.update_self]
    have hmap := ht.kvmmap hl (E := E) (by omega) hR ?_ ?_
    · rw [hstack] at hmap
      refine hmap.imp fun _ u hu => ?_
      exact ih (by omega) (hu.congr fun R => mem_stackRegions_succ)
    · intro R' hR' v hv
      rcases List.mem_append.1 hR' with hR' | hR'
      · obtain ⟨i, hi, rfl⟩ := List.mem_map.1 hR'
        exact stackRegion_disjoint (List.mem_range.1 hi) hlt hv
      · have := hbase R' hR' v hv
        simp only [stackRegion, Region.Has]
        unfold PHYSTOP KERNBASE TRAMPOLINE MAXVA PGSIZE at *
        omega
    · intro v hv π hπ
      have h64 := KSTACK_eq NPROC
      refine mem_tablePaths (.inr (.inr (.inr ?_))) hπ
      simp only [stackRegion, Region.Has] at hv
      unfold NPROC MAXVA PGSIZE at *
      omega

theorem kvmmake_spec (hk : k.Ok) (hm : Memory k own (fun _ _ => 0) s) (ho : Rooted own)
    (hown : ∀ p ∈ l, own p = .free) (hstack : ∀ p i, own p ≠ .kstack i) (hdeny : s.deny = []) :
    Post (kvmmake k) s (fun a t => ∃ r stack, a = pg r ∧
      Kvm k r l stack NPROC (stackRegions stack NPROC ++ kernelRegions k) t) E := by
  obtain ⟨q, hq⟩ := List.exists_mem_of_length_pos (show 0 < l.length by omega)
  simp only [kvmmake, memset_eq, writeBytes, post_bind, post_ite, post_modify, Vm.panic, post_throw]
  refine (kalloc_of_free hm hdeny (hown q hq)).imp ?_
  rintro a t ⟨r, rfl, hr0, hf⟩
  refine ⟨fun h0 => absurd h0 hr0, fun _ => ?_⟩
  have hregions := (Kvm.root hm ho hown hstack hdeny hf).kvmmaps hl henough (E := E)
    (kernelRegions_ok hk) (kernelRegions_placed hk) (kernelRegions_apart hk)
  have hstacks : ∀ t, Kvm k r l (fun _ => 0) 0 (kernelRegions k) t →
      Post (procMapstacks (pg r)) t (fun _ u => Post (pure (pg r)) u (fun a t => ∃ r stack, a = pg r ∧
        Kvm k r l stack NPROC (stackRegions stack NPROC ++ kernelRegions k) t) E) E := by
    intro t ht
    refine (procMapstacksFrom_spec hl henough (kernelRegions_outside hk) NPROC (Nat.zero_add _) ht).imp ?_
    rintro _ u ⟨stack, hu⟩
    exact post_pure.2 ⟨r, stack, rfl, hu⟩
  have hall := hregions.imp fun _ => hstacks
  simpa only [Vm.kvmmaps, kernelRegions, Region.direct, post_bind, post_pure] using hall

end

/-! ### The translation -/

def Translates (pagetable va pa flags : ℕ) (s : State) : Prop :=
  ∃ e, translation pagetable va s = some e ∧ PTE2PA e = pa ∧ PTE_FLAGS e = flags

def KernelAddress (v : ℕ) : Prop :=
  UART0 ≤ v ∧ v < UART0 + PGSIZE ∨ VIRTIO0 ≤ v ∧ v < VIRTIO0 + PGSIZE ∨
  PLIC ≤ v ∧ v < PLIC + 0x400000 ∨ KERNBASE ≤ v ∧ v < PHYSTOP ∨
  TRAMPOLINE ≤ v ∧ v < TRAMPOLINE + PGSIZE ∨ ∃ i < NPROC, KSTACK i ≤ v ∧ v < KSTACK i + PGSIZE

/-- What the kernel's page table is for: `stack` are the pages of the stacks. -/
structure KernelMap (k : Layout) (pagetable : ℕ) (stack : ℕ → ℕ) (s : State) : Prop where
  devices : ∀ v, UART0 ≤ v ∧ v < UART0 + PGSIZE ∨ VIRTIO0 ≤ v ∧ v < VIRTIO0 + PGSIZE ∨
    PLIC ≤ v ∧ v < PLIC + 0x400000 →
    Translates pagetable v (PGROUNDDOWN v) (PTE_R ||| PTE_W ||| PTE_V) s
  text : ∀ v, KERNBASE ≤ v → v < k.etext →
    Translates pagetable v (PGROUNDDOWN v) (PTE_R ||| PTE_X ||| PTE_V) s
  data : ∀ v, k.etext ≤ v → v < PHYSTOP →
    Translates pagetable v (PGROUNDDOWN v) (PTE_R ||| PTE_W ||| PTE_V) s
  trampoline : ∀ v, TRAMPOLINE ≤ v → v < TRAMPOLINE + PGSIZE →
    Translates pagetable v k.trampoline (PTE_R ||| PTE_X ||| PTE_V) s
  kstack : ∀ i < NPROC, ∀ v, KSTACK i ≤ v → v < KSTACK i + PGSIZE →
    Translates pagetable v (pg (stack i)) (PTE_R ||| PTE_W ||| PTE_V) s
  allocated : ∀ i < NPROC, k.kend ≤ pg (stack i) ∧ pg (stack i) < PHYSTOP
  distinct : ∀ i < NPROC, ∀ j < NPROC, stack i = stack j → i = j
  guard : ∀ i < NPROC, ∀ v, KSTACK i ≤ v + PGSIZE → v < KSTACK i → translation pagetable v s = none
  supervisor : ∀ v e, translation pagetable v s = some e → e &&& PTE_U = 0
  only : ∀ v e, translation pagetable v s = some e → KernelAddress v

theorem translation_of_ge {pagetable : ℕ} (hv : MAXVA ≤ v) : translation pagetable v s = none := by
  have hpanic : walk pagetable v false s = .error .walk s := by
    simp [walk, hv, Vm.panic]
    rfl
  rw [translation, hpanic]

namespace Region.Ok

theorem entry_valid (hR : R.Ok) : R.entry v &&& PTE_V ≠ 0 := mapEntry_valid hR.perm _ _

theorem PTE_FLAGS_entry (hR : R.Ok) : PTE_FLAGS (R.entry v) = R.perm ||| PTE_V :=
  PTE_FLAGS_pte (or_lt hR.perm (by decide))

theorem entry_and_PTE_U (hR : R.Ok) (hperm : R.perm &&& PTE_U = 0) : R.entry v &&& PTE_U = 0 := by
  rw [Region.entry, mapEntry, pte_and (or_lt hR.perm (by decide)) (by decide),
    Nat.and_or_distrib_right, hperm]
  rfl

theorem PTE2PA_entry (hR : R.Ok) (hpa : R.pa % PGSIZE = 0) (htop : R.pa + R.size ≤ 2 ^ 64)
    (hv : R.Has v) : PTE2PA (R.entry v) = R.pa + (PGROUNDDOWN v - R.va) := by
  obtain ⟨haligned, hwhole, hpos, -, -, hperm⟩ := hR
  obtain ⟨hlo, hhi⟩ := hv
  have hlt : R.pa + (v - R.va) / PGSIZE * PGSIZE < 2 ^ 64 := by
    unfold PGSIZE at *
    omega
  rw [Region.entry, mapEntry, Nat.mod_eq_of_lt hlt, PTE2PA_pte _ (or_lt hperm (by decide))]
  · unfold pg PGROUNDDOWN PGSIZE at *
    omega
  · unfold PGSIZE at *
    omega

end Region.Ok

/-- The translation has the regions and nothing else. -/
theorem Uses.translation_eq {e : ℕ} (h : Uses k r l stack n own L s) (hlays : Lays rs (L r)) :
    translation (pg r) v s = some e ↔ ∃ R ∈ rs, R.Has v ∧ e = R.entry v := by
  by_cases hv : v < MAXVA
  · rw [Vm.translation_eq h.memory h.root hv]
    constructor
    · intro he
      by_contra hno
      push Not at hno
      by_cases hin : ∃ R ∈ rs, R.Has v
      · obtain ⟨R, hR, hRv⟩ := hin
        rw [hlays.inside R hR v hRv, if_neg (hlays.ok R hR).entry_valid] at he
        exact hno R hR hRv (Option.some.inj he).symm
      · push Not at hin
        rw [hlays.outside v hv hin, Nat.zero_and, if_pos rfl] at he
        cases he
    · rintro ⟨R, hR, hRv, rfl⟩
      rw [hlays.inside R hR v hRv, if_neg (hlays.ok R hR).entry_valid]
  · rw [translation_of_ge (not_lt.1 hv)]
    refine iff_of_false nofun ?_
    rintro ⟨R, hR, hRv, -⟩
    exact hv ((hlays.ok R hR).lt hRv)

theorem Uses.translates {pa : ℕ} (h : Uses k r l stack n own L s) (hlays : Lays rs (L r)) (hR : R ∈ rs)
    (hpa : R.pa % PGSIZE = 0) (htop : R.pa + R.size ≤ 2 ^ 64) (hv : R.Has v)
    (heq : R.pa + (PGROUNDDOWN v - R.va) = pa) :
    Translates (pg r) v pa (R.perm ||| PTE_V) s :=
  ⟨R.entry v, (h.translation_eq hlays).2 ⟨R, hR, hv, rfl⟩,
    heq ▸ (hlays.ok R hR).PTE2PA_entry hpa htop hv, (hlays.ok R hR).PTE_FLAGS_entry⟩

theorem mem_kernelRegions : R ∈ kernelRegions k ↔
    R = ⟨TRAMPOLINE, PGSIZE, k.trampoline, PTE_R ||| PTE_X⟩ ∨
    R = .direct k.etext (PHYSTOP - k.etext) (PTE_R ||| PTE_W) ∨
    R = .direct KERNBASE (k.etext - KERNBASE) (PTE_R ||| PTE_X) ∨
    R = .direct PLIC 0x400000 (PTE_R ||| PTE_W) ∨ R = .direct VIRTIO0 PGSIZE (PTE_R ||| PTE_W) ∨
    R = .direct UART0 PGSIZE (PTE_R ||| PTE_W) := by
  simp only [kernelRegions, List.mem_cons, List.not_mem_nil, or_false]

theorem mem_stackRegions : R ∈ stackRegions stack n ↔ ∃ i < n, R = stackRegion stack i := by
  simp only [stackRegions, List.mem_map, List.mem_range, eq_comm (a := R)]

theorem kernelAddress_of_has (hk : k.Ok) (hR : R ∈ stackRegions stack NPROC ++ kernelRegions k)
    (hv : R.Has v) : KernelAddress v := by
  have hlower := hk.lower
  have hupper := hk.upper
  rw [List.mem_append, mem_stackRegions, mem_kernelRegions] at hR
  obtain ⟨i, hi, rfl⟩ | rfl | rfl | rfl | rfl | rfl | rfl := hR
  · exact .inr (.inr (.inr (.inr (.inr ⟨i, hi, hv⟩))))
  · exact .inr (.inr (.inr (.inr (.inl hv))))
  · refine .inr (.inr (.inr (.inl ?_)))
    simp only [Region.direct, Region.Has] at hv
    omega
  · refine .inr (.inr (.inr (.inl ?_)))
    simp only [Region.direct, Region.Has] at hv
    omega
  · exact .inr (.inr (.inl hv))
  · exact .inr (.inl hv)
  · exact .inl hv

theorem perm_and_PTE_U (hR : R ∈ stackRegions stack n ++ kernelRegions k) : R.perm &&& PTE_U = 0 := by
  have hrw : (PTE_R ||| PTE_W) &&& PTE_U = 0 := by decide
  have hrx : (PTE_R ||| PTE_X) &&& PTE_U = 0 := by decide
  rw [List.mem_append, mem_stackRegions, mem_kernelRegions] at hR
  obtain ⟨i, -, rfl⟩ | rfl | rfl | rfl | rfl | rfl | rfl := hR
  exacts [hrw, hrx, hrw, hrx, hrw, hrw, hrw]

/-- Below a stack there is a page the kernel does not use. -/
theorem not_kernelAddress_guard {i : ℕ} (hi : i < NPROC) (hlo : KSTACK i ≤ v + PGSIZE)
    (hhi : v < KSTACK i) : ¬ KernelAddress v := by
  have hki := KSTACK_eq i
  unfold NPROC PGSIZE at *
  unfold KernelAddress UART0 VIRTIO0 PLIC PHYSTOP KERNBASE TRAMPOLINE MAXVA PGSIZE
  rintro (h | h | h | h | h | ⟨j, hj, h⟩)
  case inr.inr.inr.inr.inr =>
    have hkj := KSTACK_eq j
    omega
  all_goals omega

theorem Kvm.kernelMap (hk : k.Ok)
    (h : Kvm k r l stack NPROC (stackRegions stack NPROC ++ kernelRegions k) s) :
    KernelMap k (pg r) stack s := by
  obtain ⟨own, L, huses, hlays⟩ := h.uses
  have hlower := hk.lower
  have hupper := hk.upper
  have hPHYSTOP : PHYSTOP < 2 ^ 64 := by decide
  have hstack : ∀ i < NPROC, own (stack i) = .kstack i := fun i hi => (huses.stack _ i).2 ⟨hi, rfl⟩
  have hrange : ∀ i < NPROC, k.kend ≤ pg (stack i) ∧ pg (stack i) < PHYSTOP := fun i hi =>
    (huses.memory.pages.range _).1 (by rw [hstack i hi]; nofun)
  have hdirect : ∀ {va size perm v}, Region.direct va size perm ∈ kernelRegions k →
      va % PGSIZE = 0 → va + size ≤ 2 ^ 64 → va ≤ v → v < va + size →
      Translates (pg r) v (PGROUNDDOWN v) (perm ||| PTE_V) s := by
    intro va size perm v hR hva htop hlo hhi
    refine huses.translates hlays (List.mem_append_right _ hR) hva htop ⟨hlo, hhi⟩ ?_
    show va + (PGROUNDDOWN v - va) = PGROUNDDOWN v
    unfold PGROUNDDOWN PGSIZE at *
    omega
  have hpage : ∀ {va pa perm v}, ⟨va, PGSIZE, pa, perm⟩ ∈ stackRegions stack NPROC ++ kernelRegions k →
      pa % PGSIZE = 0 → pa < 2 ^ 64 → va ≤ v → v < va + PGSIZE →
      Translates (pg r) v pa (perm ||| PTE_V) s := by
    intro va pa perm v hR hpa hsmall hlo hhi
    have hva : va % PGSIZE = 0 := (hlays.ok _ hR).aligned
    refine huses.translates hlays hR hpa ?_ ⟨hlo, hhi⟩ ?_
    · show pa + PGSIZE ≤ 2 ^ 64
      unfold PGSIZE at *
      omega
    · show pa + (PGROUNDDOWN v - va) = pa
      unfold PGROUNDDOWN PGSIZE at *
      omega
  have honly : ∀ v e, translation (pg r) v s = some e →
      ∃ R ∈ stackRegions stack NPROC ++ kernelRegions k, R.Has v ∧ e = R.entry v :=
    fun v e he => (huses.translation_eq hlays).1 he
  refine ⟨?_, fun v hlo hhi => ?_, fun v hlo hhi => ?_, fun v hlo hhi => ?_, fun i hi v hlo hhi => ?_,
    hrange, fun i hi j hj hij => ?_, fun i hi v hlo hhi => ?_, fun v e he => ?_, fun v e he => ?_⟩
  · rintro v (⟨hlo, hhi⟩ | ⟨hlo, hhi⟩ | ⟨hlo, hhi⟩)
    · exact hdirect (mem_kernelRegions.2 (by simp only [or_true])) rfl (by decide) hlo hhi
    · exact hdirect (mem_kernelRegions.2 (by simp only [true_or, or_true])) rfl (by decide) hlo hhi
    · exact hdirect (mem_kernelRegions.2 (by simp only [true_or, or_true])) rfl (by decide) hlo hhi
  · exact hdirect (mem_kernelRegions.2 (.inr (.inr (.inl rfl)))) rfl (by omega) hlo (by omega)
  · exact hdirect (mem_kernelRegions.2 (.inr (.inl rfl))) hk.aligned (by omega) hlo (by omega)
  · exact hpage (List.mem_append_right _ (mem_kernelRegions.2 (.inl rfl))) hk.trampoline hk.small hlo hhi
  · refine hpage (List.mem_append_left _ (mem_stackRegions.2 ⟨i, hi, rfl⟩)) ?_ ?_ hlo hhi
    · exact Nat.mul_mod_left _ _
    · exact (hrange i hi).2.trans hPHYSTOP
  · have hkind := hstack i hi
    rw [hij, hstack j hj] at hkind
    exact (Use.kstack.inj hkind).symm
  · rw [Option.eq_none_iff_forall_ne_some]
    intro e he
    obtain ⟨R, hR, hv, -⟩ := honly v e he
    exact not_kernelAddress_guard hi hlo hhi (kernelAddress_of_has hk hR hv)
  · obtain ⟨R, hR, -, rfl⟩ := honly v e he
    exact (hlays.ok R hR).entry_and_PTE_U (perm_and_PTE_U hR)
  · obtain ⟨R, hR, hv, -⟩ := honly v e he
    exact kernelAddress_of_has hk hR hv

/-- The free list has the pages `l`, and no call of `kalloc` fails for another reason. -/
structure FreeMemory (k : Layout) (l : List ℕ) (s : State) : Prop where
  kend : 0 < k.kend
  chain : Chain (fun a => s.load a 8) s.freelist (l.map pg)
  nodup : l.Nodup
  range : ∀ p ∈ l, k.kend ≤ pg p ∧ pg p < PHYSTOP
  deny : s.deny = []

theorem FreeMemory.memory (h : FreeMemory k l s) : ∃ own, Memory k own (fun _ _ => 0) s ∧ Rooted own ∧
    (∀ p ∈ l, own p = .free) ∧ ∀ p i, own p ≠ .kstack i := by
  obtain ⟨own, hm, ho, hheld⟩ := memory_of_freelist h.kend h.chain h.nodup h.range
  obtain ⟨l', hchain, -, hmem⟩ := hm.pages.list
  have hsame : l = l' := List.map_injective_iff.2 (fun p q => pg_inj.1) (h.chain.unique hchain)
  subst hsame
  refine ⟨own, hm, ho, fun p => (hmem p).1, fun p i hp => ?_⟩
  have hin := (hm.pages.range p).1 (by rw [hp]; nofun)
  rw [hheld p (fun hl => ?_) hin.1 hin.2] at hp
  · cases hp
  · rw [(hmem p).1 hl] at hp
    cases hp

theorem FreeMemory.of_kinit (hk : 0 < k.kend) (hk' : pages k.kend + n ≤ PHYSTOP / PGSIZE)
    (h0 : s.freelist = 0) (hdeny : s.deny = []) :
    ∃ u t l, kinit k s = .ok u t ∧ FreeMemory k l t ∧ n ≤ l.length := by
  have hle : k.kend ≤ PHYSTOP := by
    unfold pages PHYSTOP KERNBASE PGSIZE at *
    omega
  obtain ⟨u, t, hrun, ht, htdeny⟩ := (kinit_spec (E := fun _ _ => False) hk hle h0).returns
  obtain ⟨l, hl, hnodup, hmem⟩ := ht.list
  refine ⟨u, t, l, hrun, ⟨hk, hl, hnodup, fun p hp => ?_, htdeny.trans hdeny⟩, ?_⟩
  · exact (ht.range p).1 (by rw [(hmem p).1 hp]; nofun)
  · have hsub : (List.range n).map (pages k.kend + ·) ⊆ l := by
      intro p hp
      obtain ⟨j, hj, rfl⟩ := List.mem_map.1 hp
      rw [List.mem_range] at hj
      rw [hmem, uses_eq_free, inRange_iff_index hle]
      refine ⟨⟨Nat.le_add_right .., ?_⟩, Finset.notMem_empty _⟩
      unfold pg PHYSTOP KERNBASE PGSIZE at *
      omega
    have hlen := ((List.nodup_range.map (add_right_injective _)).subperm hsub).length_le
    rwa [List.length_map, List.length_range] at hlen

/-- With enough memory for the tables and the stacks, `kvmmake` returns the kernel's page
table. -/
theorem kvmmake_kernelMap (hk : k.Ok) (hs : FreeMemory k l s) (henough : 137 ≤ l.length) :
    ∃ pagetable t stack, kvmmake k s = .ok pagetable t ∧ KernelMap k pagetable stack t := by
  obtain ⟨own, hm, ho, hfree, hstack⟩ := hs.memory
  obtain ⟨a, t, hrun, r, stack, rfl, h⟩ :=
    (kvmmake_spec hs.nodup henough hk hm ho hfree hstack hs.deny).returns
  exact ⟨pg r, t, stack, hrun, h.kernelMap hk⟩

/-- A kernel of ten pages boots. -/
theorem kvmmake_kernelMap_boot : ∃ u s pagetable t stack,
    kinit ⟨KERNBASE + 8 * PGSIZE, KERNBASE + 7 * PGSIZE, KERNBASE + 10 * PGSIZE⟩
      ⟨.empty, 0, 0, .empty, 0, .empty, [], []⟩ = .ok u s ∧
    kvmmake ⟨KERNBASE + 8 * PGSIZE, KERNBASE + 7 * PGSIZE, KERNBASE + 10 * PGSIZE⟩ s =
      .ok pagetable t ∧
    KernelMap ⟨KERNBASE + 8 * PGSIZE, KERNBASE + 7 * PGSIZE, KERNBASE + 10 * PGSIZE⟩ pagetable stack t := by
  have hboot := FreeMemory.of_kinit (n := 137) (s := ⟨.empty, 0, 0, .empty, 0, .empty, [], []⟩)
    (k := ⟨KERNBASE + 8 * PGSIZE, KERNBASE + 7 * PGSIZE, KERNBASE + 10 * PGSIZE⟩)
    (by decide) (by decide) rfl rfl
  obtain ⟨u, s, l, hrun, hs, hl⟩ := hboot
  obtain ⟨pagetable, t, stack, hmake, hmap⟩ := kvmmake_kernelMap
    ⟨by decide, by decide, by decide, by decide, by decide⟩ hs hl
  exact ⟨u, s, pagetable, t, stack, hrun, hmake, hmap⟩

end Vm
end Xv6
