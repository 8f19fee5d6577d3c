import Xv6.Vm.Contents
import Xv6.Vm.ExecSpec

/-!
What `growproc` does to a process. It computes the new size in 32-bit unsigned arithmetic,
and `uvmalloc` and `uvmdealloc` return the old size when they are asked for a size on the
wrong side of it. So a request that leaves the range of a size is reported as done.
-/

namespace Xv6
namespace Vm

open Hoare

variable {k : Layout} {own own' : ℕ → Use} {L L' : ℕ → List ℕ → ℕ} {s t : State}
  {E : Panic → State → Prop} {p r u : ℕ} {n : ℤ}

/-- The size has changed by `n`, the bytes that both sizes cover are kept, and the pages
that are new hold zeros. -/
structure Grown (p : ℕ) (n : ℤ) (s t : State) : Prop where
  size : ((t.proc.get p).sz : ℤ) = (s.proc.get p).sz + n
  kept : ∀ va, va < min (s.proc.get p).sz (t.proc.get p).sz →
    vmByte (t.proc.get p).pagetable va t = vmByte (s.proc.get p).pagetable va s
  zero : ∀ va, PGROUNDUP (s.proc.get p).sz ≤ va → va < PGROUNDUP (t.proc.get p).sz →
    vmByte (t.proc.get p).pagetable va t = some 0

structure SameMemory (p : ℕ) (s t : State) : Prop where
  size : (t.proc.get p).sz = (s.proc.get p).sz
  mapped : ∀ va, va < MAXVA →
    translation (t.proc.get p).pagetable va t = translation (s.proc.get p).pagetable va s
  kept : ∀ va, va < PGROUNDUP (s.proc.get p).sz →
    vmByte (t.proc.get p).pagetable va t = vmByte (s.proc.get p).pagetable va s

/-- `growproc` returns and has done what it reports. -/
def GrowprocKeeps (k : Layout) (p : ℕ) (n : ℤ) (s : State) : Prop :=
  match growproc k p n s with
  | .ok true t => Grown p n s t
  | .ok false t => SameMemory p s t
  | .error _ _ => False

/-- The size that `growproc` leaves: the requested one, if that is a size. -/
def grownSize (sz : ℕ) (n : ℤ) : ℕ := if 0 ≤ sz + n ∧ sz + n < 2 ^ 32 then (sz + n).toNat else sz

/-- `uvmalloc` and `uvmdealloc` get the sum modulo `2 ^ 32` and keep the old size when it is
on the wrong side. -/
theorem max_eq_grownSize {sz : ℕ} (hsz : sz < 2 ^ 32) (hpos : 0 < n) (hn : n < 2 ^ 31) :
    max sz ((sz + n) % 2 ^ 32).toNat = grownSize sz n := by
  unfold grownSize
  split_ifs <;> omega

theorem min_eq_grownSize {sz : ℕ} (hsz : sz < 2 ^ 32) (hneg : n < 0) (hn : -2 ^ 31 ≤ n) :
    min sz ((sz + n) % 2 ^ 32).toNat = grownSize sz n := by
  unfold grownSize
  split_ifs <;> omega

theorem grownSize_lt {sz : ℕ} (hsz : sz < 2 ^ 32) : grownSize sz n < 2 ^ 32 := by
  unfold grownSize
  split_ifs <;> omega

theorem grownSize_eq_add_iff {sz : ℕ} (hsz : sz < 2 ^ 32) :
    (grownSize sz n : ℤ) = sz + n ↔ 0 ≤ sz + n ∧ sz + n < 2 ^ 32 := by
  unfold grownSize
  split_ifs <;> omega

/-! ### The address space -/

theorem Running.resize {sz : ℕ} (h : Running k own L p r u s) (he : Effect k r own L s own' L' t)
    (hs : Space own' L' r (pages sz) (trampEntry k) (trapEntry u)) :
    Running k own' L' p r u
      { t with proc := t.proc.set p { t.proc.get p with sz := sz } } := by
  have hproc := he.frame.rest.proc
  refine ⟨h.tramp, he.memory.setProc _ t.nextpid, he.frame.rooted h.rooted hs.root, ?_, ?_, ?_, ?_⟩
  · rw [TMap.get_set_self, hproc]
    exact h.pagetable
  · rw [TMap.get_set_self, hproc]
    exact h.trapframe
  · rw [he.frame.use u (by rw [h.frame]; simp) (by rw [h.frame]; exact id), h.frame]
  · rw [TMap.get_set_self]
    exact hs

theorem Running.effect (h : Running k own L p r u s) (he : Effect k r own L s own' L' t)
    (hs : Space own' L' r (pages (s.proc.get p).sz) (trampEntry k) (trapEntry u)) :
    Running k own' L' p r u t := by
  have hproc := he.frame.rest.proc
  refine ⟨h.tramp, he.memory, he.frame.rooted h.rooted hs.root, ?_, ?_, ?_, ?_⟩
  · rw [hproc, h.pagetable]
  · rw [hproc, h.trapframe]
  · rw [he.frame.use u (by rw [h.frame]; simp) (by rw [h.frame]; exact id), h.frame]
  · rw [hproc]
    exact hs

theorem growproc_spec (h : Running k own L p r u s) (hlo : -2 ^ 31 ≤ n) (hhi : n < 2 ^ 31) :
    Post (growproc k p n) s (fun ok t => ∃ own' L', Running k own' L' p r u t ∧
      (ok = true ∧ (t.proc.get p).sz = grownSize (s.proc.get p).sz n ∧
          Steady r (pages (min (s.proc.get p).sz (t.proc.get p).sz)) own L s L' t ∧
          Blank r (pages (s.proc.get p).sz) (pages (t.proc.get p).sz) L' t ∨
        ok = false ∧ (0 ≤ (s.proc.get p).sz + n ∧ (s.proc.get p).sz + n < 2 ^ 32) ∧
          (t.proc.get p).sz = (s.proc.get p).sz ∧
          Steady r (pages (s.proc.get p).sz) own L s L' t)) E := by
  have hsize := h.space.size_le h.memory
  have hstop : PHYSTOP < 2 ^ 32 - 2 ^ 20 := by decide
  have hlt : (s.proc.get p).sz < 2 ^ 32 := by omega
  simp only [growproc, getProc, modifyProc, post_bind, post_get, post_pure, post_ite, post_modify,
    Nat.mod_eq_of_lt hlt]
  refine ⟨fun hpos => ?_, fun _ => ⟨fun hneg => ?_, fun _ => ?_⟩⟩
  · rw [h.pagetable]
    refine (uvmalloc_spec h.memory h.space).imp ?_
    rintro sz t ⟨own', L', he, ⟨hsz, hs', -, -, hst, hblank⟩ | ⟨rfl, hle, hs', -, hst⟩⟩
    · have hgrown : sz = grownSize (s.proc.get p).sz n := hsz.trans (max_eq_grownSize hlt hpos hhi)
      have hge : (s.proc.get p).sz ≤ sz := hsz ▸ le_max_left _ _
      rw [Nat.mod_eq_of_lt (hgrown ▸ grownSize_lt hlt)]
      refine ⟨fun h0 => ?_, fun _ => ⟨own', L', h.resize he hs', .inl ⟨trivial, ?_⟩⟩⟩
      · unfold grownSize at hgrown
        split_ifs at hgrown <;> omega
      · rw [TMap.get_set_self, min_eq_left hge]
        exact ⟨hgrown, ⟨hst.entry, hst.mem⟩, hblank⟩
    · refine ⟨fun _ => ⟨own', L', h.effect he hs', .inr ⟨trivial, by omega, ?_, hst⟩⟩,
        fun hne => absurd rfl hne⟩
      rw [he.frame.rest.proc]
  · rw [h.pagetable]
    refine (uvmdealloc_spec h.memory h.space (by unfold PGSIZE; omega)).imp ?_
    rintro sz t ⟨hsz, L', he, hs', hst⟩
    have hgrown : sz = grownSize (s.proc.get p).sz n := hsz.trans (min_eq_grownSize hlt hneg hlo)
    have hle : sz ≤ (s.proc.get p).sz := hsz ▸ min_le_left _ _
    rw [Nat.mod_eq_of_lt (hle.trans_lt hlt)]
    refine ⟨_, L', h.resize he hs', .inl ⟨trivial, ?_⟩⟩
    rw [TMap.get_set_self, min_eq_right hle]
    refine ⟨hgrown, ⟨hst.entry, hst.mem⟩, fun v hv hv' => absurd hv' (not_lt.2 ?_)⟩
    exact (pages_mono hle).trans hv
  · obtain rfl : n = 0 := by omega
    refine ⟨own, L, h.resize (.refl h.memory r) h.space, .inl ⟨trivial, ?_⟩⟩
    rw [TMap.get_set_self, min_self]
    refine ⟨?_, ⟨fun _ _ => rfl, fun _ _ _ _ => rfl⟩, fun v hv hv' => absurd hv (not_le.2 hv')⟩
    show (s.proc.get p).sz = grownSize (s.proc.get p).sz 0
    unfold grownSize
    split_ifs <;> omega

/-! ### What the process sees -/

theorem Blank.vmByte {n n' va : ℕ} (h : Blank r n n' L s) (hm : Memory k own L s)
    (hs : Space own L r n' (trampEntry k) (trapEntry u)) (hlo : pg n ≤ va) (hhi : va < pg n') :
    vmByte (pg r) va s = some 0 := by
  have hmax := hs.lt_maxva hm hhi
  have hv : n ≤ va / PGSIZE ∧ va / PGSIZE < n' := by
    unfold pg PGSIZE at *
    omega
  obtain ⟨w, f, hw⟩ := hs.page _ hv.2
  obtain ⟨w', hw', hzero⟩ := h _ hv.1 hv.2
  obtain ⟨rfl, -⟩ := (pte_inj (by decide) hw.lt).1 (hw'.symm.trans hw.entry)
  rw [hw.vmByte_eq hm hs.root hmax, hzero _ (Nat.mod_lt _ (by decide))]

/-- `growproc` does what it reports for the requests that lead to a size, and for no
others. -/
theorem growprocKeeps_iff (h : Running k own L p r u s) (hlo : -2 ^ 31 ≤ n) (hhi : n < 2 ^ 31) :
    GrowprocKeeps k p n s ↔ 0 ≤ (s.proc.get p).sz + n ∧ (s.proc.get p).sz + n < 2 ^ 32 := by
  have hstop : PHYSTOP + PGSIZE < 2 ^ 32 := by decide
  have hsize : (s.proc.get p).sz + PGSIZE < 2 ^ 32 := by
    have := h.space.size_le h.memory
    omega
  have hround : PGROUNDUP (s.proc.get p).sz = pg (pages (s.proc.get p).sz) :=
    PGROUNDUP_eq (by omega)
  obtain ⟨ok, t, hrun, own', L', h', hend⟩ :=
    (growproc_spec (E := fun _ _ => False) h hlo hhi).returns
  have hsize' := h'.space.size_le h'.memory
  unfold GrowprocKeeps
  rw [hrun]
  rcases hend with ⟨rfl, hsz, hst, hblank⟩ | ⟨rfl, hrange, hsz, hst⟩
  · dsimp only
    rw [← grownSize_eq_add_iff (by omega), ← hsz]
    refine ⟨Grown.size, fun hadd => ⟨hadd, fun va hva => ?_, fun va hva hva' => ?_⟩⟩
    · rw [h'.pagetable, h.pagetable]
      refine h.space.vmByte_steady h.memory h'.memory h'.space.root hst
        (pages_mono (min_le_left _ _)) ?_
      exact hva.trans_le (pages_le_iff.1 le_rfl)
    · rw [h'.pagetable]
      rw [hround] at hva
      rw [PGROUNDUP_eq (by omega)] at hva'
      exact hblank.vmByte h'.memory h'.space hva hva'
  · dsimp only
    refine ⟨fun _ => hrange, fun _ => ⟨hsz, fun va hva => ?_, fun va hva => ?_⟩⟩
    · rw [h'.pagetable, h.pagetable]
      refine h.space.translation_steady h.memory ?_ h'.memory hst hva
      rw [← hsz]
      exact h'.space
    · rw [h'.pagetable, h.pagetable]
      rw [hround] at hva
      exact h.space.vmByte_steady h.memory h'.memory h'.space.root hst le_rfl hva

/-- A process that gives back more than it has is told that this was done. -/
theorem not_growprocKeeps (h : Running k own L p r u s) (hlo : -2 ^ 31 ≤ n)
    (hneg : (s.proc.get p).sz + n < 0) : ¬ GrowprocKeeps k p n s := by
  obtain ⟨ok, t, hrun, own', L', -, hend⟩ :=
    (growproc_spec (E := fun _ _ => False) h hlo (by omega)).returns
  unfold GrowprocKeeps
  rw [hrun]
  rcases hend with ⟨rfl, hsz, -⟩ | ⟨rfl, hrange, -⟩
  · intro hgrown
    have := hgrown.size
    omega
  · omega

def grownProc : State := final (growproc ⟨KERNBASE, KERNBASE, KERNBASE⟩ 0 4096 oneProc)

theorem growproc_oneProc :
    growproc ⟨KERNBASE, KERNBASE, KERNBASE⟩ 0 4096 oneProc = .ok true grownProc :=
  eq_ok_of_returned (by decide +kernel)

theorem grownProc_running : ∃ own L r u,
    Running ⟨KERNBASE, KERNBASE, KERNBASE⟩ own L 0 r u grownProc ∧
      (grownProc.proc.get 0).sz = 4096 := by
  obtain ⟨own, L, r, u, h, hsz, -⟩ := oneProc_running
  have hgrow := growproc_spec (n := 4096) (E := fun _ _ => True) h (by norm_num) (by norm_num)
  obtain ⟨own', L', h', ⟨-, hsz', -⟩ | ⟨hfalse, -⟩⟩ := hgrow.of_ok growproc_oneProc
  · rw [hsz] at hsz'
    exact ⟨own', L', r, u, h', hsz'⟩
  · cases hfalse

theorem growprocKeeps_oneProc : ∃ own L r u,
    Running ⟨KERNBASE, KERNBASE, KERNBASE⟩ own L 0 r u oneProc ∧
      growproc ⟨KERNBASE, KERNBASE, KERNBASE⟩ 0 4096 oneProc = .ok true grownProc ∧
      GrowprocKeeps ⟨KERNBASE, KERNBASE, KERNBASE⟩ 0 4096 oneProc := by
  obtain ⟨own, L, r, u, h, hsz, -⟩ := oneProc_running
  refine ⟨own, L, r, u, h, growproc_oneProc, ?_⟩
  rw [growprocKeeps_iff h (by norm_num) (by norm_num), hsz]
  norm_num

/-- A process without memory gives a byte back: `growproc` returns `0` and the size is still
`0`. -/
theorem growproc_shrinks_nothing : (∃ own L r u,
      Running ⟨KERNBASE, KERNBASE, KERNBASE⟩ own L 0 r u oneProc) ∧
    ¬ GrowprocKeeps ⟨KERNBASE, KERNBASE, KERNBASE⟩ 0 (-1) oneProc := by
  obtain ⟨own, L, r, u, h, hsz, -⟩ := oneProc_running
  refine ⟨⟨own, L, r, u, h⟩, not_growprocKeeps h (by norm_num) ?_⟩
  rw [hsz]
  norm_num

end Vm
end Xv6
