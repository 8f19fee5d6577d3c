import Xv6.Vm.Proc
import Xv6.Vm.Space

/-!
The life of an address space: `proc_pagetable` creates it with the trampoline and the
trapframe mapped, and `proc_freepagetable` gives all its pages back. `allocproc` finds a
slot for a process and makes both its pages and its address space.
-/

namespace Xv6
namespace Vm

open Hoare RadixTree

variable {k : Layout} {own own' own'' : ℕ → Use} {L L' L'' : ℕ → List ℕ → ℕ} {s t : State}
  {E : Panic → State → Prop} {r n m p u v f tramp trap : ℕ}

/-- Address spaces with a page have a root. -/
def Rooted (own : ℕ → Use) : Prop := ∀ p r, (own p).of r → own r = .table r []

theorem Rooted.none_of (h : Rooted own) (hr : own r = .free) (p : ℕ) : ¬ (own p).of r := by
  intro hp
  have := h p r hp
  rw [hr] at this
  cases this

theorem Frame.rooted (h : Frame r own s own' t) (ho : Rooted own) (hr : own' r = .table r []) :
    Rooted own' := by
  intro p r' hp
  by_cases heq : r' = r
  · rw [heq, hr]
  · have hnot : ∀ {w : Use}, w.of r' → w ≠ .free ∧ ¬ w.of r := by
      intro w hw
      cases w with
      | table r'' π =>
        cases hw
        exact ⟨by simp, heq⟩
      | user r'' v =>
        cases hw
        exact ⟨by simp, heq⟩
      | _ => exact hw.elim
    have hp' : own p = own' p := (h.iff_of_not (hnot hp).1 (hnot hp).2).1 rfl
    rw [← hp'] at hp
    exact (h.iff_of_not (u := .table r' []) (by simp) heq).2 (ho p r' hp)

/-! ### Creating -/

theorem Fresh.root (h : Fresh k own L s u t) (ho : Rooted own) (hm : Memory k own L s) :
    Effect k u own L s (Function.update own u (.table u [])) (Function.update L u fun _ => 0)
      (t.setBytes (pg u) (List.replicate PGSIZE 0)) := by
  have hw := h.write (List.replicate PGSIZE 0)
  have hnone : ∀ p, ¬ (own p).of u := ho.none_of h.free
  have htable : ∀ d π, Function.update own u (.table u []) d = .table u π ↔ d = u ∧ π = [] := by
    intro d π
    by_cases hd : d = u
    · rw [hd, Function.update_self]
      simp [eq_comm]
    · rw [Function.update_of_ne hd]
      refine iff_of_false (fun heq => hnone d ?_) fun hx => hd hx.1
      rw [heq]
      rfl
  have hother : ∀ r, r ≠ u → ∀ d π, Function.update own u (.table u []) d = .table r π ↔
      own d = .table r π := by
    intro r hr d π
    by_cases hd : d = u
    · rw [hd, Function.update_self, h.free]
      simp [hr.symm]
    · rw [Function.update_of_ne hd]
  constructor
  · constructor
    · have := hw.memory.pages.retype (p := u) (u := .table u []) (by rw [Function.update_self]; simp)
        (by rw [Function.update_self]; simp) (by simp) (by simp)
      rwa [Function.update_idem] at this
    · refine hm.tables.update hother (fun r hr d π hd => hw.only d ?_)
        (fun r hr => Function.update_of_ne hr _ _) fun _ => ?_
      · rintro rfl
        rw [h.free] at hd
        cases hd
      · rw [Function.update_self]
        exact .single (by decide) htable fun i hi => entry_zeros t hi
  · refine ⟨hw.rest, hw.deny, fun p hp _ => ?_, fun p hp _ => hw.only p ?_, fun p hp => ?_⟩
    · refine Function.update_of_ne ?_ _ _
      rintro rfl
      exact hp h.free
    · rintro rfl
      exact hp h.free
    · by_cases hpu : p = u
      · rw [hpu, Function.update_self]
        exact .inr rfl
      · rwa [Function.update_of_ne hpu]
  · exact fun r hr => Function.update_of_ne hr _ _

theorem uvmcreate_spec (h : Memory k own L s) (ho : Rooted own) :
    Post uvmcreate s (fun a t => a = 0 ∧ (∀ r, Effect k r own L s own L t) ∨
      ∃ r own' L', a = pg r ∧ pg r ≠ 0 ∧ own r = .free ∧ Effect k r own L s own' L' t ∧
        Space own' L' r 0 0 0 ∧ ∀ p, p ≠ r → own' p = own p) E := by
  simp only [uvmcreate, memset_eq, writeBytes, post_bind, post_ite, post_pure, post_modify]
  refine (kalloc_fresh h).imp ?_
  rintro a t (⟨rfl, he⟩ | ⟨u, rfl, hu0, hfresh⟩)
  · exact ⟨fun _ => .inl ⟨trivial, he⟩, fun hne => absurd rfl hne⟩
  · refine ⟨fun h0 => absurd h0 hu0, fun _ => .inr ⟨u, _, _, rfl, hu0, hfresh.free,
      hfresh.root ho h, ?_, fun p hp => Function.update_of_ne hp _ _⟩⟩
    constructor
    · exact Function.update_self _ _ _
    · intro v hv
      exact absurd hv (Nat.not_lt_zero v)
    · intro p v hp
      by_cases hpu : p = u
      · rw [hpu, Function.update_self] at hp
        cases hp
      · rw [Function.update_of_ne hpu] at hp
        refine absurd ?_ (ho.none_of hfresh.free p)
        rw [hp]
        rfl
    · intro v _ _
      rw [Function.update_self, topEntry, ite_self, ite_self]

/-! ### The entries above the user pages -/

def trampEntry (k : Layout) : ℕ := pte (k.trampoline / PGSIZE) 11

def trapEntry (u : ℕ) : ℕ := pte u 7

namespace Space
variable {e : ℕ}

theorem set_tramp (h : Space own L r n tramp trap) (hm : Memory k own L s) :
    Space own (setL L r (vkey trampPage) e) r n e trap := by
  have hlt := h.lt_trapframe hm
  have hbig : trapPage < trampPage ∧ trampPage < 2 ^ 27 := by decide
  refine ⟨h.root, fun v hv => ?_, h.only, fun v hv hv' => ?_⟩
  · obtain ⟨u, f, hu⟩ := h.page v hv
    refine ⟨u, f, ?_, hu.owner, hu.flags⟩
    rw [setL_ne fun hkey => absurd (vkey_inj (by omega) (by omega) hkey) (by omega), hu.entry]
  · by_cases hvt : v = trampPage
    · rw [hvt, setL_self, topEntry]
      exact (if_pos rfl).symm
    · rw [setL_ne fun hkey => hvt (vkey_inj hv' (by omega) hkey), h.top v hv hv']
      simp only [topEntry]
      rw [if_neg hvt, if_neg hvt]

theorem set_trap (h : Space own L r n tramp trap) (hm : Memory k own L s) :
    Space own (setL L r (vkey trapPage) e) r n tramp e := by
  have hlt := h.lt_trapframe hm
  have hbig : trapPage < trampPage ∧ trampPage < 2 ^ 27 := by decide
  refine ⟨h.root, fun v hv => ?_, h.only, fun v hv hv' => ?_⟩
  · obtain ⟨u, f, hu⟩ := h.page v hv
    refine ⟨u, f, ?_, hu.owner, hu.flags⟩
    rw [setL_ne fun hkey => absurd (vkey_inj (by omega) (by omega) hkey) (by omega), hu.entry]
  · by_cases hvt : v = trapPage
    · rw [hvt, setL_self, topEntry, if_neg (by decide), if_pos rfl]
    · rw [setL_ne fun hkey => hvt (vkey_inj hv' (by omega) hkey), h.top v hv hv']
      simp only [topEntry]
      rw [if_neg hvt, if_neg hvt]

theorem tramp_eq (h : Space own L r n tramp trap) (hm : Memory k own L s) :
    L r (vkey trampPage) = tramp := by
  have hlt := h.lt_trapframe hm
  have hbig : trapPage < trampPage ∧ trampPage < 2 ^ 27 := by decide
  rw [h.top _ (by omega) hbig.2, topEntry]
  exact if_pos rfl

theorem trap_eq (h : Space own L r n tramp trap) (hm : Memory k own L s) :
    L r (vkey trapPage) = trap := by
  have hlt := h.lt_trapframe hm
  rw [h.top _ hlt.le (by decide), topEntry, if_neg (by decide), if_pos rfl]

end Space

theorem uvmunmap_keep (h : Memory k own L s) (hr : own r = .table r []) (hv : v < 2 ^ 26)
    (he : L r (vkey v) = pte u f) (hf : f < 1024) (hvalid : f &&& PTE_V ≠ 0) (hleaf : f ≠ PTE_V) :
    Post (uvmunmap k (pg r) (pg v) 1 false) s (fun _ t =>
      Effect k r own L s own (setL L r (vkey v) 0) t) E := by
  have hend : pages ((pg v + 1 * PGSIZE) % 2 ^ 64 - pg v) = 1 := by
    unfold pages pg PGSIZE
    omega
  have hvalid' : pte u f &&& PTE_V ≠ 0 := by
    rwa [pte_and hf (by decide)]
  simp only [uvmunmap, uvmunmapFrom, read64, write64, post_bind, post_get, post_pure, post_ite,
    post_modify, hend]
  refine ⟨fun hne => absurd (pg_mod v) hne, fun _ => ?_⟩
  refine (walk_find h hr (by unfold pg PGSIZE MAXVA; omega)).imp ?_
  rintro a t ⟨rfl, ⟨rfl, h0⟩ | ⟨d, hd, rfl⟩⟩
  · rw [← vkey, he] at h0
    rw [h0] at hvalid'
    exact absurd (Nat.zero_and _) hvalid'
  · have hload := h.load_key hr hd
    rw [← vkey, he] at hload
    rw [hload, PTE_FLAGS_pte hf]
    refine ⟨fun hz => absurd hz (h.addr_ne_zero hd), fun _ => ⟨fun hz => absurd hz hvalid', fun _ =>
      ⟨fun hz => absurd hz hleaf, fun _ => ⟨fun hf => Bool.noConfusion hf, fun _ => ?_⟩⟩⟩⟩
    obtain ⟨hm, hframe⟩ := h.setEntry (v := 0) hr hd (by decide) rfl
    exact ⟨hm, hframe, fun r' hr' => setL_root hr'⟩

/-! ### Freeing -/

/-- The use after the address space `r` has been freed. -/
def Use.drop (r : ℕ) : Use → Use
  | user r' v => if r' = r then free else user r' v
  | table r' π => if r' = r then free else table r' π
  | outside => outside
  | free => free
  | held => held
  | trapframe p => trapframe p
  | kstack p => kstack p
  | pipe => pipe

theorem Use.drop_of {x : Use} (h : x.of r) : x.drop r = .free := by
  cases x with
  | user r' v => exact if_pos h
  | table r' π => exact if_pos h
  | _ => exact h.elim

theorem Use.drop_not_of {x : Use} (h : ¬ x.of r) : x.drop r = x := by
  cases x with
  | user r' v => exact if_neg h
  | table r' π => exact if_neg h
  | _ => rfl

theorem prune_eq_drop (honly : ∀ u v, own u ≠ .user r v) :
    (prune own own r fun _ => True) = fun p => (own p).drop r := by
  funext p
  by_cases hp : (own p).of r
  · rw [Use.drop_of hp]
    cases hcase : own p with
    | user r' v =>
      rw [hcase] at hp
      cases hp
      exact absurd hcase (honly p v)
    | table r' π =>
      rw [hcase] at hp
      cases hp
      exact prune_pos trivial hcase
    | _ =>
      rw [hcase] at hp
      exact hp.elim
  · rw [Use.drop_not_of hp, prune_neg]
    intro ρ _ hρ
    rw [hρ] at hp
    exact hp rfl

theorem Use.drop_freed (x : Use) (r lo hi : ℕ) : (x.freed r lo hi).drop r = x.drop r := by
  cases x with
  | user r' v =>
    rw [Use.freed]
    split_ifs with hc
    · rw [Use.drop, Use.drop, if_pos hc.1]
    · rfl
  | _ => rfl

theorem uvmfree_spec {sz : ℕ} (h : Memory k own L s) (hs : Space own L r (pages sz) 0 0) :
    Post (uvmfree k (pg r) sz) s (fun _ t =>
      ∃ L', Effect k r own L s (fun p => (own p).drop r) L' t) E := by
  have hempty : ∀ {own L s}, Memory k own L s → Space own L r 0 0 0 →
      Post (freewalk k 3 (pg r)) s (fun _ t => Effect k r own L s (fun p => (own p).drop r) L t) E := by
    intro own L s h hs
    refine (freewalk_spec h hs.root fun v hv => ?_).imp ?_
    · rw [hs.top v (Nat.zero_le v) hv, topEntry, ite_self, ite_self]
    · rintro _ t ⟨hm, hf⟩
      rw [prune_eq_drop fun u v hu => absurd (hs.only u v hu) (Nat.not_lt_zero v)] at hm hf
      exact ⟨hm, hf, fun _ _ => rfl⟩
  have hsz := hs.size_le h
  simp only [uvmfree, post_bind, post_ite]
  refine ⟨fun _ => ?_, fun h0 => ?_⟩
  · rw [PGROUNDUP_eq (by unfold PHYSTOP KERNBASE PGSIZE at *; omega), pg_div]
    have hs' : Space own L r (0 + pages sz) 0 0 := by rwa [Nat.zero_add]
    have hunmap := uvmunmap_spec (E := E) h hs'
    rw [show pg 0 = 0 from Nat.zero_mul _] at hunmap
    refine hunmap.imp ?_
    rintro _ t ⟨L', he, hs'', -⟩
    refine (hempty he.memory hs'').imp ?_
    rintro _ t' he'
    simp only [Use.drop_freed] at he'
    exact ⟨L', he.trans he'⟩
  · have hsz0 : pages sz = 0 := by
      unfold pages PGSIZE
      omega
    rw [hsz0] at hs
    exact (hempty h hs).imp fun _ t he => ⟨L, he⟩

/-- `proc_freepagetable` frees exactly the pages of the address space. -/
theorem procFreepagetable_spec {sz : ℕ} (h : Memory k own L s)
    (hs : Space own L r (pages sz) (trampEntry k) (trapEntry u)) :
    Post (procFreepagetable k (pg r) sz) s (fun _ t =>
      ∃ L', Effect k r own L s (fun p => (own p).drop r) L' t) E := by
  simp only [procFreepagetable, post_bind]
  rw [← pg_trampPage, ← pg_trapPage]
  refine (uvmunmap_keep h hs.root (by decide) (hs.tramp_eq h) (by decide) (by decide)
    (by decide)).imp ?_
  intro _ t he
  have hs₁ := hs.set_tramp h (e := 0)
  refine (uvmunmap_keep he.memory hs₁.root (by decide) (hs₁.trap_eq he.memory) (by decide)
    (by decide) (by decide)).imp ?_
  intro _ t' he'
  refine (uvmfree_spec he'.memory (hs₁.set_trap he.memory (e := 0))).imp ?_
  rintro _ t'' ⟨L', he''⟩
  exact ⟨L', (he.trans he').trans he''⟩

structure Restored (k : Layout) (own : ℕ → Use) (L : ℕ → List ℕ → ℕ) (s : State)
    (L' : ℕ → List ℕ → ℕ) (t : State) : Prop where
  memory : Memory k own L' t
  rest : Rest s t
  mem : ∀ q, own q ≠ .free → t.mem.get q = s.mem.get q
  maps : ∀ r, own r = .table r [] → L' r = L r

theorem Use.exists_not_of (x : Use) : ∃ r, ¬ x.of r := by
  cases x with
  | table r π => exact ⟨r + 1, (Nat.succ_ne_self r).symm⟩
  | user r v => exact ⟨r + 1, (Nat.succ_ne_self r).symm⟩
  | _ => exact ⟨0, id⟩

theorem vkey_trampPage : vkey trampPage = key TRAMPOLINE := by rw [vkey, pg_trampPage]

theorem vkey_trapPage : vkey trapPage = key TRAPFRAME := by rw [vkey, pg_trapPage]

theorem Use.not_of_drop (x : Use) (r : ℕ) : ¬ (x.drop r).of r := by
  by_cases hx : x.of r
  · rw [Use.drop_of hx]
    exact id
  · rwa [Use.drop_not_of hx]

theorem Effect.restored (h : Effect k r own L s (fun p => (own' p).drop r) L' t) (ho : Rooted own)
    (hr : own r = .free) : Restored k own L s L' t := by
  have hnone := ho.none_of hr
  have hown : (fun p => (own' p).drop r) = own := by
    funext p
    by_cases hp : own p = .free
    · rw [hp]
      exact (h.frame.new p (.inl hp)).resolve_right (Use.not_of_drop _ r)
    · exact h.frame.use p hp (hnone p)
  refine ⟨hown ▸ h.memory, h.frame.rest, fun q hq => h.frame.mem q hq (hnone q), fun r' hr' => ?_⟩
  refine h.maps r' ?_
  rintro rfl
  rw [hr] at hr'
  cases hr'

theorem Walked.effect {K : List ℕ → Prop} (h : Walked k r K L' own s own' t)
    (hL : ∀ r', r' ≠ r → L' r' = L r') : Effect k r own L s own' L' t :=
  ⟨h.memory, h.frame, hL⟩

theorem procPagetable_spec (h : Memory k own L s) (ho : Rooted own) (hk : k.trampoline < 2 ^ 64)
    (hu : (s.proc.get p).trapframe = pg u) (hu52 : u < 2 ^ 52) :
    Post (procPagetable k p) s (fun a t => a = 0 ∧ (∃ L', Restored k own L s L' t) ∨
      ∃ r own' L', a = pg r ∧ pg r ≠ 0 ∧ own r = .free ∧ Effect k r own L s own' L' t ∧
        Space own' L' r 0 (trampEntry k) (trapEntry u)) E := by
  have hzero : pages 0 = 0 := by decide
  simp only [procPagetable, getProc, post_bind, post_ite, post_pure, post_get]
  refine (uvmcreate_spec h ho).imp ?_
  rintro a t (⟨rfl, he⟩ | ⟨r, own₀, L₀, rfl, hr0, hfree, he, hs, -⟩)
  · refine ⟨fun _ => .inl ⟨trivial, L, (he 0).memory, (he 0).frame.rest, fun q hq => ?_,
      fun _ _ => rfl⟩, fun hne => absurd rfl hne⟩
    obtain ⟨r, hr⟩ := (own q).exists_not_of
    exact (he r).frame.mem q hq hr
  · refine ⟨fun hz => absurd hz hr0, fun _ => ?_⟩
    have htop := hs.tramp_eq he.memory
    rw [vkey_trampPage] at htop
    refine (mappages_page (by decide) he.memory hs.root (by decide) (by decide) hk
      (by rw [htop]; exact Nat.zero_and _)).imp ?_
    rintro ok t₁ ⟨own₁, hw, -⟩
    cases ok with
    | false =>
      have he₁ := he.trans (hw.effect fun _ _ => rfl)
      have hs₁ := hs.grows hw.grows
      refine ⟨fun _ => (uvmfree_spec he₁.memory (hzero ▸ hs₁)).imp ?_, fun hf => absurd rfl hf⟩
      rintro _ t₂ ⟨L₂, he₂⟩
      exact .inl ⟨trivial, L₂, (he₁.trans he₂).restored ho hfree⟩
    | true =>
      refine ⟨fun hf => Bool.noConfusion hf, fun _ => ?_⟩
      rw [if_pos rfl, ← vkey_trampPage,
        show pte (k.trampoline / PGSIZE) (PTE_R ||| PTE_X ||| PTE_V) = trampEntry k from rfl] at hw
      have he₁ := he.trans (hw.effect fun r' hr' => setL_root hr')
      have hs₁ : Space own₁ _ r 0 (trampEntry k) 0 := (hs.set_tramp he.memory).grows hw.grows
      have htrap := hs₁.trap_eq he₁.memory
      rw [vkey_trapPage] at htrap
      rw [he₁.frame.rest.proc, hu]
      refine (mappages_page (by decide) he₁.memory hs₁.root (by decide) (by decide)
        (by unfold pg PGSIZE; omega) (by rw [htrap]; exact Nat.zero_and _)).imp ?_
      rintro ok t₂ ⟨own₂, hw₂, -⟩
      cases ok with
      | false =>
        have he₂ := he₁.trans (hw₂.effect fun _ _ => rfl)
        have hs₂ := hs₁.grows hw₂.grows
        refine ⟨fun _ => ?_, fun hf => absurd rfl hf⟩
        rw [← pg_trampPage]
        refine (uvmunmap_keep he₂.memory hs₂.root (by decide) (hs₂.tramp_eq he₂.memory)
          (by decide) (by decide) (by decide)).imp ?_
        intro _ t₃ he₃
        refine (uvmfree_spec he₃.memory (hzero ▸ hs₂.set_tramp he₂.memory)).imp ?_
        rintro _ t₄ ⟨L₄, he₄⟩
        exact .inl ⟨trivial, L₄, ((he₂.trans he₃).trans he₄).restored ho hfree⟩
      | true =>
        rw [if_pos rfl, ← vkey_trapPage, pg_div] at hw₂
        refine ⟨fun hf => Bool.noConfusion hf, fun _ => .inr ⟨r, own₂, _, rfl, hr0, hfree,
          he₁.trans (hw₂.effect fun r' hr' => setL_root hr'), ?_⟩⟩
        exact (hs₁.set_trap he₁.memory).grows hw₂.grows

/-! ### A new process -/

theorem Memory.setProc (h : Memory k own L s) (procs : TMap Proc) (pid : ℤ) :
    Memory k own L { s with proc := procs, nextpid := pid } :=
  ⟨h.pages.congr (fun _ => Iff.rfl) (fun _ => Iff.rfl) rfl fun _ _ => rfl, h.tables⟩

theorem Rooted.retype {w : Use} (h : Rooted own) (hu : own u = .free) (hw : ∀ r, ¬ w.of r) :
    Rooted (Function.update own u w) := by
  intro q r hq
  by_cases hqu : q = u
  · rw [hqu, Function.update_self] at hq
    exact absurd hq (hw r)
  · rw [Function.update_of_ne hqu] at hq
    have hroot := h q r hq
    rw [Function.update_of_ne, hroot]
    rintro rfl
    rw [hu] at hroot
    cases hroot

structure Allocated (k : Layout) (own : ℕ → Use) (L : ℕ → List ℕ → ℕ) (s : State) (p r u : ℕ)
    (own' : ℕ → Use) (L' : ℕ → List ℕ → ℕ) (t : State) : Prop where
  memory : Memory k own' L' t
  rooted : Rooted own'
  space : Space own' L' r 0 (trampEntry k) (trapEntry u)
  frame : own' u = .trapframe p
  fresh : own r = .free ∧ own u = .free
  unused : (s.proc.get p).state = .unused
  keep : ∀ q, own q ≠ .free → own' q = own q ∧ t.mem.get q = s.mem.get q
  new : ∀ q, own q = .free → own' q = .free ∨ (own' q).of r ∨ own' q = .trapframe p
  maps : ∀ r', own r' = .table r' [] → L' r' = L r'
  proc : t.proc.get p = { s.proc.get p with
    pid := s.nextpid, state := .used, trapframe := pg u, pagetable := pg r }
  others : ∀ q, q ≠ p → t.proc.get q = s.proc.get q

theorem allocproc_spec (h : Memory k own L s) (ho : Rooted own) (hk : k.trampoline < 2 ^ 64) :
    Post (allocproc k) s (fun res t => ∀ p, res = some p → ∃ own' L' r u,
      Allocated k own L s p r u own' L' t) fun _ _ => True := by
  have htrue : ∀ {α : Type} {m : M α} {s : State} {Q : α → State → Prop}, (∀ a t, Q a t) →
      Post m s Q fun _ _ => True := fun hQ => post_iff.2 ⟨fun a t _ => hQ a t, fun _ _ _ => trivial⟩
  simp only [allocproc, post_bind, post_get]
  cases hfind : (List.range NPROC).find? fun q => decide ((s.proc.get q).state = .unused) with
  | none => exact post_pure.2 fun p hp => by cases hp
  | some q =>
    have hunused : (s.proc.get q).state = .unused := by
      simpa using List.find?_some hfind
    simp only [allocpid, modifyProc, post_bind, post_modify, post_get, post_pure, post_ite]
    refine (kalloc_fresh (h.setProc _ _)).imp ?_
    rintro a t (⟨rfl, -⟩ | ⟨u, rfl, hu0, hf⟩)
    · exact ⟨fun _ => htrue fun _ _ p hp => (by cases hp), fun hne => absurd rfl hne⟩
    · refine ⟨fun h => absurd h hu0, fun _ => ?_⟩
      have hm₁ := hf.memory.retype (w := .trapframe q) (Function.update_self _ _ _) (by simp) (by simp)
        (by simp)
      rw [Function.update_idem] at hm₁
      have ho₁ := ho.retype (w := .trapframe q) hf.free fun _ => id
      have hu52 := hm₁.pages.small (p := u) (by rw [Function.update_self]; simp)
      refine (procPagetable_spec (u := u) (hm₁.setProc _ _) ho₁ hk ?_ hu52).imp ?_
      · rw [TMap.get_set_self]
      · rintro a t₁ (⟨rfl, -⟩ | ⟨r, own', L', rfl, hr0, hfree, he, hs⟩)
        · exact ⟨fun _ => htrue fun _ _ p hp => (by cases hp), fun hne => absurd rfl hne⟩
        · refine ⟨fun h => absurd h hr0, fun _ p hp => ?_⟩
          cases hp
          have hproc := he.frame.rest.proc
          have hrest := hf.rest.proc
          have hru : r ≠ u := by
            rintro rfl
            rw [Function.update_self] at hfree
            cases hfree
          rw [Function.update_of_ne hru] at hfree
          have hne : ∀ {q'}, own q' ≠ .free → q' ≠ u := by
            rintro q' hq' rfl
            exact hq' hf.free
          have huse : own' u = .trapframe q := by
            rw [he.frame.use u, Function.update_self]
            · rw [Function.update_self]
              simp
            · rw [Function.update_self]
              exact id
          refine ⟨own', L', r, u, he.memory.setProc _ _, he.frame.rooted ho₁ hs.root, hs, ?_,
            ⟨hfree, hf.free⟩, hunused, fun q' hq' => ?_, fun q' hq' => ?_,
            fun r' hr' => he.maps r' ?_, ?_, fun q' hq' => ?_⟩
          · exact huse
          · have hupd := Function.update_of_ne (hne hq') (Use.trapframe q) own
            have hof : ¬ (own q').of r := ho.none_of hfree q'
            rw [← hupd] at hq' hof
            refine ⟨(he.frame.use q' hq' hof).trans hupd, (he.frame.mem q' hq' hof).trans ?_⟩
            exact hf.only q' (hne (hupd ▸ hq'))
          · by_cases hqu : q' = u
            · rw [hqu]
              exact .inr (.inr huse)
            · refine (he.frame.new q' (.inl ?_)).imp_right .inl
              rw [Function.update_of_ne hqu, hq']
          · rintro rfl
            rw [hfree] at hr'
            cases hr'
          · rw [TMap.get_set_self, hproc, TMap.get_set_self, hrest, TMap.get_set_self]
          · rw [TMap.get_set_ne _ _ hq', hproc, TMap.get_set_ne _ _ hq', hrest, TMap.get_set_ne _ _ hq']

end Vm
end Xv6
