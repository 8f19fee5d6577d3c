import Xv6.Vm.ExecArgs
import Xv6.Vm.Growproc

/-!
`fork`. The child's address space is filled page by page with copies of the parent's
pages, each in a page that nothing else uses, with the same flags. As no page is in both
address spaces, what one process writes is not seen by the other.
-/

namespace Xv6
namespace Vm

open Hoare FreeList

variable {k : Layout} {own own' : ℕ → Use} {L L' : ℕ → List ℕ → ℕ} {s t : State}
  {E : Panic → State → Prop} {p np r r' n j u u' v va tramp trap tramp' trap' : ℕ}

/-! ### Copying the pages -/

/-- The first `j` pages of `r'` have the contents and the flags of those of `r`. -/
def Copied (r r' j : ℕ) (L : ℕ → List ℕ → ℕ) (s : State) : Prop :=
  ∀ v, v < j → ∃ u u' f, f < 1024 ∧ L r (vkey v) = pte u f ∧ L r' (vkey v) = pte u' f ∧
    ∀ i, i < PGSIZE → (s.mem.get u').get i = (s.mem.get u).get i

theorem Copied.steady (h : Copied r r' j L s) (hs : Space own L r n tramp trap)
    (hs' : Space own L r' j tramp' trap') (hjn : j ≤ n) (hst : Steady r j own L s L' t)
    (hst' : Steady r' j own L s L' t) : Copied r r' j L' t := by
  intro v hv
  obtain ⟨u, u', f, hf, hu, hu', hbytes⟩ := h v hv
  obtain ⟨w, g, hw⟩ := hs.page v (by omega)
  obtain ⟨w', g', hw'⟩ := hs'.page v hv
  obtain ⟨rfl, -⟩ := (pte_inj hf hw.lt).1 (hu.symm.trans hw.entry)
  obtain ⟨rfl, -⟩ := (pte_inj hf hw'.lt).1 (hu'.symm.trans hw'.entry)
  refine ⟨u, u', f, hf, (hst.entry v hv).trans hu, (hst'.entry v hv).trans hu', fun i hi => ?_⟩
  rw [hst.mem u v hv hw.user, hst'.mem u' v hv hw'.user, hbytes i hi]

theorem Effect.steady (h : Effect k r' own L s own' L' t) (hne : r ≠ r') (n : ℕ) :
    Steady r n own L s L' t := by
  refine ⟨fun v _ => by rw [h.maps r hne], fun q v _ hq => h.frame.mem q (by rw [hq]; simp) ?_⟩
  rw [hq]
  exact hne

theorem Mapped.load {f : ℕ} (hm : Memory k own L s) (hr : own r = .table r [])
    (h : Mapped own L r v u f) (hv : v < 2 ^ 26) :
    Post (walk (pg r) (pg v) false) s (fun a t => t = s ∧ a ≠ 0 ∧ s.load a 8 = pte u f) E := by
  refine (walk_find hm hr (by unfold pg PGSIZE MAXVA; omega)).imp ?_
  rintro a t ⟨rfl, ⟨rfl, h0⟩ | ⟨d, hd, rfl⟩⟩
  · rw [← vkey, h.entry] at h0
    have := h.flags
    exact absurd h0 (by unfold pte; omega)
  · refine ⟨rfl, hm.addr_ne_zero hd, ?_⟩
    rw [hm.load_key hr hd, ← vkey, h.entry]

theorem get_memmove {c d i n : ℕ} (s : State) (hi : i < n) :
    ((s.setBytes (pg c) (s.bytes (pg d) n)).mem.get c).get i = (s.mem.get d).get i := by
  rw [setBytes_pg0, TMap.get_set_self, Bytes.get_putBytes, State.bytes, pg_div, pg_mod,
    if_pos (by rw [Bytes.length_getBytes]; omega), Bytes.getD_getBytes _ _ _ _ (by omega)]
  congr 1
  omega

theorem uvmcopyFrom_spec (hne : r ≠ r') (m : ℕ) : ∀ {own L s j}, Memory k own L s →
    Space own L r n tramp trap → Space own L r' j tramp' trap' → j + m ≤ n → Copied r r' j L s →
    Post (uvmcopyFrom k (pg r) (pg r') m (pg j)) s (fun res t => ∃ own' L' j',
      Effect k r' own L s own' L' t ∧ Space own' L' r' j' tramp' trap' ∧ res.1 = pg j' ∧
      (res.2 = true → j' = j + m ∧ Copied r r' (j + m) L' t)) E := by
  induction m with
  | zero =>
    intro own L s j hm hs hs' hj hcopy
    exact post_pure.2 ⟨own, L, j, .refl hm r', hs', rfl, fun _ => ⟨rfl, hcopy⟩⟩
  | succ m ih =>
    intro own L s j hm hs hs' hj hcopy
    have hlt := hs.lt_trapframe hm
    have hbig : trapPage < 2 ^ 26 := by decide
    obtain ⟨w, f, hw⟩ := hs.page j (by omega)
    have hw52 := hm.pages.small (p := w) (by rw [hw.user]; simp)
    simp only [uvmcopyFrom, read64, readBytes, writeBytes, post_bind, post_get, post_ite, post_pure,
      post_modify]
    refine (hw.load hm hs.root (by omega)).imp ?_
    rintro a t ⟨rfl, ha, hload⟩
    refine ⟨fun h0 => absurd h0 ha, fun _ => ⟨fun h0 => ?_, fun _ => ?_⟩⟩
    · rw [hload] at h0
      exact absurd h0 hw.valid
    rw [hload, PTE2PA_pte hw52 hw.lt, PTE_FLAGS_pte hw.lt]
    refine (kalloc_fresh hm).imp ?_
    rintro a t₁ (⟨rfl, he⟩ | ⟨w', rfl, hw0, hfresh⟩)
    · exact ⟨fun _ => ⟨own, L, j, he r', hs', rfl, fun h => Bool.noConfusion h⟩,
        fun hne => absurd rfl hne⟩
    · refine ⟨fun h0 => absurd h0 hw0, fun _ => ?_⟩
      have hww : w ≠ w' := by
        rintro rfl
        have := hw.user
        rw [hfresh.free] at this
        cases this
      have hcopied := hfresh.write (t₁.bytes (pg w) PGSIZE)
      have hflags : f ||| PTE_V = f := by
        rcases hw.flags with rfl | rfl <;> rfl
      refine ((hcopied.map hm hs' hw.lt (by rw [hflags]; exact hw.flags)).also
        (hcopied.map_mem hm hs' hw.lt)).imp ?_
      rintro ok t₂ ⟨⟨rfl, own₂, L₂, he₂, hs₂, -, hw', hkeep⟩ | ⟨rfl, own₂, hm₂, hf₂, hg₂⟩, hpage, hmem⟩
      · refine ⟨fun _ => ?_, fun hne => absurd rfl hne⟩
        have hst := he₂.steady hne (j + 1)
        have hst' : Steady r' j own L t L₂ t₂ := by
          refine ⟨hkeep, fun q v hv hq => (hmem q v hv hq).trans (hcopied.only q ?_)⟩
          rintro rfl
          rw [hfresh.free] at hq
          cases hq
        have hnew : Copied r r' (j + 1) L₂ t₂ := by
          intro v hv
          rcases Nat.lt_succ_iff_lt_or_eq.1 hv with hlt | rfl
          · exact hcopy.steady hs hs' (by omega) (hst.mono (by omega)) hst' v hlt
          · refine ⟨w, w', f, hw.lt, (hst.entry v hv).trans hw.entry, ?_, fun i hi => ?_⟩
            · rw [hw'.entry, hflags]
            · rw [hpage, get_memmove t₁ hi, hst.mem w v hv hw.user, hfresh.only w hww]
        rw [← pg_succ]
        refine (ih he₂.memory (hs.frame he₂ hne) hs₂ (by omega) hnew).imp ?_
        rintro res t₃ ⟨own₃, L₃, j₃, he₃, hs₃, hres, hend⟩
        refine ⟨own₃, L₃, j₃, he₂.trans he₃, hs₃, hres, fun hok => ?_⟩
        rw [show j + (m + 1) = j + 1 + m by omega]
        exact hend hok
      · refine ⟨fun hf => Bool.noConfusion hf, fun _ => (hcopied.discard hm₂ hf₂ hg₂).imp ?_⟩
        rintro _ t₃ ⟨own₃, he₃, hg₃, -⟩
        exact ⟨own₃, L, j, he₃, hs'.grows hg₃, rfl, fun h => Bool.noConfusion h⟩

/-- `uvmcopy` into an address space without user pages. -/
theorem uvmcopy_spec {sz : ℕ} (hne : r ≠ r') (hm : Memory k own L s)
    (hs : Space own L r (pages sz) tramp trap) (hs' : Space own L r' 0 tramp' trap') :
    Post (uvmcopy k (pg r) (pg r') sz) s (fun ok t => ∃ own' L',
      Effect k r' own L s own' L' t ∧
      (ok = true ∧ Space own' L' r' (pages sz) tramp' trap' ∧ Copied r r' (pages sz) L' t ∨
        ok = false ∧ Space own' L' r' 0 tramp' trap')) E := by
  simp only [uvmcopy, post_bind, post_ite, post_pure]
  have hfrom := uvmcopyFrom_spec (E := E) (k := k) hne (pages sz) hm hs hs' (Nat.zero_add _).le
    fun v hv => absurd hv (Nat.not_lt_zero v)
  rw [show pg 0 = 0 from Nat.zero_mul _] at hfrom
  refine hfrom.imp ?_
  rintro ⟨i, ok⟩ t ⟨own', L', j, he, hs₁, rfl, hend⟩
  refine ⟨fun hok => ?_, fun hok => ?_⟩
  · obtain ⟨rfl, hcopy⟩ := hend hok
    rw [Nat.zero_add] at hs₁ hcopy
    exact ⟨own', L', he, .inl ⟨trivial, hs₁, hcopy⟩⟩
  · dsimp only
    rw [show pg j / PGSIZE = j from pg_div j, ← show pg 0 = 0 from Nat.zero_mul _]
    refine (uvmunmap_spec he.memory (n := 0) (by rwa [Nat.zero_add])).imp ?_
    rintro _ t' ⟨L'', he', hs₂, -⟩
    exact ⟨_, L'', he.trans he', .inr ⟨trivial, hs₂⟩⟩

/-! ### Isolation -/

def userByte (pagetable va : ℕ) (s : State) : Option UInt8 :=
  (userPage pagetable va s).map fun pa => s.byte (pa + va % PGSIZE)

/-- Writes through a page table: stores of the user, byte by byte, and `copyout`. -/
inductive WritesThrough (pagetable : ℕ) (s : State) : State → Prop
  | refl : WritesThrough pagetable s s
  | store {t : State} {va pa : ℕ} (b : UInt8) : WritesThrough pagetable s t →
      userPage pagetable va t = some pa →
      WritesThrough pagetable s (t.setBytes (pa + va % PGSIZE) [b])
  | copyout {t t' : State} {va : ℕ} {src : List UInt8} {ok : Bool} : WritesThrough pagetable s t →
      va < 2 ^ 64 → copyout pagetable va src t = .ok ok t' → WritesThrough pagetable s t'

/-- Writes through a page table change user pages of its address space only. -/
theorem WritesThrough.effect (h : WritesThrough (pg r) s t) (hm : Memory k own L s)
    (hs : Space own L r n (trampEntry k) (trapEntry u)) : Effect k r own L s own L t := by
  induction h with
  | refl => exact .refl hm r
  | @store t va pa b _ hpage ih =>
    obtain ⟨v, w, rfl, hw⟩ := hs.user_of_userPage ih.memory hpage
    exact ih.trans ((pageSet_setBytes t (Nat.mod_lt _ (by decide)) [b]).effect ih.memory hw)
  | copyout _ hva hrun ih =>
    exact ih.trans ((hs.copyout_effect (E := fun _ _ => True) ih.memory hva _).of_ok hrun)

theorem Space.userByte_frame (hs : Space own L r n (trampEntry k) (trapEntry u))
    (hm : Memory k own L s) (he : Effect k r' own L s own L t) (hne : r ≠ r') (va : ℕ) :
    userByte (pg r) va t = userByte (pg r) va s := by
  have hpage : userPage (pg r) va t = userPage (pg r) va s := by
    by_cases hva : va < MAXVA
    · rw [userPage, userPage, translation_congr hm he.memory hs.root hs.root hva rfl]
    · have hnone : ∀ {s : State}, userPage (pg r) va s = none := by
        intro s
        cases hpage : userPage (pg r) va s with
        | none => rfl
        | some pa => exact absurd (accessible_iff.2 ⟨pa, hpage⟩).1 hva
      rw [hnone, hnone]
  rw [userByte, userByte, hpage]
  cases hpa : userPage (pg r) va s with
  | none => rfl
  | some pa =>
    obtain ⟨v, w, rfl, hw⟩ := hs.user_of_userPage hm hpa
    have hdiv : (pg w + va % PGSIZE) / PGSIZE = w := by
      have := Nat.mod_lt va (show 0 < PGSIZE by decide)
      unfold pg PGSIZE at *
      omega
    have hof : ¬ (own w).of r' := by
      rw [hw]
      exact hne
    rw [Option.map_some, Option.map_some, State.byte, State.byte, hdiv,
      he.frame.mem w (by rw [hw]; simp) hof]

/-! ### The new process -/

/-- Slot `np` holds a copy of process `p`, as it was in `s`: the same bytes with the same
flags and the same registers but for `a0`. From then on neither sees what is written
through the page table of the other. -/
structure ForkOf (p np : ℕ) (s t : State) : Prop where
  size : (t.proc.get np).sz = (s.proc.get p).sz
  parent : (t.proc.get np).parent = some p
  same : t.proc.get p = s.proc.get p
  bytes : ∀ va, va < PGROUNDUP (s.proc.get p).sz →
    vmByte (t.proc.get np).pagetable va t = vmByte (s.proc.get p).pagetable va s ∧
    vmByte (t.proc.get p).pagetable va t = vmByte (s.proc.get p).pagetable va s
  flags : ∀ va, va < PGROUNDUP (s.proc.get p).sz →
    (translation (t.proc.get np).pagetable va t).map PTE_FLAGS =
      (translation (s.proc.get p).pagetable va s).map PTE_FLAGS
  regs : ∀ i, 8 * i < trapframeSize → t.load ((t.proc.get np).trapframe + 8 * i) 8 =
    if 8 * i = a0Off then 0 else s.load ((s.proc.get p).trapframe + 8 * i) 8
  ofChild : ∀ t', WritesThrough (t.proc.get np).pagetable t t' → ∀ va,
    userByte (t.proc.get p).pagetable va t' = userByte (t.proc.get p).pagetable va t
  ofParent : ∀ t', WritesThrough (t.proc.get p).pagetable t t' → ∀ va,
    userByte (t.proc.get np).pagetable va t' = userByte (t.proc.get np).pagetable va t

theorem Copied.view (h : Copied r r' j L s) (hm : Memory k own L s)
    (hs : Space own L r j tramp trap) (hs' : Space own L r' j tramp' trap') (hva : va < pg j) :
    vmByte (pg r') va s = vmByte (pg r) va s ∧
      (translation (pg r') va s).map PTE_FLAGS = (translation (pg r) va s).map PTE_FLAGS := by
  have hmax := hs.lt_maxva hm hva
  have hv : va / PGSIZE < j := by
    unfold pg PGSIZE at *
    omega
  obtain ⟨u, u', f, hf, hu, hu', hbytes⟩ := h _ hv
  obtain ⟨w, g, hw⟩ := hs.page _ hv
  obtain ⟨w', g', hw'⟩ := hs'.page _ hv
  obtain ⟨rfl, rfl⟩ := (pte_inj hf hw.lt).1 (hu.symm.trans hw.entry)
  obtain ⟨rfl, rfl⟩ := (pte_inj hf hw'.lt).1 (hu'.symm.trans hw'.entry)
  rw [hw.vmByte_eq hm hs.root hmax, hw'.vmByte_eq hm hs'.root hmax,
    hbytes _ (Nat.mod_lt _ (by decide)), hw.translation_eq hm hs.root hmax,
    hw'.translation_eq hm hs'.root hmax, Option.map_some, Option.map_some, PTE_FLAGS_pte hf,
    PTE_FLAGS_pte hf]
  exact ⟨rfl, rfl⟩

structure OnlySlot (np : ℕ) (s t : State) : Prop where
  mem : t.mem = s.mem
  freelist : t.freelist = s.freelist
  others : ∀ q, q ≠ np → t.proc.get q = s.proc.get q
  pagetable : (t.proc.get np).pagetable = (s.proc.get np).pagetable
  trapframe : (t.proc.get np).trapframe = (s.proc.get np).trapframe
  size : (t.proc.get np).sz = (s.proc.get np).sz
  pid : (t.proc.get np).pid = (s.proc.get np).pid

theorem OnlySlot.refl (np : ℕ) (s : State) : OnlySlot np s s :=
  ⟨rfl, rfl, fun _ _ => rfl, rfl, rfl, rfl, rfl⟩

theorem OnlySlot.trans {t' : State} (h : OnlySlot np s t) (h' : OnlySlot np t t') :
    OnlySlot np s t' :=
  ⟨h'.mem.trans h.mem, h'.freelist.trans h.freelist,
    fun q hq => (h'.others q hq).trans (h.others q hq), h'.pagetable.trans h.pagetable,
    h'.trapframe.trans h.trapframe, h'.size.trans h.size, h'.pid.trans h.pid⟩

theorem forkFiles_spec (n : ℕ) : ∀ {s i},
    Post (forkFiles p np n i) s (fun _ t => OnlySlot np s t) fun _ _ => True := by
  induction n with
  | zero => exact fun {s i} => post_pure.2 (.refl np s)
  | succ n ih =>
    intro s i
    simp only [forkFiles, getProc, post_bind, post_get, post_pure]
    cases (s.proc.get p).ofile.get i with
    | none => exact ih
    | some f =>
      simp only [filedup, getFile, modifyFile, modifyProc, panic, post_bind, post_get, post_pure,
        post_ite, post_throw, post_modify]
      refine ⟨fun _ => trivial, fun _ => ih.imp fun _ t ht => .trans ?_ ht⟩
      exact ⟨rfl, rfl, fun q hq => TMap.get_set_ne _ _ hq, by rw [TMap.get_set_self],
        by rw [TMap.get_set_self], by rw [TMap.get_set_self], by rw [TMap.get_set_self]⟩

theorem Space.keep (h : Space own L r n tramp trap) (huse : ∀ q, own q ≠ .free → own' q = own q)
    (hnew : ∀ q v, own q = .free → own' q ≠ .user r v) (hL : L' r = L r) :
    Space own' L' r n tramp trap := by
  have hiff : ∀ q v, own' q = .user r v ↔ own q = .user r v := by
    intro q v
    by_cases hq : own q = .free
    · rw [hq]
      exact iff_of_false (hnew q v hq) (by simp)
    · rw [huse q hq]
  refine ⟨?_, fun v hv => ?_, fun q v hq => h.only q v ((hiff q v).1 hq), fun v hv hv' => ?_⟩
  · rw [huse r (by rw [h.root]; simp), h.root]
  · obtain ⟨u, f, hu⟩ := h.page v hv
    exact ⟨u, f, by rw [hL, hu.entry], fun q => (hiff q v).trans (hu.owner q), hu.flags⟩
  · rw [hL, h.top v hv hv']

theorem fork_trapframe (u u' : ℕ) (s : State) {i : ℕ} (hi : 8 * i < trapframeSize) :
    entry ((s.setBytes (pg u') (s.bytes (pg u) trapframeSize)).store (pg u' + a0Off) 8 0).mem u' i =
      if 8 * i = a0Off then 0 else entry s.mem u i := by
  have hwords : a0Off = 8 * 14 ∧ trapframeSize = 8 * 36 := by decide
  rw [hwords.1, entry_store _ (by decide) (by decide)]
  by_cases h14 : i = 14
  · rw [if_pos ⟨rfl, h14⟩, if_pos (by omega)]
  · rw [if_neg fun h => h14 h.2, if_neg (by omega)]
    exact Bytes.getLE_congr fun x hx => get_memmove s (by omega)

theorem fork_only {q : ℕ} (s : State) (hq : q ≠ u') :
    ((s.setBytes (pg u') (s.bytes (pg u) trapframeSize)).store (pg u' + a0Off) 8 0).mem.get q =
      s.mem.get q := by
  rw [show a0Off = 8 * 14 from rfl, mem_store_ne _ (by decide) hq, mem_setBytes_ne _ _ hq]

theorem fork_record (s : State) :
    ((s.setBytes (pg u') (s.bytes (pg u) trapframeSize)).store (pg u' + a0Off) 8 0).proc = s.proc :=
  rfl

theorem Running.forkOf (h : Running k own L p r u s) (hrr : r ≠ r') (hm : Memory k own' L' t)
    (hs : Space own' L' r (pages (s.proc.get p).sz) (trampEntry k) (trapEntry u))
    (hs' : Space own' L' r' (pages (s.proc.get p).sz) (trampEntry k) (trapEntry u'))
    (hcopy : Copied r r' (pages (s.proc.get p).sz) L' t)
    (hst : Steady r (pages (s.proc.get p).sz) own L s L' t) (hsame : t.proc.get p = s.proc.get p)
    (hpt : (t.proc.get np).pagetable = pg r') (htf : (t.proc.get np).trapframe = pg u')
    (hsz : (t.proc.get np).sz = (s.proc.get p).sz) (hparent : (t.proc.get np).parent = some p)
    (hregs : ∀ i, 8 * i < trapframeSize →
      entry t.mem u' i = if 8 * i = a0Off then 0 else entry s.mem u i) : ForkOf p np s t := by
  have hround : PGROUNDUP (s.proc.get p).sz = pg (pages (s.proc.get p).sz) := by
    have := h.space.size_le h.memory
    exact PGROUNDUP_eq (by unfold PHYSTOP KERNBASE PGSIZE at *; omega)
  have hparentpt : (t.proc.get p).pagetable = pg r := by rw [hsame, h.pagetable]
  constructor
  · exact hsz
  · exact hparent
  · exact hsame
  · intro va hva
    rw [hround] at hva
    have hold := h.space.vmByte_steady h.memory hm hs.root hst le_rfl hva
    rw [hpt, hparentpt, h.pagetable, (hcopy.view hm hs hs' hva).1]
    exact ⟨hold, hold⟩
  · intro va hva
    rw [hround] at hva
    rw [hpt, h.pagetable, (hcopy.view hm hs hs' hva).2,
      h.space.translation_steady h.memory hs hm hst (hs.lt_maxva hm hva)]
  · intro i hi
    have hi512 : i < 512 := by
      unfold trapframeSize at hi
      omega
    rw [htf, h.trapframe, load_entry t u' hi512, load_entry s u hi512, hregs i hi]
  · intro t' hw va
    rw [hpt] at hw
    rw [hparentpt]
    exact hs.userByte_frame hm (hw.effect hm hs') hrr va
  · intro t' hw va
    rw [hparentpt] at hw
    rw [hpt]
    exact hs'.userByte_frame hm (hw.effect hm hs) hrr.symm va

theorem fork_spec (h : Running k own L p r u s) (hp : (s.proc.get p).state ≠ .unused) :
    Post (fork k p) s (fun ret t => ret ≠ -1 →
      ∃ np, np ≠ p ∧ (t.proc.get np).pid = ret ∧ ForkOf p np s t) fun _ _ => True := by
  simp only [fork, post_bind]
  refine (allocproc_spec h.memory h.rooted h.tramp).imp ?_
  intro res t₁ ha
  cases res with
  | none => exact post_pure.2 fun hne => absurd rfl hne
  | some np =>
    obtain ⟨own₁, L₁, r', u', ha⟩ := ha np rfl
    have hnp : p ≠ np := by
      rintro rfl
      exact hp ha.unused
    have hrr : r ≠ r' := by
      rintro rfl
      have := h.space.root
      rw [ha.fresh.1] at this
      cases this
    have hs₁ : Space own₁ L₁ r (pages (s.proc.get p).sz) (trampEntry k) (trapEntry u) := by
      refine h.space.keep (fun q hq => (ha.keep q hq).1) (fun q v hq hv => ?_)
        (ha.maps r h.space.root)
      rcases ha.new q hq with h' | h' | h' <;> rw [hv] at h'
      · cases h'
      · exact hrr h'
      · cases h'
    simp only [getProc, readBytes, writeBytes, write64, modifyProc, post_bind, post_get, post_pure,
      post_ite, post_modify, ha.others p hnp, ha.proc, h.pagetable, h.trapframe]
    refine (uvmcopy_spec hrr ha.memory hs₁ ha.space).imp ?_
    rintro ok t₂ ⟨own₂, L₂, he₂, ⟨rfl, hs', hcopy⟩ | ⟨rfl, -⟩⟩
    · refine ⟨fun hf => Bool.noConfusion hf, fun _ => forkFiles_spec _ |>.imp ?_⟩
      intro _ t₆ hslot _
      have hproc₂ : t₂.proc = t₁.proc := he₂.frame.rest.proc
      have hself := hslot.pid
      have hsz := hslot.size
      have hpt := hslot.pagetable
      have htf := hslot.trapframe
      have hothers := hslot.others p hnp
      rw [fork_record, TMap.get_set_self, hproc₂, ha.proc] at hself hsz hpt htf
      rw [fork_record, TMap.get_set_ne _ _ hnp, hproc₂, ha.others p hnp] at hothers
      have honly : OnlyPage u' t₂ t₆ := by
        intro q hq
        rw [hslot.mem]
        exact fork_only _ hq
      have htrap : own₂ u' = .trapframe np := by
        rw [he₂.frame.use u' (by rw [ha.frame]; simp) (by rw [ha.frame]; exact id), ha.frame]
      have hmem : Memory k own₂ L₂ t₆ :=
        he₂.memory.write (by rw [htrap]; simp) (by rw [htrap]; simp) hslot.freelist honly
      have hstart : ∀ q, own q ≠ .free → ¬ (own q).of r' → q ≠ u' → t₆.mem.get q = s.mem.get q := by
        intro q hq hof hqu
        have hkeep := ha.keep q hq
        rw [honly q hqu, he₂.frame.mem q (by rw [hkeep.1]; exact hq) (by rw [hkeep.1]; exact hof),
          hkeep.2]
      refine ⟨np, hnp.symm, ?_, h.forkOf (t := { t₆ with proc := _ }) hrr (hmem.setProc _ _)
        (hs₁.frame he₂ hrr) hs' ?_ ?_ ?_ ?_ ?_ ?_ ?_ ?_⟩
      · rw [TMap.get_set_self, hself]
      · have hst : ∀ ρ, Steady ρ (pages (s.proc.get p).sz) own₂ L₂ t₂ L₂ t₆ := by
          refine fun ρ => ⟨fun _ _ => rfl, fun q v _ hq => honly q ?_⟩
          rintro rfl
          rw [htrap] at hq
          cases hq
        exact hcopy.steady (hs₁.frame he₂ hrr) hs' le_rfl ⟨(hst r).entry, (hst r).mem⟩
          ⟨(hst r').entry, (hst r').mem⟩
      · refine ⟨fun v _ => ?_, fun q v _ hq => hstart q (by rw [hq]; simp) (by rw [hq]; exact hrr) ?_⟩
        · rw [he₂.maps r hrr, ha.maps r h.space.root]
        · rintro rfl
          rw [ha.fresh.2] at hq
          cases hq
      · rw [TMap.get_set_ne _ _ hnp, hothers]
      · rw [TMap.get_set_self, hpt]
      · rw [TMap.get_set_self, htf]
      · rw [TMap.get_set_self, hsz]
      · rw [TMap.get_set_self]
      · intro i hi
        have huu : u ≠ u' := by
          rintro rfl
          have := h.frame
          rw [ha.fresh.2] at this
          cases this
        have hparent : t₂.mem.get u = s.mem.get u := by
          rw [← honly u huu]
          exact hstart u (by rw [h.frame]; simp) (by rw [h.frame]; exact id) huu
        show entry t₆.mem u' i = _
        rw [hslot.mem, fork_trapframe u u' _ hi]
        show (if 8 * i = a0Off then 0 else entry t₂.mem u i) = _
        rw [entry, entry, hparent]
    · exact ⟨fun _ => post_iff.2 ⟨fun _ _ _ hne => absurd rfl hne, fun _ _ _ => trivial⟩,
        fun hf => absurd rfl hf⟩

/-- A child that `fork` returns is a copy of its parent, isolated from it. -/
theorem fork_copies {ret : ℤ} (h : Running k own L p r u s) (hp : (s.proc.get p).state ≠ .unused)
    (hrun : fork k p s = .ok ret t) (hret : ret ≠ -1) :
    ∃ np, np ≠ p ∧ (t.proc.get np).pid = ret ∧ ForkOf p np s t :=
  (fork_spec h hp).of_ok hrun hret

/-- `fork`, with the state that the parent was in. -/
def forkState (k : Layout) (p : ℕ) : M (ProcState × ℤ) := do
  let x ← getProc p
  return (x.state, ← fork k p)

theorem forkState_ok {st : ProcState} {ret : ℤ} (h : returned (forkState k p s) = some (st, ret)) :
    (s.proc.get p).state = st ∧ ∃ t, fork k p s = .ok ret t := by
  obtain ⟨t, hrun⟩ := exists_of_returned h
  have hbind : EStateM.bind (fork k p) (fun ret => pure ((s.proc.get p).state, ret)) s =
      .ok (st, ret) t := hrun
  rw [EStateM.bind] at hbind
  cases hfork : fork k p s with
  | error e s' =>
    rw [hfork] at hbind
    cases hbind
  | ok ret' s' =>
    rw [hfork] at hbind
    cases hbind
    exact ⟨rfl, _, rfl⟩

/-- A process with a page forks. -/
theorem fork_copies_grownProc : ∃ own L r u t,
    Running ⟨KERNBASE, KERNBASE, KERNBASE⟩ own L 0 r u grownProc ∧
    (grownProc.proc.get 0).sz = 4096 ∧ (grownProc.proc.get 0).state ≠ .unused ∧
    fork ⟨KERNBASE, KERNBASE, KERNBASE⟩ 0 grownProc = .ok 2 t ∧
    ∃ np, np ≠ 0 ∧ (t.proc.get np).pid = 2 ∧ ForkOf 0 np grownProc t := by
  obtain ⟨own, L, r, u, h, hsz⟩ := grownProc_running
  obtain ⟨hused, t, hfork⟩ := forkState_ok (show returned
    (forkState ⟨KERNBASE, KERNBASE, KERNBASE⟩ 0 grownProc) = some (.used, 2) by decide +kernel)
  have hstate : (grownProc.proc.get 0).state ≠ .unused := by
    rw [hused]
    simp
  exact ⟨own, L, r, u, t, h, hsz, hstate, hfork, fork_copies h hstate hfork (by decide)⟩

end Vm
end Xv6
