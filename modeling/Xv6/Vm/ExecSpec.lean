import Xv6.Vm.SpaceAccess

/-!
`exec` on any file. It builds a new address space beside the old one, so that a failure,
wherever it comes, frees the new one and leaves the process as it was. The old one goes
only after the last step that can fail.
-/

namespace Xv6
namespace Vm

open Hoare

variable {k : Layout} {own own' own₀ : ℕ → Use} {L L' L₀ : ℕ → List ℕ → ℕ} {s t s₀ : State}
  {E : Panic → State → Prop} {p r r₀ n u u₀ sz : ℕ}

/-- Process `p` has an address space of its own, of its size, and a trapframe page. -/
structure Running (k : Layout) (own : ℕ → Use) (L : ℕ → List ℕ → ℕ) (p r u : ℕ) (s : State) :
    Prop where
  tramp : k.trampoline < 2 ^ 64
  memory : Memory k own L s
  rooted : Rooted own
  pagetable : (s.proc.get p).pagetable = pg r
  trapframe : (s.proc.get p).trapframe = pg u
  frame : own u = .trapframe p
  space : Space own L r (pages (s.proc.get p).sz) (trampEntry k) (trapEntry u)

/-! ### The program -/

theorem field_lt (hdr : List UInt8) (off n : ℕ) : field hdr off n < 256 ^ n := by
  refine (Bytes.ofLE_lt _).trans_le (Nat.pow_le_pow_right (by decide) ?_)
  rw [List.length_take]
  exact min_le_left _ _

theorem loadFrom_spec (ip : Contents) (m : ℕ) : ∀ {own L s off sz}, Memory k own L s →
    Space own L r (pages sz) (trampEntry k) (trapEntry u) → AllUser L r (pages sz) →
    Post (loadFrom k (pg r) ip m off sz) s (fun res t => ∃ own' L',
      Effect k r own L s own' L' t ∧
      Space own' L' r (pages res.1) (trampEntry k) (trapEntry u) ∧
      (res.2 = true → AllUser L' r (pages res.1))) E := by
  induction m with
  | zero =>
    intro own L s off sz hm hs hall
    exact post_pure.2 ⟨own, L, .refl hm r, hs, fun _ => hall⟩
  | succ m ih =>
    intro own L s off sz hm hs hall
    have hfail : ∃ own' L', Effect k r own L s own' L' s ∧
        Space own' L' r (pages sz) (trampEntry k) (trapEntry u) ∧
        (false = true → AllUser L' r (pages sz)) :=
      ⟨own, L, .refl hm r, hs, fun h => Bool.noConfusion h⟩
    simp only [loadFrom, post_bind, post_ite, post_pure]
    refine ⟨fun _ => hfail, fun _ => ⟨fun _ => ih hm hs hall, fun _ => ⟨fun _ => hfail, fun hfile =>
      ⟨fun _ => hfail, fun hwrap => ?_⟩⟩⟩⟩
    have hvaddr : (proghdr (ip.readi off proghdrSize)).vaddr < 2 ^ 64 := field_lt _ _ 8
    have hmemsz : (proghdr (ip.readi off proghdrSize)).memsz < 2 ^ 64 := field_lt _ _ 8
    generalize proghdr (ip.readi off proghdrSize) = ph at *
    refine (uvmalloc_spec hm hs).imp ?_
    rintro sz1 t ⟨own₁, L₁, he, ⟨hmax, hs₁, -, hext, -⟩ | ⟨rfl, -, hs₁, -⟩⟩
    · refine ⟨fun _ => ?_, fun _ => ⟨fun _ => ?_, fun halign => ?_⟩⟩
      · refine ⟨own₁, L₁, he, ?_, fun h => Bool.noConfusion h⟩
        have hsz : sz = sz1 := by omega
        rw [hsz]
        exact hs₁
      · exact ⟨own₁, L₁, he, hs₁, fun h => Bool.noConfusion h⟩
      · have hall₁ := hall.extends hext
        have hfit : ph.vaddr + ph.filesz % 2 ^ 32 ≤ pg (pages sz1) := by
          -- the check for wrap-around makes the end of the segment a number
          have hend : (ph.vaddr + ph.memsz) % 2 ^ 64 = ph.vaddr + ph.memsz := by
            omega
          rw [hend] at hmax
          have := le_pg_pages sz1
          have := Nat.mod_le ph.filesz (2 ^ 32)
          omega
        refine (loadseg_spec ip _ hs₁ he.memory hall₁ (by simpa using halign) hfit).imp ?_
        intro ok t₁ he₁
        refine ⟨fun _ => ?_, fun _ => ⟨own₁, L₁, he.trans he₁, hs₁, fun h => Bool.noConfusion h⟩⟩
        refine (ih he₁.memory hs₁ hall₁).imp ?_
        rintro res t₂ ⟨own₂, L₂, he₂, hrest⟩
        exact ⟨own₂, L₂, (he.trans he₁).trans he₂, hrest⟩
    · exact ⟨fun _ => ⟨own₁, L₁, he, hs₁, fun h => Bool.noConfusion h⟩, fun hne => absurd rfl hne⟩

/-! ### The stack -/

theorem pushArgs_spec (hs : Space own L r n (trampEntry k) (trapEntry u)) (stackbase : ℕ)
    (argv : List ℕ) : ∀ {s sp ustack}, Memory k own L s → sp < 2 ^ 64 →
    Post (pushArgs (pg r) stackbase argv sp ustack) s (fun res t => Effect k r own L s own L t ∧
      ∀ sp' ustack', res = some (sp', ustack') → sp' < 2 ^ 64) E := by
  induction argv with
  | nil =>
    intro s sp ustack hm hsp
    refine post_pure.2 ⟨.refl hm r, fun sp' ustack' heq => ?_⟩
    cases heq
    exact hsp
  | cons a argv ih =>
    intro s sp ustack hm hsp
    have hfail : ∀ {t}, Effect k r own L s own L t → Effect k r own L s own L t ∧
        ∀ sp' ustack', (none : Option (ℕ × List ℕ)) = some (sp', ustack') → sp' < 2 ^ 64 :=
      fun he => ⟨he, fun _ _ h => nomatch h⟩
    simp only [pushArgs, post_bind, post_ite, post_get, post_pure]
    refine ⟨fun _ => hfail (.refl hm r), fun _ => ⟨fun _ => hfail (.refl hm r), fun _ => ?_⟩⟩
    refine (hs.copyout_effect hm (by omega) _).imp fun ok t he => ⟨fun _ => ?_, fun _ => hfail he⟩
    refine (ih he.memory (by omega)).imp ?_
    rintro res t' ⟨he', hres⟩
    exact ⟨he.trans he', hres⟩

theorem pushStack_spec (hs : Space own L r n (trampEntry k) (trapEntry u)) (hm : Memory k own L s)
    (stackbase : ℕ) {sp : ℕ} (hsp : sp < 2 ^ 64) (argv : List ℕ) :
    Post (pushStack (pg r) stackbase sp argv) s (fun _ t => Effect k r own L s own L t) E := by
  simp only [pushStack, post_bind]
  refine (pushArgs_spec hs stackbase argv hm hsp).imp ?_
  rintro res t ⟨he, hres⟩
  cases res with
  | none => exact post_pure.2 he
  | some res =>
    have := hres res.1 res.2 rfl
    simp only [post_bind, post_ite, post_pure]
    refine ⟨fun _ => he, fun _ => ?_⟩
    exact (hs.copyout_effect he.memory (by omega) _).imp fun ok t' he' =>
      ⟨fun _ => he.trans he', fun _ => he.trans he'⟩

/-! ### The end -/

theorem Effect.record (h : Effect k r own L s own' L' t) (c : List FsCall) :
    Effect k r own L { s with fs := c } own' L' { t with fs := c } := by
  refine ⟨⟨h.memory.pages.congr (fun _ => Iff.rfl) (fun _ => Iff.rfl) rfl fun _ _ => rfl,
    h.memory.tables⟩, ⟨?_, h.frame.deny, h.frame.use, h.frame.mem, h.frame.new⟩, h.maps⟩
  have hrest := h.frame.rest
  exact ⟨hrest.kernelPagetable, hrest.proc, hrest.nextpid, hrest.ftable, rfl⟩

theorem write64_trapframe (i v : ℕ) (h : Memory k own L s) (hu : own u = .trapframe p)
    (hi : i < 512) :
    Post (write64 (pg u + 8 * i) v) s (fun _ t => Memory k own L t ∧ Rest s t ∧ OnlyPage u s t ∧
      (v < 2 ^ 64 → entry t.mem u i = v) ∧ ∀ j, j ≠ i → entry t.mem u j = entry s.mem u j) E := by
  refine post_modify.2 ⟨h.write (by rw [hu]; simp) (by rw [hu]; simp) rfl fun _ hq =>
    mem_store_ne s hi hq, ⟨rfl, rfl, rfl, rfl, rfl⟩, fun _ hq => mem_store_ne s hi hq,
    fun hv => ?_, fun j hj => ?_⟩
  · rw [entry_store s hi hv, if_pos ⟨rfl, rfl⟩]
  · rw [State.store, setBytes_pg s u (by unfold PGSIZE; omega), entry, TMap.get_set_self]
    exact Bytes.getLE_putLE_disjoint _ _ (by omega)

theorem Rooted.drop (h : Rooted own) (r : ℕ) : Rooted fun p => (own p).drop r := by
  intro p r' hp
  have hof : ¬ (own p).of r := by
    intro hof
    have hdrop := Use.drop_of hof
    simp only [hdrop] at hp
    exact hp
  simp only [Use.drop_not_of hof] at hp
  have hroot := h p r' hp
  show (own r').drop r = .table r' []
  rw [Use.drop_not_of, hroot]
  rw [hroot]
  rintro rfl
  exact hof hp

/-- The process has the address space `r` of `n` pages, as it was in the state `s`, and the
stack pointer `sp`, which is also its second argument. -/
structure Committed (p r u n sp : ℕ) (own : ℕ → Use) (L : ℕ → List ℕ → ℕ) (s : State)
    (own' : ℕ → Use) (L' : ℕ → List ℕ → ℕ) (t : State) : Prop where
  size : (t.proc.get p).sz = pg n
  maps : L' r = L r
  owner : ∀ q v, own' q = .user r v ↔ own q = .user r v
  mem : ∀ q v, own q = .user r v → t.mem.get q = s.mem.get q
  regs : sp < 2 ^ 64 → t.load (pg u + a1Off) 8 = sp ∧ t.load (pg u + spOff) 8 = sp

/-- The commit to the new image, which is behind all that can fail. -/
theorem exec_commit (path : List UInt8) (entry sp : ℕ) (argc : ℤ)
    (h : Running k own₀ L₀ p r₀ u s₀) (hr : own₀ r = .free)
    (he : Effect k r own₀ L₀ s₀ own L s)
    (hs : Space own L r n (trampEntry k) (trapEntry u)) :
    Post (do
      let x ← getProc p
      write64 (x.trapframe + a1Off) sp
      modifyProc p fun x => { x with name := procName path, pagetable := pg r, sz := pg n }
      write64 (x.trapframe + epcOff) entry
      write64 (x.trapframe + spOff) sp
      procFreepagetable k x.pagetable (s₀.proc.get p).sz
      return argc) s (fun ret t => ret = argc ∧ t.fs = s₀.fs ∧
        ∃ own' L', Running k own' L' p r u t ∧ Committed p r u n sp own L s own' L' t) E := by
  have hne : r₀ ≠ r := by
    rintro rfl
    have := h.space.root
    rw [hr] at this
    cases this
  have hu : own u = .trapframe p := by
    rw [he.frame.use u (by rw [h.frame]; simp) (by rw [h.frame]; exact id), h.frame]
  simp only [getProc, modifyProc, post_bind, post_get, post_pure, post_modify,
    he.frame.rest.proc, h.trapframe, h.pagetable]
  refine (write64_trapframe 15 sp he.memory hu (by decide)).imp ?_
  rintro _ t₁ ⟨hm₁, hrest₁, honly₁, hreg₁, -⟩
  refine (write64_trapframe 3 entry (hm₁.setProc _ _) hu (by decide)).imp ?_
  rintro _ t₂ ⟨hm₂, hrest₂, honly₂, -, hkeep₂⟩
  refine (write64_trapframe 6 sp hm₂ hu (by decide)).imp ?_
  rintro _ t₃ ⟨hm₃, hrest₃, honly₃, hreg₃, hkeep₃⟩
  refine (procFreepagetable_spec hm₃ (h.space.frame he hne)).imp ?_
  rintro _ t ⟨L', he'⟩
  have hproc : t.proc.get p = { s₀.proc.get p with
      name := procName path, pagetable := pg r, sz := pg n } := by
    rw [he'.frame.rest.proc, hrest₃.proc, hrest₂.proc, TMap.get_set_self, hrest₁.proc,
      he.frame.rest.proc]
  have hfs : t.fs = s₀.fs := by
    rw [he'.frame.rest.fs, hrest₃.fs, hrest₂.fs, hrest₁.fs, he.frame.rest.fs]
  refine ⟨trivial, hfs, fun q => (own q).drop r₀, L', ?_, ?_⟩
  · constructor
    · exact h.tramp
    · exact he'.memory
    · exact (he.frame.rooted h.rooted hs.root).drop r₀
    · rw [hproc]
    · rw [hproc]
      exact h.trapframe
    · show (own u).drop r₀ = .trapframe p
      rw [hu]
      rfl
    · rw [hproc, pages_pg]
      exact hs.frame he' hne.symm
  · have hkeep : ∀ q, own q ≠ .free → ¬ (own q).of r₀ → t.mem.get q = t₃.mem.get q :=
      he'.frame.mem
    constructor
    · rw [hproc]
    · exact he'.maps r hne.symm
    · intro q v
      exact he'.frame.iff_of_not (by simp) (by simpa [Use.of] using hne.symm)
    · intro q v hq
      have hqu : q ≠ u := by
        rintro rfl
        rw [hu] at hq
        cases hq
      have hof : ¬ (own q).of r₀ := by
        rw [hq]
        exact hne.symm
      rw [hkeep q (by rw [hq]; simp) hof, honly₃ q hqu, honly₂ q hqu, honly₁ q hqu]
    · intro hsp
      have hframe : t.mem.get u = t₃.mem.get u :=
        hkeep u (by rw [hu]; simp) (by rw [hu]; exact id)
      have hentry : ∀ j, Vm.entry t.mem u j = Vm.entry t₃.mem u j := by
        intro j
        rw [Vm.entry, hframe, Vm.entry]
      rw [show a1Off = 8 * 15 from rfl, show spOff = 8 * 6 from rfl, load_entry _ _ (by decide),
        load_entry _ _ (by decide), hentry, hentry]
      refine ⟨?_, hreg₃ hsp⟩
      rw [hkeep₃ 15 (by decide), hkeep₂ 15 (by decide)]
      exact hreg₁ hsp

/-! ### The new image -/

/-- What `exec` knows when it comes to the arguments. -/
structure Image where
  oldsz : ℕ
  pagetable : ℕ
  sz : ℕ
  entry : ℕ

/-- `execStack` up to the arguments. -/
def stackImage (k : Layout) (p entry pagetable sz : ℕ) : M (Option Image) := do
  let oldsz := (← getProc p).sz
  let sz := PGROUNDUP sz
  let sz1 ← uvmalloc k pagetable sz ((sz + 2 * PGSIZE) % 2 ^ 64)
  if sz1 = 0 then
    procFreepagetable k pagetable sz
    return none
  else
    uvmclear pagetable (sz1 - 2 * PGSIZE)
    return some ⟨oldsz, pagetable, sz1, entry⟩

/-- `exec` up to the arguments. -/
def execImage (k : Layout) (p : ℕ) (file : Option Contents) : M (Option Image) := do
  record .beginOp
  record .namei
  match file with
  | none =>
      record .endOp
      return none
  | some ip =>
      record .ilock
      let l := ip.readi 0 elfhdrSize
      let elf := elfhdr l
      if l.length ≠ elfhdrSize ∨ elf.magic ≠ ELF_MAGIC then
        execDone
        return none
      else
        let pagetable ← procPagetable k p
        if pagetable = 0 then
          execDone
          return none
        else
          let (sz, ok) ← loadFrom k pagetable ip elf.phnum (elf.phoff % 2 ^ 32) 0
          if ok then
            execDone
            stackImage k p elf.entry pagetable sz
          else
            procFreepagetable k pagetable sz
            execDone
            return none

/-- `exec` from the arguments on. -/
def execArgs (k : Layout) (p : ℕ) (path : List UInt8) (argv : List ℕ) : Option Image → M ℤ
  | none => return -1
  | some i => do
      match ← pushStack i.pagetable (i.sz - PGSIZE) i.sz argv with
      | none =>
          procFreepagetable k i.pagetable i.sz
          return -1
      | some sp =>
          let x ← getProc p
          write64 (x.trapframe + a1Off) sp
          modifyProc p fun x =>
            { x with name := procName path, pagetable := i.pagetable, sz := i.sz }
          write64 (x.trapframe + epcOff) i.entry
          write64 (x.trapframe + spOff) sp
          procFreepagetable k x.pagetable i.oldsz
          return argv.length

theorem ite_bind {ε σ α β : Type} {c : Prop} [Decidable c] (x y : EStateM ε σ α) (f : α → EStateM ε σ β) :
    (if c then x else y) >>= f = if c then x >>= f else y >>= f := by
  split <;> rfl

theorem execStack_eq (k : Layout) (p : ℕ) (path : List UInt8) (argv : List ℕ)
    (entry pagetable sz : ℕ) : execStack k p path argv entry pagetable sz =
      stackImage k p entry pagetable sz >>= execArgs k p path argv := by
  simp only [execStack, stackImage, bind_assoc, ite_bind, pure_bind]
  rfl

theorem exec_eq (k : Layout) (p : ℕ) (file : Option Contents) (path : List UInt8)
    (argv : List ℕ) : exec k p file path argv =
      execImage k p file >>= execArgs k p path argv := by
  cases file with
  | none => simp only [exec, execImage, bind_assoc, pure_bind, execArgs]
  | some ip =>
    simp only [exec, execImage, bind_assoc, ite_bind, pure_bind, execArgs, execStack_eq]

/-- The new image of process `p`, with `m` pages of program, a guard page and the stack
page, next to what was there before. -/
structure Imaged (k : Layout) (own₀ : ℕ → Use) (L₀ : ℕ → List ℕ → ℕ) (s₀ : State) (r u m : ℕ)
    (own : ℕ → Use) (L : ℕ → List ℕ → ℕ) (s : State) : Prop where
  free : own₀ r = .free
  effect : Effect k r own₀ L₀ s₀ own L s
  space : Space own L r (m + 2) (trampEntry k) (trapEntry u)
  guard : ∃ g, L r (vkey m) = pte g 15
  stack : ∃ w, L r (vkey (m + 1)) = pte w 31

theorem Imaged.discard {sz : ℕ} (h : Running k own₀ L₀ p r₀ u s₀) (hr : own₀ r = .free)
    (he : Effect k r own₀ L₀ s₀ own L s)
    (hs : Space own L r (pages sz) (trampEntry k) (trapEntry u)) :
    Post (procFreepagetable k (pg r) sz) s (fun _ t => ∃ L', Restored k own₀ L₀ s₀ L' t) E := by
  refine (procFreepagetable_spec he.memory hs).imp ?_
  rintro _ t ⟨L', he'⟩
  exact ⟨L', (he.trans he').restored h.rooted hr⟩

theorem stackImage_spec (entry : ℕ) (h : Running k own₀ L₀ p r₀ u s₀) (hr : own₀ r = .free)
    (he : Effect k r own₀ L₀ s₀ own L s)
    (hs : Space own L r (pages sz) (trampEntry k) (trapEntry u)) (hall : AllUser L r (pages sz)) :
    Post (stackImage k p entry (pg r) sz) s (fun res t =>
      res = none ∧ (∃ L', Restored k own₀ L₀ s₀ L' t) ∨
        ∃ own' L' m, res = some ⟨(s₀.proc.get p).sz, pg r, pg (m + 2), entry⟩ ∧
          Imaged k own₀ L₀ s₀ r u m own' L' t) E := by
  have hsize := hs.size_le he.memory
  have hround : PGROUNDUP sz = pg (pages sz) :=
    PGROUNDUP_eq (by unfold PHYSTOP KERNBASE PGSIZE at *; omega)
  have hgrow : (pg (pages sz) + 2 * PGSIZE) % 2 ^ 64 = pg (pages sz + 2) := by
    have := hs.small he.memory
    unfold pg PHYSTOP KERNBASE PGSIZE at *
    omega
  simp only [stackImage, getProc, post_bind, post_get, post_pure, post_ite, hround, hgrow,
    he.frame.rest.proc]
  have hs' : Space own L r (pages (pg (pages sz))) (trampEntry k) (trapEntry u) := by rwa [pages_pg]
  refine (uvmalloc_spec he.memory hs').imp ?_
  rintro sz1 t ⟨own₁, L₁, he₁, ⟨hmax, hs₁, -, hext, -⟩ | ⟨rfl, -, hs₁, -⟩⟩
  · have hsz1 : sz1 = pg (pages sz + 2) := by
      rw [hmax]
      refine max_eq_right ?_
      unfold pg
      exact Nat.mul_le_mul_right _ (by omega)
    rw [hsz1, pages_pg] at hs₁ hext
    rw [pages_pg] at hext
    rw [hsz1]
    have hall₁ := hall.extends hext
    refine ⟨fun h0 => absurd h0 (by unfold pg PGSIZE; omega), fun _ => ?_⟩
    rw [show pg (pages sz + 2) - 2 * PGSIZE = pg (pages sz) by unfold pg PGSIZE; omega]
    obtain ⟨g, hg⟩ := hall₁ (pages sz) (by omega)
    obtain ⟨w, hw⟩ := hall₁ (pages sz + 1) (by omega)
    have hlt := hs₁.lt_trapframe he₁.memory
    have hbig : trapPage < 2 ^ 26 := by decide
    refine (uvmclear_spec hs₁ he₁.memory (by omega) hg).imp ?_
    rintro _ t₂ ⟨he₂, hs₂⟩
    refine .inr ⟨_, _, pages sz, rfl, hr, (he.trans he₁).trans he₂, hs₂, ⟨g, setL_self _ _ _ _⟩, w, ?_⟩
    rw [setL_ne fun hkey => absurd (vkey_inj (by omega) (by omega) hkey) (by omega), hw]
  · exact ⟨fun _ => (Imaged.discard h hr (he.trans he₁) hs₁).imp
      fun _ t' hrest => .inl ⟨trivial, hrest⟩, fun hne => absurd rfl hne⟩

/-- `exec` from the arguments on: it fails and frees the new address space, or the process
gets it. -/
theorem execArgs_spec {m : ℕ} (path : List UInt8) (argv : List ℕ) (entry : ℕ)
    (h : Running k own₀ L₀ p r₀ u s₀) (hi : Imaged k own₀ L₀ s₀ r u m own L s) :
    Post (execArgs k p path argv (some ⟨(s₀.proc.get p).sz, pg r, pg (m + 2), entry⟩)) s
      (fun ret t => ret = -1 ∧ (∃ L', Restored k own₀ L₀ s₀ L' t) ∨
        ret = argv.length ∧ t.fs = s₀.fs ∧ ∃ own' L', Running k own' L' p r u t) E := by
  have hsmall := hi.space.small hi.effect.memory
  simp only [execArgs, post_bind]
  refine (pushStack_spec hi.space hi.effect.memory _
    (by unfold pg PHYSTOP KERNBASE PGSIZE at *; omega) argv).imp ?_
  intro res t he
  have he' := hi.effect.trans he
  cases res with
  | none =>
    exact (Imaged.discard h hi.free he' (by rw [pages_pg]; exact hi.space)).seq
      fun _ t' hrest => post_pure.2 (.inl ⟨rfl, hrest⟩)
  | some sp =>
    refine (exec_commit path entry sp argv.length h hi.free he' hi.space).imp ?_
    rintro ret t' ⟨hret, hfs, own', L', hrun, -⟩
    exact .inr ⟨hret, hfs, own', L', hrun⟩

theorem Space.restored {tramp trap : ℕ} (h : Space own L r n tramp trap)
    (hrest : Restored k own L s L' t) : Space own L' r n tramp trap := by
  have hmaps := hrest.maps r h.root
  refine ⟨h.root, fun v hv => ?_, h.only, fun v hv hv' => ?_⟩
  · obtain ⟨u, f, hu⟩ := h.page v hv
    exact ⟨u, f, by rw [hmaps, hu.entry], hu.owner, hu.flags⟩
  · rw [hmaps, h.top v hv hv']

/-! ### `exec` -/

def execCalls : Option Contents → List FsCall
  | none => [.endOp, .namei, .beginOp]
  | some _ => [.endOp, .iunlockput, .ilock, .namei, .beginOp]

theorem Running.record (h : Running k own L p r u s) (c : List FsCall) :
    Running k own L p r u { s with fs := c } :=
  ⟨h.tramp, ((Effect.refl h.memory 0).record c).memory, h.rooted, h.pagetable, h.trapframe,
    h.frame, h.space⟩

theorem Restored.record (h : Restored k own L s L' t) (c : List FsCall) :
    Restored k own L { s with fs := c } L' { t with fs := c } := by
  have hrest := h.rest
  exact ⟨((Effect.refl h.memory 0).record c).memory, ⟨hrest.kernelPagetable, hrest.proc,
    hrest.nextpid, hrest.ftable, rfl⟩, h.mem, h.maps⟩

/-- The new image, or the state that `exec` fails in. -/
theorem execImage_spec (h : Running k own L p r u s) (file : Option Contents) :
    Post (execImage k p file) s (fun res t => t.fs = execCalls file ++ s.fs ∧
      (res = none ∧ (∃ L', Restored k own L { s with fs := execCalls file ++ s.fs } L' t) ∨
        ∃ own' L' r' m entry, res = some ⟨(s.proc.get p).sz, pg r', pg (m + 2), entry⟩ ∧
          Imaged k own L { s with fs := execCalls file ++ s.fs } r' u m own' L' t)) E := by
  have hu52 := h.memory.pages.small (p := u) (by rw [h.frame]; simp)
  have hkeep : ∀ c, ∃ L', Restored k own L { s with fs := c } L' { s with fs := c } := fun c =>
    ⟨L, (h.record c).memory, .refl _, fun _ _ => rfl, fun _ _ => rfl⟩
  have hopen := h.record (.ilock :: .namei :: .beginOp :: s.fs)
  simp only [execImage, execDone, Vm.record, post_bind, post_modify]
  cases file with
  | none =>
    simp only [post_bind, post_modify, post_pure]
    exact ⟨rfl, .inl ⟨trivial, hkeep _⟩⟩
  | some ip =>
    simp only [post_bind, post_modify, post_pure, post_ite]
    refine ⟨fun _ => ⟨rfl, .inl ⟨trivial, hkeep _⟩⟩, fun _ => ?_⟩
    refine (procPagetable_spec hopen.memory h.rooted h.tramp hopen.trapframe hu52).imp ?_
    rintro a t (⟨rfl, L', hrest⟩ | ⟨r', own', L', rfl, hr0, hfree, he, hs⟩)
    · rw [hrest.rest.fs]
      exact ⟨fun _ => ⟨rfl, .inl ⟨trivial, L', hrest.record _⟩⟩, fun hne => absurd rfl hne⟩
    · refine ⟨fun h0 => absurd h0 hr0, fun _ => ?_⟩
      have hzero : pages 0 = 0 := by decide
      have hall : AllUser L' r' (pages 0) := fun v hv => absurd hv (by rw [hzero]; omega)
      refine (loadFrom_spec ip _ he.memory (by rwa [hzero]) hall).imp ?_
      rintro ⟨sz, ok⟩ t₁ ⟨own₁, L₁, he₁, hs₁, hall₁⟩
      have he' := he.trans he₁
      refine ⟨fun hok => ?_, fun _ => ?_⟩
      · rw [he'.frame.rest.fs]
        refine (stackImage_spec _ (h.record _) hfree (he'.record _) hs₁ (hall₁ hok)).imp ?_
        rintro res t₂ (⟨hres, L₂, hrest⟩ | ⟨own₂, L₂, m, hres, hi⟩)
        · exact ⟨hrest.rest.fs, .inl ⟨hres, L₂, hrest⟩⟩
        · exact ⟨hi.effect.frame.rest.fs, .inr ⟨own₂, L₂, r', m, _, hres, hi⟩⟩
      · refine (procFreepagetable_spec he'.memory hs₁).imp ?_
        rintro _ t₂ ⟨L₂, he₂⟩
        have hrest := (he'.trans he₂).restored h.rooted hfree
        rw [hrest.rest.fs]
        exact ⟨rfl, .inl ⟨trivial, L₂, hrest.record _⟩⟩

theorem exec_spec (h : Running k own L p r u s) (file : Option Contents) (path : List UInt8)
    (argv : List ℕ) :
    Post (exec k p file path argv) s (fun ret t => t.fs = execCalls file ++ s.fs ∧
      (ret = -1 ∧ (∃ L', Restored k own L { s with fs := execCalls file ++ s.fs } L' t) ∨
        ret = argv.length ∧ ∃ own' L' r', Running k own' L' p r' u t)) E := by
  rw [exec_eq, post_bind]
  refine (execImage_spec h file).imp ?_
  rintro res t ⟨hfs, ⟨rfl, hrest⟩ | ⟨own', L', r', m, entry, rfl, hi⟩⟩
  · exact post_pure.2 ⟨hfs, .inl ⟨rfl, hrest⟩⟩
  · refine (execArgs_spec path argv entry (h.record _) hi).imp ?_
    rintro ret t' (⟨hret, L'', hrest⟩ | ⟨hret, hfs', own'', L'', hrun⟩)
    · exact ⟨hrest.rest.fs, .inl ⟨hret, L'', hrest⟩⟩
    · exact ⟨hfs', .inr ⟨hret, own'', L'', r', hrun⟩⟩

/-- `exec` never panics, and leaves the process alone when it fails. -/
theorem exec_atomic (h : Running k own L p r u s) (file : Option Contents) (path : List UInt8)
    (argv : List ℕ) : ∃ ret t, exec k p file path argv s = .ok ret t ∧
      t.fs = execCalls file ++ s.fs ∧
      (ret = -1 → t.proc = s.proc ∧ t.ftable = s.ftable ∧
        (∀ q, own q ≠ .free → t.mem.get q = s.mem.get q) ∧
        ∃ L', Running k own L' p r u t ∧ L' r = L r) := by
  obtain ⟨ret, t, hrun, hfs, hend⟩ := (exec_spec h file path argv).returns
  refine ⟨ret, t, hrun, hfs, fun hret => ?_⟩
  obtain ⟨-, L', hrest⟩ | ⟨hlen, -⟩ := hend
  · have hproc : t.proc = s.proc := hrest.rest.proc
    refine ⟨hproc, hrest.rest.ftable, hrest.mem, L', ⟨h.tramp, hrest.memory, h.rooted, ?_, ?_,
      h.frame, ?_⟩, hrest.maps r h.space.root⟩
    · rw [hproc, h.pagetable]
    · rw [hproc, h.trapframe]
    · rw [hproc]
      exact h.space.restored hrest
  · omega

theorem allocproc_running (h : Memory k own L s) (ho : Rooted own) (hk : k.trampoline < 2 ^ 64)
    (h0 : ∀ q, (s.proc.get q).sz = 0) :
    Post (allocproc k) s (fun res t => ∀ p, res = some p → ∃ own' L' r u,
      Running k own' L' p r u t ∧ (t.proc.get p).sz = 0 ∧ ∀ q, own q = .held → own' q = .held)
      fun _ _ => True := by
  refine (allocproc_spec h ho hk).imp fun res t hres p hp => ?_
  obtain ⟨own', L', r, u, ha⟩ := hres p hp
  refine ⟨own', L', r, u, ⟨hk, ha.memory, ha.rooted, ?_, ?_, ha.frame, ?_⟩, ?_, fun q hq => ?_⟩
  · rw [ha.proc]
  · rw [ha.proc]
  · rw [ha.proc, h0 p]
    exact ha.space
  · rw [ha.proc, h0 p]
  · rw [(ha.keep q (by rw [hq]; simp)).1, hq]

def oneProc : State := final (allocproc ⟨KERNBASE, KERNBASE, KERNBASE⟩ manyFree)

theorem allocproc_manyFree :
    allocproc ⟨KERNBASE, KERNBASE, KERNBASE⟩ manyFree = .ok (some 0) oneProc :=
  eq_ok_of_returned (by decide +kernel)

theorem oneProc_running : ∃ own L r u,
    Running ⟨KERNBASE, KERNBASE, KERNBASE⟩ own L 0 r u oneProc ∧ (oneProc.proc.get 0).sz = 0 ∧
      own 0x80000 = .held := by
  obtain ⟨own, hm, ho, hheld⟩ := memory_of_freelist (k := ⟨KERNBASE, KERNBASE, KERNBASE⟩)
    (by decide) manyFree_chain (by decide) (by decide)
  have hproc : ∀ q, (manyFree.proc.get q).sz = 0 := by
    intro q
    rw [show manyFree.proc = .empty from rfl, TMap.get_empty]
    rfl
  have hpost := allocproc_running hm ho (by decide) hproc
  obtain ⟨own', L, r, u, h, hsz, hkeep⟩ := hpost.of_ok allocproc_manyFree 0 rfl
  exact ⟨own', L, r, u, h, hsz, hkeep _ (hheld 0x80000 (by decide) (by decide) (by decide))⟩

/-- An ELF header, with the program headers right behind it. -/
def elfBytes (phnum : ℕ) : Bytes :=
  ((Bytes.putLE .empty 0 4 ELF_MAGIC).putLE 32 8 elfhdrSize).putLE 56 2 phnum

/-- The first of two segments can be loaded, the second is larger in the file than in memory. -/
def halfElf : Contents :=
  ⟨elfhdrSize + 2 * proghdrSize,
    (((((elfBytes 2).putLE 64 4 ELF_PROG_LOAD).putLE 96 8 4).putLE 104 8 PGSIZE).putLE
      120 4 ELF_PROG_LOAD).putLE 152 8 1⟩

/-- The part of `exec` that loads the segments. -/
def loadAll (k : Layout) (p : ℕ) (ip : Contents) : M (ℕ × ℕ × Bool) := do
  let pagetable ← procPagetable k p
  let elf := elfhdr (ip.readi 0 elfhdrSize)
  return (pagetable, ← loadFrom k pagetable ip elf.phnum (elf.phoff % 2 ^ 32) 0)

theorem execImage_of_load {ip : Contents} (h : Post (loadAll k p ip)
      { s with fs := .ilock :: .namei :: .beginOp :: s.fs } (fun res _ => res.2.2 = false)
      fun _ _ => True) :
    Post (execImage k p (some ip)) s (fun res _ => res = none) fun _ _ => True := by
  simp only [loadAll, post_bind, post_pure] at h
  simp only [execImage, execDone, Vm.record, post_bind, post_modify, post_pure, post_ite]
  refine ⟨fun _ => trivial, fun _ => h.imp fun pagetable t₁ h₁ => ⟨fun _ => trivial, fun _ => ?_⟩⟩
  refine h₁.imp fun res t₂ hfail => ⟨fun hok => ?_, fun _ => ?_⟩
  · rw [hfail] at hok
    cases hok
  · exact post_iff.2 ⟨fun _ _ _ => trivial, fun _ _ _ => trivial⟩

/-- The process tries to execute this file. -/
theorem exec_atomic_halfElf : ∃ own L r u,
    Running ⟨KERNBASE, KERNBASE, KERNBASE⟩ own L 0 r u oneProc ∧
    ∃ t, exec ⟨KERNBASE, KERNBASE, KERNBASE⟩ 0 (some halfElf) [] [] oneProc = .ok (-1) t ∧
      t.fs = execCalls (some halfElf) ++ oneProc.fs ∧ t.proc = oneProc.proc ∧
      t.ftable = oneProc.ftable ∧ (∀ q, own q ≠ .free → t.mem.get q = oneProc.mem.get q) ∧
      ∃ L', Running ⟨KERNBASE, KERNBASE, KERNBASE⟩ own L' 0 r u t ∧ L' r = L r := by
  obtain ⟨own, L, r, u, h, -⟩ := oneProc_running
  obtain ⟨ret, t, hrun, hfs, hfail⟩ := exec_atomic h (some halfElf) [] []
  obtain ⟨t₁, hload⟩ := exists_of_returned (show returned
    (loadAll ⟨KERNBASE, KERNBASE, KERNBASE⟩ 0 halfElf
      { oneProc with fs := .ilock :: .namei :: .beginOp :: oneProc.fs }) =
      some (pg 0x87fec, PGSIZE, false) by decide +kernel)
  have hret : Post (exec ⟨KERNBASE, KERNBASE, KERNBASE⟩ 0 (some halfElf) [] []) oneProc
      (fun ret _ => ret = -1) fun _ _ => True := by
    rw [exec_eq]
    refine (execImage_of_load (post_of_ok hload rfl)).seq fun res t hres => ?_
    rw [hres]
    exact post_pure.2 rfl
  obtain rfl : ret = -1 := hret.of_ok hrun
  exact ⟨own, L, r, u, h, t, hrun, hfs, hfail rfl⟩

end Vm
end Xv6
