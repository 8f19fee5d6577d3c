import Xv6.Vm.Growproc

/-!
The address space of a process over a run of the system calls that change it.
-/

namespace Xv6
namespace Vm

open Hoare

inductive Call
  | sbrk (n : ℤ)
  | exec (file : Option Contents) (path : List UInt8) (argv : List ℕ)

namespace Call

def run (k : Layout) (p : ℕ) : Call → M ℤ
  | sbrk n => sysSbrk k p n
  | exec file path argv => Vm.exec k p file path argv

/-- The argument of `sbrk` is an `int`. -/
def Valid : Call → Prop
  | sbrk n => -2 ^ 31 ≤ n ∧ n < 2 ^ 31
  | exec _ _ _ => True

end Call

def runCalls (k : Layout) (p : ℕ) : List Call → M (List ℤ)
  | [] => return []
  | c :: cs => do
      let ret ← c.run k p
      return ret :: (← runCalls k p cs)

/-- What the page table of a process maps below its trapframe: a page of its own at each user
page, and nothing above the size. -/
structure Exact (p : ℕ) (s : State) : Prop where
  mapped : ∀ va, va < PGROUNDUP (s.proc.get p).sz →
    (translation (s.proc.get p).pagetable va s).isSome = true
  apart : ∀ va va' e e', va < PGROUNDUP (s.proc.get p).sz → va' < PGROUNDUP (s.proc.get p).sz →
    translation (s.proc.get p).pagetable va s = some e →
    translation (s.proc.get p).pagetable va' s = some e' → PTE2PA e = PTE2PA e' →
    va / PGSIZE = va' / PGSIZE
  unmapped : ∀ va, PGROUNDUP (s.proc.get p).sz ≤ va → va < TRAPFRAME →
    translation (s.proc.get p).pagetable va s = none

section
variable {k : Layout} {own : ℕ → Use} {L L' : ℕ → List ℕ → ℕ} {s t : State}
  {E : Panic → State → Prop} {p r u : ℕ}

theorem Running.exact (h : Running k own L p r u s) : Exact p s := by
  have hround : PGROUNDUP (s.proc.get p).sz = pg (pages (s.proc.get p).sz) := by
    have := h.space.size_le h.memory
    exact PGROUNDUP_eq (by unfold PHYSTOP KERNBASE PGSIZE at *; omega)
  have hpage : ∀ va, va < pg (pages (s.proc.get p).sz) → ∃ w f,
      translation (pg r) va s = some (pte w f) ∧ own w = .user r (va / PGSIZE) ∧
        PTE2PA (pte w f) = pg w := by
    intro va hva
    obtain ⟨w, f, hw⟩ := h.space.page (va / PGSIZE) (by unfold pg PGSIZE at *; omega)
    have hsmall := h.memory.pages.small (p := w) (by rw [hw.user]; simp)
    exact ⟨w, f, hw.translation_eq h.memory h.space.root (h.space.lt_maxva h.memory hva), hw.user,
      PTE2PA_pte hsmall hw.lt⟩
  constructor <;> rw [hround, h.pagetable]
  · intro va hva
    obtain ⟨w, f, hw, -⟩ := hpage va hva
    rw [hw, Option.isSome_some]
  · intro va va' e e' hva hva' he he' hpa
    obtain ⟨w, f, hw, huse, hpte⟩ := hpage va hva
    obtain ⟨w', f', hw', huse', hpte'⟩ := hpage va' hva'
    rw [hw] at he
    rw [hw'] at he'
    cases he
    cases he'
    have hww : w = w' := by
      rw [hpte, hpte'] at hpa
      unfold pg PGSIZE at hpa
      omega
    rw [hww, huse'] at huse
    exact (Use.user.inj huse).2.symm
  · intro va hva htrap
    have hpg : pages (s.proc.get p).sz ≤ va / PGSIZE ∧ va / PGSIZE < trapPage ∧ va < MAXVA := by
      unfold trapPage pg TRAPFRAME TRAMPOLINE MAXVA PGSIZE at *
      omega
    have hbig : trapPage < trampPage ∧ trampPage < 2 ^ 27 := by decide
    have hzero : L r (vkey (va / PGSIZE)) = 0 := by
      rw [h.space.top _ hpg.1 (by omega), topEntry, if_neg (by omega), if_neg (by omega)]
    rw [translation_eq h.memory h.space.root hpg.2.2, key_eq_vkey, hzero, Nat.zero_and, if_pos rfl]

theorem Running.restored (h : Running k own L p r u s) (hrest : Restored k own L s L' t) :
    Running k own L' p r u t := by
  have hproc := hrest.rest.proc
  refine ⟨h.tramp, hrest.memory, h.rooted, ?_, ?_, h.frame, ?_⟩ <;> rw [hproc]
  · exact h.pagetable
  · exact h.trapframe
  · exact h.space.restored hrest

theorem Call.run_spec {c : Call} (h : Running k own L p r u s) (hc : c.Valid) :
    Post (c.run k p) s (fun _ t => ∃ own' L' r', Running k own' L' p r' u t) E := by
  cases c with
  | sbrk n =>
    simp only [Call.run, sysSbrk, getProc, post_bind, post_get, post_pure]
    refine (growproc_spec h hc.1 hc.2).imp ?_
    rintro ok t ⟨own', L', h', -⟩
    split <;> exact post_pure.2 ⟨own', L', r, h'⟩
  | exec file path argv =>
    refine (exec_spec h file path argv).imp ?_
    rintro ret t ⟨-, ⟨-, L', hrest⟩ | ⟨-, hnew⟩⟩
    · exact ⟨own, L', r, (h.record _).restored hrest⟩
    · exact hnew

theorem runCalls_spec (cs : List Call) : ∀ {own L r s}, Running k own L p r u s →
    (∀ c ∈ cs, c.Valid) →
    Post (runCalls k p cs) s (fun _ t => ∃ own' L' r', Running k own' L' p r' u t) E := by
  induction cs with
  | nil => exact fun {own L r s} h _ => post_pure.2 ⟨own, L, r, h⟩
  | cons c cs ih =>
    intro own L r s h hcs
    refine (Call.run_spec h (hcs c List.mem_cons_self)).seq ?_
    rintro ret t ⟨own', L', r', h'⟩
    exact (ih h' fun c hc => hcs c (List.mem_cons_of_mem _ hc)).seq fun _ _ h => post_pure.2 h

/-- Whatever a process asks of `sbrk` and `exec`, and in whatever order, the kernel does not
panic, and the address space is exact after every run. -/
theorem calls_exact (h : Running k own L p r u s) (cs : List Call) (hcs : ∀ c ∈ cs, c.Valid) :
    ∃ rets t, runCalls k p cs s = .ok rets t ∧ Exact p t := by
  obtain ⟨rets, t, hrun, own', L', r', h'⟩ :=
    (runCalls_spec (E := fun _ _ => False) cs h hcs).returns
  exact ⟨rets, t, hrun, h'.exact⟩

/-- A process asks for three pages, fails to execute a file, and gives one page back: it has two. -/
theorem calls_exact_oneProc : ∃ t, runCalls ⟨KERNBASE, KERNBASE, KERNBASE⟩ 0
    [.sbrk 12288, .exec none [] [], .sbrk (-4096), .sbrk 0] oneProc = .ok [0, -1, 12288, 8192] t ∧
    Exact 0 t := by
  obtain ⟨own, L, r, u, h, -⟩ := oneProc_running
  obtain ⟨rets, t, hrun, hexact⟩ := calls_exact h
    [.sbrk 12288, .exec none [] [], .sbrk (-4096), .sbrk 0] (by simp [Call.Valid])
  obtain ⟨t', hrun'⟩ := exists_of_returned (show returned (runCalls ⟨KERNBASE, KERNBASE, KERNBASE⟩ 0
    [.sbrk 12288, .exec none [] [], .sbrk (-4096), .sbrk 0] oneProc) = some [0, -1, 12288, 8192] by
      decide +kernel)
  rw [hrun'] at hrun
  cases hrun
  exact ⟨_, hrun', hexact⟩

end

end Vm
end Xv6
