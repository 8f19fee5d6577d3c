import Xv6.Lib.Hart

/-!
`trampoline.S` and `swtch.S`: the way from user space into the kernel and back, and from one
kernel thread to another.
-/

namespace Xv6
namespace Trampoline
open Hart

/-- The registers that `uservec` saves and `userret` loads in one go, all but `a0`. -/
def userRegs : List (Reg × ℕ) :=
  [(.ra, 40), (.sp, 48), (.gp, 56), (.tp, 64), (.t0, 72), (.t1, 80), (.t2, 88), (.s0, 96),
   (.s1, 104), (.a1, 120), (.a2, 128), (.a3, 136), (.a4, 144), (.a5, 152), (.a6, 160), (.a7, 168),
   (.s2, 176), (.s3, 184), (.s4, 192), (.s5, 200), (.s6, 208), (.s7, 216), (.s8, 224), (.s9, 232),
   (.s10, 240), (.s11, 248), (.t3, 256), (.t4, 264), (.t5, 272), (.t6, 280)]

def uservec : List Instr :=
  .csrrwSscratch .a0 :: (save .a0 userRegs ++
    [.csrrSscratch .t0, .sd .t0 112 .a0, .ld .sp 8 .a0, .ld .tp 32 .a0, .ld .t0 16 .a0,
     .ld .t1 0 .a0, .csrwSatp .t1, .sfenceVma, .jr .t0])

def userret : List Instr :=
  [.csrwSatp .a1, .sfenceVma, .ld .t0 112 .a0, .csrwSscratch .t0] ++
    (load .a0 userRegs ++ [.csrrwSscratch .a0, .sret])

/-- The field of `struct trapframe` for a register: from byte `40` on, the fields are in the order
of the register numbers. -/
def frameOff (r : Reg) : ℕ := 40 + 8 * r.ctorIdx

/-- The registers that a function keeps for its caller. -/
def calleeSaved : List Reg :=
  [.sp, .s0, .s1, .s2, .s3, .s4, .s5, .s6, .s7, .s8, .s9, .s10, .s11]

/-- The fields of `struct context`, in order. -/
def context : List Reg := .ra :: calleeSaved

def contextOff (r : Reg) : ℕ := 8 * context.idxOf r

/-- What `swtch` stores and loads, with the offsets that it uses. -/
def contextRegs : List (Reg × ℕ) :=
  [(.ra, 0), (.sp, 8), (.s0, 16), (.s1, 24), (.s2, 32), (.s3, 40), (.s4, 48), (.s5, 56), (.s6, 64),
   (.s7, 72), (.s8, 80), (.s9, 88), (.s10, 96), (.s11, 104)]

def swtch : List Instr := save .a0 contextRegs ++ (load .a1 contextRegs ++ [.jr .ra])

section
variable {tr : ℕ → ℕ → Option ℕ} {s : Core} {f : ℕ}

theorem userRegs_within : Within 288 userRegs := by unfold Within; decide

theorem mem_userRegs {r : Reg} (h : r ≠ .a0) : (r, frameOff r) ∈ userRegs := by
  cases r <;> first | exact absurd rfl h | decide

theorem snd_eq_frameOff : ∀ e ∈ userRegs, e.2 = frameOff e.1 := by decide

theorem addr_frame {x : Core} {satp va off : ℕ} (h : Maps tr satp va f 288) (hs : x.satp = satp)
    (ha : x.reg .a0 = va) (ho : off < 288) (h8 : off % 8 = 0) :
    x.addr tr .a0 off = some (f + off) :=
  Maps.addr (by rwa [hs, ha]) ho h8

/-- `uservec` leaves all user registers in the trapframe and nothing else, and goes to
`usertrap` on the kernel's stack and page table. -/
theorem uservec_spec (h : Maps tr s.satp s.sscratch f 288) : ∃ t, run tr s uservec = some t ∧
    (∀ r, t.mem (f + frameOff r) = s.reg r) ∧
    (∀ a, (∀ r, a ≠ f + frameOff r) → t.mem a = s.mem a) ∧
    t.satp = s.mem f ∧ t.reg .sp = s.mem (f + 8) ∧ t.pc = s.mem (f + 16) ∧
    t.reg .tp = s.mem (f + 32) := by
  obtain ⟨mem, hrun, hin, hout⟩ := run_save (s := { s with
    reg := Function.update s.reg .a0 s.sscratch, sscratch := s.reg .a0 }) .a0
    (by simpa using h) userRegs_within (by decide)
  dsimp only at hrun hin hout
  have hlow : ∀ o, o < 40 → mem (f + o) = s.mem (f + o) := fun o ho => by
    refine hout _ fun e he => ?_
    have : 40 ≤ e.2 := (by decide : ∀ e ∈ userRegs, 40 ≤ e.2) e he
    omega
  have hsaved : ∀ r, Function.update mem (f + 112) (s.reg .a0) (f + frameOff r) = s.reg r := by
    intro r
    by_cases hr : r = .a0
    · rw [hr]
      exact Function.update_self ..
    · have hne : frameOff r ≠ 112 := by cases r <;> first | exact absurd rfl hr | decide
      rw [Function.update_of_ne (by omega), hin _ (mem_userRegs hr), Function.update_of_ne hr]
  have hkept : ∀ a, (∀ r, a ≠ f + frameOff r) →
      Function.update mem (f + 112) (s.reg .a0) a = s.mem a := by
    intro a ha
    have h112 : a ≠ f + 112 := ha .a0
    rw [Function.update_of_ne h112, hout a fun e he => snd_eq_frameOff e he ▸ ha e.1]
  rw [uservec, run_cons, step, Option.bind_some, run_append, hrun, Option.bind_some]
  simpa [step, addr_frame h] using ⟨hsaved, hkept, hlow 0 (by decide), hlow 8 (by decide),
    hlow 16 (by decide), hlow 32 (by decide)⟩

/-- `userret` comes to user space with what the trapframe holds. -/
theorem userret_spec (h : Maps tr (s.reg .a1) (s.reg .a0) f 288) :
    ∃ t, run tr s userret = some t ∧ (∀ r, t.reg r = s.mem (f + frameOff r)) ∧
      t.satp = s.reg .a1 ∧ t.sscratch = s.reg .a0 ∧ t.pc = s.sepc ∧ t.mem = s.mem := by
  obtain ⟨reg, hrun, hin, hout⟩ := run_load (s := { s with
    satp := s.reg .a1, sscratch := s.mem (f + 112)
    reg := Function.update s.reg .t0 (s.mem (f + 112)) }) .a0
    (by simpa using h) userRegs_within (by decide) (by decide)
  dsimp only at hrun hin hout
  have ha0 : reg .a0 = s.reg .a0 := hout .a0 (by decide)
  have hloaded : ∀ r, Function.update reg .a0 (s.mem (f + 112)) r = s.mem (f + frameOff r) := by
    intro r
    by_cases hr : r = .a0
    · rw [hr]
      exact Function.update_self ..
    · rw [Function.update_of_ne hr, hin _ (mem_userRegs hr)]
  have hcode : run tr s userret = some { s with
      satp := s.reg .a1, sscratch := reg .a0, pc := s.sepc
      reg := Function.update reg .a0 (s.mem (f + 112)) } := by
    simp [userret, step, addr_frame h, run_append, hrun]
  exact ⟨_, hcode, hloaded, rfl, ha0, rfl, rfl⟩

/-- A trap and the return from it. `uservec` leaves the user registers in the trapframe, writes
nothing else, and goes to `usertrap` on the kernel's stack and page table. Whatever the kernel
does then, if it keeps the trapframe but for the registers `W` that it sets, and the user page
table still has the trapframe where it was, the process finds its other registers, its page
table, and `sscratch` for the next trap. -/
theorem trap_roundTrip {tr' : ℕ → ℕ → Option ℕ} (W : Set Reg)
    (h : Maps tr s.satp s.sscratch f 288) (h' : Maps tr' s.satp s.sscratch f 288) :
    ∃ t, run tr s uservec = some t ∧ (∀ r, t.mem (f + frameOff r) = s.reg r) ∧
      (∀ a, (∀ r, a ≠ f + frameOff r) → t.mem a = s.mem a) ∧
      t.satp = s.mem f ∧ t.reg .sp = s.mem (f + 8) ∧ t.pc = s.mem (f + 16) ∧
      t.reg .tp = s.mem (f + 32) ∧
      ∀ k : Core, k.reg .a0 = s.sscratch → k.reg .a1 = s.satp →
        (∀ r, r ∉ W → k.mem (f + frameOff r) = t.mem (f + frameOff r)) →
        ∃ u, run tr' k userret = some u ∧ (∀ r, r ∉ W → u.reg r = s.reg r) ∧
          (∀ r, r ∈ W → u.reg r = k.mem (f + frameOff r)) ∧ u.satp = s.satp ∧
          u.sscratch = s.sscratch ∧ u.pc = k.sepc ∧ u.mem = k.mem := by
  obtain ⟨t, ht, hsaved, hother, hsatp, hsp, hpc, htp⟩ := uservec_spec h
  refine ⟨t, ht, hsaved, hother, hsatp, hsp, hpc, htp, fun k ha0 ha1 hkeep => ?_⟩
  obtain ⟨u, hu, hreg, husatp, hscr, hupc, hmem⟩ := userret_spec (s := k) (by rwa [ha0, ha1])
  refine ⟨u, hu, fun r hr => ?_, fun r _ => hreg r, husatp.trans ha1, hscr.trans ha0, hupc, hmem⟩
  rw [hreg, hkeep r hr, hsaved]

/-- A process with a different value in each register makes a system call that returns `42`. -/
theorem trap_roundTrip_syscall : ∃ t u,
    run (fun _ va => some va) ⟨Reg.ctorIdx, 0, 0, 0, 0, fun a => a⟩ uservec = some t ∧
    t.mem (frameOff .s1) = 8 ∧ t.pc = 16 ∧
    run (fun _ va => some va) { t with
      reg := fun _ => 0, mem := Function.update t.mem (frameOff .a0) 42 } userret = some u ∧
    u.reg .a0 = 42 ∧ ∀ r, r ≠ .a0 → u.reg r = r.ctorIdx := by
  have hmaps : Maps (fun _ va => some va) 0 0 0 288 := ⟨rfl, by norm_num, fun o _ => rfl⟩
  obtain ⟨t, ht, hsaved, -, hsatp, -, hpc, -, hk⟩ :=
    trap_roundTrip (s := ⟨Reg.ctorIdx, 0, 0, 0, 0, fun a => a⟩) {.a0} hmaps hmaps
  obtain ⟨u, hu, hkept, hset, -⟩ := hk
    { t with reg := fun _ => 0, mem := Function.update t.mem (frameOff .a0) 42 } rfl rfl
    fun r hr => by
      have hne : frameOff r ≠ frameOff .a0 := by
        cases r <;> first | exact absurd rfl hr | decide
      rw [Nat.zero_add]
      exact Function.update_of_ne hne _ _
  refine ⟨t, u, ht, (congrArg t.mem (Nat.zero_add _)).symm.trans (hsaved .s1), hpc, hu, ?_, hkept⟩
  rw [hset .a0 rfl, Nat.zero_add]
  exact Function.update_self (frameOff .a0) 42 t.mem

end

/-! ### Kernel threads -/

/-- The threads on one hart, with what each had in its registers when it left. -/
structure Threads (ι : Type) where
  hart : Core
  running : ι
  left : ι → Reg → ℕ

section
variable {ι : Type} [DecidableEq ι] (tr : ℕ → ℕ → Option ℕ) (ctx : ι → ℕ) (satp : ℕ)

/-- The contexts of the threads that do not run hold what these had. -/
def Kept (m : Threads ι) : Prop :=
  m.hart.satp = satp ∧
    ∀ j, j ≠ m.running → ∀ r ∈ context, m.hart.mem (ctx j + contextOff r) = m.left j r

/-- The running thread does something that leaves the contexts of the others alone, or calls
`swtch`. -/
inductive Switch (m : Threads ι) : ι → Threads ι → Prop
  | work (h : Core) (hs : h.satp = m.hart.satp)
      (hk : ∀ j, j ≠ m.running → ∀ r ∈ context,
        h.mem (ctx j + contextOff r) = m.hart.mem (ctx j + contextOff r)) :
      Switch m m.running { m with hart := h }
  | swtch (j : ι) (t : Core) (hj : j ≠ m.running) (ha0 : m.hart.reg .a0 = ctx m.running)
      (ha1 : m.hart.reg .a1 = ctx j) (hrun : run tr m.hart Trampoline.swtch = some t) :
      Switch m j ⟨t, j, Function.update m.left m.running m.hart.reg⟩

variable {tr ctx satp} (hmap : ∀ i, Maps tr satp (ctx i) (ctx i) 112)
  (hctx : ∀ i j, i ≠ j → ctx i + 112 ≤ ctx j ∨ ctx j + 112 ≤ ctx i)
include hmap hctx

theorem Kept.swtch {m : Threads ι} {j : ι} (h : Kept ctx satp m) (hj : j ≠ m.running)
    (ha0 : m.hart.reg .a0 = ctx m.running) (ha1 : m.hart.reg .a1 = ctx j) :
    ∃ t, run tr m.hart Trampoline.swtch = some t ∧
      Kept ctx satp ⟨t, j, Function.update m.left m.running m.hart.reg⟩ ∧
      (∀ r ∈ context, t.reg r = m.left j r) ∧ t.pc = m.left j .ra := by
  obtain ⟨hs, hk⟩ := h
  have hin : Within 112 contextRegs := by unfold Within; decide
  have hfield : ∀ r ∈ context, (r, contextOff r) ∈ contextRegs := by decide
  obtain ⟨mem, hsave, hsaved, hother⟩ := run_save (s := m.hart) .a0
    (by rw [hs, ha0]; exact hmap _) hin (by decide)
  obtain ⟨reg, hload, hloaded, -⟩ := run_load (s := { m.hart with mem := mem }) .a1
    (by dsimp only; rw [hs, ha1]; exact hmap _) hin (by decide) (by decide)
  have hmem : ∀ i, i ≠ m.running → ∀ r ∈ context, mem (ctx i + contextOff r) = m.left i r := by
    intro i hi r hr
    rw [hother _ fun d hd heq => ?_, hk i hi r hr]
    have := hctx i _ hi
    have := hin _ (hfield r hr)
    have := hin d hd
    omega
  have hreg : ∀ r ∈ context, reg r = m.left j r := fun r hr =>
    (hloaded _ (hfield r hr)).trans (hmem j hj r hr)
  refine ⟨{ m.hart with mem := mem, reg := reg, pc := reg .ra }, ?_, ⟨hs, fun i hi r hr => ?_⟩,
    hreg, hreg .ra (by decide)⟩
  · simp [Trampoline.swtch, run_append, hsave, hload, step]
  · dsimp only
    by_cases hir : i = m.running
    · rw [hir, Function.update_self, ← hsaved _ (hfield r hr)]
    · rw [Function.update_of_ne hir]
      exact hmem i hir r hr

/-- In every run a thread that `swtch` goes to finds the stack and the callee-saved registers
with which it left, and goes on where it called `swtch`. -/
theorem swtch_resumes {m₀ m : Threads ι} (h₀ : Kept ctx satp m₀)
    (h : Transition.Reachable (· = m₀) (Switch tr ctx) m) {j : ι} (hj : j ≠ m.running)
    (ha0 : m.hart.reg .a0 = ctx m.running) (ha1 : m.hart.reg .a1 = ctx j) :
    ∃ t, run tr m.hart swtch = some t ∧ (∀ r ∈ calleeSaved, t.reg r = m.left j r) ∧
      t.reg .ra = m.left j .ra ∧ t.pc = m.left j .ra := by
  have hinv : Kept ctx satp m := by
    refine h.invariant (by rintro _ rfl; exact h₀) fun m i n hm hstep => ?_
    cases hstep with
    | work h hs hk => exact ⟨hs.trans hm.1, fun j hj r hr => (hk j hj r hr).trans (hm.2 j hj r hr)⟩
    | swtch j t hj ha0 ha1 hrun =>
      obtain ⟨t', hrun', hkept, -⟩ := hm.swtch hmap hctx hj ha0 ha1
      rw [Option.some.inj (hrun.symm.trans hrun')]
      exact hkept
  obtain ⟨t, hrun, -, ht, hpc⟩ := hinv.swtch hmap hctx hj ha0 ha1
  exact ⟨t, hrun, fun r hr => ht r (List.mem_cons_of_mem _ hr), ht .ra List.mem_cons_self, hpc⟩

end

/-- The registers with which a thread whose context is at `a` goes to one whose is at `b`. -/
def calling (a b base : ℕ) (r : Reg) : ℕ :=
  if r = .a0 then a else if r = .a1 then b else base + r.ctorIdx

def twoContexts (b : Bool) : ℕ := bif b then 112 else 0

/-- The first of two threads runs; the second one had `7` in all registers. -/
def twoThreads : Threads Bool :=
  ⟨⟨calling 0 112 100, 0, 0, 0, 0, fun _ => 7⟩, false, fun _ _ => 7⟩

/-- A thread goes to another one, which uses all its registers and then goes back. -/
theorem swtch_resumes_two : ∃ t t', run (fun _ va => some va) twoThreads.hart swtch = some t ∧
    t.reg .sp = 7 ∧ t.pc = 7 ∧
    run (fun _ va => some va) { t with reg := calling 112 0 200 } swtch = some t' ∧
    (∀ r ∈ calleeSaved, t'.reg r = 100 + r.ctorIdx) ∧ t'.pc = 100 + Reg.ra.ctorIdx := by
  have hmap : ∀ b, Maps (fun _ va => some va) 0 (twoContexts b) (twoContexts b) 112 := by
    intro b
    refine ⟨?_, ?_, fun _ _ => rfl⟩ <;> cases b <;> decide
  have hctx : ∀ i j, i ≠ j → twoContexts i + 112 ≤ twoContexts j ∨
      twoContexts j + 112 ≤ twoContexts i := by decide
  have hkept : Kept twoContexts 0 twoThreads := ⟨rfl, fun _ _ _ _ => rfl⟩
  obtain ⟨t, hrun, ht, -, hpc⟩ := swtch_resumes hmap hctx hkept (.start _ rfl) (j := true)
    (by decide) rfl rfl
  have hgone : Transition.Reachable (· = twoThreads) (Switch (fun _ va => some va) twoContexts)
      ⟨t, true, Function.update twoThreads.left false twoThreads.hart.reg⟩ :=
    .next _ _ _ (.start _ rfl) (.swtch true t (by decide) rfl rfl hrun)
  have hworked : Transition.Reachable (· = twoThreads) (Switch (fun _ va => some va) twoContexts)
      ⟨{ t with reg := calling 112 0 200 }, true,
        Function.update twoThreads.left false twoThreads.hart.reg⟩ :=
    .next _ _ _ hgone (.work { t with reg := calling 112 0 200 } rfl fun _ _ _ _ => rfl)
  obtain ⟨t', hrun', ht', -, hpc'⟩ := swtch_resumes hmap hctx hkept hworked (j := false)
    Bool.false_ne_true rfl rfl
  have hleft : ∀ r ∈ calleeSaved, twoThreads.hart.reg r = 100 + r.ctorIdx := by decide
  exact ⟨t, t', hrun, ht .sp (by decide), hpc, hrun', fun r hr => (ht' r hr).trans (hleft r hr),
    hpc'⟩

end Trampoline
end Xv6
