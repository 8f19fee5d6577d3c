import Xv6.Lib.Transition

/-!
A RISC-V hart that runs straight-line code which saves and loads registers. Addresses go through
a translation that `satp` selects; an access without one, or one that is not aligned, is a fault.
-/

namespace Hart

inductive Reg
  | ra | sp | gp | tp | t0 | t1 | t2 | s0 | s1 | a0 | a1 | a2 | a3 | a4 | a5 | a6 | a7
  | s2 | s3 | s4 | s5 | s6 | s7 | s8 | s9 | s10 | s11 | t3 | t4 | t5 | t6
  deriving DecidableEq

inductive Instr
  | sd (r : Reg) (off : ℕ) (base : Reg)
  | ld (r : Reg) (off : ℕ) (base : Reg)
  | csrrwSscratch (r : Reg)
  | csrrSscratch (r : Reg)
  | csrwSscratch (r : Reg)
  | csrwSatp (r : Reg)
  | sfenceVma
  | jr (r : Reg)
  | sret

structure Core where
  reg : Reg → ℕ
  satp : ℕ
  sscratch : ℕ
  sepc : ℕ
  pc : ℕ
  mem : ℕ → ℕ

variable (tr : ℕ → ℕ → Option ℕ)

def Core.addr (s : Core) (base : Reg) (off : ℕ) : Option ℕ :=
  if (s.reg base + off) % 2 ^ 64 % 8 = 0 then tr s.satp ((s.reg base + off) % 2 ^ 64) else none

/-- One instruction. The fall-through of `pc` is left out. -/
def step (s : Core) : Instr → Option Core
  | .sd r off base =>
      (s.addr tr base off).map fun pa => { s with mem := Function.update s.mem pa (s.reg r) }
  | .ld r off base =>
      (s.addr tr base off).map fun pa => { s with reg := Function.update s.reg r (s.mem pa) }
  | .csrrwSscratch r =>
      some { s with reg := Function.update s.reg r s.sscratch, sscratch := s.reg r }
  | .csrrSscratch r => some { s with reg := Function.update s.reg r s.sscratch }
  | .csrwSscratch r => some { s with sscratch := s.reg r }
  | .csrwSatp r => some { s with satp := s.reg r }
  | .sfenceVma => some s
  | .jr r => some { s with pc := s.reg r }
  | .sret => some { s with pc := s.sepc }

def run (s : Core) (code : List Instr) : Option Core := Transition.exec (step tr) s code

/-- The registers of a table go to their offsets. -/
def save (base : Reg) (t : List (Reg × ℕ)) : List Instr := t.map fun e => .sd e.1 e.2 base

def load (base : Reg) (t : List (Reg × ℕ)) : List Instr := t.map fun e => .ld e.1 e.2 base

structure Maps (satp va f n : ℕ) : Prop where
  aligned : va % 8 = 0
  fits : va + n ≤ 2 ^ 64
  eq : ∀ o, o < n → tr satp (va + o) = some (f + o)

/-- The offsets of a table are those of words in a record of `n` bytes. -/
def Within (n : ℕ) (t : List (Reg × ℕ)) : Prop := ∀ e ∈ t, e.2 < n ∧ e.2 % 8 = 0

section
variable {tr} {s : Core} {base : Reg} {f n off : ℕ} {t : List (Reg × ℕ)}

@[simp] theorem run_nil : run tr s [] = some s := rfl

@[simp] theorem run_cons (i : Instr) (c : List Instr) :
    run tr s (i :: c) = (step tr s i).bind (run tr · c) := rfl

theorem run_append (c d : List Instr) : run tr s (c ++ d) = (run tr s c).bind (run tr · d) := by
  induction c generalizing s with
  | nil => rfl
  | cons i c ih => simp only [List.cons_append, run_cons, Option.bind_assoc, ih]

theorem Maps.addr (h : Maps tr s.satp (s.reg base) f n) (ho : off < n) (h8 : off % 8 = 0) :
    s.addr tr base off = some (f + off) := by
  obtain ⟨ha, hf, heq⟩ := h
  have hmod : (s.reg base + off) % 2 ^ 64 = s.reg base + off := Nat.mod_eq_of_lt (by omega)
  rw [Core.addr, hmod, if_pos (by omega), heq off ho]

theorem run_save (base : Reg) (h : Maps tr s.satp (s.reg base) f n) (ht : Within n t)
    (hn : (t.map Prod.snd).Nodup) : ∃ mem, run tr s (save base t) = some { s with mem := mem } ∧
      (∀ e ∈ t, mem (f + e.2) = s.reg e.1) ∧
      ∀ a, (∀ e ∈ t, a ≠ f + e.2) → mem a = s.mem a := by
  induction t generalizing s with
  | nil => exact ⟨s.mem, rfl, by simp, fun _ _ => rfl⟩
  | cons e t ih =>
    obtain ⟨hnot, hn⟩ := List.nodup_cons.1 hn
    obtain ⟨ho, h8⟩ := ht e List.mem_cons_self
    obtain ⟨mem, hrun, hin, hout⟩ := ih (s := { s with
      mem := Function.update s.mem (f + e.2) (s.reg e.1) }) h
      (fun e he => ht e (List.mem_cons_of_mem _ he)) hn
    dsimp only at hout
    refine ⟨mem, ?_, ?_, fun a ha => ?_⟩
    · simp only [save, List.map_cons, run_cons, step, h.addr ho h8, Option.map_some,
        Option.bind_some]
      exact hrun
    · intro e' he'
      obtain rfl | he' := List.mem_cons.1 he'
      · rw [hout, Function.update_self]
        intro d hd heq
        exact hnot (List.mem_map.2 ⟨d, hd, by omega⟩)
      · exact hin e' he'
    · rw [hout a fun d hd => ha d (List.mem_cons_of_mem _ hd),
        Function.update_of_ne (ha e List.mem_cons_self)]

theorem run_load (base : Reg) (h : Maps tr s.satp (s.reg base) f n) (ht : Within n t)
    (hn : (t.map Prod.fst).Nodup) (hb : base ∉ t.map Prod.fst) :
    ∃ reg, run tr s (load base t) = some { s with reg := reg } ∧
      (∀ e ∈ t, reg e.1 = s.mem (f + e.2)) ∧ ∀ r, r ∉ t.map Prod.fst → reg r = s.reg r := by
  induction t generalizing s with
  | nil => exact ⟨s.reg, rfl, by simp, fun _ _ => rfl⟩
  | cons e t ih =>
    obtain ⟨hnot, hn⟩ := List.nodup_cons.1 hn
    obtain ⟨ho, h8⟩ := ht e List.mem_cons_self
    obtain ⟨hbe, hb⟩ := not_or.1 (mt List.mem_cons.2 hb)
    obtain ⟨reg, hrun, hin, hout⟩ := ih (s := { s with
      reg := Function.update s.reg e.1 (s.mem (f + e.2)) })
      (by simpa only [Function.update_of_ne hbe] using h)
      (fun e he => ht e (List.mem_cons_of_mem _ he)) hn hb
    dsimp only at hout
    refine ⟨reg, ?_, ?_, fun r hr => ?_⟩
    · simp only [load, List.map_cons, run_cons, step, h.addr ho h8, Option.map_some,
        Option.bind_some]
      exact hrun
    · intro e' he'
      obtain rfl | he' := List.mem_cons.1 he'
      · rw [hout _ hnot, Function.update_self]
      · exact hin e' he'
    · obtain ⟨hre, hr⟩ := not_or.1 (mt List.mem_cons.2 hr)
      rw [hout r hr, Function.update_of_ne hre]

end

end Hart
