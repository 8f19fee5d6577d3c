import Mathlib.Tactic

/-!
The address arithmetic of `riscv.h` and `memlayout.h`. Addresses and page-table entries
are 64-bit values, kept as natural numbers.
-/

namespace Xv6

def PGSIZE : ℕ := 4096
def PGSHIFT : ℕ := 12
def MAXVA : ℕ := 2 ^ 38

def PGROUNDDOWN (a : ℕ) : ℕ := a - a % PGSIZE
def PGROUNDUP (sz : ℕ) : ℕ := PGROUNDDOWN ((sz + PGSIZE - 1) % 2 ^ 64)

def KERNBASE : ℕ := 0x80000000
def PHYSTOP : ℕ := KERNBASE + 128 * 1024 * 1024
def UART0 : ℕ := 0x10000000
def VIRTIO0 : ℕ := 0x10001000
def PLIC : ℕ := 0x0c000000

def TRAMPOLINE : ℕ := MAXVA - PGSIZE
def TRAPFRAME : ℕ := TRAMPOLINE - PGSIZE
def KSTACK (p : ℕ) : ℕ := TRAMPOLINE - (p + 1) * 2 * PGSIZE

def PTE_V : ℕ := 1
def PTE_R : ℕ := 2
def PTE_W : ℕ := 4
def PTE_X : ℕ := 8
def PTE_U : ℕ := 16

def PA2PTE (pa : ℕ) : ℕ := (pa >>> 12) <<< 10
def PTE2PA (pte : ℕ) : ℕ := ((pte >>> 10) <<< 12) % 2 ^ 64
def PTE_FLAGS (pte : ℕ) : ℕ := pte &&& 0x3FF

/-- The index of `va` at a level of the page table. -/
def PX (level va : ℕ) : ℕ := (va >>> (PGSHIFT + 9 * level)) &&& 0x1FF

theorem PX_eq (level va : ℕ) : PX level va = va / 2 ^ (12 + 9 * level) % 512 := by
  rw [PX, Nat.shiftRight_eq_div_pow, show (0x1FF : ℕ) = 2 ^ 9 - 1 from rfl,
    Nat.and_two_pow_sub_one_eq_mod]
  rfl

theorem PX_lt (level va : ℕ) : PX level va < 512 := by
  rw [PX_eq]
  exact Nat.mod_lt _ (by decide)

/-! ### Pages and entries -/

def pg (p : ℕ) : ℕ := p * PGSIZE

def pte (p flags : ℕ) : ℕ := p * 1024 + flags

theorem pg_inj {p q : ℕ} : pg p = pg q ↔ p = q := by
  simp [pg, PGSIZE]

theorem pg_mod (p : ℕ) : pg p % PGSIZE = 0 := Nat.mul_mod_left p PGSIZE

theorem pg_div (p : ℕ) : pg p / PGSIZE = p := Nat.mul_div_cancel p (by decide)

theorem pg_succ (p : ℕ) : pg (p + 1) = pg p + PGSIZE := Nat.succ_mul p PGSIZE

theorem pg_eq_zero {p : ℕ} : pg p = 0 ↔ p = 0 := by
  simp [pg, PGSIZE]

theorem PA2PTE_or {pa flags : ℕ} (h : flags < 1024) :
    PA2PTE pa ||| flags = pte (pa / PGSIZE) flags := by
  rw [PA2PTE, Nat.shiftRight_eq_div_pow, ← Nat.shiftLeft_add_eq_or_of_lt h, Nat.shiftLeft_eq]
  rfl

theorem PTE2PA_pte {p flags : ℕ} (hp : p < 2 ^ 52) (h : flags < 1024) :
    PTE2PA (pte p flags) = pg p := by
  have hdiv : pte p flags / 2 ^ 10 = p := by
    unfold pte
    omega
  rw [PTE2PA, Nat.shiftRight_eq_div_pow, hdiv, Nat.shiftLeft_eq, Nat.mod_eq_of_lt (by omega)]
  rfl

theorem pte_and {p flags mask : ℕ} (h : flags < 1024) (hm : mask &&& 1023 = mask) :
    pte p flags &&& mask = flags &&& mask := by
  have hmod : pte p flags &&& 1023 = flags := by
    rw [show (1023 : ℕ) = 2 ^ 10 - 1 from rfl, Nat.and_two_pow_sub_one_eq_mod]
    unfold pte
    omega
  rw [← hm, Nat.and_comm mask, ← Nat.and_assoc, hmod, ← Nat.and_assoc,
    show flags &&& 1023 = flags by
      rw [show (1023 : ℕ) = 2 ^ 10 - 1 from rfl, Nat.and_two_pow_sub_one_eq_mod]
      exact Nat.mod_eq_of_lt h]

theorem PTE_FLAGS_pte {p flags : ℕ} (h : flags < 1024) : PTE_FLAGS (pte p flags) = flags := by
  rw [PTE_FLAGS, pte_and h rfl, show (0x3FF : ℕ) = 2 ^ 10 - 1 from rfl,
    Nat.and_two_pow_sub_one_eq_mod]
  exact Nat.mod_eq_of_lt h

theorem pte_inj {p q f g : ℕ} (hf : f < 1024) (hg : g < 1024) :
    pte p f = pte q g ↔ p = q ∧ f = g := by
  unfold pte
  omega

/-! ### Rounding -/

theorem PGROUNDDOWN_eq (a : ℕ) : PGROUNDDOWN a = pg (a / PGSIZE) := by
  unfold PGROUNDDOWN pg PGSIZE
  omega

theorem PGROUNDDOWN_div (a : ℕ) : PGROUNDDOWN a / PGSIZE = a / PGSIZE := by
  rw [PGROUNDDOWN_eq, pg_div]

theorem PX_PGROUNDDOWN (level va : ℕ) : PX level (PGROUNDDOWN va) = PX level va := by
  have hshift : ∀ a, a / 2 ^ (12 + 9 * level) = a / PGSIZE / 2 ^ (9 * level) := by
    intro a
    rw [Nat.div_div_eq_div_mul, pow_add]
    rfl
  rw [PX_eq, PX_eq, hshift, hshift, PGROUNDDOWN_div]

theorem PTE2PA_mod (e : ℕ) : PTE2PA e % PGSIZE = 0 := by
  rw [PTE2PA, Nat.shiftLeft_eq]
  unfold PGSIZE
  omega

/-- The number of pages that hold `sz` bytes. -/
def pages (sz : ℕ) : ℕ := (sz + PGSIZE - 1) / PGSIZE

theorem PGROUNDUP_eq {sz : ℕ} (h : sz + PGSIZE ≤ 2 ^ 64) : PGROUNDUP sz = pg (pages sz) := by
  have hsz : sz + PGSIZE - 1 < 2 ^ 64 := by
    unfold PGSIZE at *
    omega
  rw [PGROUNDUP, Nat.mod_eq_of_lt hsz, PGROUNDDOWN_eq, pages]

theorem pages_pg (n : ℕ) : pages (pg n) = n := by
  unfold pages pg PGSIZE
  omega

theorem pages_mono {a b : ℕ} (h : a ≤ b) : pages a ≤ pages b := by
  unfold pages PGSIZE
  omega

theorem le_pg_pages (sz : ℕ) : sz ≤ pg (pages sz) := by
  unfold pages pg PGSIZE
  omega

theorem pages_le_iff {sz n : ℕ} : pages sz ≤ n ↔ sz ≤ pg n := by
  unfold pages pg PGSIZE
  omega

theorem lt_pages_iff {sz n : ℕ} : n < pages sz ↔ pg n < sz := by
  unfold pages pg PGSIZE
  omega

end Xv6
