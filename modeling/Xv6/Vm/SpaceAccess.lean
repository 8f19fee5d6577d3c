import Xv6.Vm.Access
import Xv6.Vm.Exec

/-!
The kernel's access to the user pages of an address space: `copyout`, `uvmclear` and
`loadseg` of `exec`. All they change is the contents of these pages, and for `uvmclear`
one entry.
-/

namespace Xv6
namespace Vm

open Hoare

variable {k : Layout} {own own' : ℕ → Use} {L L' : ℕ → List ℕ → ℕ} {s t : State}
  {E : Panic → State → Prop} {r n u u₀ v va pa : ℕ}

theorem key_eq_vkey (va : ℕ) : key va = vkey (va / PGSIZE) := by
  rw [← key_PGROUNDDOWN, PGROUNDDOWN_eq, vkey]

namespace Space

theorem user_of_userPage (hs : Space own L r n (trampEntry k) (trapEntry u₀))
    (hm : Memory k own L s) (h : userPage (pg r) va s = some pa) :
    ∃ v u, pa = pg u ∧ own u = .user r v := by
  have hva := (accessible_iff.2 ⟨pa, h⟩).1
  rw [userPage, translation_eq hm hs.root hva, key_eq_vkey] at h
  by_cases hv : va / PGSIZE < n
  · obtain ⟨u, f, hu⟩ := hs.page _ hv
    rw [hu.entry] at h
    split_ifs at h with hvalid
    dsimp only at h
    split_ifs at h with huser
    cases h
    refine ⟨_, u, ?_, hu.user⟩
    exact PTE2PA_pte (hm.pages.small (by rw [hu.user]; simp)) hu.lt
  · exfalso
    rw [hs.top _ (by omega) (by unfold MAXVA PGSIZE at *; omega)] at h
    have hnone : topEntry (trampEntry k) (trapEntry u₀) (va / PGSIZE) &&& PTE_U = 0 := by
      unfold topEntry
      split_ifs
      · rw [trampEntry, pte_and (by decide) (by decide)]
        decide
      · rw [trapEntry, pte_and (by decide) (by decide)]
        decide
      · rfl
    split_ifs at h
    dsimp only at h
    rw [if_pos hnone] at h
    cases h

theorem nonNull (hs : Space own L r n (trampEntry k) (trapEntry u₀)) (hm : Memory k own L s) :
    NonNull (pg r) s := by
  intro va hva
  obtain ⟨v, u, hu, huser⟩ := hs.user_of_userPage hm hva
  exact (hm.pages.pos (by rw [huser]; simp)).ne' (pg_eq_zero.1 hu.symm)

theorem apart (hs : Space own L r n (trampEntry k) (trapEntry u₀)) (hm : Memory k own L s) :
    Apart (pg r) s := by
  intro va va' pa hpa hmem
  obtain ⟨v, u, rfl, huser⟩ := hs.user_of_userPage hm hpa
  obtain ⟨ρ, hρ⟩ := hm.table_of_walkReads hs.root 2 hs.root rfl hmem
  rw [pg_div, huser] at hρ
  cases hρ

theorem userPage_eq (hs : Space own L r n (trampEntry k) (trapEntry u₀)) (hm : Memory k own L s)
    (hva : va < pg n) (he : L r (vkey (va / PGSIZE)) = pte u 31) :
    userPage (pg r) va s = some (pg u) ∧ own u = .user r (va / PGSIZE) := by
  have hlt := hs.lt_trapframe hm
  have hbig : trapPage < 2 ^ 26 := by decide
  have hmax : va < MAXVA := by
    unfold pg PGSIZE MAXVA at *
    omega
  obtain ⟨u', f, hu⟩ := hs.page (va / PGSIZE) (by unfold pg PGSIZE at *; omega)
  obtain ⟨rfl, rfl⟩ := (pte_inj (by decide) hu.lt).1 (he.symm.trans hu.entry)
  refine ⟨?_, hu.user⟩
  have hvalid : pte u 31 &&& PTE_V ≠ 0 := by
    rw [pte_and (by decide) (by decide)]
    decide
  have huser : pte u 31 &&& PTE_U ≠ 0 := by
    rw [pte_and (by decide) (by decide)]
    decide
  rw [userPage, translation_eq hm hs.root hmax, key_eq_vkey, he, if_neg hvalid]
  dsimp only
  rw [if_neg huser, PTE2PA_pte (hm.pages.small (by rw [hu.user]; simp)) (by decide)]

/-- Contents of user pages change and nothing else. -/
theorem write_user (hm : Memory k own L s) (hfields : t = { s with mem := t.mem })
    (hmem : ∀ p, (∀ v, own p ≠ .user r v) → t.mem.get p = s.mem.get p) :
    Effect k r own L s own L t := by
  have hkeep : ∀ {p}, own p = .free ∨ (∃ r' π, own p = .table r' π) → t.mem.get p = s.mem.get p := by
    intro p hp
    refine hmem p fun v hv => ?_
    rcases hp with hp | ⟨r', π, hp⟩
    · rw [hv] at hp
      cases hp
    · rw [hv] at hp
      cases hp
  constructor
  · constructor
    · refine hm.pages.congr (fun _ => Iff.rfl) (fun _ => Iff.rfl) (by rw [hfields]) fun p hp => ?_
      exact hkeep (.inl hp)
    · intro r' hr'
      refine (hm.tables r' hr').congr (fun _ _ => Iff.rfl) fun d π i hd _ => ?_
      rw [entry, entry, hkeep (.inr ⟨r', π, hd⟩)]
  · refine ⟨?_, fun hd => by rw [hfields]; exact hd, fun _ _ _ => rfl, fun p _ hp => hmem p ?_,
      fun _ => id⟩
    · rw [hfields]
      exact ⟨rfl, rfl, rfl, rfl, rfl⟩
    · intro v hv
      rw [hv] at hp
      exact hp rfl
  · exact fun _ _ => rfl

theorem copyout_effect (hs : Space own L r n (trampEntry k) (trapEntry u₀))
    (hm : Memory k own L s) (hva : va < 2 ^ 64) (src : List UInt8) :
    Post (copyout (pg r) va src) s (fun _ t => Effect k r own L s own L t) E := by
  obtain ⟨ok, t, m, hrun, -, -, -, hw⟩ :=
    copyout_spec (pg_mod r) (hs.nonNull hm) (hs.apart hm) hva src
  refine post_of_ok hrun (write_user hm hw.fields fun p hp => hw.mem p fun v hv => ?_)
  obtain ⟨v', u', hu', huser⟩ := hs.user_of_userPage hm hv
  rw [← pg_inj.1 hu'] at huser
  exact hp v' huser

end Space

/-! ### `uvmclear` -/

theorem pte_clear (hu : u < 2 ^ 52) : pte u 31 &&& (2 ^ 64 - 1 - PTE_U) = pte u 15 := by
  have hdiv : (pte u 31 &&& (2 ^ 64 - 1 - PTE_U)) / 2 ^ 5 = u * 32 := by
    rw [Nat.and_div_two_pow, show pte u 31 / 2 ^ 5 = u * 32 by unfold pte; omega,
      show (2 ^ 64 - 1 - PTE_U) / 2 ^ 5 = 2 ^ 59 - 1 by decide, Nat.and_two_pow_sub_one_eq_mod]
    omega
  have hmod : (pte u 31 &&& (2 ^ 64 - 1 - PTE_U)) % 2 ^ 5 = 15 := by
    rw [Nat.and_mod_two_pow, show pte u 31 % 2 ^ 5 = 31 by unfold pte; omega]
    decide
  rw [← Nat.div_add_mod (pte u 31 &&& (2 ^ 64 - 1 - PTE_U)) (2 ^ 5), hdiv, hmod]
  unfold pte
  omega

theorem uvmclear_spec {tramp trap : ℕ} (hs : Space own L r n tramp trap) (hm : Memory k own L s)
    (hv : v < n) (he : L r (vkey v) = pte u 31) :
    Post (uvmclear (pg r) (pg v)) s (fun _ t =>
      Effect k r own L s own (setL L r (vkey v) (pte u 15)) t ∧
      Space own (setL L r (vkey v) (pte u 15)) r n tramp trap) E := by
  have hlt := hs.lt_trapframe hm
  have hbig : trapPage < 2 ^ 26 := by decide
  obtain ⟨u', f, hu⟩ := hs.page v hv
  obtain ⟨rfl, rfl⟩ := (pte_inj (by decide) hu.lt).1 (he.symm.trans hu.entry)
  have hu52 := hm.pages.small (p := u) (by rw [hu.user]; simp)
  simp only [uvmclear, read64, write64, post_bind, post_get, post_pure, post_ite, post_modify]
  refine (walk_find hm hs.root (by unfold pg PGSIZE MAXVA; omega)).imp ?_
  rintro a t ⟨rfl, ⟨rfl, h0⟩ | ⟨d, hd, rfl⟩⟩
  · rw [← vkey, he] at h0
    exact absurd h0 (by unfold pte; omega)
  · refine ⟨fun h0 => absurd h0 (hm.addr_ne_zero hd), fun _ => ?_⟩
    rw [hm.load_key hs.root hd, ← vkey, he, pte_clear hu52]
    obtain ⟨hm', hf⟩ := hm.setEntry (v := pte u 15) hs.root hd (pte_lt hu52 (by decide)) rfl
    refine ⟨⟨hm', hf, fun r' hr' => setL_root hr'⟩, hs.root, fun w hw => ?_, hs.only,
      fun w hw hw' => ?_⟩
    · by_cases hwv : w = v
      · exact ⟨u, 15, by rw [hwv, setL_self], by rw [hwv]; exact hu.owner, .inr rfl⟩
      · obtain ⟨u', f', hu'⟩ := hs.page w hw
        refine ⟨u', f', ?_, hu'.owner, hu'.flags⟩
        rw [setL_ne fun hkey => hwv (vkey_inj (by omega) (by omega) hkey), hu'.entry]
    · rw [setL_ne fun hkey => absurd (vkey_inj hw' (by omega) hkey) (by omega), hs.top w hw hw']

/-! ### `loadseg` -/

/-- The user may access all the `n` pages. -/
def AllUser (L : ℕ → List ℕ → ℕ) (r n : ℕ) : Prop := ∀ v, v < n → ∃ u, L r (vkey v) = pte u 31

theorem AllUser.extends {n' : ℕ} (h : AllUser L r n) (he : Extends r n n' L L') :
    AllUser L' r n' := by
  intro v hv
  by_cases hvn : v < n
  · rw [he.keep v hvn]
    exact h v hvn
  · exact he.new v (by omega) hv

theorem loadsegFrom_spec (ip : Contents) (offset : ℕ) {sz : ℕ}
    (hs : Space own L r n (trampEntry k) (trapEntry u₀)) (hall : AllUser L r n)
    (hva : va % PGSIZE = 0) (hfit : va + sz ≤ pg n) (fuel : ℕ) : ∀ {j s}, Memory k own L s →
    j + fuel = pages sz →
    Post (loadsegFrom (pg r) va ip offset sz fuel (pg j)) s (fun _ t => Effect k r own L s own L t)
      E := by
  induction fuel with
  | zero =>
    intro j s hm _
    exact post_pure.2 (.refl hm r)
  | succ fuel ih =>
    intro j s hm hj
    have hjsz : pg j < sz := lt_pages_iff.1 (by omega)
    have hlt := hs.lt_trapframe hm
    have hbig : trapPage < 2 ^ 26 := by decide
    have haddr : (va + pg j) % 2 ^ 64 = va + pg j := by
      unfold pg PGSIZE at *
      omega
    obtain ⟨u, hu⟩ := hall ((va + pg j) / PGSIZE) (by unfold pg PGSIZE at *; omega)
    obtain ⟨hpage, huser⟩ := hs.userPage_eq hm (by omega) hu
    simp only [loadsegFrom, writeBytes, post_bind, post_ite, post_pure, post_modify, haddr]
    refine (walkaddr_spec (pg_mod r) _).imp ?_
    rintro a t ⟨rfl, rfl⟩
    rw [hpage, Option.getD_some]
    have hu0 : pg u ≠ 0 := fun h0 =>
      (hm.pages.pos (by rw [huser]; simp)).ne' (pg_eq_zero.1 h0)
    refine ⟨fun h0 => absurd h0 hu0, fun _ => ?_⟩
    have hwrite : ∀ l, Effect k r own L t own L (t.setBytes (pg u) l) := by
      intro l
      refine Space.write_user hm rfl fun p hp => mem_setBytes_ne t l ?_
      rintro rfl
      exact hp _ huser
    refine ⟨fun _ => hwrite _, fun _ => ?_⟩
    rw [← pg_succ]
    exact (ih (hwrite _).memory (by omega)).imp fun _ _ he => (hwrite _).trans he

theorem loadseg_spec (ip : Contents) (offset : ℕ) {sz : ℕ}
    (hs : Space own L r n (trampEntry k) (trapEntry u₀)) (hm : Memory k own L s)
    (hall : AllUser L r n) (hva : va % PGSIZE = 0) (hfit : va + sz ≤ pg n) :
    Post (loadseg (pg r) va ip offset sz) s (fun _ t => Effect k r own L s own L t) E := by
  have h := loadsegFrom_spec (E := E) ip offset hs hall hva hfit (pages sz) hm (Nat.zero_add _)
  rwa [show pg 0 = 0 from Nat.zero_mul _] at h

end Vm
end Xv6
