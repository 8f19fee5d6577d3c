import Xv6.Vm.SpaceAccess

/-!
What an address space holds: the byte at a mapped virtual address. It is settled by the
page's entry and by the page, so a function that leaves both alone leaves the byte.
-/

namespace Xv6
namespace Vm

variable {k : Layout} {own own' : ℕ → Use} {L L' : ℕ → List ℕ → ℕ} {s t : State}
  {r n u v f va tramp trap : ℕ}

/-- The byte at `va`, when a page is mapped there. -/
def vmByte (pagetable va : ℕ) (s : State) : Option UInt8 :=
  (translation pagetable va s).map fun e => s.byte (PTE2PA e + va % PGSIZE)

theorem translation_congr (h : Memory k own L s) (h' : Memory k own' L' t)
    (hr : own r = .table r []) (hr' : own' r = .table r []) (hva : va < MAXVA)
    (he : L' r (vkey (va / PGSIZE)) = L r (vkey (va / PGSIZE))) :
    translation (pg r) va t = translation (pg r) va s := by
  rw [translation_eq h' hr' hva, translation_eq h hr hva, key_eq_vkey, he]

namespace Mapped

theorem translation_eq (hm : Memory k own L s) (hr : own r = .table r []) (hva : va < MAXVA)
    (h : Mapped own L r (va / PGSIZE) u f) : translation (pg r) va s = some (pte u f) := by
  rw [Vm.translation_eq hm hr hva, key_eq_vkey, h.entry, if_neg h.valid]

theorem vmByte_eq (hm : Memory k own L s) (hr : own r = .table r []) (hva : va < MAXVA)
    (h : Mapped own L r (va / PGSIZE) u f) :
    vmByte (pg r) va s = some ((s.mem.get u).get (va % PGSIZE)) := by
  have hmod : va % PGSIZE < PGSIZE := Nat.mod_lt _ (by decide)
  rw [vmByte, h.translation_eq hm hr hva, Option.map_some,
    PTE2PA_pte (hm.pages.small (by rw [h.user]; simp)) h.lt, State.byte]
  rw [show (pg u + va % PGSIZE) / PGSIZE = u by unfold pg PGSIZE at *; omega,
    show (pg u + va % PGSIZE) % PGSIZE = va % PGSIZE by unfold pg PGSIZE at *; omega]

end Mapped

namespace Space

theorem lt_maxva (hs : Space own L r n tramp trap) (hm : Memory k own L s) (hva : va < pg n) :
    va < MAXVA := by
  have hlt := hs.lt_trapframe hm
  have hbig : trapPage < 2 ^ 26 := by decide
  unfold pg PGSIZE MAXVA at *
  omega

theorem vmByte_steady {m : ℕ} (hs : Space own L r n tramp trap) (hm : Memory k own L s)
    (hm' : Memory k own' L' t) (hr' : own' r = .table r []) (h : Steady r m own L s L' t)
    (hmn : m ≤ n) (hva : va < pg m) : vmByte (pg r) va t = vmByte (pg r) va s := by
  have hv : va / PGSIZE < m := by
    unfold pg PGSIZE at *
    omega
  have hmax : va < MAXVA := by
    refine hs.lt_maxva hm (hva.trans_le ?_)
    unfold pg
    exact Nat.mul_le_mul_right _ hmn
  obtain ⟨u, f, hu⟩ := hs.page _ (hv.trans_le hmn)
  have htr : translation (pg r) va t = some (pte u f) :=
    (translation_congr hm hm' hs.root hr' hmax (h.entry _ hv)).trans
      (hu.translation_eq hm hs.root hmax)
  have hmod : va % PGSIZE < PGSIZE := Nat.mod_lt _ (by decide)
  have hpage : (pg u + va % PGSIZE) / PGSIZE = u := by
    unfold pg PGSIZE at *
    omega
  rw [vmByte, vmByte, htr, hu.translation_eq hm hs.root hmax, Option.map_some, Option.map_some,
    PTE2PA_pte (hm.pages.small (by rw [hu.user]; simp)) hu.lt, State.byte, State.byte, hpage,
    h.mem u _ hv hu.user]

theorem translation_steady (hs : Space own L r n tramp trap) (hm : Memory k own L s)
    (hs' : Space own' L' r n tramp trap) (hm' : Memory k own' L' t) (h : Steady r n own L s L' t)
    (hva : va < MAXVA) : translation (pg r) va t = translation (pg r) va s := by
  refine translation_congr hm hm' hs.root hs'.root hva ?_
  by_cases hv : va / PGSIZE < n
  · exact h.entry _ hv
  · have hlt : va / PGSIZE < 2 ^ 27 := by
      unfold MAXVA PGSIZE at *
      omega
    rw [hs.top _ (not_lt.1 hv) hlt, hs'.top _ (not_lt.1 hv) hlt]

end Space

end Vm
end Xv6
