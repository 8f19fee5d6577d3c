import Xv6.Lib.RadixTree
import Xv6.Vm.PageTable
import Xv6.Vm.Pages

/-!
Page tables as radix trees of pages. The pages of the table with root `r` are those used
as `.table r π`, and `L r` is the mapping it holds, from the three indices of a virtual
page to its entry. Here are `walk` and `mappages` in these terms.
-/

namespace Xv6
namespace Vm

open Hoare RadixTree

variable {k : Layout} {own own' : ℕ → Use} {L L' : ℕ → List ℕ → ℕ} {s t : State}
  {E : Panic → State → Prop} {r c d p i j v va : ℕ} {π : List ℕ}

/-! ### Entries -/

def entry (mem : TMap Bytes) (d i : ℕ) : ℕ := (mem.get d).getLE (8 * i) 8

theorem load_entry (s : State) (d : ℕ) (hi : i < 512) :
    s.load (pg d + 8 * i) 8 = entry s.mem d i :=
  load_pg s d (by unfold PGSIZE; omega) 8

theorem entry_store (s : State) (hi : i < 512) (hv : v < 2 ^ 64) :
    entry (s.store (pg c + 8 * i) 8 v).mem d j =
      if d = c ∧ j = i then v else entry s.mem d j := by
  have ho : 8 * i < PGSIZE := by
    unfold PGSIZE
    omega
  rw [State.store, setBytes_pg s c ho]
  by_cases hd : d = c
  · rw [hd, entry, TMap.get_set_self]
    by_cases hj : j = i
    · rw [hj, if_pos ⟨rfl, rfl⟩]
      exact (Bytes.getLE_putLE_self _ _ 8 v).trans (Nat.mod_eq_of_lt hv)
    · rw [if_neg fun h => hj h.2]
      exact Bytes.getLE_putLE_disjoint _ _ (by omega)
  · rw [entry, TMap.get_set_ne _ _ hd, if_neg fun h => hd h.1, entry]

theorem mem_store_ne (s : State) (hi : i < 512) (hd : d ≠ c) :
    (s.store (pg c + 8 * i) 8 v).mem.get d = s.mem.get d := by
  rw [State.store, setBytes_pg s c (by unfold PGSIZE; omega), TMap.get_set_ne _ _ hd]

theorem get_zeros (s : State) (hi : i < PGSIZE) :
    ((s.setBytes (pg c) (List.replicate PGSIZE 0)).mem.get c).get i = 0 := by
  rw [setBytes_pg0, TMap.get_set_self, Bytes.get_putBytes, if_pos (by simpa using hi)]
  simp only [List.getD_eq_getElem?_getD, List.getElem?_replicate]
  split_ifs <;> rfl

theorem entry_zeros (s : State) (hi : i < 512) :
    entry (s.setBytes (pg c) (List.replicate PGSIZE 0)).mem c i = 0 := by
  refine (Bytes.getLE_congr fun x hx => ?_).trans (Bytes.getLE_empty (8 * i) 8)
  exact get_zeros s (by unfold PGSIZE; omega)

theorem mem_setBytes_ne (s : State) (l : List UInt8) (hd : d ≠ c) :
    (s.setBytes (pg c) l).mem.get d = s.mem.get d := by
  rw [setBytes_pg0, TMap.get_set_ne _ _ hd]

/-! ### Tables -/

/-- Every page table in memory is a tree with its mapping. -/
def Tables (own : ℕ → Use) (L : ℕ → List ℕ → ℕ) (mem : TMap Bytes) : Prop :=
  ∀ r, own r = .table r [] →
    Tree 512 3 (fun d => pte d PTE_V) (fun d π => own d = .table r π) (entry mem) (L r)

/-- The use is by the address space with root `r`. -/
def Use.of (r : ℕ) : Use → Prop
  | table r' _ => r' = r
  | user r' _ => r' = r
  | _ => False

structure Frame (r : ℕ) (own : ℕ → Use) (s : State) (own' : ℕ → Use) (t : State) : Prop where
  rest : Rest s t
  deny : s.deny = [] → t.deny = []
  use : ∀ p, own p ≠ .free → ¬ (own p).of r → own' p = own p
  mem : ∀ p, own p ≠ .free → ¬ (own p).of r → t.mem.get p = s.mem.get p
  new : ∀ p, own p = .free ∨ (own p).of r → own' p = .free ∨ (own' p).of r

namespace Frame

theorem refl (r : ℕ) (own : ℕ → Use) (s : State) : Frame r own s own s :=
  ⟨.refl s, id, fun _ _ _ => rfl, fun _ _ _ => rfl, fun _ => id⟩

theorem trans {own'' : ℕ → Use} {u : State} (h : Frame r own s own' t)
    (h' : Frame r own' t own'' u) : Frame r own s own'' u := by
  have hkeep : ∀ p, own p ≠ .free → ¬ (own p).of r → own' p ≠ .free ∧ ¬ (own' p).of r := by
    intro p hf hr
    rw [h.use p hf hr]
    exact ⟨hf, hr⟩
  refine ⟨h.rest.trans h'.rest, fun hd => h'.deny (h.deny hd), fun p hf hr => ?_,
    fun p hf hr => ?_, fun p hp => h'.new p (h.new p hp)⟩
  · obtain ⟨hf', hr'⟩ := hkeep p hf hr
    rw [h'.use p hf' hr', h.use p hf hr]
  · obtain ⟨hf', hr'⟩ := hkeep p hf hr
    rw [h'.mem p hf' hr', h.mem p hf hr]

theorem iff_of_not (h : Frame r own s own' t) {u : Use} (hf : u ≠ .free) (hr : ¬ u.of r) :
    own' p = u ↔ own p = u := by
  constructor
  · intro hp
    by_cases hold : own p = .free ∨ (own p).of r
    · rcases h.new p hold with hn | hn
      · rw [hn] at hp
        exact absurd hp.symm hf
      · rw [hp] at hn
        exact absurd hn hr
    · push Not at hold
      rw [← h.use p hold.1 hold.2, hp]
  · intro hp
    rw [h.use p (by rw [hp]; exact hf) (by rw [hp]; exact hr), hp]

end Frame

/-- A change to one page table leaves the others trees. -/
theorem Tables.update (h : Tables own L s.mem)
    (hown : ∀ r', r' ≠ r → ∀ d π, own' d = .table r' π ↔ own d = .table r' π)
    (hmem : ∀ r', r' ≠ r → ∀ d π, own d = .table r' π → t.mem.get d = s.mem.get d)
    (hL : ∀ r', r' ≠ r → L' r' = L r')
    (hr : own' r = .table r [] → Tree 512 3 (fun d => pte d PTE_V)
      (fun d π => own' d = .table r π) (entry t.mem) (L' r)) : Tables own' L' t.mem := by
  intro r' hr'
  by_cases heq : r' = r
  · rw [heq] at hr' ⊢
    exact hr hr'
  · rw [hL r' heq]
    refine (h r' ((hown r' heq r' []).1 hr')).congr (hown r' heq) fun d π i hd _ => ?_
    rw [entry, entry, hmem r' heq d π hd]

structure Memory (k : Layout) (own : ℕ → Use) (L : ℕ → List ℕ → ℕ) (s : State) : Prop where
  pages : Pages k own s
  tables : Tables own L s.mem

theorem pte_V_ne (p : ℕ) : pte p PTE_V ≠ 0 := by
  unfold pte PTE_V
  omega

theorem pte_lt {f : ℕ} (hp : p < 2 ^ 52) (hf : f < 1024) : pte p f < 2 ^ 64 := by
  unfold pte
  omega

/-- A new page-table page `p`, under entry `i` of the page `c`. -/
theorem Memory.attach (h : Memory k own L s) (hr : own r = .table r [])
    (hc : own c = .table r π) (hπ : π.length < 2) (hi : i < 512) (hci : entry s.mem c i = 0)
    (hp : own p = .held)
    (ht : t = (s.setBytes (pg p) (List.replicate PGSIZE 0)).store (pg c + 8 * i) 8 (pte p PTE_V)) :
    Memory k (Function.update own p (.table r (π ++ [i]))) L t := by
  have hpc : p ≠ c := by
    rintro rfl
    rw [hp] at hc
    cases hc
  have hrp : r ≠ p := by
    rintro rfl
    rw [hp] at hr
    cases hr
  have hlt : pte p PTE_V < 2 ^ 64 := pte_lt (h.pages.small (by rw [hp]; simp)) (by decide)
  have hmem : ∀ q, q ≠ p → q ≠ c → t.mem.get q = s.mem.get q := by
    intro q hqp hqc
    rw [ht, mem_store_ne _ hi hqc, mem_setBytes_ne _ _ hqp]
  have hentry : ∀ d j, d ≠ p → entry t.mem d j =
      if d = c ∧ j = i then pte p PTE_V else entry s.mem d j := by
    intro d j hd
    rw [ht, entry_store _ hi hlt, entry, mem_setBytes_ne _ _ hd, ← entry]
  constructor
  · refine (h.pages.retype (u := .table r (π ++ [i])) (by rw [hp]; simp) (by rw [hp]; simp)
      (by simp) (by simp)).congr (fun _ => Iff.rfl) (fun _ => Iff.rfl) (by rw [ht]; rfl)
      fun q hq => hmem q ?_ ?_
    · rintro rfl
      rw [Function.update_self] at hq
      cases hq
    · rintro rfl
      rw [Function.update_of_ne hpc.symm, hc] at hq
      cases hq
  · refine h.tables.update (fun r' hr' d ρ => ?_) (fun r' hr' d ρ hd => ?_) (fun _ _ => rfl)
      fun _ => (h.tables r hr).attach hc (by omega) hi hci pte_V_ne (p := p) (fun ρ hρ => ?_)
      (fun d ρ => ?_) ?_ (fun j hj => ?_) fun d ρ j hd hj hne => ?_
    · by_cases hd : d = p
      · rw [hd, Function.update_self, hp]
        simp [hr'.symm]
      · rw [Function.update_of_ne hd]
    · refine hmem d ?_ ?_
      · rintro rfl
        rw [hp] at hd
        cases hd
      · rintro rfl
        rw [hc] at hd
        cases hd
        exact hr' rfl
    · rw [hp] at hρ
      cases hρ
    · by_cases hd : d = p
      · rw [if_pos hd, hd, Function.update_self]
        simp [eq_comm]
      · rw [if_neg hd, Function.update_of_ne hd]
    · rw [hentry c i hpc.symm, if_pos ⟨rfl, rfl⟩]
    · rw [ht, entry_store _ hi hlt, if_neg fun hj => hpc hj.1]
      exact entry_zeros s hj
    · have hd' : own d = .table r ρ := hd
      rw [hentry d j, if_neg hne]
      rintro rfl
      rw [hp] at hd'
      cases hd'

/-! ### `walk` -/

/-- The indices by which `walkFrom` goes down `n` levels. -/
def downs (va : ℕ) : ℕ → List ℕ
  | 0 => []
  | n + 1 => PX (n + 1) va :: downs va n

/-- The place of the last-level page for `va`. -/
def path (va : ℕ) : List ℕ := [PX 2 va, PX 1 va]

def key (va : ℕ) : List ℕ := path va ++ [PX 0 va]

theorem Memory.pa_of_table (h : Memory k own L s) (hd : own d = .table r π) :
    PTE2PA (pte d PTE_V) = pg d :=
  PTE2PA_pte (h.pages.small (by rw [hd]; simp)) (by decide)

theorem pte_V_and (p : ℕ) : pte p PTE_V &&& PTE_V ≠ 0 := by
  rw [pte_and (by decide) (by decide)]
  decide

theorem walkFrom_find (h : Memory k own L s) (hr : own r = .table r []) (n : ℕ) :
    ∀ c π, own c = .table r π → π.length + n = 2 →
    Post (walkFrom va false n (pg c)) s (fun a t => t = s ∧
      (a = 0 ∧ (∀ d, own d ≠ .table r (π ++ downs va n)) ∨
        ∃ d, own d = .table r (π ++ downs va n) ∧ a = pg d + 8 * PX 0 va)) E := by
  induction n with
  | zero =>
    intro c π hc _
    exact post_pure.2 ⟨rfl, .inr ⟨c, by simpa [downs] using hc, rfl⟩⟩
  | succ n ih =>
    intro c π hc hπ
    have hi := PX_lt (n + 1) va
    simp only [walkFrom, read64, post_bind, post_get, post_pure, post_ite,
      load_entry s c hi]
    rcases (h.tables r hr).down c π _ hc (by omega) hi with h0 | ⟨d, hd, hcd⟩
    · rw [h0]
      refine ⟨fun hv => absurd (Nat.zero_and _) hv, fun _ => ⟨Bool.noConfusion, fun _ => ?_⟩⟩
      refine ⟨trivial, .inl ⟨trivial, fun d hd => ?_⟩⟩
      refine (h.tables r hr).none_below pte_V_ne hc h0 ?_ hd
      exact ⟨downs va n, by simp [downs]⟩
    · rw [hcd, h.pa_of_table hd]
      refine ⟨fun _ => ?_, fun hv => absurd (pte_V_and d) hv⟩
      rw [downs, List.append_cons]
      exact ih d _ hd (by simp; omega)

/-- `walk` without allocation finds the entry of `va`, if there is a page for it. -/
theorem walk_find (h : Memory k own L s) (hr : own r = .table r []) (hva : va < MAXVA) :
    Post (walk (pg r) va false) s (fun a t => t = s ∧
      (a = 0 ∧ L r (key va) = 0 ∨
        ∃ d, own d = .table r (path va) ∧ a = pg d + 8 * PX 0 va)) E := by
  simp only [walk, post_bind, post_ite]
  refine ⟨fun hge => absurd hva (not_lt.2 hge), fun _ => ?_⟩
  refine (walkFrom_find h hr 2 r [] hr rfl).imp fun a t h' => ⟨h'.1, h'.2.imp_left ?_⟩
  rintro ⟨h0, hno⟩
  exact ⟨h0, (h.tables r hr).absent _ _ hno rfl⟩

theorem Memory.load_key (h : Memory k own L s) (hr : own r = .table r [])
    (hd : own d = .table r (path va)) : s.load (pg d + 8 * PX 0 va) 8 = L r (key va) := by
  rw [load_entry s d (PX_lt 0 va)]
  exact (h.tables r hr).value d _ _ hd rfl (PX_lt 0 va)

theorem Memory.addr_ne_zero (h : Memory k own L s) (hd : own d = .table r π) {o : ℕ} :
    pg d + o ≠ 0 := by
  have := h.pages.pos (p := d) (by rw [hd]; simp)
  unfold pg PGSIZE
  omega

/-- The table `r` has got new pages, at the places `K`. -/
def Grows (r : ℕ) (K : List ℕ → Prop) (own own' : ℕ → Use) : Prop :=
  ∀ p, own' p = own p ∨ own p = .free ∧ ∃ π, π ≠ [] ∧ K π ∧ own' p = .table r π

namespace Grows
variable {K : List ℕ → Prop}

theorem refl (r : ℕ) (K : List ℕ → Prop) (own : ℕ → Use) : Grows r K own own := fun _ => .inl rfl

theorem keep (h : Grows r K own own') (hp : own p ≠ .free) : own' p = own p :=
  (h p).resolve_right fun hn => hp hn.1

theorem trans {own'' : ℕ → Use} (h : Grows r K own own') (h' : Grows r K own' own'') :
    Grows r K own own'' := by
  intro p
  rcases h p with hp | ⟨hf, π, h0, hK, hp⟩
  · rw [← hp]
    exact h' p
  · refine .inr ⟨hf, π, h0, hK, ?_⟩
    rw [h'.keep (by rw [hp]; simp), hp]

theorem mono {K' : List ℕ → Prop} (h : Grows r K own own') (hK : ∀ π, K π → K' π) :
    Grows r K' own own' := by
  intro p
  refine (h p).imp_right ?_
  rintro ⟨hf, π, h0, hπ, hp⟩
  exact ⟨hf, π, h0, hK π hπ, hp⟩

end Grows

structure Walked (k : Layout) (r : ℕ) (K : List ℕ → Prop) (L : ℕ → List ℕ → ℕ) (own : ℕ → Use)
    (s : State) (own' : ℕ → Use) (t : State) : Prop where
  memory : Memory k own' L t
  frame : Frame r own s own' t
  grows : Grows r K own own'

theorem Walked.trans {K : List ℕ → Prop} {own'' : ℕ → Use} {u : State}
    (h : Walked k r K L own s own' t) (h' : Walked k r K L' own' t own'' u) :
    Walked k r K L' own s own'' u :=
  ⟨h'.memory, h.frame.trans h'.frame, h.grows.trans h'.grows⟩

theorem Walked.mono {K M : List ℕ → Prop} (h : Walked k r K L own s own' t)
    (hK : ∀ π, K π → M π) : Walked k r M L own s own' t :=
  ⟨h.memory, h.frame, h.grows.mono hK⟩

theorem Memory.unallocated (h : Memory k own L s) (r : ℕ) (K : List ℕ → Prop) (hrest : Rest s t)
    (hdeny : t.deny = s.deny.tail) (hmem : t.mem = s.mem) (hpages : Pages k own t) :
    Walked k r K L own s own t := by
  refine ⟨⟨hpages, hmem ▸ h.tables⟩, ⟨hrest, fun hd => ?_, fun _ _ _ => rfl, fun _ _ _ => ?_,
    fun _ => id⟩, .refl r K own⟩
  · rw [hdeny, hd]
    rfl
  · rw [hmem]

theorem Memory.attached (h : Memory k own L s) (hr : own r = .table r [])
    (hc : own c = .table r π) (hπ : π.length < 2) (hi : i < 512) (hci : entry s.mem c i = 0)
    (hp : own p = .free) {s₁ : State} (hrest : Rest s s₁) (hdeny : s₁.deny = s.deny.tail)
    (hpages : Pages k (Function.update own p .held) s₁) (honly : OnlyPage p s s₁)
    (ht : t = (s₁.setBytes (pg p) (List.replicate PGSIZE 0)).store (pg c + 8 * i) 8 (pte p PTE_V)) :
    Walked k r (· = π ++ [i]) L own s (Function.update own p (.table r (π ++ [i]))) t := by
  have hne : ∀ {q ρ r'}, own q = .table r' ρ → q ≠ p := by
    rintro q ρ r' hq rfl
    rw [hp] at hq
    cases hq
  have htable : ∀ q ρ r', Function.update own p .held q = .table r' ρ ↔ own q = .table r' ρ := by
    intro q ρ r'
    by_cases hq : q = p
    · rw [hq, Function.update_self, hp]
      simp
    · rw [Function.update_of_ne hq]
  have htables : Tables (Function.update own p .held) L s₁.mem := by
    intro r' hr'
    refine (h.tables r' ((htable r' [] r').1 hr')).congr (fun d ρ => htable d ρ r') ?_
    intro d ρ j hd _
    rw [entry, entry, honly d (hne hd)]
  have hattach := Memory.attach (t := t) ⟨hpages, htables⟩ ((htable r [] r).2 hr)
    ((htable c π r).2 hc) hπ hi (by rw [entry, honly c (hne hc), ← entry, hci])
    (Function.update_self p _ _) ht
  rw [Function.update_idem] at hattach
  refine ⟨hattach, ⟨?_, fun hd => ?_, fun q hf hq => ?_, fun q hf hq => ?_, fun q hq => ?_⟩,
    fun q => ?_⟩
  · rw [ht]
    exact ⟨hrest.1, hrest.2, hrest.3, hrest.4, hrest.5⟩
  · rw [ht]
    show s₁.deny = []
    rw [hdeny, hd]
    rfl
  · rw [Function.update_of_ne]
    rintro rfl
    exact hf hp
  · have hqp : q ≠ p := by
      rintro rfl
      exact hf hp
    have hqc : q ≠ c := by
      rintro rfl
      rw [hc] at hq
      exact hq rfl
    rw [ht, mem_store_ne _ hi hqc, mem_setBytes_ne _ _ hqp, honly q hqp]
  · by_cases hqp : q = p
    · rw [hqp, Function.update_self]
      exact .inr rfl
    · rw [Function.update_of_ne hqp]
      exact hq
  · by_cases hqp : q = p
    · rw [hqp, Function.update_self]
      exact .inr ⟨hp, _, by simp, rfl, rfl⟩
    · rw [Function.update_of_ne hqp]
      exact .inl rfl

theorem walkFrom_alloc (n : ℕ) : ∀ {own s c π}, Memory k own L s → own r = .table r [] →
    own c = .table r π → π.length + n = 2 →
    Post (walkFrom va true n (pg c)) s (fun a t => ∃ own',
      Walked k r (· <+: π ++ downs va n) L own s own' t ∧
      (a = 0 ∧ (s.deny = [] → ∀ p, own' p ≠ .free) ∨
        ∃ d, own' d = .table r (π ++ downs va n) ∧ a = pg d + 8 * PX 0 va)) E := by
  induction n with
  | zero =>
    intro own s c π h hr hc _
    refine post_pure.2 ⟨own, ⟨h, .refl r own s, .refl r _ own⟩, .inr ⟨c, ?_, rfl⟩⟩
    simpa [downs] using hc
  | succ n ih =>
    intro own s c π h hr hc hπ
    have hi := PX_lt (n + 1) va
    simp only [walkFrom, read64, memset_eq, writeBytes, write64, post_bind, post_get, post_pure,
      post_ite, post_modify, load_entry s c hi]
    rw [downs, List.append_cons]
    rcases (h.tables r hr).down c π _ hc (by omega) hi with h0 | ⟨d, hd, hcd⟩
    · rw [h0]
      refine ⟨fun hv => absurd (Nat.zero_and _) hv, fun _ => ⟨fun _ => ?_, fun hf => (hf trivial).elim⟩⟩
      refine (kalloc_spec h.pages).imp ?_
      rintro a s₁ ⟨hrest, hdeny, ⟨rfl, hmem, hpages, hwhy⟩ | ⟨p, rfl, hp, hpages, honly⟩⟩
      · refine ⟨fun _ => ⟨own, h.unallocated r _ hrest hdeny hmem hpages, .inl ⟨trivial, ?_⟩⟩,
          fun hne => absurd rfl hne⟩
        intro hd
        exact hwhy.resolve_left (by rw [hd]; simp)
      · have hatt := h.attached hr hc (by omega) hi h0 hp hrest hdeny hpages honly rfl
        have hp0 : pg p ≠ 0 := fun hp0 =>
          (h.pages.pos (by rw [hp]; simp)).ne' (pg_eq_zero.1 hp0)
        refine ⟨fun h0 => absurd h0 hp0, fun _ => ?_⟩
        rw [PA2PTE_or (by decide), pg_div]
        refine (ih hatt.memory ?_ (Function.update_self p _ own) (by simp; omega)).imp ?_
        · rw [hatt.grows.keep (by rw [hr]; simp), hr]
        · rintro a t ⟨own', hw, ha⟩
          refine ⟨own', .trans (hatt.mono ?_) hw, ha.imp_left ?_⟩
          · rintro ρ rfl
            exact List.prefix_append _ _
          · rintro ⟨ha, hwhy⟩
            exact ⟨ha, fun hd => hwhy (hatt.frame.deny hd)⟩
    · rw [hcd, h.pa_of_table hd]
      refine ⟨fun _ => ?_, fun hv => absurd (pte_V_and d) hv⟩
      exact ih h hr hd (by simp; omega)

/-- `walk` with allocation adds the missing pages of the table, unless memory runs
out. -/
theorem walk_alloc (h : Memory k own L s) (hr : own r = .table r []) (hva : va < MAXVA) :
    Post (walk (pg r) va true) s (fun a t => ∃ own',
      Walked k r (· <+: path va) L own s own' t ∧
      (a = 0 ∧ (s.deny = [] → ∀ p, own' p ≠ .free) ∨
        ∃ d, own' d = .table r (path va) ∧ a = pg d + 8 * PX 0 va)) E := by
  simp only [walk, post_bind, post_ite]
  exact ⟨fun hge => absurd hva (not_lt.2 hge), fun _ => walkFrom_alloc 2 h hr hr rfl⟩

/-! ### `mappages` -/

theorem key_inj {a b : ℕ} (ha : a < 2 ^ 39) (hb : b < 2 ^ 39) (h : key a = key b) :
    a / PGSIZE = b / PGSIZE := by
  simp only [key, path, PX_eq, List.cons_append, List.nil_append, List.cons.injEq] at h
  unfold PGSIZE
  omega

def setL (L : ℕ → List ℕ → ℕ) (r : ℕ) (κ : List ℕ) (e : ℕ) : ℕ → List ℕ → ℕ :=
  Function.update L r (Function.update (L r) κ e)

theorem setL_self (L : ℕ → List ℕ → ℕ) (r : ℕ) (κ : List ℕ) (e : ℕ) : setL L r κ e r κ = e := by
  simp [setL]

theorem setL_ne {κ κ' : List ℕ} {e : ℕ} (h : κ' ≠ κ) : setL L r κ e r κ' = L r κ' := by
  simp [setL, h]

theorem setL_root {κ : List ℕ} {e r' : ℕ} (h : r' ≠ r) : setL L r κ e r' = L r' := by
  simp [setL, h]

theorem Memory.setEntry (h : Memory k own L s) (hr : own r = .table r [])
    (hd : own d = .table r (path va)) (hv : v < 2 ^ 64)
    (ht : t = s.store (pg d + 8 * PX 0 va) 8 v) :
    Memory k own (setL L r (key va) v) t ∧ Frame r own s own t := by
  have hi := PX_lt 0 va
  have hmem : ∀ q, q ≠ d → t.mem.get q = s.mem.get q := by
    intro q hq
    rw [ht, mem_store_ne _ hi hq]
  have hdfree : own d ≠ .free := by
    rw [hd]
    simp
  refine ⟨⟨h.pages.congr (fun _ => Iff.rfl) (fun _ => Iff.rfl) (by rw [ht]; rfl) fun q hq =>
    hmem q ?_, h.tables.update (fun _ _ _ _ => Iff.rfl) (fun r' hr' e ρ he => hmem e ?_)
    (fun r' hr' => setL_root hr') fun _ => ?_⟩, ⟨?_, fun hd => ?_, fun _ _ _ => rfl,
    fun q _ hq => hmem q ?_, fun _ => id⟩⟩
  · rintro rfl
    exact hdfree hq
  · rintro rfl
    rw [hd] at he
    cases he
    exact hr' rfl
  · rw [setL, Function.update_self]
    refine (h.tables r hr).setValue hd rfl ?_ fun e ρ j _ _ hne => ?_
    · rw [ht, entry_store _ hi hv, if_pos ⟨rfl, rfl⟩]
    · rw [ht, entry_store _ hi hv, if_neg hne]
  · rw [ht]
    exact ⟨rfl, rfl, rfl, rfl, rfl⟩
  · rw [ht]
    exact hd
  · rintro rfl
    rw [hd] at hq
    exact hq rfl

/-- `L'` is the mapping `L` with the entries `e` for the first `m` pages from `a` on. -/
structure MapsMore (r a m : ℕ) (e : ℕ → ℕ) (L L' : ℕ → List ℕ → ℕ) : Prop where
  new : ∀ j, j < m → L' r (key (a + j * PGSIZE)) = e j
  old : ∀ κ, (∀ j, j < m → κ ≠ key (a + j * PGSIZE)) → L' r κ = L r κ
  others : ∀ r', r' ≠ r → L' r' = L r'

theorem MapsMore.none (r a : ℕ) (e : ℕ → ℕ) (L : ℕ → List ℕ → ℕ) : MapsMore r a 0 e L L :=
  ⟨fun _ hj => absurd hj (Nat.not_lt_zero _), fun _ _ => rfl, fun _ _ => rfl⟩

theorem MapsMore.cons {a m : ℕ} {e : ℕ → ℕ} (ha : a + m * PGSIZE < MAXVA)
    (h : MapsMore r (a + PGSIZE) m (fun j => e (j + 1)) (setL L r (key a) (e 0)) L') :
    MapsMore r a (m + 1) e L L' := by
  have hnext : ∀ j, a + PGSIZE + j * PGSIZE = a + (j + 1) * PGSIZE := by
    intro j
    ring
  constructor
  · intro j hj
    cases j with
    | zero =>
      rw [Nat.zero_mul, Nat.add_zero, h.old, setL_self]
      intro j hj hkey
      have hle : (j + 1) * PGSIZE ≤ m * PGSIZE := Nat.mul_le_mul_right _ hj
      rw [hnext] at hkey
      have := key_inj (by unfold MAXVA at ha; omega) (by unfold MAXVA at ha; omega) hkey
      rw [Nat.add_mul_div_right _ _ (by decide)] at this
      omega
    | succ j =>
      rw [← hnext]
      exact h.new j (by omega)
  · intro κ hκ
    rw [h.old κ fun j hj => hnext j ▸ hκ (j + 1) (by omega)]
    exact setL_ne (by simpa using hκ 0 (Nat.zero_lt_succ m))
  · intro r' hr'
    rw [h.others r' hr', setL_root hr']

/-- The entry that `mappages` makes for its `j`-th page. -/
def mapEntry (perm pa j : ℕ) : ℕ := pte ((pa + j * PGSIZE) % 2 ^ 64 / PGSIZE) (perm ||| PTE_V)

theorem mapEntry_zero {perm pa : ℕ} (hpa : pa < 2 ^ 64) :
    mapEntry perm pa 0 = pte (pa / PGSIZE) (perm ||| PTE_V) := by
  rw [mapEntry, Nat.zero_mul, Nat.add_zero, Nat.mod_eq_of_lt hpa]

theorem mapEntry_next (perm pa j : ℕ) :
    mapEntry perm ((pa + PGSIZE) % 2 ^ 64) j = mapEntry perm pa (j + 1) := by
  have hpa : ((pa + PGSIZE) % 2 ^ 64 + j * PGSIZE) % 2 ^ 64 = (pa + (j + 1) * PGSIZE) % 2 ^ 64 := by
    unfold PGSIZE
    omega
  rw [mapEntry, hpa, mapEntry]

theorem or_lt {a b : ℕ} (ha : a < 1024) (hb : b < 1024) : a ||| b < 1024 :=
  Nat.or_lt_two_pow (n := 10) ha hb

theorem pte_lt_of_pa {pa f : ℕ} (hpa : pa < 2 ^ 64) (hf : f < 1024) :
    pte (pa / PGSIZE) f < 2 ^ 64 := by
  refine pte_lt ?_ hf
  unfold PGSIZE
  omega

theorem Walked.setEntry {K : List ℕ → Prop} (h : Walked k r K L own s own' t)
    (hr : own' r = .table r []) (hd : own' d = .table r (path va)) (hv : v < 2 ^ 64) :
    Walked k r K (setL L r (key va) v) own s own' (t.store (pg d + 8 * PX 0 va) 8 v) := by
  obtain ⟨hm, hf⟩ := h.memory.setEntry hr hd hv rfl
  exact ⟨hm, h.frame.trans hf, h.grows⟩

theorem mapPage_spec {perm a pa : ℕ} (hperm : perm < 1024) (h : Memory k own L s)
    (hr : own r = .table r []) (ha : a < MAXVA) (hpa : pa < 2 ^ 64)
    (h0 : L r (key a) &&& PTE_V = 0) :
    Post (mapPage (pg r) perm a pa) s (fun ok t => ∃ own',
      Walked k r (· <+: path a)
        (if ok then setL L r (key a) (pte (pa / PGSIZE) (perm ||| PTE_V)) else L) own s own' t ∧
      (ok = false → s.deny = [] → ∀ p, own' p ≠ .free)) E := by
  have hflags : perm ||| PTE_V < 1024 := or_lt hperm (by decide)
  simp only [mapPage, read64, write64, post_bind, post_get, post_pure, post_ite, post_modify]
  refine (walk_alloc h hr ha).imp ?_
  rintro pte t ⟨own', hw, ⟨rfl, hwhy⟩ | ⟨d, hd, rfl⟩⟩
  · exact ⟨fun _ => ⟨own', hw, fun _ => hwhy⟩, fun hne => absurd rfl hne⟩
  · have hr' : own' r = .table r [] := by rw [hw.grows.keep (by rw [hr]; simp), hr]
    refine ⟨fun hz => absurd hz (hw.memory.addr_ne_zero hd), fun _ => ?_⟩
    rw [hw.memory.load_key hr' hd, h0, Nat.or_assoc, PA2PTE_or hflags]
    refine ⟨fun hne => absurd rfl hne, fun _ => ⟨own', ?_, fun hf => ?_⟩⟩
    · exact hw.setEntry hr' hd (pte_lt_of_pa hpa hflags)
    · simp at hf

theorem mappagesFrom_spec {perm : ℕ} (hperm : perm < 1024) (n : ℕ) :
    ∀ {own L s a pa}, Memory k own L s → own r = .table r [] → a + n * PGSIZE < MAXVA →
    pa < 2 ^ 64 → (∀ j, j ≤ n → L r (key (a + j * PGSIZE)) &&& PTE_V = 0) →
    Post (mappagesFrom (pg r) perm n a pa) s (fun ok t => ∃ own' L' m,
      Walked k r (fun π => ∃ j, j ≤ n ∧ π <+: path (a + j * PGSIZE)) L' own s own' t ∧
      MapsMore r a m (mapEntry perm pa) L L' ∧
      (ok = true ∧ m = n + 1 ∨
        ok = false ∧ m ≤ n ∧ (s.deny = [] → ∀ p, own' p ≠ .free))) E := by
  have hone : ∀ {L a pa}, a < MAXVA → pa < 2 ^ 64 → MapsMore r a 1 (mapEntry perm pa) L
      (setL L r (key a) (pte (pa / PGSIZE) (perm ||| PTE_V))) := by
    intro L a pa ha hpa
    refine .cons (by omega) ?_
    rw [mapEntry_zero hpa]
    exact .none _ _ _ _
  induction n with
  | zero =>
    intro own L s a pa h hr ha hpa h0
    refine (mapPage_spec hperm h hr (by omega) hpa (by simpa using h0 0 le_rfl)).imp ?_
    rintro ok t ⟨own', hw, hwhy⟩
    have hw := hw.mono (M := fun π => ∃ j, j ≤ 0 ∧ π <+: path (a + j * PGSIZE))
      fun π hπ => ⟨0, le_rfl, by simpa using hπ⟩
    cases ok with
    | true => exact ⟨own', _, 1, hw, hone (by omega) hpa, .inl ⟨rfl, rfl⟩⟩
    | false => exact ⟨own', _, 0, hw, .none _ _ _ _, .inr ⟨rfl, le_rfl, hwhy rfl⟩⟩
  | succ n ih =>
    intro own L s a pa h hr ha hpa h0
    have hal : (a + PGSIZE) % 2 ^ 64 = a + PGSIZE := by
      unfold PGSIZE MAXVA at *
      omega
    have hnext : ∀ j, a + PGSIZE + j * PGSIZE = a + (j + 1) * PGSIZE := by
      intro j
      ring
    simp only [mappagesFrom, post_bind, post_ite, post_pure, hal]
    refine (mapPage_spec hperm h hr (by omega) hpa (by simpa using h0 0 (Nat.zero_le _))).imp ?_
    rintro ok t ⟨own', hw, hwhy⟩
    have hw := hw.mono (M := fun π => ∃ j, j ≤ n + 1 ∧ π <+: path (a + j * PGSIZE))
      fun π hπ => ⟨0, Nat.zero_le _, by simpa using hπ⟩
    cases ok with
    | false =>
      exact ⟨fun hf => Bool.noConfusion hf,
        fun _ => ⟨own', _, 0, hw, .none _ _ _ _, .inr ⟨trivial, Nat.zero_le _, hwhy rfl⟩⟩⟩
    | true =>
      refine ⟨fun _ => ?_, fun hf => absurd rfl hf⟩
      have hr' : own' r = .table r [] := by rw [hw.grows.keep (by rw [hr]; simp), hr]
      refine (ih hw.memory hr' ?_ (Nat.mod_lt _ (by decide)) fun j hj => ?_).imp ?_
      · rw [hnext]
        exact ha
      · rw [hnext, if_pos rfl, setL_ne, h0 (j + 1) (by omega)]
        intro hkey
        have hj : (j + 1) * PGSIZE ≤ (n + 1) * PGSIZE := Nat.mul_le_mul_right _ (by omega)
        have := key_inj (by unfold MAXVA at ha; omega) (by unfold MAXVA at ha; omega) hkey
        rw [Nat.add_mul_div_right _ _ (by decide)] at this
        omega
      · rintro ok u ⟨own'', L'', m, hw', hmaps, hend⟩
        rw [funext (mapEntry_next perm pa), if_pos rfl, ← mapEntry_zero hpa] at hmaps
        have hm : m ≤ n + 1 := by
          obtain ⟨-, hm⟩ | ⟨-, hm, -⟩ := hend
          · exact hm.le
          · omega
        refine ⟨own'', L'', m + 1, hw.trans (hw'.mono ?_), .cons ?_ hmaps, hend.imp ?_ ?_⟩
        · rintro π ⟨j, hj, hπ⟩
          exact ⟨j + 1, by omega, hnext j ▸ hπ⟩
        · have := Nat.mul_le_mul_right PGSIZE hm
          omega
        · rintro ⟨hok, hm⟩
          exact ⟨hok, by rw [hm]⟩
        · rintro ⟨hok, hm, hwhy'⟩
          exact ⟨hok, by omega, fun hd => hwhy' (hw.frame.deny hd)⟩

theorem mappages_page {perm pa : ℕ} (hperm : perm < 1024) (h : Memory k own L s)
    (hr : own r = .table r []) (hva : va % PGSIZE = 0) (ha : va < MAXVA) (hpa : pa < 2 ^ 64)
    (h0 : L r (key va) &&& PTE_V = 0) :
    Post (mappages (pg r) va PGSIZE pa perm) s (fun ok t => ∃ own',
      Walked k r (· <+: path va)
        (if ok then setL L r (key va) (pte (pa / PGSIZE) (perm ||| PTE_V)) else L) own s own' t ∧
      (ok = false → s.deny = [] → ∀ p, own' p ≠ .free)) E := by
  have hlast : PGROUNDDOWN ((va + PGSIZE - 1) % 2 ^ 64) = va := by
    unfold PGROUNDDOWN PGSIZE MAXVA at *
    omega
  have hfirst : PGROUNDDOWN va = va := by
    unfold PGROUNDDOWN
    omega
  have hn : (va + 2 ^ 64 - va) % 2 ^ 64 / PGSIZE = 0 := by
    rw [Nat.add_sub_cancel_left]
    decide
  simp only [mappages, post_bind, post_ite, hlast, hfirst, hn]
  exact ⟨fun hz => absurd hz (by decide), fun _ => mapPage_spec hperm h hr ha hpa h0⟩

end Vm
end Xv6
