import Xv6.Vm.Mapping
import Xv6.Vm.UserCopy

/-!
User memory, byte by byte: which virtual addresses the kernel may reach through a page
table, and which physical byte each of them is. `copyin`, `copyout` and `copyinstr` go
page by page and have the same effect. Nothing is assumed of the memory but that the
table maps no user page to address `0`, and for `copyout` none to its own pages.
-/

namespace Xv6
namespace Vm

open Hoare

variable {s t s₀ : State} {E : Panic → State → Prop} {pagetable va pa n m c : ℕ}

/-! ### Reading the table -/

/-- The pages that `walkFrom` reads on its way, the page of the entry included. -/
def walkReads (va : ℕ) (s : State) : ℕ → ℕ → List ℕ
  | 0, pagetable => [pagetable / PGSIZE]
  | level + 1, pagetable =>
      let e := s.load (pagetable + 8 * PX (level + 1) va) 8
      pagetable / PGSIZE :: if e &&& PTE_V ≠ 0 then walkReads va s level (PTE2PA e) else []

theorem load_table {i : ℕ} (hp : pagetable % PGSIZE = 0) (hi : i < 512)
    (hmem : t.mem.get (pagetable / PGSIZE) = s.mem.get (pagetable / PGSIZE)) :
    t.load (pagetable + 8 * i) 8 = s.load (pagetable + 8 * i) 8 := by
  have hdiv : (pagetable + 8 * i) / PGSIZE = pagetable / PGSIZE := by
    unfold PGSIZE at *
    omega
  rw [State.load, State.load, hdiv, hmem]

/-- `walkFrom` without allocation sees only the pages it reads. -/
theorem walkFrom_frame (level : ℕ) : ∀ {pagetable}, pagetable % PGSIZE = 0 →
    (∀ p, p ∈ walkReads va s level pagetable → t.mem.get p = s.mem.get p) →
    walkReads va t level pagetable = walkReads va s level pagetable ∧
    ∃ a, walkFrom va false level pagetable s = .ok a s ∧
      walkFrom va false level pagetable t = .ok a t ∧ (a ≠ 0 → t.load a 8 = s.load a 8) := by
  induction level with
  | zero =>
    intro pagetable hp hmem
    refine ⟨rfl, _, rfl, rfl, fun _ => load_table hp (PX_lt 0 va) (hmem _ ?_)⟩
    exact List.mem_singleton_self _
  | succ level ih =>
    intro pagetable hp hmem
    have hload := load_table hp (PX_lt (level + 1) va) (hmem _ List.mem_cons_self)
    have hstep : ∀ u : State, walkFrom va false (level + 1) pagetable u =
        if u.load (pagetable + 8 * PX (level + 1) va) 8 &&& PTE_V ≠ 0 then
          walkFrom va false level (PTE2PA (u.load (pagetable + 8 * PX (level + 1) va) 8)) u
        else .ok 0 u := by
      intro u
      rw [walkFrom, run_bind (m := read64 _) rfl]
      simp only [Bool.false_eq_true, if_false]
      split_ifs <;> rfl
    rw [walkReads] at hmem
    by_cases hv : s.load (pagetable + 8 * PX (level + 1) va) 8 &&& PTE_V ≠ 0
    · rw [if_pos hv] at hmem
      obtain ⟨hreads, a, hs, ht, ha⟩ := ih (PTE2PA_mod _) fun p hp => hmem p (List.mem_cons_of_mem _ hp)
      refine ⟨?_, a, ?_, ?_, ha⟩
      · simp only [walkReads]
        rw [hload, if_pos hv, if_pos hv, hreads]
      · rw [hstep, if_pos hv, hs]
      · rw [hstep, hload, if_pos hv, ht]
    · refine ⟨?_, 0, ?_, ?_, fun h0 => absurd rfl h0⟩
      · simp only [walkReads]
        rw [hload, if_neg hv, if_neg hv]
      · rw [hstep, if_neg hv]
      · rw [hstep, hload, if_neg hv]

theorem Memory.table_of_walkReads {k : Layout} {own : ℕ → Use} {L : ℕ → List ℕ → ℕ} {r : ℕ}
    (h : Memory k own L s) (hr : own r = .table r []) (level : ℕ) :
    ∀ {c π p}, own c = .table r π → π.length + level = 2 → p ∈ walkReads va s level (pg c) →
    ∃ ρ, own p = .table r ρ := by
  induction level with
  | zero =>
    intro c π p hc _ hp
    rw [walkReads, pg_div, List.mem_singleton] at hp
    exact ⟨π, by rw [hp, hc]⟩
  | succ level ih =>
    intro c π p hc hπ hp
    have hi := PX_lt (level + 1) va
    rw [walkReads, pg_div, load_entry s c hi] at hp
    rcases (h.tables r hr).down c π _ hc (by omega) hi with h0 | ⟨d, hd, hcd⟩
    · rw [h0] at hp
      simp only [Nat.zero_and, ne_eq, not_true_eq_false, if_false, List.mem_singleton] at hp
      exact ⟨π, by rw [hp, hc]⟩
    · rw [hcd, if_pos (pte_V_and d), h.pa_of_table hd, List.mem_cons] at hp
      rcases hp with rfl | hp
      · exact ⟨π, hc⟩
      · exact ih hd (by simp; omega) hp

/-- The page table at `pagetable` is the same in both memories. -/
def SameTable (pagetable : ℕ) (s t : State) : Prop :=
  ∀ v p, p ∈ walkReads v s 2 pagetable → t.mem.get p = s.mem.get p

theorem walk_frame (hp : pagetable % PGSIZE = 0) (h : SameTable pagetable s t) (hva : va < MAXVA) :
    ∃ a, walk pagetable va false s = .ok a s ∧ walk pagetable va false t = .ok a t ∧
      (a ≠ 0 → t.load a 8 = s.load a 8) := by
  obtain ⟨-, a, hs, ht, ha⟩ := walkFrom_frame 2 hp (h va)
  have hwalk : ∀ u, walk pagetable va false u = walkFrom va false 2 pagetable u := by
    intro u
    rw [walk, if_neg (not_le.2 hva)]
  exact ⟨a, (hwalk s).trans hs, (hwalk t).trans ht, ha⟩

theorem translation_lt {e : ℕ} (h : translation pagetable va s = some e) : va < MAXVA := by
  rw [translation] at h
  cases hrun : walk pagetable va false s with
  | ok a t => exact walk_lt hrun
  | error p t =>
    rw [hrun] at h
    cases h

theorem translation_frame (hp : pagetable % PGSIZE = 0) (h : SameTable pagetable s t) (va : ℕ) :
    translation pagetable va t = translation pagetable va s := by
  by_cases hva : va < MAXVA
  · obtain ⟨a, hs, ht, ha⟩ := walk_frame hp h hva
    rw [translation, translation, hs, ht]
    dsimp only
    by_cases h0 : a = 0
    · rw [if_pos (.inl h0), if_pos (.inl h0)]
    · rw [ha h0]
  · have hnone : ∀ u, translation pagetable va u = none := by
      intro u
      by_contra hne
      obtain ⟨e, he⟩ := Option.ne_none_iff_exists'.1 hne
      exact hva (translation_lt he)
    rw [hnone, hnone]

theorem translation_PGROUNDDOWN (pagetable va : ℕ) (s : State) :
    translation pagetable (PGROUNDDOWN va) s = translation pagetable va s := by
  have hfrom : ∀ level p, walkFrom (PGROUNDDOWN va) false level p = walkFrom va false level p := by
    intro level
    induction level with
    | zero =>
      intro p
      simp only [walkFrom, PX_PGROUNDDOWN]
    | succ level ih =>
      intro p
      simp only [walkFrom, PX_PGROUNDDOWN, ih]
  have hge : PGROUNDDOWN va ≥ MAXVA ↔ va ≥ MAXVA := by
    unfold PGROUNDDOWN MAXVA PGSIZE
    omega
  have hwalk : walk pagetable (PGROUNDDOWN va) false = walk pagetable va false := by
    simp only [walk, hfrom, hge]
  rw [translation, translation, hwalk]

/-! ### Accessible bytes -/

/-- The address is below `MAXVA` and its page is valid and a user page. -/
def Accessible (pagetable va : ℕ) (s : State) : Prop :=
  va < MAXVA ∧ ∃ e, translation pagetable va s = some e ∧ e &&& PTE_U ≠ 0

def userPage (pagetable va : ℕ) (s : State) : Option ℕ :=
  match translation pagetable va s with
  | some e => if e &&& PTE_U = 0 then none else some (PTE2PA e)
  | none => none

def userAddr (pagetable va : ℕ) (s : State) : ℕ := (userPage pagetable va s).getD 0 + va % PGSIZE

theorem accessible_iff : Accessible pagetable va s ↔ ∃ pa, userPage pagetable va s = some pa := by
  unfold Accessible userPage
  constructor
  · rintro ⟨-, e, he, hu⟩
    rw [he]
    exact ⟨_, if_neg hu⟩
  · rintro ⟨pa, hpa⟩
    cases he : translation pagetable va s with
    | none =>
      rw [he] at hpa
      cases hpa
    | some e =>
      refine ⟨translation_lt he, e, rfl, fun hu => ?_⟩
      rw [he] at hpa
      simp [hu] at hpa

instance (pagetable va : ℕ) (s : State) : Decidable (Accessible pagetable va s) :=
  decidable_of_iff ((userPage pagetable va s).isSome = true)
    (Option.isSome_iff_exists.trans accessible_iff.symm)

theorem userPage_mod (h : userPage pagetable va s = some pa) : pa % PGSIZE = 0 := by
  unfold userPage at h
  split at h
  · split_ifs at h
    cases h
    exact PTE2PA_mod _
  · cases h

theorem walkaddr_spec (hp : pagetable % PGSIZE = 0) (va : ℕ) :
    Post (walkaddr pagetable va) s (fun a t => t = s ∧ a = (userPage pagetable va s).getD 0) E := by
  unfold walkaddr
  by_cases hva : va ≥ MAXVA
  · rw [if_pos hva]
    refine post_pure.2 ⟨rfl, ?_⟩
    cases hpage : userPage pagetable va s with
    | none => rfl
    | some pa => exact absurd (accessible_iff.2 ⟨pa, hpage⟩).1 (not_lt.2 hva)
  · rw [if_neg hva]
    obtain ⟨a, hrun, -, -⟩ := walk_frame (t := s) hp (fun _ _ _ => rfl) (not_le.1 hva)
    refine (post_of_ok (Q := fun b u => b = a ∧ u = s) hrun ⟨rfl, rfl⟩).seq ?_
    rintro b u ⟨hb, hu⟩
    rw [hb, hu]
    simp only [read64, post_bind, post_get, post_pure, post_ite, userPage, translation, hrun]
    by_cases h0 : a = 0
    · simp [h0]
    · by_cases hv : s.load a 8 &&& PTE_V = 0
      · simp [h0, hv]
      · by_cases hu : s.load a 8 &&& PTE_U = 0 <;> simp [h0, hv, hu]

def State.byte (s : State) (a : ℕ) : UInt8 := (s.mem.get (a / PGSIZE)).get (a % PGSIZE)

def userBytes (pagetable va n : ℕ) (s : State) : List UInt8 :=
  (List.range n).map fun i => s.byte (userAddr pagetable ((va + i) % 2 ^ 64) s)

/-- Bytes are stored one after another, byte `i` at the address `f i`. -/
def pokes (f : ℕ → ℕ) : List UInt8 → (ℕ → UInt8) → ℕ → UInt8
  | [], g => g
  | b :: l, g => pokes (fun i => f (i + 1)) l (Function.update g (f 0) b)

theorem pokes_append (l l' : List UInt8) : ∀ (f : ℕ → ℕ) (g : ℕ → UInt8),
    pokes f (l ++ l') g = pokes (fun i => f (l.length + i)) l' (pokes f l g) := by
  induction l with
  | nil =>
    intro f g
    simp [pokes]
  | cons b l ih =>
    intro f g
    rw [List.cons_append, pokes, ih, pokes]
    simp only [List.length_cons, Nat.add_right_comm _ 1]

theorem pokes_congr {l : List UInt8} : ∀ {f f' : ℕ → ℕ} (g : ℕ → UInt8),
    (∀ i, i < l.length → f i = f' i) → pokes f l g = pokes f' l g := by
  induction l with
  | nil =>
    intro f f' g _
    rfl
  | cons b l ih =>
    intro f f' g h
    rw [pokes, pokes, h 0 (Nat.zero_lt_succ _)]
    exact ih _ fun i hi => h (i + 1) (Nat.succ_lt_succ hi)

theorem byte_setBytes_one (s : State) (a : ℕ) (b : UInt8) :
    (s.setBytes a [b]).byte = Function.update s.byte a b := by
  funext x
  rw [State.byte, State.setBytes, TMap.get_set, Bytes.putBytes, Bytes.putBytes]
  by_cases hx : x = a
  · rw [hx, Function.update_self, if_pos rfl, TMap.get_set_self]
  · rw [Function.update_of_ne hx]
    by_cases hpage : x / PGSIZE = a / PGSIZE
    · have hmod : x % PGSIZE ≠ a % PGSIZE := by
        unfold PGSIZE at *
        omega
      rw [if_pos hpage, TMap.get_set_ne _ _ hmod, State.byte, hpage]
    · rw [if_neg hpage, State.byte]

theorem byte_setBytes (l : List UInt8) : ∀ {s : State} {a : ℕ}, a % PGSIZE + l.length ≤ PGSIZE →
    (s.setBytes a l).byte = pokes (fun i => a + i) l s.byte := by
  induction l with
  | nil =>
    intro s a _
    funext x
    rw [pokes, State.byte, State.setBytes, Bytes.putBytes, TMap.get_set_get, State.byte]
  | cons b l ih =>
    intro s a ha
    rw [List.length_cons] at ha
    by_cases hl : l = []
    · rw [hl, byte_setBytes_one]
      rfl
    · have hpos := List.length_pos_of_ne_nil hl
      have hdiv : (a + 1) / PGSIZE = a / PGSIZE := by
        unfold PGSIZE at *
        omega
      have hmod : (a + 1) % PGSIZE = a % PGSIZE + 1 := by
        unfold PGSIZE at *
        omega
      have hnext : s.setBytes a (b :: l) = (s.setBytes a [b]).setBytes (a + 1) l := by
        simp only [State.setBytes, Bytes.putBytes, hdiv, hmod, TMap.get_set_self, TMap.set_set]
      rw [hnext, ih (by omega), byte_setBytes_one, pokes, Nat.add_zero]
      exact pokes_congr _ fun i _ => by omega

theorem bytes_eq {a : ℕ} (h : a % PGSIZE + n ≤ PGSIZE) :
    s.bytes a n = (List.range n).map fun i => s.byte (a + i) := by
  refine List.ext_getElem (by simp [State.bytes]) fun i hi hi' => ?_
  have hin : i < n := by simpa using hi'
  have hget := Bytes.getD_getBytes (s.mem.get (a / PGSIZE)) (a % PGSIZE) n i hin
  have hdiv : (a + i) / PGSIZE = a / PGSIZE := by
    unfold PGSIZE at *
    omega
  have hmod : (a + i) % PGSIZE = a % PGSIZE + i := by
    unfold PGSIZE at *
    omega
  rw [List.getElem_map, List.getElem_range, State.byte, hdiv, hmod, ← hget,
    List.getD_eq_getElem?_getD, ← State.bytes, List.getElem?_eq_getElem hi, Option.getD_some]

/-! ### Rounds of the loops -/

/-- The first `m` of `n` bytes from `va` on are accessible, and no more in a row. -/
structure Extent (pagetable va n m : ℕ) (s : State) : Prop where
  le : m ≤ n
  ok : ∀ i, i < m → Accessible pagetable ((va + i) % 2 ^ 64) s
  stop : m < n → ¬ Accessible pagetable ((va + m) % 2 ^ 64) s

theorem Extent.all_iff (h : Extent pagetable va n m s) :
    m = n ↔ ∀ i, i < n → Accessible pagetable ((va + i) % 2 ^ 64) s := by
  constructor
  · rintro rfl
    exact h.ok
  · intro hall
    by_contra hne
    have hlt := lt_of_le_of_ne h.le hne
    exact h.stop hlt (hall m hlt)

/-- A round handles the `c` bytes from `va` to the end of its page or of the range of `n`
bytes. -/
structure Round (va n c : ℕ) : Prop where
  pos : 0 < c
  le : c ≤ n
  fits : va % PGSIZE + c ≤ PGSIZE
  page : ∀ i, i < c → (va + i) % 2 ^ 64 = va + i ∧ PGROUNDDOWN (va + i) = PGROUNDDOWN va ∧
    (va + i) % PGSIZE = va - PGROUNDDOWN va + i
  next : ∀ i, c + i < n →
    ((PGROUNDDOWN va + PGSIZE) % 2 ^ 64 + i) % 2 ^ 64 = (va + (c + i)) % 2 ^ 64

theorem round (hva : va < 2 ^ 64) (hn : 0 < n) :
    Round va n (min (PGSIZE - (va - PGROUNDDOWN va)) n) := by
  unfold PGROUNDDOWN PGSIZE
  constructor
  · omega
  · omega
  · unfold PGSIZE
    omega
  · intro i hi
    unfold PGROUNDDOWN PGSIZE
    omega
  · intro i hi
    unfold PGROUNDDOWN PGSIZE
    omega

namespace Round

theorem userPage_eq {i : ℕ} (h : Round va n c) (hi : i < c) :
    userPage pagetable ((va + i) % 2 ^ 64) s = userPage pagetable (PGROUNDDOWN va) s := by
  obtain ⟨hlt, hpage, -⟩ := h.page i hi
  rw [hlt, userPage, userPage, ← translation_PGROUNDDOWN, hpage]

theorem userAddr_eq {i : ℕ} (h : Round va n c) (hi : i < c)
    (hpa : userPage pagetable (PGROUNDDOWN va) s = some pa) :
    userAddr pagetable ((va + i) % 2 ^ 64) s = pa + (va - PGROUNDDOWN va) + i := by
  rw [userAddr, h.userPage_eq hi, hpa, Option.getD_some, (h.page i hi).1, (h.page i hi).2.2,
    Nat.add_assoc]

theorem fits_page (h : Round va n c) (hpa : pa % PGSIZE = 0) :
    (pa + (va - PGROUNDDOWN va)) % PGSIZE + c ≤ PGSIZE := by
  have := h.fits
  unfold PGROUNDDOWN PGSIZE at *
  omega

theorem userBytes_eq (h : Round va n c) (hpa : userPage pagetable (PGROUNDDOWN va) s = some pa) :
    s.bytes (pa + (va - PGROUNDDOWN va)) c = userBytes pagetable va c s := by
  rw [bytes_eq (h.fits_page (userPage_mod hpa)), userBytes]
  refine List.map_congr_left fun i hi => ?_
  rw [h.userAddr_eq (List.mem_range.1 hi) hpa]

theorem userBytes_add (h : Round va n c) (hm : c + m ≤ n) :
    userBytes pagetable va (c + m) s =
      userBytes pagetable va c s ++ userBytes pagetable ((PGROUNDDOWN va + PGSIZE) % 2 ^ 64) m s := by
  rw [userBytes, List.range_add, List.map_append, List.map_map, userBytes, userBytes]
  refine congrArg _ (List.map_congr_left fun i hi => ?_)
  rw [Function.comp_apply, h.next i (by have := List.mem_range.1 hi; omega)]

theorem extent (h : Round va n c) (hpa : userPage pagetable (PGROUNDDOWN va) s = some pa)
    (hm : Extent pagetable ((PGROUNDDOWN va + PGSIZE) % 2 ^ 64) (n - c) m s) :
    Extent pagetable va n (c + m) s := by
  have hcn := h.le
  have hmn := hm.le
  constructor
  · omega
  · intro i hi
    by_cases hic : i < c
    · exact accessible_iff.2 ⟨pa, (h.userPage_eq hic).trans hpa⟩
    · obtain ⟨j, rfl⟩ := Nat.exists_eq_add_of_le (not_lt.1 hic)
      rw [← h.next j (by omega)]
      exact hm.ok j (by omega)
  · intro hlt
    rw [← h.next m (by omega)]
    exact hm.stop (by omega)

theorem extent_none (h : Round va n c) (hpa : userPage pagetable (PGROUNDDOWN va) s = none) :
    Extent pagetable va n 0 s := by
  constructor
  · exact Nat.zero_le n
  · intro i hi
    exact absurd hi (Nat.not_lt_zero i)
  · intro _ hacc
    obtain ⟨pa, hpa'⟩ := accessible_iff.1 hacc
    rw [h.userPage_eq h.pos, hpa] at hpa'
    cases hpa'

end Round

theorem extent_zero (pagetable va : ℕ) (s : State) : Extent pagetable va 0 0 s :=
  ⟨le_rfl, fun i hi => absurd hi (Nat.not_lt_zero i), fun h => absurd h (Nat.lt_irrefl 0)⟩

/-- No user page is mapped to address `0`, which stands for a missing page. -/
def NonNull (pagetable : ℕ) (s : State) : Prop := ∀ v, userPage pagetable v s ≠ some 0

theorem NonNull.cases (h : NonNull pagetable s) (va : ℕ) :
    userPage pagetable va s = none ∨
      ∃ pa, pa ≠ 0 ∧ userPage pagetable va s = some pa := by
  cases hpage : userPage pagetable va s with
  | none => exact .inl rfl
  | some pa =>
    refine .inr ⟨pa, ?_, rfl⟩
    rintro rfl
    exact h va hpage

/-! ### `copyin` -/

theorem copyinFrom_spec (hp : pagetable % PGSIZE = 0) (h0 : NonNull pagetable s) (fuel : ℕ) :
    ∀ {va len} (dst), va < 2 ^ 64 → len ≤ fuel →
    Post (copyinFrom pagetable fuel va len dst) s (fun r t => t = s ∧ ∃ m,
      Extent pagetable va len m s ∧ r.1 = dst ++ userBytes pagetable va m s ∧
      (r.2 = true ↔ m = len)) E := by
  induction fuel with
  | zero =>
    intro va len dst _ hlen
    obtain rfl := Nat.le_zero.1 hlen
    exact post_pure.2 ⟨rfl, 0, extent_zero _ _ s, (List.append_nil dst).symm, by simp⟩
  | succ fuel ih =>
    intro va len dst hva hlen
    simp only [copyinFrom, readBytes, post_bind, post_get, post_pure, post_ite]
    refine ⟨fun hz => ?_, fun hz => ?_⟩
    · rw [hz]
      exact ⟨trivial, 0, extent_zero _ _ s, (List.append_nil dst).symm, by simp⟩
    · have hround := round hva (Nat.pos_of_ne_zero hz)
      refine (walkaddr_spec hp (PGROUNDDOWN va)).imp ?_
      rintro a t ⟨rfl, rfl⟩
      rcases h0.cases (PGROUNDDOWN va) with hpage | ⟨pa, hpa0, hpage⟩
      · rw [hpage]
        refine ⟨fun _ => ⟨rfl, 0, hround.extent_none hpage, (List.append_nil dst).symm, ?_⟩,
          fun hne => absurd rfl hne⟩
        exact iff_of_false (by simp) (Ne.symm hz)
      · rw [hpage, Option.getD_some]
        refine ⟨fun h => absurd h hpa0, fun _ => ?_⟩
        refine (ih _ (Nat.mod_lt _ (by decide)) ?_).imp ?_
        · have := hround.pos
          omega
        · rintro r u ⟨rfl, m, hm, hr, hok⟩
          have := hm.le
          have := hround.le
          refine ⟨rfl, _, hround.extent hpage hm, ?_, ?_⟩
          · rw [hr, hround.userBytes_eq hpage, List.append_assoc, ← hround.userBytes_add (by omega)]
          · rw [hok]
            omega

/-! ### `copyout` -/

/-- The table maps none of its own pages for the user. -/
def Apart (pagetable : ℕ) (s : State) : Prop :=
  ∀ v v' pa, userPage pagetable v s = some pa → pa / PGSIZE ∉ walkReads v' s 2 pagetable

structure WritesUser (pagetable : ℕ) (s t : State) : Prop where
  fields : t = { s with mem := t.mem }
  mem : ∀ p, (∀ v, userPage pagetable v s ≠ some (pg p)) → t.mem.get p = s.mem.get p

theorem WritesUser.refl (pagetable : ℕ) (s : State) : WritesUser pagetable s s :=
  ⟨rfl, fun _ _ => rfl⟩

theorem WritesUser.sameTable (h : WritesUser pagetable s t) (ha : Apart pagetable s) :
    SameTable pagetable s t := by
  intro v p hp
  refine h.mem p fun v' hv' => ha v' v (pg p) hv' ?_
  rwa [pg_div]

theorem userPage_frame (hp : pagetable % PGSIZE = 0) (h : SameTable pagetable s t) (va : ℕ) :
    userPage pagetable va t = userPage pagetable va s := by
  rw [userPage, translation_frame hp h, userPage]

/-- The pages are those of the first state `s₀`; the memory changes. -/
theorem copyoutFrom_spec (hp : pagetable % PGSIZE = 0) (h0 : NonNull pagetable s₀)
    (ha : Apart pagetable s₀) (fuel : ℕ) : ∀ {s va src}, va < 2 ^ 64 → src.length ≤ fuel →
    WritesUser pagetable s₀ s →
    Post (copyoutFrom pagetable fuel va src) s (fun ok t => WritesUser pagetable s₀ t ∧ ∃ m,
      Extent pagetable va src.length m s₀ ∧ (ok = true ↔ m = src.length) ∧
      t.byte = pokes (fun i => userAddr pagetable ((va + i) % 2 ^ 64) s₀) (src.take m) s.byte) E := by
  induction fuel with
  | zero =>
    intro s va src _ hlen hw
    obtain rfl := List.eq_nil_of_length_eq_zero (Nat.le_zero.1 hlen)
    exact post_pure.2 ⟨hw, 0, extent_zero _ _ s₀, by simp, rfl⟩
  | succ fuel ih =>
    intro s va src hva hlen hw
    simp only [copyoutFrom, writeBytes, post_bind, post_modify, post_pure, post_ite]
    refine ⟨fun hz => ?_, fun hz => ?_⟩
    · rw [hz]
      exact ⟨hw, 0, extent_zero _ _ s₀, by simp, rfl⟩
    · have hpos := List.length_pos_of_ne_nil hz
      have hround := round hva hpos
      refine (walkaddr_spec hp (PGROUNDDOWN va)).imp ?_
      rintro a t ⟨rfl, rfl⟩
      rw [userPage_frame hp (hw.sameTable ha)]
      rcases h0.cases (PGROUNDDOWN va) with hpage | ⟨pa, hpa0, hpage⟩
      · rw [hpage]
        refine ⟨fun _ => ⟨hw, 0, hround.extent_none hpage, ?_, rfl⟩, fun hne => absurd rfl hne⟩
        exact iff_of_false (by simp) hpos.ne
      · rw [hpage, Option.getD_some]
        refine ⟨fun h => absurd h hpa0, fun _ => ?_⟩
        generalize hc : min (PGSIZE - (va - PGROUNDDOWN va)) src.length = c at hround
        have hcle := hround.le
        have hlen' : (src.take c).length = c := by
          rw [List.length_take]
          omega
        have hfits := hround.fits_page (userPage_mod hpage)
        have hbytes : (t.setBytes (pa + (va - PGROUNDDOWN va)) (src.take c)).byte =
            pokes (fun i => userAddr pagetable ((va + i) % 2 ^ 64) s₀) (src.take c) t.byte := by
          rw [byte_setBytes _ (by rw [hlen']; exact hfits)]
          refine pokes_congr _ fun i hi => ?_
          rw [hround.userAddr_eq (by omega) hpage]
        have hw' : WritesUser pagetable s₀ (t.setBytes (pa + (va - PGROUNDDOWN va)) (src.take c)) := by
          refine ⟨?_, fun p hp' => ?_⟩
          · rw [State.setBytes, hw.fields]
          · rw [State.setBytes, TMap.get_set_ne, hw.mem p hp']
            rintro rfl
            refine hp' (PGROUNDDOWN va) (hpage.trans (congrArg some ?_))
            have := userPage_mod hpage
            have := hround.pos
            unfold pg PGROUNDDOWN PGSIZE at *
            omega
        refine (ih (Nat.mod_lt _ (by decide)) ?_ hw').imp ?_
        · rw [List.length_drop]
          have := hround.pos
          omega
        · rintro ok u ⟨hu, m, hm, hok, hpokes⟩
          rw [List.length_drop] at hm hok
          have hmle := hm.le
          refine ⟨hu, _, hround.extent hpage hm, ?_, ?_⟩
          · rw [hok]
            omega
          · rw [hpokes, hbytes, List.take_add, pokes_append, hlen']
            refine pokes_congr _ fun i hi => ?_
            rw [List.length_take] at hi
            rw [hround.next i (by omega)]

/-! ### `copyinstr` -/

/-- The string at `va` has length `k`. -/
structure StringAt (pagetable va k : ℕ) (s : State) : Prop where
  ok : ∀ i, i ≤ k → Accessible pagetable ((va + i) % 2 ^ 64) s
  null : s.byte (userAddr pagetable ((va + k) % 2 ^ 64) s) = 0
  first : ∀ i, i < k → s.byte (userAddr pagetable ((va + i) % 2 ^ 64) s) ≠ 0

theorem takeString_cases (l : List UInt8) :
    (takeString l).2 = false ∧ (takeString l).1 = l ∧ (∀ i, i < l.length → l.getD i 0 ≠ 0) ∨
      ∃ k, k < l.length ∧ takeString l = (l.take (k + 1), true) ∧ l.getD k 0 = 0 ∧
        ∀ i, i < k → l.getD i 0 ≠ 0 := by
  induction l with
  | nil => exact .inl ⟨rfl, rfl, fun i hi => absurd hi (Nat.not_lt_zero i)⟩
  | cons b l ih =>
    by_cases hb : b = 0
    · refine .inr ⟨0, Nat.zero_lt_succ _, ?_, hb, fun i hi => absurd hi (Nat.not_lt_zero i)⟩
      rw [takeString, if_pos hb, hb]
      rfl
    · rw [takeString, if_neg hb]
      have hcons : ∀ {n}, (∀ i, i < n → l.getD i 0 ≠ 0) →
          ∀ i, i < n + 1 → (b :: l).getD i 0 ≠ 0 := by
        intro n hl i hi
        cases i with
        | zero => exact hb
        | succ i => exact hl i (by omega)
      rcases ih with ⟨hf, hl, hno⟩ | ⟨k, hk, hl, hnull, hno⟩
      · exact .inl ⟨hf, by dsimp only; rw [hl], hcons hno⟩
      · refine .inr ⟨k + 1, Nat.succ_lt_succ hk, ?_, hnull, hcons hno⟩
        rw [hl]
        rfl

theorem getD_userBytes {i : ℕ} (hi : i < n) : (userBytes pagetable va n s).getD i 0 =
    s.byte (userAddr pagetable ((va + i) % 2 ^ 64) s) := by
  rw [userBytes, List.getD_eq_getElem?_getD, List.getElem?_map,
    List.getElem?_range hi, Option.map_some, Option.getD_some]

theorem take_userBytes (hm : m ≤ n) :
    (userBytes pagetable va n s).take m = userBytes pagetable va m s := by
  rw [userBytes, ← List.map_take, List.take_range, min_eq_left hm, userBytes]

theorem copyinstrFrom_spec (hp : pagetable % PGSIZE = 0) (h0 : NonNull pagetable s) (fuel : ℕ) :
    ∀ {va max} (dst), va < 2 ^ 64 → max ≤ fuel →
    Post (copyinstrFrom pagetable fuel va max dst) s (fun r t => t = s ∧
      (r.2 = false ∧ (∃ m, Extent pagetable va max m s ∧
          ∀ i, i < m → s.byte (userAddr pagetable ((va + i) % 2 ^ 64) s) ≠ 0) ∨
        r.2 = true ∧ ∃ k, k < max ∧ StringAt pagetable va k s ∧
          r.1 = dst ++ userBytes pagetable va (k + 1) s)) E := by
  induction fuel with
  | zero =>
    intro va max dst _ hmax
    obtain rfl := Nat.le_zero.1 hmax
    exact post_pure.2 ⟨rfl, .inl ⟨rfl, 0, extent_zero _ _ s, fun i hi => absurd hi (Nat.not_lt_zero i)⟩⟩
  | succ fuel ih =>
    intro va max dst hva hmax
    simp only [copyinstrFrom, readBytes, post_bind, post_get, post_pure, post_ite]
    refine ⟨fun hz => ?_, fun hz => ?_⟩
    · rw [hz]
      exact ⟨trivial, .inl ⟨trivial, 0, extent_zero _ _ s, fun i hi => absurd hi (Nat.not_lt_zero i)⟩⟩
    · have hround := round hva (Nat.pos_of_ne_zero hz)
      refine (walkaddr_spec hp (PGROUNDDOWN va)).imp ?_
      rintro a t ⟨rfl, rfl⟩
      rcases h0.cases (PGROUNDDOWN va) with hpage | ⟨pa, hpa0, hpage⟩
      · rw [hpage]
        exact ⟨fun _ => ⟨rfl, .inl ⟨trivial, 0, hround.extent_none hpage,
          fun i hi => absurd hi (Nat.not_lt_zero i)⟩⟩, fun hne => absurd rfl hne⟩
      · rw [hpage, Option.getD_some]
        refine ⟨fun h => absurd h hpa0, fun _ => ?_⟩
        generalize hc : min (PGSIZE - (va - PGROUNDDOWN va)) max = c at hround
        have hcle := hround.le
        have hacc : ∀ i, i < c → Accessible pagetable ((va + i) % 2 ^ 64) t := fun i hi =>
          accessible_iff.2 ⟨pa, (hround.userPage_eq hi).trans hpage⟩
        rw [hround.userBytes_eq hpage]
        have hlen : (userBytes pagetable va c t).length = c := by simp [userBytes]
        rcases takeString_cases (userBytes pagetable va c t) with
          ⟨hf, hl, hno⟩ | ⟨k, hk, hl, hnull, hno⟩
        · rw [hlen] at hno
          have hfirst : ∀ i, i < c → t.byte (userAddr pagetable ((va + i) % 2 ^ 64) t) ≠ 0 :=
            fun i hi => getD_userBytes hi ▸ hno i hi
          rw [hf, hl]
          refine ⟨fun h => Bool.noConfusion h, fun _ => ?_⟩
          refine (ih _ (Nat.mod_lt _ (by decide)) (by have := hround.pos; omega)).imp ?_
          rintro r u ⟨rfl, ⟨hr, m, hm, hm0⟩ | ⟨hr, k, hk, hstr, hdst⟩⟩
          · refine ⟨rfl, .inl ⟨hr, _, hround.extent hpage hm, fun i hi => ?_⟩⟩
            by_cases hic : i < c
            · exact hfirst i hic
            · obtain ⟨j, rfl⟩ := Nat.exists_eq_add_of_le (not_lt.1 hic)
              have := hm.le
              rw [← hround.next j (by omega)]
              exact hm0 j (by omega)
          · refine ⟨rfl, .inr ⟨hr, c + k, by omega, ⟨fun i hi => ?_, ?_, fun i hi => ?_⟩, ?_⟩⟩
            · by_cases hic : i < c
              · exact hacc i hic
              · obtain ⟨j, rfl⟩ := Nat.exists_eq_add_of_le (not_lt.1 hic)
                rw [← hround.next j (by omega)]
                exact hstr.ok j (by omega)
            · rw [← hround.next k (by omega)]
              exact hstr.null
            · by_cases hic : i < c
              · exact hfirst i hic
              · obtain ⟨j, rfl⟩ := Nat.exists_eq_add_of_le (not_lt.1 hic)
                rw [← hround.next j (by omega)]
                exact hstr.first j (by omega)
            · rw [hdst, List.append_assoc, ← hround.userBytes_add (by omega), Nat.add_assoc]
        · rw [hlen] at hk
          rw [hl]
          refine ⟨fun _ => ⟨rfl, .inr ⟨trivial, k, by omega, ⟨fun i hi => hacc i (by omega), ?_,
            fun i hi => ?_⟩, ?_⟩⟩, fun h => absurd rfl h⟩
          · rw [← getD_userBytes hk, hnull]
          · rw [← getD_userBytes (by omega : i < c)]
            exact hno i hi
          · rw [take_userBytes (by omega)]

/-! ### The functions -/

theorem copyin_spec (hp : pagetable % PGSIZE = 0) (h0 : NonNull pagetable s) (hva : va < 2 ^ 64)
    (len : ℕ) : ∃ dst ok, copyin pagetable va len s = .ok (dst, ok) s ∧
      (ok = true ↔ ∀ i, i < len → Accessible pagetable ((va + i) % 2 ^ 64) s) ∧
      (ok = true → dst = userBytes pagetable va len s) := by
  obtain ⟨⟨dst, ok⟩, t, hrun, rfl, m, hm, hdst, hok⟩ :=
    (copyinFrom_spec hp h0 len [] hva le_rfl).returns
  refine ⟨dst, ok, hrun, hok.trans hm.all_iff, fun htrue => ?_⟩
  obtain rfl := hok.1 htrue
  exact hdst

theorem copyout_spec (hp : pagetable % PGSIZE = 0) (h0 : NonNull pagetable s)
    (ha : Apart pagetable s) (hva : va < 2 ^ 64) (src : List UInt8) :
    ∃ ok t m, copyout pagetable va src s = .ok ok t ∧ Extent pagetable va src.length m s ∧
      (ok = true ↔ m = src.length) ∧
      t.byte = pokes (fun i => userAddr pagetable ((va + i) % 2 ^ 64) s) (src.take m) s.byte ∧
      WritesUser pagetable s t := by
  obtain ⟨ok, t, hrun, hw, m, hm, hok, hbytes⟩ :=
    (copyoutFrom_spec hp h0 ha src.length hva le_rfl (.refl pagetable s)).returns
  exact ⟨ok, t, m, hrun, hm, hok, hbytes, hw⟩

theorem copyinstr_spec (hp : pagetable % PGSIZE = 0) (h0 : NonNull pagetable s)
    (hva : va < 2 ^ 64) (max : ℕ) : ∃ dst ok, copyinstr pagetable va max s = .ok (dst, ok) s ∧
      (ok = true ↔ ∃ k, k < max ∧ StringAt pagetable va k s) ∧
      ∀ k, k < max → StringAt pagetable va k s → dst = userBytes pagetable va (k + 1) s := by
  obtain ⟨⟨dst, ok⟩, t, hrun, rfl, ⟨hok, m, hm, hno⟩ | ⟨hok, k, hk, hstr, hdst⟩⟩ :=
    (copyinstrFrom_spec hp h0 max [] hva le_rfl).returns
  · have hnot : ∀ k, k < max → ¬ StringAt pagetable va k t := by
      intro k hk hstr
      by_cases hkm : k < m
      · exact hno k hkm hstr.null
      · exact hm.stop (by omega) (hstr.ok m (by omega))
    refine ⟨dst, ok, hrun, iff_of_false (by simpa using hok) ?_, fun k hk hstr => ?_⟩
    · rintro ⟨k, hk, hstr⟩
      exact hnot k hk hstr
    · exact absurd hstr (hnot k hk)
  · refine ⟨dst, ok, hrun, iff_of_true hok ⟨k, hk, hstr⟩, fun k' hk' hstr' => ?_⟩
    have heq : k' = k := by
      by_contra hne
      rcases Nat.lt_or_gt_of_ne hne with hlt | hlt
      · exact hstr.first k' hlt hstr'.null
      · exact hstr'.first k hlt hstr.null
    rw [heq]
    exact hdst

/-- The copy functions and access byte by byte agree. -/
theorem copy_bytewise (hp : pagetable % PGSIZE = 0) (h0 : NonNull pagetable s)
    (hva : va < 2 ^ 64) :
    (∀ len, ∃ dst ok, copyin pagetable va len s = .ok (dst, ok) s ∧
      (ok = true ↔ ∀ i, i < len → Accessible pagetable ((va + i) % 2 ^ 64) s) ∧
      (ok = true → dst = userBytes pagetable va len s)) ∧
    (Apart pagetable s → ∀ src, ∃ ok t m, copyout pagetable va src s = .ok ok t ∧
      (ok = true ↔ ∀ i, i < src.length → Accessible pagetable ((va + i) % 2 ^ 64) s) ∧
      Extent pagetable va src.length m s ∧
      t.byte = pokes (fun i => userAddr pagetable ((va + i) % 2 ^ 64) s) (src.take m) s.byte ∧
      WritesUser pagetable s t) ∧
    ∀ max, ∃ dst ok, copyinstr pagetable va max s = .ok (dst, ok) s ∧
      (ok = true ↔ ∃ k, k < max ∧ StringAt pagetable va k s) ∧
      ∀ k, k < max → StringAt pagetable va k s → dst = userBytes pagetable va (k + 1) s := by
  refine ⟨copyin_spec hp h0 hva, fun ha src => ?_, copyinstr_spec hp h0 hva⟩
  obtain ⟨ok, t, m, hrun, hm, hok, hbytes, hw⟩ := copyout_spec hp h0 ha hva src
  exact ⟨ok, t, m, hrun, hok.trans hm.all_iff, hm, hbytes, hw⟩

theorem oneTable_mapped :
    ∃ t, mappages (pg 0x87fe8) 0 PGSIZE UART0 (PTE_R ||| PTE_W ||| PTE_U) oneTable = .ok true t ∧
      userPage (pg 0x87fe8) 4000 t = some UART0 ∧
      Built ⟨KERNBASE, KERNBASE, KERNBASE⟩ (pg 0x87fe8) [] t ∧
      ∀ v pa, userPage (pg 0x87fe8) v t = some pa → pa = UART0 := by
  have hcreate := Built.create manyFree_allocator uvmcreate_manyFree (by decide)
  have hnone : ∀ v, v < MAXVA → translation (pg 0x87fe8) v oneTable = none := fun v hv =>
    translation_create manyFree_allocator uvmcreate_manyFree (by decide) hv
  obtain ⟨t, hrun⟩ := exists_of_returned (show returned (mappages (pg 0x87fe8) 0 PGSIZE UART0
    (PTE_R ||| PTE_W ||| PTE_U) oneTable) = some true by decide +kernel)
  obtain ⟨-, hmaps⟩ | ⟨hok, -⟩ := (hcreate.mappages_spec (E := fun _ _ => True) (by decide)
    (by decide) (by decide) (by decide) fun v _ hv => hnone v (hv.trans (by decide))).of_ok hrun
  · have hpage : ∀ v, v < PGSIZE → userPage (pg 0x87fe8) v t = some UART0 := by
      intro v hv
      obtain ⟨e, he, hpa, hflags⟩ := hmaps.inside v (Nat.zero_le v) hv
      have hdown : PGROUNDDOWN v = 0 := by
        unfold PGROUNDDOWN PGSIZE at *
        omega
      have hu : e &&& PTE_U ≠ 0 := by
        have hmask : PTE_FLAGS e &&& PTE_U = e &&& PTE_U := by
          rw [PTE_FLAGS, Nat.and_assoc]
          rfl
        rw [← hmask, hflags]
        decide
      rw [hdown] at hpa
      rw [userPage, he]
      dsimp only
      rw [if_neg hu, hpa]
      rfl
    refine ⟨t, hrun, hpage 4000 (by decide), hcreate.mappages (by decide) (by decide) hrun, ?_⟩
    intro v pa hpa
    by_cases hv : v < PGSIZE
    · rw [hpage v hv] at hpa
      cases hpa
      rfl
    · have hlt := (accessible_iff.2 ⟨pa, hpa⟩).1
      have hout := hmaps.outside v hlt fun hin => hv hin.2
      rw [userPage, hout, hnone v hlt] at hpa
      cases hpa
  · cases hok

/-- A table with one user page, on the device page of the console. -/
theorem copy_bytewise_oneTable :
    ∃ t, mappages (pg 0x87fe8) 0 PGSIZE UART0 (PTE_R ||| PTE_W ||| PTE_U) oneTable = .ok true t ∧
    Accessible (pg 0x87fe8) 4000 t ∧ Apart (pg 0x87fe8) t ∧
    (∀ len, ∃ dst ok, copyin (pg 0x87fe8) 4000 len t = .ok (dst, ok) t ∧
      (ok = true ↔ ∀ i, i < len → Accessible (pg 0x87fe8) ((4000 + i) % 2 ^ 64) t) ∧
      (ok = true → dst = userBytes (pg 0x87fe8) 4000 len t)) ∧
    (Apart (pg 0x87fe8) t → ∀ src, ∃ ok u m, copyout (pg 0x87fe8) 4000 src t = .ok ok u ∧
      (ok = true ↔ ∀ i, i < src.length → Accessible (pg 0x87fe8) ((4000 + i) % 2 ^ 64) t) ∧
      Extent (pg 0x87fe8) 4000 src.length m t ∧
      u.byte = pokes (fun i => userAddr (pg 0x87fe8) ((4000 + i) % 2 ^ 64) t) (src.take m) t.byte ∧
      WritesUser (pg 0x87fe8) t u) ∧
    ∀ max, ∃ dst ok, copyinstr (pg 0x87fe8) 4000 max t = .ok (dst, ok) t ∧
      (ok = true ↔ ∃ k, k < max ∧ StringAt (pg 0x87fe8) 4000 k t) ∧
      ∀ k, k < max → StringAt (pg 0x87fe8) 4000 k t →
        dst = userBytes (pg 0x87fe8) 4000 (k + 1) t := by
  obtain ⟨t, hrun, hin, hbuilt, hpage⟩ := oneTable_mapped
  refine ⟨t, hrun, accessible_iff.2 ⟨_, hin⟩, fun v v' pa hpa hmem => ?_,
    copy_bytewise (pg_mod _) (fun v hv => ?_) (by decide)⟩
  · obtain ⟨r, hr, own, L, hm, hroot, -, -⟩ := hbuilt.holds
    rw [hr] at hmem
    obtain ⟨ρ, hρ⟩ := hm.table_of_walkReads hroot 2 hroot rfl hmem
    have := ((hm.pages.range _).1 (by rw [hρ]; simp)).1
    rw [hpage v pa hpa] at this
    exact absurd this (by decide)
  · exact absurd (hpage v 0 hv) (by decide)

/-- A memory with a few page-table entries. -/
def withEntries (entries : List (ℕ × ℕ)) : State :=
  entries.foldl (fun s e => s.store e.1 8 e.2) ⟨.empty, 0, 0, .empty, 1, .empty, [], []⟩

/-- The table at page `1` maps the first user page to address `0`. -/
def nullTable : State := withEntries [(pg 1, pte 2 1), (pg 2, pte 3 1), (pg 3, pte 0 0x17)]

/-- The table at page `1` maps the user page `510` to its own page `3`, and `511` to `4`. -/
def ownTable : State :=
  withEntries [(pg 1, pte 2 1), (pg 2, pte 3 1), (pg 3 + 8 * 510, pte 3 0x17),
    (pg 3 + 8 * 511, pte 4 0x17)]

/-- A user page at address `0` counts as missing, and a table that maps its own pages can
lose an entry in the middle of a `copyout`. -/
theorem copy_not_bytewise :
    (Accessible (pg 1) 0 nullTable ∧ ∃ t, copyin (pg 1) 0 1 nullTable = .ok ([], false) t) ∧
    (∀ i, i < 9 → Accessible (pg 1) (pg 511 - 8 + i) ownTable) ∧
      ∃ t, copyout (pg 1) (pg 511 - 8) (List.replicate 9 0) ownTable = .ok false t := by
  refine ⟨⟨by decide +kernel, exists_of_returned (by decide +kernel)⟩, by decide +kernel,
    exists_of_returned (by decide +kernel)⟩

end Vm
end Xv6
