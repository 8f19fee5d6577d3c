import Xv6.Vm.Tables

/-!
Taking mappings away: `uvmunmap` clears entries and frees the user pages behind them,
and `freewalk` frees the pages of a table that maps nothing.
-/

namespace Xv6
namespace Vm

open Hoare RadixTree

variable {k : Layout} {own own' : ℕ → Use} {L L' : ℕ → List ℕ → ℕ} {s t : State}
  {E : Panic → State → Prop} {r c d p i j u v va : ℕ} {π : List ℕ}

def vkey (v : ℕ) : List ℕ := key (pg v)

theorem vkey_inj {v w : ℕ} (hv : v < 2 ^ 27) (hw : w < 2 ^ 27) (h : vkey v = vkey w) : v = w := by
  have := key_inj (a := pg v) (b := pg w) (by unfold pg PGSIZE; omega)
    (by unfold pg PGSIZE; omega) h
  rwa [pg_div, pg_div] at this

theorem vkey_of {a b i : ℕ} (ha : a < 512) (hb : b < 512) (hi : i < 512) :
    vkey (a * 512 ^ 2 + b * 512 + i) = [a, b, i] := by
  simp only [vkey, key, path, PX_eq, pg, PGSIZE, List.cons_append, List.nil_append,
    List.cons.injEq, and_true]
  omega

theorem exists_vkey (h : Memory k own L s) (hr : own r = .table r []) {ρ : List ℕ}
    (hd : own d = .table r ρ) (hρ : ρ.length = 2) (hi : i < 512) :
    ∃ v, v < 2 ^ 27 ∧ ρ ++ [i] = vkey v := by
  obtain ⟨a, b, rfl⟩ := List.length_eq_two.1 hρ
  obtain ⟨hb, c, hc, -⟩ := (h.tables r hr).up d [a] b hd
  obtain ⟨ha, -⟩ := (h.tables r hr).up c [] a hc
  exact ⟨a * 512 ^ 2 + b * 512 + i, by omega, (vkey_of ha hb hi).symm⟩

theorem Memory.free_page (h : Memory k own L s) (ho : own p ≠ .outside) (hf : own p ≠ .free)
    (ht : ∀ r π, own p ≠ .table r π) :
    Post (kfree k (pg p)) s (fun _ t => Memory k (Function.update own p .free) L t ∧
      Rest s t ∧ t.deny = s.deny ∧ OnlyPage p s t) E := by
  refine (kfree_spec h.pages ho hf).imp ?_
  rintro _ t ⟨hpages, hrest, hdeny, honly⟩
  refine ⟨⟨hpages, fun r hr => ?_⟩, hrest, hdeny, honly⟩
  have hiff : ∀ d π, Function.update own p .free d = .table r π ↔ own d = .table r π := by
    intro d π
    by_cases hd : d = p
    · rw [hd, Function.update_self]
      exact iff_of_false (by simp) (ht r π)
    · rw [Function.update_of_ne hd]
  refine (h.tables r ((hiff r []).1 hr)).congr hiff fun d π i hd _ => ?_
  have hdp : d ≠ p := by
    rintro rfl
    exact ht r π hd
  rw [entry, entry, honly d hdp]

theorem Memory.free_user (h : Memory k own L s) (hu : own p = .user r v) :
    Post (kfree k (pg p)) s (fun _ t => Memory k (Function.update own p .free) L t ∧
      Frame r own s (Function.update own p .free) t) E := by
  refine (h.free_page (by rw [hu]; simp) (by rw [hu]; simp) (by rw [hu]; simp)).imp ?_
  rintro _ t ⟨hm, hrest, hdeny, honly⟩
  refine ⟨hm, hrest, fun hd => by rw [hdeny, hd], fun q _ hq => ?_, fun q _ hq => honly q ?_,
    fun q hq => ?_⟩
  · rw [Function.update_of_ne]
    rintro rfl
    rw [hu] at hq
    exact hq rfl
  · rintro rfl
    rw [hu] at hq
    exact hq rfl
  · by_cases hqp : q = p
    · rw [hqp, Function.update_self]
      exact .inl rfl
    · rw [Function.update_of_ne hqp]
      exact hq

/-! ### `uvmunmap` -/

/-- The mapping without the pages `[v, v + n)`. -/
def unmapL (r : ℕ) : ℕ → ℕ → (ℕ → List ℕ → ℕ) → ℕ → List ℕ → ℕ
  | 0, _, L => L
  | n + 1, v, L => unmapL r n (v + 1) (setL L r (vkey v) 0)

/-- The use after the user pages `[lo, hi)` of `r` have been freed. -/
def Use.freed (r lo hi : ℕ) : Use → Use
  | user r' v => if r' = r ∧ lo ≤ v ∧ v < hi then free else user r' v
  | outside => outside
  | free => free
  | held => held
  | table r' π => table r' π
  | trapframe p => trapframe p
  | kstack p => kstack p
  | pipe => pipe

structure Mapped (own : ℕ → Use) (L : ℕ → List ℕ → ℕ) (r v u f : ℕ) : Prop where
  entry : L r (vkey v) = pte u f
  owner : ∀ p, own p = .user r v ↔ p = u
  flags : f = 31 ∨ f = 15

namespace Mapped
variable {f : ℕ}

theorem user (h : Mapped own L r v u f) : own u = .user r v := (h.owner u).2 rfl

theorem lt (h : Mapped own L r v u f) : f < 1024 := by
  have := h.flags
  omega

theorem valid (h : Mapped own L r v u f) : pte u f &&& PTE_V ≠ 0 := by
  rw [pte_and h.lt (by decide)]
  rcases h.flags with rfl | rfl <;> decide

theorem leaf (h : Mapped own L r v u f) : PTE_FLAGS (pte u f) ≠ PTE_V := by
  rw [PTE_FLAGS_pte h.lt]
  rcases h.flags with rfl | rfl <;> decide

theorem ne_zero (h : Mapped own L r v u f) : pte u f ≠ 0 := by
  unfold pte
  have := h.flags
  omega

theorem pa (h : Mapped own L r v u f) (hm : Memory k own L s) : PTE2PA (pte u f) = pg u :=
  PTE2PA_pte (hm.pages.small (by rw [h.user]; simp)) h.lt

end Mapped

theorem uvmunmapFrom_spec (n : ℕ) : ∀ {own L s v}, Memory k own L s → own r = .table r [] →
    v + n ≤ 2 ^ 26 → (∀ w, v ≤ w → w < v + n → ∃ u f, Mapped own L r w u f) →
    Post (uvmunmapFrom k (pg r) true n (pg v)) s (fun _ t =>
      Memory k (fun p => (own p).freed r v (v + n)) (unmapL r n v L) t ∧
      Frame r own s (fun p => (own p).freed r v (v + n)) t) E := by
  induction n with
  | zero =>
    intro own L s v h hr hv hmap
    have hown : (fun p => (own p).freed r v (v + 0)) = own := by
      funext p
      cases own p with
      | user r' w =>
        rw [Use.freed, if_neg]
        omega
      | _ => rfl
    rw [hown]
    exact post_pure.2 ⟨h, .refl r own s⟩
  | succ n ih =>
    intro own L s v h hr hv hmap
    obtain ⟨u, f, hu⟩ := hmap v le_rfl (by omega)
    simp only [uvmunmapFrom, read64, write64, post_bind, post_get, post_pure, post_ite,
      post_modify]
    have hva : pg v < MAXVA := by
      unfold pg PGSIZE MAXVA
      omega
    refine (walk_find h hr hva).imp ?_
    rintro a t ⟨rfl, ⟨rfl, h0⟩ | ⟨d, hd, rfl⟩⟩
    · rw [← vkey, hu.entry] at h0
      exact absurd h0 hu.ne_zero
    · have hd0 : pg d + 8 * PX 0 (pg v) ≠ 0 := h.addr_ne_zero hd
      have hload := h.load_key hr hd
      rw [← vkey, hu.entry] at hload
      rw [hload]
      refine ⟨fun hz => absurd hz hd0, fun _ => ⟨fun hz => absurd hz hu.valid, fun _ =>
        ⟨fun hz => absurd hz hu.leaf, fun _ => ⟨fun _ => ?_, fun hf => absurd trivial hf⟩⟩⟩⟩
      rw [hu.pa h]
      refine (h.free_user hu.user).imp ?_
      rintro _ t₁ ⟨hm₁, hf₁⟩
      have hne : ∀ {q ρ}, own q = .table r ρ → q ≠ u := by
        rintro q ρ hq rfl
        rw [hu.user] at hq
        cases hq
      have hd₁ : Function.update own u .free d = .table r (path (pg v)) := by
        rw [Function.update_of_ne (hne hd), hd]
      obtain ⟨hm₂, hf₂⟩ := hm₁.setEntry (v := 0)
        (by rw [Function.update_of_ne (hne hr), hr]) hd₁ (by decide) rfl
      have hown : (fun p => (Function.update own u .free p).freed r (v + 1) (v + 1 + n)) =
          fun p => (own p).freed r v (v + (n + 1)) := by
        funext p
        by_cases hp : p = u
        · rw [hp, Function.update_self, hu.user, Use.freed, Use.freed, if_pos ⟨rfl, by omega⟩]
        · rw [Function.update_of_ne hp]
          have hpv : own p ≠ .user r v := fun h => hp ((hu.owner p).1 h)
          cases hcase : own p with
          | user r' w =>
            rw [hcase] at hpv
            have : ¬ (r' = r ∧ w = v) := by
              rintro ⟨rfl, rfl⟩
              exact hpv rfl
            rw [Use.freed, Use.freed]
            refine if_congr ?_ rfl rfl
            omega
          | _ => rfl
      rw [← hown, ← pg_succ]
      refine (ih hm₂ ?_ (by omega) fun w hw hw' => ?_).imp ?_
      · rw [Function.update_of_ne (hne hr), hr]
      · obtain ⟨u', f', hu'⟩ := hmap w (by omega) (by omega)
        refine ⟨u', f', ?_, fun p => ?_, hu'.flags⟩
        · rw [setL_ne, hu'.entry]
          exact fun hkey => absurd (vkey_inj (by omega) (by omega) hkey) (by omega)
        · by_cases hp : p = u
          · rw [hp, Function.update_self]
            refine iff_of_false (by simp) ?_
            rintro rfl
            have := hu'.user
            rw [hu.user] at this
            cases this
            omega
          · rw [Function.update_of_ne hp]
            exact hu'.owner p
      · rintro _ t' ⟨hm₃, hf₃⟩
        exact ⟨hm₃, (hf₁.trans hf₂).trans hf₃⟩

/-! ### `freewalk` -/

/-- The uses after the pages of the table `r` at the places `P` have been freed. -/
noncomputable def prune (own₀ own : ℕ → Use) (r : ℕ) (P : List ℕ → Prop) : ℕ → Use :=
  open Classical in fun p => if ∃ ρ, P ρ ∧ own₀ p = .table r ρ then .free else own p

section
variable {own₀ : ℕ → Use} {s₀ : State} {P Q : List ℕ → Prop}

theorem prune_pos {ρ : List ℕ} (hP : P ρ) (hp : own₀ p = .table r ρ) :
    prune own₀ own r P p = .free := if_pos ⟨ρ, hP, hp⟩

theorem prune_neg (hp : ∀ ρ, P ρ → own₀ p ≠ .table r ρ) : prune own₀ own r P p = own p :=
  if_neg fun ⟨ρ, hP, h⟩ => hp ρ hP h

theorem prune_prune (own₀ own : ℕ → Use) (r : ℕ) (P Q : List ℕ → Prop) :
    prune own₀ (prune own₀ own r P) r Q = prune own₀ own r fun ρ => P ρ ∨ Q ρ := by
  funext p
  by_cases hQ : ∃ ρ, Q ρ ∧ own₀ p = .table r ρ
  · obtain ⟨ρ, hρ, hp⟩ := hQ
    rw [prune_pos hρ hp, prune_pos (.inr hρ) hp]
  · push Not at hQ
    rw [prune_neg hQ]
    by_cases hP : ∃ ρ, P ρ ∧ own₀ p = .table r ρ
    · obtain ⟨ρ, hρ, hp⟩ := hP
      rw [prune_pos hρ hp, prune_pos (.inl hρ) hp]
    · push Not at hP
      rw [prune_neg hP, prune_neg]
      rintro ρ (hρ | hρ)
      · exact hP ρ hρ
      · exact hQ ρ hρ

theorem prune_congr (h : ∀ ρ, own₀ p = .table r ρ → (P ρ ↔ Q ρ)) :
    prune own₀ own r P p = prune own₀ own r Q p := by
  by_cases hP : ∃ ρ, P ρ ∧ own₀ p = .table r ρ
  · obtain ⟨ρ, hρ, hp⟩ := hP
    rw [prune_pos hρ hp, prune_pos ((h ρ hp).1 hρ) hp]
  · push Not at hP
    rw [prune_neg hP, prune_neg fun ρ hρ hp => hP ρ ((h ρ hp).2 hρ) hp]

structure Freed (k : Layout) (own₀ own : ℕ → Use) (r : ℕ) (P : List ℕ → Prop) (c : ℕ → Prop)
    (s t : State) : Prop where
  pages : Pages k (prune own₀ own r P) t
  rest : Rest s t
  deny : t.deny = s.deny
  mem : ∀ p, (∀ ρ, P ρ → own₀ p ≠ .table r ρ) → ¬ c p → t.mem.get p = s.mem.get p

/-- The pages of the table at the places `P` are still as they were at the start. -/
def Intact (own₀ own : ℕ → Use) (r : ℕ) (P : List ℕ → Prop) (s₀ s : State) : Prop :=
  ∀ d ρ, P ρ → own₀ d = .table r ρ → own d = own₀ d ∧ s.mem.get d = s₀.mem.get d

theorem Intact.mono {own₀ own : ℕ → Use} {r : ℕ} {P Q : List ℕ → Prop} {s₀ s : State}
    (h : Intact own₀ own r P s₀ s) (hQ : ∀ ρ, Q ρ → P ρ) : Intact own₀ own r Q s₀ s :=
  fun d ρ hρ => h d ρ (hQ ρ hρ)

structure Bare (own₀ : ℕ → Use) (r : ℕ) (s₀ : State) (l : List ℕ → ℕ) : Prop where
  tree : Tree 512 3 (fun d => pte d PTE_V) (fun d π => own₀ d = .table r π) (entry s₀.mem) l
  zero : ∀ d ρ i, own₀ d = .table r ρ → ρ.length = 2 → i < 512 → l (ρ ++ [i]) = 0

variable {l : List ℕ → ℕ}

theorem prefix_append_iff {i j : ℕ} {ρ : List ℕ} (hi : π ++ [i] <+: ρ) (hj : π ++ [j] <+: ρ) :
    i = j := by
  have := List.prefix_of_prefix_length_le hi hj (by simp)
  have := this.eq_of_length (by simp)
  simpa using this

theorem pte_V_inner (p : ℕ) : pte p PTE_V &&& (PTE_R ||| PTE_W ||| PTE_X) = 0 := by
  rw [pte_and (by decide) (by decide)]
  decide

/-- The places below the table at `π`, from entry `i` on. -/
def After (π : List ℕ) (i : ℕ) (ρ : List ℕ) : Prop := ∃ j, i ≤ j ∧ π ++ [j] <+: ρ

theorem after_iff {i : ℕ} {ρ : List ℕ} : After π i ρ ↔ π ++ [i] <+: ρ ∨ After π (i + 1) ρ := by
  constructor
  · rintro ⟨j, hij, hρ⟩
    rcases hij.eq_or_lt with rfl | hij
    · exact .inl hρ
    · exact .inr ⟨j, hij, hρ⟩
  · rintro (hρ | ⟨j, hij, hρ⟩)
    · exact ⟨i, le_rfl, hρ⟩
    · exact ⟨j, by omega, hρ⟩

theorem prefix_iff_after {ρ : List ℕ} : π <+: ρ ↔ ρ = π ∨ After π 0 ρ := by
  constructor
  · rintro ⟨σ, rfl⟩
    cases σ with
    | nil => exact .inl (List.append_nil π)
    | cons j σ => exact .inr ⟨j, Nat.zero_le j, σ, by simp⟩
  · rintro (rfl | ⟨j, -, hρ⟩)
    · exact List.prefix_rfl
    · exact (List.prefix_append π [j]).trans hρ

section
variable (hT : Bare own₀ r s₀ l) (hc : own₀ c = .table r π)
include hT hc

theorem Bare.not_after {i : ℕ} {ρ : List ℕ} (hρ : After π i ρ) : own₀ c ≠ .table r ρ := by
  obtain ⟨j, -, hρ⟩ := hρ
  intro hcρ
  have := hρ.length_le
  rw [hT.tree.place c ρ π hcρ hc] at this
  simp at this

omit hc in
theorem Bare.none_after {i : ℕ} {ρ : List ℕ} (hi : 512 ≤ i) (hρ : After π i ρ) (p : ℕ) :
    own₀ p ≠ .table r ρ := by
  obtain ⟨j, hij, σ, rfl⟩ := hρ
  intro hp
  obtain ⟨d, hd⟩ := hT.tree.above p hp
  have := (hT.tree.up d π j hd).1
  omega

theorem Freed.skip {i : ℕ} {C : ℕ → Prop} {s t : State} (h0 : entry s₀.mem c i = 0)
    (h : Freed k own₀ own r (After π (i + 1)) C s t) : Freed k own₀ own r (After π i) C s t := by
  have hiff : ∀ p ρ, own₀ p = .table r ρ → (After π (i + 1) ρ ↔ After π i ρ) := by
    intro p ρ hp
    rw [after_iff (i := i)]
    refine ⟨.inr, fun h => h.resolve_left fun hρ => ?_⟩
    exact hT.tree.none_below pte_V_ne hc h0 hρ hp
  have hsame : prune own₀ own r (After π (i + 1)) = prune own₀ own r (After π i) :=
    funext fun p => prune_congr (hiff p)
  refine ⟨hsame ▸ h.pages, h.rest, h.deny, fun p hp => h.mem p fun ρ hρ hpρ => ?_⟩
  exact hp ρ ((hiff p ρ hpρ).1 hρ) hpρ

/-- The child at entry `i` has been freed and its entry cleared: the children after it are as
they were. -/
theorem Intact.next {i : ℕ} {s t : State} (hi : i < 512) (h : Intact own₀ own r (After π i) s₀ s)
    (hf : Freed k own₀ own r (π ++ [i] <+: ·) (fun _ => False) s t) :
    Intact own₀ (prune own₀ own r (π ++ [i] <+: ·)) r (After π (i + 1)) s₀
      (t.store (pg c + 8 * i) 8 0) := by
  intro e ρ hρ he
  have hkeep : ∀ ρ', π ++ [i] <+: ρ' → own₀ e ≠ .table r ρ' := by
    intro ρ' hρ' he'
    obtain ⟨j, hj, hρ⟩ := hρ
    rw [hT.tree.place e ρ' ρ he' he] at hρ'
    have := prefix_append_iff hρ' hρ
    omega
  have hec : e ≠ c := by
    rintro rfl
    exact hT.not_after hc hρ he
  have hold := h e ρ (after_iff.2 (.inr hρ)) he
  refine ⟨?_, ?_⟩
  · rw [prune_neg hkeep, hold.1]
  · rw [mem_store_ne _ hi hec, hf.mem e hkeep (fun h => h), hold.2]

omit hT hc in
theorem Freed.next {i : ℕ} {s s₁ t : State} (hi : i < 512)
    (h : Freed k own₀ own r (π ++ [i] <+: ·) (fun _ => False) s s₁)
    (h' : Freed k own₀ (prune own₀ own r (π ++ [i] <+: ·)) r (After π (i + 1)) (· = c)
      (s₁.store (pg c + 8 * i) 8 0) t) : Freed k own₀ own r (After π i) (· = c) s t := by
  have hall : (fun ρ => π ++ [i] <+: ρ ∨ After π (i + 1) ρ) = After π i :=
    funext fun ρ => propext after_iff.symm
  have hpages := h'.pages
  rw [prune_prune, hall] at hpages
  refine ⟨hpages, h.rest.trans ⟨h'.rest.1, h'.rest.2, h'.rest.3, h'.rest.4, h'.rest.5⟩,
    h'.deny.trans h.deny, fun p hp hpc => ?_⟩
  rw [h'.mem p (fun ρ hρ => hp ρ (after_iff.2 (.inr hρ))) hpc, mem_store_ne _ hi hpc,
    h.mem p (fun ρ hρ => hp ρ (after_iff.2 (.inl hρ))) (fun h => h)]

theorem freewalkFrom_spec {free : ℕ → M Unit}
    (hfree : ∀ own s d i, i < 512 → own₀ d = .table r (π ++ [i]) → Pages k own s →
      Intact own₀ own r (π ++ [i] <+: ·) s₀ s →
      Post (free (pg d)) s (fun _ t =>
        Freed k own₀ own r (π ++ [i] <+: ·) (fun _ => False) s t) E) (m : ℕ) :
    ∀ own s i, i + m = 512 → Pages k own s → own c = own₀ c →
      (∀ j, i ≤ j → j < 512 → entry s.mem c j = entry s₀.mem c j) →
      Intact own₀ own r (After π i) s₀ s →
      Post (freewalkFrom free (pg c) m i) s (fun _ t =>
        Freed k own₀ own r (After π i) (· = c) s t) E := by
  induction m with
  | zero =>
    intro own s i him hpages hown hent hint
    have hsame : prune own₀ own r (After π i) = own :=
      funext fun p => prune_neg fun ρ hρ => hT.none_after (by omega) hρ p
    refine post_pure.2 ⟨?_, .refl s, rfl, fun _ _ _ => rfl⟩
    rw [hsame]
    exact hpages
  | succ m ih =>
    intro own s i him hpages hown hent hint
    have hi : i < 512 := by omega
    simp only [freewalkFrom, read64, write64, post_bind, post_get, post_pure, post_ite,
      post_modify, load_entry s c hi, hent i le_rfl hi]
    by_cases h0 : entry s₀.mem c i = 0
    · rw [h0]
      refine ⟨fun hv => absurd (Nat.zero_and _) hv.1, fun _ => ⟨fun hv => absurd (Nat.zero_and _) hv,
        fun _ => ?_⟩⟩
      exact (ih own s (i + 1) (by omega) hpages hown (fun j hj => hent j (by omega))
        (hint.mono fun ρ hρ => after_iff.2 (.inr hρ))).imp fun _ t => Freed.skip hT hc h0
    · have hπ : π.length + 1 < 3 := by
        have := hT.tree.short c π hc
        by_contra hlen
        exact h0 ((hT.tree.value c π i hc (by omega) hi).trans (hT.zero c π i hc (by omega) hi))
      obtain ⟨d, hd, hcd⟩ := (hT.tree.down c π i hc hπ hi).resolve_left h0
      rw [hcd]
      refine ⟨fun _ => ?_, fun hv => absurd ⟨pte_V_and d, pte_V_inner d⟩ hv⟩
      have hdr : own d = .table r (π ++ [i]) := by
        rw [(hint d _ ⟨i, le_rfl, List.prefix_rfl⟩ hd).1, hd]
      rw [PTE2PA_pte (hpages.small (by rw [hdr]; simp)) (by decide)]
      refine (hfree own s d i hi hd hpages fun e ρ hρ he => hint e ρ ⟨i, le_rfl, hρ⟩ he).imp ?_
      intro _ s₁ hf
      have hself : ∀ ρ, π ++ [i] <+: ρ → own₀ c ≠ .table r ρ := fun ρ hρ =>
        hT.not_after hc (after_iff.2 (.inl hρ))
      have hc₁ : prune own₀ own r (π ++ [i] <+: ·) c = own₀ c := by
        rw [prune_neg hself, hown]
      refine (ih (prune own₀ own r (π ++ [i] <+: ·)) _ (i + 1) (by omega) ?_ hc₁ ?_
        (hint.next hT hc hi hf)).imp fun _ t => Freed.next hi hf
      · refine hf.pages.congr (fun _ => Iff.rfl) (fun _ => Iff.rfl) rfl fun q hq =>
          mem_store_ne _ hi ?_
        rintro rfl
        rw [hc₁, hc] at hq
        cases hq
      · intro j hj hj'
        rw [entry_store _ hi (by decide), if_neg (by omega), ← hent j (by omega) hj', entry, entry,
          hf.mem c hself (fun h => h)]

end

theorem freewalk_sub (hT : Bare own₀ r s₀ l) (n : ℕ) :
    ∀ own s c π, π.length + n = 3 → own₀ c = .table r π → Pages k own s →
      Intact own₀ own r (π <+: ·) s₀ s →
      Post (freewalk k n (pg c)) s (fun _ t =>
        Freed k own₀ own r (π <+: ·) (fun _ => False) s t) E := by
  induction n with
  | zero =>
    intro own s c π hn hc
    have := hT.tree.short c π hc
    omega
  | succ n ih =>
    intro own s c π hn hc hpages hint
    obtain ⟨hown, hmem⟩ := hint c π List.prefix_rfl hc
    simp only [freewalk, post_bind]
    refine (freewalkFrom_spec hT hc (fun own s d i hi hd hp hin => ?_) 512 own s 0 rfl hpages hown
      (fun j _ _ => by rw [entry, entry, hmem])
      (hint.mono fun ρ hρ => prefix_iff_after.2 (.inr hρ))).imp ?_
    · exact ih own s d (π ++ [i]) (by simp; omega) hd hp hin
    · rintro _ s₁ ⟨hp₁, hrest₁, hdeny₁, hmem₁⟩
      have hc₁ : prune own₀ own r (After π 0) c = .table r π := by
        rw [prune_neg fun ρ hρ => hT.not_after hc hρ, hown, hc]
      have hown' : Function.update (prune own₀ own r (After π 0)) c .free =
          prune own₀ own r (π <+: ·) := by
        funext p
        by_cases hpc : p = c
        · rw [hpc, Function.update_self, prune_pos List.prefix_rfl hc]
        · rw [Function.update_of_ne hpc]
          refine prune_congr fun ρ hp => ?_
          rw [prefix_iff_after]
          refine ⟨.inr, fun h => h.resolve_left ?_⟩
          rintro rfl
          exact hpc (hT.tree.inj p c ρ hp hc)
      refine (kfree_spec hp₁ (by rw [hc₁]; simp) (by rw [hc₁]; simp)).imp ?_
      rintro _ t ⟨hp₂, hrest₂, hdeny₂, honly⟩
      rw [hown'] at hp₂
      refine ⟨hp₂, hrest₁.trans hrest₂, hdeny₂.trans hdeny₁, fun p hp _ => ?_⟩
      have hpc : p ≠ c := by
        rintro rfl
        exact hp π List.prefix_rfl hc
      rw [honly p hpc, hmem₁ p (fun ρ hρ => hp ρ (prefix_iff_after.2 (.inr hρ))) hpc]

end

/-- `freewalk` of a table that maps nothing frees exactly its pages. -/
theorem freewalk_spec (h : Memory k own L s) (hr : own r = .table r [])
    (h0 : ∀ v, v < 2 ^ 27 → L r (vkey v) = 0) :
    Post (freewalk k 3 (pg r)) s (fun _ t =>
      Memory k (prune own own r fun _ => True) L t ∧
      Frame r own s (prune own own r fun _ => True) t) E := by
  have hbare : Bare own r s (L r) := by
    refine ⟨h.tables r hr, fun d ρ i hd hρ hi => ?_⟩
    obtain ⟨v, hv, hkey⟩ := exists_vkey h hr hd hρ hi
    rw [hkey, h0 v hv]
  refine (freewalk_sub hbare 3 own s r [] rfl hr h.pages fun _ _ _ _ => ⟨rfl, rfl⟩).imp ?_
  rintro _ t ⟨hp, hrest, hdeny, hmem⟩
  have hprune : prune own own r ([] <+: ·) = prune own own r fun _ => True := by
    funext p
    exact prune_congr fun ρ _ => iff_of_true List.nil_prefix trivial
  rw [hprune] at hp
  have hof : ∀ p, ¬ (own p).of r → ∀ ρ, own p ≠ .table r ρ := by
    intro p hp ρ hρ
    rw [hρ] at hp
    exact hp rfl
  refine ⟨⟨hp, h.tables.update (r := r) (fun r' hr' d ρ => ?_) (fun r' hr' d ρ hd => ?_)
    (fun _ _ => rfl) fun hrr => ?_⟩, hrest, fun hd => by rw [hdeny, hd], fun p _ hp => ?_,
    fun p _ hp => ?_, fun p hp => ?_⟩
  · by_cases hd : ∃ σ, own d = .table r σ
    · obtain ⟨σ, hσ⟩ := hd
      rw [prune_pos trivial hσ, hσ]
      simp [hr'.symm]
    · push Not at hd
      rw [prune_neg fun ρ _ => hd ρ]
  · refine hmem d (fun σ _ hσ => ?_) (fun h => h)
    rw [hd] at hσ
    cases hσ
    exact hr' rfl
  · rw [prune_pos trivial hr] at hrr
    cases hrr
  · exact prune_neg fun ρ _ => hof p hp ρ
  · exact hmem p (fun ρ _ => hof p hp ρ) (fun h => h)
  · by_cases hd : ∃ σ, own p = .table r σ
    · obtain ⟨σ, hσ⟩ := hd
      exact .inl (prune_pos trivial hσ)
    · push Not at hd
      rw [prune_neg fun ρ _ => hd ρ]
      exact hp

end Vm
end Xv6
