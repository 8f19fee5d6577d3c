import Xv6.Vm.Unmap

/-!
User address spaces. The table with root `r` maps the virtual pages `[0, n)` to user
pages of their own, and above them at most `TRAMPOLINE` and `TRAPFRAME`. Here are the
functions of `vm.c` that build, grow, shrink and free an address space.
-/

namespace Xv6
namespace Vm

open Hoare RadixTree

variable {k : Layout} {own own' own'' : ℕ → Use} {L L' L'' : ℕ → List ℕ → ℕ} {s t : State}
  {E : Panic → State → Prop} {r n m p u v f tramp trap : ℕ}

def trampPage : ℕ := TRAMPOLINE / PGSIZE
def trapPage : ℕ := TRAPFRAME / PGSIZE

theorem pg_trampPage : pg trampPage = TRAMPOLINE := by decide
theorem pg_trapPage : pg trapPage = TRAPFRAME := by decide
theorem trapPage_succ : trapPage + 1 = trampPage := by decide
theorem trampPage_succ : trampPage + 1 = 2 ^ 26 := by decide

def topEntry (tramp trap v : ℕ) : ℕ :=
  if v = trampPage then tramp else if v = trapPage then trap else 0

structure Space (own : ℕ → Use) (L : ℕ → List ℕ → ℕ) (r n tramp trap : ℕ) : Prop where
  root : own r = .table r []
  page : ∀ v, v < n → ∃ u f, Mapped own L r v u f
  only : ∀ u v, own u = .user r v → v < n
  top : ∀ v, n ≤ v → v < 2 ^ 27 → L r (vkey v) = topEntry tramp trap v

structure Effect (k : Layout) (r : ℕ) (own : ℕ → Use) (L : ℕ → List ℕ → ℕ) (s : State)
    (own' : ℕ → Use) (L' : ℕ → List ℕ → ℕ) (t : State) : Prop where
  memory : Memory k own' L' t
  frame : Frame r own s own' t
  maps : ∀ r', r' ≠ r → L' r' = L r'

theorem Effect.refl (h : Memory k own L s) (r : ℕ) : Effect k r own L s own L s :=
  ⟨h, .refl r own s, fun _ _ => rfl⟩

theorem Effect.trans {u : State} (h : Effect k r own L s own' L' t)
    (h' : Effect k r own' L' t own'' L'' u) : Effect k r own L s own'' L'' u :=
  ⟨h'.memory, h.frame.trans h'.frame, fun r' hr' => (h'.maps r' hr').trans (h.maps r' hr')⟩

namespace Space

theorem frame {r' : ℕ} (h : Space own L r n tramp trap) (he : Effect k r' own L s own' L' t)
    (hr : r ≠ r') : Space own' L' r n tramp trap := by
  have hiff : ∀ p v, own' p = .user r v ↔ own p = .user r v := fun p v =>
    he.frame.iff_of_not (by simp) (by simpa [Use.of] using hr)
  refine ⟨?_, fun v hv => ?_, fun u v hu => h.only u v ((hiff u v).1 hu), fun v hv hv' => ?_⟩
  · rw [he.frame.iff_of_not (by simp) (by simpa [Use.of] using hr), h.root]
  · obtain ⟨u, f, hu⟩ := h.page v hv
    exact ⟨u, f, by rw [he.maps r hr, hu.entry], fun p => (hiff p v).trans (hu.owner p), hu.flags⟩
  · rw [he.maps r hr, h.top v hv hv']

theorem small (h : Space own L r n tramp trap) (hm : Memory k own L s) :
    n ≤ PHYSTOP / PGSIZE := by
  choose! g f hg using h.page
  have hinj : Set.InjOn g (Finset.range n : Set ℕ) := by
    intro v hv w hw hvw
    have hv' := (hg v (by simpa using hv)).user
    have hw' := (hg w (by simpa using hw)).user
    rw [hvw, hw'] at hv'
    cases hv'
    rfl
  have hmaps : Set.MapsTo g (Finset.range n : Set ℕ) (Finset.range (PHYSTOP / PGSIZE) : Set ℕ) := by
    intro v hv
    have hu := (hg v (by simpa using hv)).user
    have := ((hm.pages.range (g v)).1 (by rw [hu]; simp)).2
    simp only [Finset.coe_range, Set.mem_Iio]
    unfold pg PGSIZE PHYSTOP KERNBASE at *
    omega
  have := Finset.card_le_card_of_injOn g hmaps hinj
  simpa using this

theorem lt_trapframe (h : Space own L r n tramp trap) (hm : Memory k own L s) :
    n < trapPage := by
  have := h.small hm
  unfold trapPage TRAPFRAME TRAMPOLINE MAXVA PHYSTOP KERNBASE PGSIZE at *
  omega

theorem size_le {sz : ℕ} (h : Space own L r (pages sz) tramp trap) (hm : Memory k own L s) :
    sz ≤ PHYSTOP := by
  refine (pages_le_iff.1 (h.small hm)).trans ?_
  decide

end Space

/-! ### Pages that stay -/

structure Steady (r n : ℕ) (own : ℕ → Use) (L : ℕ → List ℕ → ℕ) (s : State)
    (L' : ℕ → List ℕ → ℕ) (t : State) : Prop where
  entry : ∀ v, v < n → L' r (vkey v) = L r (vkey v)
  mem : ∀ p v, v < n → own p = .user r v → t.mem.get p = s.mem.get p

theorem Steady.refl (r n : ℕ) (own : ℕ → Use) (L : ℕ → List ℕ → ℕ) (s : State) :
    Steady r n own L s L s := ⟨fun _ _ => rfl, fun _ _ _ _ => rfl⟩

theorem Steady.trans {u : State} (h : Steady r n own L s L' t) (h' : Steady r n own' L' t L'' u)
    (hown : ∀ p v, v < n → own p = .user r v → own' p = .user r v) : Steady r n own L s L'' u :=
  ⟨fun v hv => (h'.entry v hv).trans (h.entry v hv),
    fun p v hv hp => (h'.mem p v hv (hown p v hv hp)).trans (h.mem p v hv hp)⟩

theorem Steady.mono (h : Steady r n own L s L' t) (hm : m ≤ n) : Steady r m own L s L' t :=
  ⟨fun v hv => h.entry v (by omega), fun p v hv => h.mem p v (by omega)⟩

/-- The use of a page for a function that does not get to the first `n` pages of `r`. -/
def Use.lend (r n : ℕ) (x : Use) : Use :=
  match x with
  | user r' v => if r' = r ∧ v < n then held else user r' v
  | x => x

theorem Use.lend_iff {w x : Use} (hheld : w ≠ .held) (hw : ∀ v, v < n → w ≠ .user r v) :
    x.lend r n = w ↔ x = w := by
  cases x with
  | user r' v =>
    rw [lend]
    split_ifs with hc
    · obtain ⟨rfl, hv⟩ := hc
      exact iff_of_false (fun h => hheld h.symm) fun h => hw v hv h.symm
    · rfl
  | _ => rfl

theorem Memory.lend (h : Memory k own L s) (r n : ℕ) :
    Memory k (fun p => (own p).lend r n) L s :=
  ⟨h.pages.congr (fun _ => Use.lend_iff (by simp) (by simp))
      (fun _ => Use.lend_iff (by simp) (by simp)) rfl fun _ _ => rfl,
    fun r' hr' => (h.tables r' ((Use.lend_iff (by simp) (by simp)).1 hr')).congr
      (fun _ _ => Use.lend_iff (by simp) (by simp)) fun _ _ _ _ _ => rfl⟩

/-- A function that works on `r` and need not know its first `n` pages leaves them. -/
theorem Frame.mem_of_lend (h : Frame r (fun p => (own p).lend r n) s own' t) (hv : v < n)
    (hp : own p = .user r v) : t.mem.get p = s.mem.get p := by
  have hheld : (own p).lend r n = .held := by
    rw [hp, Use.lend, if_pos ⟨rfl, hv⟩]
  refine h.mem p ?_ ?_
  · rw [hheld]
    simp
  · rw [hheld]
    exact id

/-! ### Shrinking -/

theorem unmapL_apply (n : ℕ) : ∀ {L v w}, v + n ≤ 2 ^ 27 → w < 2 ^ 27 →
    unmapL r n v L r (vkey w) = if v ≤ w ∧ w < v + n then 0 else L r (vkey w) := by
  induction n with
  | zero =>
    intro L v w _ _
    rw [unmapL, if_neg (by omega)]
  | succ n ih =>
    intro L v w hv hw
    rw [unmapL, ih (by omega) hw]
    by_cases hwv : w = v
    · rw [hwv, setL_self, if_neg (by omega), if_pos (by omega)]
    · rw [setL_ne fun h => hwv (vkey_inj hw (by omega) h)]
      refine if_congr ?_ rfl rfl
      omega

theorem unmapL_root (n : ℕ) : ∀ {L v r'}, r' ≠ r → unmapL r n v L r' = L r' := by
  induction n with
  | zero =>
    intro L v r' _
    rfl
  | succ n ih =>
    intro L v r' hr'
    rw [unmapL, ih hr', setL_root hr']

theorem Use.freed_eq_user {lo hi r' w : ℕ} {x : Use} :
    x.freed r lo hi = .user r' w ↔ x = .user r' w ∧ ¬ (r' = r ∧ lo ≤ w ∧ w < hi) := by
  cases x with
  | user r'' w' =>
    rw [Use.freed]
    split_ifs with hc
    · simp only [false_iff, not_and]
      rintro h
      cases h
      simpa using hc
    · constructor
      · intro h
        cases h
        exact ⟨rfl, hc⟩
      · rintro ⟨h, -⟩
        exact h
  | _ => simp [Use.freed]

theorem Use.freed_eq_table {lo hi r' : ℕ} {π : List ℕ} {x : Use} :
    x.freed r lo hi = .table r' π ↔ x = .table r' π := by
  cases x with
  | user r'' w' =>
    rw [Use.freed]
    split_ifs <;> simp
  | _ => simp [Use.freed]

theorem uvmunmap_spec (h : Memory k own L s) (hs : Space own L r (n + m) tramp trap) :
    Post (uvmunmap k (pg r) (pg n) m true) s (fun _ t => ∃ L',
      Effect k r own L s (fun p => (own p).freed r n (n + m)) L' t ∧
      Space (fun p => (own p).freed r n (n + m)) L' r n tramp trap ∧
      Steady r n own L s L' t) E := by
  have hlt := hs.lt_trapframe h
  have htop := trapPage_succ
  have hbound : n + m < 2 ^ 26 := by
    have := trampPage_succ
    omega
  have hend : (pg n + m * PGSIZE) % 2 ^ 64 - pg n = pg m := by
    unfold pg PGSIZE at *
    omega
  simp only [uvmunmap, post_bind, post_ite, hend, pages_pg]
  refine ⟨fun hne => absurd (pg_mod n) hne, fun _ => ?_⟩
  have hlent : ∀ w, n ≤ w → w < n + m →
      ∃ u f, Mapped (fun p => (own p).lend r n) L r w u f := by
    intro w hw hw'
    obtain ⟨u, f, hu⟩ := hs.page w hw'
    refine ⟨u, f, hu.entry, fun p => ?_, hu.flags⟩
    rw [← hu.owner]
    refine Use.lend_iff (by simp) fun v hv heq => ?_
    cases heq
    omega
  have hkeep := uvmunmapFrom_spec (E := fun _ _ => True) m (h.lend r n)
    ((Use.lend_iff (by simp) (by simp)).2 hs.root) hbound.le hlent
  refine ((uvmunmapFrom_spec m h hs.root hbound.le fun w _ hw => hs.page w hw).also hkeep).imp ?_
  rintro _ t ⟨⟨hm, hf⟩, -, hlend⟩
  refine ⟨_, ⟨hm, hf, fun r' hr' => unmapL_root m hr'⟩, ⟨?_, fun v hv => ?_, fun u v hu => ?_,
    fun v hv hv' => ?_⟩, fun v hv => ?_, fun p v hv hp => hlend.mem_of_lend hv hp⟩
  · rw [Use.freed_eq_table, hs.root]
  · obtain ⟨u, f, hu⟩ := hs.page v (by omega)
    refine ⟨u, f, ?_, fun p => ?_, hu.flags⟩
    · rw [unmapL_apply m (by omega) (by omega), if_neg (by omega), hu.entry]
    · rw [Use.freed_eq_user, ← hu.owner]
      refine ⟨And.left, fun hp => ⟨hp, by omega⟩⟩
  · obtain ⟨hu, hnot⟩ := Use.freed_eq_user.1 hu
    have := hs.only u v hu
    by_contra hge
    exact hnot ⟨rfl, by omega, this⟩
  · rw [unmapL_apply m (by omega) hv']
    split_ifs with hc
    · rw [topEntry, if_neg (by omega), if_neg (by omega)]
    · exact hs.top v (by omega) hv'
  · rw [unmapL_apply m (by omega) (by omega), if_neg (by omega)]

theorem Use.freed_self (x : Use) (r n : ℕ) : x.freed r n n = x := by
  cases x with
  | user r' w =>
    rw [Use.freed, if_neg]
    omega
  | _ => rfl

theorem uvmdealloc_spec {oldsz newsz : ℕ} (h : Memory k own L s)
    (hs : Space own L r (pages oldsz) tramp trap) (hold : oldsz + PGSIZE ≤ 2 ^ 64) :
    Post (uvmdealloc k (pg r) oldsz newsz) s (fun sz t => sz = min oldsz newsz ∧ ∃ L',
      Effect k r own L s (fun p => (own p).freed r (pages sz) (pages oldsz)) L' t ∧
      Space (fun p => (own p).freed r (pages sz) (pages oldsz)) L' r (pages sz) tramp trap ∧
      Steady r (pages sz) own L s L' t) E := by
  simp only [uvmdealloc, post_bind, post_ite, post_pure]
  refine ⟨fun hge => ⟨(min_eq_left hge).symm, L, ?_⟩, fun hlt => ?_⟩
  · simp only [Use.freed_self]
    exact ⟨.refl h r, hs, .refl r _ own L s⟩
  · have hle : newsz ≤ oldsz := by omega
    have hmono := pages_mono hle
    rw [PGROUNDUP_eq hold, PGROUNDUP_eq (by omega)]
    refine ⟨fun hpg => ?_, fun hpg => ⟨(min_eq_right hle).symm, L, ?_⟩⟩
    · obtain ⟨m, hm⟩ := Nat.exists_eq_add_of_le hmono
      rw [hm] at hs ⊢
      have hsub : (pg (pages newsz + m) - pg (pages newsz)) / PGSIZE = m := by
        unfold pg PGSIZE
        omega
      rw [hsub]
      refine (uvmunmap_spec h hs).imp ?_
      rintro _ t ⟨L', he, hs'⟩
      exact ⟨(min_eq_right hle).symm, L', he, hs'⟩
    · have heq : pages newsz = pages oldsz := by
        unfold pg PGSIZE at hpg
        omega
      rw [heq]
      simp only [Use.freed_self]
      exact ⟨.refl h r, hs, .refl r _ own L s⟩

/-! ### Growing -/

theorem Memory.retype {w : Use} (h : Memory k own L s) (hu : own u = .held) (hf : w ≠ .free)
    (ho : w ≠ .outside) (ht : ∀ r π, w ≠ .table r π) : Memory k (Function.update own u w) L s := by
  refine ⟨h.pages.retype (by rw [hu]; simp) (by rw [hu]; simp) hf ho, fun r hr => ?_⟩
  have hiff : ∀ d π, Function.update own u w d = .table r π ↔ own d = .table r π := by
    intro d π
    by_cases hd : d = u
    · rw [hd, Function.update_self, hu]
      exact iff_of_false (ht r π) (by simp)
    · rw [Function.update_of_ne hd]
  exact (h.tables r ((hiff r []).1 hr)).congr hiff fun _ _ _ _ _ => rfl

structure Fresh (k : Layout) (own : ℕ → Use) (L : ℕ → List ℕ → ℕ) (s : State) (u : ℕ)
    (t : State) : Prop where
  free : own u = .free
  memory : Memory k (Function.update own u .held) L t
  rest : Rest s t
  deny : s.deny = [] → t.deny = []
  only : OnlyPage u s t

theorem kalloc_fresh (h : Memory k own L s) :
    Post kalloc s (fun a t => a = 0 ∧ (∀ r, Effect k r own L s own L t) ∨
      ∃ u, a = pg u ∧ pg u ≠ 0 ∧ Fresh k own L s u t) E := by
  refine (kalloc_spec h.pages).imp ?_
  rintro a t ⟨hrest, hdeny, ⟨rfl, hmem, hpages, -⟩ | ⟨u, rfl, hu, hpages, honly⟩⟩
  · refine .inl ⟨rfl, fun r => ?_⟩
    have hw := h.unallocated r (fun _ => True) hrest hdeny hmem hpages
    exact ⟨hw.memory, hw.frame, fun _ _ => rfl⟩
  · refine .inr ⟨u, rfl, fun h0 => ?_, hu, ⟨hpages, fun r' hr' => ?_⟩, hrest, fun hd => ?_, honly⟩
    · exact (h.pages.pos (by rw [hu]; simp)).ne' (pg_eq_zero.1 h0)
    · have hiff : ∀ d π, Function.update own u .held d = .table r' π ↔ own d = .table r' π := by
        intro d π
        by_cases hd : d = u
        · rw [hd, Function.update_self, hu]
          simp
        · rw [Function.update_of_ne hd]
      refine (h.tables r' ((hiff r' []).1 hr')).congr hiff fun d π i hd _ => ?_
      have hdu : d ≠ u := by
        rintro rfl
        rw [hu] at hd
        cases hd
      rw [entry, entry, honly d hdu]
    · rw [hdeny, hd]
      rfl

/-- Writing to a page that is neither free nor of a page table. -/
theorem Memory.write (h : Memory k own L s) (hf : own u ≠ .free) (ht : ∀ r π, own u ≠ .table r π)
    (hlist : t.freelist = s.freelist) (honly : OnlyPage u s t) : Memory k own L t := by
  refine ⟨h.pages.congr (fun _ => Iff.rfl) (fun _ => Iff.rfl) hlist fun p hp => honly p ?_,
    fun r hr => (h.tables r hr).congr (fun _ _ => Iff.rfl) fun d π i hd _ => ?_⟩
  · rintro rfl
    exact hf hp
  · have hdu : d ≠ u := by
      rintro rfl
      exact ht r π hd
    rw [entry, entry, honly d hdu]

theorem Fresh.write (h : Fresh k own L s u t) (l : List UInt8) :
    Fresh k own L s u (t.setBytes (pg u) l) := by
  have honly : OnlyPage u t (t.setBytes (pg u) l) := fun q hq => mem_setBytes_ne t l hq
  refine ⟨h.free, h.memory.write ?_ ?_ rfl honly, ?_, h.deny, fun q hq => ?_⟩
  · rw [Function.update_self]
    simp
  · rw [Function.update_self]
    simp
  · exact h.rest.trans ⟨rfl, rfl, rfl, rfl, rfl⟩
  · rw [honly q hq, h.only q hq]

/-- The address space `r` has got the user pages `[n, n')` and new table pages. -/
def GrowsTo (r n n' : ℕ) (own own' : ℕ → Use) : Prop :=
  ∀ p, own' p = own p ∨ own p = .free ∧
    ((∃ v, n ≤ v ∧ v < n' ∧ own' p = .user r v) ∨ ∃ π, π ≠ [] ∧ own' p = .table r π)

theorem Fresh.frame (h : Fresh k own L s u t) {t' : State} {w : Use}
    (hf : Frame r (Function.update own u .held) t own' t') (hw : w = .free ∨ w.of r)
    {t'' : State} (hrest : Rest t' t'') (hdeny : t''.deny = t'.deny) (honly : OnlyPage u t' t'') :
    Frame r own s (Function.update own' u w) t'' := by
  have hne : ∀ {p}, own p ≠ .free → p ≠ u := by
    rintro p hp rfl
    exact hp h.free
  have hold : ∀ p, p ≠ u → Function.update own u .held p = own p := fun p hp =>
    Function.update_of_ne hp _ _
  refine ⟨(h.rest.trans hf.rest).trans hrest, fun hd => ?_, fun p hp hr => ?_, fun p hp hr => ?_,
    fun p hp => ?_⟩
  · rw [hdeny]
    exact hf.deny (h.deny hd)
  · rw [Function.update_of_ne (hne hp), hf.use p, hold p (hne hp)] <;> rwa [hold p (hne hp)]
  · rw [honly p (hne hp), hf.mem p, h.only p (hne hp)] <;> rwa [hold p (hne hp)]
  · by_cases hpu : p = u
    · rw [hpu, Function.update_self]
      exact hw
    · rw [Function.update_of_ne hpu]
      refine hf.new p ?_
      rwa [hold p hpu]

theorem Grows.user_iff {K : List ℕ → Prop} {r' : ℕ} (h : Grows r K own own') :
    own' p = .user r' v ↔ own p = .user r' v := by
  rcases h p with hp | ⟨hf, π, -, -, hp⟩
  · rw [hp]
  · rw [hp, hf]
    simp

theorem Space.top_zero (h : Space own L r n tramp trap) (hm : Memory k own L s) :
    L r (vkey n) = 0 := by
  have hlt := h.lt_trapframe hm
  have hbig : trapPage < trampPage ∧ trampPage < 2 ^ 27 := by decide
  rw [h.top n le_rfl (by omega), topEntry, if_neg (by omega), if_neg (by omega)]

/-- A fresh page becomes the user page `n`, unless a page-table page is missing. -/
theorem Fresh.map {perm : ℕ} (h : Fresh k own L s u t) (hm : Memory k own L s)
    (hs : Space own L r n tramp trap) (hlt : perm < 1024)
    (hperm : perm ||| PTE_V = 31 ∨ perm ||| PTE_V = 15) :
    Post (mappages (pg r) (pg n) PGSIZE (pg u) perm) t (fun ok t' =>
      ok = true ∧ (∃ own' L', Effect k r own L s own' L' t' ∧ Space own' L' r (n + 1) tramp trap ∧
        GrowsTo r n (n + 1) own own' ∧ Mapped own' L' r n u (perm ||| PTE_V) ∧
        ∀ v, v < n → L' r (vkey v) = L r (vkey v)) ∨
      ok = false ∧ ∃ own', Memory k own' L t' ∧ Frame r (Function.update own u .held) t own' t' ∧
        Grows r (fun _ => True) (Function.update own u .held) own') E := by
  have hn := hs.lt_trapframe hm
  have hn26 : n < 2 ^ 26 := by
    have := trapPage_succ
    have := trampPage_succ
    omega
  have hur : r ≠ u := by
    rintro rfl
    have := hs.root
    rw [h.free] at this
    cases this
  have hu52 := hm.pages.small (p := u) (by rw [h.free]; simp)
  refine (mappages_page hlt h.memory (by rw [Function.update_of_ne hur, hs.root]) (pg_mod n)
    (by unfold pg PGSIZE MAXVA; omega) (by unfold pg PGSIZE; omega)
    (by rw [← vkey, hs.top_zero hm]; exact Nat.zero_and _)).imp ?_
  rintro ok t' ⟨own₂, hw, -⟩
  have hheld : own₂ u = .held := by
    rw [hw.grows.keep (by rw [Function.update_self]; simp), Function.update_self]
  have hgrow : ∀ p, p ≠ u → own₂ p = own p ∨ own p = .free ∧
      ∃ π, π ≠ [] ∧ own₂ p = .table r π := by
    intro p hp
    have := hw.grows p
    rw [Function.update_of_ne hp] at this
    refine this.imp_right ?_
    rintro ⟨hf, π, h0, -, hπ⟩
    exact ⟨hf, π, h0, hπ⟩
  cases ok with
  | false => exact .inr ⟨rfl, own₂, hw.memory, hw.frame, hw.grows.mono fun _ _ => trivial⟩
  | true =>
    rw [if_pos rfl, pg_div, ← vkey] at hw
    have huser : ∀ p r' v, p ≠ u → (Function.update own₂ u (.user r n) p = .user r' v ↔
        own p = .user r' v) := by
      intro p r' v hp
      rw [Function.update_of_ne hp, hw.grows.user_iff, Function.update_of_ne hp]
    have hmapped : Mapped (Function.update own₂ u (.user r n))
        (setL L r (vkey n) (pte u (perm ||| PTE_V))) r n u (perm ||| PTE_V) := by
      refine ⟨setL_self _ _ _ _, fun p => ?_, hperm⟩
      by_cases hp : p = u
      · rw [hp, Function.update_self]
        simp
      · rw [huser p r n hp]
        refine iff_of_false (fun hpn => ?_) hp
        have := hs.only p n hpn
        omega
    refine .inl ⟨rfl, Function.update own₂ u (.user r n), _, ⟨?_, ?_, fun r' hr' => setL_root hr'⟩,
      ⟨?_, fun v hv => ?_, fun p v hp => ?_, fun v hv hv' => ?_⟩, fun p => ?_, hmapped,
      fun v hv => setL_ne fun hkey => absurd (vkey_inj (by omega) (by omega) hkey) hv.ne⟩
    · exact hw.memory.retype hheld (by simp) (by simp) (by simp)
    · exact h.frame (w := .user r n) hw.frame (.inr rfl) (.refl _) rfl fun _ _ => rfl
    · rw [Function.update_of_ne hur, hw.grows.keep, Function.update_of_ne hur, hs.root]
      rw [Function.update_of_ne hur, hs.root]
      simp
    · rcases Nat.lt_succ_iff_lt_or_eq.1 hv with hv | rfl
      · obtain ⟨u', f', hu'⟩ := hs.page v hv
        refine ⟨u', f', ?_, fun p => ?_, hu'.flags⟩
        · rw [setL_ne, hu'.entry]
          exact fun hkey => absurd (vkey_inj (by omega) (by omega) hkey) (by omega)
        · by_cases hp : p = u
          · have huu : u ≠ u' := by
              rintro rfl
              have := hu'.user
              rw [h.free] at this
              cases this
            rw [hp, Function.update_self]
            refine iff_of_false (fun heq => ?_) huu
            cases heq
            omega
          · rw [huser p r v hp]
            exact hu'.owner p
      · exact ⟨u, _, hmapped⟩
    · by_cases hpu : p = u
      · rw [hpu, Function.update_self] at hp
        cases hp
        omega
      · have := hs.only p v ((huser p r v hpu).1 hp)
        omega
    · rw [setL_ne, hs.top v (by omega) hv']
      exact fun hkey => absurd (vkey_inj hv' (by omega) hkey) (by omega)
    · by_cases hpu : p = u
      · rw [hpu, Function.update_self]
        exact .inr ⟨h.free, .inl ⟨n, le_rfl, by omega, rfl⟩⟩
      · rw [Function.update_of_ne hpu]
        exact (hgrow p hpu).imp_right fun h => ⟨h.1, .inr h.2⟩

/-- Mapping the page `n` leaves the contents of the page and of those before it. -/
theorem Fresh.map_mem {perm : ℕ} (h : Fresh k own L s u t) (hm : Memory k own L s)
    (hs : Space own L r n tramp trap) (hlt : perm < 1024) :
    Post (mappages (pg r) (pg n) PGSIZE (pg u) perm) t (fun _ t' =>
      t'.mem.get u = t.mem.get u ∧
      ∀ p v, v < n → own p = .user r v → t'.mem.get p = t.mem.get p) fun _ _ => True := by
  have hn := hs.lt_trapframe hm
  have hn26 : n < 2 ^ 26 := by
    have := trapPage_succ
    have := trampPage_succ
    omega
  have hu52 := hm.pages.small (p := u) (by rw [h.free]; simp)
  have hne : ∀ {p w}, own p = w → w ≠ .free → p ≠ u := by
    rintro p w hp hw rfl
    exact hw (hp.symm.trans h.free)
  have hroot : (Function.update own u .held r).lend r n = .table r [] := by
    rw [Function.update_of_ne (hne hs.root (by simp)), hs.root]
    rfl
  refine (mappages_page hlt (h.memory.lend r n) hroot (pg_mod n)
    (by unfold pg PGSIZE MAXVA; omega) (by unfold pg PGSIZE; omega)
    (by rw [← vkey, hs.top_zero hm]; exact Nat.zero_and _)).imp ?_
  rintro ok t' ⟨own₂, hw, -⟩
  refine ⟨hw.frame.mem u ?_ ?_, fun p v hv hp => hw.frame.mem_of_lend hv ?_⟩
  · rw [Function.update_self]
    simp [Use.lend]
  · rw [Function.update_self]
    exact id
  · rw [Function.update_of_ne (hne hp (by simp)), hp]

theorem Space.grows {K : List ℕ → Prop} (h : Space own L r n tramp trap)
    (hg : Grows r K own own') : Space own' L r n tramp trap := by
  refine ⟨by rw [hg.keep (by rw [h.root]; simp), h.root], fun v hv => ?_, fun u v hu => ?_, h.top⟩
  · obtain ⟨u, f, hu⟩ := h.page v hv
    exact ⟨u, f, hu.entry, fun p => hg.user_iff.trans (hu.owner p), hu.flags⟩
  · exact h.only u v (hg.user_iff.1 hu)

theorem Fresh.discard {own₂ : ℕ → Use} {t₂ : State} (h : Fresh k own L s u t)
    (hm : Memory k own₂ L t₂) (hf : Frame r (Function.update own u .held) t own₂ t₂)
    (hg : Grows r (fun _ => True) (Function.update own u .held) own₂) :
    Post (kfree k (pg u)) t₂ (fun _ t' => ∃ own', Effect k r own L s own' L t' ∧
      Grows r (fun _ => True) own own' ∧ OnlyPage u t₂ t') E := by
  have hheld : own₂ u = .held := by
    rw [hg.keep (by rw [Function.update_self]; simp), Function.update_self]
  refine (hm.free_page (by rw [hheld]; simp) (by rw [hheld]; simp) (by rw [hheld]; simp)).imp ?_
  rintro _ t' ⟨hm', hrest, hdeny, honly⟩
  refine ⟨_, ⟨hm', h.frame hf (.inl rfl) hrest hdeny honly, fun _ _ => rfl⟩, fun p => ?_, honly⟩
  by_cases hp : p = u
  · rw [hp, Function.update_self, h.free]
    exact .inl rfl
  · rw [Function.update_of_ne hp]
    have := hg p
    rwa [Function.update_of_ne hp] at this

theorem GrowsTo.refl (r n : ℕ) (own : ℕ → Use) : GrowsTo r n n own own := fun _ => .inl rfl

theorem GrowsTo.trans {n' n'' : ℕ} (h : GrowsTo r n n' own own') (h' : GrowsTo r n' n'' own' own'')
    (hn : n ≤ n') (hn' : n' ≤ n'') : GrowsTo r n n'' own own'' := by
  intro p
  rcases h p with hp | ⟨hf, hp⟩
  · rw [← hp]
    refine (h' p).imp_right ?_
    rintro ⟨hf, ⟨v, hv, hv', hpv⟩ | hπ⟩
    · exact ⟨hf, .inl ⟨v, by omega, hv', hpv⟩⟩
    · exact ⟨hf, .inr hπ⟩
  · have hne : own' p ≠ .free := by
      rcases hp with ⟨v, -, -, hp⟩ | ⟨π, -, hp⟩ <;> rw [hp] <;> simp
    have hkeep : own'' p = own' p := (h' p).resolve_right fun hx => hne hx.1
    rw [hkeep]
    refine .inr ⟨hf, hp.imp_left ?_⟩
    rintro ⟨v, hv, hv', hpv⟩
    exact ⟨v, hv, by omega, hpv⟩

theorem Grows.growsTo {K : List ℕ → Prop} (h : Grows r K own own') : GrowsTo r n n own own' := by
  intro p
  refine (h p).imp_right ?_
  rintro ⟨hf, π, h0, -, hp⟩
  exact ⟨hf, .inr ⟨π, h0, hp⟩⟩

/-- When the new user pages are freed again, only table pages are left. -/
theorem GrowsTo.freed (h : GrowsTo r n m own own')
    (honly : ∀ u v, own u = .user r v → v < n) :
    Grows r (fun _ => True) own fun p => (own' p).freed r n m := by
  intro p
  rcases h p with hp | ⟨hf, ⟨v, hv, hv', hp⟩ | ⟨π, h0, hp⟩⟩
  · left
    show (own' p).freed r n m = own p
    rw [hp]
    cases hcase : own p with
    | user r' w =>
      rw [Use.freed, if_neg]
      rintro ⟨rfl, hw, -⟩
      have := honly p w hcase
      omega
    | _ => rfl
  · left
    show (own' p).freed r n m = own p
    rw [hp, hf, Use.freed, if_pos ⟨rfl, hv, hv'⟩]
  · right
    refine ⟨hf, π, h0, trivial, ?_⟩
    show (own' p).freed r n m = .table r π
    rw [hp]
    rfl

/-- A failing allocation in `uvmalloc` goes back to the `n₀` pages of the start. -/
theorem uvmalloc_undo {n₀ : ℕ} {own₀ : ℕ → Use} (h : Memory k own L s)
    (hs : Space own L r n tramp trap) (hn : n₀ ≤ n) (hg : GrowsTo r n₀ n own₀ own)
    (honly : ∀ u v, own₀ u = .user r v → v < n₀) :
    Post (uvmdealloc k (pg r) (pg n) (pg n₀)) s (fun _ t => ∃ own' L',
      Effect k r own L s own' L' t ∧ Space own' L' r n₀ tramp trap ∧
      Grows r (fun _ => True) own₀ own' ∧ Steady r n₀ own L s L' t) E := by
  have hlt := hs.lt_trapframe h
  have hs₁ : Space own L r (pages (pg n)) tramp trap := by rwa [pages_pg]
  refine (uvmdealloc_spec h hs₁ ?_).imp ?_
  · have := trapPage_succ
    have := trampPage_succ
    unfold pg PGSIZE
    omega
  · rintro sz t ⟨hsz, L', he, hs', hst⟩
    have hle : pg n₀ ≤ pg n := by
      unfold pg
      exact Nat.mul_le_mul_right _ hn
    rw [hsz, min_eq_right hle, pages_pg] at he hs' hst
    rw [pages_pg] at he hs'
    exact ⟨_, L', he, hs', hg.freed honly, hst⟩

/-- The mapping keeps its first `n` pages and gets `[n, n')`, for the user to read, write
and execute. -/
structure Extends (r n n' : ℕ) (L L' : ℕ → List ℕ → ℕ) : Prop where
  keep : ∀ v, v < n → L' r (vkey v) = L r (vkey v)
  new : ∀ v, n ≤ v → v < n' → ∃ u, L' r (vkey v) = pte u 31

theorem Extends.refl (r n : ℕ) (L : ℕ → List ℕ → ℕ) : Extends r n n L L :=
  ⟨fun _ _ => rfl, fun _ hv hv' => absurd hv (not_le.2 hv')⟩

theorem Extends.cons {n' : ℕ} (h : Extends r (n + 1) n' L' L'')
    (hkeep : ∀ v, v < n → L' r (vkey v) = L r (vkey v)) (hnew : ∃ u, L' r (vkey n) = pte u 31) :
    Extends r n n' L L'' := by
  constructor
  · intro v hv
    rw [h.keep v (by omega), hkeep v hv]
  · intro v hv hv'
    rcases Nat.eq_or_lt_of_le hv with rfl | hlt
    · rw [h.keep n (by omega)]
      exact hnew
    · exact h.new v hlt hv'

/-- The pages `[n, n')` are new and hold zeros. -/
def Blank (r n n' : ℕ) (L : ℕ → List ℕ → ℕ) (s : State) : Prop :=
  ∀ v, n ≤ v → v < n' → ∃ u, L r (vkey v) = pte u 31 ∧ ∀ i, i < PGSIZE → (s.mem.get u).get i = 0

theorem GrowsTo.user {n' : ℕ} (h : GrowsTo r n n' own own') (hp : own p = .user r v) :
    own' p = .user r v := by
  rcases h p with hp' | ⟨hf, -⟩
  · rw [hp', hp]
  · rw [hf] at hp
    cases hp

theorem uvmallocFrom_spec {n₀ : ℕ} {own₀ : ℕ → Use}
    (honly : ∀ u v, own₀ u = .user r v → v < n₀) (m : ℕ) : ∀ {own L s n}, Memory k own L s →
    Space own L r n tramp trap → n₀ ≤ n → GrowsTo r n₀ n own₀ own →
    Post (uvmallocFrom k (pg r) (pg n₀) m (pg n)) s (fun ok t => ∃ own' L',
      Effect k r own L s own' L' t ∧
      (ok = true ∧ Space own' L' r (n + m) tramp trap ∧ GrowsTo r n₀ (n + m) own₀ own' ∧
          Extends r n (n + m) L L' ∧ Steady r n own L s L' t ∧ Blank r n (n + m) L' t ∨
        ok = false ∧ Space own' L' r n₀ tramp trap ∧ Grows r (fun _ => True) own₀ own' ∧
          Steady r n₀ own L s L' t)) E := by
  induction m with
  | zero =>
    intro own L s n h hs hn hg
    exact post_pure.2 ⟨own, L, .refl h r, .inl ⟨rfl, hs, hg, .refl r n L, .refl r n own L s,
      fun v hv hv' => absurd hv (by omega)⟩⟩
  | succ m ih =>
    intro own L s n h hs hn hg
    simp only [uvmallocFrom, memset_eq, writeBytes, post_bind, post_ite, post_pure, post_modify]
    refine (kalloc_fresh h).imp ?_
    rintro a t (⟨rfl, he⟩ | ⟨u, rfl, hu0, hfresh⟩)
    · refine ⟨fun _ => (uvmalloc_undo (he r).memory hs hn hg honly).imp ?_,
        fun hne => absurd rfl hne⟩
      rintro _ t' ⟨own', L', he', hs', hg', hst'⟩
      refine ⟨own', L', (he r).trans he', .inr ⟨trivial, hs', hg', hst'.entry, fun p v hv hp => ?_⟩⟩
      have hother : ¬ (own p).of (r + 1) := by
        rw [hp]
        exact Nat.ne_of_lt (Nat.lt_succ_self r)
      exact (hst'.mem p v hv hp).trans ((he (r + 1)).frame.mem p (by rw [hp]; simp) hother)
    · refine ⟨fun h0 => absurd h0 hu0, fun _ => ?_⟩
      have hperm : PTE_W ||| PTE_X ||| PTE_R ||| PTE_U < 1024 := by decide
      have hzero := hfresh.write (List.replicate PGSIZE 0)
      have hne : ∀ p v, own p = .user r v → p ≠ u := by
        rintro p v hp rfl
        rw [hfresh.free] at hp
        cases hp
      have hpre : ∀ p v, v < n → own p = .user r v →
          (t.setBytes (pg u) (List.replicate PGSIZE 0)).mem.get p = s.mem.get p :=
        fun p v _ hp => hzero.only p (hne p v hp)
      refine ((hzero.map h hs hperm (.inl (by decide))).also (hzero.map_mem h hs hperm)).imp ?_
      rintro ok t' ⟨⟨rfl, own', L', he, hs', hg', hu', hkeep⟩ | ⟨rfl, own₂, hm₂, hf₂, hg₂⟩,
        hmemu, hmem⟩
      · refine ⟨fun _ => ?_, fun hne => absurd rfl hne⟩
        rw [← pg_succ]
        refine (ih he.memory hs' (by omega) (hg.trans hg' hn (by omega))).imp ?_
        have hst : Steady r n own L s L' t' :=
          ⟨hkeep, fun p v hv hp => (hmem p v hv hp).trans (hpre p v hv hp)⟩
        have huser : ∀ p v, v < n → own p = .user r v → own' p = .user r v :=
          fun p v _ hp => hg'.user hp
        rintro ok t'' ⟨own'', L'', he', hend⟩
        refine ⟨own'', L'', he.trans he', ?_⟩
        rw [show n + (m + 1) = n + 1 + m by omega]
        rcases hend with ⟨hok, hs'', hg'', hext, hst', hblank⟩ | ⟨hok, hs'', hg'', hst'⟩
        · refine .inl ⟨hok, hs'', hg'', hext.cons hkeep ⟨u, hu'.entry⟩,
            hst.trans (hst'.mono (by omega)) huser, fun v hv hv' => ?_⟩
          rcases Nat.eq_or_lt_of_le hv with rfl | hlt
          · refine ⟨u, (hst'.entry n (by omega)).trans hu'.entry, fun i hi => ?_⟩
            rw [hst'.mem u n (by omega) hu'.user, hmemu]
            exact get_zeros t hi
          · exact hblank v hlt hv'
        · exact .inr ⟨hok, hs'', hg'', (hst.mono hn).trans hst' fun p v hv => huser p v (by omega)⟩
      · refine ⟨fun hf => Bool.noConfusion hf, fun _ => ?_⟩
        refine (hzero.discard hm₂ hf₂ hg₂).imp ?_
        rintro _ t₃ ⟨own₃, he₃, hg₃, honly₃⟩
        refine (uvmalloc_undo he₃.memory (hs.grows hg₃) hn
          (hg.trans hg₃.growsTo hn le_rfl) honly).imp ?_
        rintro _ t₄ ⟨own₄, L₄, he₄, hs₄, hg₄, hst₄⟩
        refine ⟨own₄, L₄, he₃.trans he₄, .inr ⟨trivial, hs₄, hg₄, hst₄.entry, fun p v hv hp => ?_⟩⟩
        have hvn : v < n := by omega
        calc t₄.mem.get p
            = t₃.mem.get p := hst₄.mem p v hv (hg₃.user_iff.2 hp)
          _ = t'.mem.get p := honly₃ p (hne p v hp)
          _ = (t.setBytes (pg u) (List.replicate PGSIZE 0)).mem.get p := hmem p v hvn hp
          _ = s.mem.get p := hpre p v hvn hp

theorem uvmalloc_spec {oldsz newsz : ℕ} (h : Memory k own L s)
    (hs : Space own L r (pages oldsz) tramp trap) :
    Post (uvmalloc k (pg r) oldsz newsz) s (fun sz t => ∃ own' L', Effect k r own L s own' L' t ∧
      (sz = max oldsz newsz ∧ Space own' L' r (pages sz) tramp trap ∧
          GrowsTo r (pages oldsz) (pages sz) own own' ∧ Extends r (pages oldsz) (pages sz) L L' ∧
          Steady r (pages oldsz) own L s L' t ∧ Blank r (pages oldsz) (pages sz) L' t ∨
        sz = 0 ∧ oldsz ≤ newsz ∧ Space own' L' r (pages oldsz) tramp trap ∧
          Grows r (fun _ => True) own own' ∧ Steady r (pages oldsz) own L s L' t)) E := by
  have hold := hs.size_le h
  simp only [uvmalloc, post_bind, post_ite, post_pure]
  refine ⟨fun hlt => ⟨own, L, .refl h r, .inl ⟨(max_eq_left hlt.le).symm, hs, .refl r _ own,
    .refl r _ L, .refl r _ own L s, fun v hv hv' => absurd hv (not_le.2 hv')⟩⟩, fun hge => ?_⟩
  rw [PGROUNDUP_eq (by unfold PHYSTOP KERNBASE PGSIZE at *; omega)]
  refine (uvmallocFrom_spec hs.only _ h hs le_rfl (.refl r _ own)).imp ?_
  have hend : pages oldsz + pages (newsz - pg (pages oldsz)) = pages newsz := by
    unfold pages pg PGSIZE
    omega
  rw [hend]
  rintro ok t ⟨own', L', he, ⟨rfl, hgrown⟩ | ⟨rfl, hsame⟩⟩
  · exact ⟨fun _ => ⟨own', L', he, .inl ⟨(max_eq_right (by omega)).symm, hgrown⟩⟩,
      fun hne => absurd rfl hne⟩
  · exact ⟨fun hf => Bool.noConfusion hf,
      fun _ => ⟨own', L', he, .inr ⟨trivial, not_lt.1 hge, hsame⟩⟩⟩

end Vm
end Xv6
