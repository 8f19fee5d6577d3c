import Xv6.User.UmallocFree

/-!
The loop of `malloc` goes once round the free list from `freep`. It takes the first block that
is large enough; when there is none, `morecore` adds a region and a second round finds it.
-/

namespace Xv6
namespace Umalloc
open Blocks CircularList

section
variable {base nunits : ℕ} {h : Heap} {F : List Span} {sbrk : Sbrk}

theorem search_skip (sbrk : Sbrk) {l r : List ℕ} {f q : ℕ}
    (hlink : Linked (fun a => (h.mem a).ptr) (f :: (l ++ q :: r)))
    (hl : ∀ a ∈ l, (h.mem a).size < nunits ∧ a ≠ h.freep) (n : ℕ) :
    ∃ prevp ∈ f :: l, (h.mem prevp).ptr = q ∧
      search sbrk nunits (l.length + n) f (h.mem f).ptr h = search sbrk nunits n prevp q h := by
  induction l generalizing f with
  | nil =>
    have hq : (h.mem f).ptr = q := (linked_cons_cons.mp hlink).1
    refine ⟨f, List.mem_cons_self, hq, ?_⟩
    rw [hq, List.length_nil, Nat.zero_add]
  | cons a l ih =>
    obtain ⟨hfa, hrest⟩ := linked_cons_cons.mp hlink
    obtain ⟨hsmall, hne⟩ := hl a List.mem_cons_self
    obtain ⟨prevp, hmem, hptr, hrun⟩ := ih hrest fun b hb => hl b (List.mem_cons_of_mem _ hb)
    refine ⟨prevp, List.mem_cons_of_mem _ hmem, hptr, ?_⟩
    rw [hfa, List.length_cons, Nat.add_right_comm, search, if_neg (by omega), if_neg hne, hrun]

theorem FreeList.nodup (hF : FreeList base h F) : (base :: F.map Span.start).Nodup :=
  List.Pairwise.imp (fun hab => ne_of_lt hab) hF.spaced.starts

theorem FreeList.round (hF : FreeList base h F) :
    ∃ l, Linked (fun a => (h.mem a).ptr) (h.freep :: (l ++ [h.freep])) ∧ h.freep ∉ l ∧
      l.length = F.length ∧ ∀ a, a ∈ l ++ [h.freep] ↔ a ∈ base :: F.map Span.start := by
  obtain ⟨xs, ys, hxy⟩ := List.append_of_mem hF.freep
  have hnodup := hF.nodup
  have hlen := congrArg List.length hxy
  have hround := hF.ring.rotate hxy
  rw [← List.append_assoc] at hround
  refine ⟨ys ++ xs, hround, ?_, ?_, ?_⟩
  · rw [hxy] at hnodup
    have := (List.nodup_middle.mp hnodup)
    rw [List.nodup_cons] at this
    simp only [List.mem_append] at this ⊢
    tauto
  · simp only [List.length_cons, List.length_append, List.length_map] at hlen ⊢
    omega
  · intro a
    rw [hxy]
    simp only [List.mem_append, List.mem_cons, List.not_mem_nil, or_false]
    tauto

theorem FreeList.prev (hF : FreeList base h F) {prevp q : ℕ} (hprev : prevp ∈ base :: F.map Span.start)
    (hq : (h.mem prevp).ptr = q) (hmem : q ∈ F.map Span.start) :
    ∃ us u c vs, ⟨base, 0⟩ :: F = us ++ u :: c :: vs ∧ u.start = prevp ∧ c.start = q := by
  obtain ⟨c, hc, rfl⟩ := List.mem_map.mp hmem
  obtain ⟨xs, vs, hF₀⟩ := List.append_of_mem hc
  obtain ⟨us, u, hu⟩ : ∃ us u, ⟨base, 0⟩ :: xs = us ++ [u] := by
    obtain hnil | ⟨us, u, h⟩ := List.eq_nil_or_concat (⟨base, 0⟩ :: xs)
    · cases hnil
    · exact ⟨us, u, by rw [h, List.concat_eq_append]⟩
  have hG : ⟨base, 0⟩ :: F = us ++ u :: c :: vs := by
    rw [hF₀, ← List.cons_append, hu, List.append_assoc]
    rfl
  refine ⟨us, u, c, vs, hG, ?_, rfl⟩
  have hunode : u.start ∈ base :: F.map Span.start := by
    have hmap := congrArg (List.map Span.start) hG
    rw [List.map_cons] at hmap
    rw [hmap]
    simp
  refine hF.ring.next_inj hF.nodup hunode hprev ?_
  rw [hq]
  exact (hF.linked hG).next_head

theorem FreeList.size_base (hF : FreeList base h F) : (h.mem base).size = 0 := by
  have := hF.sizes ⟨base, 0⟩ List.mem_cons_self
  unfold UNIT at this
  simp only at this
  omega

/-- The first block on the way round from `freep` that is large enough. -/
theorem FreeList.first_fit (hF : FreeList base h F) (hpos : 0 < nunits)
    (hfit : ∃ c ∈ F, UNIT * nunits ≤ c.len) :
    ∃ as q bs, Linked (fun a => (h.mem a).ptr) (h.freep :: (as ++ q :: bs)) ∧
      (∀ a ∈ as, (h.mem a).size < nunits ∧ a ≠ h.freep) ∧ nunits ≤ (h.mem q).size ∧
      q ∈ F.map Span.start ∧ (∀ a ∈ as, a ∈ base :: F.map Span.start) ∧ as.length ≤ F.length := by
  obtain ⟨l, hlink, hnot, hlen, hnodes⟩ := hF.round
  obtain ⟨c, hc, hcfit⟩ := hfit
  have hex : ∃ a ∈ l ++ [h.freep], nunits ≤ (h.mem a).size := by
    refine ⟨c.start, (hnodes _).mpr (List.mem_cons_of_mem _ (List.mem_map_of_mem hc)), ?_⟩
    have := hF.sizes c (List.mem_cons_of_mem _ hc)
    unfold UNIT at *
    omega
  obtain ⟨q, hq⟩ : ∃ q, (l ++ [h.freep]).find? (fun a => decide (nunits ≤ (h.mem a).size)) = some q := by
    cases hfind : (l ++ [h.freep]).find? (fun a => decide (nunits ≤ (h.mem a).size)) with
    | none =>
      obtain ⟨a, ha, hsa⟩ := hex
      exact absurd hsa (by simpa using List.find?_eq_none.mp hfind a ha)
    | some q => exact ⟨q, rfl⟩
  obtain ⟨hqfit, as, bs, hab, hsmall⟩ := List.find?_eq_some_iff_append.mp hq
  have hqfit : nunits ≤ (h.mem q).size := by simpa using hqfit
  have hqnode := (hnodes q).mp (List.mem_of_find?_eq_some hq)
  have hqF : q ∈ F.map Span.start := by
    obtain rfl | hmem := List.mem_cons.mp hqnode
    · rw [hF.size_base] at hqfit
      omega
    · exact hmem
  have hlenas : as.length ≤ F.length := by
    have := congrArg List.length hab
    simp only [List.length_append, List.length_cons, List.length_nil] at this
    omega
  rw [hab] at hlink
  refine ⟨as, q, bs, hlink, fun a ha => ⟨by simpa using hsmall a ha, ?_⟩, hqfit, hqF,
    fun a ha => (hnodes a).mp (hab ▸ List.mem_append_left _ ha), hlenas⟩
  rintro rfl
  have hpre : as <+: l := by
    have h₁ : as <+: l ++ [h.freep] := ⟨q :: bs, hab.symm⟩
    refine List.prefix_of_prefix_length_le h₁ ⟨[h.freep], rfl⟩ ?_
    omega
  exact hnot (hpre.subset ha)

/-- A block that is large enough is found. -/
theorem FreeList.search_fit (hF : FreeList base h F) (sbrk : Sbrk) (hpos : 0 < nunits)
    (hfit : ∃ c ∈ F, UNIT * nunits ≤ c.len) :
    ∃ ap h' F' l, Taken base h F nunits ap h' F' l ∧ ∀ n, F.length + 1 ≤ n →
      search sbrk nunits n h.freep (h.mem h.freep).ptr h = some (ap, h') := by
  obtain ⟨as, q, bs, hlink, has, hqfit, hqF, hnodes, hlenas⟩ := hF.first_fit hpos hfit
  have hnode : ∀ a ∈ h.freep :: as, a ∈ base :: F.map Span.start := by
    intro a ha
    obtain rfl | hmem := List.mem_cons.mp ha
    · exact hF.freep
    · exact hnodes a hmem
  obtain ⟨prevp, hprev, hptr, -⟩ := search_skip sbrk hlink has 0
  obtain ⟨us, u, d, vs, hG, hu, hd⟩ := hF.prev (hnode _ hprev) hptr hqF
  obtain ⟨F', b, htaken⟩ := hF.take hG (hd ▸ hqfit)
  refine ⟨_, _, F', b, htaken, fun n hn => ?_⟩
  obtain ⟨m, rfl⟩ : ∃ m, n = as.length + (m + 1) := ⟨n - as.length - 1, by omega⟩
  obtain ⟨prevp', hprev', hptr', hrun⟩ := search_skip sbrk hlink has (m + 1)
  obtain rfl : prevp' = prevp :=
    hF.ring.next_inj hF.nodup (hnode _ hprev') (hnode _ hprev) (hptr'.trans hptr.symm)
  rw [hrun, search, if_pos hqfit, hu, hd]

theorem FreeList.nodes_small (hF : FreeList base h F) (hpos : 0 < nunits)
    (hno : ∀ c ∈ F, c.len < UNIT * nunits) {a : ℕ} (ha : a ∈ base :: F.map Span.start) :
    (h.mem a).size < nunits := by
  obtain rfl | hmem := List.mem_cons.mp ha
  · rw [hF.size_base]
    exact hpos
  · obtain ⟨c, hc, rfl⟩ := List.mem_map.mp hmem
    have h₁ := hno c hc
    have h₂ := hF.sizes c (List.mem_cons_of_mem _ hc)
    unfold UNIT at *
    omega

/-- No block is large enough: the loop comes back to `freep`. -/
theorem FreeList.search_full (hF : FreeList base h F) (sbrk : Sbrk) (hpos : 0 < nunits)
    (hno : ∀ c ∈ F, c.len < UNIT * nunits) (n : ℕ) :
    search sbrk nunits (F.length + (n + 1)) h.freep (h.mem h.freep).ptr h =
      (morecore sbrk n nunits h).bind fun r =>
        if r.1 = 0 then some (0, r.2) else search sbrk nunits n r.1 (r.2.mem r.1).ptr r.2 := by
  obtain ⟨l, hlink, hnot, hlen, hnodes⟩ := hF.round
  have hsmall : ∀ a ∈ l ++ [h.freep], (h.mem a).size < nunits := fun a ha =>
    hF.nodes_small hpos hno ((hnodes a).mp ha)
  have hl : ∀ a ∈ l, (h.mem a).size < nunits ∧ a ≠ h.freep := fun a ha =>
    ⟨hsmall a (List.mem_append_left _ ha), fun heq => hnot (heq ▸ ha)⟩
  obtain ⟨prevp, -, -, hrun⟩ := search_skip sbrk hlink hl (n + 1)
  have hfreep := hsmall h.freep (by simp)
  rw [← hlen, hrun, search, if_neg (by omega), if_pos rfl]
  rfl

structure Grown (base : ℕ) (h : Heap) (F : List Span) (rs : List Span) (h₁ : Heap)
    (F₁ : List Span) : Prop where
  free : FreeList base h₁ F₁
  regions : h₁.regions = rs ++ h.regions
  cover : cover F₁ = cover rs ∪ cover F
  total : total F₁ = total rs + total F
  fresh : ∀ r ∈ rs, base + UNIT ≤ r.start ∧ r.stop < 2 ^ 64 ∧ ∀ q ∈ h.regions, q.stop ≤ r.start
  room : Blocks.total h₁.regions < UNIT * 2 ^ 32
  frame : ∀ a, a ∉ base :: F.map Span.start → a ∉ rs.map Span.start → h₁.mem a = h.mem a

theorem Grown.refl (hF : FreeList base h F) (hroom : Blocks.total h.regions < UNIT * 2 ^ 32) :
    Grown base h F [] h F := by
  constructor
  case free => exact hF
  case regions => rfl
  case cover => simp
  case total => simp
  case fresh => exact fun r hr => nomatch hr
  case room => exact hroom
  case frame => exact fun a _ _ => rfl

/-- `sbrk` never gives out so much that a size overflows. -/
def Roomy (sbrk : Sbrk) : Prop :=
  ∀ rs k a, sbrk rs k = some a → total rs + k.toNat < UNIT * 2 ^ 32

/-- A region above all others is freed as one block. -/
theorem FreeList.addRegion (hF : FreeList base h F) (hcov : cover F ⊆ cover h.regions)
    (htot : total F ≤ total h.regions) {a nu : ℕ} (hnu : 0 < nu) (habase : base + UNIT ≤ a)
    (habove : ∀ q ∈ h.regions, q.stop ≤ a) (hastop : a + UNIT * nu < 2 ^ 64)
    (hroom : total h.regions + UNIT * nu < UNIT * 2 ^ 32) :
    ∃ h₁ F₁, Grown base h F [⟨a, UNIT * nu⟩] h₁ F₁ ∧ (∃ c ∈ F₁, UNIT * nu ≤ c.len) ∧
      ∀ n, F.length + 1 ≤ n → Umalloc.free n (a + UNIT)
        (({ h with regions := ⟨a, UNIT * nu⟩ :: h.regions } : Heap).set a ⟨(h.mem a).ptr, nu⟩) =
          some h₁ := by
  obtain ⟨r, hr⟩ : ∃ r : Span, r = ⟨a, UNIT * nu⟩ := ⟨_, rfl⟩
  have hrstart : r.start = a := by rw [hr]
  have hrlen : r.len = UNIT * nu := by rw [hr]
  rw [← hr]
  obtain ⟨h₂, hh₂⟩ : ∃ h₂ : Heap, h₂ =
      ({ h with regions := r :: h.regions } : Heap).set a ⟨(h.mem a).ptr, nu⟩ := ⟨_, rfl⟩
  rw [← hh₂]
  have hdisj : Disjoint r.bytes (Blocks.cover F) := by
    rw [Set.disjoint_left]
    intro x hx hxF
    obtain ⟨q, hq, hxq⟩ := hcov hxF
    have h₁ := habove q hq
    have h₂ := (Set.mem_Ico.mp hx).1
    have h₃ := (Set.mem_Ico.mp hxq).2
    omega
  have hrpos : 0 < r.len := by
    unfold UNIT at hrlen
    omega
  have hbase : base < r.start := by
    unfold UNIT at habase
    omega
  have hanode : a ∉ base :: F.map Span.start := by
    intro hmem
    obtain heq | hmem := List.mem_cons.mp hmem
    · omega
    · obtain ⟨c, hc, hca⟩ := List.mem_map.mp hmem
      refine Set.disjoint_left.mp hdisj (start_mem_bytes hrpos) ?_
      rw [hrstart, ← hca]
      exact bytes_subset_cover hc (start_mem_bytes (hF.pos c hc))
  have hF₂ : FreeList base h₂ F := by
    refine hF.congr (by rw [hh₂]; rfl) fun x hx => ?_
    rw [hh₂]
    exact set_mem_ne _ (fun heq => hanode (heq ▸ hx))
  have hrsize : r.len = UNIT * (h₂.mem r.start).size := by
    rw [hrlen, hrstart, hh₂, set_mem_self]
  have hrstop : r.stop < 2 ^ 64 := by
    unfold Span.stop
    rw [hrstart, hrlen]
    exact hastop
  obtain ⟨h₁, F₁, hfree, hF₁, hcover, htotal, hlarge, hregions, hframe⟩ :=
    hF₂.free hrsize hrpos hbase hdisj hrstop (by omega)
  have hregions' : h₁.regions = r :: h.regions := by
    rw [hregions, hh₂]
    rfl
  refine ⟨h₁, F₁, ⟨hF₁, hregions', ?_, ?_, ?_, ?_, ?_⟩, hrlen ▸ hlarge, hrstart ▸ hfree⟩
  · rw [hcover]
    simp
  · rw [htotal]
    simp
  · intro q hq
    obtain rfl := List.mem_singleton.mp hq
    exact ⟨hrstart ▸ habase, hrstop, hrstart ▸ habove⟩
  · rw [hregions', total_cons, hrlen, Nat.add_comm]
    exact hroom
  · intro x hx hxr
    have hxa : x ≠ r.start := by simpa using hxr
    rw [hframe x hxa hx, hh₂]
    exact set_mem_ne _ (hrstart ▸ hxa)

/-- `morecore` fails, or adds a block that is large enough. -/
theorem FreeList.morecore (hF : FreeList base h F) (hbase : 0 < base) (hok : SbrkOk base sbrk)
    (hroomy : Roomy sbrk) (hnu : nunits < 2 ^ 28) (hcov : cover F ⊆ cover h.regions)
    (htot : total F ≤ total h.regions) :
    (∀ n, morecore sbrk n nunits h = some (0, h)) ∨
      ∃ r h₁ F₁, Grown base h F [r] h₁ F₁ ∧ (∃ c ∈ F₁, UNIT * nunits ≤ c.len) ∧ h₁.freep ≠ 0 ∧
        ∀ n, F.length + 1 ≤ n → Umalloc.morecore sbrk n nunits h = some (h₁.freep, h₁) := by
  obtain ⟨nu, hnudef⟩ : ∃ nu, nu = if nunits < 4096 then 4096 else nunits := ⟨_, rfl⟩
  have hnu' : nunits ≤ nu ∧ 0 < nu ∧ nu < 2 ^ 28 := by
    rw [hnudef]
    split_ifs <;> omega
  unfold Umalloc.morecore
  rw [← hnudef]
  dsimp only
  cases ha : sbrk h.regions (Int.bmod (nu * UNIT) (2 ^ 32)) with
  | none => exact .inl fun n => rfl
  | some a =>
    right
    obtain ⟨hk, habase, habove, hastop⟩ := hok _ _ _ ha
    have hroom := hroomy _ _ _ ha
    -- the argument is not negative, so it is the size asked for
    have hkval : (Int.bmod (nu * UNIT) (2 ^ 32)).toNat = UNIT * nu := by
      unfold UNIT at *
      rw [Int.bmod_def] at hk ⊢
      split_ifs at hk ⊢ <;> omega
    rw [hkval] at hastop hroom ⊢
    obtain ⟨h₁, F₁, hgrown, ⟨c, hc, hle⟩, hfree⟩ :=
      hF.addRegion hcov htot hnu'.2.1 habase habove hastop hroom
    refine ⟨_, h₁, F₁, hgrown, ⟨c, hc, ?_⟩, ?_, fun n hn => ?_⟩
    · unfold UNIT at *
      omega
    · obtain heq | hmem := List.mem_cons.mp hgrown.free.freep
      · omega
      · obtain ⟨c, hc, hca⟩ := List.mem_map.mp hmem
        have : base < c.start := hgrown.free.spaced.lt hc
        omega
    · show (Umalloc.free n (a + UNIT) _ >>= fun h₃ => pure (h₃.freep, h₃)) = _
      rw [hfree n hn]
      rfl

theorem units_pos (nbytes : ℕ) : 0 < units nbytes := Nat.succ_pos _

/-- The loop of `malloc` fails without a change, or takes a block. -/
theorem FreeList.search (hF : FreeList base h F) (hbase : 0 < base) (hok : SbrkOk base sbrk)
    (hroomy : Roomy sbrk) (hpos : 0 < nunits) (hnu : nunits < 2 ^ 28)
    (hcov : cover F ⊆ cover h.regions) (htot : total F ≤ total h.regions)
    (hroom : total h.regions < UNIT * 2 ^ 32) :
    (∃ n, search sbrk nunits n h.freep (h.mem h.freep).ptr h = some (0, h)) ∨
      ∃ rs h₁ F₁ ap h' F' l, Grown base h F rs h₁ F₁ ∧ Taken base h₁ F₁ nunits ap h' F' l ∧
        ∃ n, Umalloc.search sbrk nunits n h.freep (h.mem h.freep).ptr h = some (ap, h') := by
  by_cases hfit : ∃ c ∈ F, UNIT * nunits ≤ c.len
  · obtain ⟨ap, h', F', l, htaken, hrun⟩ := hF.search_fit sbrk hpos hfit
    exact .inr ⟨[], h, F, ap, h', F', l, .refl hF hroom, htaken, _, hrun _ le_rfl⟩
  · have hno : ∀ c ∈ F, c.len < UNIT * nunits := by
      intro c hc
      by_contra hge
      exact hfit ⟨c, hc, not_lt.mp hge⟩
    have hfull := hF.search_full sbrk hpos hno
    obtain hfail | ⟨r, h₁, F₁, hgrown, hlarge, hne, hmore⟩ :=
      hF.morecore hbase hok hroomy hnu hcov htot
    · refine .inl ⟨_, (hfull 0).trans ?_⟩
      rw [hfail]
      rfl
    · obtain ⟨ap, h', F', l, htaken, hrun⟩ := hgrown.free.search_fit sbrk hpos hlarge
      refine .inr ⟨[r], h₁, F₁, ap, h', F', l, hgrown, htaken, _,
        (hfull (F.length + 1 + (F₁.length + 1))).trans ?_⟩
      rw [hmore _ (by omega)]
      show (if h₁.freep = 0 then some (0, h₁) else _) = _
      rw [if_neg hne]
      exact hrun _ (by omega)

end

/-! ### More rounds than needed -/

section
variable {mem : ℕ → Header} {bp p q m n : ℕ} {h h' : Heap} {sbrk : Sbrk} {r : ℕ × Heap}

theorem place_mono (hp : place mem bp n p = some q) (hnm : n ≤ m) :
    place mem bp m p = some q := by
  induction n generalizing m p with
  | zero => cases hp
  | succ n ih =>
    obtain ⟨m, rfl⟩ : ∃ k, m = k + 1 := ⟨m - 1, by omega⟩
    rw [place] at hp ⊢
    split_ifs at hp ⊢
    · exact hp
    · exact hp
    · exact ih hp (by omega)

theorem free_mono {ap : ℕ} (hf : free n ap h = some h') (hnm : n ≤ m) : free m ap h = some h' := by
  unfold free at hf ⊢
  obtain ⟨p, hp, hlink⟩ := Option.bind_eq_some_iff.mp hf
  exact Option.bind_eq_some_iff.mpr ⟨p, place_mono hp hnm, hlink⟩

theorem morecore_mono {nu : ℕ} (hr : morecore sbrk n nu h = some r) (hnm : n ≤ m) :
    morecore sbrk m nu h = some r := by
  unfold morecore at hr ⊢
  dsimp only at hr ⊢
  split at hr
  · exact hr
  · obtain ⟨h₃, hfree, hret⟩ := Option.bind_eq_some_iff.mp hr
    exact Option.bind_eq_some_iff.mpr ⟨h₃, free_mono hfree hnm, hret⟩

theorem search_mono {nunits prevp : ℕ} (hr : search sbrk nunits n prevp p h = some r)
    (hnm : n ≤ m) : search sbrk nunits m prevp p h = some r := by
  induction n generalizing m prevp p h with
  | zero => cases hr
  | succ n ih =>
    obtain ⟨m, rfl⟩ : ∃ k, m = k + 1 := ⟨m - 1, by omega⟩
    rw [search] at hr ⊢
    split_ifs at hr ⊢
    · exact hr
    · obtain ⟨⟨p', h'⟩, hmore, hrest⟩ := Option.bind_eq_some_iff.mp hr
      refine Option.bind_eq_some_iff.mpr ⟨⟨p', h'⟩, morecore_mono hmore (by omega), ?_⟩
      dsimp only at hrest ⊢
      split_ifs at hrest ⊢
      · exact hrest
      · exact ih hrest (by omega)
    · exact ih hr (by omega)

theorem call_mono {base : ℕ} {s t : Prog} {op : Op} (hc : call base n s op = some t)
    (hnm : n ≤ m) : call base m s op = some t := by
  cases op with
  | malloc nbytes sbrk =>
    obtain ⟨r, hr, hret⟩ := Option.bind_eq_some_iff.mp hc
    exact Option.bind_eq_some_iff.mpr ⟨r, search_mono hr hnm, hret⟩
  | free ap =>
    obtain ⟨h', hf, hret⟩ := Option.bind_eq_some_iff.mp hc
    exact Option.bind_eq_some_iff.mpr ⟨h', free_mono hf hnm, hret⟩
  | write mem => exact hc

end

end Umalloc
end Xv6
