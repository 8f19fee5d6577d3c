import Xv6.Lib.CircularList
import Xv6.User.Umalloc

/-!
The free list of the allocator: a ring from the static header through the free blocks in
address order. `free` puts a block in its place and joins it with its neighbours; `take`
removes a block or the end of one.
-/

namespace Xv6
namespace Umalloc
open Blocks CircularList

/-- `F` is the free list. The static header counts as an empty block in front. -/
structure FreeList (base : ℕ) (h : Heap) (F : List Span) : Prop where
  ring : Circular (fun a => (h.mem a).ptr) base (F.map Span.start)
  freep : h.freep ∈ base :: F.map Span.start
  sizes : ∀ b ∈ ⟨base, 0⟩ :: F, b.len = UNIT * (h.mem b.start).size
  pos : ∀ b ∈ F, 0 < b.len
  below : ∀ b ∈ ⟨base, 0⟩ :: F, b.stop < 2 ^ 64
  spaced : Spaced (⟨base, 0⟩ :: F)

section
variable {base : ℕ} {h : Heap} {F us vs : List Span} {b u : Span}

theorem stop_eq (hb : b.len = UNIT * (h.mem b.start).size) (hlt : b.stop < 2 ^ 64) :
    h.stop b.start = b.stop := by
  unfold Heap.stop after
  rw [← hb]
  exact Nat.mod_eq_of_lt hlt

theorem set_mem_self (a : ℕ) (hd : Header) : (h.set a hd).mem a = hd := by
  simp [Heap.set]

theorem set_mem_ne {a a' : ℕ} (hd : Header) (hne : a' ≠ a) : (h.set a hd).mem a' = h.mem a' := by
  simp [Heap.set, hne]

theorem FreeList.linked (hF : FreeList base h F) (hG : ⟨base, 0⟩ :: F = us ++ u :: vs) :
    Linked (fun a => (h.mem a).ptr)
      (us.map Span.start ++ u.start :: (vs.map Span.start ++ [base])) := by
  have hmap := congrArg (List.map Span.start) hG
  simp only [List.map_cons, List.map_append] at hmap
  have := hF.ring
  unfold Circular at this
  rw [← List.cons_append, hmap, List.append_assoc, List.cons_append] at this
  exact this

theorem FreeList.starts_lt (hF : FreeList base h F) (hG : ⟨base, 0⟩ :: F = us ++ u :: vs) :
    (us.map Span.start ++ u.start :: vs.map Span.start).Pairwise (· < ·) := by
  have := hF.spaced.starts
  rw [hG, List.map_append, List.map_cons] at this
  exact this

/-- When the loop of `free` stops. -/
def Stops (mem : ℕ → Header) (bp p : ℕ) : Prop :=
  (p < bp ∧ bp < (mem p).ptr) ∨ ((mem p).ptr ≤ p ∧ (p < bp ∨ bp < (mem p).ptr))

instance (mem : ℕ → Header) (bp : ℕ) : DecidablePred (Stops mem bp) := fun _ =>
  inferInstanceAs (Decidable (_ ∨ _))

theorem place_eq_walk (mem : ℕ → Header) (bp n p : ℕ) :
    place mem bp n p = walk (fun a => (mem a).ptr) (Stops mem bp) n p := by
  induction n generalizing p with
  | zero => rfl
  | succ n ih =>
    rw [place, walk, ih]
    by_cases h₁ : p < bp ∧ bp < (mem p).ptr
    · rw [if_pos h₁, if_pos (show Stops mem bp p from .inl h₁)]
    · rw [if_neg h₁]
      by_cases h₂ : (mem p).ptr ≤ p ∧ (p < bp ∨ bp < (mem p).ptr)
      · rw [if_pos h₂, if_pos (show Stops mem bp p from .inr h₂)]
      · rw [if_neg h₂, if_neg (show ¬Stops mem bp p from not_or.mpr ⟨h₁, h₂⟩)]

/-- The loop of `free` finds the last node below the block. -/
theorem FreeList.place (hF : FreeList base h F) (hG : ⟨base, 0⟩ :: F = us ++ u :: vs) {bp n : ℕ}
    (hu : u.start < bp) (hv : ∀ v ∈ vs, bp < v.start) (hn : F.length + 1 ≤ n) :
    place h.mem bp n h.freep = some u.start := by
  have hnodes : base :: F.map Span.start = us.map Span.start ++ u.start :: vs.map Span.start := by
    have hmap := congrArg (List.map Span.start) hG
    simpa only [List.map_cons, List.map_append] using hmap
  have hlink := hF.linked hG
  have hlt := hF.starts_lt hG
  obtain ⟨hus, huvs, hcross⟩ := List.pairwise_append.mp hlt
  have hbase : base ≤ u.start := by
    rw [← hnodes, List.pairwise_cons] at hlt
    have hmem : u.start ∈ base :: F.map Span.start := by rw [hnodes]; simp
    obtain heq | hmem := List.mem_cons.mp hmem
    · exact heq.ge
    · exact (hlt.1 _ hmem).le
  rw [place_eq_walk]
  refine hF.ring.walk hF.freep (by rw [hnodes]; simp) ?_ (by rw [List.length_map]; exact hn)
  intro a ha
  rw [hnodes, List.mem_append, List.mem_cons] at ha
  obtain ha | rfl | ha := ha
  · have hau : a < u.start := hcross a ha _ List.mem_cons_self
    have hnext : a < (h.mem a).ptr ∧ (h.mem a).ptr ≤ u.start := by
      obtain heq | ⟨hmem, hr⟩ := (linked_append_cons.mp hlink).1.next_mem hus ha
      · rw [heq]
        exact ⟨hau, le_rfl⟩
      · exact ⟨hr, (hcross _ hmem _ List.mem_cons_self).le⟩
    unfold Stops
    constructor
    · omega
    · omega
  · refine ⟨fun _ => rfl, fun _ => ?_⟩
    have hnext := hlink.next_head
    unfold Stops
    cases vs with
    | nil =>
      rw [List.map_nil, List.headD_nil] at hnext
      right
      omega
    | cons v vs =>
      rw [List.map_cons, List.headD_cons] at hnext
      have := hv v List.mem_cons_self
      left
      omega
  · have hab : bp < a := by
      obtain ⟨v, hvm, rfl⟩ := List.mem_map.mp ha
      exact hv v hvm
    have hnext : (h.mem a).ptr = base ∨ a < (h.mem a).ptr := by
      have htail := (linked_append_cons.mp hlink).2.tail
      obtain heq | ⟨-, hr⟩ := Linked.next_mem htail (List.pairwise_cons.mp huvs).2 ha
      · exact .inl heq
      · exact .inr hr
    unfold Stops
    constructor
    · omega
    · omega

/-- The header that `free` gives the block at `bp`. -/
def joinNext (h : Heap) (q bp : ℕ) : Header :=
  if h.stop bp = q then ⟨(h.mem q).ptr, ((h.mem bp).size + (h.mem q).size) % 2 ^ 32⟩
  else ⟨q, (h.mem bp).size⟩

theorem link_eq (h : Heap) (p bp : ℕ) :
    link h p bp =
      let h₁ := h.set bp (joinNext h (h.mem p).ptr bp)
      let h₂ := h₁.set p (if h₁.stop p = bp then
          ⟨(h₁.mem bp).ptr, ((h₁.mem p).size + (h₁.mem bp).size) % 2 ^ 32⟩
        else ⟨bp, (h₁.mem p).size⟩)
      { h₂ with freep := p } := by
  unfold link joinNext
  dsimp only
  split_ifs <;> rfl

theorem link_mem {p bp a : ℕ} (hb : a ≠ bp) (hp : a ≠ p) : (link h p bp).mem a = h.mem a := by
  rw [link_eq]
  exact (set_mem_ne _ hp).trans (set_mem_ne _ hb)

theorem link_regions (h : Heap) (p bp : ℕ) : (link h p bp).regions = h.regions := by
  rw [link_eq]
  rfl

theorem add_sizes {c : Span} {m n : ℕ} (hb : b.len = UNIT * m) (hc : c.len = UNIT * n)
    (hlt : b.len + c.len < UNIT * 2 ^ 32) : b.len + c.len = UNIT * ((m + n) % 2 ^ 32) := by
  unfold UNIT at *
  rw [Nat.mod_eq_of_lt (by omega)]
  omega

/-- A list of nodes with the static header in front makes a free list. -/
theorem FreeList.of_nodes {G : List Span} (hG : ⟨base, 0⟩ :: F = G)
    (hlink : Linked (fun a => (h.mem a).ptr) (G.map Span.start ++ [base]))
    (hfreep : h.freep ∈ G.map Span.start) (hsizes : ∀ b ∈ G, b.len = UNIT * (h.mem b.start).size)
    (hpos : ∀ b ∈ G, b.start ≠ base → 0 < b.len) (hbelow : ∀ b ∈ G, b.stop < 2 ^ 64)
    (hspaced : Spaced G) : FreeList base h F := by
  subst hG
  constructor
  case ring => exact hlink
  case freep => exact hfreep
  case sizes => exact hsizes
  case pos =>
    intro b hb
    have hlt : base < b.start := hspaced.lt hb
    exact hpos b (List.mem_cons_of_mem _ hb) (by omega)
  case below => exact hbelow
  case spaced => exact hspaced

theorem FreeList.node_pos (hF : FreeList base h F) (hb : b ∈ ⟨base, 0⟩ :: F)
    (hne : b.start ≠ base) : 0 < b.len := by
  obtain rfl | hb := List.mem_cons.mp hb
  · exact absurd rfl hne
  · exact hF.pos b hb

theorem FreeList.len_le (hb : b ∈ ⟨base, 0⟩ :: F) : b.len ≤ total F := by
  obtain rfl | hb := List.mem_cons.mp hb
  · exact Nat.zero_le _
  · exact le_total hb

theorem FreeList.congr (hF : FreeList base h F) {h' : Heap} (hfreep : h'.freep = h.freep)
    (hmem : ∀ a ∈ base :: F.map Span.start, h'.mem a = h.mem a) : FreeList base h' F := by
  constructor
  case ring =>
    exact hF.ring.congr (l := base :: F.map Span.start) fun a ha =>
      congrArg Header.ptr (hmem a ha)
  case freep => exact hfreep ▸ hF.freep
  case sizes =>
    intro b hb
    have hnode : b.start ∈ base :: F.map Span.start := by
      have := List.mem_map_of_mem (f := Span.start) hb
      exact this
    rw [hmem _ hnode]
    exact hF.sizes b hb
  case pos => exact hF.pos
  case below => exact hF.below
  case spaced => exact hF.spaced

/-- The node `u` is changed and the nodes `ds` after it are replaced by `ws`. -/
theorem FreeList.relink (hF : FreeList base h F) (ws : List Span) {ds : List Span}
    (hG : ⟨base, 0⟩ :: F = us ++ u :: (ds ++ vs)) {h' : Heap} {u' : Span}
    (hu' : u'.start = u.start) (hhead : us = [] → u' = u)
    (hframe : ∀ a ∈ us.map Span.start ++ vs.map Span.start, h'.mem a = h.mem a)
    (hnext : Linked (fun a => (h'.mem a).ptr)
      (u.start :: (ws.map Span.start ++ [(vs.map Span.start).headD base])))
    (hsizes : ∀ d ∈ u' :: ws, d.len = UNIT * (h'.mem d.start).size)
    (hfreep : h'.freep = u.start) (hspaced : Spaced (us ++ u' :: (ws ++ vs)))
    (hmem : ∀ d ∈ us ++ u' :: (ws ++ vs), d.stop < 2 ^ 64 ∧ (d.start ≠ base → 0 < d.len)) :
    ∃ F', ⟨base, 0⟩ :: F' = us ++ u' :: (ws ++ vs) ∧ FreeList base h' F' := by
  obtain ⟨F', hF'⟩ : ∃ F', ⟨base, 0⟩ :: F' = us ++ u' :: (ws ++ vs) := by
    cases us with
    | nil =>
      obtain ⟨rfl, -⟩ := List.cons.inj hG
      rw [hhead rfl]
      exact ⟨_, rfl⟩
    | cons w us =>
      obtain ⟨rfl, -⟩ := List.cons.inj hG
      exact ⟨_, rfl⟩
  have hold := hF.linked hG
  rw [List.map_append, List.append_assoc] at hold
  refine ⟨F', hF', .of_nodes hF' ?_ ?_ ?_ (fun d hd => (hmem d hd).2) (fun d hd => (hmem d hd).1)
    hspaced⟩
  · have hnew := hold.replace (ws.map Span.start)
      (fun a ha => congrArg Header.ptr (hframe a (List.mem_append_left _ ha)))
      (fun a ha => congrArg Header.ptr (hframe a (List.mem_append_right _ ha))) hnext
    simpa [hu'] using hnew
  · rw [hfreep, ← hu']
    simp
  · intro d hd
    have hsame : d ∈ us ++ vs → d.len = UNIT * (h'.mem d.start).size := by
      intro hd
      have hdG : d ∈ ⟨base, 0⟩ :: F := by
        rw [hG]
        simp only [List.mem_append, List.mem_cons] at hd ⊢
        tauto
      rw [hframe d.start (by rw [← List.map_append]; exact List.mem_map_of_mem hd)]
      exact hF.sizes d hdG
    simp only [List.mem_append, List.mem_cons] at hd hsame hsizes
    obtain hd | hd | hd | hd := hd
    · exact hsame (.inl hd)
    · exact hsizes d (.inl hd)
    · exact hsizes d (.inr hd)
    · exact hsame (.inr hd)

/-- The block at `bp` after `free` looked at the one after it. -/
theorem FreeList.joinNext (hF : FreeList base h F) (hG : ⟨base, 0⟩ :: F = us ++ u :: vs)
    (hb : b.len = UNIT * (h.mem b.start).size) (hbase : base < b.start) (hstop : b.stop < 2 ^ 64)
    (htot : b.len + total F < UNIT * 2 ^ 32) :
    ∃ c ds vs', absorb b vs = c :: vs' ∧ vs = ds ++ vs' ∧ c.start = b.start ∧
      c.len = UNIT * (joinNext h (h.mem u.start).ptr b.start).size ∧
      (Umalloc.joinNext h (h.mem u.start).ptr b.start).ptr = (vs'.map Span.start).headD base := by
  have hq : (h.mem u.start).ptr = (vs.map Span.start).headD base := (hF.linked hG).next_head
  rw [hq]
  unfold Umalloc.joinNext
  rw [stop_eq hb hstop]
  obtain ⟨v, vs', rfl, hbv, habs⟩ | ⟨hne, habs⟩ := absorb_cases b vs
  · have hv : v ∈ ⟨base, 0⟩ :: F := by rw [hG]; simp
    have hlen := FreeList.len_le hv
    simp only [List.map_cons, List.headD_cons, if_pos hbv]
    refine ⟨_, [v], vs', habs, rfl, rfl, add_sizes hb (hF.sizes v hv) (by omega), ?_⟩
    have hG' : ⟨base, 0⟩ :: F = (us ++ [u]) ++ v :: vs' := by rw [hG]; simp
    exact (hF.linked hG').next_head
  · have hnot : b.stop ≠ (vs.map Span.start).headD base := by
      cases vs with
      | nil =>
        rw [List.map_nil, List.headD_nil]
        unfold Span.stop
        omega
      | cons v vs => exact hne v rfl
    rw [if_neg hnot]
    exact ⟨b, [], vs, habs, rfl, rfl, hb, rfl⟩

theorem FreeList.later_pos (hF : FreeList base h F) (hG : ⟨base, 0⟩ :: F = us ++ u :: vs)
    (hbase : base < b.start) (hv : ∀ v ∈ vs, b.stop ≤ v.start) : ∀ v ∈ vs, 0 < v.len := by
  intro v hvm
  have := hv v hvm
  unfold Span.stop at this
  refine hF.node_pos ?_ (by omega)
  rw [hG]
  exact List.mem_append_right _ (List.mem_cons_of_mem _ hvm)

theorem FreeList.mem_insert (hF : FreeList base h F) (hG : ⟨base, 0⟩ :: F = us ++ u :: vs)
    (hpos : 0 < b.len) (hvs : ∀ v ∈ vs, 0 < v.len) (hstop : b.stop < 2 ^ 64) :
    ∀ d ∈ us ++ absorb u (absorb b vs), d.stop < 2 ^ 64 ∧ (d.start ≠ base → 0 < d.len) := by
  intro d hd
  have huG : u ∈ ⟨base, 0⟩ :: F := by rw [hG]; simp
  have hinner : ∀ e ∈ absorb b vs, e.stop < 2 ^ 64 ∧ 0 < e.len := by
    intro e he
    refine ⟨?_, absorb_pos hpos hvs he⟩
    obtain heq | ⟨v, hvm, heq⟩ := stop_of_mem_absorb he
    · rw [heq]
      exact hstop
    · rw [heq]
      refine hF.below v ?_
      rw [hG]
      exact List.mem_append_right _ (List.mem_cons_of_mem _ hvm)
  obtain hd | hd := List.mem_append.mp hd
  · have hdG : d ∈ ⟨base, 0⟩ :: F := by
      rw [hG]
      exact List.mem_append_left _ hd
    exact ⟨hF.below d hdG, hF.node_pos hdG⟩
  · constructor
    · obtain heq | ⟨e, he, heq⟩ := stop_of_mem_absorb hd
      · rw [heq]
        exact hF.below u huG
      · rw [heq]
        exact (hinner e he).1
    · intro hne
      obtain rfl | ⟨e, he, hle⟩ := eq_or_le_of_mem_absorb hd
      · exact hF.node_pos huG hne
      · exact (hinner e he).2.trans_le hle

theorem FreeList.link_frame (hF : FreeList base h F) (hG : ⟨base, 0⟩ :: F = us ++ u :: vs)
    (hub : u.start < b.start) {ws : List Span} (hws : ∀ v ∈ ws, b.stop ≤ v.start)
    (hpos : 0 < b.len) (H₁ H₂ : Header) :
    ∀ a ∈ us.map Span.start ++ ws.map Span.start,
      ((h.set b.start H₁).set u.start H₂).mem a = h.mem a := by
  intro a ha
  have hab : a ≠ b.start ∧ a ≠ u.start := by
    obtain ha | ha := List.mem_append.mp ha
    · have := (List.pairwise_append.mp (hF.starts_lt hG)).2.2 a ha _ List.mem_cons_self
      omega
    · obtain ⟨v, hv, rfl⟩ := List.mem_map.mp ha
      have := hws v hv
      unfold Span.stop at this
      omega
  rw [set_mem_ne _ hab.2, set_mem_ne _ hab.1]

/-- `free` after its loop. -/
theorem FreeList.link (hF : FreeList base h F) (hG : ⟨base, 0⟩ :: F = us ++ u :: vs)
    (hb : b.len = UNIT * (h.mem b.start).size) (hpos : 0 < b.len) (hbase : base < b.start)
    (hu : u.stop ≤ b.start) (hub : u.start < b.start) (hv : ∀ v ∈ vs, b.stop ≤ v.start)
    (hstop : b.stop < 2 ^ 64) (htot : b.len + total F < UNIT * 2 ^ 32) :
    ∃ F', ⟨base, 0⟩ :: F' = us ++ absorb u (absorb b vs) ∧
      FreeList base (link h u.start b.start) F' := by
  have huG : u ∈ ⟨base, 0⟩ :: F := by rw [hG]; simp
  have hvs := hF.later_pos hG hbase hv
  have hmem := hF.mem_insert hG hpos hvs hstop
  have hspaced : Spaced (us ++ absorb u (absorb b vs)) :=
    Spaced.insert (hG ▸ hF.spaced) hvs hpos hu hv
  obtain ⟨c, ds, vs', habs, rfl, hc, hclen, hcptr⟩ := hF.joinNext hG hb hbase hstop htot
  have htotal : u.len + c.len ≤ b.len + total F := by
    have h₁ := congrArg total hG
    have h₂ := total_absorb (b := b) (l := ds ++ vs')
    rw [habs] at h₂
    simp only [total_cons, total_append] at h₁ h₂
    omega
  rw [habs] at hspaced hmem ⊢
  rw [link_eq]
  dsimp only
  have hne : u.start ≠ b.start := by omega
  have hH₁ : (h.set b.start (Umalloc.joinNext h (h.mem u.start).ptr b.start)).stop u.start
      = u.stop := by
    unfold Heap.stop
    rw [set_mem_ne _ hne]
    exact stop_eq (hF.sizes u huG) (hF.below u huG)
  rw [hH₁, set_mem_self, set_mem_ne _ hne]
  set H₁ := Umalloc.joinNext h (h.mem u.start).ptr b.start with hH₁def
  have hframe := fun H₂ => hF.link_frame hG hub (fun v hm => hv v (List.mem_append_right ds hm))
    hpos H₁ H₂
  obtain ⟨v, vs'', heq, huc, habs'⟩ | ⟨hnot, habs'⟩ := absorb_cases u (c :: vs')
  · obtain ⟨rfl, rfl⟩ := List.cons.inj heq
    rw [habs'] at hspaced hmem ⊢
    rw [if_pos (huc.trans hc)]
    refine hF.relink [] hG rfl ?_ (hframe _) ?_ ?_ rfl hspaced hmem
    · rintro rfl
      obtain ⟨rfl, -⟩ := List.cons.inj hG
      simp only [Span.stop] at huc
      omega
    · refine linked_pair.mpr ?_
      show (((h.set b.start H₁).set u.start _).mem u.start).ptr = _
      rw [set_mem_self]
      exact hcptr
    · intro d hd
      obtain rfl := List.mem_singleton.mp hd
      show u.len + c.len = UNIT * (((h.set b.start H₁).set u.start _).mem u.start).size
      rw [set_mem_self]
      exact add_sizes (hF.sizes u huG) hclen (by omega)
  · rw [habs'] at hspaced hmem ⊢
    have hub' : u.stop ≠ b.start := fun heq => hnot c rfl (heq.trans hc.symm)
    rw [if_neg hub']
    refine hF.relink [c] hG rfl (fun _ => rfl) (hframe _) ?_ ?_ rfl hspaced hmem
    · rw [List.map_singleton, hc]
      refine linked_cons_cons.mpr ⟨?_, linked_pair.mpr ?_⟩
      · show (((h.set b.start H₁).set u.start _).mem u.start).ptr = _
        rw [set_mem_self]
      · show (((h.set b.start H₁).set u.start _).mem b.start).ptr = _
        rw [set_mem_ne _ hne.symm, set_mem_self]
        exact hcptr
    · intro d hd
      obtain rfl | hd := List.mem_cons.mp hd
      · show d.len = UNIT * (((h.set b.start H₁).set d.start _).mem d.start).size
        rw [set_mem_self]
        exact hF.sizes d huG
      · obtain rfl := List.mem_singleton.mp hd
        show d.len = UNIT * (((h.set b.start H₁).set u.start _).mem d.start).size
        rw [hc, set_mem_ne _ hne.symm, set_mem_self]
        exact hclen

theorem cover_nodes : cover (⟨base, 0⟩ :: F) = cover F := by
  rw [cover_cons]
  simp [Span.bytes, Span.stop]

theorem total_nodes : total (⟨base, 0⟩ :: F) = total F := by
  rw [total_cons]
  exact Nat.zero_add _

theorem FreeList.free (hF : FreeList base h F) (hb : b.len = UNIT * (h.mem b.start).size)
    (hpos : 0 < b.len) (hbase : base < b.start) (hdisj : Disjoint b.bytes (cover F))
    (hstop : b.stop < 2 ^ 64) (htot : b.len + total F < UNIT * 2 ^ 32) :
    ∃ h' F', (∀ n, F.length + 1 ≤ n → free n (b.start + UNIT) h = some h') ∧
      FreeList base h' F' ∧
      cover F' = b.bytes ∪ cover F ∧ total F' = b.len + total F ∧ (∃ c ∈ F', b.len ≤ c.len) ∧
      h'.regions = h.regions ∧
      ∀ a, a ≠ b.start → a ∉ base :: F.map Span.start → h'.mem a = h.mem a := by
  obtain ⟨us₀, vs, hF₀, hus, hvs⟩ := hF.spaced.tail.exists_place hF.pos hpos hdisj
  obtain ⟨us, u, hu⟩ : ∃ us u, ⟨base, 0⟩ :: us₀ = us ++ [u] := by
    obtain hnil | h := List.eq_nil_or_concat (⟨base, 0⟩ :: us₀)
    · cases hnil
    · obtain ⟨us, u, h⟩ := h
      exact ⟨us, u, by rw [h, List.concat_eq_append]⟩
  have hG : ⟨base, 0⟩ :: F = us ++ u :: vs := by
    rw [hF₀, ← List.cons_append, hu, List.append_assoc]
    rfl
  have hub : u.stop ≤ b.start ∧ u.start < b.start := by
    have hmem : u ∈ ⟨base, 0⟩ :: us₀ := by rw [hu]; simp
    obtain rfl | hmem := List.mem_cons.mp hmem
    · exact ⟨hbase.le, hbase⟩
    · have h₁ := hus u hmem
      have h₂ := hF.pos u (by rw [hF₀]; exact List.mem_append_left _ hmem)
      unfold Span.stop at *
      omega
  have hlt : ∀ v ∈ vs, b.start < v.start := by
    intro v hv
    have := hvs v hv
    unfold Span.stop at this
    omega
  obtain ⟨F', hG', hF'⟩ := hF.link hG hb hpos hbase hub.1 hub.2 hvs hstop htot
  have hcover := congrArg cover hG
  have hcover' := congrArg cover hG'
  have htotal := congrArg total hG
  have htotal' := congrArg total hG'
  rw [cover_nodes] at hcover hcover'
  rw [total_nodes] at htotal htotal'
  simp only [cover_append, cover_cons, cover_absorb, total_append, total_cons, total_absorb]
    at hcover hcover' htotal htotal'
  refine ⟨_, F', ?_, hF', ?_, by omega, ?_, link_regions _ _ _, ?_⟩
  · intro n hn
    unfold Umalloc.free
    dsimp only
    rw [Nat.add_sub_cancel, hF.place hG hub.2 hlt hn]
    rfl
  · rw [hcover, hcover']
    ext x
    simp only [Set.mem_union]
    tauto
  · obtain ⟨c, hc, hle⟩ := exists_le_absorb b vs
    obtain ⟨d, hd, hle'⟩ := exists_le_of_mem u hc
    have hmem : d ∈ ⟨base, 0⟩ :: F' := by
      rw [hG']
      exact List.mem_append_right _ hd
    obtain rfl | hmem := List.mem_cons.mp hmem
    · simp only at hle'
      omega
    · exact ⟨d, hmem, hle.trans hle'⟩
  · intro a hab hnode
    refine link_mem hab ?_
    rintro rfl
    have hmap := congrArg (List.map Span.start) hG
    rw [List.map_cons] at hmap
    rw [hmap] at hnode
    simp at hnode

structure Taken (base : ℕ) (h : Heap) (F : List Span) (nunits : ℕ) (ap : ℕ) (h' : Heap)
    (F' : List Span) (l : Span) : Prop where
  free : FreeList base h' F'
  ptr : ap = l.start + UNIT
  len : l.len = UNIT * nunits
  size : (h'.mem l.start).size = nunits
  cover : cover F = l.bytes ∪ cover F'
  apart : Disjoint l.bytes (Blocks.cover F')
  total : total F = l.len + total F'
  above : base < l.start
  below : l.stop < 2 ^ 64
  regions : h'.regions = h.regions
  frame : ∀ a, a ∉ base :: F.map Span.start → a ≠ l.start → h'.mem a = h.mem a

section
variable {c : Span} {nunits : ℕ}

theorem FreeList.below_pos (hF : FreeList base h F) (hb : b ∈ ⟨base, 0⟩ :: F) :
    b.stop < 2 ^ 64 ∧ (b.start ≠ base → 0 < b.len) := ⟨hF.below b hb, hF.node_pos hb⟩

/-- The block after a node is not the static header. -/
theorem FreeList.base_lt (hF : FreeList base h F) (hG : ⟨base, 0⟩ :: F = us ++ u :: c :: vs) :
    base < c.start := by
  have hsp := hF.spaced
  have hc : c ∈ F := by
    cases us with
    | nil =>
      obtain ⟨-, rfl⟩ := List.cons.inj hG
      exact List.mem_cons_self
    | cons w us =>
      obtain ⟨-, rfl⟩ := List.cons.inj hG
      simp
  exact hsp.lt hc

/-- The block `c` is replaced by `ws`, and `l` is the rest of it. -/
theorem FreeList.taken (hF : FreeList base h F) (hG : ⟨base, 0⟩ :: F = us ++ u :: c :: vs)
    {h' : Heap} {F' ws : List Span} {l : Span} (hF' : FreeList base h' F')
    (hG' : ⟨base, 0⟩ :: F' = us ++ u :: (ws ++ vs)) (hbytes : c.bytes = l.bytes ∪ cover ws)
    (hdisj : Disjoint l.bytes (cover ws)) (hlen : c.len = l.len + total ws)
    (hstart : c.start ≤ l.start) (hstop : l.stop = c.stop) (hl : l.len = UNIT * nunits)
    (hsize : (h'.mem l.start).size = nunits) (hregions : h'.regions = h.regions)
    (hframe : ∀ a, a ∉ base :: F.map Span.start → a ≠ l.start → h'.mem a = h.mem a) :
    Taken base h F nunits (l.start + UNIT) h' F' l := by
  have hG₂ : ⟨base, 0⟩ :: F = (us ++ [u]) ++ c :: vs := by rw [hG]; simp
  have hrest : Disjoint c.bytes (Blocks.cover (us ++ [u]) ∪ Blocks.cover vs) := by
    refine Spaced.disjoint_rest ?_
    rw [← hG₂]
    exact hF.spaced
  have hcover := congrArg Blocks.cover hG
  have hcover' := congrArg Blocks.cover hG'
  have htotal := congrArg Blocks.total hG
  have htotal' := congrArg Blocks.total hG'
  rw [cover_nodes] at hcover hcover'
  rw [total_nodes] at htotal htotal'
  simp only [cover_append, cover_cons, cover_nil, total_append, total_cons, Set.union_empty]
    at hcover hcover' htotal htotal' hrest
  constructor
  case free => exact hF'
  case ptr => rfl
  case len => exact hl
  case size => exact hsize
  case cover =>
    rw [hcover, hcover', hbytes]
    ext x
    simp only [Set.mem_union]
    tauto
  case apart =>
    have hsub : l.bytes ⊆ c.bytes := by
      rw [hbytes]
      exact Set.subset_union_left
    have hother := Set.disjoint_of_subset_left hsub hrest
    rw [hcover']
    simp only [Set.disjoint_union_right] at hother ⊢
    tauto
  case total => omega
  case above => exact (hF.base_lt hG).trans_le hstart
  case below =>
    rw [hstop]
    exact hF.below c (by rw [hG]; simp)
  case regions => exact hregions
  case frame => exact hframe

theorem FreeList.not_node (hG : ⟨base, 0⟩ :: F = us ++ u :: vs) {a : ℕ}
    (ha : a ∉ base :: F.map Span.start) : a ≠ u.start := by
  rintro rfl
  have hmap := congrArg (List.map Span.start) hG
  rw [List.map_cons] at hmap
  rw [hmap] at ha
  simp at ha

theorem FreeList.order (hF : FreeList base h F) (hG : ⟨base, 0⟩ :: F = us ++ u :: c :: vs) :
    (∀ a ∈ us.map Span.start, a < u.start) ∧ u.start < c.start ∧
      ∀ a ∈ vs.map Span.start, c.stop < a := by
  have hlt := List.pairwise_append.mp (hF.starts_lt hG)
  have hsp := (List.pairwise_append.mp (hG ▸ hF.spaced)).2.1
  refine ⟨fun a ha => hlt.2.2 a ha _ List.mem_cons_self,
    (List.pairwise_cons.mp hlt.2.1).1 _ List.mem_cons_self, fun a ha => ?_⟩
  obtain ⟨v, hv, rfl⟩ := List.mem_map.mp ha
  exact (List.pairwise_cons.mp (List.pairwise_cons.mp hsp).2).1 v hv

theorem FreeList.take_whole (hF : FreeList base h F) (hG : ⟨base, 0⟩ :: F = us ++ u :: c :: vs)
    (hfit : (h.mem c.start).size = nunits) :
    ∃ F', Taken base h F nunits (take nunits u.start c.start h).1
      (take nunits u.start c.start h).2 F' c := by
  have hG₁ : ⟨base, 0⟩ :: F = us ++ u :: ([c] ++ vs) := hG
  have hG₂ : ⟨base, 0⟩ :: F = (us ++ [u]) ++ c :: vs := by rw [hG]; simp
  obtain ⟨hus, huc, hvs⟩ := hF.order hG
  have hsub : (us ++ u :: vs).Sublist (⟨base, 0⟩ :: F) := by
    rw [hG]
    exact (List.Sublist.refl us).append ((List.sublist_cons_self c vs).cons_cons u)
  unfold take
  rw [if_pos hfit]
  dsimp only
  have hlist : ∃ F', ⟨base, 0⟩ :: F' = us ++ u :: ([] ++ vs) ∧ FreeList base
      { h.set u.start ⟨(h.mem c.start).ptr, (h.mem u.start).size⟩ with freep := u.start } F' := by
    refine hF.relink [] hG₁ rfl (fun _ => rfl) ?_ (linked_pair.mpr ?_) ?_ rfl
      (hF.spaced.sublist hsub) (fun d hd => hF.below_pos (hsub.subset hd))
    · intro a ha
      refine set_mem_ne _ ?_
      obtain ha | ha := List.mem_append.mp ha
      · exact (hus a ha).ne
      · have := hvs a ha
        unfold Span.stop at this
        omega
    · show ((h.set u.start _).mem u.start).ptr = _
      rw [set_mem_self]
      exact (hF.linked hG₂).next_head
    · intro d hd
      obtain rfl := List.mem_singleton.mp hd
      show d.len = UNIT * ((h.set d.start _).mem d.start).size
      rw [set_mem_self]
      exact hF.sizes d (by rw [hG]; simp)
  obtain ⟨F', hG', hF'⟩ := hlist
  refine ⟨F', hF.taken hG hF' hG' (by simp) (by simp) (by simp) le_rfl rfl ?_ ?_ rfl ?_⟩
  · rw [← hfit]
    exact hF.sizes c (by rw [hG]; simp)
  · show ((h.set u.start _).mem c.start).size = nunits
    rw [set_mem_ne _ huc.ne', hfit]
  · intro a ha _
    exact set_mem_ne _ (FreeList.not_node hG ha)

/-- Only the start `d` of block `c` stays on the list. -/
theorem FreeList.shrink (hF : FreeList base h F) (hG : ⟨base, 0⟩ :: F = us ++ u :: c :: vs)
    {d : Span} {h' : Heap} {size : ℕ} (hstart : d.start = c.start) (hle : d.stop ≤ c.stop)
    (hpos : 0 < d.len) (hlen : d.len = UNIT * size)
    (hc : h'.mem c.start = ⟨(h.mem c.start).ptr, size⟩)
    (hother : ∀ a, a ≠ c.start → (a < c.start ∨ c.stop < a) → h'.mem a = h.mem a)
    (hfreep : h'.freep = u.start) :
    ∃ F', ⟨base, 0⟩ :: F' = us ++ u :: ([d] ++ vs) ∧ FreeList base h' F' := by
  have hG₁ : ⟨base, 0⟩ :: F = us ++ u :: ([c] ++ vs) := hG
  have hG₂ : ⟨base, 0⟩ :: F = (us ++ [u]) ++ c :: vs := by rw [hG]; simp
  obtain ⟨hus, huc, hvs⟩ := hF.order hG
  have hu : h'.mem u.start = h.mem u.start := hother _ huc.ne (.inl huc)
  have hspaced : Spaced (us ++ u :: ([d] ++ vs)) := by
    have hsp := hF.spaced
    rw [hG₂] at hsp
    have hshrunk := hsp.shrink hstart hle
    rw [List.append_assoc] at hshrunk
    exact hshrunk
  have hmem : ∀ e ∈ us ++ u :: ([d] ++ vs), e.stop < 2 ^ 64 ∧ (e.start ≠ base → 0 < e.len) := by
    intro e he
    have hcases : e = d ∨ e ∈ ⟨base, 0⟩ :: F := by
      rw [hG]
      simp only [List.mem_append, List.mem_cons, List.not_mem_nil, or_false] at he ⊢
      tauto
    obtain rfl | he := hcases
    · have := hF.below c (by rw [hG]; simp)
      exact ⟨by omega, fun _ => hpos⟩
    · exact hF.below_pos he
  refine hF.relink [d] hG₁ rfl (fun _ => rfl) ?_ ?_ ?_ hfreep hspaced hmem
  · intro a ha
    obtain ha | ha := List.mem_append.mp ha
    · have := hus a ha
      exact hother a (by omega) (.inl (by omega))
    · have := hvs a ha
      have : c.start ≤ c.stop := Nat.le_add_right _ _
      exact hother a (by omega) (.inr (by omega))
  · rw [List.map_singleton, hstart]
    refine linked_cons_cons.mpr ⟨?_, linked_pair.mpr ?_⟩
    · rw [hu]
      exact (hF.linked hG).next_head
    · rw [hc]
      exact (hF.linked hG₂).next_head
  · intro e he
    obtain rfl | he := List.mem_cons.mp he
    · rw [hu]
      exact hF.sizes e (by rw [hG]; simp)
    · obtain rfl := List.mem_singleton.mp he
      rw [hstart, hc, hlen]

/-- The block is longer; its end is taken. -/
theorem FreeList.take_part (hF : FreeList base h F) (hG : ⟨base, 0⟩ :: F = us ++ u :: c :: vs)
    (hfit : nunits < (h.mem c.start).size) :
    ∃ F' l, Taken base h F nunits (take nunits u.start c.start h).1
      (take nunits u.start c.start h).2 F' l := by
  have hG₂ : ⟨base, 0⟩ :: F = (us ++ [u]) ++ c :: vs := by rw [hG]; simp
  have hcG : c ∈ ⟨base, 0⟩ :: F := by rw [hG]; simp
  have hclen := hF.sizes c hcG
  have hcstop := hF.below c hcG
  obtain ⟨d, hd⟩ : ∃ d : Span, d = ⟨c.start, UNIT * ((h.mem c.start).size - nunits)⟩ := ⟨_, rfl⟩
  obtain ⟨l, hl⟩ : ∃ l : Span, l = ⟨d.stop, UNIT * nunits⟩ := ⟨_, rfl⟩
  have hdstart : d.start = c.start := by rw [hd]
  have hdlen : d.len = UNIT * ((h.mem c.start).size - nunits) := by rw [hd]
  have hlstart : l.start = d.stop := by rw [hl]
  have hllen : l.len = UNIT * nunits := by rw [hl]
  have hends : c.start < l.start ∧ l.start ≤ c.stop ∧ l.stop = c.stop ∧ c.len = l.len + d.len ∧
      0 < d.len := by
    unfold Span.stop UNIT at *
    omega
  obtain ⟨hcl, hlc, hlstop, hsum, hdpos⟩ := hends
  have hstop₁ : (h.set c.start ⟨(h.mem c.start).ptr, (h.mem c.start).size - nunits⟩).stop c.start
      = l.start := by
    have hval : c.start + UNIT * ((h.mem c.start).size - nunits) = l.start := by
      rw [hlstart, Span.stop, hdstart, hdlen]
    unfold Heap.stop after
    rw [set_mem_self]
    show (c.start + UNIT * ((h.mem c.start).size - nunits)) % 2 ^ 64 = l.start
    rw [hval]
    exact Nat.mod_eq_of_lt (by omega)
  unfold take
  rw [if_neg hfit.ne']
  dsimp only
  rw [hstop₁]
  set h₂ : Heap :=
    { (h.set c.start ⟨(h.mem c.start).ptr, (h.mem c.start).size - nunits⟩).set l.start
        ⟨((h.set c.start ⟨(h.mem c.start).ptr, (h.mem c.start).size - nunits⟩).mem l.start).ptr,
          nunits⟩ with freep := u.start } with hh₂
  have hother : ∀ a, a ≠ c.start → a ≠ l.start → h₂.mem a = h.mem a := fun a hac hal =>
    (set_mem_ne _ hal).trans (set_mem_ne _ hac)
  have hc₂ : h₂.mem c.start = ⟨(h.mem c.start).ptr, (h.mem c.start).size - nunits⟩ :=
    (set_mem_ne _ hcl.ne).trans (set_mem_self _ _)
  obtain ⟨F', hG', hF'⟩ := hF.shrink hG hdstart (hlstart ▸ hlc) hdpos hdlen hc₂
    (fun a hac ha => hother a hac (by omega)) rfl
  have hjoin : c.bytes = l.bytes ∪ cover [d] := by
    have hc : c = ⟨d.start, d.len + l.len⟩ := by
      cases c
      simp only [Span.mk.injEq]
      exact ⟨hdstart.symm, by simp only at hsum; omega⟩
    rw [hc, bytes_join hlstart.symm, Set.union_comm]
    simp
  refine ⟨F', l, hF.taken hG hF' hG' hjoin ?_ (by simpa using hsum) hcl.le hlstop hllen ?_ rfl ?_⟩
  · simpa using (disjoint_bytes hlstart.ge).symm
  · show (Heap.mem _ l.start).size = nunits
    rw [set_mem_self]
  · intro a ha hal
    exact hother a (FreeList.not_node hG₂ ha) hal

theorem FreeList.take (hF : FreeList base h F) (hG : ⟨base, 0⟩ :: F = us ++ u :: c :: vs)
    (hfit : nunits ≤ (h.mem c.start).size) :
    ∃ F' l, Taken base h F nunits (take nunits u.start c.start h).1
      (take nunits u.start c.start h).2 F' l := by
  obtain heq | hlt := hfit.eq_or_lt
  · obtain ⟨F', hF'⟩ := hF.take_whole hG heq.symm
    exact ⟨F', c, hF'⟩
  · exact hF.take_part hG hlt

end

end

end Umalloc
end Xv6
