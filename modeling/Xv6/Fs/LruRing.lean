import Xv6.Fs.Layout
import Xv6.Lib.DoublyLinked
import Xv6.Lib.Transition

/-!
The ring of the buffer cache with its pointers. `bget` walks along `next` and then along `prev`,
and `brelse` moves a buffer to the front when its count drops to zero; so the ring is ordered by
the time of that, and the buffer that is recycled is the one for which it is longest ago.
-/

namespace Xv6
namespace LruRing
open DoublyLinked CircularList

inductive Node where
  | head
  | buf (i : Fin NBUF)
  deriving DecidableEq, Repr

structure Buf where
  valid : Bool
  dev : ℕ
  blockno : ℕ
  refcnt : ℕ
  deriving DecidableEq, Repr

structure Cache where
  next : Node → Node
  prev : Node → Node
  buf : Fin NBUF → Buf

namespace Cache
variable (c : Cache)

def setBuf (i : Fin NBUF) (b : Buf) : Cache := { c with buf := Function.update c.buf i b }

/-- The four assignments at the end of `binit`'s loop and of `brelse`. -/
def insertFront (b : Node) : Cache :=
  let next := Function.update c.next b (c.next .head)
  let prev := Function.update (Function.update c.prev b .head) (next .head) b
  ⟨Function.update next .head b, prev, c.buf⟩

/-- `b->next->prev = b->prev; b->prev->next = b->next`. -/
def unlink (b : Node) : Cache :=
  let prev := Function.update c.prev (c.next b) (c.prev b)
  ⟨Function.update c.next (prev b) (c.next b), prev, c.buf⟩

/-- The links may be anything before; the rest of `bcache` is zero. -/
def binit (next prev : Node → Node) : Cache :=
  (List.finRange NBUF).foldl (fun c i => c.insertFront (.buf i))
    ⟨Function.update next .head .head, Function.update prev .head .head, fun _ => ⟨false, 0, 0, 0⟩⟩

def caches (dev blockno : ℕ) : Node → Bool
  | .head => false
  | .buf i => (c.buf i).dev = dev ∧ (c.buf i).blockno = blockno

def unused : Node → Bool
  | .head => false
  | .buf i => (c.buf i).refcnt = 0

/-- The buffer that `bget` returns and the cache after it, or `some none` for the panic. Its loops
make at most `n` rounds. -/
def bget (n dev blockno : ℕ) : Option (Option (Fin NBUF × Cache)) := do
  match ← search c.next .head (c.caches dev blockno) n (c.next .head) with
  | some (.buf i) =>
      return some (i, c.setBuf i { c.buf i with refcnt := ((c.buf i).refcnt + 1) % 2 ^ 32 })
  | _ =>
      match ← search c.prev .head c.unused n (c.prev .head) with
      | some (.buf i) => return some (i, c.setBuf i ⟨false, dev, blockno, 1⟩)
      | _ => return none

def decr (i : Fin NBUF) : ℕ := ((c.buf i).refcnt + 2 ^ 32 - 1) % 2 ^ 32

def brelse (i : Fin NBUF) : Cache :=
  let c' := c.setBuf i { c.buf i with refcnt := c.decr i }
  if c.decr i = 0 then (c'.unlink (.buf i)).insertFront (.buf i) else c'

def bpin (i : Fin NBUF) : Cache :=
  c.setBuf i { c.buf i with refcnt := ((c.buf i).refcnt + 1) % 2 ^ 32 }

def bunpin (i : Fin NBUF) : Cache := c.setBuf i { c.buf i with refcnt := c.decr i }

end Cache

/-- The cache, and when each count last dropped to zero in `brelse`: a number of the clock, or
`0` for never. -/
structure Machine where
  cache : Cache
  stamp : Fin NBUF → ℕ
  clock : ℕ

inductive Op where
  | bget (dev blockno : ℕ)
  | brelse (i : Fin NBUF)
  | bpin (i : Fin NBUF)
  | bunpin (i : Fin NBUF)

def Start (m : Machine) : Prop :=
  ∃ next prev, m = ⟨Cache.binit next prev, fun _ => 0, 1⟩

/-- The calls of `brelse`, `bpin` and `bunpin` may be for any buffer. -/
def Step (m : Machine) : Op → Machine → Prop
  | .bget dev blockno, m' => ∃ n i c, m.cache.bget n dev blockno = some (some (i, c)) ∧
      m' = { m with cache := c }
  | .brelse i, m' => m' = ⟨m.cache.brelse i,
      if m.cache.decr i = 0 then Function.update m.stamp i m.clock else m.stamp, m.clock + 1⟩
  | .bpin i, m' => m' = { m with cache := m.cache.bpin i }
  | .bunpin i, m' => m' = { m with cache := m.cache.bunpin i }

def Reached : Machine → Prop := Transition.Reachable Start Step

structure Cache.Linked (c : Cache) (l : List (Fin NBUF)) : Prop where
  ring : Ring c.next c.prev .head (l.map .buf)
  nodup : l.Nodup

/-- `a` comes before `b` in the ring: its count dropped to zero later, or that of `b` never did. -/
def Machine.Newer (m : Machine) (a b : Fin NBUF) : Prop := m.stamp b < m.stamp a ∨ m.stamp b = 0

structure Ordered (m : Machine) (l : List (Fin NBUF)) : Prop where
  linked : m.cache.Linked l
  all : ∀ i, i ∈ l
  sorted : l.Pairwise m.Newer
  past : ∀ i, m.stamp i < m.clock

section
variable {c : Cache} {l xs ys : List (Fin NBUF)} {i : Fin NBUF} {m m' : Machine} {n dev blockno : ℕ}

theorem Cache.Linked.nodes (h : c.Linked l) : (Node.head :: l.map Node.buf).Nodup := by
  refine List.nodup_cons.2 ⟨fun hmem => ?_, h.nodup.map fun i j hij => Node.buf.inj hij⟩
  obtain ⟨i, -, hi⟩ := List.mem_map.1 hmem
  cases hi

theorem buf_notMem (hi : i ∉ l) : Node.buf i ∉ Node.head :: l.map Node.buf := by
  intro hmem
  obtain h | hmem := List.mem_cons.1 hmem
  · cases h
  · obtain ⟨j, hj, hji⟩ := List.mem_map.1 hmem
    exact hi (Node.buf.inj hji ▸ hj)

theorem Cache.Linked.setBuf (h : c.Linked l) (i : Fin NBUF) (b : Buf) : (c.setBuf i b).Linked l :=
  ⟨h.ring, h.nodup⟩

theorem Cache.Linked.insertFront (h : c.Linked l) (hi : i ∉ l) :
    (c.insertFront (.buf i)).Linked (i :: l) :=
  ⟨h.ring.insert h.nodes (buf_notMem hi) rfl rfl, List.nodup_cons.2 ⟨hi, h.nodup⟩⟩

theorem Cache.Linked.unlink (h : c.Linked (xs ++ i :: ys)) :
    (c.unlink (.buf i)).Linked (xs ++ ys) := by
  have hring := h.ring
  have hnodes := h.nodes
  rw [List.map_append, List.map_cons] at hring hnodes
  refine ⟨?_, h.nodup.sublist (List.Sublist.append (.refl _) (List.sublist_cons_self _ _))⟩
  rw [List.map_append]
  exact hring.remove hnodes rfl rfl

theorem binit_linked (next prev : Node → Node) :
    (Cache.binit next prev).Linked (List.finRange NBUF).reverse := by
  have hfold : ∀ (l acc : List (Fin NBUF)) (c : Cache), c.Linked acc → (l ++ acc).Nodup →
      (l.foldl (fun c i => c.insertFront (.buf i)) c).Linked (l.reverse ++ acc) := by
    intro l
    induction l with
    | nil => exact fun acc c hc _ => hc
    | cons i l ih =>
      intro acc c hc hnodup
      rw [List.foldl_cons, List.reverse_cons, List.append_assoc, List.singleton_append]
      obtain ⟨hi, hrest⟩ := List.nodup_cons.1 hnodup
      refine ih (i :: acc) _ (hc.insertFront fun hmem => hi (List.mem_append_right _ hmem)) ?_
      exact List.nodup_middle.2 hnodup
  have hempty : Cache.Linked ⟨Function.update next .head .head, Function.update prev .head .head,
      fun _ => ⟨false, 0, 0, 0⟩⟩ [] :=
    ⟨joined_cons_cons.2 ⟨⟨by simp, by simp⟩, List.isChain_singleton _⟩, List.nodup_nil⟩
  have := hfold (List.finRange NBUF) [] _ hempty (by
    rw [List.append_nil]
    exact List.nodup_finRange NBUF)
  rwa [List.append_nil] at this

theorem binit_buf (next prev : Node → Node) (i : Fin NBUF) :
    (Cache.binit next prev).buf i = ⟨false, 0, 0, 0⟩ := by
  have hfold : ∀ (l : List (Fin NBUF)) (c : Cache),
      (l.foldl (fun c i => c.insertFront (.buf i)) c).buf = c.buf := by
    intro l
    induction l with
    | nil => exact fun c => rfl
    | cons i l ih => exact fun c => ih _
  rw [Cache.binit, hfold]

/-! ### `bget` -/

/-- The walks along the ring are searches in the list. -/
theorem Cache.Linked.bget (h : c.Linked l) (hn : NBUF < n) : c.bget n dev blockno =
    some (match l.find? fun i => (c.buf i).dev = dev ∧ (c.buf i).blockno = blockno with
      | some i => some (i, c.setBuf i { c.buf i with refcnt := ((c.buf i).refcnt + 1) % 2 ^ 32 })
      | none => match l.reverse.find? fun i => (c.buf i).refcnt = 0 with
        | some i => some (i, c.setBuf i ⟨false, dev, blockno, 1⟩)
        | none => none) := by
  have hlen : l.length ≤ NBUF := by
    have := h.nodup.length_le_card
    rwa [Fintype.card_fin] at this
  have hhead : ∀ l : List (Fin NBUF), Node.head ∉ l.map Node.buf := by
    intro l hmem
    obtain ⟨i, -, hi⟩ := List.mem_map.1 hmem
    cases hi
  have hnext : search c.next .head (c.caches dev blockno) n (c.next .head) = some
      ((l.find? fun i => (c.buf i).dev = dev ∧ (c.buf i).blockno = blockno).map .buf) := by
    rw [search_eq_find? h.ring.linked_next (hhead l) (by rw [List.length_map]; omega),
      List.find?_map]
    rfl
  have hprev : search c.prev .head c.unused n (c.prev .head) = some
      ((l.reverse.find? fun i => (c.buf i).refcnt = 0).map .buf) := by
    have hback := h.ring.linked_prev
    rw [← List.map_reverse] at hback
    rw [search_eq_find? hback (hhead _) (by rw [List.length_map, List.length_reverse]; omega),
      List.find?_map]
    rfl
  rw [Cache.bget, hnext]
  cases l.find? fun i => (c.buf i).dev = dev ∧ (c.buf i).blockno = blockno with
  | some i => rfl
  | none =>
    dsimp only [Option.map_none, Option.bind_eq_bind, Option.bind_some]
    rw [hprev]
    cases l.reverse.find? fun i => decide ((c.buf i).refcnt = 0) with
    | some i => rfl
    | none => rfl

theorem search_mono {α : Type} [DecidableEq α] {step : α → α} {last a : α} {found : α → Bool}
    {k n : ℕ} {r : Option α} (h : search step last found k a = some r) (hkn : k ≤ n) :
    search step last found n a = some r := by
  induction k generalizing n a with
  | zero => cases h
  | succ k ih =>
    obtain ⟨n, rfl⟩ : ∃ j, n = j + 1 := ⟨n - 1, by omega⟩
    rw [search] at h ⊢
    split_ifs at h ⊢
    · exact h
    · exact h
    · exact ih h (by omega)

theorem bget_mono {k : ℕ} {r : Option (Fin NBUF × Cache)} (h : c.bget k dev blockno = some r)
    (hkn : k ≤ n) : c.bget n dev blockno = some r := by
  rw [Cache.bget] at h ⊢
  obtain ⟨a, ha, h⟩ := Option.bind_eq_some_iff.1 h
  refine Option.bind_eq_some_iff.2 ⟨a, search_mono ha hkn, ?_⟩
  split at h
  · exact h
  · obtain ⟨b, hb, h⟩ := Option.bind_eq_some_iff.1 h
    exact Option.bind_eq_some_iff.2 ⟨b, search_mono hb hkn, h⟩

theorem Cache.Linked.of_bget (h : c.Linked l) {c' : Cache}
    (hget : c.bget n dev blockno = some (some (i, c'))) : c'.Linked l := by
  have hget := bget_mono hget (Nat.le_add_right n (NBUF + 1))
  rw [h.bget (by omega)] at hget
  have hget := Option.some.inj hget
  split at hget
  · cases hget
    exact h.setBuf _ _
  · split at hget
    · cases hget
      exact h.setBuf _ _
    · cases hget

/-! ### The order -/

theorem Ordered.start (next prev : Node → Node) :
    Ordered ⟨Cache.binit next prev, fun _ => 0, 1⟩ (List.finRange NBUF).reverse :=
  ⟨binit_linked next prev, fun i => List.mem_reverse.2 (List.mem_finRange i),
    List.pairwise_of_forall fun _ _ => .inr rfl, fun _ => Nat.one_pos⟩

theorem Ordered.brelse (h : Ordered m l) (i : Fin NBUF) :
    ∃ l', Ordered ⟨m.cache.brelse i,
      if m.cache.decr i = 0 then Function.update m.stamp i m.clock else m.stamp, m.clock + 1⟩ l' := by
  by_cases hz : m.cache.decr i = 0
  · rw [if_pos hz, Cache.brelse, if_pos hz]
    obtain ⟨xs, ys, rfl⟩ := List.append_of_mem (h.all i)
    have hnodup := h.linked.nodup
    have hi : i ∉ xs ++ ys := (List.nodup_cons.1 (List.nodup_middle.1 hnodup)).1
    have hsub : (xs ++ ys).Sublist (xs ++ i :: ys) :=
      List.Sublist.append (.refl _) (List.sublist_cons_self _ _)
    refine ⟨i :: (xs ++ ys), ((h.linked.setBuf i _).unlink).insertFront hi, fun j => ?_,
      List.pairwise_cons.2 ⟨fun j hj => ?_, ?_⟩, fun j => ?_⟩
    · have hj := h.all j
      rw [List.mem_append, List.mem_cons] at hj
      rw [List.mem_cons, List.mem_append]
      exact or_left_comm.1 hj
    · have hji : j ≠ i := fun hji => hi (hji ▸ hj)
      refine .inl ?_
      show Function.update m.stamp i m.clock j < Function.update m.stamp i m.clock i
      rw [Function.update_self, Function.update_of_ne hji]
      exact h.past j
    · refine (h.sorted.sublist hsub).imp_of_mem fun {a b} ha hb hab => ?_
      have hai : a ≠ i := fun hai => hi (hai ▸ ha)
      have hbi : b ≠ i := fun hbi => hi (hbi ▸ hb)
      show Function.update m.stamp i m.clock b < Function.update m.stamp i m.clock a ∨
        Function.update m.stamp i m.clock b = 0
      rw [Function.update_of_ne hai, Function.update_of_ne hbi]
      exact hab
    · show Function.update m.stamp i m.clock j < m.clock + 1
      by_cases hji : j = i
      · rw [hji, Function.update_self]
        exact Nat.lt_succ_self _
      · rw [Function.update_of_ne hji]
        exact (h.past j).trans (Nat.lt_succ_self _)
  · rw [if_neg hz, Cache.brelse, if_neg hz]
    exact ⟨l, h.linked.setBuf i _, h.all, h.sorted, fun j => (h.past j).trans (Nat.lt_succ_self _)⟩

theorem Ordered.of_reached (h : Reached m) : ∃ l, Ordered m l := by
  refine Transition.Reachable.invariant (P := fun m => ∃ l, Ordered m l) ?_ ?_ h
  · rintro m ⟨next, prev, rfl⟩
    exact ⟨_, Ordered.start next prev⟩
  · rintro m op m' ⟨l, h⟩ hstep
    cases op with
    | bget dev blockno =>
      obtain ⟨n, i, c, hget, rfl⟩ := hstep
      exact ⟨l, h.linked.of_bget hget, h.all, h.sorted, h.past⟩
    | brelse i =>
      rw [show m' = _ from hstep]
      exact h.brelse i
    | bpin i =>
      rw [show m' = _ from hstep]
      exact ⟨l, h.linked.setBuf i _, h.all, h.sorted, h.past⟩
    | bunpin i =>
      rw [show m' = _ from hstep]
      exact ⟨l, h.linked.setBuf i _, h.all, h.sorted, h.past⟩

/-- The buffer found from the back is the oldest unused one. -/
theorem Ordered.oldest (h : Ordered m l)
    (hfind : (l.reverse.find? fun i => (m.cache.buf i).refcnt = 0) = some i) :
    (m.cache.buf i).refcnt = 0 ∧
      ∀ j, (m.cache.buf j).refcnt = 0 → j = i ∨ m.stamp i < m.stamp j ∨ m.stamp i = 0 := by
  obtain ⟨hi, as, bs, hsplit, has⟩ := List.find?_eq_some_iff_append.1 hfind
  refine ⟨of_decide_eq_true hi, fun j hj => ?_⟩
  have hmem : j ∈ as ++ i :: bs := hsplit ▸ List.mem_reverse.2 (h.all j)
  obtain hja | hjb := List.mem_append.1 hmem
  · have := has j hja
    simp [hj] at this
  · obtain rfl | hjb := List.mem_cons.1 hjb
    · exact .inl rfl
    · have hsorted := List.pairwise_reverse.2 h.sorted
      rw [hsplit] at hsorted
      exact .inr ((List.pairwise_cons.1 (List.pairwise_append.1 hsorted).2.1).1 j hjb)

/-- In every run the links make one ring through all buffers, in the order of the last time that
their count dropped to zero in `brelse`, and a block that is not cached gets the unused buffer
for which that is longest ago. -/
theorem lru_ring (h : Reached m) :
    (∃ l : List (Fin NBUF), l.Nodup ∧ (∀ i, i ∈ l) ∧ Ring m.cache.next m.cache.prev .head (l.map .buf) ∧
      l.Pairwise m.Newer) ∧
    (∀ b, m.cache.prev (m.cache.next b) = b ∧ m.cache.next (m.cache.prev b) = b) ∧
    ∀ dev blockno, (∀ i, ¬((m.cache.buf i).dev = dev ∧ (m.cache.buf i).blockno = blockno)) →
      ∃ n r, m.cache.bget n dev blockno = some r ∧
        (r = none → ∀ i, (m.cache.buf i).refcnt ≠ 0) ∧
        ∀ i c, r = some (i, c) → (m.cache.buf i).refcnt = 0 ∧
          ∀ j, (m.cache.buf j).refcnt = 0 → j = i ∨ m.stamp i < m.stamp j ∨ m.stamp i = 0 := by
  obtain ⟨l, h⟩ := Ordered.of_reached h
  refine ⟨⟨l, h.linked.nodup, h.all, h.linked.ring, h.sorted⟩, fun b => ?_, ?_⟩
  · refine h.linked.ring.inverse ?_
    cases b with
    | head => exact List.mem_cons_self
    | buf i => exact List.mem_cons_of_mem _ (List.mem_map_of_mem (h.all i))
  · intro dev blockno hno
    refine ⟨NBUF + 1, _, h.linked.bget (Nat.lt_succ_self _), ?_⟩
    have hfind : (l.find? fun i => (m.cache.buf i).dev = dev ∧ (m.cache.buf i).blockno = blockno) =
        none := by
      refine List.find?_eq_none.2 fun i _ => ?_
      rw [decide_eq_true_iff]
      exact hno i
    rw [hfind]
    cases hr : l.reverse.find? fun i => decide ((m.cache.buf i).refcnt = 0) with
    | none =>
      refine ⟨fun _ i hi => ?_, nofun⟩
      have := List.find?_eq_none.1 hr i (List.mem_reverse.2 (h.all i))
      simp [hi] at this
    | some i =>
      refine ⟨nofun, fun j c hj => ?_⟩
      cases hj
      exact h.oldest hr

end

/-- After `binit` one buffer is pinned and released: none is in use, and only that one has been
released. -/
theorem reached_released (i₀ : Fin NBUF) : ∃ m, Reached m ∧
    (∀ i, (m.cache.buf i).refcnt = 0 ∧ (m.cache.buf i).dev = 0) ∧ m.stamp i₀ = 1 ∧
    ∀ i, i ≠ i₀ → m.stamp i = 0 := by
  obtain ⟨c₀, hc₀⟩ : ∃ c, c = Cache.binit id id := ⟨_, rfl⟩
  have hbuf : ∀ i, c₀.buf i = ⟨false, 0, 0, 0⟩ := hc₀ ▸ binit_buf id id
  have h₀ : Reached ⟨c₀, fun _ => 0, 1⟩ := .start _ ⟨id, id, by rw [hc₀]⟩
  obtain ⟨c₁, hc₁⟩ : ∃ c, c = c₀.bpin i₀ := ⟨_, rfl⟩
  have h₁ : Reached ⟨c₁, fun _ => 0, 1⟩ := .next _ _ (.bpin i₀) h₀ (by rw [hc₁]; rfl)
  have hbuf₁ : c₁.buf = Function.update c₀.buf i₀ ⟨false, 0, 0, 1⟩ := by
    rw [hc₁, Cache.bpin, Cache.setBuf, hbuf, Nat.mod_eq_of_lt (by decide)]
  have hdecr : c₁.decr i₀ = 0 := by
    rw [Cache.decr, hbuf₁, Function.update_self, Nat.add_sub_cancel_left, Nat.mod_self]
  refine ⟨_, .next _ _ (.brelse i₀) h₁ rfl, fun i => ?_, ?_, fun i hi => ?_⟩
  · rw [Cache.brelse, if_pos hdecr]
    show (Function.update c₁.buf i₀ _ i).refcnt = 0 ∧ (Function.update c₁.buf i₀ _ i).dev = 0
    by_cases hi : i = i₀
    · rw [hi, Function.update_self, hdecr, hbuf₁, Function.update_self]
      exact ⟨rfl, rfl⟩
    · rw [Function.update_of_ne hi, hbuf₁, Function.update_of_ne hi, hbuf]
      exact ⟨rfl, rfl⟩
  · rw [if_pos hdecr]
    exact Function.update_self ..
  · rw [if_pos hdecr]
    exact Function.update_of_ne hi ..

/-- The next block then gets a buffer that was never used. -/
theorem lru_ring_released : ∃ m, Reached m ∧ m.stamp ⟨0, by decide⟩ = 1 ∧
    ∃ n i c, m.cache.bget n 1 6 = some (some (i, c)) ∧ m.stamp i = 0 := by
  obtain ⟨m, hm, hbuf, hold, hnever⟩ := reached_released ⟨0, by decide⟩
  obtain ⟨i₁, hne⟩ : ∃ i : Fin NBUF, i ≠ ⟨0, by decide⟩ := ⟨⟨1, by decide⟩, by decide⟩
  obtain ⟨n, r, hr, hnone, hsome⟩ := (lru_ring hm).2.2 1 6 fun i hi =>
    absurd (hi.1.symm.trans (hbuf i).2) (by decide)
  cases r with
  | none => exact absurd (hbuf i₁).1 (hnone rfl i₁)
  | some r =>
    obtain ⟨i, c⟩ := r
    refine ⟨m, hm, hold, n, i, c, hr, ?_⟩
    obtain rfl | hlt | h := (hsome i c rfl).2 i₁ (hbuf i₁).1
    · exact hnever i₁ hne
    · rw [hnever i₁ hne] at hlt
      exact absurd hlt (Nat.not_lt_zero _)
    · exact h

end LruRing
end Xv6
