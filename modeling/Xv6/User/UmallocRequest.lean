import Xv6.User.UmallocRuns
import Xv6.Vm.Growproc

/-!
What `malloc` asks `sbrk` for. `morecore` passes `nu * sizeof(Header)` to a parameter of type
`int`: from 2 ^ 27 units on the kernel gets another number, and a negative one makes the
process smaller.
-/

namespace Xv6

namespace Vm

theorem le_grownSize {sz : ℕ} {n : ℤ} (hn : 0 ≤ n) : sz ≤ grownSize sz n := by
  unfold grownSize
  split_ifs <;> omega

end Vm

namespace Umalloc
open Blocks CircularList

/-- The units `morecore` asks for. -/
def granted (nu : ℕ) : ℕ := if nu < 4096 then 4096 else nu

/-- The argument `sbrk` gets from `morecore`. -/
def request (nu : ℕ) : ℤ := Int.bmod (granted nu * UNIT) (2 ^ 32)

/-- The calls of `sbrk` in the loop of `malloc`, with what they returned. -/
def searchCalls (sbrk : Sbrk) (nunits : ℕ) : ℕ → ℕ → Heap → List (ℤ × Option ℕ)
  | 0, _, _ => []
  | n + 1, p, h =>
      if (h.mem p).size ≥ nunits then []
      else if p = h.freep then
        (request nunits, sbrk h.regions (request nunits)) ::
          match morecore sbrk n nunits h with
          | none => []
          | some (p', h') => if p' = 0 then [] else searchCalls sbrk nunits n (h'.mem p').ptr h'
      else searchCalls sbrk nunits n (h.mem p).ptr h

def mallocCalls (base : ℕ) (sbrk : Sbrk) (n nbytes : ℕ) (h : Heap) : List (ℤ × Option ℕ) :=
  searchCalls sbrk (units nbytes) n ((ready base h).mem (ready base h).freep).ptr (ready base h)

/-- The size of the process after these calls. -/
def sizeAfter (sz : ℕ) (calls : List (ℤ × Option ℕ)) : ℕ :=
  calls.foldl (fun sz c => if c.2.isSome then Vm.grownSize sz c.1 else sz) sz

/-- A request for more memory fails or gives a region above the earlier ones. Nothing is
said of the others. -/
def SbrkGrows (base : ℕ) (sbrk : Sbrk) : Prop :=
  ∀ rs k a, 0 < k → sbrk rs k = some a → base + UNIT ≤ a ∧ (∀ r ∈ rs, r.stop ≤ a) ∧
    a + k.toNat < 2 ^ 64 ∧ total rs + k.toNat < UNIT * 2 ^ 32

/-- `malloc(nbytes)` asks `sbrk` for what it needs, and it returns `0` or a block in the memory
of the process, which has not become smaller. -/
structure AsksRight (base : ℕ) (sbrk : Sbrk) (nbytes : ℕ) (h : Heap) : Prop where
  asked : ∀ n, ∀ c ∈ mallocCalls base sbrk n nbytes h,
    c.1 = granted (units nbytes) * UNIT ∧ 0 < c.1
  grows : ∀ n sz, sz ≤ sizeAfter sz (mallocCalls base sbrk n nbytes h)
  obtained : ∃ n ap h', malloc base sbrk n nbytes h = some (ap, h') ∧
    (ap = 0 ∨ ∀ x, ap ≤ x → x < ap + nbytes → x ∈ cover h'.regions)

/-- A free block is large enough. -/
def Fits (base nunits : ℕ) (s : Prog) : Prop :=
  ∃ F, Divided base { s with heap := ready base s.heap } F ∧ ∃ c ∈ F, UNIT * nunits ≤ c.len

section
variable {base nbytes nunits n p prevp : ℕ} {sbrk sbrk' : Sbrk} {h : Heap} {s : Prog}
  {F : List Span} {c : ℤ × Option ℕ}

theorem morecore_eq (sbrk : Sbrk) (n nu : ℕ) (h : Heap) :
    morecore sbrk n nu h = match sbrk h.regions (request nu) with
      | none => some (0, h)
      | some a => do
          let h₁ := { h with regions := ⟨a, (request nu).toNat⟩ :: h.regions }
          let h₃ ← free n (a + UNIT) (h₁.set a ⟨(h₁.mem a).ptr, granted nu⟩)
          return (h₃.freep, h₃) := rfl

theorem request_eq (hnu : nunits < 2 ^ 27) :
    request nunits = granted nunits * UNIT ∧ 0 < request nunits := by
  have hg : 0 < granted nunits ∧ granted nunits < 2 ^ 27 := by
    unfold granted
    split_ifs <;> omega
  unfold request
  rw [Int.bmod_def]
  unfold UNIT
  split_ifs <;> omega

theorem request_ne (hnu : 2 ^ 27 ≤ nunits) : request nunits ≠ granted nunits * UNIT := by
  have hg : granted nunits = nunits := if_neg (by omega)
  have hlt : request nunits < 2 ^ 31 := by
    unfold request
    have := Int.bmod_lt (x := granted nunits * UNIT) (m := 2 ^ 32) (by decide)
    omega
  rw [hg]
  unfold UNIT
  omega

theorem units_lt_iff : units nbytes < 2 ^ 27 ↔ nbytes ≤ 2 ^ 31 - 32 := by
  unfold units UNIT
  omega

theorem searchCalls_arg (hc : c ∈ searchCalls sbrk nunits n p h) : c.1 = request nunits := by
  induction n generalizing p h with
  | zero => cases hc
  | succ n ih =>
    unfold searchCalls at hc
    split_ifs at hc
    · cases hc
    · obtain hc | hc := List.mem_cons.1 hc
      · rw [hc]
      · split at hc
        · cases hc
        · split_ifs at hc
          · cases hc
          · exact ih hc
    · exact ih hc

theorem le_sizeAfter {calls : List (ℤ × Option ℕ)} (hpos : ∀ c ∈ calls, 0 < c.1) (sz : ℕ) :
    sz ≤ sizeAfter sz calls := by
  induction calls generalizing sz with
  | nil => exact le_rfl
  | cons c calls ih =>
    have hstep : sz ≤ if c.2.isSome then Vm.grownSize sz c.1 else sz := by
      split_ifs
      · exact Vm.le_grownSize (hpos c List.mem_cons_self).le
      · exact le_rfl
    exact hstep.trans (ih (fun d hd => hpos d (List.mem_cons_of_mem _ hd)) _)

/-- Only what `sbrk` returns for the request matters. -/
theorem search_congr (heq : ∀ rs, sbrk rs (request nunits) = sbrk' rs (request nunits)) :
    search sbrk nunits n prevp p h = search sbrk' nunits n prevp p h := by
  induction n generalizing prevp p h with
  | zero => rfl
  | succ n ih =>
    have hmore : morecore sbrk n nunits h = morecore sbrk' n nunits h := by
      rw [morecore_eq, morecore_eq, heq]
    simp only [search, hmore, ih]

/-- The loop passes the nodes that are too small without a call. -/
theorem searchCalls_skip (sbrk : Sbrk) {l r : List ℕ} {f q : ℕ}
    (hlink : Linked (fun a => (h.mem a).ptr) (f :: (l ++ q :: r)))
    (hl : ∀ a ∈ l, (h.mem a).size < nunits ∧ a ≠ h.freep) (n : ℕ) :
    searchCalls sbrk nunits (l.length + n) (h.mem f).ptr h = searchCalls sbrk nunits n q h := by
  induction l generalizing f with
  | nil =>
    have hq : (h.mem f).ptr = q := (linked_cons_cons.mp hlink).1
    rw [hq, List.length_nil, Nat.zero_add]
  | cons a l ih =>
    obtain ⟨hfa, hrest⟩ := linked_cons_cons.mp hlink
    obtain ⟨hsmall, hne⟩ := hl a List.mem_cons_self
    rw [hfa, List.length_cons, Nat.add_right_comm, searchCalls, if_neg (by omega), if_neg hne]
    exact ih hrest fun b hb => hl b (List.mem_cons_of_mem _ hb)

/-- The first node that is large enough ends the loop, without a call. -/
theorem searchCalls_fit (sbrk : Sbrk) {l r : List ℕ} {f q : ℕ}
    (hlink : Linked (fun a => (h.mem a).ptr) (f :: (l ++ q :: r)))
    (hl : ∀ a ∈ l, (h.mem a).size < nunits ∧ a ≠ h.freep) (hq : nunits ≤ (h.mem q).size) (n : ℕ) :
    searchCalls sbrk nunits n (h.mem f).ptr h = [] := by
  induction l generalizing f n with
  | nil =>
    have hfq : (h.mem f).ptr = q := (linked_cons_cons.mp hlink).1
    cases n with
    | zero => rfl
    | succ n => rw [hfq, searchCalls, if_pos hq]
  | cons a l ih =>
    obtain ⟨hfa, hrest⟩ := linked_cons_cons.mp hlink
    obtain ⟨hsmall, hne⟩ := hl a List.mem_cons_self
    cases n with
    | zero => rfl
    | succ n =>
      rw [hfa, searchCalls, if_neg (by omega), if_neg hne]
      exact ih hrest (fun b hb => hl b (List.mem_cons_of_mem _ hb)) n

/-- When no block is large enough, `sbrk` is called. -/
theorem FreeList.searchCalls_full (hF : FreeList base h F) (sbrk : Sbrk) (hpos : 0 < nunits)
    (hno : ∀ c ∈ F, c.len < UNIT * nunits) :
    ∃ n, searchCalls sbrk nunits n (h.mem h.freep).ptr h ≠ [] := by
  obtain ⟨l, hlink, hnot, -, hnodes⟩ := hF.round
  have hsmall : ∀ a ∈ l ++ [h.freep], (h.mem a).size < nunits := fun a ha =>
    hF.nodes_small hpos hno ((hnodes a).mp ha)
  have hl : ∀ a ∈ l, (h.mem a).size < nunits ∧ a ≠ h.freep := fun a ha =>
    ⟨hsmall a (List.mem_append_left _ ha), fun heq => hnot (heq ▸ ha)⟩
  have hfreep := hsmall h.freep (by simp)
  refine ⟨l.length + 1, ?_⟩
  rw [searchCalls_skip sbrk hlink hl 1, searchCalls, if_neg (by omega), if_pos rfl]
  exact List.cons_ne_nil _ _

/-- The restriction of `sbrk` to requests for more. -/
def onlyMore (sbrk : Sbrk) : Sbrk := fun rs k => if 0 < k then sbrk rs k else none

theorem SbrkGrows.ok (hs : SbrkGrows base sbrk) :
    SbrkOk base (onlyMore sbrk) ∧ Roomy (onlyMore sbrk) := by
  have hmore : ∀ rs k a, onlyMore sbrk rs k = some a → 0 < k ∧ sbrk rs k = some a := by
    intro rs k a ha
    unfold onlyMore at ha
    split_ifs at ha with hk
    exact ⟨hk, ha⟩
  constructor
  · intro rs k a ha
    obtain ⟨hk, ha⟩ := hmore rs k a ha
    obtain ⟨hbase, habove, hstop, -⟩ := hs rs k a hk ha
    exact ⟨hk.le, hbase, habove, hstop⟩
  · intro rs k a ha
    obtain ⟨hk, ha⟩ := hmore rs k a ha
    exact (hs rs k a hk ha).2.2.2

theorem bytes_mem_of_taken {h₁ h' : Heap} {F₁ F' rs : List Span} {ap : ℕ} {b : Span}
    (hg : Grown base h F rs h₁ F₁) (ht : Taken base h₁ F₁ (units nbytes) ap h' F' b)
    (hcov : cover F ⊆ cover h.regions) {x : ℕ} (hlo : ap ≤ x) (hhi : x < ap + nbytes) :
    x ∈ cover h'.regions := by
  have hb : x ∈ b.bytes := by
    have hptr := ht.ptr
    have hlen := ht.len
    refine Set.mem_Ico.2 ⟨by omega, ?_⟩
    unfold Span.stop units UNIT at *
    omega
  have hx : x ∈ cover F₁ := by
    rw [ht.cover]
    exact .inl hb
  rw [ht.regions, hg.regions, cover_append]
  rw [hg.cover] at hx
  exact hx.imp id fun hxF => hcov hxF

/-- `malloc(nbytes)` asks `sbrk` for the right amount exactly if that fits in an `int`, or if
it need not ask. -/
theorem asksRight_iff (hbase : 0 < base) (hb64 : base < 2 ^ 64) (hc : Consistent base s)
    (hb : Bounded base s.heap) (hs : SbrkGrows base sbrk) :
    AsksRight base sbrk nbytes s.heap ↔
      nbytes ≤ 2 ^ 31 - 32 ∨ Fits base (units nbytes) s := by
  obtain ⟨⟨F, hF⟩, hregions⟩ := hc.ready hbase hb64
  have hcov : cover F ⊆ cover (ready base s.heap).regions := by
    rw [← hF.covers]
    exact Set.subset_union_left
  have htot : total F ≤ total (ready base s.heap).regions := by
    rw [← hF.sum]
    exact Nat.le_add_right _ _
  have hroom : total (ready base s.heap).regions < UNIT * 2 ^ 32 := hregions ▸ hb.room
  rw [← units_lt_iff]
  constructor
  · intro h
    by_contra hno
    push Not at hno
    obtain ⟨hbig, hfit⟩ := hno
    have hsmall : ∀ c ∈ F, c.len < UNIT * units nbytes := by
      intro c hc
      by_contra hge
      exact hfit ⟨F, hF, c, hc, not_lt.1 hge⟩
    obtain ⟨n, hn⟩ := hF.free.searchCalls_full sbrk (units_pos nbytes) hsmall
    obtain ⟨c, hcalls⟩ := List.exists_mem_of_ne_nil _ hn
    have harg := (h.asked n c hcalls).1
    rw [searchCalls_arg hcalls] at harg
    exact request_ne hbig harg
  · rintro (hlt | ⟨F', hF', hfit⟩)
    · obtain ⟨hreq, hpos⟩ := request_eq hlt
      obtain ⟨hok, hroomy⟩ := hs.ok
      have hasked : ∀ n, ∀ c ∈ mallocCalls base sbrk n nbytes s.heap,
          c.1 = granted (units nbytes) * UNIT ∧ 0 < c.1 := by
        intro n c hc
        rw [searchCalls_arg hc]
        exact ⟨hreq, hpos⟩
      refine ⟨hasked, fun n sz => le_sizeAfter (fun c hc => (hasked n c hc).2) sz, ?_⟩
      have heq : ∀ rs, sbrk rs (request (units nbytes)) =
          onlyMore sbrk rs (request (units nbytes)) := fun rs => (if_pos hpos).symm
      obtain ⟨n, hrun⟩ | ⟨rs, h₁, F₁, ap, h', F', b, hg, ht, n, hrun⟩ :=
        hF.free.search hbase hok hroomy (units_pos nbytes) (by omega) hcov htot hroom
      · exact ⟨n, 0, _, (search_congr heq).trans hrun, .inl rfl⟩
      · exact ⟨n, ap, h', (search_congr heq).trans hrun,
          .inr fun x hlo hhi => bytes_mem_of_taken hg ht hcov hlo hhi⟩
    · have hcov' : cover F' ⊆ cover (ready base s.heap).regions := by
        rw [← hF'.covers]
        exact Set.subset_union_left
      obtain ⟨as, q, bs, hlink, has, hq, -, -, -⟩ := hF'.free.first_fit (units_pos nbytes) hfit
      have hnone : ∀ n, mallocCalls base sbrk n nbytes s.heap = [] :=
        searchCalls_fit sbrk hlink has hq
      obtain ⟨ap, h', F'', b, ht, hrun⟩ := hF'.free.search_fit sbrk (units_pos nbytes) hfit
      refine ⟨fun n c hc => ?_, fun n sz => ?_, _, ap, h', hrun _ le_rfl, .inr fun x hlo hhi =>
        bytes_mem_of_taken (.refl hF'.free hroom) ht hcov' hlo hhi⟩
      · rw [hnone] at hc
        cases hc
      · rw [hnone]
        exact le_rfl

end

/-! ### Requests of a first call -/

/-- An `sbrk` as the kernel has it, for a process of 8000 bytes: the first call returns the end
of the memory, also when the request is negative, and later ones fail. -/
def oneCall : Sbrk := fun rs k => if rs = [] ∧ k < 2 ^ 31 then some 8000 else none

theorem oneCall_grows : SbrkGrows 16 oneCall := by
  intro rs k a hk ha
  unfold oneCall at ha
  split_ifs at ha with hrs
  obtain ⟨rfl, hlt⟩ := hrs
  cases ha
  refine ⟨by decide, (fun r hr => nomatch hr), by omega, ?_⟩
  rw [total_nil]
  unfold UNIT
  omega

/-- `malloc(0xffffffe0)` asks `sbrk` for -16 bytes: the process loses 16 bytes, and the block
that is returned starts behind its end. -/
theorem malloc_shrinks : ¬AsksRight 16 oneCall (2 ^ 32 - 32) start.heap ∧
    mallocCalls 16 oneCall 9 (2 ^ 32 - 32) start.heap = [(-16, some 8000)] ∧
    sizeAfter 8000 [(-16, some 8000)] = 7984 ∧
    (malloc 16 oneCall 9 (2 ^ 32 - 32) start.heap).map (fun r => (r.1, r.2.regions)) =
      some (8016, [⟨8000, 0⟩]) := by
  have hcalls : mallocCalls 16 oneCall 9 (2 ^ 32 - 32) start.heap = [(-16, some 8000)] := by
    decide +kernel
  refine ⟨fun h => ?_, hcalls, by decide +kernel, by decide +kernel⟩
  have hpos := (h.asked 9 (-16, some 8000) (by rw [hcalls]; exact List.mem_singleton_self _)).2
  exact absurd hpos (by decide)

/-- The largest request that is passed on as it is. -/
theorem asksRight_largest : AsksRight 16 oneCall (2 ^ 31 - 32) start.heap :=
  (asksRight_iff (s := start) (by decide) (by decide) (.inl ⟨rfl, rfl, rfl⟩)
    ⟨(fun r hr => nomatch hr), by decide⟩ oneCall_grows).2 (.inl le_rfl)

end Umalloc
end Xv6
