import Xv6.Fs.BufferCache

/-!
The buffer cache shows, block by block, what was last written. The invariant says of each
buffer how its reference count, its lock and its data suit the calls that have it and the
log; a step of a call concerns one buffer and one block.
-/

namespace Xv6
namespace BufferCache

def Phase.owns : Phase → Bool
  | filling | held _ _ => true
  | _ => false

/-- Call `t` is `r`, and has buffer `i`. -/
def On (calls : ℕ → Option Call) (i t : ℕ) (r : Call) : Prop := calls t = some r ∧ r.buf = i

def users (calls : ℕ → Option Call) (i : ℕ) : Set ℕ := { t | ∃ r, On calls i t r }

/-- Buffer `x` at place `i` suits the calls that have it, whether its block is `pinned`,
and what was last written to the block (`w`) and is on disk (`d`). -/
structure BufOk (dev : ℕ) (calls : ℕ → Option Call) (i : ℕ) (x : Buf) (pinned : Bool)
    (w d : Block) : Prop where
  finite : (users calls i).Finite
  refcnt : x.refcnt = (users calls i).ncard + pinned.toNat
  locked : x.locked = true ↔ ∃ t r, On calls i t r ∧ r.phase.owns = true
  owner : ∀ t u r q, On calls i t r → On calls i u q → r.phase.owns = true →
    q.phase.owns = true → t = u
  block : ∀ t r, On calls i t r → x.dev = dev ∧ x.blockno = r.block
  filling : ∀ t r, On calls i t r → r.phase = .filling → x.valid = false
  held : ∀ t r a y, On calls i t r → r.phase = .held a y →
    x.valid = true ∧ (y = true → a = false ∧ d = w)
  data : x.dev = dev → x.valid = true → (∀ t r y, On calls i t r → r.phase ≠ .held true y) →
    x.data = w
  pinned : pinned = true → x.dev = dev ∧ x.valid = true

/-- The block of buffer `i` is in the log. -/
def Machine.pins (dev : ℕ) (m : Machine) (i : ℕ) : Bool :=
  decide ((m.buf i).dev = dev ∧ (m.buf i).blockno ∈ m.lh)

def Machine.Caches (dev : ℕ) (m : Machine) (i b : ℕ) : Prop :=
  i < NBUF ∧ (m.buf i).dev = dev ∧ (m.buf i).blockno = b

structure Inv (dev : ℕ) (m : Machine) : Prop where
  lru : ∀ i, i ∈ m.store.lru ↔ i < NBUF
  range : ∀ t r, m.calls t = some r → r.buf < NBUF
  unique : ∀ i j b, m.Caches dev i b → m.Caches dev j b → i = j
  nodup : m.lh.Nodup
  cached : ∀ b, b ∈ m.lh → ∃ i, m.Caches dev i b
  clean : ∀ b, b ∉ m.lh → m.store.disk.get b = m.written b
  buf : ∀ i, i < NBUF → BufOk dev m.calls i (m.buf i) (m.pins dev i)
    (m.written (m.buf i).blockno) (m.store.disk.get (m.buf i).blockno)

section
variable {dev : ℕ} {calls : ℕ → Option Call} {i t : ℕ} {x x' : Buf} {pinned pinned' : Bool}
  {w w' d d' : Block} {r : Call}

theorem on_update_iff {o : Option Call} {u : ℕ} {q : Call} :
    On (Function.update calls t o) i u q ↔
      (u = t ∧ o = some q ∧ q.buf = i) ∨ (u ≠ t ∧ On calls i u q) := by
  unfold On
  by_cases hu : u = t
  · simp [hu]
  · simp [hu]

theorem BufOk.frame {o : Option Call} (h : BufOk dev calls i x pinned w d)
    (hold : ∀ r, calls t = some r → r.buf ≠ i) (hnew : ∀ r, o = some r → r.buf ≠ i) :
    BufOk dev (Function.update calls t o) i x pinned w d := by
  have hon : On (Function.update calls t o) i = On calls i := by
    funext u q
    rw [eq_iff_iff, on_update_iff]
    constructor
    · rintro (⟨-, ho, hq⟩ | ⟨-, hu⟩)
      · exact absurd hq (hnew q ho)
      · exact hu
    · intro hu
      refine .inr ⟨?_, hu⟩
      rintro rfl
      exact hold q hu.1 hu.2
  have huser : users (Function.update calls t o) i = users calls i := by
    unfold users
    rw [hon]
  refine ⟨huser ▸ h.finite, huser ▸ h.refcnt, ?_, ?_, ?_, ?_, ?_, ?_, h.pinned⟩ <;>
    simp only [hon]
  · exact h.locked
  · exact h.owner
  · exact h.block
  · exact h.filling
  · exact h.held
  · exact h.data

/-- A call moves on with its buffer, which no other call has locked. -/
theorem BufOk.move {ph : Phase} (h : BufOk dev calls i x pinned w d) (hr : On calls i t r)
    (hx : x'.dev = x.dev ∧ x'.blockno = x.blockno)
    (hcount : x'.refcnt + pinned.toNat = x.refcnt + pinned'.toNat)
    (hfree : ∀ u q, u ≠ t → On calls i u q → q.phase.owns = false)
    (hlock : x'.locked = ph.owns) (hfill : ph = .filling → x'.valid = false)
    (hheld : ∀ a y, ph = .held a y → x'.valid = true ∧ (y = true → a = false ∧ d' = w'))
    (hdata : x'.valid = true → (∀ y, ph ≠ .held true y) → x'.data = w')
    (hpin : pinned' = true → x'.valid = true) :
    BufOk dev (Function.update calls t (some { r with phase := ph })) i x' pinned' w' d' := by
  have hnew : On (Function.update calls t (some { r with phase := ph })) i t
      { r with phase := ph } := on_update_iff.2 (.inl ⟨rfl, rfl, hr.2⟩)
  have huser : users (Function.update calls t (some { r with phase := ph })) i = users calls i := by
    ext u
    constructor
    · rintro ⟨q, hq⟩
      rcases on_update_iff.1 hq with ⟨rfl, -, -⟩ | ⟨-, hu⟩
      · exact ⟨r, hr⟩
      · exact ⟨q, hu⟩
    · rintro ⟨q, hq⟩
      by_cases hu : u = t
      · rw [hu]
        exact ⟨_, hnew⟩
      · exact ⟨q, on_update_iff.2 (.inr ⟨hu, hq⟩)⟩
  have hown : ∀ u q, On (Function.update calls t (some { r with phase := ph })) i u q →
      q.phase.owns = true → u = t ∧ q = { r with phase := ph } := by
    intro u q hq ho
    rcases on_update_iff.1 hq with ⟨rfl, hq, -⟩ | ⟨hu, hq⟩
    · exact ⟨rfl, (Option.some.inj hq).symm⟩
    · rw [hfree u q hu hq] at ho
      cases ho
  obtain ⟨hdev, -⟩ := h.block t r hr
  refine ⟨huser ▸ h.finite, ?_, ?_, ?_, ?_, ?_, ?_, ?_, ?_⟩
  · rw [huser]
    have := h.refcnt
    omega
  · rw [hlock]
    constructor
    · exact fun ho => ⟨t, _, hnew, ho⟩
    · rintro ⟨u, q, hq, ho⟩
      obtain ⟨-, rfl⟩ := hown u q hq ho
      exact ho
  · intro u v q q' hq hq' ho ho'
    rw [(hown u q hq ho).1, (hown v q' hq' ho').1]
  · intro u q hq
    rw [hx.1, hx.2]
    rcases on_update_iff.1 hq with ⟨-, hq, -⟩ | ⟨-, hq⟩
    · cases hq
      exact h.block t r hr
    · exact h.block u q hq
  · intro u q hq hph
    obtain ⟨-, rfl⟩ := hown u q hq (by rw [hph]; rfl)
    exact hfill hph
  · intro u q a y hq hph
    obtain ⟨-, rfl⟩ := hown u q hq (by rw [hph]; rfl)
    exact hheld a y hph
  · intro _ hv hnot
    exact hdata hv fun y => hnot t _ y hnew
  · exact fun hp => ⟨hx.1.trans hdev, hpin hp⟩

/-- A call that has the lock of the buffer is the only one. -/
theorem BufOk.exclusive (h : BufOk dev calls i x pinned w d) (hr : On calls i t r)
    (ho : r.phase.owns = true) (u : ℕ) (q : Call) (hu : u ≠ t) (hq : On calls i u q) :
    q.phase.owns = false := by
  rw [← Bool.not_eq_true]
  exact fun hqo => hu (h.owner u t q r hq hr hqo ho)

theorem BufOk.enter {b : ℕ} (h : BufOk dev calls i x pinned w d) (ht : calls t = none)
    (hx : x.dev = dev ∧ x.blockno = b) :
    BufOk dev (Function.update calls t (some ⟨i, b, .waiting⟩)) i
      { x with refcnt := x.refcnt + 1 } pinned w d := by
  have hnot : t ∉ users calls i := by
    rintro ⟨r, hr, -⟩
    rw [ht] at hr
    cases hr
  have huser : users (Function.update calls t (some ⟨i, b, .waiting⟩)) i =
      insert t (users calls i) := by
    ext u
    constructor
    · rintro ⟨q, hq⟩
      rcases on_update_iff.1 hq with ⟨rfl, -, -⟩ | ⟨-, hq⟩
      · exact Set.mem_insert _ _
      · exact Set.mem_insert_of_mem _ ⟨q, hq⟩
    · rintro (rfl | ⟨q, hq⟩)
      · exact ⟨_, on_update_iff.2 (.inl ⟨rfl, rfl, rfl⟩)⟩
      · refine ⟨q, on_update_iff.2 (.inr ⟨?_, hq⟩)⟩
        rintro rfl
        exact hnot ⟨q, hq⟩
  have hold : ∀ u q, On (Function.update calls t (some ⟨i, b, .waiting⟩)) i u q →
      q.phase ≠ .waiting → On calls i u q := by
    intro u q hq hph
    rcases on_update_iff.1 hq with ⟨-, hq, -⟩ | ⟨-, hq⟩
    · cases hq
      exact absurd rfl hph
    · exact hq
  have hkeep : ∀ u q, On calls i u q → On (Function.update calls t (some ⟨i, b, .waiting⟩)) i u q := by
    intro u q hq
    refine on_update_iff.2 (.inr ⟨?_, hq⟩)
    rintro rfl
    exact hnot ⟨q, hq⟩
  have howns : ∀ q : Call, q.phase.owns = true → q.phase ≠ .waiting := by
    intro q ho hph
    rw [hph] at ho
    cases ho
  refine ⟨huser ▸ h.finite.insert t, ?_, ?_, ?_, ?_, ?_, ?_, ?_, ?_⟩
  · rw [huser, Set.ncard_insert_of_notMem hnot h.finite]
    have := h.refcnt
    simp only
    omega
  · rw [h.locked]
    constructor
    · rintro ⟨u, q, hq, ho⟩
      exact ⟨u, q, hkeep u q hq, ho⟩
    · rintro ⟨u, q, hq, ho⟩
      exact ⟨u, q, hold u q hq (howns q ho), ho⟩
  · intro u v q q' hq hq' ho ho'
    exact h.owner u v q q' (hold u q hq (howns q ho)) (hold v q' hq' (howns q' ho')) ho ho'
  · intro u q hq
    rcases on_update_iff.1 hq with ⟨-, hq, -⟩ | ⟨-, hq⟩
    · cases hq
      exact hx
    · exact h.block u q hq
  · exact fun u q hq hph => h.filling u q (hold u q hq (by simp [hph])) hph
  · exact fun u q a y hq hph => h.held u q a y (hold u q hq (by simp [hph])) hph
  · exact fun hd hv hnot => h.data hd hv fun u q y hq => hnot u q y (hkeep u q hq)
  · exact h.pinned

theorem BufOk.recycle {b : ℕ} (h : BufOk dev calls i x pinned w d) (ht : calls t = none)
    (h0 : x.refcnt = 0) :
    BufOk dev (Function.update calls t (some ⟨i, b, .waiting⟩)) i
      { x with dev := dev, blockno := b, valid := false, refcnt := 1 } false w' d' := by
  have hempty : ∀ u q, ¬ On calls i u q := by
    intro u q hq
    have hcard : (users calls i).ncard = 0 := by
      have := h.refcnt
      omega
    rw [Set.ncard_eq_zero h.finite] at hcard
    have : u ∈ users calls i := ⟨q, hq⟩
    rw [hcard] at this
    exact this
  have hon : ∀ u q, On (Function.update calls t (some ⟨i, b, .waiting⟩)) i u q →
      u = t ∧ q = ⟨i, b, .waiting⟩ := by
    intro u q hq
    rcases on_update_iff.1 hq with ⟨hu, hq, -⟩ | ⟨-, hq⟩
    · exact ⟨hu, (Option.some.inj hq).symm⟩
    · exact absurd hq (hempty u q)
  have huser : users (Function.update calls t (some ⟨i, b, .waiting⟩)) i = {t} := by
    ext u
    constructor
    · rintro ⟨q, hq⟩
      exact (hon u q hq).1
    · rintro rfl
      exact ⟨_, on_update_iff.2 (.inl ⟨rfl, rfl, rfl⟩)⟩
  refine ⟨huser ▸ Set.finite_singleton t, by simp [huser], ?_, ?_, ?_, ?_, ?_, ?_, nofun⟩
  · constructor
    · intro hl
      obtain ⟨u, q, hq, -⟩ := h.locked.1 hl
      exact absurd hq (hempty u q)
    · rintro ⟨u, q, hq, ho⟩
      rw [(hon u q hq).2] at ho
      cases ho
  · intro u v q q' hq hq' _ _
    rw [(hon u q hq).1, (hon v q' hq').1]
  · intro u q hq
    rw [(hon u q hq).2]
    exact ⟨rfl, rfl⟩
  · exact fun _ _ _ _ => rfl
  · intro u q a y hq hph
    rw [(hon u q hq).2] at hph
    cases hph
  · exact fun _ hv => nomatch hv

theorem BufOk.leave (h : BufOk dev calls i x pinned w d) (hr : On calls i t r)
    (hph : r.phase = .leaving) :
    BufOk dev (Function.update calls t none) i { x with refcnt := x.refcnt - 1 } pinned w d := by
  have hon : ∀ u q, On (Function.update calls t none) i u q ↔ u ≠ t ∧ On calls i u q := by
    intro u q
    rw [on_update_iff]
    simp
  have huser : users (Function.update calls t none) i = users calls i \ {t} := by
    ext u
    simp only [users, Set.mem_ofPred_eq, hon, Set.mem_sdiff, Set.mem_singleton_iff]
    constructor
    · rintro ⟨q, hu, hq⟩
      exact ⟨⟨q, hq⟩, hu⟩
    · rintro ⟨⟨q, hq⟩, hu⟩
      exact ⟨q, hu, hq⟩
  have hmem : t ∈ users calls i := ⟨r, hr⟩
  have hcard := Set.ncard_sdiff_singleton_add_one hmem h.finite
  have hkeep : ∀ u q, On calls i u q → q.phase ≠ .leaving → u ≠ t := by
    rintro u q hq hne rfl
    have := hq.1.symm.trans hr.1
    cases this
    exact hne hph
  refine ⟨huser ▸ h.finite.sdiff, ?_, ?_, ?_, ?_, ?_, ?_, ?_, h.pinned⟩
  · rw [huser]
    have := h.refcnt
    simp only
    omega
  · rw [h.locked]
    constructor
    · rintro ⟨u, q, hq, ho⟩
      refine ⟨u, q, (hon u q).2 ⟨hkeep u q hq ?_, hq⟩, ho⟩
      intro he
      rw [he] at ho
      cases ho
    · rintro ⟨u, q, hq, ho⟩
      exact ⟨u, q, ((hon u q).1 hq).2, ho⟩
  · intro u v q q' hq hq'
    exact h.owner u v q q' ((hon u q).1 hq).2 ((hon v q').1 hq').2
  · exact fun u q hq => h.block u q ((hon u q).1 hq).2
  · exact fun u q hq => h.filling u q ((hon u q).1 hq).2
  · exact fun u q a y hq => h.held u q a y ((hon u q).1 hq).2
  · refine fun hd hv hnot => h.data hd hv fun u q y hq hph' => ?_
    exact hnot u q y ((hon u q).2 ⟨hkeep u q hq (by simp [hph']), hq⟩) hph'

end

section
variable {dev : ℕ} {m m' : Machine} {i b t : ℕ} {r : Call}

/-- A step of call `t` on its buffer `i` touches no other buffer and no other block. -/
structure Local (m : Machine) (t i b : ℕ) (o : Option Call) (x : Buf) (m' : Machine) : Prop where
  calls : m'.calls = Function.update m.calls t o
  same : ∀ r, o = some r → r.buf = i
  buf : ∀ j, m'.buf j = if j = i then x else m.buf j
  dev : x.dev = (m.buf i).dev
  blockno : x.blockno = (m.buf i).blockno
  lru : ∀ j, j ∈ m'.store.lru ↔ j ∈ m.store.lru
  nodup : m.lh.Nodup → m'.lh.Nodup
  lh : ∀ c, c ≠ b → (c ∈ m'.lh ↔ c ∈ m.lh)
  written : ∀ c, c ≠ b → m'.written c = m.written c
  disk : ∀ c, c ≠ b → m'.store.disk.get c = m.store.disk.get c

theorem Inv.local {o : Option Call} {x : Buf} (h : Inv dev m) (hib : m.Caches dev i b)
    (hold : ∀ r, m.calls t = some r → r.buf = i) (hl : Local m t i b o x m')
    (hclean : b ∉ m'.lh → m'.store.disk.get b = m'.written b)
    (hok : BufOk dev m'.calls i x (decide (b ∈ m'.lh)) (m'.written b) (m'.store.disk.get b)) :
    Inv dev m' := by
  obtain ⟨hi, hdev, hblk⟩ := id hib
  have hself : m'.buf i = x := by rw [hl.buf, if_pos rfl]
  have hother : ∀ j, j ≠ i → m'.buf j = m.buf j := fun j hj => by rw [hl.buf, if_neg hj]
  have hcaches : ∀ j c, m'.Caches dev j c ↔ m.Caches dev j c := by
    intro j c
    unfold Machine.Caches
    by_cases hj : j = i
    · rw [hj, hself, hl.dev, hl.blockno]
    · rw [hother j hj]
  refine ⟨fun j => (hl.lru j).trans (h.lru j), ?_, ?_, hl.nodup h.nodup, ?_, ?_, ?_⟩
  · intro u q hq
    rw [hl.calls] at hq
    by_cases hu : u = t
    · rw [hu, Function.update_self] at hq
      rw [hl.same q hq]
      exact hi
    · rw [Function.update_of_ne hu] at hq
      exact h.range u q hq
  · intro j k c hj hk
    exact h.unique j k c ((hcaches j c).1 hj) ((hcaches k c).1 hk)
  · intro c hc
    by_cases hcb : c = b
    · exact ⟨i, (hcaches i c).2 (hcb ▸ hib)⟩
    · obtain ⟨j, hj⟩ := h.cached c ((hl.lh c hcb).1 hc)
      exact ⟨j, (hcaches j c).2 hj⟩
  · intro c hc
    by_cases hcb : c = b
    · subst hcb
      exact hclean hc
    · rw [hl.disk c hcb, hl.written c hcb]
      exact h.clean c fun hm => hc ((hl.lh c hcb).2 hm)
  · intro j hj
    by_cases hji : j = i
    · subst hji
      have hpins : m'.pins dev j = decide (b ∈ m'.lh) := by
        simp [Machine.pins, hself, hl.dev, hl.blockno, hdev, hblk]
      rw [hpins, hself, hl.blockno, hblk]
      exact hok
    · have hne : (m.buf j).dev = dev → (m.buf j).blockno ≠ b := by
        intro hd he
        exact hji (h.unique j i b ⟨hj, hd, he⟩ hib)
      have hpins : m'.pins dev j = m.pins dev j := by
        unfold Machine.pins
        rw [hother j hji]
        by_cases hd : (m.buf j).dev = dev
        · simp [hd, hl.lh _ (hne hd)]
        · simp [hd]
      have hframe := (h.buf j hj).frame (t := t) (o := o)
        (fun q hq hqj => hji (hqj ▸ hold q hq))
        (fun q hq hqj => hji (hqj ▸ hl.same q hq))
      rw [hpins, hother j hji, hl.calls]
      by_cases hd : (m.buf j).dev = dev
      · rw [hl.written _ (hne hd), hl.disk _ (hne hd)]
        exact hframe
      · refine ⟨hframe.finite, hframe.refcnt, hframe.locked, hframe.owner, hframe.block,
          hframe.filling, ?_, fun h => absurd h hd, hframe.pinned⟩
        exact fun u q a y hq => absurd (hframe.block u q hq).1 hd

/-- No buffer with references changes its block. -/
def Keeps (m m' : Machine) : Prop :=
  ∀ i, i < NBUF → 0 < (m.buf i).refcnt →
    (m'.buf i).dev = (m.buf i).dev ∧ (m'.buf i).blockno = (m.buf i).blockno

theorem Local.keeps {o : Option Call} {x : Buf} (hl : Local m t i b o x m') : Keeps m m' := by
  intro j _ _
  rw [hl.buf]
  split_ifs with hj
  · rw [hj]
    exact ⟨hl.dev, hl.blockno⟩
  · exact ⟨rfl, rfl⟩

theorem Inv.on (h : Inv dev m) (hr : On m.calls i t r) :
    BufOk dev m.calls i (m.buf i) (decide (r.block ∈ m.lh)) (m.written r.block)
      (m.store.disk.get r.block) ∧ (m.buf i).blockno = r.block := by
  have hi : i < NBUF := hr.2 ▸ h.range t r hr.1
  have hok := h.buf i hi
  obtain ⟨hdev, hblk⟩ := hok.block t r hr
  have hpins : m.pins dev i = decide (r.block ∈ m.lh) := by simp [Machine.pins, hdev, hblk]
  rw [hpins, hblk] at hok
  exact ⟨hok, hblk⟩

theorem Inv.local_on {o : Option Call} {x : Buf} (h : Inv dev m) (hr : On m.calls i t r)
    (hl : Local m t i r.block o x m')
    (hclean : r.block ∉ m'.lh → m'.store.disk.get r.block = m'.written r.block)
    (hok : BufOk dev m'.calls i x (decide (r.block ∈ m'.lh)) (m'.written r.block)
      (m'.store.disk.get r.block)) : Inv dev m' := by
  have hi : i < NBUF := hr.2 ▸ h.range t r hr.1
  obtain ⟨hdev, hblk⟩ := (h.buf i hi).block t r hr
  refine h.local ⟨hi, hdev, hblk⟩ (fun q hq => ?_) hl hclean hok
  rw [hr.1, Option.some.injEq] at hq
  exact hq ▸ hr.2

theorem local_setBuf {x : Buf} {ph : Phase} (hr : On m.calls i t r)
    (hx : x.dev = (m.buf i).dev ∧ x.blockno = (m.buf i).blockno) :
    Local m t i b (some { r with phase := ph }) x
      (m.after t (some { r with phase := ph }) (m.store.setBuf i x)) where
  calls := rfl
  same q hq := by
    cases hq
    exact hr.2
  buf j := TMap.get_set m.store.bufs i j x
  dev := hx.1
  blockno := hx.2
  lru _ := Iff.rfl
  nodup := id
  lh _ _ := Iff.rfl
  written _ _ := rfl
  disk _ _ := rfl

/-- What a step of call `t` comes to: it returns, and the invariant is kept. -/
def Goes (dev : ℕ) (m : Machine) (op : Op) : Prop :=
  ∃ m', step dev m op = some (.ok m') ∧ Inv dev m' ∧ Keeps m m'

theorem Inv.goes_acquire (h : Inv dev m) (hc : m.calls t = some ⟨i, b, .waiting⟩)
    (hl : (m.buf i).locked = false) : Goes dev m (.acquire t) := by
  have hr : On m.calls i t ⟨i, b, .waiting⟩ := ⟨hc, rfl⟩
  obtain ⟨hok, -⟩ := h.on hr
  let ph : Phase := if (m.buf i).valid then .held false false else .filling
  let x : Buf := { m.buf i with locked := true }
  have hloc : Local m t i b (some ⟨i, b, ph⟩) x (m.after t (some ⟨i, b, ph⟩) (m.store.setBuf i x)) :=
    local_setBuf (r := ⟨i, b, .waiting⟩) hr ⟨rfl, rfl⟩
  refine ⟨_, ?_, h.local_on hr hloc (h.clean b) (hok.move hr ⟨rfl, rfl⟩ rfl ?_ ?_ ?_ ?_ ?_ ?_),
    hloc.keeps⟩
  · simp only [step, hc, hl, result, acquireBuf_run hl]
    rfl
  · intro u q _ hq
    rw [← Bool.not_eq_true]
    intro ho
    have := hok.locked.2 ⟨u, q, hq, ho⟩
    rw [hl] at this
    cases this
  · simp only [x, ph]
    cases (m.buf i).valid <;> rfl
  · intro hph
    by_contra hv
    rw [Bool.not_eq_false] at hv
    simp only [ph, show (m.buf i).valid = true from hv, if_true] at hph
    cases hph
  · intro a y hph
    cases hv : (m.buf i).valid
    · simp only [ph, hv] at hph
      cases hph
    · simp only [ph, hv, if_true] at hph
      cases hph
      exact ⟨rfl, nofun⟩
  · intro hv _
    refine hok.data (hok.block t _ hr).1 hv fun u q y hq hph => ?_
    have := hok.locked.2 ⟨u, q, hq, by rw [hph]; rfl⟩
    rw [hl] at this
    cases this
  · exact fun hp => (hok.pinned hp).2

theorem Inv.goes_fill (h : Inv dev m) (hc : m.calls t = some ⟨i, b, .filling⟩) :
    Goes dev m (.fill t) := by
  have hr : On m.calls i t ⟨i, b, .filling⟩ := ⟨hc, rfl⟩
  obtain ⟨hok, hblk⟩ := h.on hr
  have hv := hok.filling t _ hr rfl
  have hnot : b ∉ m.lh := by
    intro hm
    have := (hok.pinned (by simpa using hm)).2
    rw [hv] at this
    cases this
  let x : Buf := { m.buf i with data := m.store.disk.get b, valid := true }
  have hrun : breadFill i m.store = .ok () (m.store.setBuf i x) := by
    rw [breadFill_run hv, show (m.store.bufs.get i).blockno = b from hblk]
    rfl
  have hloc : Local m t i b (some ⟨i, b, .held false false⟩) x
      (m.after t (some ⟨i, b, .held false false⟩) (m.store.setBuf i x)) :=
    local_setBuf (r := ⟨i, b, .filling⟩) hr ⟨rfl, rfl⟩
  refine ⟨_, ?_, h.local_on hr hloc (h.clean b) (hok.move hr ⟨rfl, rfl⟩ rfl
    (hok.exclusive hr rfl) ?_ nofun ?_ (fun _ _ => h.clean b hnot) (fun _ => rfl)), hloc.keeps⟩
  · simp only [step, hc, result, hrun]
  · exact hok.locked.2 ⟨t, _, hr, rfl⟩
  · intro a y hph
    cases hph
    exact ⟨rfl, nofun⟩

section
variable {dirty synced : Bool} (h : Inv dev m) (hc : m.calls t = some ⟨i, b, .held dirty synced⟩)
include h hc

theorem Inv.held_locked : (m.buf i).locked = true :=
  (h.on ⟨hc, rfl⟩).1.locked.2 ⟨t, _, ⟨hc, rfl⟩, rfl⟩

theorem Inv.goes_modify (data : Block) : Goes dev m (.modify t data) := by
  have hr : On m.calls i t ⟨i, b, .held dirty synced⟩ := ⟨hc, rfl⟩
  obtain ⟨hok, -⟩ := h.on hr
  have hv := (hok.held t _ dirty synced hr rfl).1
  let x : Buf := { m.buf i with data := data }
  have hloc : Local m t i b (some ⟨i, b, .held true false⟩) x
      (m.after t (some ⟨i, b, .held true false⟩) (m.store.setBuf i x)) :=
    local_setBuf (r := ⟨i, b, .held dirty synced⟩) hr ⟨rfl, rfl⟩
  refine ⟨_, ?_, h.local_on hr hloc (h.clean b) (hok.move hr ⟨rfl, rfl⟩ rfl
    (hok.exclusive hr rfl) (h.held_locked hc) nofun ?_ (fun _ hph => absurd rfl (hph false))
    (fun _ => hv)), hloc.keeps⟩
  · simp only [step, hc]
    rfl
  · intro a y hph
    cases hph
    exact ⟨hv, nofun⟩

theorem Inv.goes_bwrite : Goes dev m (.bwrite t) := by
  have hr : On m.calls i t ⟨i, b, .held dirty synced⟩ := ⟨hc, rfl⟩
  obtain ⟨hok, hblk⟩ := h.on hr
  have hv := (hok.held t _ dirty synced hr rfl).1
  let s : Store := { m.store with
    disk := m.store.disk.set b (m.buf i).data
    writes := (b, (m.buf i).data) :: m.store.writes }
  have hrun : Xv6.bwrite i m.store = .ok () s := by
    rw [bwrite_run (h.held_locked hc), show (m.store.bufs.get i).blockno = b from hblk]
    rfl
  have hloc : Local m t i b (some ⟨i, b, .held false true⟩) (m.buf i)
      ((m.record i b).after t (some ⟨i, b, .held false true⟩) s) := by
    refine ⟨rfl, fun q hq => ?_, fun j => ?_, rfl, rfl, fun _ => Iff.rfl, id, fun _ _ => Iff.rfl,
      fun c hcb => Function.update_of_ne hcb _ _, fun c hcb => TMap.get_set_ne _ _ hcb⟩
    · cases hq
      rfl
    · split_ifs with hj
      · rw [hj]
        rfl
      · rfl
  have hsame : s.disk.get b = ((m.record i b).after t (some ⟨i, b, .held false true⟩) s).written b := by
    rw [TMap.get_set_self]
    exact (Function.update_self b _ m.written).symm
  refine ⟨_, ?_, h.local_on hr hloc (fun _ => hsame) (hok.move hr ⟨rfl, rfl⟩ rfl
    (hok.exclusive hr rfl) (h.held_locked hc) nofun ?_
    (fun _ _ => (Function.update_self b _ m.written).symm) (fun _ => hv)), hloc.keeps⟩
  · simp only [step, hc, result, hrun]
  · intro a y hph
    cases hph
    exact ⟨hv, fun _ => ⟨rfl, hsame⟩⟩

theorem Inv.goes_logWrite : Goes dev m (.logWrite t) := by
  have hr : On m.calls i t ⟨i, b, .held dirty synced⟩ := ⟨hc, rfl⟩
  obtain ⟨hok, -⟩ := h.on hr
  obtain ⟨hv, hsync⟩ := hok.held t _ dirty synced hr rfl
  let x : Buf := { m.buf i with refcnt := (m.buf i).refcnt + if b ∈ m.lh then 0 else 1 }
  let lh : List ℕ := if b ∈ m.lh then m.lh else m.lh ++ [b]
  have hmem : b ∈ lh := by
    by_cases hb : b ∈ m.lh <;> simp [lh, hb]
  have hrun : (if b ∉ m.lh then bpin i else pure ()) m.store =
      .ok () (if b ∈ m.lh then m.store else m.store.setBuf i x) := by
    by_cases hb : b ∈ m.lh
    · simp only [hb, not_true, if_false, if_true]
      rfl
    · simp only [hb, not_false_eq_true, if_false, if_true, x]
      rfl
  have hloc : Local m t i b (some ⟨i, b, .held false synced⟩) x
      ({ m.record i b with lh := lh }.after t (some ⟨i, b, .held false synced⟩)
        (if b ∈ m.lh then m.store else m.store.setBuf i x)) := by
    refine ⟨rfl, fun q hq => ?_, fun j => ?_, rfl, rfl, fun j => ?_, fun hn => ?_, fun c hcb => ?_,
      fun c hcb => Function.update_of_ne hcb _ _, fun c _ => ?_⟩
    · cases hq
      rfl
    · by_cases hb : b ∈ m.lh
      · simp only [Machine.buf, Machine.after, hb, if_true, x, Nat.add_zero]
        split_ifs with hj
        · rw [hj]
        · rfl
      · simp only [Machine.buf, Machine.after, hb, if_false]
        exact TMap.get_set m.store.bufs i j x
    · simp only [Machine.after]
      split_ifs <;> rfl
    · simp only [Machine.after, lh]
      split_ifs with hb
      · exact hn
      · exact List.nodup_append.2 ⟨hn, List.nodup_singleton b, by
          intro c hcm d hd he
          rw [List.mem_singleton] at hd
          exact hb (hd ▸ he ▸ hcm)⟩
    · simp only [Machine.after, lh]
      split_ifs
      · rfl
      · simp [hcb]
    · simp only [Machine.after]
      split_ifs <;> rfl
  refine ⟨_, ?_, h.local_on hr hloc (fun hb => absurd hmem hb) (hok.move hr ⟨rfl, rfl⟩ ?_
    (hok.exclusive hr rfl) (h.held_locked hc) nofun ?_
    (fun _ _ => (Function.update_self b _ m.written).symm) (fun _ => hv)), hloc.keeps⟩
  · simp only [step, hc, result, hrun]
    rfl
  · by_cases hb : b ∈ m.lh <;> simp [Machine.after, x, lh, hb]
  · intro a y hph
    cases hph
    refine ⟨hv, fun hy => ⟨rfl, ?_⟩⟩
    obtain ⟨hd, hdw⟩ := hsync hy
    have hdata : (m.buf i).data = m.written b := by
      refine hok.data (hok.block t _ hr).1 hv fun u q y' hq hph => ?_
      obtain rfl := hok.owner u t q _ hq hr (by rw [hph]; rfl) rfl
      obtain rfl := Option.some.inj (hq.1.symm.trans hc)
      cases hph
      cases hd
    have hdisk : ∀ c, (if b ∈ m.lh then m.store else m.store.setBuf i x).disk.get c =
        m.store.disk.get c := by
      intro c
      split_ifs <;> rfl
    simp only [Machine.after, hdisk]
    rw [hdw, ← hdata]
    exact (Function.update_self b _ m.written).symm

theorem Inv.goes_unlock (hd : dirty = false) : Goes dev m (.unlock t) := by
  subst hd
  have hr : On m.calls i t ⟨i, b, .held false synced⟩ := ⟨hc, rfl⟩
  obtain ⟨hok, -⟩ := h.on hr
  let x : Buf := { m.buf i with locked := false }
  have hloc : Local m t i b (some ⟨i, b, .leaving⟩) x
      (m.after t (some ⟨i, b, .leaving⟩) (m.store.setBuf i x)) :=
    local_setBuf (r := ⟨i, b, .held false synced⟩) hr ⟨rfl, rfl⟩
  refine ⟨_, ?_, h.local_on hr hloc (h.clean b) (hok.move hr ⟨rfl, rfl⟩ rfl
    (hok.exclusive hr rfl) rfl nofun nofun ?_ fun hp => (hok.pinned hp).2), hloc.keeps⟩
  · simp only [step, hc, result, brelseUnlock_run (h.held_locked hc)]
    rfl
  · intro hv _
    refine hok.data (hok.block t _ hr).1 hv fun u q y hq hph => ?_
    obtain rfl := hok.owner u t q _ hq hr (by rw [hph]; rfl) rfl
    obtain rfl := Option.some.inj (hq.1.symm.trans hc)
    cases hph

theorem Inv.goes_bunpin (hs : synced = true) (hb : b ∈ m.lh) : Goes dev m (.bunpin t) := by
  subst hs
  have hr : On m.calls i t ⟨i, b, .held dirty true⟩ := ⟨hc, rfl⟩
  obtain ⟨hok, -⟩ := h.on hr
  obtain ⟨hv, hsync⟩ := hok.held t _ dirty true hr rfl
  have hcount : 1 ≤ (m.buf i).refcnt := by
    have := hok.refcnt
    simp only [hb, decide_true, Bool.toNat_true] at this
    omega
  let x : Buf := { m.buf i with refcnt := (m.buf i).refcnt - 1 }
  have hloc : Local m t i b (some ⟨i, b, .held dirty true⟩) x
      ({ m with lh := m.lh.erase b }.after t (some ⟨i, b, .held dirty true⟩)
        (m.store.setBuf i x)) := by
    refine ⟨rfl, fun q hq => ?_, fun j => TMap.get_set m.store.bufs i j x, rfl, rfl, fun _ => Iff.rfl,
      fun hn => hn.erase b, fun c hcb => List.mem_erase_of_ne hcb, fun _ _ => rfl, fun _ _ => rfl⟩
    cases hq
    rfl
  have hdata : (∀ y, Phase.held dirty true ≠ .held true y) → (m.buf i).data = m.written b := by
    intro hph
    refine hok.data (hok.block t _ hr).1 hv fun u q y hq hqp => ?_
    obtain rfl := hok.owner u t q _ hq hr (by rw [hqp]; rfl) rfl
    obtain rfl := Option.some.inj (hq.1.symm.trans hc)
    exact hph y hqp
  refine ⟨_, ?_, h.local_on hr hloc (fun _ => (hsync rfl).2) (hok.move hr ⟨rfl, rfl⟩ ?_
    (hok.exclusive hr rfl) (h.held_locked hc) nofun ?_ (fun _ => hdata) (fun _ => hv)),
    hloc.keeps⟩
  · simp only [step, hc, hb, if_true]
    rfl
  · simp [Machine.after, x, hb, h.nodup.not_mem_erase]
    omega
  · intro a y hph
    cases hph
    exact ⟨hv, fun _ => hsync rfl⟩

end

theorem Inv.goes_drop (h : Inv dev m) (hc : m.calls t = some ⟨i, b, .leaving⟩) :
    Goes dev m (.drop t) := by
  have hr : On m.calls i t ⟨i, b, .leaving⟩ := ⟨hc, rfl⟩
  obtain ⟨hok, -⟩ := h.on hr
  let x : Buf := { m.buf i with refcnt := (m.buf i).refcnt - 1 }
  let lru : List ℕ :=
    if (m.buf i).refcnt - 1 = 0 then i :: m.store.lru.erase i else m.store.lru
  have hmem : ∀ j, j ∈ lru ↔ j ∈ m.store.lru := by
    intro j
    simp only [lru]
    split_ifs
    · by_cases hj : j = i
      · simp [hj, (h.lru i).2 (h.range t _ hc)]
      · simp [hj, List.mem_erase_of_ne hj]
    · rfl
  have hloc : Local m t i b none x (m.after t none { m.store.setBuf i x with lru := lru }) :=
    ⟨rfl, nofun, fun j => TMap.get_set m.store.bufs i j x, rfl, rfl, hmem, id, fun _ _ => Iff.rfl,
      fun _ _ => rfl, fun _ _ => rfl⟩
  refine ⟨_, ?_, h.local_on hr hloc (h.clean b) (hok.leave hr rfl), hloc.keeps⟩
  simp only [step, hc, result, brelseDrop_run]
  rfl

theorem Inv.goes_hit (h : Inv dev m) (hc : m.calls t = none)
    (hf : m.store.lru.find? (fun j => decide ((m.store.bufs.get j).dev = dev ∧
      (m.store.bufs.get j).blockno = b)) = some i) : Goes dev m (.bread t b) := by
  have hi : i < NBUF := (h.lru i).1 (List.mem_of_find?_eq_some hf)
  have hfound := List.find?_some hf
  rw [decide_eq_true_eq] at hfound
  have hp : (m.buf i).dev = dev ∧ (m.buf i).blockno = b := hfound
  let x : Buf := { m.buf i with refcnt := (m.buf i).refcnt + 1 }
  have hloc : Local m t i b (some ⟨i, b, .waiting⟩) x
      (m.after t (some ⟨i, b, .waiting⟩) (m.store.setBuf i x)) := by
    refine ⟨rfl, fun q hq => ?_, fun j => TMap.get_set m.store.bufs i j x, rfl, rfl, fun _ => Iff.rfl, id,
      fun _ _ => Iff.rfl, fun _ _ => rfl, fun _ _ => rfl⟩
    cases hq
    rfl
  have hpins : m.pins dev i = decide (b ∈ m.lh) := by simp [Machine.pins, hp.1, hp.2]
  have hok := h.buf i hi
  rw [hpins, hp.2] at hok
  refine ⟨_, ?_, h.local ⟨hi, hp⟩ (fun q hq => ?_) hloc (h.clean b) (hok.enter hc hp), hloc.keeps⟩
  · simp only [step, hc, result, bgetScan_hit hf]
    rfl
  · rw [hc] at hq
    cases hq

theorem Inv.goes_recycle (h : Inv dev m) (hc : m.calls t = none)
    (hf : m.store.lru.find? (fun j => decide ((m.store.bufs.get j).dev = dev ∧
      (m.store.bufs.get j).blockno = b)) = none)
    (hz : m.store.lru.reverse.find? (fun j => decide ((m.store.bufs.get j).refcnt = 0)) = some i) :
    Goes dev m (.bread t b) := by
  have hi : i < NBUF := (h.lru i).1 (List.mem_reverse.1 (List.mem_of_find?_eq_some hz))
  have hfound := List.find?_some hz
  rw [decide_eq_true_eq] at hfound
  have h0 : (m.buf i).refcnt = 0 := hfound
  have hno : ∀ j, ¬ m.Caches dev j b := by
    intro j hj
    exact List.find?_eq_none.1 hf j ((h.lru j).2 hj.1) (decide_eq_true hj.2)
  have hblh : b ∉ m.lh := fun hm => (h.cached b hm).elim hno
  let x : Buf := { m.buf i with dev := dev, blockno := b, valid := false, refcnt := 1 }
  let m' := m.after t (some ⟨i, b, .waiting⟩) (m.store.setBuf i x)
  have hbuf : ∀ j, m'.buf j = if j = i then x else m.buf j := fun j => TMap.get_set m.store.bufs i j x
  have hself : m'.buf i = x := by rw [hbuf, if_pos rfl]
  have hother : ∀ j, j ≠ i → m'.buf j = m.buf j := fun j hj => by rw [hbuf, if_neg hj]
  have hcaches : ∀ j c, m'.Caches dev j c → j = i ∧ c = b ∨ j ≠ i ∧ m.Caches dev j c := by
    intro j c hj
    by_cases hji : j = i
    · refine .inl ⟨hji, ?_⟩
      rw [hji, Machine.Caches, hself] at hj
      exact hj.2.2.symm
    · rw [Machine.Caches, hother j hji] at hj
      exact .inr ⟨hji, hj⟩
  refine ⟨m', ?_, ⟨h.lru, ?_, ?_, h.nodup, ?_, h.clean, ?_⟩, ?_⟩
  · simp only [step, hc, result, bgetScan_recycle hf hz]
    rfl
  · intro u q hq
    by_cases hu : u = t
    · rw [hu, show m'.calls t = _ from Function.update_self _ _ _] at hq
      cases hq
      exact hi
    · rw [show m'.calls u = _ from Function.update_of_ne hu _ _] at hq
      exact h.range u q hq
  · intro j k c hj hk
    rcases hcaches j c hj with ⟨rfl, rfl⟩ | ⟨-, hj⟩
    · rcases hcaches k c hk with ⟨rfl, -⟩ | ⟨-, hk⟩
      · rfl
      · exact absurd hk (hno k)
    · rcases hcaches k c hk with ⟨-, hcb⟩ | ⟨-, hk⟩
      · exact absurd (hcb ▸ hj) (hno j)
      · exact h.unique j k c hj hk
  · intro c hcm
    obtain ⟨j, hj⟩ := h.cached c hcm
    have hji : j ≠ i := by
      rintro rfl
      -- the reference of the log keeps the buffer from being recycled
      have hpins : m.pins dev j = true := decide_eq_true ⟨hj.2.1, hj.2.2 ▸ hcm⟩
      have := (h.buf j hi).refcnt
      rw [h0, hpins] at this
      simp at this
    refine ⟨j, ?_⟩
    rw [Machine.Caches, hother j hji]
    exact hj
  · intro j hj
    by_cases hji : j = i
    · subst hji
      have hpins : m'.pins dev j = false := by
        simp only [Machine.pins, hself, x, decide_eq_false_iff_not, not_and]
        exact fun _ => hblh
      rw [hpins, hself]
      exact (h.buf j hi).recycle hc h0
    · have hpins : m'.pins dev j = m.pins dev j := by
        unfold Machine.pins
        rw [hother j hji]
        rfl
      rw [hpins, hother j hji]
      refine (h.buf j hj).frame (fun q hq => ?_) fun q hq => ?_
      · rw [hc] at hq
        cases hq
      · cases hq
        exact Ne.symm hji
  · intro j _ hpos
    rw [hother j]
    · exact ⟨rfl, rfl⟩
    · rintro rfl
      omega

/-- What a step can come to: it returns and keeps the invariant, or it is a call of
`bread` that finds every buffer referenced. -/
theorem Inv.step (h : Inv dev m) {op : Op} {res : Except Fault Machine}
    (hs : step dev m op = some res) :
    Goes dev m op ∨ res = .error (.panic .bgetNoBuffers) ∧ (∃ t b, op = .bread t b) ∧
      ∀ i, i < NBUF → 0 < (m.buf i).refcnt := by
  cases op with
  | bread t b =>
    cases hc : m.calls t with
    | some r =>
      simp only [BufferCache.step, hc] at hs
      cases hs
    | none =>
      cases hf : m.store.lru.find? (fun j => decide ((m.store.bufs.get j).dev = dev ∧
          (m.store.bufs.get j).blockno = b)) with
      | some i => exact .inl (h.goes_hit hc hf)
      | none =>
        cases hz : m.store.lru.reverse.find? fun j =>
            decide ((m.store.bufs.get j).refcnt = 0) with
        | some i => exact .inl (h.goes_recycle hc hf hz)
        | none =>
          refine .inr ⟨?_, ⟨t, b, rfl⟩, fun i hi => ?_⟩
          · simp only [BufferCache.step, hc, result, bgetScan_full hf hz, Option.some.injEq] at hs
            exact hs.symm
          · refine Nat.pos_of_ne_zero fun h0 => ?_
            exact List.find?_eq_none.1 hz i (List.mem_reverse.2 ((h.lru i).2 hi))
              (decide_eq_true h0)
  | acquire t =>
    simp only [BufferCache.step] at hs
    split at hs
    · rename_i i b hc
      cases hl : (m.buf i).locked
      · exact .inl (h.goes_acquire hc hl)
      · simp [hl] at hs
    · cases hs
  | fill t =>
    simp only [BufferCache.step] at hs
    split at hs
    · rename_i i b hc
      exact .inl (h.goes_fill hc)
    · cases hs
  | modify t data =>
    simp only [BufferCache.step] at hs
    split at hs
    · rename_i i b _ _ hc
      exact .inl (h.goes_modify hc data)
    · cases hs
  | bwrite t =>
    simp only [BufferCache.step] at hs
    split at hs
    · rename_i i b _ _ hc
      exact .inl (h.goes_bwrite hc)
    · cases hs
  | logWrite t =>
    simp only [BufferCache.step] at hs
    split at hs
    · rename_i i b _ _ hc
      exact .inl (h.goes_logWrite hc)
    · cases hs
  | bunpin t =>
    simp only [BufferCache.step] at hs
    split at hs
    · rename_i i b _ hc
      by_cases hb : b ∈ m.lh
      · exact .inl (h.goes_bunpin hc rfl hb)
      · simp [hb] at hs
    · cases hs
  | unlock t =>
    simp only [BufferCache.step] at hs
    split at hs
    · rename_i i b _ hc
      exact .inl (h.goes_unlock hc rfl)
    · cases hs
  | drop t =>
    simp only [BufferCache.step] at hs
    split at hs
    · rename_i i b hc
      exact .inl (h.goes_drop hc)
    · cases hs

theorem inv_initial (hdev : dev ≠ 0) (h : Initial m) : Inv dev m := by
  have hbuf : ∀ i, m.buf i = default := by
    intro i
    rw [Machine.buf, h.bufs]
    rfl
  have hnot : ∀ i, (m.buf i).dev ≠ dev := by
    intro i
    rw [hbuf]
    exact hdev.symm
  have hon : ∀ i t r, ¬ On m.calls i t r := by
    intro i t r hr
    rw [On, h.calls] at hr
    cases hr.1
  have huser : ∀ i, users m.calls i = ∅ := by
    intro i
    ext t
    simp [users, hon]
  have hpins : ∀ i, m.pins dev i = false := by
    intro i
    simp [Machine.pins, hnot i]
  refine ⟨fun i => by simp [h.lru, binitLru], fun t r hr => ?_, fun i j b hi _ => ?_,
    by simp [h.lh], fun b hb => ?_, fun b _ => (h.written b).symm, fun i _ => ?_⟩
  · rw [h.calls] at hr
    cases hr
  · exact absurd hi.2.1 (hnot i)
  · rw [h.lh] at hb
    cases hb
  · refine ⟨huser i ▸ Set.finite_empty, ?_, ?_, fun t u r q hr => absurd hr (hon i t r),
      fun t r hr => absurd hr (hon i t r), fun t r hr => absurd hr (hon i t r),
      fun t r a y hr => absurd hr (hon i t r), fun hd => absurd hd (hnot i), ?_⟩
    · rw [huser, hpins, hbuf]
      simp [default]
    · rw [hbuf]
      simp [hon, default]
    · rw [hpins]
      exact nofun

theorem Reachable.inv (hdev : dev ≠ 0) (h : Reachable dev m) : Inv dev m := by
  refine h.invariant (fun _ => inv_initial hdev) fun m op m' hi hs => ?_
  rcases hi.step hs with ⟨m₁, hm₁, hinv, -⟩ | ⟨he, -⟩
  · rw [hs] at hm₁
    cases hm₁
    exact hinv
  · cases he

/-- The buffer cache shows the disk. In every run on a device other than `0`: no two
buffers hold the same block; a step leaves every referenced buffer with its block; the
buffer that `bread` has returned, until its caller changes it, holds what was last
written to the block; a step fails only in `bread`, when every buffer is referenced; and
a call that cannot go on waits for another one that has the lock of its buffer. -/
theorem cache_refines_disk (hdev : dev ≠ 0) (h : Reachable dev m) :
    (∀ i j b, m.Caches dev i b → m.Caches dev j b → i = j) ∧
      (∀ op m', step dev m op = some (.ok m') → Keeps m m') ∧
      (∀ t i b synced, m.calls t = some ⟨i, b, .held false synced⟩ →
        m.Caches dev i b ∧ (m.buf i).valid = true ∧ (m.buf i).data = m.written b) ∧
      (∀ op e, step dev m op = some (.error e) → e = .panic .bgetNoBuffers ∧
        (∃ t b, op = .bread t b) ∧ ∀ i, i < NBUF → 0 < (m.buf i).refcnt) ∧
      ∀ t i b, m.calls t = some ⟨i, b, .waiting⟩ → step dev m (.acquire t) = none →
        ∃ u r, u ≠ t ∧ On m.calls i u r ∧ r.phase.owns = true := by
  have hinv := h.inv hdev
  refine ⟨hinv.unique, fun op m' hs => ?_, fun t i b synced hc => ?_, fun op e hs => ?_,
    fun t i b hc hs => ?_⟩
  · rcases hinv.step hs with ⟨m₁, hm₁, -, hkeep⟩ | ⟨he, -⟩
    · rw [hs] at hm₁
      cases hm₁
      exact hkeep
    · cases he
  · have hr : On m.calls i t ⟨i, b, .held false synced⟩ := ⟨hc, rfl⟩
    obtain ⟨hok, -⟩ := hinv.on hr
    have hv := (hok.held t _ false synced hr rfl).1
    obtain ⟨hd, hb⟩ := hok.block t _ hr
    refine ⟨⟨hinv.range t _ hc, hd, hb⟩, hv, hok.data hd hv fun u q y hq hph => ?_⟩
    obtain rfl := hok.owner u t q _ hq hr (by rw [hph]; rfl) rfl
    obtain rfl := Option.some.inj (hq.1.symm.trans hc)
    cases hph
  · rcases hinv.step hs with ⟨m₁, hm₁, -⟩ | ⟨he, hrest⟩
    · rw [hs] at hm₁
      cases hm₁
    · cases he
      exact ⟨rfl, hrest⟩
  · have hr : On m.calls i t ⟨i, b, .waiting⟩ := ⟨hc, rfl⟩
    have hl : (m.buf i).locked = true := by
      by_contra hl
      simp [step, hc, hl] at hs
    obtain ⟨u, q, hq, ho⟩ := (hinv.on hr).1.locked.1 hl
    refine ⟨u, q, ?_, hq, ho⟩
    rintro rfl
    obtain rfl := Option.some.inj (hq.1.symm.trans hc)
    cases ho

end

def boot : Machine where
  store := ⟨.empty, [], .empty, binitLru, ⟨0, 0, 0, false, 0, []⟩⟩
  calls _ := none
  lh := []
  written _ := .empty

theorem boot_initial : Initial boot := ⟨rfl, rfl, fun _ => rfl, rfl, fun _ => rfl⟩

/-- Block `5` is changed and logged while a second call waits for it, block `6` is read,
and the second call gets block `5`. -/
def logThenRead : List Op :=
  [.bread 0 5, .acquire 0, .fill 0, .bread 1 5, .modify 0 (TMap.empty.set 3 7), .logWrite 0,
    .bread 2 6, .acquire 2, .fill 2, .unlock 0, .acquire 1, .drop 0]

theorem cache_refines_disk_logThenRead : ∃ m i, exec 1 boot logThenRead = some m ∧
    m.calls 1 = some ⟨i, 5, .held false false⟩ ∧ m.Caches 1 i 5 ∧
    (m.buf i).data = m.written 5 ∧ m.written 5 = TMap.empty.set 3 7 := by
  have hrun : ((exec 1 boot logThenRead).any fun m =>
      decide (m.calls 1 = some ⟨0, 5, .held false false⟩) &&
        decide (m.written 5 = TMap.empty.set 3 7)) = true := by decide +kernel
  obtain ⟨m, hm, hend⟩ := (Option.any_eq_true _ _).1 hrun
  rw [Bool.and_eq_true, decide_eq_true_iff, decide_eq_true_iff] at hend
  have hr : Reachable 1 m := reachable_exec (.start boot boot_initial) hm
  obtain ⟨-, -, hread, -⟩ := cache_refines_disk one_ne_zero hr
  obtain ⟨hcaches, -, hdata⟩ := hread 1 0 5 false hend.1
  exact ⟨m, 0, hm, hend.1, hcaches, hdata, hend.2⟩

end BufferCache
end Xv6
