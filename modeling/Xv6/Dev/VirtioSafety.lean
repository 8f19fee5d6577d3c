import Xv6.Dev.Virtio
import Xv6.Lib.Ring

/-!
The driver and the device of `virtio_disk.c` keep the protocol: every request in flight
has three descriptors of its own, the rings never run over, and the interrupt handler
finds the buffer of the request that the device has completed.
-/

namespace Xv6
namespace Virtio

open RingBuffer

variable {m m' : Machine} {s s' : Shared} {p q n : ℕ} {pc pc' : Pc} {r r' : Request}

def Pc.locked : Pc → Bool
  | rwAlloc _ _ | rwFormat _ | rwRing _ | rwIdx _ | rwWait _ _ | rwFree _ _ | rwRelease _
  | intrLoop | intrEntry | intrFinish _ => true
  | idle | rwAcquire _ _ | rwSleepFree _ _ | rwSleep _ _ | rwReacquire _ _ | intrAcquire => false

def Pc.request : Pc → Option Request
  | rwFormat r | rwRing r | rwIdx r | rwWait r _ | rwSleep r _ | rwReacquire r _ | rwFree r _ =>
      some r
  | idle | rwAcquire _ _ | rwAlloc _ _ | rwSleepFree _ _ | rwRelease _ | intrAcquire | intrLoop
  | intrEntry | intrFinish _ => none

def Pc.waiting : Pc → Option (Request × ℕ)
  | rwWait r n | rwSleep r n | rwReacquire r n | rwFree r n => some (r, n)
  | idle | rwAcquire _ _ | rwAlloc _ _ | rwSleepFree _ _ | rwFormat _ | rwRing _ | rwIdx _
  | rwRelease _ | intrAcquire | intrLoop | intrEntry | intrFinish _ => none

theorem Pc.request_of_waiting (h : pc.waiting = some (r, n)) : pc.request = some r := by
  cases pc <;> cases h <;> rfl

theorem Pc.buf_of_request (h : pc.request = some r) : pc.buf = some r.b := by
  cases pc <;> cases h <;> rfl

def Request.descs (r : Request) : List ℕ := [r.d0, r.d1, r.d2]

/-- The numbers of the completed requests, and of those the interrupt handler has seen. -/
def Shared.done (s : Shared) : List ℕ := s.completed.map Prod.fst
def Shared.seen (s : Shared) : List ℕ := s.done.take s.handled

/-! ### Sleeping and waking -/

/-- A process that slept goes on, or nothing changes. -/
def Woken (pc pc' : Pc) : Prop :=
  pc' = pc ∨ (∃ b w, pc = .rwSleepFree b w ∧ pc' = .rwAcquire b w) ∨
    ∃ r n, pc = .rwSleep r n ∧ pc' = .rwReacquire r n

namespace Woken

theorem refl (pc : Pc) : Woken pc pc := .inl rfl

theorem trans {pc'' : Pc} (h : Woken pc pc') (h' : Woken pc' pc'') : Woken pc pc'' := by
  obtain rfl | ⟨b, w, rfl, rfl⟩ | ⟨r, n, rfl, rfl⟩ := h
  · exact h'
  · obtain rfl | ⟨_, _, h, -⟩ | ⟨_, _, h, -⟩ := h'
    · exact .inr (.inl ⟨b, w, rfl, rfl⟩)
    · cases h
    · cases h
  · obtain rfl | ⟨_, _, h, -⟩ | ⟨_, _, h, -⟩ := h'
    · exact .inr (.inr ⟨r, n, rfl, rfl⟩)
    · cases h
    · cases h

theorem free (pc : Pc) : Woken pc pc.wakeFree := by
  cases pc with
  | rwSleepFree b w => exact .inr (.inl ⟨b, w, rfl, rfl⟩)
  | _ => exact .inl rfl

theorem buffer (b : ℕ) (pc : Pc) : Woken pc (pc.wakeBuf b) := by
  cases pc with
  | rwSleep r n =>
    rw [Pc.wakeBuf]
    split_ifs
    · exact .inr (.inr ⟨r, n, rfl, rfl⟩)
    · exact .inl rfl
  | _ => exact .inl rfl

theorem locked (h : Woken pc pc') : pc'.locked = pc.locked := by
  obtain rfl | ⟨b, w, rfl, rfl⟩ | ⟨r, n, rfl, rfl⟩ := h <;> rfl

theorem request (h : Woken pc pc') : pc'.request = pc.request := by
  obtain rfl | ⟨b, w, rfl, rfl⟩ | ⟨r, n, rfl, rfl⟩ := h <;> rfl

theorem waiting (h : Woken pc pc') : pc'.waiting = pc.waiting := by
  obtain rfl | ⟨b, w, rfl, rfl⟩ | ⟨r, n, rfl, rfl⟩ := h <;> rfl

theorem buf (h : Woken pc pc') : pc'.buf = pc.buf := by
  obtain rfl | ⟨b, w, rfl, rfl⟩ | ⟨r, n, rfl, rfl⟩ := h <;> rfl

end Woken

/-! ### Allocating and freeing descriptors -/

structure Touch (m m' : Machine) : Prop where
  eq : ∃ desc free thread,
    m' = { m with disk := { m.disk with desc := desc, free := free }, thread := thread }
  thread : ∀ q, Woken (m.thread q) (m'.thread q)

theorem Touch.refl (m : Machine) : Touch m m := ⟨⟨_, _, _, rfl⟩, fun _ => .refl _⟩

theorem Touch.trans {m'' : Machine} (h : Touch m m') (h' : Touch m' m'') : Touch m m'' := by
  obtain ⟨desc, free, thread, rfl⟩ := h.eq
  obtain ⟨desc', free', thread', rfl⟩ := h'.eq
  exact ⟨⟨desc', free', thread', rfl⟩, fun q => (h.thread q).trans (h'.thread q)⟩

theorem allocDesc_some {i : ℕ} (h : allocDesc m = some (i, m')) : i < NUM ∧ m.disk.free i = true ∧
    Touch m m' ∧ m'.disk.free = Function.update m.disk.free i false ∧
    m'.disk.desc = m.disk.desc := by
  obtain ⟨j, hj, heq⟩ := Option.map_eq_some_iff.1 h
  cases heq
  exact ⟨List.mem_range.1 (List.mem_of_find?_eq_some hj), by simpa using List.find?_some hj,
    ⟨⟨_, _, _, rfl⟩, fun _ => .refl _⟩, rfl, rfl⟩

theorem freeDesc_ok {i : ℕ} (hi : i < NUM) (hf : m.disk.free i = false) :
    ∃ m', freeDesc m i = .ok m' ∧ Touch m m' ∧
      m'.disk.free = Function.update m.disk.free i true ∧
      ∀ j, j ≠ i → m'.disk.desc j = m.disk.desc j := by
  rw [freeDesc, if_neg (by omega), if_neg (by rw [hf]; exact Bool.false_ne_true)]
  exact ⟨_, rfl, ⟨⟨_, _, _, rfl⟩, fun q => .free _⟩, rfl, fun j hj => Function.update_of_ne hj _ _⟩

theorem freeChainFrom_next {i fuel : ℕ} (h : freeDesc m i = .ok m')
    (hf : (m.disk.desc i).flags &&& VRING_DESC_F_NEXT ≠ 0) :
    freeChainFrom (fuel + 1) m i = freeChainFrom fuel m' (m.disk.desc i).next := by
  rw [freeChainFrom, h]
  exact if_pos hf

theorem freeChainFrom_last {i fuel : ℕ} (h : freeDesc m i = .ok m')
    (hf : (m.disk.desc i).flags &&& VRING_DESC_F_NEXT = 0) :
    freeChainFrom (fuel + 1) m i = .ok m' := by
  rw [freeChainFrom, h]
  exact if_neg (not_not.2 hf)

/-- The three descriptors of `alloc3_desc` were free; when there are not so many, it gives
back those it got. -/
theorem alloc3Desc_cases (m : Machine) :
    (∃ d0 d1 d2 m', alloc3Desc m = .ok (some (d0, d1, d2), m') ∧ Touch m m' ∧
      [d0, d1, d2].Nodup ∧ (∀ d ∈ [d0, d1, d2], d < NUM ∧ m.disk.free d = true) ∧
      m'.disk.desc = m.disk.desc ∧
      ∀ d, m'.disk.free d = (decide (d ∉ [d0, d1, d2]) && m.disk.free d)) ∨
    ∃ m', alloc3Desc m = .ok (none, m') ∧ Touch m m' ∧ m'.disk.free = m.disk.free ∧
      ∀ d, m.disk.free d = false → m'.disk.desc d = m.disk.desc d := by
  have hne : ∀ {d e : ℕ}, m.disk.free d = false → m.disk.free e = true → d ≠ e := by
    rintro d e hd he rfl
    rw [hd] at he
    cases he
  unfold alloc3Desc
  cases h0 : allocDesc m with
  | none => exact .inr ⟨m, rfl, .refl m, rfl, fun _ _ => rfl⟩
  | some x0 =>
    obtain ⟨d0, m0⟩ := x0
    obtain ⟨hd0, hf0, ht0, hm0, hk0⟩ := allocDesc_some h0
    simp only
    cases h1 : allocDesc m0 with
    | none =>
      obtain ⟨m1, hm1, ht1, hf1, hk1⟩ := freeDesc_ok (m := m0) hd0 (by rw [hm0, Function.update_self])
      refine .inr ⟨m1, by simp only [hm1]; rfl, ht0.trans ht1, ?_, fun d hd => ?_⟩
      · rw [hf1, hm0, Function.update_idem, ← hf0, Function.update_eq_self]
      · rw [hk1 d (hne hd hf0), hk0]
    | some x1 =>
      obtain ⟨d1, m1⟩ := x1
      obtain ⟨hd1, hf1, ht1, hm1, hk1⟩ := allocDesc_some h1
      have h10 : d1 ≠ d0 := by
        rintro rfl
        rw [hm0, Function.update_self] at hf1
        cases hf1
      rw [hm0, Function.update_of_ne h10] at hf1
      simp only
      cases h2 : allocDesc m1 with
      | none =>
        obtain ⟨m2, hm2, ht2, hf2, hk2⟩ := freeDesc_ok (m := m1) hd0
          (by rw [hm1, Function.update_of_ne h10.symm, hm0, Function.update_self])
        obtain ⟨m3, hm3, ht3, hf3, hk3⟩ := freeDesc_ok (m := m2) hd1
          (by rw [hf2, Function.update_of_ne h10, hm1, Function.update_self])
        refine .inr ⟨m3, ?_, ((ht0.trans ht1).trans ht2).trans ht3, ?_, fun d hd => ?_⟩
        · rw [hm2]
          show (freeDesc m2 d1 >>= fun m => pure (none, m)) = _
          rw [hm3]
          rfl
        · funext d
          rw [hf3, hf2, hm1, hm0]
          by_cases h1 : d = d1
          · rw [h1, Function.update_self, hf1]
          · by_cases h0 : d = d0
            · rw [h0, Function.update_of_ne h10.symm, Function.update_self, hf0]
            · rw [Function.update_of_ne h1, Function.update_of_ne h0, Function.update_of_ne h1,
                Function.update_of_ne h0]
        · rw [hk3 d (hne hd hf1), hk2 d (hne hd hf0), hk1, hk0]
      | some x2 =>
        obtain ⟨d2, m2⟩ := x2
        obtain ⟨hd2, hf2, ht2, hm2, hk2⟩ := allocDesc_some h2
        have h21 : d2 ≠ d1 := by
          rintro rfl
          rw [hm1, Function.update_self] at hf2
          cases hf2
        rw [hm1, Function.update_of_ne h21] at hf2
        have h20 : d2 ≠ d0 := by
          rintro rfl
          rw [hm0, Function.update_self] at hf2
          cases hf2
        rw [hm0, Function.update_of_ne h20] at hf2
        refine .inl ⟨d0, d1, d2, m2, rfl, (ht0.trans ht1).trans ht2, ?_, ?_, ?_, fun d => ?_⟩
        · simp [h10.symm, h20.symm, h21.symm]
        · simp [hd0, hf0, hd1, hf1, hd2, hf2]
        · rw [hk2, hk1, hk0]
        · rw [hm2, hm1, hm0]
          by_cases hd : d ∈ [d0, d1, d2]
          · have : d = d2 ∨ d = d1 ∨ d = d0 := by simpa [or_comm, or_assoc, or_left_comm] using hd
            rcases this with rfl | rfl | rfl <;> simp [Function.update_apply]
          · have hd' : d ≠ d0 ∧ d ≠ d1 ∧ d ≠ d2 := by simpa using hd
            rw [Function.update_of_ne hd'.2.2, Function.update_of_ne hd'.2.1,
              Function.update_of_ne hd'.1]
            simp [hd'.1, hd'.2.1, hd'.2.2]

/-! ### Requests -/

structure Owned (free : ℕ → Bool) (r : Request) : Prop where
  nodup : r.descs.Nodup
  lt : ∀ d ∈ r.descs, d < NUM
  used : ∀ d ∈ r.descs, free d = false

namespace Owned
variable {free : ℕ → Bool}

theorem ne (h : Owned free r) : r.d0 ≠ r.d1 ∧ r.d0 ≠ r.d2 ∧ r.d1 ≠ r.d2 := by
  have := h.nodup
  simp only [Request.descs, List.nodup_cons, List.mem_cons, List.not_mem_nil, or_false] at this
  tauto

end Owned

theorem Request.mem_descs (r : Request) : r.d0 ∈ r.descs ∧ r.d1 ∈ r.descs ∧ r.d2 ∈ r.descs := by
  simp [Request.descs]

structure Formatted (s : Shared) (r : Request) : Prop where
  op : s.disk.ops r.d0 = ⟨if r.write then VIRTIO_BLK_T_OUT else VIRTIO_BLK_T_IN, 0,
    s.blockno r.b * (BSIZE / 512) % 2 ^ 32⟩
  desc0 : s.disk.desc r.d0 = ⟨.op r.d0, 16, VRING_DESC_F_NEXT, r.d1⟩
  desc1 : s.disk.desc r.d1 =
    ⟨.data r.b, BSIZE, (if r.write then 0 else VRING_DESC_F_WRITE) ||| VRING_DESC_F_NEXT, r.d2⟩
  desc2 : s.disk.desc r.d2 = ⟨.status r.d0, 1, VRING_DESC_F_WRITE, 0⟩
  info : s.disk.infoB r.d0 = some r.b

namespace Formatted

theorem flags1 (r : Request) :
    ((if r.write then 0 else VRING_DESC_F_WRITE) ||| VRING_DESC_F_NEXT) &&& VRING_DESC_F_NEXT ≠ 0 := by
  cases r.write <;> decide

theorem readChain (h : Formatted s r) :
    readChain s.disk.desc r.d0 = some (.op r.d0, .data r.b, .status r.d0) := by
  unfold Virtio.readChain
  simp only [h.desc0, h.desc1, h.desc2]
  rw [if_pos ⟨by decide, flags1 r, by decide⟩]

theorem freeChain (ho : Owned m.disk.free r)
    (h0 : m.disk.desc r.d0 = ⟨.op r.d0, 16, VRING_DESC_F_NEXT, r.d1⟩)
    (h1 : m.disk.desc r.d1 =
      ⟨.data r.b, BSIZE, (if r.write then 0 else VRING_DESC_F_WRITE) ||| VRING_DESC_F_NEXT, r.d2⟩)
    (h2 : m.disk.desc r.d2 = ⟨.status r.d0, 1, VRING_DESC_F_WRITE, 0⟩) :
    ∃ m', freeChain m r.d0 = .ok m' ∧ Touch m m' ∧
      (∀ d, m'.disk.free d = (decide (d ∈ r.descs) || m.disk.free d)) ∧
      ∀ d, d ∉ r.descs → m'.disk.desc d = m.disk.desc d := by
  obtain ⟨h01, h02, h12⟩ := ho.ne
  obtain ⟨hm0, hm1, hm2⟩ := r.mem_descs
  obtain ⟨m1, he1, ht1, hf1, hk1⟩ := freeDesc_ok (ho.lt _ hm0) (ho.used _ hm0)
  obtain ⟨m2, he2, ht2, hf2, hk2⟩ := freeDesc_ok (m := m1) (ho.lt _ hm1)
    (by rw [hf1, Function.update_of_ne h01.symm, ho.used _ hm1])
  obtain ⟨m3, he3, ht3, hf3, hk3⟩ := freeDesc_ok (m := m2) (ho.lt _ hm2)
    (by rw [hf2, Function.update_of_ne h12.symm, hf1, Function.update_of_ne h02.symm, ho.used _ hm2])
  have hd1 : m1.disk.desc r.d1 = m.disk.desc r.d1 := hk1 _ h01.symm
  have hd2 : m2.disk.desc r.d2 = m.disk.desc r.d2 := by rw [hk2 _ h12.symm, hk1 _ h02.symm]
  refine ⟨m3, ?_, (ht1.trans ht2).trans ht3, fun d => ?_, fun d hd => ?_⟩
  · have hn0 : VRING_DESC_F_NEXT &&& VRING_DESC_F_NEXT ≠ 0 := by decide
    have hn2 : VRING_DESC_F_WRITE &&& VRING_DESC_F_NEXT = 0 := by decide
    calc freeChainFrom (NUM + 1) m r.d0
        = freeChainFrom NUM m1 (m.disk.desc r.d0).next := freeChainFrom_next he1 (by rwa [h0])
      _ = freeChainFrom 7 m2 (m1.disk.desc r.d1).next := by
          rw [h0]
          exact freeChainFrom_next he2 (by rw [hd1, h1]; exact flags1 r)
      _ = .ok m3 := by
          rw [hd1, h1]
          exact freeChainFrom_last he3 (by rwa [hd2, h2])
  · rw [hf3, hf2, hf1]
    simp only [Function.update_apply, Request.descs, List.mem_cons, List.not_mem_nil, or_false]
    by_cases hc2 : d = r.d2
    · simp [hc2]
    · by_cases hc1 : d = r.d1
      · simp [hc1]
      · by_cases hc0 : d = r.d0 <;> simp [hc0, hc1, hc2]
  · have hd' : d ≠ r.d0 ∧ d ≠ r.d1 ∧ d ≠ r.d2 := by simpa [Request.descs] using hd
    rw [hk3 d hd'.2.2, hk2 d hd'.2.1, hk1 d hd'.1]

theorem congr (h : Formatted s r) (hb : s'.blockno = s.blockno)
    (hdesc : ∀ d ∈ r.descs, s'.disk.desc d = s.disk.desc d)
    (hop : s'.disk.ops r.d0 = s.disk.ops r.d0) (hinfo : s'.disk.infoB r.d0 = s.disk.infoB r.d0) :
    Formatted s' r := by
  obtain ⟨hm0, hm1, hm2⟩ := r.mem_descs
  exact ⟨by rw [hop, hb, h.op], by rw [hdesc _ hm0, h.desc0], by rw [hdesc _ hm1, h.desc1],
    by rw [hdesc _ hm2, h.desc2], by rw [hinfo, h.info]⟩

end Formatted

structure Submitted (s : Shared) (r : Request) (n : ℕ) : Prop where
  number : s.submitted[n]? = some r
  formatted : Formatted s r
  flag : s.bufDisk r.b = false ↔ n ∈ s.seen
  status : n ∈ s.done → s.disk.infoStatus r.d0 = 0

def Fits (s : Shared) : Pc → Prop
  | .rwRing r => Formatted s r ∧ s.bufDisk r.b = true
  | .rwIdx r => Formatted s r ∧ s.bufDisk r.b = true ∧
      s.disk.availRing (s.disk.availIdx % NUM) = r.d0
  | .rwWait r n | .rwSleep r n | .rwReacquire r n => Submitted s r n
  | .rwFree r n => Submitted s r n ∧ s.bufDisk r.b = false
  | .intrEntry => s.disk.usedSeen ≠ s.disk.usedIdx
  | .intrFinish id => s.disk.usedSeen ≠ s.disk.usedIdx ∧
      id = s.disk.usedRing (s.disk.usedSeen % NUM)
  | .idle | .rwAcquire _ _ | .rwAlloc _ _ | .rwSleepFree _ _ | .rwFormat _ | .rwRelease _
  | .intrAcquire | .intrLoop => True

theorem Fits.submitted (h : Fits s pc) (hw : pc.waiting = some (r, n)) : Submitted s r n := by
  cases pc <;> cases hw
  case rwFree => exact h.1
  all_goals exact h

/-- Outside of the critical section only the requests that have been submitted matter. -/
theorem Fits.of_unlocked (hl : pc.locked = false)
    (hs : ∀ r n, pc.waiting = some (r, n) → Submitted s r n) : Fits s pc := by
  cases pc with
  | rwSleep r n => exact hs r n rfl
  | rwReacquire r n => exact hs r n rfl
  | rwAlloc | rwFormat | rwRing | rwIdx | rwWait | rwFree | rwRelease | intrLoop | intrEntry
  | intrFinish => cases hl
  | _ => trivial

theorem Fits.device (h : Fits s pc) (hform : ∀ r, Formatted s r → Formatted s' r)
    (hbuf : s'.bufDisk = s.bufDisk) (hring : s'.disk.availRing = s.disk.availRing)
    (hidx : s'.disk.availIdx = s.disk.availIdx)
    (hsub : ∀ r n, pc.waiting = some (r, n) → Submitted s r n → Submitted s' r n)
    (hused : s.disk.usedSeen ≠ s.disk.usedIdx → s'.disk.usedSeen ≠ s'.disk.usedIdx ∧
      s'.disk.usedRing (s'.disk.usedSeen % NUM) = s.disk.usedRing (s.disk.usedSeen % NUM)) :
    Fits s' pc := by
  cases pc with
  | rwRing r => exact ⟨hform r h.1, by rw [hbuf]; exact h.2⟩
  | rwIdx r => exact ⟨hform r h.1, by rw [hbuf]; exact h.2.1, by rw [hring, hidx]; exact h.2.2⟩
  | rwWait r n | rwSleep r n | rwReacquire r n => exact hsub r n rfl h
  | rwFree r n => exact ⟨hsub r n rfl h.1, by rw [hbuf]; exact h.2⟩
  | intrEntry => exact (hused h).1
  | intrFinish id => exact ⟨(hused h.1).1, h.2.trans (hused h.1).2.symm⟩
  | _ => trivial

theorem Woken.fits (h : Woken pc pc') (hf : Fits s pc) : Fits s pc' := by
  obtain rfl | ⟨b, w, rfl, rfl⟩ | ⟨r, n, rfl, rfl⟩ := h
  · exact hf
  · exact hf
  · exact hf

/-! ### The invariant -/

structure Own (thread : ℕ → Pc) (free : ℕ → Bool) : Prop where
  owned : ∀ p r, (thread p).request = some r → Owned free r
  disjoint : ∀ p q r r' d, (thread p).request = some r → (thread q).request = some r' →
    d ∈ r.descs → d ∈ r'.descs → p = q
  bufs : ∀ p q b, (thread p).buf = some b → (thread q).buf = some b → p = q

namespace Own
variable {T T' : ℕ → Pc} {free free' : ℕ → Bool}

theorem request_update (hT : ∀ q, Woken (T q) (T' q)) (pc : Pc) (q : ℕ) :
    (Function.update T' p pc q).request = if q = p then pc.request else (T q).request := by
  split_ifs with hq
  · rw [hq, Function.update_self]
  · rw [Function.update_of_ne hq, (hT q).request]

theorem buf_update (hT : ∀ q, Woken (T q) (T' q)) (pc : Pc) (q : ℕ) :
    (Function.update T' p pc q).buf = if q = p then pc.buf else (T q).buf := by
  split_ifs with hq
  · rw [hq, Function.update_self]
  · rw [Function.update_of_ne hq, (hT q).buf]

/-- A buffer that process `p` has taken up is its own. -/
theorem bufs_update (h : Own T free) (hT : ∀ q, Woken (T q) (T' q))
    (hbuf : ∀ b, pc.buf = some b → ∀ q, (T q).buf = some b → q = p) (q q' b : ℕ)
    (hq : (Function.update T' p pc q).buf = some b)
    (hq' : (Function.update T' p pc q').buf = some b) : q = q' := by
  rw [buf_update hT] at hq hq'
  split_ifs at hq with hqp
  · split_ifs at hq' with hqp'
    · rw [hqp, hqp']
    · rw [hqp, hbuf b hq q' hq']
  · split_ifs at hq' with hqp'
    · rw [hqp', hbuf b hq' q hq]
    · exact h.bufs q q' b hq hq'

theorem buf_own (h : Own T free) (hbuf : pc.buf = (T p).buf ∨ pc.buf = none) (b : ℕ)
    (hb : pc.buf = some b) (q : ℕ) (hq : (T q).buf = some b) : q = p := by
  rcases hbuf with heq | heq
  · exact h.bufs q p b hq (heq ▸ hb)
  · rw [heq] at hb
    cases hb

theorem keep (h : Own T free) (hT : ∀ q, Woken (T q) (T' q)) (hreq : pc.request = (T p).request)
    (hbuf : ∀ b, pc.buf = some b → ∀ q, (T q).buf = some b → q = p) :
    Own (Function.update T' p pc) free := by
  have hsame : ∀ q, (Function.update T' p pc q).request = (T q).request := by
    intro q
    rw [request_update hT]
    split_ifs with hq
    · rw [hq, hreq]
    · rfl
  exact ⟨fun q r hq => h.owned q r (hsame q ▸ hq),
    fun q q' r r' d hq hq' => h.disjoint q q' r r' d (hsame q ▸ hq) (hsame q' ▸ hq'),
    h.bufs_update hT hbuf⟩

theorem alloc (h : Own T free) (hT : ∀ q, Woken (T q) (T' q)) (hbuf : pc.buf = (T p).buf)
    (hreq : pc.request = some r) (hnodup : r.descs.Nodup)
    (hfresh : ∀ d ∈ r.descs, d < NUM ∧ free d = true)
    (hfree : ∀ d, free' d = (decide (d ∉ r.descs) && free d)) :
    Own (Function.update T' p pc) free' := by
  have hnew : ∀ {q r'}, (T q).request = some r' → ∀ d ∈ r.descs, d ∉ r'.descs := by
    intro q r' hr' d hd hd'
    have := (h.owned q r' hr').used d hd'
    rw [(hfresh d hd).2] at this
    cases this
  refine ⟨fun q r' hq => ?_, fun q q' r₁ r₂ d hq hq' hd hd' => ?_,
    h.bufs_update hT (h.buf_own (.inl hbuf))⟩
  · rw [request_update hT] at hq
    split_ifs at hq with hqp
    · rw [hreq] at hq
      cases hq
      refine ⟨hnodup, fun d hd => (hfresh d hd).1, fun d hd => ?_⟩
      rw [hfree, decide_eq_false (not_not.2 hd), Bool.false_and]
    · have ho := h.owned q r' hq
      refine ⟨ho.nodup, ho.lt, fun d hd => ?_⟩
      rw [hfree, ho.used d hd, Bool.and_false]
  · rw [request_update hT] at hq hq'
    split_ifs at hq with hqp
    · rw [hreq] at hq
      cases hq
      split_ifs at hq' with hqp'
      · rw [hqp, hqp']
      · exact absurd hd' (hnew hq' d hd)
    · split_ifs at hq' with hqp'
      · rw [hreq] at hq'
        cases hq'
        exact absurd hd (hnew hq d hd')
      · exact h.disjoint q q' r₁ r₂ d hq hq' hd hd'

theorem give (h : Own T free) (hT : ∀ q, Woken (T q) (T' q)) (hbuf : pc.buf = (T p).buf)
    (hold : (T p).request = some r) (hreq : pc.request = none)
    (hfree : ∀ d, free' d = (decide (d ∈ r.descs) || free d)) :
    Own (Function.update T' p pc) free' := by
  have hne : ∀ {q r'}, (Function.update T' p pc q).request = some r' →
      q ≠ p ∧ (T q).request = some r' := by
    intro q r' hq
    rw [request_update hT] at hq
    split_ifs at hq with hqp
    · rw [hreq] at hq
      cases hq
    · exact ⟨hqp, hq⟩
  refine ⟨fun q r' hq => ?_, fun q q' r₁ r₂ d hq hq' hd hd' => ?_,
    h.bufs_update hT (h.buf_own (.inl hbuf))⟩
  · obtain ⟨hqp, hq⟩ := hne hq
    have ho := h.owned q r' hq
    refine ⟨ho.nodup, ho.lt, fun d hd => ?_⟩
    have hd' : d ∉ r.descs := fun hc => hqp (h.disjoint q p r' r d hq hold hd hc)
    rw [hfree, decide_eq_false hd', Bool.false_or, ho.used d hd]
  · exact h.disjoint q q' r₁ r₂ d (hne hq).2 (hne hq').2 hd hd'

end Own

structure History (s : Shared) : Prop where
  avail : Ring (2 ^ 16) NUM s.disk.availRing s.availSeen s.disk.availIdx s.taken
    (s.submitted.map Request.d0)
  used : Ring (2 ^ 16) NUM s.disk.usedRing s.disk.usedSeen s.disk.usedIdx s.handled
    (s.completed.map Prod.snd)
  jobs : ∀ j ∈ s.working, j.status = .status j.head ∧ ∃ r, s.submitted[j.n]? = some r ∧ j.head = r.d0
  heads : ∀ x ∈ s.completed, ∃ r, s.submitted[x.1]? = some r ∧ x.2 = r.d0
  order : (s.working.map Job.n ++ s.done).Perm (List.range s.taken)

structure Inv (m : Machine) : Prop where
  mutex : ∀ p, (m.thread p).locked = true → m.lock = some p
  own : Own m.thread m.disk.free
  history : History m.toShared
  fits : ∀ p, Fits m.toShared (m.thread p)
  live : ∀ n, n < m.submitted.length → n ∉ m.seen → ∃ p r, (m.thread p).waiting = some (r, n)

theorem Initial.inv (h : Initial m) : Inv m := by
  have hidle := h.thread
  refine ⟨fun p hp => ?_, ⟨fun p r hp => ?_, fun p q r r' d hp => ?_, fun p q b hp => ?_⟩,
    ⟨?_, ?_, fun j hj => ?_, fun x hx => ?_, ?_⟩, fun p => ?_, fun n hn => ?_⟩
  · rw [hidle] at hp
    cases hp
  · rw [hidle] at hp
    cases hp
  · rw [hidle] at hp
    cases hp
  · rw [hidle] at hp
    cases hp
  · rw [h.availSeen, h.availIdx, h.taken, h.submitted]
    exact .empty _ _ _
  · rw [h.usedSeen, h.usedIdx, h.handled, h.completed]
    exact .empty _ _ _
  · rw [h.working] at hj
    cases hj
  · rw [h.completed] at hx
    cases hx
  · rw [Shared.done, h.working, h.completed, h.taken]
    exact .refl _
  · rw [hidle]
    trivial
  · rw [h.submitted] at hn
    exact absurd hn (Nat.not_lt_zero n)

namespace Inv

theorem unlocked (h : Inv m) (hl : m.lock = some p ∨ m.lock = none) (hq : q ≠ p) :
    (m.thread q).locked = false := by
  by_contra hlocked
  have hlock := h.mutex q (by simpa using hlocked)
  rcases hl with hl | hl <;> rw [hl] at hlock <;> cases hlock
  exact hq rfl

theorem find (h : Inv m) (hn : m.submitted[n]? = some r) (hs : n ∉ m.seen) :
    ∃ p, (m.thread p).waiting = some (r, n) ∧ Submitted m.toShared r n := by
  obtain ⟨p, r', hp⟩ := h.live n (List.getElem?_eq_some_iff.1 hn).1 hs
  have hsub := (h.fits p).submitted hp
  have : r' = r := by
    have := hsub.number
    rw [hn] at this
    exact (Option.some.inj this).symm
  rw [this] at hp hsub
  exact ⟨p, hp, hsub⟩

/-- Requests that the handler has not seen have different heads. -/
theorem head_inj {n' : ℕ} (h : Inv m) (hn : m.submitted[n]? = some r) (hs : n ∉ m.seen)
    (hn' : m.submitted[n']? = some r') (hs' : n' ∉ m.seen) (hd : r.d0 = r'.d0) : n = n' := by
  obtain ⟨p, hp, -⟩ := h.find hn hs
  obtain ⟨q, hq, -⟩ := h.find hn' hs'
  have hpq : p = q := h.own.disjoint p q r r' r.d0 (Pc.request_of_waiting hp)
    (Pc.request_of_waiting hq) r.mem_descs.1 (hd ▸ r'.mem_descs.1)
  rw [hpq, hq] at hp
  cases hp
  rfl

/-- There is room for one more: fewer than `NUM` requests are unseen besides one with
another head. -/
theorem room {l : List ℕ} {d : ℕ} (h : Inv m) (hl : l.Nodup)
    (hmem : ∀ n ∈ l, n ∉ m.seen ∧ ∃ r, m.submitted[n]? = some r ∧ r.d0 ≠ d) (hd : d < NUM) :
    l.length < NUM := by
  let g : ℕ → ℕ := fun n => (m.submitted[n]?.map Request.d0).getD 0
  have hg : ∀ {n r}, m.submitted[n]? = some r → g n = r.d0 := by
    intro n r hn
    show (m.submitted[n]?.map Request.d0).getD 0 = r.d0
    rw [hn]
    rfl
  have hnodup : (d :: l.map g).Nodup := by
    refine List.nodup_cons.2 ⟨fun hd => ?_, hl.map_on fun n hn n' hn' heq => ?_⟩
    · obtain ⟨n, hn, hgn⟩ := List.mem_map.1 hd
      obtain ⟨-, r, hr, hne⟩ := hmem n hn
      exact hne ((hg hr).symm.trans hgn)
    · obtain ⟨hs, r, hr, -⟩ := hmem n hn
      obtain ⟨hs', r', hr', -⟩ := hmem n' hn'
      rw [hg hr, hg hr'] at heq
      exact h.head_inj hr hs hr' hs' heq
  have hsub : d :: l.map g ⊆ List.range NUM := by
    intro e he
    rcases List.mem_cons.1 he with rfl | he
    · exact List.mem_range.2 hd
    · obtain ⟨n, hn, rfl⟩ := List.mem_map.1 he
      obtain ⟨hs, r, hr, -⟩ := hmem n hn
      obtain ⟨p, hp, -⟩ := h.find hr hs
      rw [hg hr]
      exact List.mem_range.2 ((h.own.owned p r (Pc.request_of_waiting hp)).lt _ r.mem_descs.1)
  have := (hnodup.subperm hsub).length_le
  rw [List.length_cons, List.length_map, List.length_range] at this
  omega

/-! ### One step -/

/-- Process `p` goes to `pc`; when that touches anything but its own place, it is the one
in the critical section. -/
theorem update {T : ℕ → Pc} {lock : Option ℕ} (h : Inv m) (hT : ∀ q, Woken (m.thread q) (T q))
    (hmutex : (∀ q, q ≠ p → (m.thread q).locked = true → lock = some q) ∧
      (pc.locked = true → lock = some p))
    (hown : Own (Function.update T p pc) s'.disk.free) (hhist : History s') (hfits : Fits s' pc)
    (hframe : ∀ q, q ≠ p → Fits m.toShared (T q) → Fits s' (T q))
    (hlive : ∀ n, n < s'.submitted.length → n ∉ s'.seen → (∃ r, pc.waiting = some (r, n)) ∨
      n < m.submitted.length ∧ n ∉ m.seen ∧ ∀ r, (m.thread p).waiting ≠ some (r, n)) :
    Inv { toShared := s', lock := lock, thread := Function.update T p pc } := by
  refine ⟨fun q (hq : (Function.update T p pc q).locked = true) => ?_, hown, hhist, fun q => ?_,
    fun n hn hs => ?_⟩
  · by_cases hqp : q = p
    · rw [hqp, Function.update_self] at hq
      rw [hqp]
      exact hmutex.2 hq
    · rw [Function.update_of_ne hqp, (hT q).locked] at hq
      exact hmutex.1 q hqp hq
  · show Fits s' (Function.update T p pc q)
    by_cases hqp : q = p
    · rw [hqp, Function.update_self]
      exact hfits
    · rw [Function.update_of_ne hqp]
      exact hframe q hqp ((hT q).fits (h.fits q))
  · show ∃ q r, (Function.update T p pc q).waiting = some (r, n)
    rcases hlive n hn hs with ⟨r, hr⟩ | ⟨hn, hs, hne⟩
    · exact ⟨p, r, by rw [Function.update_self, hr]⟩
    · obtain ⟨q, r, hq⟩ := h.live n hn hs
      have hqp : q ≠ p := by
        rintro rfl
        exact hne r hq
      exact ⟨q, r, by rw [Function.update_of_ne hqp, (hT q).waiting, hq]⟩

theorem within {T : ℕ → Pc} {lock : Option ℕ} (h : Inv m) (hl : (m.thread p).locked = true)
    (hT : ∀ q, Woken (m.thread q) (T q))
    (hmutex : lock = none ∧ pc.locked = false ∨ lock = some p)
    (hown : Own (Function.update T p pc) s'.disk.free) (hhist : History s') (hfits : Fits s' pc)
    (hframe : ∀ q r n, q ≠ p → (m.thread q).waiting = some (r, n) → Submitted m.toShared r n →
      Submitted s' r n)
    (hlive : ∀ n, n < s'.submitted.length → n ∉ s'.seen → (∃ r, pc.waiting = some (r, n)) ∨
      n < m.submitted.length ∧ n ∉ m.seen ∧ ∀ r, (m.thread p).waiting ≠ some (r, n)) :
    Inv { toShared := s', lock := lock, thread := Function.update T p pc } := by
  have hfree : ∀ q, q ≠ p → (m.thread q).locked = false := fun q hq =>
    h.unlocked (.inl (h.mutex p hl)) hq
  refine h.update hT ⟨fun q hq hlq => ?_, fun hpc => ?_⟩ hown hhist hfits (fun q hq hfq => ?_) hlive
  · rw [hfree q hq] at hlq
    cases hlq
  · refine hmutex.resolve_left fun hm => ?_
    rw [hm.2] at hpc
    cases hpc
  · refine .of_unlocked ((hT q).locked.trans (hfree q hq)) fun r n hw => ?_
    exact hframe q r n hq ((hT q).waiting ▸ hw) (hfq.submitted hw)

theorem quiet {lock : Option ℕ} (h : Inv m)
    (hmutex : (∀ q, q ≠ p → (m.thread q).locked = true → lock = some q) ∧
      (pc.locked = true → lock = some p))
    (hreq : pc.request = (m.thread p).request)
    (hbuf : ∀ b, pc.buf = some b → ∀ q, (m.thread q).buf = some b → q = p)
    (hwait : pc.waiting = (m.thread p).waiting) (hfits : Fits m.toShared pc) :
    Inv { toShared := m.toShared, lock := lock, thread := Function.update m.thread p pc } := by
  refine h.update (fun _ => .refl _) hmutex (h.own.keep (fun _ => .refl _) hreq hbuf) h.history hfits
    (fun _ _ => id) fun n hn hs => ?_
  by_cases hp : ∃ r, pc.waiting = some (r, n)
  · exact .inl hp
  · rw [hwait] at hp
    exact .inr ⟨hn, hs, fun r hr => hp ⟨r, hr⟩⟩

theorem acquire (h : Inv m) (hs : Virtio.acquire m p pc = .ok m')
    (hreq : pc.request = (m.thread p).request) (hbuf : pc.buf = (m.thread p).buf)
    (hwait : pc.waiting = (m.thread p).waiting) (hfits : Fits m.toShared pc) : Inv m' := by
  unfold Virtio.acquire at hs
  split_ifs at hs with hl
  cases hs
  refine h.quiet ⟨fun q hq hlq => ?_, fun _ => rfl⟩ hreq (h.own.buf_own (.inl hbuf)) hwait hfits
  rw [h.unlocked (.inr hl) hq] at hlq
  cases hlq

theorem move {lock : Option ℕ} (h : Inv m) (hl : (m.thread p).locked = true)
    (hmutex : lock = none ∧ pc.locked = false ∨ lock = some p)
    (hreq : pc.request = (m.thread p).request) (hbuf : pc.buf = (m.thread p).buf ∨ pc.buf = none)
    (hwait : pc.waiting = (m.thread p).waiting) (hfits : Fits m.toShared pc) :
    Inv { toShared := m.toShared, lock := lock, thread := Function.update m.thread p pc } := by
  refine h.quiet ⟨fun q hq hlq => ?_, fun hpc => ?_⟩ hreq (h.own.buf_own hbuf) hwait hfits
  · rw [h.unlocked (.inl (h.mutex p hl)) hq] at hlq
    cases hlq
  · refine hmutex.resolve_left fun hm => ?_
    rw [hm.2] at hpc
    cases hpc

theorem rwAlloc {b : ℕ} {w : Bool} (h : Inv m) (hpc : m.thread p = .rwAlloc b w) :
    ∃ m', go m p (.rwAlloc b w) = .ok m' ∧ Inv m' := by
  have hl : (m.thread p).locked = true := by rw [hpc]; rfl
  have hlock := h.mutex p hl
  have hbuf : (m.thread p).buf = some b := by rw [hpc]; rfl
  have hreq : (m.thread p).request = none := by rw [hpc]; rfl
  have hwait : ∀ n r, (m.thread p).waiting ≠ some (r, n) := by
    intro n r
    rw [hpc]
    exact (Option.some_ne_none _).symm
  obtain ⟨d0, d1, d2, m1, he, ht, hnodup, hfresh, hdesc, hfree⟩ | ⟨m1, he, ht, hfree, hdesc⟩ :=
    alloc3Desc_cases m
  · refine ⟨m1.goto p (.rwFormat ⟨b, w, d0, d1, d2⟩), by rw [go, he]; rfl, ?_⟩
    obtain ⟨desc, free, T, rfl⟩ := ht.eq
    cases hdesc
    refine h.within hl ht.thread (.inr hlock) (h.own.alloc ht.thread hbuf.symm rfl hnodup hfresh hfree)
      ⟨h.history.1, h.history.2, h.history.3, h.history.4, h.history.5⟩ trivial
      (fun q r n _ _ hsub => ?_) fun n hn hs => .inr ⟨hn, hs, hwait n⟩
    exact ⟨hsub.number, hsub.formatted.congr rfl (fun _ _ => rfl) rfl rfl, hsub.flag, hsub.status⟩
  · refine ⟨m1.release.goto p (.rwSleepFree b w), by rw [go, he]; rfl, ?_⟩
    obtain ⟨desc, free, T, rfl⟩ := ht.eq
    cases hfree
    refine h.within hl ht.thread (.inl ⟨rfl, rfl⟩)
      (h.own.keep ht.thread hreq.symm (h.own.buf_own (.inl hbuf.symm)))
      ⟨h.history.1, h.history.2, h.history.3, h.history.4, h.history.5⟩ trivial
      (fun q r n _ hw hsub => ?_) fun n hn hs => .inr ⟨hn, hs, hwait n⟩
    have ho := h.own.owned q r (Pc.request_of_waiting hw)
    exact ⟨hsub.number, hsub.formatted.congr rfl (fun d hd => hdesc d (ho.used d hd)) rfl rfl,
      hsub.flag, hsub.status⟩

/-- Another process's request has other descriptors and another buffer. -/
theorem apart (h : Inv m) (hp : (m.thread p).request = some r)
    (hq : (m.thread q).request = some r') (hqp : q ≠ p) :
    (∀ d ∈ r'.descs, d ∉ r.descs) ∧ r'.b ≠ r.b := by
  refine ⟨fun d hd hd' => hqp (h.own.disjoint q p r' r d hq hp hd hd'), fun hb => hqp ?_⟩
  exact h.own.bufs q p r.b (hb ▸ Pc.buf_of_request hq) (Pc.buf_of_request hp)

theorem formatted_format (ho : Owned m.disk.free r) :
    Formatted { m.toShared with
      disk := m.disk.format r (m.blockno r.b)
      bufDisk := Function.update m.bufDisk r.b true } r := by
  obtain ⟨h01, h02, h12⟩ := ho.ne
  refine ⟨Function.update_self _ _ _, ?_, ?_, Function.update_self _ _ _, Function.update_self _ _ _⟩
  · show Function.update _ r.d2 _ r.d0 = _
    rw [Function.update_of_ne h02, Function.update_of_ne h01, Function.update_self]
  · show Function.update _ r.d2 _ r.d1 = _
    rw [Function.update_of_ne h12, Function.update_self]

theorem rwFormat (h : Inv m) (hpc : m.thread p = .rwFormat r) :
    ∃ m', go m p (.rwFormat r) = .ok m' ∧ Inv m' := by
  have hl : (m.thread p).locked = true := by rw [hpc]; rfl
  have hreq : (m.thread p).request = some r := by rw [hpc]; rfl
  refine ⟨_, rfl, h.within hl (fun _ => .refl _) (.inr (h.mutex p hl))
    (h.own.keep (fun _ => .refl _) hreq.symm (h.own.buf_own (.inl (by rw [hpc]; rfl))))
    ⟨h.history.1, h.history.2, h.history.3, h.history.4, h.history.5⟩
    ⟨formatted_format (h.own.owned p r hreq), Function.update_self _ _ _⟩
    (fun q r' n hqp hw hsub => ?_) fun n hn hs => .inr ⟨hn, hs, fun r => ?_⟩⟩
  · obtain ⟨hd, hb⟩ := h.apart hreq (Pc.request_of_waiting hw) hqp
    have hne : ∀ d ∈ r'.descs, d ≠ r.d0 ∧ d ≠ r.d1 ∧ d ≠ r.d2 := by
      intro d hd'
      simpa [Request.descs] using hd d hd'
    have hne0 := (hne r'.d0 r'.mem_descs.1).1
    refine ⟨hsub.number, hsub.formatted.congr rfl (fun d hd' => ?_) ?_ ?_, ?_, fun hn => ?_⟩
    · show Function.update _ r.d2 _ d = _
      rw [Function.update_of_ne (hne d hd').2.2, Function.update_of_ne (hne d hd').2.1,
        Function.update_of_ne (hne d hd').1]
    · exact Function.update_of_ne hne0 _ _
    · exact Function.update_of_ne hne0 _ _
    · show Function.update m.bufDisk r.b true r'.b = false ↔ n ∈ m.seen
      rw [Function.update_of_ne hb]
      exact hsub.flag
    · show Function.update m.disk.infoStatus r.d0 0xff r'.d0 = 0
      rw [Function.update_of_ne hne0]
      exact hsub.status hn
  · rw [hpc]
    exact (Option.some_ne_none _).symm

theorem dvd : NUM ∣ 2 ^ 16 := by decide

theorem lt_taken (h : Inv m) (hn : n ∈ m.done) : n < m.taken :=
  List.mem_range.1 (h.history.order.mem_iff.1 (List.mem_append_right _ hn))

theorem mem_done_of_seen (hn : n ∈ s.seen) : n ∈ s.done := List.mem_of_mem_take hn

/-- The avail ring has room for a request that is about to be submitted. -/
theorem avail_room (h : Inv m) (hreq : (m.thread p).request = some r)
    (hwait : (m.thread p).waiting = none) :
    (m.submitted.map Request.d0).length < m.taken + NUM := by
  have hroom : (List.range' m.taken (m.submitted.length - m.taken)).length < NUM := by
    refine h.room List.nodup_range' (fun n hn => ?_)
      ((h.own.owned p r hreq).lt _ r.mem_descs.1)
    obtain ⟨hge, hlt⟩ := List.mem_range'_1.1 hn
    have hs : n ∉ m.seen := fun hs => absurd (h.lt_taken (mem_done_of_seen hs)) (by omega)
    have hsome := List.getElem?_eq_getElem (l := m.submitted) (i := n) (by omega)
    refine ⟨hs, _, hsome, fun hd => ?_⟩
    obtain ⟨q, hq, -⟩ := h.find hsome hs
    have hqp : q ≠ p := by
      rintro rfl
      rw [hwait] at hq
      cases hq
    refine (h.apart hreq (Pc.request_of_waiting hq) hqp).1 r.d0 ?_ r.mem_descs.1
    rw [← hd]
    exact (Request.mem_descs _).1
  rw [List.length_range'] at hroom
  rw [List.length_map]
  omega

theorem rwRing (h : Inv m) (hpc : m.thread p = .rwRing r) :
    ∃ m', go m p (.rwRing r) = .ok m' ∧ Inv m' := by
  have hl : (m.thread p).locked = true := by rw [hpc]; rfl
  have hreq : (m.thread p).request = some r := by rw [hpc]; rfl
  have hfits := h.fits p
  rw [hpc] at hfits
  obtain ⟨hform, hflag⟩ := hfits
  refine ⟨_, rfl, h.within hl (fun _ => .refl _) (.inr (h.mutex p hl))
    (h.own.keep (fun _ => .refl _) hreq.symm (h.own.buf_own (.inl (by rw [hpc]; rfl))))
    ⟨h.history.avail.poke dvd (h.avail_room hreq (by rw [hpc]; rfl)) _, h.history.2, h.history.3,
      h.history.4, h.history.5⟩
    ⟨hform.congr rfl (fun _ _ => rfl) rfl rfl, hflag, Function.update_self _ _ _⟩
    (fun q r' n _ _ hsub => ?_) fun n hn hs => .inr ⟨hn, hs, fun r => ?_⟩⟩
  · exact ⟨hsub.number, hsub.formatted.congr rfl (fun _ _ => rfl) rfl rfl, hsub.flag, hsub.status⟩
  · rw [hpc]
    exact (Option.some_ne_none _).symm

theorem getElem?_snoc {α : Type} {l : List α} {a b : α} {i : ℕ} (h : l[i]? = some a) :
    (l ++ [b])[i]? = some a := by
  rw [List.getElem?_append_left (List.getElem?_eq_some_iff.1 h).1, h]

theorem rwIdx (h : Inv m) (hpc : m.thread p = .rwIdx r) :
    ∃ m', go m p (.rwIdx r) = .ok m' ∧ Inv m' := by
  have hl : (m.thread p).locked = true := by rw [hpc]; rfl
  have hreq : (m.thread p).request = some r := by rw [hpc]; rfl
  have hfits := h.fits p
  rw [hpc] at hfits
  obtain ⟨hform, hflag, hslot⟩ := hfits
  have hnew : m.submitted.length ∉ m.done := by
    intro hn
    have := h.lt_taken hn
    have := h.history.avail.taken
    rw [List.length_map] at this
    omega
  have hring := h.history.avail.commit dvd (h.avail_room hreq (by rw [hpc]; rfl)) hslot
  rw [show m.submitted.map Request.d0 ++ [r.d0] = (m.submitted ++ [r]).map Request.d0 by simp]
    at hring
  refine ⟨_, rfl, h.within hl (fun _ => .refl _) (.inr (h.mutex p hl))
    (h.own.keep (fun _ => .refl _) hreq.symm (h.own.buf_own (.inl (by rw [hpc]; rfl))))
    ⟨hring, h.history.used, fun j hj => ?_, fun x hx => ?_, h.history.order⟩
    ⟨List.getElem?_concat_length, hform.congr rfl (fun _ _ => rfl) rfl rfl, ?_, fun hn => ?_⟩
    (fun q r' n _ _ hsub => ?_) fun n hn hs => ?_⟩
  · obtain ⟨hst, r', hr', hd⟩ := h.history.jobs j hj
    exact ⟨hst, r', getElem?_snoc hr', hd⟩
  · obtain ⟨r', hr', hd⟩ := h.history.heads x hx
    exact ⟨r', getElem?_snoc hr', hd⟩
  · refine iff_of_false ?_ fun hs => hnew (mem_done_of_seen hs)
    show m.bufDisk r.b ≠ false
    rw [hflag]
    exact Bool.noConfusion
  · exact absurd hn hnew
  · exact ⟨getElem?_snoc hsub.number, hsub.formatted.congr rfl (fun _ _ => rfl) rfl rfl, hsub.flag,
      hsub.status⟩
  · change n < (m.submitted ++ [r]).length at hn
    rw [List.length_append, List.length_singleton] at hn
    rcases Nat.lt_succ_iff_lt_or_eq.1 hn with hlt | rfl
    · refine .inr ⟨hlt, hs, fun r => ?_⟩
      rw [hpc]
      exact (Option.some_ne_none _).symm
    · exact .inl ⟨r, rfl⟩

/-- The end of a request, with exactly its own descriptors freed. -/
theorem rwFree (h : Inv m) (hpc : m.thread p = .rwFree r n) :
    ∃ m', go m p (.rwFree r n) = .ok m' ∧ Inv m' ∧
      ∀ d, m'.disk.free d = (decide (d ∈ r.descs) || m.disk.free d) := by
  have hl : (m.thread p).locked = true := by rw [hpc]; rfl
  have hreq : (m.thread p).request = some r := by rw [hpc]; rfl
  have ho := h.own.owned p r hreq
  have hfits := h.fits p
  rw [hpc] at hfits
  obtain ⟨hsub, hflag⟩ := hfits
  have hseen := hsub.flag.1 hflag
  obtain ⟨m1, he, ht, hfree, hdesc⟩ := Formatted.freeChain
    (m := { m with disk := { m.disk with infoB := Function.update m.disk.infoB r.d0 none } }) ho
    hsub.formatted.desc0 hsub.formatted.desc1 hsub.formatted.desc2
  refine ⟨m1.goto p (.rwRelease r.b), by rw [go, he]; rfl, ?_, hfree⟩
  obtain ⟨desc, free, T, rfl⟩ := ht.eq
  refine h.within hl ht.thread (.inr (h.mutex p hl))
    (h.own.give ht.thread (by rw [hpc]; rfl) hreq rfl hfree)
    ⟨h.history.1, h.history.2, h.history.3, h.history.4, h.history.5⟩ trivial
    (fun q r' n' hqp hw hsub' => ?_) fun n' hn' hs => .inr ⟨hn', hs, fun r' hr' => ?_⟩
  · have hd := (h.apart hreq (Pc.request_of_waiting hw) hqp).1
    refine ⟨hsub'.number, hsub'.formatted.congr rfl (fun d hd' => hdesc d (hd d hd')) rfl ?_,
      hsub'.flag, hsub'.status⟩
    refine Function.update_of_ne ?_ _ _
    intro heq
    exact hd r'.d0 r'.mem_descs.1 (heq ▸ r.mem_descs.1)
  · rw [hpc] at hr'
    cases hr'
    exact hs hseen

theorem done_nodup (h : Inv m) : m.done.Nodup :=
  (List.nodup_append.1 (h.history.order.nodup_iff.2 List.nodup_range)).2.1

/-- The used entry that comes next is that of a request whose process waits. -/
theorem next_used (h : Inv m) (hne : m.disk.usedSeen ≠ m.disk.usedIdx) :
    ∃ n r q, m.completed[m.handled]? = some (n, r.d0) ∧
      m.disk.usedRing (m.disk.usedSeen % NUM) = r.d0 ∧ n ∉ m.seen ∧ n ∈ m.done ∧
      (m.thread q).waiting = some (r, n) ∧ Submitted m.toShared r n := by
  have hlt := h.history.used.lt_of_ne (by decide) hne
  have hnext := h.history.used.next dvd hlt
  rw [List.getElem?_map, Option.map_eq_some_iff] at hnext
  obtain ⟨x, hx, hx2⟩ := hnext
  obtain ⟨r, hr, hd⟩ := h.history.heads x (List.mem_of_getElem? hx)
  have hdone : m.done[m.handled]? = some x.1 := by
    rw [Shared.done, List.getElem?_map, hx]
    rfl
  have hs : x.1 ∉ m.seen := by
    intro hs
    rw [Shared.seen, List.mem_take_iff_getElem] at hs
    obtain ⟨i, hi, heq⟩ := hs
    have hi' : m.done[i]? = some x.1 := by
      rw [List.getElem?_eq_getElem (by omega), heq]
    have := (List.getElem?_inj (by omega) h.done_nodup).1 (hi'.trans hdone.symm)
    omega
  obtain ⟨q, hq, hsub⟩ := h.find hr hs
  exact ⟨x.1, r, q, by rw [hx, ← hd], by rw [← hx2, hd], hs, List.mem_of_getElem? hdone, hq, hsub⟩

theorem seen_succ {x : ℕ × ℕ} (hx : s.completed[s.handled]? = some x) :
    s.done.take (s.handled + 1) = s.seen ++ [x.1] := by
  rw [Shared.seen, List.take_add_one, Shared.done, List.getElem?_map, hx]
  rfl

theorem intrFinish {id : ℕ} (h : Inv m) (hpc : m.thread p = .intrFinish id) :
    ∃ m', go m p (.intrFinish id) = .ok m' ∧ Inv m' := by
  have hl : (m.thread p).locked = true := by rw [hpc]; rfl
  have hfits := h.fits p
  rw [hpc] at hfits
  obtain ⟨hne, rfl⟩ := hfits
  obtain ⟨n, r, q, hx, hring, hs, hdone, hq, hsub⟩ := h.next_used hne
  rw [hring] at hpc
  have hlt := h.history.used.lt_of_ne (by decide) hne
  have hseen := seen_succ hx
  rw [hring, go, if_neg (not_not.2 (hsub.status hdone)), hsub.formatted.info]
  refine ⟨_, rfl, h.within hl (fun q => .buffer r.b _) (.inr (h.mutex p hl))
    (h.own.keep (fun q => .buffer r.b _) (by rw [hpc]; rfl) (h.own.buf_own (.inr rfl)))
    ⟨h.history.avail, h.history.used.pop hlt, h.history.jobs, h.history.heads, h.history.order⟩
    trivial (fun q' r' n' hqp hw hsub' => ?_) fun n' hn' hs' => .inr ⟨hn', fun hc => hs' ?_, fun r' => ?_⟩⟩
  · refine ⟨hsub'.number, hsub'.formatted.congr rfl (fun _ _ => rfl) rfl rfl, ?_, hsub'.status⟩
    show Function.update m.bufDisk r.b false r'.b = false ↔ n' ∈ m.done.take (m.handled + 1)
    rw [hseen, List.mem_append, List.mem_singleton, ← hsub'.flag]
    by_cases hb : r'.b = r.b
    · have hqq : q' = q := h.own.bufs q' q r.b
        (hb ▸ Pc.buf_of_request (Pc.request_of_waiting hw))
        (Pc.buf_of_request (Pc.request_of_waiting hq))
      rw [hqq, hq] at hw
      cases hw
      simp
    · rw [Function.update_of_ne hb]
      refine ⟨.inl, fun hor => hor.resolve_right ?_⟩
      rintro rfl
      have := hsub'.number
      rw [hsub.number] at this
      cases this
      exact hb rfl
  · show n' ∈ m.done.take (m.handled + 1)
    rw [hseen]
    exact List.mem_append_left _ hc
  · rw [hpc]
    exact (Option.some_ne_none _).symm

/-! ### The device -/

theorem device (h : Inv m) (hfree : s'.disk.free = m.disk.free) (hhist : History s')
    (hsub : s'.submitted = m.submitted) (hseen : s'.seen = m.seen)
    (hfits : ∀ p, Fits s' (m.thread p)) : Inv { m with toShared := s' } := by
  refine ⟨h.mutex, by rw [hfree]; exact h.own, hhist, hfits, fun n hn hs => h.live n ?_ ?_⟩
  · rwa [hsub] at hn
  · rwa [hseen] at hs

theorem deviceTake (h : Inv m) (hne : m.availSeen ≠ m.disk.availIdx) :
    ∃ r m', m.submitted[m.taken]? = some r ∧ m.disk.availRing (m.availSeen % NUM) = r.d0 ∧
      readChain m.disk.desc r.d0 = some (.op r.d0, .data r.b, .status r.d0) ∧
      Virtio.deviceTake m = .ok m' ∧ Inv m' := by
  have hlt := h.history.avail.lt_of_ne (by decide) hne
  have hnext := h.history.avail.next dvd hlt
  rw [List.getElem?_map, Option.map_eq_some_iff] at hnext
  obtain ⟨r, hr, hd⟩ := hnext
  have hs : m.taken ∉ m.seen := fun hs => absurd (h.lt_taken (mem_done_of_seen hs)) (lt_irrefl _)
  obtain ⟨p, hp, hsub⟩ := h.find hr hs
  have hchain := hsub.formatted.readChain
  refine ⟨r, { m with
    availSeen := (m.availSeen + 1) % 2 ^ 16
    working := m.working ++ [⟨r.d0, .status r.d0, m.taken⟩]
    taken := m.taken + 1 }, hr, hd.symm, hchain, ?_, ?_⟩
  · unfold Virtio.deviceTake
    rw [if_neg hne]
    simp only [← hd, hchain]
  · refine h.device rfl ⟨h.history.avail.pop hlt, h.history.used, fun j hj => ?_, h.history.heads, ?_⟩
      rfl rfl fun q => ?_
    · rcases List.mem_append.1 hj with hj | hj
      · exact h.history.jobs j hj
      · rw [List.mem_singleton.1 hj]
        exact ⟨rfl, r, hr, rfl⟩
    · show ((m.working ++ [_]).map Job.n ++ m.done).Perm (List.range (m.taken + 1))
      rw [List.map_append, List.range_succ, List.append_assoc]
      refine (List.perm_append_comm_assoc _ _ _).trans ?_
      exact (List.perm_append_comm).trans (h.history.order.append_right _)
    · refine (h.fits q).device (fun _ hf => hf.congr rfl (fun _ _ => rfl) rfl rfl) rfl rfl rfl
        (fun r' n _ hsub' => ?_) fun hne => ⟨hne, rfl⟩
      exact ⟨hsub'.number, hsub'.formatted.congr rfl (fun _ _ => rfl) rfl rfl, hsub'.flag,
        hsub'.status⟩

theorem used_room {i : ℕ} {job : Job} (h : Inv m) (hi : m.working[i]? = some job) :
    (m.completed.map Prod.snd).length < m.handled + NUM := by
  have hmem := List.mem_of_getElem? hi
  obtain ⟨-, r, hr, hd⟩ := h.history.jobs job hmem
  have hall := h.history.order.nodup_iff.2 List.nodup_range
  obtain ⟨-, -, hdisj⟩ := List.nodup_append.1 hall
  have hjob : job.n ∉ m.done := fun hj => hdisj job.n (List.mem_map_of_mem hmem) job.n hj rfl
  have hjs : job.n ∉ m.seen := fun hs => hjob (mem_done_of_seen hs)
  obtain ⟨p, hp, -⟩ := h.find hr hjs
  have hsplit := h.done_nodup
  rw [← List.take_append_drop m.handled m.done] at hsplit
  obtain ⟨-, hdrop, hapart⟩ := List.nodup_append.1 hsplit
  have hroom : (m.done.drop m.handled).length < NUM := by
    refine h.room hdrop (fun n hn => ?_)
      ((h.own.owned p r (Pc.request_of_waiting hp)).lt _ r.mem_descs.1)
    have hs : n ∉ m.seen := fun hs => hapart n hs n hn rfl
    have hdone : n ∈ m.done := List.mem_of_mem_drop hn
    obtain ⟨x, hx, rfl⟩ := List.mem_map.1 hdone
    obtain ⟨r', hr', -⟩ := h.history.heads x hx
    refine ⟨hs, r', hr', fun hd' => ?_⟩
    rw [h.head_inj hr' hs hr hjs hd'] at hdone
    exact hjob hdone
  rw [List.length_drop, Shared.done, List.length_map] at hroom
  rw [List.length_map]
  omega

theorem perm_complete {l : List Job} {i : ℕ} {job : Job} {d : List ℕ} (hi : l[i]? = some job) :
    ((l.eraseIdx i).map Job.n ++ (d ++ [job.n])).Perm (l.map Job.n ++ d) := by
  obtain ⟨hlt, heq⟩ := List.getElem?_eq_some_iff.1 hi
  have hperm := (List.getElem_cons_eraseIdx_perm hlt).map Job.n
  rw [heq, List.map_cons] at hperm
  rw [← List.append_assoc]
  exact (List.perm_append_singleton _ _).trans (hperm.append_right d)

theorem deviceComplete {i : ℕ} {job : Job} (h : Inv m) (hi : m.working[i]? = some job) :
    ∃ m', Virtio.deviceComplete m i = .ok m' ∧ Inv m' := by
  obtain ⟨hst, r, hr, hd⟩ := h.history.jobs job (List.mem_of_getElem? hi)
  have hroom := h.used_room hi
  have hring := h.history.used.push dvd hroom job.head
  rw [show m.completed.map Prod.snd ++ [job.head] = (m.completed ++ [(job.n, job.head)]).map Prod.snd
    by simp] at hring
  have hdone : (m.completed ++ [(job.n, job.head)]).map Prod.fst = m.done ++ [job.n] := by
    simp [Shared.done]
  have htaken := h.history.used.taken
  rw [List.length_map] at htaken
  have hseen : ((m.completed ++ [(job.n, job.head)]).map Prod.fst).take m.handled = m.seen := by
    rw [hdone, List.take_append_of_le_length (by rw [Shared.done, List.length_map]; exact htaken)]
    rfl
  rw [Virtio.deviceComplete, hi]
  simp only [hst, Disk.succeed]
  refine ⟨_, rfl, h.device rfl ⟨h.history.avail, hring, fun j hj => ?_, fun x hx => ?_, ?_⟩ rfl hseen fun q => ?_⟩
  · exact h.history.jobs j (List.mem_of_mem_eraseIdx hj)
  · rcases List.mem_append.1 hx with hx | hx
    · exact h.history.heads x hx
    · rw [List.mem_singleton.1 hx]
      exact ⟨r, hr, hd⟩
  · show (_ ++ (m.completed ++ [(job.n, job.head)]).map Prod.fst).Perm (List.range m.taken)
    rw [hdone]
    exact (perm_complete hi).trans h.history.order
  · refine (h.fits q).device (fun _ hf => hf.congr rfl (fun _ _ => rfl) rfl rfl) rfl rfl rfl
      (fun r' n _ hsub => ?_) fun hne => ?_
    · refine ⟨hsub.number, hsub.formatted.congr rfl (fun _ _ => rfl) rfl rfl, ?_, fun hn => ?_⟩
      · show _ ↔ n ∈ ((m.completed ++ [(job.n, job.head)]).map Prod.fst).take m.handled
        rw [hseen]
        exact hsub.flag
      · change n ∈ (m.completed ++ [(job.n, job.head)]).map Prod.fst at hn
        show Function.update m.disk.infoStatus job.head 0 r'.d0 = 0
        rw [Function.update_apply]
        split_ifs with hd'
        · rfl
        · rw [hdone, List.mem_append, List.mem_singleton] at hn
          refine hsub.status (hn.resolve_right ?_)
          rintro rfl
          have := hsub.number
          rw [hr] at this
          cases this
          exact hd' hd.symm
    · have hlt := h.history.used.lt_of_ne (by decide) hne
      have hlt' : m.handled < ((m.completed ++ [(job.n, job.head)]).map Prod.snd).length := by
        rw [List.map_append, List.length_append]
        omega
      have hold := h.history.used.next dvd hlt
      have hnew := hring.next dvd hlt'
      refine ⟨fun heq => ?_, ?_⟩
      · have := (hring.eq_iff (by decide)).1 heq
        omega
      · rw [List.map_append, List.getElem?_append_left hlt, hold] at hnew
        exact (Option.some.inj hnew).symm

/-! ### Runs -/

theorem goto_self {lock : Option ℕ} (hl : m.lock = lock) :
    m.goto p pc = { toShared := m.toShared, lock := lock, thread := Function.update m.thread p pc } := by
  rw [← hl]
  rfl

theorem go (h : Inv m) : Virtio.go m p (m.thread p) = .blocked ∨
    ∃ m', Virtio.go m p (m.thread p) = .ok m' ∧ Inv m' := by
  have hacq : ∀ pc, pc.request = (m.thread p).request → pc.buf = (m.thread p).buf →
      pc.waiting = (m.thread p).waiting → Fits m.toShared pc →
      Virtio.acquire m p pc = .blocked ∨ ∃ m', Virtio.acquire m p pc = .ok m' ∧ Inv m' := by
    intro pc hreq hbuf hwait hfits
    by_cases hl : m.lock = none
    · exact .inr ⟨_, if_pos hl, h.acquire (if_pos hl) hreq hbuf hwait hfits⟩
    · exact .inl (if_neg hl)
  have hfits := h.fits p
  cases hpc : m.thread p with
  | idle | rwSleepFree | rwSleep => exact .inl rfl
  | rwAcquire b w => exact hacq _ (by rw [hpc]; rfl) (by rw [hpc]; rfl) (by rw [hpc]; rfl) trivial
  | rwReacquire r n =>
    rw [hpc] at hfits
    exact hacq _ (by rw [hpc]; rfl) (by rw [hpc]; rfl) (by rw [hpc]; rfl) hfits
  | intrAcquire => exact hacq _ (by rw [hpc]; rfl) (by rw [hpc]; rfl) (by rw [hpc]; rfl) trivial
  | rwAlloc b w => exact .inr (h.rwAlloc hpc)
  | rwFormat r => exact .inr (h.rwFormat hpc)
  | rwRing r => exact .inr (h.rwRing hpc)
  | rwIdx r => exact .inr (h.rwIdx hpc)
  | rwFree r n =>
    obtain ⟨m', hm, hi, -⟩ := h.rwFree hpc
    exact .inr ⟨m', hm, hi⟩
  | intrFinish id => exact .inr (h.intrFinish hpc)
  | rwWait r n =>
    rw [hpc] at hfits
    have hl : (m.thread p).locked = true := by rw [hpc]; rfl
    rw [Virtio.go]
    split_ifs with hb
    · exact .inr ⟨_, rfl, h.move hl (.inl ⟨rfl, rfl⟩) (by rw [hpc]; rfl) (.inl (by rw [hpc]; rfl))
        (by rw [hpc]; rfl) hfits⟩
    · refine .inr ⟨_, rfl, ?_⟩
      rw [goto_self (h.mutex p hl)]
      exact h.move hl (.inr rfl) (by rw [hpc]; rfl) (.inl (by rw [hpc]; rfl)) (by rw [hpc]; rfl)
        ⟨hfits, by simpa using hb⟩
  | rwRelease b =>
    have hl : (m.thread p).locked = true := by rw [hpc]; rfl
    exact .inr ⟨_, rfl, h.move hl (.inl ⟨rfl, rfl⟩) (by rw [hpc]; rfl) (.inr rfl) (by rw [hpc]; rfl)
      trivial⟩
  | intrLoop =>
    have hl : (m.thread p).locked = true := by rw [hpc]; rfl
    rw [Virtio.go]
    split_ifs with hne
    · refine .inr ⟨_, rfl, ?_⟩
      rw [goto_self (h.mutex p hl)]
      exact h.move hl (.inr rfl) (by rw [hpc]; rfl) (.inr rfl) (by rw [hpc]; rfl) hne
    · exact .inr ⟨_, rfl, h.move hl (.inl ⟨rfl, rfl⟩) (by rw [hpc]; rfl) (.inr rfl) (by rw [hpc]; rfl)
        trivial⟩
  | intrEntry =>
    rw [hpc] at hfits
    have hl : (m.thread p).locked = true := by rw [hpc]; rfl
    refine .inr ⟨_, rfl, ?_⟩
    rw [goto_self (h.mutex p hl)]
    exact h.move hl (.inr rfl) (by rw [hpc]; rfl) (.inr rfl) (by rw [hpc]; rfl) ⟨hfits, rfl⟩

theorem begin (h : Inv m) (hidle : m.thread p = .idle) (hl : pc.locked = false)
    (hreq : pc.request = none) (hwait : pc.waiting = none) (hfits : Fits m.toShared pc)
    (hbuf : ∀ b, pc.buf = some b → ∀ q, (m.thread q).buf ≠ some b) : Inv (m.goto p pc) := by
  refine h.quiet ⟨fun q _ hq => h.mutex q hq, fun hc => ?_⟩ ?_ (fun b hb q hq => ?_) ?_ hfits
  · rw [hl] at hc
    cases hc
  · rw [hidle, hreq]
    rfl
  · exact absurd hq (hbuf b hb q)
  · rw [hidle, hwait]
    rfl

/-- No step panics, and every step keeps the invariant. -/
theorem step {a : Choice} (h : Inv m) (hen : Enabled m a) :
    Virtio.step m p a = .blocked ∨ ∃ m', Virtio.step m p a = .ok m' ∧ Inv m' := by
  cases a with
  | rw b w =>
    rw [Virtio.step]
    split_ifs with hidle
    · refine .inr ⟨_, rfl, h.begin hidle rfl rfl rfl trivial fun b' hb q => ?_⟩
      cases hb
      exact hen q
    · exact .inl rfl
  | intr =>
    rw [Virtio.step]
    split_ifs with hidle
    · exact .inr ⟨_, rfl, h.begin hidle rfl rfl rfl trivial fun b' hb => nomatch hb⟩
    · exact .inl rfl
  | go => exact h.go
  | take =>
    by_cases hne : m.availSeen = m.disk.availIdx
    · exact .inl (if_pos hne)
    · obtain ⟨-, m', -, -, -, hm, hi⟩ := h.deviceTake hne
      exact .inr ⟨m', hm, hi⟩
  | complete i =>
    cases hi : m.working[i]? with
    | none =>
      left
      rw [Virtio.step, Virtio.deviceComplete, hi]
    | some job => exact .inr (h.deviceComplete hi)

end Inv

theorem Reachable.inv (h : Reachable m) : Inv m := by
  refine Transition.Reachable.invariant (fun _ hi => hi.inv) (fun m e m' hi hs => ?_) h
  obtain hb | ⟨m'', hm, hi'⟩ := hi.step (p := e.1) hs.1
  · rw [hs.2] at hb
    cases hb
  · rw [hs.2] at hm
    cases hm
    exact hi'

/-- The entries of the avail ring that the device has not taken, and those of the used
ring that the handler has not seen, are in their slots. -/
theorem Inv.slots (h : Inv m) :
    (∀ i r, m.taken ≤ i → m.submitted[i]? = some r → m.disk.availRing (i % NUM) = r.d0) ∧
    ∀ i x, m.handled ≤ i → m.completed[i]? = some x → m.disk.usedRing (i % NUM) = x.2 := by
  constructor
  · intro i r hi hr
    have hlt := (List.getElem?_eq_some_iff.1 hr).1
    have hslot := h.history.avail.slot i hi (by rwa [List.length_map])
    rw [List.getElem?_map, hr] at hslot
    exact (Option.some.inj hslot).symm
  · intro i x hi hx
    have hlt := (List.getElem?_eq_some_iff.1 hx).1
    have hslot := h.history.used.slot i hi (by rwa [List.length_map])
    rw [List.getElem?_map, hx] at hslot
    exact (Option.some.inj hslot).symm

/-- The slots that are written next hold no such entry. -/
theorem Inv.slots_apart (h : Inv m) :
    (∀ p r i, m.thread p = .rwRing r → m.taken ≤ i → i < m.submitted.length →
      i % NUM ≠ m.disk.availIdx % NUM) ∧
    ∀ i, m.working ≠ [] → m.handled ≤ i → i < m.completed.length →
      i % NUM ≠ m.disk.usedIdx % NUM := by
  constructor
  · intro p r i hpc hi hi'
    have hroom := h.avail_room (p := p) (r := r) (by rw [hpc]; rfl) (by rw [hpc]; rfl)
    rw [h.history.avail.write_slot Inv.dvd]
    exact slot_ne (by rwa [List.length_map]) (by omega)
  · intro i hw hi hi'
    obtain ⟨job, l, hl⟩ := List.exists_cons_of_ne_nil hw
    have hroom := h.used_room (i := 0) (by rw [hl]; rfl)
    rw [h.history.used.write_slot Inv.dvd]
    exact slot_ne (by rwa [List.length_map]) (by omega)

theorem Inv.completed_of_flag (h : Inv m) (hw : (m.thread p).waiting = some (r, n))
    (hflag : m.bufDisk r.b = false) : (n, r.d0) ∈ m.completed := by
  have hsub := (h.fits p).submitted hw
  obtain ⟨x, hx, rfl⟩ := List.mem_map.1 (Inv.mem_done_of_seen (hsub.flag.1 hflag))
  obtain ⟨r', hr', hd⟩ := h.history.heads x hx
  rw [hsub.number] at hr'
  cases hr'
  rw [← hd]
  exact hx

/-- The protocol of the driver, the handler and the device. -/
theorem virtio_protocol (h : Reachable m) :
    (∀ p r, (m.thread p).request = some r → r.descs.Nodup ∧
      (∀ d ∈ r.descs, d < NUM ∧ m.disk.free d = false) ∧
      ∀ q r', q ≠ p → (m.thread q).request = some r' → ∀ d ∈ r'.descs, d ∉ r.descs) ∧
    ((∀ i r, m.taken ≤ i → m.submitted[i]? = some r → m.disk.availRing (i % NUM) = r.d0) ∧
      ∀ i x, m.handled ≤ i → m.completed[i]? = some x → m.disk.usedRing (i % NUM) = x.2) ∧
    ((∀ p r i, m.thread p = .rwRing r → m.taken ≤ i → i < m.submitted.length →
        i % NUM ≠ m.disk.availIdx % NUM) ∧
      ∀ i, m.working ≠ [] → m.handled ≤ i → i < m.completed.length →
        i % NUM ≠ m.disk.usedIdx % NUM) ∧
    (∀ p r n, (m.thread p).waiting = some (r, n) → m.submitted[n]? = some r ∧
      (m.bufDisk r.b = false → (n, r.d0) ∈ m.completed)) ∧
    (∀ p r, m.thread p = .rwRing r ∨ m.thread p = .rwIdx r → m.bufDisk r.b = true) ∧
    (∀ p r n, m.thread p = .rwFree r n → ∃ m', step m p .go = .ok m' ∧
      ∀ d, m'.disk.free d = (decide (d ∈ r.descs) || m.disk.free d)) ∧
    ∀ p a e, Enabled m a → step m p a ≠ .panic e := by
  have hi := h.inv
  refine ⟨fun p r hp => ⟨(hi.own.owned p r hp).nodup, fun d hd => ⟨(hi.own.owned p r hp).lt d hd,
    (hi.own.owned p r hp).used d hd⟩, fun q r' hq hr' => (hi.apart hp hr' hq).1⟩, hi.slots,
    hi.slots_apart, fun p r n hw => ⟨((hi.fits p).submitted hw).number, hi.completed_of_flag hw⟩,
    fun p r hpc => ?_, fun p r n hpc => ?_, fun p a e hen hpanic => ?_⟩
  · have hf := hi.fits p
    rcases hpc with hpc | hpc
    · rw [hpc] at hf
      exact hf.2
    · rw [hpc] at hf
      exact hf.2.1
  · obtain ⟨m', hm, -, hfree⟩ := hi.rwFree hpc
    refine ⟨m', ?_, hfree⟩
    rw [step, hpc]
    exact hm
  · obtain hb | ⟨m', hm, -⟩ := hi.step (p := p) hen
    · rw [hpanic] at hb
      cases hb
    · rw [hpanic] at hm
      cases hm

/-- Process `0` reads block `7` into buffer `5`, which the device completes and the handler
sees; then the request frees its descriptors `0`, `1`, `2`. -/
theorem virtio_protocol_read : ∃ m, Reachable m ∧ m.thread 0 = .rwFree ⟨5, false, 0, 1, 2⟩ 0 ∧
    m.completed = [(0, 0)] ∧ ∃ m', step m 0 .go = .ok m' ∧ m'.disk.free 1 = true := by
  have h0 : Reachable ⟨⟨⟨fun _ => ⟨.null, 0, 0, 0⟩, 0, fun _ => 0, 0, fun _ => 0, fun _ => true, 0,
      fun _ => none, fun _ => 0, fun _ => ⟨0, 0, 0⟩⟩, fun _ => false, fun _ => 7, 0, [], [], 0, [], 0⟩,
      none, fun _ => .idle⟩ :=
    .start _ ⟨fun _ _ => rfl, rfl, rfl, rfl, rfl, fun _ => rfl, rfl, rfl, rfl, rfl, rfl, rfl⟩
  have hgo : ∀ p {m m'}, Reachable m → step m p .go = .ok m' → Reachable m' :=
    fun p _ _ h hs => .next _ _ (p, .go) h ⟨trivial, hs⟩
  have h1 : Reachable _ := .next _ _ (0, .rw 5 false) h0 ⟨fun q => (Option.some_ne_none _).symm, rfl⟩
  have h2 := hgo 0 (hgo 0 (hgo 0 (hgo 0 (hgo 0 (hgo 0 h1 rfl) rfl) rfl) rfl) rfl) rfl
  have h3 : Reachable _ := .next _ _ (0, .take) h2 ⟨trivial, rfl⟩
  have h4 : Reachable _ := .next _ _ (0, .complete 0) h3 ⟨trivial, rfl⟩
  have h5 : Reachable _ := .next _ _ (1, .intr) h4 ⟨trivial, rfl⟩
  have h6 := hgo 1 (hgo 1 (hgo 1 (hgo 1 (hgo 1 h5 rfl) rfl) rfl) rfl) rfl
  have h7 := hgo 0 (hgo 0 h6 rfl) rfl
  obtain ⟨m', hm', hfree⟩ := (virtio_protocol h7).2.2.2.2.2.1 0 _ _ rfl
  exact ⟨_, h7, rfl, rfl, m', hm', hfree 1⟩

end Virtio
end Xv6
