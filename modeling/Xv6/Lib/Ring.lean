import Mathlib.Tactic

/-!
Ring buffers with wrapping counters. A buffer of `size` slots is read at the counter `r`
and written at the counter `w`; both only go up, modulo `M`, and a slot is a counter
modulo `size`. `Ring` relates the buffer to its history: everything `stored` so far, of
which the first `k` elements have been taken out.
-/

namespace RingBuffer
variable {α : Type} {M size r w k : ℕ} {data : ℕ → α} {stored : List α} {c : α}

structure Ring (M size : ℕ) (data : ℕ → α) (r w k : ℕ) (stored : List α) : Prop where
  read : r = k % M
  write : w = stored.length % M
  taken : k ≤ stored.length
  room : stored.length ≤ k + size
  slot : ∀ i, k ≤ i → i < stored.length → stored[i]? = some (data (i % size))

/-- The number of elements in the buffer, from its counters. -/
def count (M r w : ℕ) : ℕ := (w + M - r) % M

/-- The elements in the buffer, oldest first. -/
def contents (M size : ℕ) (data : ℕ → α) (r w : ℕ) : List α :=
  (List.range (count M r w)).map fun i => data ((r + i) % size)

/-- The distance of two counters that are less than a round apart. -/
theorem count_add {n : ℕ} (hr : r < M) (hn : n < M) : count M r ((r + n) % M) = n := by
  rw [count]
  by_cases hlt : r + n < M
  · rw [Nat.mod_eq_of_lt hlt, show r + n + M - r = n + M by omega, Nat.add_mod_right,
      Nat.mod_eq_of_lt hn]
  · have hwrap : (r + n) % M = r + n - M := by
      rw [Nat.mod_eq_sub_mod (by omega), Nat.mod_eq_of_lt (by omega)]
    rw [hwrap, show r + n - M + M - r = n by omega, Nat.mod_eq_of_lt hn]

theorem slot_ne {i j : ℕ} (hij : i < j) (hj : j < i + size) : i % size ≠ j % size := by
  intro heq
  obtain ⟨q, hq⟩ := (Nat.modEq_iff_dvd' hij.le).1 heq
  have hmod : (j - i) % size = 0 := by rw [hq, Nat.mul_mod_right]
  rw [Nat.mod_eq_of_lt (by omega)] at hmod
  omega

namespace Ring

theorem empty (M size : ℕ) (data : ℕ → α) : Ring M size data 0 0 0 [] :=
  ⟨(Nat.zero_mod M).symm, (Nat.zero_mod M).symm, le_rfl, Nat.zero_le _,
    fun _ _ h => absurd h (Nat.not_lt_zero _)⟩

section
variable (hM : size < M)
include hM

theorem read_lt (h : Ring M size data r w k stored) : r < M :=
  h.read ▸ Nat.mod_lt _ (by omega)

theorem count_eq (h : Ring M size data r w k stored) : count M r w = stored.length - k := by
  obtain ⟨n, hn⟩ := Nat.exists_eq_add_of_le h.taken
  have hroom := h.room
  have hw : w = (r + n) % M := by rw [h.write, h.read, hn, Nat.mod_add_mod]
  rw [hw, count_add (h.read_lt hM) (by omega), hn, Nat.add_sub_cancel_left]

theorem count_le (h : Ring M size data r w k stored) : count M r w ≤ size := by
  have := h.room
  rw [h.count_eq hM]
  omega

theorem eq_iff (h : Ring M size data r w k stored) : r = w ↔ k = stored.length := by
  have hle := h.taken
  constructor
  · intro hrw
    have := h.count_eq hM
    rw [count, hrw, Nat.add_sub_cancel_left, Nat.mod_self] at this
    omega
  · intro hlen
    rw [h.read, h.write, hlen]

theorem lt_of_ne (h : Ring M size data r w k stored) (hne : r ≠ w) : k < stored.length :=
  lt_of_le_of_ne h.taken fun hk => hne ((h.eq_iff hM).2 hk)

theorem full_iff (h : Ring M size data r w k stored) :
    w = (r + size) % M ↔ stored.length = k + size := by
  constructor
  · intro hw
    have hcount := h.count_eq hM
    rw [hw, count_add (h.read_lt hM) hM] at hcount
    have hle := h.taken
    omega
  · intro hlen
    rw [h.read, h.write, hlen, Nat.mod_add_mod]

end

section
variable (hd : size ∣ M)
include hd

theorem write_slot (h : Ring M size data r w k stored) : w % size = stored.length % size := by
  rw [h.write, Nat.mod_mod_of_dvd _ hd]

theorem poke (h : Ring M size data r w k stored) (hroom : stored.length < k + size) (c : α) :
    Ring M size (Function.update data (w % size) c) r w k stored := by
  refine ⟨h.read, h.write, h.taken, h.room, fun i hi hi' => ?_⟩
  rw [h.slot i hi hi', h.write_slot hd, Function.update_of_ne (slot_ne hi' (by omega))]

/-- The write counter goes on when the slot has its element. -/
theorem commit (h : Ring M size data r w k stored) (hroom : stored.length < k + size)
    (hc : data (w % size) = c) : Ring M size data r ((w + 1) % M) k (stored ++ [c]) := by
  have htaken := h.taken
  refine ⟨h.read, ?_, ?_, ?_, fun i hi hi' => ?_⟩
  · rw [h.write, List.length_append]
    simp
  · rw [List.length_append]
    omega
  · rw [List.length_append]
    exact hroom
  · rw [List.length_append, List.length_singleton] at hi'
    rcases Nat.lt_succ_iff_lt_or_eq.1 hi' with hlt | rfl
    · rw [List.getElem?_append_left hlt, h.slot i hi hlt]
    · rw [List.getElem?_concat_length, ← hc, h.write_slot hd]

theorem push (h : Ring M size data r w k stored) (hroom : stored.length < k + size) (c : α) :
    Ring M size (Function.update data (w % size) c) r ((w + 1) % M) k (stored ++ [c]) :=
  (h.poke hd hroom c).commit hd hroom (Function.update_self _ _ _)

theorem next (h : Ring M size data r w k stored) (hne : k < stored.length) :
    stored[k]? = some (data (r % size)) := by
  rw [h.slot _ le_rfl hne, h.read, Nat.mod_mod_of_dvd _ hd]

omit hd in
theorem pop (h : Ring M size data r w k stored) (hne : k < stored.length) :
    Ring M size data ((r + 1) % M) w (k + 1) stored := by
  have hroom := h.room
  refine ⟨?_, h.write, hne, by omega, fun i hi hi' => h.slot i (by omega) hi'⟩
  rw [h.read]
  simp

omit hd in
/-- Elements that are not taken may be passed over. -/
theorem skip (h : Ring M size data r w k stored) {n : ℕ} (hk : k ≤ n) (hn : n ≤ stored.length) :
    Ring M size data (n % M) w n stored :=
  ⟨rfl, h.write, hn, h.room.trans (Nat.add_le_add_right hk _), fun i hi => h.slot i (hk.trans hi)⟩

omit hd in
/-- The newest elements may be dropped. -/
theorem cut (h : Ring M size data r w k stored) {kept : List α} (hp : kept <+: stored)
    (hk : k ≤ kept.length) : Ring M size data r (kept.length % M) k kept := by
  refine ⟨h.read, rfl, hk, hp.length_le.trans h.room, fun i hi hi' => ?_⟩
  obtain ⟨l, rfl⟩ := hp
  rw [← h.slot i hi (by rw [List.length_append]; omega), List.getElem?_append_left hi']

/-- What is stored but not taken is in the buffer, in order. -/
theorem contents_eq (hM : size < M) (h : Ring M size data r w k stored) :
    contents M size data r w = stored.drop k := by
  have hcount := h.count_eq hM
  refine List.ext_getElem? fun i => ?_
  rw [contents, hcount, List.getElem?_map, List.getElem?_drop]
  by_cases hi : i < stored.length - k
  · rw [h.slot (k + i) (Nat.le_add_right _ _) (by omega), List.getElem?_range hi, Option.map_some,
      h.read]
    congr 2
    rw [Nat.add_mod, Nat.mod_mod_of_dvd _ hd, ← Nat.add_mod]
  · rw [List.getElem?_eq_none (by rw [List.length_range]; omega), Option.map_none,
      List.getElem?_eq_none (by omega)]

end

end Ring
end RingBuffer
