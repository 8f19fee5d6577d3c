import Xv6.Lib.TMap

/-!
Byte memories and little-endian integers. A range of a memory is read as a list
and written from a list; an `n`-byte integer is the list of its bytes, lowest first.
-/

abbrev Bytes := TMap UInt8

namespace Bytes

def getBytes (b : Bytes) (o : ℕ) : ℕ → List UInt8
  | 0 => []
  | n + 1 => b.get o :: getBytes b (o + 1) n

def putBytes (b : Bytes) (o : ℕ) : List UInt8 → Bytes
  | [] => b
  | x :: xs => putBytes (b.set o x) (o + 1) xs

@[simp] theorem length_getBytes (b : Bytes) (o n : ℕ) : (getBytes b o n).length = n := by
  induction n generalizing o with
  | zero => rfl
  | succ n ih => simp [getBytes, ih]

theorem getBytes_add (b : Bytes) (o m n : ℕ) :
    getBytes b o (m + n) = getBytes b o m ++ getBytes b (o + m) n := by
  induction m generalizing o with
  | zero => rw [Nat.zero_add, Nat.add_zero, getBytes, List.nil_append]
  | succ m ih =>
    rw [Nat.succ_add, getBytes, getBytes, ih, List.cons_append, show o + 1 + m = o + (m + 1) by omega]

theorem getD_getBytes (b : Bytes) (o n i : ℕ) (hi : i < n) :
    (getBytes b o n).getD i 0 = b.get (o + i) := by
  induction n generalizing o i with
  | zero => omega
  | succ n ih =>
    cases i with
    | zero => simp [getBytes]
    | succ i =>
      rw [getBytes, List.getD_cons_succ, ih (o + 1) i (by omega)]
      congr 1
      omega

theorem get_putBytes (b : Bytes) (o : ℕ) (l : List UInt8) (i : ℕ) :
    (putBytes b o l).get i = if o ≤ i ∧ i < o + l.length then l.getD (i - o) 0 else b.get i := by
  induction l generalizing b o with
  | nil =>
    rw [putBytes, if_neg]
    simp only [List.length_nil]
    omega
  | cons x xs ih =>
    rw [putBytes, ih, TMap.get_set]
    by_cases hio : i = o
    · subst hio
      simp
    · by_cases hin : o ≤ i ∧ i < o + (x :: xs).length
      · simp only [List.length_cons] at hin
        rw [if_pos (by omega), if_pos (by simp only [List.length_cons]; omega)]
        obtain ⟨k, hk⟩ : ∃ k, i - o = k + 1 := ⟨i - o - 1, by omega⟩
        rw [hk, List.getD_cons_succ, show i - (o + 1) = k by omega]
      · simp only [List.length_cons] at hin
        rw [if_neg (by omega), if_neg hio, if_neg (by simp only [List.length_cons]; omega)]

theorem get_putBytes_out (b : Bytes) {o i : ℕ} {l : List UInt8}
    (h : i < o ∨ o + l.length ≤ i) : (putBytes b o l).get i = b.get i := by
  rw [get_putBytes, if_neg (by omega)]

theorem getBytes_congr {b c : Bytes} {o n : ℕ} (h : ∀ i, i < n → b.get (o + i) = c.get (o + i)) :
    getBytes b o n = getBytes c o n := by
  induction n generalizing o with
  | zero => rfl
  | succ n ih =>
    rw [getBytes, getBytes, ih (o := o + 1)]
    · rw [show b.get o = c.get o from h 0 (by omega)]
    · intro i hi
      have := h (i + 1) (by omega)
      rwa [show o + (i + 1) = o + 1 + i by omega] at this

theorem getBytes_putBytes_self (b : Bytes) (o : ℕ) (l : List UInt8) :
    getBytes (putBytes b o l) o l.length = l := by
  apply List.ext_getElem (by simp)
  intro i h₁ h₂
  have hg := getD_getBytes (putBytes b o l) o l.length i h₂
  rw [get_putBytes, if_pos (by omega), show o + i - o = i by omega] at hg
  simpa [List.getD_eq_getElem?_getD, List.getElem?_eq_getElem h₁,
    List.getElem?_eq_getElem h₂] using hg

theorem getBytes_putBytes_disjoint (b : Bytes) {o o' n : ℕ} {l : List UInt8}
    (h : o' + n ≤ o ∨ o + l.length ≤ o') : getBytes (putBytes b o l) o' n = getBytes b o' n :=
  getBytes_congr fun i hi => get_putBytes_out b (by omega)

theorem putBytes_replicate (b : Bytes) (o n : ℕ) (c : UInt8) :
    putBytes b o (List.replicate n c) = b.fill o (o + n) c := by
  have hpart : ∀ k ≤ n, ∀ l, putBytes b o (List.replicate k c ++ l) =
      putBytes (TMap.fillAux (o + n) b o (o + k) c) (o + k) l := by
    intro k
    induction k with
    | zero =>
      intro _ l
      rw [Nat.add_zero, TMap.fillAux_self]
      rfl
    | succ k ih =>
      intro hk l
      rw [List.replicate_succ', List.append_assoc, ih (by omega), List.singleton_append, putBytes,
        TMap.set, TMap.setAux_fillAux (by omega) (by omega) (by omega)]
      rfl
  simpa only [List.append_nil, putBytes, TMap.fill] using hpart n le_rfl []

/-- The lowest `n` bytes of `v`, lowest first. -/
def le : ℕ → ℕ → List UInt8
  | 0, _ => []
  | n + 1, v => UInt8.ofNat v :: le n (v / 256)

def ofLE : List UInt8 → ℕ
  | [] => 0
  | x :: xs => x.toNat + 256 * ofLE xs

@[simp] theorem length_le (n v : ℕ) : (le n v).length = n := by
  induction n generalizing v with
  | zero => rfl
  | succ n ih => simp [le, ih]

theorem ofLE_le (n v : ℕ) : ofLE (le n v) = v % 256 ^ n := by
  induction n generalizing v with
  | zero => simp [le, ofLE, Nat.mod_one]
  | succ n ih =>
    rw [le, ofLE, ih, UInt8.toNat_ofNat', pow_succ 256 n, Nat.mul_comm (256 ^ n), Nat.mod_mul]

theorem ofLE_lt (l : List UInt8) : ofLE l < 256 ^ l.length := by
  induction l with
  | nil => simp [ofLE]
  | cons x xs ih =>
    have hx := x.toNat_lt
    simp only [ofLE, List.length_cons, pow_succ]
    omega

def getLE (b : Bytes) (o n : ℕ) : ℕ := ofLE (getBytes b o n)

def putLE (b : Bytes) (o n v : ℕ) : Bytes := putBytes b o (le n v)

theorem getLE_lt (b : Bytes) (o n : ℕ) : getLE b o n < 256 ^ n := by
  have h := ofLE_lt (getBytes b o n)
  rwa [length_getBytes] at h

theorem getLE_putLE_self (b : Bytes) (o n v : ℕ) : getLE (putLE b o n v) o n = v % 256 ^ n := by
  have h := getBytes_putBytes_self b o (le n v)
  rw [length_le] at h
  rw [getLE, putLE, h, ofLE_le]

theorem getLE_putLE_disjoint (b : Bytes) {o o' n n' : ℕ} (v : ℕ) (h : o' + n' ≤ o ∨ o + n ≤ o') :
    getLE (putLE b o n v) o' n' = getLE b o' n' := by
  rw [getLE, putLE, getBytes_putBytes_disjoint b (by simpa using h), getLE]

theorem getLE_congr {b c : Bytes} {o n : ℕ} (h : ∀ i, i < n → b.get (o + i) = c.get (o + i)) :
    getLE b o n = getLE c o n := by
  rw [getLE, getBytes_congr h, getLE]

theorem getLE_empty (o n : ℕ) : getLE TMap.empty o n = 0 := by
  have hz : ∀ k, ofLE (getBytes TMap.empty k n) = 0 := by
    induction n with
    | zero => intro k; rfl
    | succ n ih => intro k; simp [getBytes, ofLE, ih, show (default : UInt8) = 0 from rfl]
  exact hz o

end Bytes
