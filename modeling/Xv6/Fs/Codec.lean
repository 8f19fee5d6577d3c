import Mathlib.Data.List.GetD
import Xv6.Fs.Layout

/-!
The on-disk formats read back what was written: inodes, bitmap bits and the words of
an indirect block, and each leaves its neighbours in the block alone.
-/

namespace Bytes

theorem getBytes_putBytes_mid (b : Bytes) (o : ℕ) (l m r : List UInt8) :
    getBytes (putBytes b o (l ++ m ++ r)) (o + l.length) m.length = m := by
  apply List.ext_getElem (by simp)
  intro i h₁ h₂
  have hg := getD_getBytes (putBytes b o (l ++ m ++ r)) (o + l.length) m.length i h₂
  rw [get_putBytes, if_pos (by simp only [List.length_append]; omega),
    show o + l.length + i - o = l.length + i by omega] at hg
  have hm : (l ++ m ++ r).getD (l.length + i) 0 = m.getD i 0 := by
    rw [List.append_assoc, List.getD_append_right _ _ _ _ (by omega), Nat.add_sub_cancel_left,
      List.getD_append _ _ _ _ h₂]
  rw [hm] at hg
  rwa [List.getD_eq_getElem _ _ h₁, List.getD_eq_getElem _ _ h₂] at hg

theorem getLE_putBytes_mid (b : Bytes) (o n v : ℕ) (l r : List UInt8) :
    getLE (putBytes b o (l ++ le n v ++ r)) (o + l.length) n = v % 256 ^ n := by
  have h := getBytes_putBytes_mid b o l (le n v) r
  rw [length_le] at h
  rw [getLE, h, ofLE_le]

end Bytes

namespace Xv6

theorem getU32s_putBytes (b : Block) (o : ℕ) (pre : List UInt8) (addrs : List ℕ)
    (h : ∀ a ∈ addrs, a < 2 ^ 32) :
    getU32s (b.putBytes o (pre ++ addrs.flatMap (Bytes.le 4))) (o + pre.length) addrs.length =
      addrs := by
  induction addrs generalizing pre with
  | nil => rfl
  | cons a as ih =>
    have ha : a < 2 ^ 32 := h a List.mem_cons_self
    have has : ∀ c ∈ as, c < 2 ^ 32 := fun c hc => h c (List.mem_cons_of_mem a hc)
    have hhead := Bytes.getLE_putBytes_mid b o 4 a pre (as.flatMap (Bytes.le 4))
    have htail := ih (pre ++ Bytes.le 4 a) has
    rw [List.append_assoc] at hhead htail
    rw [List.flatMap_cons, List.length_cons, getU32s, hhead,
      Nat.mod_eq_of_lt (lt_of_lt_of_le ha (by norm_num))]
    rw [List.length_append, Bytes.length_le, ← Nat.add_assoc] at htail
    rw [htail]

theorem length_getU32s (b : Block) (o n : ℕ) : (getU32s b o n).length = n := by
  induction n generalizing o with
  | zero => rfl
  | succ n ih => rw [getU32s, List.length_cons, ih]

theorem getU32s_congr {b c : Block} {o n : ℕ}
    (h : ∀ i, i < 4 * n → b.get (o + i) = c.get (o + i)) : getU32s b o n = getU32s c o n := by
  induction n generalizing o with
  | zero => rfl
  | succ n ih =>
    rw [getU32s, getU32s, Bytes.getLE_congr fun i hi => h i (by omega)]
    rw [ih fun i hi => ?_]
    rw [Nat.add_assoc]
    exact h (4 + i) (by omega)

def IsShort (x : ℤ) : Prop := -32768 ≤ x ∧ x ≤ 32767

theorem ofShortBits_shortBits {x : ℤ} (h : IsShort x) : ofShortBits (shortBits x) = x := by
  unfold IsShort at h
  unfold ofShortBits shortBits
  split_ifs <;> omega

theorem shortBits_lt (x : ℤ) : shortBits x < 256 ^ 2 := by
  unfold shortBits
  omega

theorem isShort_ofShortBits {n : ℕ} (h : n < 256 ^ 2) : IsShort (ofShortBits n) := by
  unfold IsShort ofShortBits
  split_ifs <;> omega

structure Dinode.Ok (d : Dinode) : Prop where
  type : IsShort d.type
  major : IsShort d.major
  minor : IsShort d.minor
  nlink : IsShort d.nlink
  size : d.size < 2 ^ 32
  length : d.addrs.length = NDIRECT + 1
  addrs : ∀ a ∈ d.addrs, a < 2 ^ 32

theorem zeroDinode_ok : zeroDinode.Ok where
  type := by unfold IsShort; decide
  major := by unfold IsShort; decide
  minor := by unfold IsShort; decide
  nlink := by unfold IsShort; decide
  size := by decide
  length := rfl
  addrs := by decide

theorem Dinode.Ok.length_encode {d : Dinode} (h : d.Ok) : d.encode.length = DINODESIZE := by
  have hl : (d.addrs.flatMap (Bytes.le 4)).length = 4 * d.addrs.length := by
    induction d.addrs with
    | nil => rfl
    | cons a as ih => rw [List.flatMap_cons, List.length_append, ih, Bytes.length_le,
        List.length_cons]; omega
  simp only [encode, List.length_append, Bytes.length_le, hl, h.length]
  rfl

theorem getDinode_putDinode_self (b : Block) (i : ℕ) {d : Dinode} (h : d.Ok) :
    getDinode (putDinode b i d) i = d := by
  obtain ⟨type, major, minor, nlink, size, addrs⟩ := d
  have h2 : ∀ x, shortBits x % 256 ^ 2 = shortBits x := fun x => Nat.mod_eq_of_lt (shortBits_lt x)
  have h4 : size % 256 ^ 4 = size := Nat.mod_eq_of_lt (lt_of_lt_of_le h.size (by norm_num))
  have hlen : addrs.length = NDIRECT + 1 := h.length
  let o := DINODESIZE * i
  have htype := Bytes.getLE_putBytes_mid b o 2 (shortBits type) []
    (Bytes.le 2 (shortBits major) ++ (Bytes.le 2 (shortBits minor) ++
      (Bytes.le 2 (shortBits nlink) ++ (Bytes.le 4 size ++ addrs.flatMap (Bytes.le 4)))))
  have hmajor := Bytes.getLE_putBytes_mid b o 2 (shortBits major) (Bytes.le 2 (shortBits type))
    (Bytes.le 2 (shortBits minor) ++
      (Bytes.le 2 (shortBits nlink) ++ (Bytes.le 4 size ++ addrs.flatMap (Bytes.le 4))))
  have hminor := Bytes.getLE_putBytes_mid b o 2 (shortBits minor)
    (Bytes.le 2 (shortBits type) ++ Bytes.le 2 (shortBits major))
    (Bytes.le 2 (shortBits nlink) ++ (Bytes.le 4 size ++ addrs.flatMap (Bytes.le 4)))
  have hnlink := Bytes.getLE_putBytes_mid b o 2 (shortBits nlink)
    (Bytes.le 2 (shortBits type) ++ (Bytes.le 2 (shortBits major) ++
      Bytes.le 2 (shortBits minor))) (Bytes.le 4 size ++ addrs.flatMap (Bytes.le 4))
  have hsize := Bytes.getLE_putBytes_mid b o 4 size
    (Bytes.le 2 (shortBits type) ++ (Bytes.le 2 (shortBits major) ++
      (Bytes.le 2 (shortBits minor) ++ Bytes.le 2 (shortBits nlink))))
    (addrs.flatMap (Bytes.le 4))
  have haddrs := getU32s_putBytes b o
    (Bytes.le 2 (shortBits type) ++ (Bytes.le 2 (shortBits major) ++
      (Bytes.le 2 (shortBits minor) ++ (Bytes.le 2 (shortBits nlink) ++ Bytes.le 4 size))))
    addrs h.addrs
  simp only [List.append_assoc, List.nil_append, List.length_append, List.length_nil,
    Bytes.length_le, h2, h4, hlen, Nat.add_zero] at htype hmajor hminor hnlink hsize haddrs
  simp only [getDinode, putDinode, Dinode.encode, List.append_assoc]
  rw [Dinode.mk.injEq]
  refine ⟨?_, ?_, ?_, ?_, hsize, haddrs⟩
  · rw [htype, ofShortBits_shortBits h.type]
  · rw [hmajor, ofShortBits_shortBits h.major]
  · rw [hminor, ofShortBits_shortBits h.minor]
  · rw [hnlink, ofShortBits_shortBits h.nlink]

theorem getDinode_congr {b c : Block} {i : ℕ}
    (h : ∀ k, k < DINODESIZE → b.get (DINODESIZE * i + k) = c.get (DINODESIZE * i + k)) :
    getDinode b i = getDinode c i := by
  have hsub : ∀ o n, o + n ≤ DINODESIZE →
      b.getLE (DINODESIZE * i + o) n = c.getLE (DINODESIZE * i + o) n := by
    intro o n ho
    apply Bytes.getLE_congr
    intro k hk
    rw [Nat.add_assoc]
    exact h (o + k) (by omega)
  have haddrs : getU32s b (DINODESIZE * i + 12) (NDIRECT + 1) =
      getU32s c (DINODESIZE * i + 12) (NDIRECT + 1) := by
    apply getU32s_congr
    intro k hk
    rw [Nat.add_assoc]
    exact h (12 + k) (by simp only [NDIRECT, DINODESIZE] at *; omega)
  simp only [getDinode, haddrs]
  have h0 := hsub 0 2 (by decide)
  rw [Nat.add_zero] at h0
  rw [h0, hsub 2 2 (by decide), hsub 4 2 (by decide), hsub 6 2 (by decide), hsub 8 4 (by decide)]

theorem getDinode_putDinode_ne (b : Block) {i j : ℕ} {d : Dinode} (h : d.Ok) (hij : j ≠ i) :
    getDinode (putDinode b i d) j = getDinode b j := by
  apply getDinode_congr
  intro k hk
  rw [putDinode, Bytes.get_putBytes_out]
  rw [h.length_encode]
  rcases Nat.lt_or_gt_of_ne hij with hlt | hgt
  · left
    calc DINODESIZE * j + k < DINODESIZE * (j + 1) := by rw [Nat.mul_succ]; omega
      _ ≤ DINODESIZE * i := Nat.mul_le_mul_left _ hlt
  · right
    calc DINODESIZE * i + DINODESIZE = DINODESIZE * (i + 1) := by rw [Nat.mul_succ]
      _ ≤ DINODESIZE * j := Nat.mul_le_mul_left _ hgt
      _ ≤ DINODESIZE * j + k := Nat.le_add_right _ _

/-- Whatever a block holds, the inode read from it has fields of the right widths. -/
theorem getDinode_ok (b : Block) (i : ℕ) : (getDinode b i).Ok where
  type := isShort_ofShortBits (Bytes.getLE_lt b _ 2)
  major := isShort_ofShortBits (Bytes.getLE_lt b _ 2)
  minor := isShort_ofShortBits (Bytes.getLE_lt b _ 2)
  nlink := isShort_ofShortBits (Bytes.getLE_lt b _ 2)
  size := lt_of_lt_of_le (Bytes.getLE_lt b _ 4) (by norm_num)
  length := length_getU32s b _ _
  addrs := by
    have hall : ∀ n o, ∀ a ∈ getU32s b o n, a < 2 ^ 32 := by
      intro n
      induction n with
      | zero => intro o a ha; simp [getU32s] at ha
      | succ n ih =>
        intro o a ha
        rw [getU32s, List.mem_cons] at ha
        rcases ha with rfl | ha
        · exact lt_of_lt_of_le (Bytes.getLE_lt b o 4) (by norm_num)
        · exact ih _ a ha
    exact hall _ _

theorem getDinode_empty (i : ℕ) : getDinode .empty i = zeroDinode := by
  have h : ∀ o, getU32s .empty o (NDIRECT + 1) = List.replicate (NDIRECT + 1) 0 := by
    intro o
    simp only [NDIRECT, getU32s, Bytes.getLE_empty, List.replicate]
  simp only [getDinode, Bytes.getLE_empty, h]
  rfl

theorem getBit_setBit (b : Block) (i j : ℕ) :
    getBit (setBit b i) j = (getBit b j || decide (j = i)) := by
  unfold getBit setBit
  rw [TMap.get_set]
  by_cases hw : j / 8 = i / 8
  · have hb := (b.get (i / 8)).toNat_lt
    have hp : 2 ^ (i % 8) < 2 ^ 8 := Nat.pow_lt_pow_right (by decide) (Nat.mod_lt i (by decide))
    rw [if_pos hw, UInt8.toNat_ofNat', Nat.mod_eq_of_lt (Nat.or_lt_two_pow hb hp),
      Nat.testBit_or, hw, Nat.testBit_two_pow]
    congr 1
    rw [decide_eq_decide]
    omega
  · rw [if_neg hw]
    have hji : j ≠ i := by
      rintro rfl
      exact hw rfl
    simp [hji]

theorem getBit_empty (j : ℕ) : getBit .empty j = false := by
  unfold getBit
  simp [show (default : UInt8) = 0 from rfl]

end Xv6
