import Xv6.User.Printf
import Mathlib.Data.List.TakeWhile

/-!
What a format stands for, and what `vprintf` writes. The arguments of `%l` lose their upper half
on the way to `printint`; everything else is written as it should be.
-/

namespace Xv6
namespace Printf
open Numeral

/-- What a `%` and the character after it ask for, apart from `%%`. -/
inductive Directive where
  | decimal | long | hex | pointer | string | char
  deriving DecidableEq, Repr

inductive Segment where
  | literal (c : UInt8)
  | directive (d : Directive)
  deriving DecidableEq, Repr

def directiveOf (c : UInt8) : Option Directive :=
  if c = 100 then some .decimal
  else if c = 108 then some .long
  else if c = 120 then some .hex
  else if c = 112 then some .pointer
  else if c = 115 then some .string
  else if c = 99 then some .char
  else none

/-- The segments of a format. `%%` is a percent sign. A `%` before a character that is not a
directive is two literals, and a `%` at the end is none. -/
def segments : List UInt8 → List Segment
  | [] => []
  | [c] => if c = PERCENT then [] else [.literal c]
  | c :: e :: fmt =>
      if c = PERCENT then
        match directiveOf e with
        | some d => .directive d :: segments fmt
        | none => if e = PERCENT then .literal PERCENT :: segments fmt
            else .literal PERCENT :: .literal e :: segments fmt
      else .literal c :: segments (e :: fmt)

inductive Renders : Directive → Arg → List UInt8 → Prop
  | decimal {x : BitVec 32} {ds : List ℕ} (h : Spells 10 x.toInt.natAbs ds) :
      Renders .decimal (.int x) ((if x.toInt < 0 then [MINUS] else []) ++ ds.map digit)
  | long {x : BitVec 64} {ds : List ℕ} (h : Spells 10 x.toNat ds) :
      Renders .long (.uint64 x) (ds.map digit)
  | hex {x : BitVec 32} {ds : List ℕ} (h : Spells 16 x.toNat ds) :
      Renders .hex (.int x) (ds.map digit)
  | pointer {x : BitVec 64} {ds : List ℕ} (hlen : ds.length = 16) (hlt : ∀ d ∈ ds, d < 16)
      (hval : Nat.ofDigits 16 ds.reverse = x.toNat) :
      Renders .pointer (.uint64 x) ([48, 120] ++ ds.map digit)
  | string {s : List UInt8} (h : 0 ∉ s) : Renders .string (.string (some s)) s
  | char {x : BitVec 32} : Renders .char (.int x) [UInt8.ofNat x.toNat]

/-- What is to be written: the literals in order, and for each directive the text of its
argument. -/
inductive Writes : List Segment → List Arg → List UInt8 → Prop
  | nil {ap : List Arg} : Writes [] ap []
  | literal {c : UInt8} {segs : List Segment} {ap : List Arg} {out : List UInt8}
      (h : Writes segs ap out) : Writes (.literal c :: segs) ap (c :: out)
  | directive {d : Directive} {a : Arg} {text : List UInt8} {segs : List Segment} {ap : List Arg}
      {out : List UInt8} (hd : Renders d a text) (h : Writes segs ap out) :
      Writes (.directive d :: segs) (a :: ap) (text ++ out)

/-- The directive takes an argument of this type. -/
def Directive.Takes : Directive → Arg → Prop
  | .decimal, .int _ => True
  | .long, .uint64 _ => True
  | .hex, .int _ => True
  | .pointer, .uint64 _ => True
  | .string, .string (some s) => 0 ∉ s
  | .char, .int _ => True
  | _, _ => False

/-- The arguments match the directives. -/
def Match : List Segment → List Arg → Prop
  | [], _ => True
  | .literal _ :: segs, ap => Match segs ap
  | .directive _ :: _, [] => False
  | .directive d :: segs, a :: ap => d.Takes a ∧ Match segs ap

/-- The argument of a directive survives: it does not for `%l` if it needs more than 32 bits. -/
def Directive.Short : Directive → Arg → Prop
  | .long, .uint64 x => x.toNat < 2 ^ 32
  | _, _ => True

/-- All arguments of `%l` are below `2 ^ 32`. -/
def Short : List Segment → List Arg → Prop
  | .literal _ :: segs, ap => Short segs ap
  | .directive d :: segs, a :: ap => d.Short a ∧ Short segs ap
  | _, _ => True

/-! ### `printint` -/

theorem putDigits_eq {base x : ℕ} (hb : 1 < base) {buf : List UInt8}
    (h : buf.length + (numeral base x).length ≤ BUFSIZE) :
    putDigits base x buf = some (buf ++ ((numeral base x).map digit).reverse) := by
  induction hk : (numeral base x).length using Nat.strong_induction_on generalizing x buf with
  | _ k ih =>
    have hnum := numeral_eq hb x
    have hlen := congrArg List.length hnum
    rw [List.length_append, List.length_singleton] at hlen
    rw [putDigits, if_pos (by omega)]
    dsimp only
    by_cases hq : x / base = 0
    · rw [if_pos hq, List.nil_append] at hnum
      rw [if_neg (not_not.2 hq), hnum]
      rfl
    · rw [if_neg hq] at hnum hlen
      rw [if_pos hq, ih _ (by omega) (by rw [List.length_append, List.length_singleton]; omega) rfl,
        hnum, List.map_append, List.reverse_append, List.append_assoc]
      rfl

theorem length_numeral_uint {base x : ℕ} (hb : base = 10 ∨ base = 16) (hx : x < 2 ^ 32) :
    (numeral base x).length ≤ 10 := by
  obtain rfl | rfl := hb
  · exact length_numeral_le (by omega) (by omega) (by omega)
  · exact (length_numeral_le (k := 8) (by omega) (by omega) (by omega)).trans (by omega)

theorem printint_eq {base : ℕ} (hb : base = 10 ∨ base = 16) (xx : BitVec 32) (sgn : Bool) :
    printint xx base sgn = some (
      if sgn = true ∧ xx.toInt < 0 then MINUS :: (numeral base xx.toInt.natAbs).map digit
      else (numeral base xx.toNat).map digit) := by
  have hb1 : 1 < base := by omega
  have hput : ∀ x : BitVec 32, putDigits base x.toNat [] =
      some ((numeral base x.toNat).map digit).reverse := by
    intro x
    have := length_numeral_uint hb x.isLt
    rw [putDigits_eq hb1 (by rw [List.length_nil]; unfold BUFSIZE; omega), List.nil_append]
  have hneg : xx.toInt < 0 → (-xx).toNat = xx.toInt.natAbs := by
    intro h
    have hlt := xx.isLt
    rw [BitVec.toInt_eq_toNat_cond] at h ⊢
    rw [BitVec.toNat_neg]
    split_ifs at h ⊢ <;> omega
  unfold printint
  by_cases h : sgn = true ∧ xx.toInt < 0
  · have hlen := length_numeral_uint hb (-xx).isLt
    simp only [h.1, h.2, decide_true, Bool.and_self, if_true, and_self, Option.bind_eq_bind, hput,
      Option.bind_some, push]
    rw [if_pos (by rw [List.length_reverse, List.length_map]; unfold BUFSIZE; omega), hneg h.2]
    simp
  · have hfalse : (sgn && decide (xx.toInt < 0)) = false := by
      rw [← Bool.not_eq_true, Bool.and_eq_true, decide_eq_true_eq]
      exact h
    simp only [hfalse, Bool.false_eq_true, if_false, if_neg h, Option.bind_eq_bind, hput,
      Option.bind_some]
    simp

/-! ### `printptr` -/

theorem ptrDigits_eq (n : ℕ) (hn : n ≤ 16) (x : BitVec 64) :
    ptrDigits n x = (List.range n).map fun i => digit (x.toNat / 16 ^ (15 - i) % 16) := by
  induction n generalizing x with
  | zero => rfl
  | succ n ih =>
    have hlt := x.isLt
    have hfirst : (x >>> 60).toNat = x.toNat / 16 ^ 15 % 16 := by
      rw [BitVec.toNat_ushiftRight, Nat.shiftRight_eq_div_pow]
      omega
    have hshift : (x <<< 4).toNat = x.toNat * 16 % 16 ^ 16 := by
      rw [BitVec.toNat_shiftLeft, Nat.shiftLeft_eq]
      norm_num
    rw [ptrDigits, ih (by omega), List.range_succ_eq_map, List.map_cons, List.map_map, hfirst]
    refine congrArg (_ :: ·) (List.map_congr_left fun i hi => ?_)
    rw [List.mem_range] at hi
    have hsplit : 16 ^ 16 = 16 ^ (15 - i) * 16 ^ (i + 1) := by
      rw [← pow_add]
      congr 1
      omega
    have hnext : 16 ^ (15 - i) = 16 ^ (15 - (i + 1)) * 16 := by
      rw [← pow_succ]
      congr 1
      omega
    show digit _ = digit (x.toNat / 16 ^ (15 - (i + 1)) % 16)
    rw [hshift, hsplit, Nat.mod_mul_right_div_self, Nat.mod_mod_of_dvd _ (dvd_pow_self 16 (by omega)),
      hnext, Nat.mul_div_mul_right _ _ (by omega)]

/-- The digits of a pointer. -/
def places (x : BitVec 64) : List ℕ := (List.range 16).map fun i => x.toNat / 16 ^ (15 - i) % 16

theorem printptr_eq (x : BitVec 64) : printptr x = [48, 120] ++ (places x).map digit := by
  rw [printptr, ptrDigits_eq 16 le_rfl, places, List.map_map]
  rfl

theorem ofDigits_places_reverse (x : BitVec 64) : Nat.ofDigits 16 (places x).reverse = x.toNat := by
  have hreverse : (places x).reverse = (List.range 16).map fun i => x.toNat / 16 ^ i % 16 := rfl
  rw [hreverse, ofDigits_places]
  exact Nat.mod_eq_of_lt (by have := x.isLt; omega)

theorem renders_pointer (x : BitVec 64) : Renders .pointer (.uint64 x) (printptr x) := by
  rw [printptr_eq]
  refine .pointer rfl (fun d hd => ?_) (ofDigits_places_reverse x)
  obtain ⟨i, -, rfl⟩ := List.mem_map.1 hd
  exact Nat.mod_lt _ (by decide)

/-! ### One directive -/

variable {d : Directive} {a : Arg} {ap : List Arg} {segs : List Segment}

theorem Renders.unique {p q : List UInt8} (h : Renders d a p) (h' : Renders d a q) : p = q := by
  cases h with
  | decimal h =>
    cases h' with
    | decimal h' => rw [h.eq_numeral (by decide), h'.eq_numeral (by decide)]
  | long h =>
    cases h' with
    | long h' => rw [h.eq_numeral (by decide), h'.eq_numeral (by decide)]
  | hex h =>
    cases h' with
    | hex h' => rw [h.eq_numeral (by decide), h'.eq_numeral (by decide)]
  | pointer hlen hlt hval =>
    cases h' with
    | pointer hlen' hlt' hval' =>
      have hrev := Nat.ofDigits_inj_of_len_eq (b := 16) (by decide)
        (by rw [List.length_reverse, List.length_reverse, hlen, hlen'])
        (fun d hd => hlt d (List.mem_reverse.1 hd)) (fun d hd => hlt' d (List.mem_reverse.1 hd))
        (hval.trans hval'.symm)
      rw [List.reverse_injective hrev]
  | string _ =>
    cases h'
    rfl
  | char =>
    cases h'
    rfl

/-- `p'` is written for a directive: it is not longer than the text of the argument, and it is
the text unless the argument is too large. -/
structure Piece (d : Directive) (a : Arg) (p' : List UInt8) : Prop where
  exists_text : ∃ p, Renders d a p
  le : ∀ p, Renders d a p → p'.length ≤ p.length
  eq_iff : ∀ p, Renders d a p → (p' = p ↔ d.Short a)

theorem Renders.piece {p : List UInt8} (h : Renders d a p) (hs : d.Short a) : Piece d a p :=
  ⟨⟨p, h⟩, fun _ hq => (h.unique hq ▸ le_rfl), fun _ hq => iff_of_true (h.unique hq) hs⟩

theorem map_digit_inj {l m : List ℕ} (hl : ∀ d ∈ l, d < 16) (hm : ∀ d ∈ m, d < 16)
    (h : l.map digit = m.map digit) : l = m := by
  have hval : ∀ d < 16, digits.idxOf (digit d) = d := by decide
  have hback : ∀ n : List ℕ, (∀ d ∈ n, d < 16) → (n.map digit).map digits.idxOf = n := by
    intro n hn
    rw [List.map_map]
    exact (List.map_congr_left fun d hd => hval d (hn d hd)).trans (List.map_id n)
  rw [← hback l hl, h, hback m hm]

/-- `%l` writes the lower half of its argument. -/
theorem piece_long (x : BitVec 64) :
    Piece .long (.uint64 x) ((numeral 10 (x.toNat % 2 ^ 32)).map digit) := by
  have htext : ∀ p, Renders .long (.uint64 x) p → p = (numeral 10 x.toNat).map digit := by
    intro p hp
    exact hp.unique (.long (spells_numeral (by decide) _))
  have hlt : ∀ n, ∀ d ∈ numeral 10 n, d < 16 := fun n d hd =>
    ((spells_numeral (by decide) n).lt d hd).trans (by decide)
  refine ⟨⟨_, .long (spells_numeral (by decide) _)⟩, fun p hp => ?_, fun p hp => ?_⟩
  · rw [htext p hp, List.length_map, List.length_map]
    exact length_numeral_mono 10 (Nat.mod_le _ _)
  · rw [htext p hp]
    constructor
    · intro h
      have hmod := numeral_injective 10 (map_digit_inj (hlt _) (hlt _) h)
      show x.toNat < 2 ^ 32
      omega
    · intro h
      rw [Nat.mod_eq_of_lt h]

theorem piece_decimal (x : BitVec 32) :
    ∃ p, printint x 10 true = some p ∧ Piece .decimal (.int x) p := by
  refine ⟨_, printint_eq (.inl rfl) x true, ?_⟩
  have hr : Renders .decimal (.int x) _ := .decimal (spells_numeral (by decide) x.toInt.natAbs)
  by_cases hneg : x.toInt < 0
  · rw [if_pos hneg] at hr
    rw [if_pos ⟨rfl, hneg⟩]
    exact hr.piece trivial
  · have habs : x.toInt.natAbs = x.toNat := by
      have := x.isLt
      rw [BitVec.toInt_eq_toNat_cond] at hneg ⊢
      split_ifs at hneg ⊢ <;> omega
    rw [if_neg hneg, List.nil_append, habs] at hr
    rw [if_neg fun h => hneg h.2]
    exact hr.piece trivial

theorem piece_hex (x : BitVec 32) : ∃ p, printint x 16 false = some p ∧ Piece .hex (.int x) p := by
  refine ⟨_, printint_eq (.inr rfl) x false, ?_⟩
  rw [if_neg fun h => Bool.false_ne_true h.1]
  exact (Renders.hex (spells_numeral (by decide) _)).piece trivial

def Directive.code : Directive → UInt8
  | .decimal => 100
  | .long => 108
  | .hex => 120
  | .pointer => 112
  | .string => 115
  | .char => 99

theorem eq_code {c : UInt8} (hc : directiveOf c = some d) : c = d.code := by
  unfold directiveOf at hc
  split_ifs at hc <;> cases hc <;> assumption

theorem conversion_spec (ht : d.Takes a) (ap : List Arg) :
    ∃ p, conversion d.code (a :: ap) = some (p, ap) ∧ Piece d a p := by
  cases d with
  | decimal =>
    cases a with
    | int x =>
      obtain ⟨p, hp, hpiece⟩ := piece_decimal x
      exact ⟨p, congrArg (Option.map (·, ap)) hp, hpiece⟩
    | _ => exact ht.elim
  | long =>
    cases a with
    | uint64 x =>
      have hp := printint_eq (.inl rfl) (x.setWidth 32) false
      rw [if_neg fun h => Bool.false_ne_true h.1, BitVec.toNat_setWidth] at hp
      exact ⟨_, congrArg (Option.map (·, ap)) hp, piece_long x⟩
    | _ => exact ht.elim
  | hex =>
    cases a with
    | int x =>
      obtain ⟨p, hp, hpiece⟩ := piece_hex x
      exact ⟨p, congrArg (Option.map (·, ap)) hp, hpiece⟩
    | _ => exact ht.elim
  | pointer =>
    cases a with
    | uint64 x => exact ⟨_, rfl, (renders_pointer x).piece trivial⟩
    | _ => exact ht.elim
  | string =>
    match a, ht with
    | .string (some s), ht =>
      have hall : s.takeWhile (· ≠ 0) = s := by
        refine List.takeWhile_eq_self_iff.2 fun c hc => ?_
        exact decide_eq_true fun h0 => ht (h0 ▸ hc)
      exact ⟨s, congrArg (fun p => some (p, ap)) hall, (Renders.string ht).piece trivial⟩
  | char =>
    cases a with
    | int x => exact ⟨_, rfl, Renders.char.piece trivial⟩
    | _ => exact ht.elim

/-! ### The format -/

structure Printed (segs : List Segment) (ap : List Arg) (res : Option (List UInt8)) : Prop where
  exists_text : ∃ out, Writes segs ap out
  printed : ∃ out', res = some out' ∧ ∀ out, Writes segs ap out →
    out'.length ≤ out.length ∧ (out' = out ↔ Short segs ap)

theorem Printed.nil : Printed [] ap (some []) := by
  refine ⟨⟨[], .nil⟩, [], rfl, fun out h => ?_⟩
  cases h
  exact ⟨le_rfl, iff_of_true rfl trivial⟩

theorem Printed.literal {res : Option (List UInt8)} (c : UInt8) (h : Printed segs ap res) :
    Printed (.literal c :: segs) ap (res.map (c :: ·)) := by
  obtain ⟨⟨out, hout⟩, out', rfl, hprinted⟩ := h
  refine ⟨⟨c :: out, .literal hout⟩, c :: out', rfl, fun out hout => ?_⟩
  cases hout with
  | literal hout =>
    obtain ⟨hle, hiff⟩ := hprinted _ hout
    refine ⟨Nat.succ_le_succ hle, ?_⟩
    rw [List.cons_inj_right, hiff]
    exact Iff.rfl

/-- Since nothing is longer than it should be, the whole is right only if its parts are. -/
theorem Printed.directive {res : Option (List UInt8)} {p : List UInt8} (hp : Piece d a p)
    (h : Printed segs ap res) : Printed (.directive d :: segs) (a :: ap) (res.map (p ++ ·)) := by
  obtain ⟨⟨out, hout⟩, out', rfl, hprinted⟩ := h
  obtain ⟨text, htext⟩ := hp.exists_text
  refine ⟨⟨text ++ out, .directive htext hout⟩, p ++ out', rfl, fun all hall => ?_⟩
  cases hall with
  | @directive _ _ text _ _ out htext hout =>
    obtain ⟨hle, hiff⟩ := hprinted out hout
    have hle' := hp.le text htext
    rw [List.length_append, List.length_append]
    refine ⟨Nat.add_le_add hle' hle, ?_⟩
    show p ++ out' = text ++ out ↔ d.Short a ∧ Short segs ap
    rw [← hp.eq_iff text htext, ← hiff]
    constructor
    · intro h
      have hlen := congrArg List.length h
      rw [List.length_append, List.length_append] at hlen
      exact List.append_inj h (by omega)
    · rintro ⟨rfl, rfl⟩
      rfl

theorem vprintfFrom_cons {c : UInt8} {fmt : List UInt8} (hc : c ≠ 0) (hp : c ≠ PERCENT) :
    vprintfFrom false (c :: fmt) ap = (vprintfFrom false fmt ap).map (c :: ·) := by
  rw [vprintfFrom, if_neg hc, if_neg Bool.false_ne_true, if_neg hp]
  cases vprintfFrom false fmt ap <;> rfl

theorem vprintfFrom_percent {c : UInt8} {fmt out : List UInt8} {ap' : List Arg} (hc : c ≠ 0)
    (h : conversion c ap = some (out, ap')) :
    vprintfFrom false (PERCENT :: c :: fmt) ap = (vprintfFrom false fmt ap').map (out ++ ·) := by
  rw [vprintfFrom, if_neg (by decide), if_neg Bool.false_ne_true, if_pos rfl, vprintfFrom,
    if_neg hc, if_pos rfl, h]
  show (vprintfFrom false fmt ap').bind (fun rest => some (out ++ rest)) = _
  cases vprintfFrom false fmt ap' <;> rfl

theorem conversion_unknown {c : UInt8} (h : directiveOf c = none) :
    conversion c ap = some (if c = PERCENT then [c] else [PERCENT, c], ap) := by
  unfold directiveOf at h
  unfold conversion
  split_ifs at h ⊢ <;> rfl

theorem vprintf_printed {fmt : List UInt8} (hz : 0 ∉ fmt) (hm : Match (segments fmt) ap) :
    Printed (segments fmt) ap (vprintf fmt ap) := by
  unfold vprintf
  fun_induction segments fmt generalizing ap with
  | case1 => exact .nil
  | case2 => exact .nil
  | case3 c hc =>
    rw [vprintfFrom_cons (fun h0 => hz (h0 ▸ List.mem_cons_self)) hc]
    exact Printed.nil.literal c
  | case4 e fmt d hd ih =>
    cases ap with
    | nil => exact hm.elim
    | cons a ap =>
      rw [List.mem_cons, List.mem_cons, not_or, not_or] at hz
      obtain ⟨p, hp, hpiece⟩ := conversion_spec hm.1 ap
      rw [← eq_code hd] at hp
      rw [vprintfFrom_percent (Ne.symm hz.2.1) hp]
      exact (ih hz.2.2 hm.2).directive hpiece
  | case5 fmt hd ih =>
    rw [List.mem_cons, List.mem_cons, not_or, not_or] at hz
    have hp : conversion _ ap = _ := conversion_unknown hd
    rw [vprintfFrom_percent (Ne.symm hz.2.1) hp]
    exact (ih hz.2.2 hm).literal PERCENT
  | case6 e fmt hd he ih =>
    rw [List.mem_cons, List.mem_cons, not_or, not_or] at hz
    have hp : conversion _ ap = _ := conversion_unknown hd
    rw [if_neg he] at hp
    rw [vprintfFrom_percent (Ne.symm hz.2.1) hp]
    have hboth := ((ih hz.2.2 hm).literal e).literal PERCENT
    rw [Option.map_map] at hboth
    exact hboth
  | case7 c e fmt hc ih =>
    rw [List.mem_cons, not_or] at hz
    rw [vprintfFrom_cons (Ne.symm hz.1) hc]
    exact (ih hz.2 hm).literal c

/-- With arguments that match the format `vprintf` returns, so that `printint` stays within its
buffer. It has written what the format stands for exactly if the arguments of `%l` are below
`2 ^ 32`. -/
theorem vprintf_faithful_iff {fmt : List UInt8} (hz : 0 ∉ fmt) (hm : Match (segments fmt) ap) :
    ∃ out, vprintf fmt ap = some out ∧ (Writes (segments fmt) ap out ↔ Short (segments fmt) ap) := by
  obtain ⟨⟨text, htext⟩, out, hout, hprinted⟩ := vprintf_printed hz hm
  refine ⟨out, hout, fun h => ?_, fun hs => ?_⟩
  · exact (hprinted out h).2.1 rfl
  · rw [(hprinted text htext).2.2 hs]
    exact htext

/-- `printf("%l", 1L << 32)` writes `0`. -/
theorem vprintf_long_truncates :
    vprintf [37, 108] [.uint64 4294967296] = some [48] ∧
      ¬ Writes (segments [37, 108]) [.uint64 4294967296] [48] := by
  refine ⟨by decide +kernel, fun h => ?_⟩
  have hseg : segments [37, 108] = [.directive .long] := rfl
  rw [hseg] at h
  generalize hout : [(48 : UInt8)] = out at h
  cases h with
  | directive hr h =>
    cases h
    rw [List.append_nil] at hout
    subst hout
    have hshort : Directive.long.Short (.uint64 4294967296) :=
      ((piece_long 4294967296).eq_iff _ hr).1 (by decide +kernel)
    exact absurd hshort (show ¬ (4294967296 : BitVec 64).toNat < 2 ^ 32 by decide)

/-- The smallest `int` and the largest `uint`. -/
theorem vprintf_faithful_min : ∃ out,
    vprintf [37, 100, 32, 37, 108] [.int 0x80000000, .uint64 4294967295] = some out ∧
      Writes (segments [37, 100, 32, 37, 108]) [.int 0x80000000, .uint64 4294967295] out := by
  obtain ⟨out, hout, hiff⟩ := @vprintf_faithful_iff [.int 0x80000000, .uint64 4294967295]
    [37, 100, 32, 37, 108] (by decide) ⟨trivial, trivial, trivial⟩
  have hmax : (4294967295 : BitVec 64).toNat < 2 ^ 32 := by decide
  exact ⟨out, hout, hiff.2 ⟨trivial, hmax, trivial⟩⟩

end Printf
end Xv6
