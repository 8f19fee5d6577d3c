import Xv6.Vm.Contents
import Xv6.Vm.ExecSpec

/-!
The arguments on the stack that `exec` makes. The strings go to the stack page from its
top down, each at a multiple of 16, and the array of pointers to them goes below. So what
the page has room for is a sum of sizes rounded up to 16.
-/

namespace Xv6
namespace Vm

open Hoare

variable {k : Layout} {own own₀ : ℕ → Use} {L L₀ : ℕ → List ℕ → ℕ} {s s₀ t : State}
  {E : Panic → State → Prop} {p r r₀ n u u₀ v w va sp o : ℕ} {b : Bytes} {argv ptrs : List ℕ}
  {strs : List (List UInt8)}

/-! ### The layout -/

/-- The multiple of 16 that `n` bytes take. -/
def room (n : ℕ) : ℕ := (n + 15) / 16 * 16

def stringsRoom (strs : List (List UInt8)) : ℕ := (strs.map fun str => room (str.length + 1)).sum

def argsRoom (strs : List (List UInt8)) : ℕ := stringsRoom strs + room ((strs.length + 1) * 8)

/-- Where the strings go below `sp`. -/
def argPointers (sp : ℕ) : List (List UInt8) → List ℕ
  | [] => []
  | str :: strs => (sp - room (str.length + 1)) :: argPointers (sp - room (str.length + 1)) strs

/-- The page `b` once the strings are in it below offset `o`. -/
def pushStrings (b : Bytes) (o : ℕ) : List (List UInt8) → Bytes
  | [] => b
  | str :: strs =>
      let o := o - room (str.length + 1)
      pushStrings (b.putBytes o (str ++ [0])) o strs

def stringRegions (ptrs : List ℕ) (strs : List (List UInt8)) : List (ℕ × ℕ) :=
  (ptrs.zip strs).map fun x => (x.1, x.2.length + 1)

/-- The regions of the array of pointers at `sp` and of the strings. -/
def argRegions (sp : ℕ) (ptrs : List ℕ) (strs : List (List UInt8)) : List (ℕ × ℕ) :=
  (sp, (strs.length + 1) * 8) :: stringRegions ptrs strs

theorem stringsRoom_cons (str : List UInt8) (strs : List (List UInt8)) :
    stringsRoom (str :: strs) = room (str.length + 1) + stringsRoom strs := rfl

theorem le_room (n : ℕ) : n ≤ room n := by
  unfold room
  omega

theorem room_mod (n : ℕ) : room n % 16 = 0 := by
  unfold room
  omega

theorem stringsRoom_mod (strs : List (List UInt8)) : stringsRoom strs % 16 = 0 := by
  induction strs with
  | nil => rfl
  | cons str strs ih =>
    have := room_mod (str.length + 1)
    rw [stringsRoom_cons]
    omega

theorem aligned_sub {m : ℕ} (hsp : sp % 16 = 0) (hlt : sp < 2 ^ 64) (hm : m ≤ sp) :
    (sp + 2 ^ 64 - m) % 2 ^ 64 - (sp + 2 ^ 64 - m) % 2 ^ 64 % 16 = sp - room m := by
  unfold room
  omega

theorem room_le_iff {m : ℕ} (hsp : sp % 16 = 0) : room m ≤ sp ↔ m ≤ sp := by
  unfold room
  omega

theorem length_argPointers (strs : List (List UInt8)) : ∀ sp,
    (argPointers sp strs).length = strs.length := by
  induction strs with
  | nil => exact fun _ => rfl
  | cons str strs ih => exact fun sp => congrArg Nat.succ (ih _)

theorem argPointers_mod (strs : List (List UInt8)) : ∀ {sp}, sp % 16 = 0 →
    ∀ a ∈ argPointers sp strs, a % 16 = 0 := by
  induction strs with
  | nil =>
    intro sp _ a ha
    cases ha
  | cons str strs ih =>
    intro sp hsp a ha
    have hmod : (sp - room (str.length + 1)) % 16 = 0 := by
      have := room_mod (str.length + 1)
      omega
    rcases List.mem_cons.1 ha with rfl | ha
    · exact hmod
    · exact ih hmod a ha

/-- The regions lie below `sp` and come one below the other. -/
theorem stringRegions_spec (strs : List (List UInt8)) : ∀ sp, stringsRoom strs ≤ sp →
    (∀ x ∈ stringRegions (argPointers sp strs) strs, sp - stringsRoom strs ≤ x.1 ∧ x.1 + x.2 ≤ sp) ∧
      (stringRegions (argPointers sp strs) strs).Pairwise fun x y => y.1 + y.2 ≤ x.1 := by
  induction strs with
  | nil =>
    intro sp _
    exact ⟨fun x hx => (nomatch hx), .nil⟩
  | cons str strs ih =>
    intro sp hsp
    rw [stringsRoom_cons] at hsp
    have hroom := le_room (str.length + 1)
    obtain ⟨hin, hpair⟩ := ih (sp - room (str.length + 1)) (by omega)
    refine ⟨fun x hx => ?_, .cons (fun y hy => (hin y hy).2) hpair⟩
    rw [stringsRoom_cons]
    rcases List.mem_cons.1 hx with rfl | hx
    · dsimp only
      omega
    · have := hin x hx
      omega

theorem getBytes_pushStrings {m o' : ℕ} (strs : List (List UInt8)) : ∀ {b o}, stringsRoom strs ≤ o →
    o ≤ o' → (pushStrings b o strs).getBytes o' m = b.getBytes o' m := by
  induction strs with
  | nil => exact fun _ _ => rfl
  | cons str strs ih =>
    intro b o hroom ho
    rw [stringsRoom_cons] at hroom
    have hlen := le_room (str.length + 1)
    rw [pushStrings, ih (by omega) (by omega)]
    refine Bytes.getBytes_putBytes_disjoint b (.inr ?_)
    rw [List.length_append, List.length_singleton]
    omega

/-- Each string is where its pointer says, in the page from `base` on. -/
theorem pushStrings_spec (base : ℕ) (strs : List (List UInt8)) : ∀ {b o}, stringsRoom strs ≤ o →
    List.Forall₂ (fun a str => (pushStrings b o strs).getBytes (a - base) (str ++ [0]).length =
      str ++ [0]) (argPointers (base + o) strs) strs := by
  induction strs with
  | nil => exact fun _ => .nil
  | cons str strs ih =>
    intro b o hroom
    rw [stringsRoom_cons] at hroom
    have hsub : base + o - room (str.length + 1) = base + (o - room (str.length + 1)) := by omega
    rw [argPointers, hsub]
    refine .cons ?_ (ih (by omega))
    rw [show base + (o - room (str.length + 1)) - base = o - room (str.length + 1) by omega,
      pushStrings, getBytes_pushStrings strs (by omega) le_rfl]
    exact Bytes.getBytes_putBytes_self _ _ _

/-- The array of pointers in memory, with the null pointer at its end. -/
def pointerArray (ptrs : List ℕ) : List UInt8 := (ptrs ++ [0]).flatMap (Bytes.le 8)

theorem length_pointerArray (ptrs : List ℕ) :
    (pointerArray ptrs).length = (ptrs.length + 1) * 8 := by
  simp only [pointerArray, List.length_flatMap, Bytes.length_le, List.map_const', List.sum_replicate,
    List.length_append, List.length_singleton, smul_eq_mul]

/-- The page once the pointers are in it as well. -/
def pushedPage (b : Bytes) (base : ℕ) (strs : List (List UInt8)) : Bytes :=
  (pushStrings b PGSIZE strs).putBytes (PGSIZE - argsRoom strs)
    (pointerArray (argPointers (base + PGSIZE) strs))

theorem pushedPage_pointers (b : Bytes) (base : ℕ) (strs : List (List UInt8)) :
    (pushedPage b base strs).getBytes (PGSIZE - argsRoom strs)
      (pointerArray (argPointers (base + PGSIZE) strs)).length =
        pointerArray (argPointers (base + PGSIZE) strs) :=
  Bytes.getBytes_putBytes_self _ _ _

theorem pushedPage_strings (b : Bytes) (base : ℕ) (hfit : argsRoom strs ≤ PGSIZE) :
    List.Forall₂ (fun a str => (pushedPage b base strs).getBytes (a - base) (str ++ [0]).length =
      str ++ [0]) (argPointers (base + PGSIZE) strs) strs := by
  have hsum : argsRoom strs = stringsRoom strs + room ((strs.length + 1) * 8) := rfl
  have hroom := le_room ((strs.length + 1) * 8)
  obtain ⟨hlen, hzip⟩ := List.forall₂_iff_zip.1
    (pushStrings_spec base strs (b := b) (o := PGSIZE) (by omega))
  refine List.forall₂_iff_zip.2 ⟨hlen, fun {a str} hmem => ?_⟩
  have hin := (stringRegions_spec strs (base + PGSIZE) (by omega)).1 (a, str.length + 1)
    (List.mem_map_of_mem hmem)
  refine (Bytes.getBytes_putBytes_disjoint _ (.inr ?_)).trans (hzip hmem)
  rw [length_pointerArray, length_argPointers]
  omega

theorem argRegions_spec (strs : List (List UInt8)) (sp : ℕ) (hfit : argsRoom strs ≤ sp) :
    (∀ x ∈ argRegions (sp - argsRoom strs) (argPointers sp strs) strs,
        sp - argsRoom strs ≤ x.1 ∧ x.1 + x.2 ≤ sp) ∧
      (argRegions (sp - argsRoom strs) (argPointers sp strs) strs).Pairwise
        fun x y => x.1 + x.2 ≤ y.1 ∨ y.1 + y.2 ≤ x.1 := by
  have hsum : argsRoom strs = stringsRoom strs + room ((strs.length + 1) * 8) := rfl
  have hroom := le_room ((strs.length + 1) * 8)
  obtain ⟨hin, hpair⟩ := stringRegions_spec strs sp (by omega)
  refine ⟨fun x hx => ?_, .cons (fun y hy => .inl ?_) (hpair.imp fun h => .inr h)⟩
  · rcases List.mem_cons.1 hx with rfl | hx
    · dsimp only
      omega
    · have := hin x hx
      omega
  · have := hin y hy
    dsimp only
    omega

/-! ### One page is written -/

structure PageSet (w : ℕ) (b : Bytes) (s t : State) : Prop where
  fields : t = { s with mem := t.mem }
  page : t.mem.get w = b
  only : OnlyPage w s t

theorem PageSet.refl (w : ℕ) (s : State) : PageSet w (s.mem.get w) s s := ⟨rfl, rfl, fun _ _ => rfl⟩

theorem PageSet.trans {b' : Bytes} {t' : State} (h : PageSet w b s t) (h' : PageSet w b' t t') :
    PageSet w b' s t' := by
  refine ⟨?_, h'.page, fun q hq => (h'.only q hq).trans (h.only q hq)⟩
  rw [h'.fields, h.fields]

theorem pageSet_setBytes (s : State) (ho : o < PGSIZE) (l : List UInt8) :
    PageSet w ((s.mem.get w).putBytes o l) s (s.setBytes (pg w + o) l) := by
  rw [setBytes_pg s w ho]
  exact ⟨rfl, TMap.get_set_self _ _ _, fun q hq => TMap.get_set_ne _ _ hq⟩

theorem PageSet.effect (h : PageSet w b s t) (hm : Memory k own L s) (hw : own w = .user r v) :
    Effect k r own L s own L t := by
  refine Space.write_user hm h.fields fun q hq => h.only q ?_
  rintro rfl
  exact hq v hw

theorem copyoutFrom_nil (pagetable fuel va : ℕ) (s : State) :
    copyoutFrom pagetable fuel va [] s = .ok true s := by
  cases fuel <;> rfl

theorem Space.copyout_page {src : List UInt8} (hs : Space own L r n (trampEntry k) (trapEntry u₀))
    (hm : Memory k own L s) (hva : pg v ≤ va) (hfit : va + src.length ≤ pg (v + 1)) (hv : v < n)
    (hw : L r (vkey v) = pte w 31) (hsrc : src ≠ []) :
    Post (copyout (pg r) va src) s
      (fun ok t => ok = true ∧ PageSet w ((s.mem.get w).putBytes (va - pg v) src) s t) E := by
  obtain ⟨fuel, hfuel⟩ := Nat.exists_eq_succ_of_ne_zero (List.length_pos_iff.2 hsrc).ne'
  have hround : PGROUNDDOWN va = pg v := by
    rw [PGROUNDDOWN_eq]
    unfold pg PGSIZE at *
    omega
  have hlt : pg v < pg n := by
    unfold pg PGSIZE
    omega
  have hdiv : pg v / PGSIZE = v := pg_div v
  obtain ⟨hpage, huser⟩ := hs.userPage_eq (u := w) hm hlt (by rw [hdiv, hw])
  have hw0 : pg w ≠ 0 := fun h0 => (hm.pages.pos (by rw [huser]; simp)).ne' (pg_eq_zero.1 h0)
  have hmin : min (PGSIZE - (va - pg v)) src.length = src.length := by
    refine min_eq_right ?_
    unfold pg PGSIZE at *
    omega
  rw [copyout, hfuel]
  simp only [copyoutFrom, writeBytes, post_bind, post_ite, post_pure, post_modify, hround]
  refine ⟨fun h0 => absurd h0 hsrc, fun _ => (walkaddr_spec (pg_mod r) _).imp ?_⟩
  rintro a t ⟨rfl, rfl⟩
  rw [hpage, Option.getD_some, hmin, List.take_length, List.drop_length]
  refine ⟨fun h0 => absurd h0 hw0, fun _ => post_of_ok (copyoutFrom_nil _ _ _ _) ⟨rfl, ?_⟩⟩
  exact pageSet_setBytes t (by unfold pg PGSIZE at *; omega) src

/-! ### The arguments -/

structure HoldsString (own : ℕ → Use) (s : State) (a : ℕ) (str : List UInt8) : Prop where
  page : ∃ q, a = pg q ∧ own q = .held
  short : str.length < PGSIZE
  nonzero : 0 ∉ str
  bytes : s.bytes a (str.length + 1) = str ++ [0]

namespace HoldsString
variable {a : ℕ} {str : List UInt8}

theorem cstring_eq (h : HoldsString own s a str) : s.cstring a = str := by
  have hsplit := Bytes.getBytes_add (s.mem.get (a / PGSIZE)) (a % PGSIZE) (str.length + 1)
    (PGSIZE - (str.length + 1))
  have hbytes := h.bytes
  rw [State.bytes] at hbytes
  rw [Nat.add_sub_cancel' h.short, hbytes, List.append_assoc] at hsplit
  rw [State.cstring, State.bytes, hsplit, List.takeWhile_append_of_pos fun x hx => ?_]
  · simp
  · rw [decide_eq_true_iff]
    rintro rfl
    exact h.nonzero hx

theorem pageSet (h : HoldsString own s a str) (hset : PageSet w b s t) (hw : own w = .user r v) :
    HoldsString own t a str := by
  obtain ⟨q, rfl, hq⟩ := h.page
  refine ⟨⟨q, rfl, hq⟩, h.short, h.nonzero, ?_⟩
  have hqw : q ≠ w := by
    rintro rfl
    rw [hw] at hq
    cases hq
  rw [← h.bytes, State.bytes, State.bytes, pg_div, hset.only q hqw]

end HoldsString

/-- The loop over the arguments puts the strings on the stack page, as far as there is
room. -/
theorem pushArgs_run (hs : Space own L r n (trampEntry k) (trapEntry u)) (hv : v < n) (hv1 : 1 ≤ v)
    (hw : L r (vkey v) = pte w 31) (huser : own w = .user r v) (strs : List (List UInt8)) :
    ∀ {argv s sp ustack}, Memory k own L s → List.Forall₂ (HoldsString own s) argv strs →
    pg v ≤ sp → sp ≤ pg (v + 1) → sp % 16 = 0 → ustack.length + strs.length ≤ MAXARG →
    Post (pushArgs (pg r) (pg v) argv sp ustack) s (fun res t =>
      (stringsRoom strs ≤ sp - pg v ∧
          res = some (sp - stringsRoom strs, ustack ++ argPointers sp strs) ∧
          PageSet w (pushStrings (s.mem.get w) (sp - pg v) strs) s t) ∨
        sp - pg v < stringsRoom strs ∧ res = none ∧ ∃ b, PageSet w b s t) E := by
  have hvpos : PGSIZE ≤ pg v := by
    unfold pg PGSIZE
    omega
  induction strs with
  | nil =>
    intro argv s sp ustack hm hargv hlo hhi hmod hlen
    cases hargv
    refine post_pure.2 (.inl ⟨Nat.zero_le _, ?_, .refl w s⟩)
    rw [argPointers, List.append_nil]
    rfl
  | cons str strs ih =>
    intro argv s sp ustack hm hargv hlo hhi hmod hlen
    cases hargv with
    | @cons a _ argv _ ha hargv =>
    have hbig : pg (v + 1) < 2 ^ 64 := by
      have := hs.small hm
      unfold pg PHYSTOP KERNBASE PGSIZE at *
      omega
    have hshort := ha.short
    rw [List.length_cons] at hlen
    have hle : str.length + 1 ≤ sp := by omega
    have hroom := le_room (str.length + 1)
    have hroom16 := room_mod (str.length + 1)
    have hroomsp := (room_le_iff hmod).2 hle
    simp only [pushArgs, post_bind, post_ite, post_get, post_pure, ha.cstring_eq,
      aligned_sub hmod (by omega) hle, stringsRoom_cons]
    refine ⟨fun h => absurd h (by omega), fun _ => ⟨fun hlt => .inr ⟨by omega, trivial, _, .refl w s⟩,
      fun hge => ?_⟩⟩
    have hfit : sp - room (str.length + 1) + (str ++ [0]).length ≤ pg (v + 1) := by
      rw [List.length_append, List.length_singleton]
      omega
    refine (hs.copyout_page hm (not_lt.1 hge) hfit hv hw (by simp)).imp ?_
    rintro ok t ⟨rfl, hset⟩
    refine ⟨fun _ => ?_, fun hne => absurd rfl hne⟩
    have hlen' : (ustack ++ [sp - room (str.length + 1)]).length + strs.length ≤ MAXARG := by
      rw [List.length_append, List.length_singleton]
      omega
    refine (ih (hset.effect hm huser).memory (hargv.imp fun _ _ h => h.pageSet hset huser)
      (not_lt.1 hge) (by omega) (by omega) hlen').imp ?_
    rintro res t' (⟨hfits, rfl, hset'⟩ | ⟨hfits, rfl, b', hset'⟩)
    · refine .inl ⟨by omega, ?_, ?_⟩
      · rw [argPointers, List.append_assoc, List.singleton_append, Nat.sub_sub]
      · rw [hset.page] at hset'
        have hoff : sp - room (str.length + 1) - pg v = sp - pg v - room (str.length + 1) := by omega
        rw [hoff] at hset'
        exact hset.trans hset'
    · exact .inr ⟨by omega, rfl, b', hset.trans hset'⟩

theorem pushStack_run (hs : Space own L r n (trampEntry k) (trapEntry u)) (hm : Memory k own L s)
    (hv : v < n) (hv1 : 1 ≤ v) (hw : L r (vkey v) = pte w 31) (huser : own w = .user r v)
    (hargv : List.Forall₂ (HoldsString own s) argv strs) (hlen : strs.length ≤ MAXARG) :
    Post (pushStack (pg r) (pg v) (pg (v + 1)) argv) s (fun res t =>
      (argsRoom strs ≤ PGSIZE ∧ res = some (pg (v + 1) - argsRoom strs) ∧
          PageSet w (pushedPage (s.mem.get w) (pg v) strs) s t) ∨
        PGSIZE < argsRoom strs ∧ res = none ∧ ∃ b, PageSet w b s t) E := by
  have hpage : pg (v + 1) = pg v + PGSIZE := pg_succ v
  have hmod : pg (v + 1) % 16 = 0 := by
    unfold pg PGSIZE
    omega
  have hbig : pg (v + 1) < 2 ^ 64 := by
    have := hs.small hm
    unfold pg PHYSTOP KERNBASE PGSIZE at *
    omega
  simp only [pushStack, post_bind]
  refine (pushArgs_run hs hv hv1 hw huser strs hm hargv (by omega) le_rfl hmod
    (by simpa using hlen)).imp ?_
  rintro res t (⟨hfits, rfl, hset⟩ | ⟨hfits, rfl, hset⟩)
  · have hlen8 : (argv.length + 1) * 8 % 2 ^ 64 = (strs.length + 1) * 8 := by
      rw [hargv.length_eq]
      refine Nat.mod_eq_of_lt ?_
      unfold MAXARG at hlen
      omega
    have hstr := stringsRoom_mod strs
    have hsp : (pg (v + 1) - stringsRoom strs) % 16 = 0 := by omega
    have hle : (strs.length + 1) * 8 ≤ pg (v + 1) - stringsRoom strs := by
      unfold MAXARG pg PGSIZE at *
      omega
    have hroom := le_room ((strs.length + 1) * 8)
    have hroomsp := (room_le_iff hsp).2 hle
    have hroom16 := room_mod ((strs.length + 1) * 8)
    have hptrs := length_pointerArray (argPointers (pg (v + 1)) strs)
    rw [length_argPointers] at hptrs
    have hsum : argsRoom strs = stringsRoom strs + room ((strs.length + 1) * 8) := rfl
    simp only [post_bind, post_ite, post_pure, hlen8, List.nil_append,
      aligned_sub hsp (by omega) hle, Nat.sub_sub, ← hsum]
    refine ⟨fun hlt => .inr ⟨by omega, trivial, _, hset⟩, fun hge => ?_⟩
    have hfit : pg (v + 1) - argsRoom strs +
        (pointerArray (argPointers (pg (v + 1)) strs)).length ≤ pg (v + 1) := by
      omega
    have hne : pointerArray (argPointers (pg (v + 1)) strs) ≠ [] :=
      List.ne_nil_of_length_pos (by omega)
    refine (hs.copyout_page (hset.effect hm huser).memory (not_lt.1 hge) hfit hv hw hne).imp ?_
    rintro ok t' ⟨rfl, hset'⟩
    refine ⟨fun _ => .inl ⟨by omega, trivial, ?_⟩, fun hne => absurd rfl hne⟩
    rw [hset.page, show pg (v + 1) - argsRoom strs - pg v = PGSIZE - argsRoom strs by omega,
      show pg (v + 1) - pg v = PGSIZE by omega] at hset'
    rw [pushedPage, ← hpage]
    exact hset.trans hset'
  · refine post_pure.2 (.inr ⟨?_, rfl, hset⟩)
    unfold argsRoom
    omega

/-! ### What the program finds -/

/-- User memory holds the bytes `l` from `va` on. -/
def UserHolds (pagetable va : ℕ) (l : List UInt8) (s : State) : Prop :=
  ∀ i, i < l.length → Accessible pagetable (va + i) s ∧
    vmByte pagetable (va + i) s = some (l.getD i 0)

/-- The arguments `strs` of process `p`: the array of pointers is at `sp`, which is in the
register `a1` and is the stack pointer, and the strings are where the pointers say; they
do not overlap and lie in the last page, which has an inaccessible page below it. -/
structure ArgvAt (p sp : ℕ) (ptrs : List ℕ) (strs : List (List UInt8)) (t : State) : Prop where
  a1 : t.load ((t.proc.get p).trapframe + a1Off) 8 = sp
  stackPointer : t.load ((t.proc.get p).trapframe + spOff) 8 = sp
  pointers : UserHolds (t.proc.get p).pagetable sp (pointerArray ptrs) t
  strings : List.Forall₂ (fun a str => UserHolds (t.proc.get p).pagetable a (str ++ [0]) t) ptrs strs
  aligned : sp % 16 = 0 ∧ ∀ a ∈ ptrs, a % 16 = 0
  disjoint : (argRegions sp ptrs strs).Pairwise fun x y => x.1 + x.2 ≤ y.1 ∨ y.1 + y.2 ≤ x.1
  within : ∀ x ∈ argRegions sp ptrs strs,
    (t.proc.get p).sz - PGSIZE ≤ x.1 ∧ x.1 + x.2 ≤ (t.proc.get p).sz
  room : 2 * PGSIZE ≤ (t.proc.get p).sz
  guard : ∀ va, (t.proc.get p).sz - 2 * PGSIZE ≤ va → va < (t.proc.get p).sz - PGSIZE →
    ¬ Accessible (t.proc.get p).pagetable va t

theorem Space.userHolds {l : List UInt8} (hs : Space own L r n (trampEntry k) (trapEntry u))
    (hm : Memory k own L s) (hv : v < n) (hw : L r (vkey v) = pte w 31) (hlo : pg v ≤ va)
    (hhi : va + l.length ≤ pg (v + 1))
    (hbytes : (s.mem.get w).getBytes (va - pg v) l.length = l) : UserHolds (pg r) va l s := by
  intro i hi
  have hdiv : (va + i) / PGSIZE = v := by
    unfold pg PGSIZE at *
    omega
  have hmod : (va + i) % PGSIZE = va - pg v + i := by
    unfold pg PGSIZE at *
    omega
  have hlt : va + i < pg n := by
    unfold pg PGSIZE at *
    omega
  obtain ⟨w', f, hw'⟩ := hs.page v hv
  obtain ⟨rfl, -⟩ := (pte_inj (by decide) hw'.lt).1 (hw.symm.trans hw'.entry)
  refine ⟨accessible_iff.2 ⟨pg w, (hs.userPage_eq hm hlt (by rw [hdiv, hw])).1⟩, ?_⟩
  rw [Mapped.vmByte_eq hm hs.root (hs.lt_maxva hm hlt) (by rw [hdiv]; exact hw'), hmod]
  rw [← Bytes.getD_getBytes (s.mem.get w) (va - pg v) l.length i hi, hbytes]

theorem Space.not_accessible {g : ℕ} (hs : Space own L r n (trampEntry k) (trapEntry u))
    (hm : Memory k own L s) (hg : L r (vkey v) = pte g 15) (hva : va / PGSIZE = v) :
    ¬ Accessible (pg r) va s := by
  rintro ⟨hmax, e, he, hne⟩
  rw [translation_eq hm hs.root hmax, key_eq_vkey, hva, hg] at he
  split_ifs at he
  cases he
  rw [pte_and (by decide) (by decide)] at hne
  exact hne (by decide)

theorem Committed.argvAt {m : ℕ} {own' : ℕ → Use} {L' : ℕ → List ℕ → ℕ} {t' : State}
    (hc : Committed p r u (m + 2) (pg (m + 2) - argsRoom strs) own L t own' L' t')
    (hrun : Running k own' L' p r u t') (hg : ∃ g, L r (vkey m) = pte g 15)
    (hw : L r (vkey (m + 1)) = pte w 31) (huser : own w = .user r (m + 1))
    (hpage : t.mem.get w = pushedPage b (pg (m + 1)) strs) (hfit : argsRoom strs ≤ PGSIZE) :
    ArgvAt p (pg (m + 2) - argsRoom strs) (argPointers (pg (m + 2)) strs) strs t' := by
  have hsucc : pg (m + 2) = pg (m + 1) + PGSIZE := pg_succ (m + 1)
  have hsucc' : pg (m + 1) = pg m + PGSIZE := pg_succ m
  have hs := hrun.space
  rw [hc.size, pages_pg] at hs
  have hbig : pg (m + 2) < 2 ^ 64 := by
    have := hs.small hrun.memory
    unfold pg PHYSTOP KERNBASE PGSIZE at *
    omega
  have hmem : t'.mem.get w = pushedPage b (pg (m + 1)) strs := (hc.mem w _ huser).trans hpage
  have hw' : L' r (vkey (m + 1)) = pte w 31 := by rw [hc.maps, hw]
  have hmod : pg (m + 2) % 16 = 0 := by
    unfold pg PGSIZE
    omega
  obtain ⟨ha1, hsp⟩ := hc.regs (by omega)
  obtain ⟨hin, hdisj⟩ := argRegions_spec strs (pg (m + 2)) (by omega)
  constructor
  · rw [hrun.trapframe, ha1]
  · rw [hrun.trapframe, hsp]
  · have hlen := length_pointerArray (argPointers (pg (m + 2)) strs)
    have hregion := hin (_, _) List.mem_cons_self
    rw [length_argPointers] at hlen
    rw [hrun.pagetable]
    refine hs.userHolds hrun.memory (by omega) hw' (by omega) ?_ ?_
    · show _ ≤ pg (m + 2)
      omega
    rw [hmem, show pg (m + 2) - argsRoom strs - pg (m + 1) = PGSIZE - argsRoom strs by omega, hsucc]
    exact pushedPage_pointers b (pg (m + 1)) strs
  · obtain ⟨hlen, hzip⟩ := List.forall₂_iff_zip.1 (pushedPage_strings b (pg (m + 1)) hfit)
    rw [← hsucc] at hlen hzip
    refine List.forall₂_iff_zip.2 ⟨hlen, fun {a str} hstr => ?_⟩
    have hregion := hin (a, str.length + 1) (List.mem_cons_of_mem _ (List.mem_map_of_mem hstr))
    have hlen1 : (str ++ [0]).length = str.length + 1 := List.length_append
    rw [hrun.pagetable]
    refine hs.userHolds hrun.memory (by omega) hw' (by omega) ?_ ?_
    · show _ ≤ pg (m + 2)
      omega
    rw [hmem]
    exact hzip hstr
  · have hstr := stringsRoom_mod strs
    have hroom := room_mod ((strs.length + 1) * 8)
    have hsum : argsRoom strs = stringsRoom strs + Vm.room ((strs.length + 1) * 8) := rfl
    exact ⟨by omega, argPointers_mod strs hmod⟩
  · exact hdisj
  · intro x hx
    have := hin x hx
    rw [hc.size]
    omega
  · rw [hc.size]
    omega
  · intro va hlo hhi
    obtain ⟨g, hg⟩ := hg
    rw [hc.size] at hlo hhi
    rw [hrun.pagetable]
    refine hs.not_accessible hrun.memory (by rw [hc.maps, hg]) ?_
    unfold pg PGSIZE at *
    omega

/-- `exec` from the arguments on fails exactly when they do not fit on the stack page. -/
theorem execArgs_run {m : ℕ} (path : List UInt8) (entry : ℕ) (h : Running k own₀ L₀ p r₀ u s₀)
    (hi : Imaged k own₀ L₀ s₀ r u m own L s)
    (hargv : List.Forall₂ (HoldsString own s) argv strs) (hlen : strs.length ≤ MAXARG) :
    Post (execArgs k p path argv (some ⟨(s₀.proc.get p).sz, pg r, pg (m + 2), entry⟩)) s
      (fun ret t => (argsRoom strs ≤ PGSIZE ∧ ret = strs.length ∧
          ∃ sp ptrs, ArgvAt p sp ptrs strs t) ∨
        PGSIZE < argsRoom strs ∧ ret = -1) E := by
  obtain ⟨w, hw⟩ := hi.stack
  obtain ⟨w', f, hw'⟩ := hi.space.page (m + 1) (by omega)
  obtain ⟨rfl, -⟩ := (pte_inj (by decide) hw'.lt).1 (hw.symm.trans hw'.entry)
  have hbase : pg (m + 2) - PGSIZE = pg (m + 1) := by
    rw [pg_succ (m + 1), Nat.add_sub_cancel]
  simp only [execArgs, post_bind, hbase]
  refine (pushStack_run hi.space hi.effect.memory (by omega) (by omega) hw hw'.user hargv hlen).imp ?_
  rintro res t (⟨hfit, rfl, hset⟩ | ⟨hfit, rfl, b, hset⟩)
  · have he := hset.effect hi.effect.memory hw'.user
    refine (exec_commit path entry _ argv.length h hi.free (hi.effect.trans he) hi.space).imp ?_
    rintro ret t' ⟨rfl, -, own', L', hrun, hc⟩
    rw [hargv.length_eq]
    exact .inl ⟨hfit, rfl, _, _, hc.argvAt hrun hi.guard hw hw'.user hset.page hfit⟩
  · have he := hset.effect hi.effect.memory hw'.user
    exact (Imaged.discard h hi.free (hi.effect.trans he) (by rw [pages_pg]; exact hi.space)).seq
      fun _ t' _ => post_pure.2 (.inr ⟨hfit, rfl⟩)

theorem HoldsString.effect {own' : ℕ → Use} {L' : ℕ → List ℕ → ℕ} {a : ℕ} {str : List UInt8}
    (h : HoldsString own s a str) (he : Effect k r own L s own' L' t) : HoldsString own' t a str := by
  obtain ⟨q, rfl, hq⟩ := h.page
  refine ⟨⟨q, rfl, ?_⟩, h.short, h.nonzero, ?_⟩
  · rw [he.frame.use q (by rw [hq]; simp) (by rw [hq]; exact id), hq]
  · rw [← h.bytes, State.bytes, State.bytes, pg_div,
      he.frame.mem q (by rw [hq]; simp) (by rw [hq]; exact id)]

/-- `exec` passes its arguments on. It fails when no image can be built, and when there is no
room for the arguments on the stack page of the image, and in no other case. -/
theorem exec_passes_argv (h : Running k own L p r u s) (file : Option Contents) (path : List UInt8)
    (hargv : List.Forall₂ (HoldsString own s) argv strs) (hlen : strs.length ≤ MAXARG - 1) :
    ∃ image t₀ ret t, execImage k p file s = .ok image t₀ ∧ exec k p file path argv s = .ok ret t ∧
      (ret ≠ -1 → ret = strs.length ∧ ∃ sp ptrs, ArgvAt p sp ptrs strs t) ∧
      (ret = -1 ↔ image = none ∨ PGSIZE < argsRoom strs) := by
  obtain ⟨image, t₀, hrun, -, himage⟩ := (execImage_spec (E := fun _ _ => False) h file).returns
  have hexec : exec k p file path argv s = execArgs k p path argv image t₀ := by
    rw [exec_eq]
    show EStateM.bind _ _ s = _
    rw [EStateM.bind, hrun]
  rw [hexec]
  rcases himage with ⟨rfl, -⟩ | ⟨own', L', r', m, entry, rfl, hi⟩
  · exact ⟨none, t₀, -1, t₀, hrun, rfl, fun hne => absurd rfl hne, fun _ => .inl rfl, fun _ => rfl⟩
  · have hstart := h.record (execCalls file ++ s.fs)
    have hargv' : List.Forall₂ (HoldsString own' t₀) argv strs := by
      refine hargv.imp fun a str ha => HoldsString.effect (s := { s with fs := _ }) ?_ hi.effect
      exact ⟨ha.page, ha.short, ha.nonzero, ha.bytes⟩
    obtain ⟨ret, t, hret, hend⟩ := (execArgs_run (E := fun _ _ => False) path entry hstart hi hargv'
      (hlen.trans (Nat.sub_le _ _))).returns
    refine ⟨_, t₀, ret, t, hrun, hret, ?_⟩
    rcases hend with ⟨hfit, hok, hat⟩ | ⟨hfull, hfail⟩
    · refine ⟨fun _ => ⟨hok, hat⟩, iff_of_false (by omega) ?_⟩
      rintro (hnone | hfull)
      · cases hnone
      · omega
    · exact ⟨fun hne => absurd hfail hne, iff_of_true hfail (.inr hfull)⟩

theorem Running.write_held {q : ℕ} (h : Running k own L p r u s) (hq : own q = .held)
    (l : List UInt8) : Running k own L p r u (s.setBytes (pg q) l) := by
  refine ⟨h.tramp, h.memory.write (by rw [hq]; simp) (by rw [hq]; simp) rfl fun _ hd =>
    mem_setBytes_ne s l hd, h.rooted, ?_, ?_, h.frame, ?_⟩
  · rw [setBytes_pg0]
    exact h.pagetable
  · rw [setBytes_pg0]
    exact h.trapframe
  · rw [setBytes_pg0]
    exact h.space

theorem holdsString_write {q : ℕ} (str : List UInt8) (hq : own q = .held)
    (hshort : str.length < PGSIZE) (hstr : 0 ∉ str) (s : State) :
    HoldsString own (s.setBytes (pg q) (str ++ [0])) (pg q) str := by
  refine ⟨⟨q, rfl, hq⟩, hshort, hstr, ?_⟩
  rw [setBytes_pg0, State.bytes, pg_div, pg_mod, TMap.get_set_self]
  have hself := Bytes.getBytes_putBytes_self (s.mem.get q) 0 (str ++ [0])
  rwa [List.length_append, List.length_singleton] at hself

def bareElf : Contents := ⟨elfhdrSize, elfBytes 0⟩

/-- A process executes the file with the argument `hi`. -/
theorem exec_passes_argv_hi : ∃ own L r u,
    Running ⟨KERNBASE, KERNBASE, KERNBASE⟩ own L 0 r u (oneProc.setBytes (pg 0x80000) [104, 105, 0]) ∧
    ∃ t, exec ⟨KERNBASE, KERNBASE, KERNBASE⟩ 0 (some bareElf) [] [pg 0x80000]
        (oneProc.setBytes (pg 0x80000) [104, 105, 0]) = .ok 1 t ∧
      ∃ sp ptrs, ArgvAt 0 sp ptrs [[104, 105]] t := by
  obtain ⟨own, L, r, u, h, -, hheld⟩ := oneProc_running
  have hrun := h.write_held hheld [104, 105, 0]
  have hstr := holdsString_write [104, 105] hheld (by decide) (by decide) oneProc
  obtain ⟨image, t₀, ret, t, himage, hexec, hok, hfail⟩ :=
    exec_passes_argv hrun (some bareElf) [] (.cons hstr .nil) (by decide)
  have hbuilt : ((returned (execImage ⟨KERNBASE, KERNBASE, KERNBASE⟩ 0 (some bareElf)
      (oneProc.setBytes (pg 0x80000) [104, 105, 0]))).getD none).isSome = true := by decide +kernel
  have hret : ret ≠ -1 := by
    rw [himage] at hbuilt
    rw [ne_eq, hfail]
    rintro (rfl | hfull)
    · cases hbuilt
    · exact absurd hfull (by decide)
  obtain ⟨rfl, hat⟩ := hok hret
  exact ⟨own, L, r, u, hrun, t, hexec, hat⟩

end Vm
end Xv6
