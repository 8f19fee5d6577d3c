import Xv6.Lib.SlotMap
import Xv6.Fs.InodeSteps

/-!
Directories. A directory is a finite map from names of `DIRSIZ` bytes to inode numbers, kept
in slots of `DIRENTSIZE` bytes; `dirlookup`, `dirlink` and the clearing of an entry are the
operations of that map.
-/

namespace Xv6
open Hoare RefTable

def direntAt (V : ℕ → Block) (d : Dinode) (k : ℕ) : Dirent :=
  Dirent.decode (readBytes V d (k * DIRENTSIZE) DIRENTSIZE)

/-- The name and the inode of an entry in use. -/
def Dirent.live (de : Dirent) : Option (List UInt8 × ℕ) :=
  if de.inum = 0 then none else some (strncpy DIRSIZ de.name, de.inum)

def dirSlots (V : ℕ → Block) (d : Dinode) (k : ℕ) : Option (List UInt8 × ℕ) :=
  (direntAt V d k).live

def dirFind (V : ℕ → Block) (d : Dinode) (name : List UInt8) : Option ℕ :=
  SlotMap.find (dirSlots V d) (direntCount d.size) (strncpy DIRSIZ name)

/-- A directory that can be read: its entries are whole and name inodes of the volume. -/
structure IsDir (v : Volume) (V : ℕ → Block) (d : Dinode) : Prop where
  type : d.type = T_DIR
  whole : d.size % DIRENTSIZE = 0
  inums : ∀ k < direntCount d.size, (direntAt V d k).inum < v.sb.inodeCount

/-! Names. -/

theorem headD_strncpy (n : ℕ) (t : List UInt8) : (strncpy (n + 1) t).headD 0 = t.headD 0 := by
  unfold strncpy
  split_ifs with h
  · rw [h]
    rfl
  · rfl

/-- Names are compared as they are stored. -/
theorem strncmp_eq_zero (n : ℕ) (p q : List UInt8) :
    strncmp n p q = 0 ↔ strncpy n p = strncpy n q := by
  induction n generalizing p q with
  | zero => exact ⟨fun _ => rfl, fun _ => rfl⟩
  | succ n ih =>
    unfold strncmp
    split_ifs with h
    · obtain ⟨h0, he⟩ := h
      rw [ih, strncpy, strncpy, if_neg h0, if_neg (he ▸ h0), he, List.cons_inj_right]
    · have hhead : strncpy (n + 1) p = strncpy (n + 1) q → p.headD 0 = q.headD 0 := fun he => by
        rw [← headD_strncpy n p, ← headD_strncpy n q, he]
      rw [sub_eq_zero, Nat.cast_inj, UInt8.toNat_inj]
      refine ⟨fun he => ?_, hhead⟩
      have h0 : p.headD 0 = 0 := by
        by_contra hne
        exact h ⟨hne, he⟩
      rw [strncpy, strncpy, if_pos h0, if_pos (he ▸ h0)]

theorem strncpy_replicate (n m : ℕ) : strncpy n (List.replicate m 0) = List.replicate n 0 := by
  cases n with
  | zero => rfl
  | succ n =>
    rw [strncpy, if_pos]
    cases m with
    | zero => rfl
    | succ m => rfl

theorem strncpy_strncpy (n : ℕ) (t : List UInt8) : strncpy n (strncpy n t) = strncpy n t := by
  induction n generalizing t with
  | zero => rfl
  | succ n ih =>
    by_cases h : t.headD 0 = 0
    · rw [show strncpy (n + 1) t = List.replicate (n + 1) 0 by rw [strncpy, if_pos h],
        strncpy_replicate]
    · rw [show strncpy (n + 1) t = t.headD 0 :: strncpy n t.tail by rw [strncpy, if_neg h],
        strncpy, List.headD_cons, if_neg h, List.tail_cons, ih]

theorem strncpy_eq_append {n : ℕ} {t : List UInt8} (hn : t.length ≤ n) (h0 : 0 ∉ t) :
    strncpy n t = t ++ List.replicate (n - t.length) 0 := by
  induction n generalizing t with
  | zero =>
    rw [List.length_eq_zero_iff.1 (Nat.le_zero.1 hn)]
    rfl
  | succ n ih =>
    cases t with
    | nil => rfl
    | cons c t =>
      have hc : ¬ c = 0 := fun h => h0 (h ▸ List.mem_cons_self)
      have hn' : t.length ≤ n := by simpa using hn
      rw [strncpy, List.headD_cons, if_neg hc, List.tail_cons,
        ih hn' fun h => h0 (List.mem_cons_of_mem c h), List.length_cons, Nat.add_sub_add_right]
      rfl

/-- Names that fit and have no NUL in them are kept apart. -/
theorem strncpy_inj {n : ℕ} {t u : List UInt8} (ht : t.length ≤ n) (ht0 : 0 ∉ t) (hu : u.length ≤ n)
    (hu0 : 0 ∉ u) (h : strncpy n t = strncpy n u) : t = u := by
  have key : ∀ l : List UInt8, 0 ∉ l → ∀ m, (l ++ List.replicate m 0).takeWhile (· ≠ 0) = l := by
    intro l hl m
    rw [List.takeWhile_append_of_pos]
    · cases m <;> simp
    · intro c hc
      have : c ≠ 0 := fun h => hl (h ▸ hc)
      simpa using this
  rw [strncpy_eq_append ht ht0, strncpy_eq_append hu hu0] at h
  rw [← key t ht0 (n - t.length), h, key u hu0]

structure Dirent.Ok (de : Dirent) : Prop where
  inum : de.inum < 2 ^ 16
  name : de.name.length = DIRSIZ

theorem Dirent.Ok.length_encode {de : Dirent} (h : de.Ok) : de.encode.length = DIRENTSIZE := by
  rw [Dirent.encode, List.length_append, Bytes.length_le, h.name]
  rfl

theorem Dirent.Ok.decode_encode {de : Dirent} (h : de.Ok) : Dirent.decode de.encode = de := by
  have hlen : (Bytes.le 2 de.inum).length = 2 := Bytes.length_le 2 _
  rw [Dirent.decode, Dirent.encode, List.take_left' hlen, List.drop_left' hlen, Bytes.ofLE_le,
    Nat.mod_eq_of_lt (lt_of_lt_of_le h.inum (by norm_num))]

theorem dirent_live_eq_none {de : Dirent} : de.live = none ↔ de.inum = 0 := by
  unfold Dirent.live
  by_cases h : de.inum = 0
  · rw [if_pos h]
    exact ⟨fun _ => h, fun _ => rfl⟩
  · rw [if_neg h]
    exact ⟨fun hc => absurd hc (Option.some_ne_none _), fun hc => absurd hc h⟩

theorem dirent_matches {de : Dirent} {name : List UInt8} :
    de.live.map Prod.fst = some (strncpy DIRSIZ name) ↔ de.inum ≠ 0 ∧ namecmp name de.name = 0 := by
  rw [namecmp, strncmp_eq_zero, Dirent.live]
  split_ifs with h
  · exact ⟨fun hc => absurd hc.symm (Option.some_ne_none _), fun hc => absurd h hc.1⟩
  · rw [Option.map_some, Option.some.injEq]
    exact ⟨fun he => ⟨h, he.symm⟩, fun he => he.2.symm⟩

section
variable {v : Volume} {a : Snap} {s t : State} {dp n k m inum : ℕ} {w w' : Work} {E : Fault → Prop}
  {V W : ℕ → Block} {d e : Dinode} {name other : List UInt8} {p : Panic} {de : Dirent}

theorem direntCount_eq (h : d.size % DIRENTSIZE = 0) : direntCount d.size * DIRENTSIZE = d.size := by
  unfold direntCount DIRENTSIZE at *
  omega

theorem direntAt_congr (h : ∀ j < DIRENTSIZE, byteAt W e (k * DIRENTSIZE + j) =
    byteAt V d (k * DIRENTSIZE + j)) : direntAt W e k = direntAt V d k := by
  unfold direntAt readBytes
  congr 1
  exact List.map_congr_left fun j hj => h j (List.mem_range.1 hj)

namespace Undisturbed

theorem direntAt_eq (h : Undisturbed V W d) (k : ℕ) : direntAt W d k = direntAt V d k :=
  direntAt_congr fun j _ => h.byteAt_eq (k * DIRENTSIZE + j)

theorem dirSlots_eq (h : Undisturbed V W d) : dirSlots W d = dirSlots V d := by
  funext k
  rw [dirSlots, h.direntAt_eq, dirSlots]

theorem dirFind_eq (h : Undisturbed V W d) (name : List UInt8) :
    dirFind W d name = dirFind V d name := by
  rw [dirFind, h.dirSlots_eq, dirFind]

theorem isDir (h : Undisturbed V W d) (hd : IsDir v V d) : IsDir v W d :=
  ⟨hd.type, hd.whole, fun k hk => by
    rw [h.direntAt_eq]
    exact hd.inums k hk⟩

end Undisturbed

theorem direntAt_eq (hde : de.Ok)
    (h : ∀ j < DIRENTSIZE, byteAt V d (k * DIRENTSIZE + j) = de.encode.getD j 0) :
    direntAt V d k = de := by
  rw [direntAt, show readBytes V d (k * DIRENTSIZE) DIRENTSIZE = de.encode from ?_, hde.decode_encode]
  apply List.ext_getElem (by rw [length_readBytes, hde.length_encode])
  intro j h₁ h₂
  rw [← List.getD_eq_getElem _ 0 h₁, ← List.getD_eq_getElem _ 0 h₂]
  rw [length_readBytes] at h₁
  rw [getD_readBytes h₁, h j h₁]

/-! Reading entries. -/

/-- Entry `k` is not in a hole. -/
def Mapped (v : Volume) (a : Snap) (n k : ℕ) : Prop :=
  ¬ Holed (a.work v n) (k * DIRENTSIZE) DIRENTSIZE

theorem mapped_of_solid (h : Fs v a s) (hi : a.Has dp n) (hv : dp ∈ a.valid) (hh : n ∉ v.holey)
    (hd : IsDir v a.V (inodes v.sb a.V n)) (hk : k < direntCount (inodes v.sb a.V n).size) :
    Mapped v a n k := by
  apply h.not_holed hi hv hh
  rw [← direntCount_eq hd.whole, ← Nat.succ_mul]
  exact Nat.mul_le_mul_right _ hk

theorem readDirent_fs (h : Fs v a s) (hi : a.Has dp n) (hv : dp ∈ a.valid)
    (hd : IsDir v a.V (inodes v.sb a.V n)) (hk : k < direntCount (inodes v.sb a.V n).size)
    (hh : Mapped v a n k)
    (hB : Buffers v.sb E a.L.card) :
    Post (readDirent dp (k * DIRENTSIZE) p) s
      (fun de t => de = direntAt a.V (inodes v.sb a.V n) k ∧ Fs v a t) fun f _ => E f := by
  have hsize := direntCount_eq hd.whole
  have hmax := h.vol.size n
  have hle : k * DIRENTSIZE + DIRENTSIZE ≤ (inodes v.sb a.V n).size := by
    rw [← hsize, ← Nat.succ_mul]
    exact Nat.mul_le_mul_right _ hk
  have hlen : readLen (inodes v.sb a.V n).size (k * DIRENTSIZE) DIRENTSIZE = DIRENTSIZE := by
    have h32 : MAXFILE * BSIZE < 2 ^ 32 := by decide
    rw [readLen, if_neg, min_eq_left (by omega)]
    rw [Nat.mod_eq_of_lt (by omega)]
    omega
  have hclean : ∀ j, blockOf a.V (inodes v.sb a.V n) j ∉ a.D := fun j hj =>
    (h.vol.dirty_slot n _ hj).2 hd.type
  simp only [readDirent, post_bind]
  apply (h.readi_fs hi hv (by rw [hlen]; exact hh) hB).imp
  rintro r t ⟨ht, hr⟩
  obtain ⟨hum, hr⟩ := hr [] rfl
  rw [hum] at ht
  rw [hr hclean, hlen]
  simp only [if_true, List.nil_append, post_pure]
  exact ⟨rfl, ht⟩

/-- What `dirlookup` returns; if it finds the name it takes a reference to its inode. -/
inductive LookedUp (v : Volume) (a : Snap) (d : Dinode) (name : List UInt8) :
    Option (ℕ × ℕ) → State → Prop
  | missing {t : State} : dirFind a.V d name = none → Fs v a t → LookedUp v a d name none t
  | found {k i : ℕ} {t : State} : dirFind a.V d name = some k →
      Fits a.T i (ROOTDEV, (direntAt a.V d k).inum) →
      Fs v (a.take i (direntAt a.V d k).inum) t → LookedUp v a d name (some (i, k * DIRENTSIZE)) t

theorem dirlookupFrom_fs (h : Fs v a s) (hi : a.Has dp n) (hv : dp ∈ a.valid)
    (hd : IsDir v a.V (inodes v.sb a.V n)) (hB : Buffers v.sb E a.L.card)
    (hh : ∀ j < direntCount (inodes v.sb a.V n).size,
      (∀ i, dirFind a.V (inodes v.sb a.V n) name = some i → j ≤ i) → Mapped v a n j)
    (hE : (∀ i < NINODE, a.T i ≠ none) → E (.panic .igetNoInodes))
    (hsum : k + m = direntCount (inodes v.sb a.V n).size)
    (hfind : dirFind a.V (inodes v.sb a.V n) name = (List.range' k m).find? fun j =>
      decide ((dirSlots a.V (inodes v.sb a.V n) j).map Prod.fst = some (strncpy DIRSIZ name))) :
    Post (dirlookupFrom dp name (k * DIRENTSIZE) m) s
      (LookedUp v a (inodes v.sb a.V n) name) fun f _ => E f := by
  induction m generalizing k s with
  | zero => exact post_pure.2 (.missing hfind h)
  | succ m ih =>
    have hmap : Mapped v a n k := by
      refine hh k (by omega) fun i hf => ?_
      rw [hfind] at hf
      exact (List.mem_range'_1.1 (List.mem_of_find?_eq_some hf)).1
    simp only [dirlookupFrom, post_bind]
    apply (readDirent_fs h hi hv hd (by omega) hmap hB).imp
    rintro de t ⟨rfl, ht⟩
    rw [List.range'_succ, List.find?_cons,
      show dirSlots a.V (inodes v.sb a.V n) k = (direntAt a.V (inodes v.sb a.V n) k).live from rfl]
      at hfind
    split_ifs with hm
    · rw [decide_eq_true (dirent_matches.2 hm)] at hfind
      have hdev := (ht.entry hi).2.2.1
      simp only [post_bind, post_getInode, hdev, post_pure]
      apply (ht.iget_fs (hd.inums k (by omega)) fun hfull _ => hE hfull).imp
      rintro i u ⟨hfits, hu⟩
      exact .found hfind hfits hu
    · rw [decide_eq_false fun hc => hm (dirent_matches.1 hc)] at hfind
      rw [← Nat.succ_mul]
      exact ih ht (by omega) hfind

theorem dirlookup_fs (h : Fs v a s) (hi : a.Has dp n) (hv : dp ∈ a.valid)
    (hd : IsDir v a.V (inodes v.sb a.V n)) (hB : Buffers v.sb E a.L.card)
    (hh : ∀ j < direntCount (inodes v.sb a.V n).size,
      (∀ i, dirFind a.V (inodes v.sb a.V n) name = some i → j ≤ i) → Mapped v a n j)
    (hE : (∀ i < NINODE, a.T i ≠ none) → E (.panic .igetNoInodes)) :
    Post (dirlookup dp name) s (LookedUp v a (inodes v.sb a.V n) name) fun f _ => E f := by
  have hcopy := (h.copy dp n hi hv).1
  have hty : (s.itable.get dp).type = T_DIR := by
    rw [hcopy]
    exact hd.type
  have hsize : (s.itable.get dp).size = (inodes v.sb a.V n).size := by rw [hcopy]
  simp only [dirlookup, post_bind, post_getInode, hty, ne_eq, not_true, if_false, hsize]
  have := dirlookupFrom_fs (k := 0) h hi hv hd hB hh hE (Nat.zero_add _)
    (by rw [dirFind, SlotMap.find, List.range_eq_range'])
  rwa [Nat.zero_mul] at this

/-! Writing entries. -/

theorem Snap.has_take (i : ℕ) (a : Snap) (n : ℕ) : (a.take i n).Has i n := ⟨_, take_self⟩

theorem Snap.Has.take {i j : ℕ} (hi : a.Has i n) (hf : Fits a.T j (ROOTDEV, m)) :
    (a.take j m).Has i n := by
  by_cases hij : i = j
  · subst hij
    rcases hf with ⟨hnone, -⟩ | hj
    · exact absurd hnone hi.ne_none
    · rw [hi.eq hj]
      exact Snap.has_take i a m
  · obtain ⟨r, hr⟩ := hi
    exact ⟨r, (take_of_ne hij).trans hr⟩

/-! The map that a directory is. -/

namespace Entered

end Entered

end

end Xv6
