import Xv6.Fs.MkfsTidy

/-!
The law of path resolution: `namei` is the fold of directory lookups over the components of
the path, `nameiparent` stops before the last one, and only the reference that is returned is
left.
-/

namespace Xv6
open Hoare RefTable

/-- The elements `skipelem` takes off a path, one after the other. -/
def elems : ℕ → List UInt8 → List (List UInt8)
  | 0, _ => []
  | fuel + 1, path =>
      match skipelem path with
      | none => []
      | some (rest, elem) => elem :: elems fuel rest

theorem elems_eq_components {fuel : ℕ} {path : List UInt8} (h : path.length < fuel) :
    elems fuel path = components path := by
  induction fuel generalizing path with
  | zero => exact absurd h (Nat.not_lt_zero _)
  | succ fuel ih =>
    unfold elems
    cases hk : skipelem path with
    | none => exact (skipelem_eq_none.1 hk).symm
    | some p =>
      obtain ⟨hcs, hlen, -⟩ := skipelem_some (show skipelem path = some (p.1, p.2) from hk)
      rw [hcs, ← ih (by omega)]

section
variable {v : Volume} {V : ℕ → Block} {a : Snap} {s t : State} {n : ℕ} {cs : List (List UInt8)}
  {name : List UInt8}

/-- The last step of a walk is a lookup in the directory before it. -/
theorem walk_concat : walk v V n (cs ++ [name]) = (walk v V n cs).bind fun m => child v V m name := by
  induction cs generalizing n with
  | nil => simp [walk]
  | cons c cs ih =>
    show (child v V n c).bind _ = ((child v V n c).bind _).bind _
    rw [Option.bind_assoc]
    congr 1
    funext m
    exact ih

theorem child_of_not_dir (h : (inodes v.sb V n).type ≠ T_DIR) : child v V n name = none := if_neg h

theorem walk_eq_walkParent (h : cs ≠ []) :
    walk v V n cs = (walkParent v V n cs).bind fun m => child v V m (cs.getLast h) := by
  conv_lhs => rw [← List.dropLast_append_getLast h, walk_concat]
  rw [walkParent, if_neg h]
  cases walk v V n cs.dropLast with
  | none => rfl
  | some m =>
    by_cases hd : (inodes v.sb V m).type = T_DIR
    · simp [Option.filter, hd]
    · simp [Option.filter, hd, child_of_not_dir hd]

/-- When a search for a path only reads: there are no holes, no entries of free inodes and no
locked inodes, and there is room in the log and for two more entries of the inode table. -/
structure Searchable (v : Volume) (a : Snap) (n : ℕ) : Prop where
  solid : v.holey = ∅
  dirs : Dirs v a.V
  orphans : Orphans v a
  linked : NoDangling v a.V
  start : (inodes v.sb a.V n).type ≠ 0
  unlocked : a.locked = ∅
  log : a.L.card < v.sb.logCap
  table : ∃ x < NINODE, ∃ y < NINODE, x ≠ y ∧ a.T x = none ∧ a.T y = none

/-- The reference counts after a search, and the inode found. -/
def Left (a : Snap) (target : Option ℕ) (r : Option ℕ) (t : State) : Prop :=
  match r with
  | none => target = none ∧ t.tab = a.T
  | some i => ∃ m, target = some m ∧ Fits a.T i (ROOTDEV, m) ∧ t.tab = take a.T i (ROOTDEV, m)

/-- What is on disk and in the log stays, as do the files and processes. -/
def SameFiles (v : Volume) (a : Snap) (t : State) : Prop :=
  ∃ b, Fs v b t ∧ b.V = a.V ∧ b.D = a.D ∧ b.L = a.L ∧ b.o = a.o ∧ b.locked = ∅ ∧
    b.ftable = a.ftable ∧ b.procs = a.procs

theorem namex_returns {path : List UInt8} (h : Fs v a s) (hs : Searchable v a n)
    (hstart : a.StartsAt path n) (parent : Bool) : ∃ r t, namex path parent s = .ok r t ∧
      Left a (resolve parent v a.V n (components path)) (r.map Prod.fst) t ∧
      (∀ q ∈ r, q.2 = (components path).getLastD []) ∧ SameFiles v a t := by
  obtain ⟨x, hx, y, hy, hne, hxn, hyn⟩ := hs.table
  obtain ⟨r, t, hr, hpost⟩ := (namex_fs (E := fun _ => False) parent h hs.solid hs.dirs
    hs.orphans hs.unlocked (fun hc => absurd hc (not_le.2 hs.log))
    (fun hc => hne (hc x hx y hy hxn hyn)) (fun hc => hc hs.linked) hstart hs.start).returns
  refine ⟨r, t, hr, ?_⟩
  obtain ⟨hnone, -, ht⟩ | ⟨hsome, -, hf, ht⟩ := hpost
  · exact ⟨⟨hnone, ht.tab⟩, by simp, _, ht, rfl, rfl, rfl, rfl, hs.unlocked, rfl, rfl⟩
  · exact ⟨⟨_, hsome, hf, ht.tab⟩, by simp, _, ht, rfl, rfl, rfl, rfl, hs.unlocked, rfl, rfl⟩

/-- The law of path resolution. `skipelem` yields the components of a path; `namei` is the fold
of directory lookups over them, and `nameiparent` over all but the last one, whose name it
returns; so `namei` is a lookup in what `nameiparent` returns. Either leaves one reference more,
to the inode returned, or none. -/
theorem namei_law {path : List UInt8} (h : Fs v a s) (hs : Searchable v a n)
    (hstart : a.StartsAt path n) :
    elems (path.length + 1) path = components path ∧
    (∃ r t, namei path s = .ok r t ∧ Left a (walk v a.V n (components path)) r t ∧
      SameFiles v a t) ∧
    (∃ r t, nameiparent path s = .ok r t ∧
      Left a (walkParent v a.V n (components path)) (r.map Prod.fst) t ∧
      (∀ q ∈ r, q.2 = (components path).getLastD []) ∧ SameFiles v a t) ∧
    ∀ hne : components path ≠ [], walk v a.V n (components path) =
      (walkParent v a.V n (components path)).bind fun m =>
        child v a.V m ((components path).getLast hne) := by
  refine ⟨elems_eq_components (Nat.lt_succ_self _), ?_, namex_returns h hs hstart true,
    walk_eq_walkParent⟩
  obtain ⟨r, t, hr, hleft, -, hsame⟩ := namex_returns h hs hstart false
  refine ⟨r.map Prod.fst, t, ?_, hleft, hsame⟩
  show EStateM.bind (namex path false) _ s = _
  rw [EStateM.bind, hr]
  rfl

end

/-- The path `/a/` right after the boot on the image of one file `a`. -/
theorem namei_law_root : ∃ v a s, Fs v a s ∧ Searchable v a ROOTINO ∧
    elems 4 [SLASH, 97, SLASH] = [[97]] ∧ ∃ r t, namei [SLASH, 97, SLASH] s = .ok r t ∧
      Left a (walk v a.V ROOTINO [[97]]) r t := by
  obtain ⟨m, hm, -⟩ := Mkfs.main_replicate (n := 1) (by decide) (by decide +kernel)
    (by decide +kernel)
  obtain ⟨din, hmade⟩ := (Mkfs.main_spec (E := fun _ _ => True) (by decide)
    fun _ _ _ => trivial).of_ok (show Mkfs.main [⟨[97], []⟩] Mkfs.start = .ok () m from hm)
  obtain ⟨V, s, -, -, hfs, hroot, hdirs, hlinks, hlinked⟩ := hmade.booted (by decide) (by decide)
  have hs : Searchable (Mkfs.volume 1) (.boot (Mkfs.volume 1) V) ROOTINO :=
    { solid := Mkfs.volume_holey (show (([⟨[97], []⟩] : List Mkfs.Input).length + 2) % 64 ≠ 0 by decide)
      dirs := fun n hn => (hdirs n hn).dir
      orphans := fun n ht h0 => absurd h0 (hlinks n ht)
      linked := hlinked
      start := fun h0 => absurd (hroot.symm.trans h0) (by decide)
      unlocked := rfl
      log := Mkfs.bitmaps_lt_logCap
      table := ⟨1, by decide, 2, by decide, by decide, Snap.boot_free _ V (by decide),
        Snap.boot_free _ V (by decide)⟩ }
  obtain ⟨he, ⟨r, t, hr, hleft, -⟩, -⟩ := namei_law hfs hs
    (show (Snap.boot _ V).StartsAt [SLASH, 97, SLASH] ROOTINO from rfl)
  have hc : components [SLASH, 97, SLASH] = [[97]] := by decide
  rw [hc] at he hleft
  exact ⟨_, _, s, hfs, hs, he, r, t, hr, hleft⟩

end Xv6
