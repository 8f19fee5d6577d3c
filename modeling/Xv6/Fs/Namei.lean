import Xv6.Fs.Directory
import Xv6.Fs.RefCount

/-!
Path resolution. `skipelem` takes the components of a path one by one, and `namex` follows
them through directories, as a walk over the volume. It leaves the blocks alone, and of the
references it takes only the one to the inode it returns is left.
-/

namespace Xv6
open Hoare RefTable

/-- The parts of a path between slashes, cut to the length of a name. -/
def components (path : List UInt8) : List (List UInt8) :=
  ((path.splitOnP (· == SLASH)).filter (· ≠ [])).map (List.take DIRSIZ)

section
variable {path rest elem : List UInt8}

theorem components_slash (path : List UInt8) : components (SLASH :: path) = components path := by
  have h := List.splitOnP_append_cons_of_forall_mem (p := (· == SLASH))
    (show ∀ c ∈ ([] : List UInt8), (c == SLASH) = false by simp) SLASH (by simp) path
  rw [components, ← List.nil_append (SLASH :: path), h]
  rfl

theorem components_dropWhile (path : List UInt8) :
    components (path.dropWhile (· = SLASH)) = components path := by
  induction path with
  | nil => rfl
  | cons c path ih =>
    by_cases hc : c = SLASH
    · rw [hc, List.dropWhile_cons_of_pos (by simp), ih, components_slash]
    · rw [List.dropWhile_cons_of_neg (by simpa using hc)]

theorem components_elem (he : ∀ c ∈ elem, c ≠ SLASH) (h0 : elem ≠ [])
    (hr : rest = [] ∨ ∃ r, rest = SLASH :: r) :
    components (elem ++ rest) = elem.take DIRSIZ :: components rest := by
  have he' : ∀ c ∈ elem, (c == SLASH) = false := fun c hc => by simpa using he c hc
  rcases hr with rfl | ⟨r, rfl⟩
  · rw [List.append_nil, components, List.splitOnP_eq_singleton he', List.filter_cons_of_pos (by simpa using h0)]
    rfl
  · rw [components_slash, components, List.splitOnP_append_cons_of_forall_mem he' SLASH (by simp),
      List.filter_cons_of_pos (by simpa using h0)]
    rfl

theorem components_first (h : path.head? ≠ some SLASH) : path = [] ∨
    (path.takeWhile (· ≠ SLASH) ≠ [] ∧ components path =
      (path.takeWhile (· ≠ SLASH)).take DIRSIZ :: components (path.dropWhile (· ≠ SLASH))) := by
  cases path with
  | nil => exact .inl rfl
  | cons c path =>
    have hc : c ≠ SLASH := fun he => h (by rw [he]; rfl)
    have h0 : (c :: path).takeWhile (· ≠ SLASH) ≠ [] := by
      rw [List.takeWhile_cons_of_pos (by simpa using hc)]
      exact List.cons_ne_nil _ _
    refine .inr ⟨h0, ?_⟩
    conv_lhs => rw [← List.takeWhile_append_dropWhile (p := (· ≠ SLASH)) (l := c :: path)]
    refine components_elem (fun x hx => ?_) h0 ?_
    · simpa using List.all_eq_true.1 (List.all_takeWhile (p := (· ≠ SLASH)) (l := c :: path)) x hx
    · cases hd : (c :: path).dropWhile (· ≠ SLASH) with
      | nil => exact .inl rfl
      | cons x r =>
        have hx := List.head?_dropWhile_not (· ≠ SLASH) (c :: path)
        rw [hd] at hx
        obtain rfl : x = SLASH := by simpa using hx
        exact .inr ⟨r, rfl⟩

theorem head_dropWhile (path : List UInt8) :
    (path.dropWhile (· = SLASH)).head? ≠ some SLASH := by
  intro h
  have hx := List.head?_dropWhile_not (· = SLASH) path
  rw [h] at hx
  simp at hx

theorem skipelem_eq_none : skipelem path = none ↔ components path = [] := by
  rw [← components_dropWhile]
  unfold skipelem
  rcases components_first (head_dropWhile path) with h | ⟨-, h⟩
  · rw [h]
    exact ⟨fun _ => rfl, fun _ => rfl⟩
  · rw [h]
    have hne : path.dropWhile (· = SLASH) ≠ [] := by
      intro h0
      rw [h0] at h
      cases h
    simp [hne]

theorem skipelem_some (h : skipelem path = some (rest, elem)) :
    components path = elem :: components rest ∧ rest.length < path.length ∧
      (rest = [] ↔ components rest = []) := by
  unfold skipelem at h
  dsimp only at h
  split_ifs at h with h0
  simp only [Option.some.injEq, Prod.mk.injEq] at h
  obtain ⟨rfl, rfl⟩ := h
  obtain ⟨hne, hc⟩ := (components_first (head_dropWhile path)).resolve_left h0
  refine ⟨?_, ?_, ?_⟩
  · rw [components_dropWhile, ← components_dropWhile path]
    exact hc
  · have h₁ := (List.dropWhile_sublist (· = SLASH) (l := path)).length_le
    have h₂ := (List.dropWhile_sublist (· = SLASH)
      (l := (path.dropWhile (· = SLASH)).dropWhile (· ≠ SLASH))).length_le
    have h₃ := congrArg List.length (List.takeWhile_append_dropWhile (p := (· ≠ SLASH))
      (l := path.dropWhile (· = SLASH)))
    rw [List.length_append] at h₃
    have h₄ := List.length_pos_of_ne_nil hne
    omega
  · rcases components_first (head_dropWhile ((path.dropWhile (· = SLASH)).dropWhile (· ≠ SLASH)))
      with h | ⟨-, h⟩
    · rw [h]
      exact ⟨fun _ => rfl, fun _ => rfl⟩
    · constructor
      · intro h0
        rw [h0]
        rfl
      · intro h0
        rw [h] at h0
        cases h0

end

/-- The inode that directory `n` has under a name. -/
def child (v : Volume) (V : ℕ → Block) (n : ℕ) (name : List UInt8) : Option ℕ :=
  if (inodes v.sb V n).type = T_DIR then
    (dirFind V (inodes v.sb V n) name).map fun k => (direntAt V (inodes v.sb V n) k).inum
  else none

/-- The inode that a list of names leads to from `n`. -/
def walk (v : Volume) (V : ℕ → Block) (n : ℕ) : List (List UInt8) → Option ℕ
  | [] => some n
  | c :: cs => (child v V n c).bind fun m => walk v V m cs

/-- The directory that holds the last of the names. -/
def walkParent (v : Volume) (V : ℕ → Block) (n : ℕ) (cs : List (List UInt8)) : Option ℕ :=
  if cs = [] then none
  else (walk v V n cs.dropLast).filter fun m => (inodes v.sb V m).type = T_DIR

def resolve (parent : Bool) (v : Volume) (V : ℕ → Block) (n : ℕ) (cs : List (List UInt8)) :
    Option ℕ := if parent then walkParent v V n cs else walk v V n cs

/-- The directories of a volume are in order. -/
def Dirs (v : Volume) (V : ℕ → Block) : Prop :=
  ∀ n, (inodes v.sb V n).type = T_DIR → IsDir v V (inodes v.sb V n)

/-- An inode without links is in use, and its copy in the table is valid. -/
def Orphans (v : Volume) (a : Snap) : Prop :=
  ∀ n, (inodes v.sb a.V n).type ≠ 0 → (inodes v.sb a.V n).nlink = 0 → ∃ i, a.Has i n ∧ i ∈ a.valid

/-- A directory in full order: no name twice, and `.` and `..` in the first two entries. -/
structure TidyDir (v : Volume) (V : ℕ → Block) (n : ℕ) : Prop where
  dir : IsDir v V (inodes v.sb V n)
  distinct : SlotMap.Distinct (dirSlots V (inodes v.sb V n)) (direntCount (inodes v.sb V n).size)
  two : 2 ≤ direntCount (inodes v.sb V n).size
  dot : dirSlots V (inodes v.sb V n) 0 = some (strncpy DIRSIZ DOT, n)
  dotdot : ∃ m, dirSlots V (inodes v.sb V n) 1 = some (strncpy DIRSIZ DOTDOT, m)

/-- No entry of a directory names a free inode. -/
def NoDangling (v : Volume) (V : ℕ → Block) : Prop :=
  ∀ n name m, child v V n name = some m → (inodes v.sb V m).type ≠ 0

/-- The outcome of a search that started with the table of `a`: nothing but copies was added
to the table, and a reference to the inode found. -/
inductive Resolved (v : Volume) (a : Snap) (target : Option ℕ) (name : List UInt8) :
    Option (ℕ × List UInt8) → State → Prop
  | missing {W : Set ℕ} {t : State} : target = none → a.valid ⊆ W →
      Fs v { a with valid := W } t → Resolved v a target name none t
  | found {W : Set ℕ} {i n : ℕ} {t : State} : target = some n → a.valid ⊆ W →
      Fits a.T i (ROOTDEV, n) → Fs v (Snap.take { a with valid := W } i n) t →
      Resolved v a target name (some (i, name)) t

def Snap.cwd (a : Snap) : ℕ := (a.procs.get a.cur).cwd.getD 0

/-- The inode at which the search for a path starts. -/
def Snap.StartsAt (a : Snap) (path : List UInt8) (n : ℕ) : Prop :=
  if path.head? = some SLASH then n = ROOTINO else a.Has a.cwd n

section
variable {v : Volume} {a b : Snap} {s t : State} {i j n m : ℕ} {E : Fault → Prop}
  {name : List UInt8} {cs : List (List UInt8)} {parent : Bool} {V : ℕ → Block}

theorem resolve_nil : resolve parent v V n [] = if parent then none else some n := by
  cases parent <;> rfl

/-- All names but the last one are followed. -/
theorem resolve_cons (h : parent = true → cs ≠ []) : resolve parent v V n (name :: cs) =
    (child v V n name).bind fun m => resolve parent v V m cs := by
  cases parent with
  | false => rfl
  | true =>
    have hne := h rfl
    simp only [resolve, if_true, walkParent, List.cons_ne_nil, if_false, hne,
      List.dropLast_cons_of_ne_nil hne, walk]
    cases child v V n name <;> rfl

theorem resolve_last : resolve true v V n [name] =
    if (inodes v.sb V n).type = T_DIR then some n else none := by
  simp only [resolve, if_true, walkParent, List.cons_ne_nil, if_false, List.dropLast_singleton, walk,
    Option.filter]
  split_ifs <;> simp_all

/-- A reference that was taken for a while is not the last one to an unlinked inode. -/
theorem Orphans.not_frees (hO : Orphans v a) {s₀ : State} (h₀ : Fs v a s₀)
    (hf : Fits a.T i (ROOTDEV, n)) (hb : Fs v b s) (hi : b.Has i n) (hV : b.V = a.V)
    (hc : count a.T i < count b.T i) : ¬ Fs.Frees v b i n := by
  rintro ⟨hone, hv, hlink⟩
  have htype := (hb.copy i n hi hv).2
  rw [hV] at htype hlink
  obtain ⟨k, ⟨r, hk⟩, -⟩ := hO n htype hlink
  have hnone : a.T i = none := (count_eq_zero h₀.table).1 (by omega)
  rcases hf with ⟨-, hno⟩ | ⟨q, hq⟩
  · exact hno k r hk
  · rw [hnone] at hq
    cases hq

theorem Snap.release_take (hT : Ok a.T) (hl : a.locked = ∅) (U : Set ℕ)
    (hf : Fits a.T i (ROOTDEV, n)) (hg : Fits (RefTable.take a.T i (ROOTDEV, n)) j (ROOTDEV, m)) :
    ((((Snap.take { a with valid := U } i n).lock i).take j m).unlock i).drop i =
      Snap.take { a with
        valid := {x ∈ insert i U | RefTable.take a.T j (ROOTDEV, m) x ≠ none} } j m := by
  simp only [Snap.drop, Snap.unlock, Snap.take, Snap.lock, hl, insert_empty_eq, sdiff_self,
    drop_take_take hT hf hg, Set.bot_eq_empty]

theorem Snap.release (hT : Ok a.T) (hl : a.locked = ∅) (U : Set ℕ)
    (hf : Fits a.T i (ROOTDEV, n)) :
    (((Snap.take { a with valid := U } i n).lock i).unlock i).drop i =
      { a with valid := {x ∈ insert i U | a.T x ≠ none} } := by
  simp only [Snap.drop, Snap.unlock, Snap.take, Snap.lock, hl, insert_empty_eq, sdiff_self,
    RefTable.drop_take hT hf, Set.bot_eq_empty]

theorem Snap.unlock_lock (hl : a.locked = ∅) {U : Set ℕ} :
    ((Snap.take { a with valid := U } i n).lock i).unlock i =
      Snap.take { a with valid := insert i U } i n := by
  simp only [Snap.unlock, Snap.take, Snap.lock, hl, insert_empty_eq, sdiff_self, Set.bot_eq_empty]

theorem Snap.drop_take_valid (hT : Ok a.T) (U : Set ℕ) (hf : Fits a.T i (ROOTDEV, n)) :
    (Snap.take { a with valid := U } i n).drop i = { a with valid := {x ∈ U | a.T x ≠ none} } := by
  simp only [Snap.drop, Snap.take, RefTable.drop_take hT hf]

theorem resolve_notDir {rest : List UInt8} (hdir : (inodes v.sb V n).type ≠ T_DIR)
    (hrest : rest = [] ↔ components rest = []) :
    resolve parent v V n (name :: components rest) = none := by
  by_cases hp : parent = true ∧ rest = []
  · obtain ⟨rfl, rfl⟩ := hp
    rw [show components [] = [] from rfl, resolve_last, if_neg hdir]
  · rw [resolve_cons fun hpar h0 => hp ⟨hpar, hrest.2 h0⟩, child, if_neg hdir]
    rfl

theorem count_lt_take (a : Snap) (i n : ℕ) :
    count a.T i < count (RefTable.take a.T i (ROOTDEV, n)) i := by
  rw [count_take, if_pos rfl]
  exact Nat.lt_succ_self _

/-- Whether the one entry that a search takes was the last. -/
theorem full_of_take (h : ∀ x < NINODE, RefTable.take a.T i (ROOTDEV, n) x ≠ none) :
    ∀ x < NINODE, ∀ y < NINODE, a.T x = none → a.T y = none → x = y := by
  have hself : ∀ z < NINODE, a.T z = none → z = i := by
    intro z hz hzn
    by_contra hne
    exact h z hz ((take_of_ne hne).trans hzn)
  intro x hx y hy hxn hyn
  rw [hself x hx hxn, hself y hy hyn]

section
variable {s₀ u : State} {U : Set ℕ}

theorem Fs.searchFails (h₀ : Fs v a s₀) (hO : Orphans v a) (hl : a.locked = ∅) (hU : a.valid ⊆ U)
    (hf : Fits a.T i (ROOTDEV, n)) (hu : Fs v ((Snap.take { a with valid := U } i n).lock i) u)
    {target : Option ℕ} (hnone : target = none) :
    Post (do iunlockput i; return none : K (Option (ℕ × List UInt8))) u
      (Resolved v a target name) fun f _ => E f := by
  have hi : ((Snap.take { a with valid := U } i n).lock i).Has i n := Snap.has_take i _ n
  apply (hu.iunlockput_keep hi (Set.mem_insert i _)
    (hO.not_frees h₀ hf hu hi rfl (count_lt_take a i n))).seq
  intro _ x hx
  rw [Snap.release h₀.table hl U hf] at hx
  refine post_pure.2 (.missing hnone ?_ hx)
  exact fun y hy => ⟨.inr (hU hy), h₀.valid_use y hy⟩

theorem Fs.searchMoves (h₀ : Fs v a s₀) (hO : Orphans v a) (hl : a.locked = ∅) (hU : a.valid ⊆ U)
    (hf : Fits a.T i (ROOTDEV, n)) (hg : Fits (RefTable.take a.T i (ROOTDEV, n)) j (ROOTDEV, m))
    (hu : Fs v (((Snap.take { a with valid := U } i n).lock i).take j m) u) :
    Post (iunlockput i) u (fun _ x => ∃ W, a.valid ⊆ W ∧
      Fs v (Snap.take { a with valid := W } j m) x) fun f _ => E f := by
  have hi : ((Snap.take { a with valid := U } i n).lock i).Has i n := Snap.has_take i _ n
  have hcount : count a.T i <
      count (RefTable.take (RefTable.take a.T i (ROOTDEV, n)) j (ROOTDEV, m)) i := by
    have := count_lt_take a i n
    rw [count_take]
    omega
  have hiu := Snap.Has.take hi hg
  apply (hu.iunlockput_keep hiu (Set.mem_insert i _) (hO.not_frees h₀ hf hu hiu rfl hcount)).imp
  intro _ x hx
  rw [Snap.release_take h₀.table hl U hf hg] at hx
  refine ⟨_, fun y hy => ?_, hx⟩
  refine ⟨.inr (hU hy), fun hnone => h₀.valid_use y hy ?_⟩
  by_cases hyj : y = j
  · rw [hyj, take_self] at hnone
    cases hnone
  · rwa [take_of_ne hyj] at hnone

end

/-- The loop of `namex` follows the components of the path. -/
theorem namexLoop_fs {s₀ : State} (h₀ : Fs v a s₀) (hs : v.holey = ∅) (hD : Dirs v a.V)
    (hO : Orphans v a) (hl : a.locked = ∅) (hB : Buffers v.sb E a.L.card)
    (hE : (∀ x < NINODE, ∀ y < NINODE, a.T x = none → a.T y = none → x = y) →
      E (.panic .igetNoInodes)) (hL : ¬ NoDangling v a.V → E (.panic .ilockNoType)) {fuel : ℕ}
    {path : List UInt8} {U : Set ℕ} (hfuel : path.length < fuel) (hU : a.valid ⊆ U)
    (hf : Fits a.T i (ROOTDEV, n)) (h : Fs v (Snap.take { a with valid := U } i n) s)
    (hn : (inodes v.sb a.V n).type = 0 → E (.panic .ilockNoType)) :
    Post (namexLoop parent fuel i path name) s
      (Resolved v a (resolve parent v a.V n (components path)) ((components path).getLastD name))
      fun f _ => E f := by
  induction fuel generalizing s i n U path name with
  | zero => exact absurd hfuel (Nat.not_lt_zero _)
  | succ fuel ih =>
    have hi : (Snap.take { a with valid := U } i n).Has i n := Snap.has_take i _ n
    unfold namexLoop
    cases hk : skipelem path with
    | none =>
      rw [skipelem_eq_none.1 hk, resolve_nil]
      cases parent with
      | false => exact post_pure.2 (.found rfl hU hf h)
      | true =>
        apply (h.iput_keep hi (by simp [Snap.take, hl])
          (hO.not_frees h₀ hf h hi rfl (count_lt_take a i n))).seq
        intro _ t ht
        rw [Snap.drop_take_valid h₀.table U hf] at ht
        refine post_pure.2 (.missing rfl ?_ ht)
        exact fun x hx => ⟨hU hx, h₀.valid_use x hx⟩
    | some p =>
      obtain ⟨rest, elem⟩ := p
      obtain ⟨hcs, hlen, hrest⟩ := skipelem_some hk
      have hlast : (components path).getLastD name = (components rest).getLastD elem := by
        rw [hcs, List.getLastD_cons]
      dsimp only
      apply (h.ilock_fs hi (by simp [Snap.take, hl]) hB fun _ => hn).seq
      rintro _ t ⟨htype, ht⟩
      have hi' : ((Snap.take { a with valid := U } i n).lock i).Has i n := hi
      have hv : i ∈ ((Snap.take { a with valid := U } i n).lock i).valid := Set.mem_insert i _
      have hcopy : (t.itable.get i).type = (inodes v.sb a.V n).type :=
        congrArg Dinode.type (ht.copy i n hi' hv).1
      simp only [post_bind, post_getInode, hcopy]
      by_cases hdir : (inodes v.sb a.V n).type = T_DIR
      swap
      · rw [if_pos hdir]
        exact h₀.searchFails hO hl hU hf ht (hcs ▸ resolve_notDir hdir hrest)
      rw [if_neg (not_not.2 hdir)]
      by_cases hp : parent = true ∧ rest = []
      · obtain ⟨rfl, rfl⟩ := hp
        rw [if_pos ⟨rfl, rfl⟩]
        apply (ht.iunlock_fs hi' (Set.mem_insert i _)).seq
        intro _ u hu
        rw [Snap.unlock_lock hl] at hu
        rw [hcs, show components [] = [] from rfl, resolve_last, if_pos hdir]
        exact post_pure.2 (.found rfl (hU.trans (Set.subset_insert i U)) hf hu)
      · rw [if_neg hp, hlast, hcs, resolve_cons fun hpar h0 => hp ⟨hpar, hrest.2 h0⟩]
        apply (dirlookup_fs ht hi' hv (hD n hdir) hB (fun k hk _ =>
          mapped_of_solid ht hi' hv (by simp [hs]) (hD n hdir) hk)
          fun hfull => hE (full_of_take hfull)).seq
        intro r u hr
        obtain ⟨hnone, hu⟩ | @⟨k, j, u, hfound, hg, hu⟩ := hr
        · have hc : child v a.V n elem = none := by
            rw [child, if_pos hdir]
            exact congrArg (Option.map _) hnone
          exact h₀.searchFails hO hl hU hf hu (by rw [hc]; rfl)
        · have hc : child v a.V n elem = some (direntAt a.V (inodes v.sb a.V n) k).inum := by
            rw [child, if_pos hdir]
            exact congrArg (Option.map _) hfound
          rw [hc]
          apply (h₀.searchMoves hO hl hU hf hg hu).seq
          rintro _ x ⟨W, hW, hx⟩
          exact ih (by omega) hW (hf.of_take hg) hx fun h0 => hL fun hlinked => hlinked n elem _ hc h0

theorem namex_fs {path : List UInt8} (parent : Bool) (h : Fs v a s) (hs : v.holey = ∅) (hD : Dirs v a.V)
    (hO : Orphans v a) (hl : a.locked = ∅) (hB : Buffers v.sb E a.L.card)
    (hE : (∀ x < NINODE, ∀ y < NINODE, a.T x = none → a.T y = none → x = y) →
      E (.panic .igetNoInodes)) (hL : ¬ NoDangling v a.V → E (.panic .ilockNoType))
    (hstart : a.StartsAt path n) (hn : (inodes v.sb a.V n).type = 0 → E (.panic .ilockNoType)) :
    Post (namex path parent) s
      (Resolved v a (resolve parent v a.V n (components path)) ((components path).getLastD []))
      fun f _ => E f := by
  have hloop : ∀ i t, Fits a.T i (ROOTDEV, n) → Fs v (a.take i n) t →
      Post (namexLoop parent (path.length + 1) i path []) t
        (Resolved v a (resolve parent v a.V n (components path)) ((components path).getLastD []))
        fun f _ => E f := fun i t hf ht =>
    namexLoop_fs h hs hD hO hl hB hE hL (Nat.lt_succ_self _) subset_rfl hf ht hn
  unfold namex
  unfold Snap.StartsAt at hstart
  split_ifs at hstart ⊢ with hp
  · subst hstart
    apply (h.iget_fs h.vol.wf.root fun hfull _ => hE fun x hx _ _ hxn => absurd hxn (hfull x hx)).seq
    rintro i t ⟨hf, ht⟩
    exact hloop i t hf ht
  · simp only [post_bind, post_myproc, h.procs, h.cur]
    apply (h.idup_fs hstart).imp
    rintro i t ⟨rfl, ht⟩
    exact hloop _ t (.inr hstart) ht

end

end Xv6
