import Xv6.Fs.Readi

/-!
The file system as a whole. `Fs v a s` says that state `s` stands for the snapshot `a`: the
blocks as the log shows them, the inode table with its locks and valid copies, and the rest of
the kernel. Every function of the inode layer is then a step from snapshot to snapshot.
-/

namespace Xv6
open Hoare RefTable

/-- What a state of the kernel stands for: contents of blocks, those that are dirty and those
that may be in the log, operations going on, the inode table, and what the file system works
for. -/
structure Snap where
  V : ℕ → Block
  D : Set ℕ
  L : Finset ℕ
  o : ℤ
  T : Table ℕ (ℕ × ℕ)
  locked : Set ℕ
  valid : Set ℕ
  ftable : TMap File
  procs : TMap FsProc
  cur : ℕ
  umem : UserMem

namespace Snap

/-- Entry `i` of the inode table is of inode `n`. -/
def Has (a : Snap) (i n : ℕ) : Prop := ∃ r, a.T i = some (r, ROOTDEV, n)

/-- One more reference to inode `n`, through entry `i`. -/
def take (a : Snap) (i n : ℕ) : Snap := { a with T := RefTable.take a.T i (ROOTDEV, n) }

/-- One reference less through entry `i`, which is not the last one to an unlinked inode. -/
def drop (a : Snap) (i : ℕ) : Snap :=
  { a with
    T := RefTable.drop a.T i
    valid := {j ∈ a.valid | RefTable.drop a.T i j ≠ none} }

def lock (a : Snap) (i : ℕ) : Snap :=
  { a with locked := insert i a.locked, valid := insert i a.valid }

def unlock (a : Snap) (i : ℕ) : Snap := { a with locked := a.locked \ {i} }

def work (a : Snap) (v : Volume) (n : ℕ) : Work := ⟨a.V, a.D, a.L, inodes v.sb a.V n⟩

end Snap

structure Fs (v : Volume) (a : Snap) (s : State) : Prop where
  view : View v.sb a.D ∅ a.L a.V s
  vol : Consistent v a.D a.V (inodes v.sb a.V)
  bitmaps : v.sb.bitmaps ⊆ a.L
  ops : s.store.log.outstanding = a.o
  tab : s.tab = a.T
  table : RefTable.Ok a.T
  names : ∀ i r m, a.T i = some (r, m) → m.1 = ROOTDEV ∧ m.2 < v.sb.inodeCount
  locked : ∀ i < NINODE, (s.itable.get i).locked = true ↔ i ∈ a.locked
  locked_use : ∀ i ∈ a.locked, a.T i ≠ none
  valid : ∀ i, a.T i ≠ none → ((s.itable.get i).valid = true ↔ i ∈ a.valid)
  valid_use : ∀ i ∈ a.valid, a.T i ≠ none
  copy : ∀ i n, a.Has i n → i ∈ a.valid →
    (s.itable.get i).toDinode = inodes v.sb a.V n ∧ (inodes v.sb a.V n).type ≠ 0
  ftable : s.ftable = a.ftable
  procs : s.procs = a.procs
  cur : s.cur = a.cur
  umem : s.umem = a.umem

section
variable {v : Volume} {a : Snap} {s t : State} {ip i j n m : ℕ} {w w' : Work} {E : Fault → Prop}

theorem Snap.Has.eq (hi : a.Has i n) (hj : a.Has i m) : n = m := by
  obtain ⟨r, hr⟩ := hi
  obtain ⟨q, hq⟩ := hj
  rw [hr] at hq
  simpa using congrArg (fun o => o.map fun e => e.2.2) hq

theorem Snap.Has.ne_none (h : a.Has i n) : a.T i ≠ none := by
  obtain ⟨r, hr⟩ := h
  rw [hr]
  exact Option.some_ne_none _

namespace Fs

theorem lt (h : Fs v a s) (hi : a.Has i n) : n < v.sb.inodeCount := by
  obtain ⟨r, hr⟩ := hi
  exact (h.names i r _ hr).2

theorem entry (h : Fs v a s) (hi : a.Has i n) : i < NINODE ∧ (s.itable.get i).ref ≠ 0 ∧
    (s.itable.get i).dev = ROOTDEV ∧ (s.itable.get i).inum = n := by
  obtain ⟨r, hr⟩ := hi
  rw [← h.tab] at hr
  obtain ⟨h₁, h₂, h₃, h₄, h₅⟩ := tab_eq_some.1 hr
  exact ⟨h₁, by rwa [h₃], h₄, h₅⟩

/-- Work on an inode whose copy in memory is valid. -/
theorem editing (h : Fs v a s) (hi : a.Has ip n) (hv : ip ∈ a.valid) :
    Editing v ip n (a.work v n) s := by
  obtain ⟨hcopy, htype⟩ := h.copy ip n hi hv
  obtain ⟨-, -, hdev, hinum⟩ := h.entry hi
  refine ⟨h.view, ?_, hdev, hinum, hcopy, h.lt hi, htype, h.bitmaps⟩
  show Consistent v a.D a.V (Function.update (inodes v.sb a.V) n (inodes v.sb a.V n))
  rw [Function.update_eq_self]
  exact h.vol

end Fs

theorem Edited.tab (h : Edited ip s t) : t.tab = s.tab := by
  funext j
  unfold State.tab
  by_cases hj : j = ip
  · rw [hj, h.entry]
  · rw [h.others j hj]

namespace Fs

theorem edited (h : Fs v a s) (hS : Editing v ip n (a.work v n) t) (hE : Edited ip s t) :
    Fs v a t := by
  have hentry : ∀ j, (t.itable.get j).locked = (s.itable.get j).locked ∧
      (t.itable.get j).valid = (s.itable.get j).valid := by
    intro j
    by_cases hne : j = ip
    · rw [hne, hE.entry]
      exact ⟨rfl, rfl⟩
    · rw [hE.others j hne]
      exact ⟨rfl, rfl⟩
  refine ⟨hS.view, h.vol, hS.bitmaps, hE.outstanding.trans h.ops, hE.tab.trans h.tab, h.table,
    h.names, fun j hj => ?_, h.locked_use, fun j hj => ?_, h.valid_use, fun j k hj hjv => ?_,
    hE.ftable.trans h.ftable, hE.procs.trans h.procs, hE.cur.trans h.cur, hE.umem.trans h.umem⟩
  · rw [(hentry j).1]
    exact h.locked j hj
  · rw [(hentry j).2]
    exact h.valid j hj
  · by_cases hne : j = ip
    · subst hne
      have hT := hE.tab.trans h.tab
      obtain ⟨r, hr⟩ := hj
      rw [← hT] at hr
      obtain rfl : n = k := hS.inum.symm.trans (tab_eq_some.1 hr).2.2.2.2
      exact ⟨hS.copy, hS.type⟩
    · rw [hE.others j hne]
      exact h.copy j k hj hjv

theorem setEntry (h : Fs v a s) (hip : ip < NINODE) {x : Inode} {T' : Table ℕ (ℕ × ℕ)}
    {K W : Set ℕ}
    (hT : T' = Function.update a.T ip (if x.ref ≠ 0 then some (x.ref, x.dev, x.inum) else none))
    (hok : RefTable.Ok T') (hn : x.ref ≠ 0 → x.dev = ROOTDEV ∧ x.inum < v.sb.inodeCount)
    (hK : ∀ j, j ≠ ip → (j ∈ K ↔ j ∈ a.locked)) (hxK : x.locked = true ↔ ip ∈ K)
    (hKu : ip ∈ K → x.ref ≠ 0) (hW : ∀ j, j ≠ ip → (j ∈ W ↔ j ∈ a.valid))
    (hxW : x.ref ≠ 0 → (x.valid = true ↔ ip ∈ W)) (hWu : ip ∈ W → x.ref ≠ 0)
    (hc : ip ∈ W → x.toDinode = inodes v.sb a.V x.inum ∧ (inodes v.sb a.V x.inum).type ≠ 0) :
    Fs v { a with T := T', locked := K, valid := W } { s with itable := s.itable.set ip x } := by
  have hself : T' ip = if x.ref ≠ 0 then some (x.ref, x.dev, x.inum) else none := by
    rw [hT, Function.update_self]
  have hne : ∀ j, j ≠ ip → T' j = a.T j := fun j hj => by rw [hT, Function.update_of_ne hj]
  have huse : x.ref ≠ 0 → T' ip ≠ none := fun h0 => by
    rw [hself, if_pos h0]
    exact Option.some_ne_none _
  have hget : ∀ j, j ≠ ip → (s.itable.set ip x).get j = s.itable.get j := fun j hj =>
    TMap.get_set_ne _ _ hj
  refine ⟨h.view.congr rfl rfl, h.vol, h.bitmaps, h.ops, ?_, hok, ?_, ?_, ?_, ?_, ?_, ?_, h.ftable,
    h.procs, h.cur, h.umem⟩
  · rw [tab_set s ip x hip, h.tab, hT]
  · intro j r m hj
    by_cases hji : j = ip
    · subst hji
      simp only [hself] at hj
      split_ifs at hj with h0
      cases hj
      exact hn h0
    · simp only [hne j hji] at hj
      exact h.names j r m hj
  · intro j hj
    by_cases hji : j = ip
    · subst hji
      simpa only [TMap.get_set_self] using hxK
    · simp only [hget j hji]
      exact (h.locked j hj).trans (hK j hji).symm
  · intro j hj
    by_cases hji : j = ip
    · subst hji
      exact huse (hKu hj)
    · simp only [hne j hji]
      exact h.locked_use j ((hK j hji).1 hj)
  · intro j hj
    by_cases hji : j = ip
    · subst hji
      simp only [hself] at hj
      have h0 : x.ref ≠ 0 := by
        intro h0
        rw [if_neg (not_not.2 h0)] at hj
        exact hj rfl
      simpa only [TMap.get_set_self] using hxW h0
    · simp only [hne j hji] at hj
      simp only [hget j hji]
      exact (h.valid j hj).trans (hW j hji).symm
  · intro j hj
    by_cases hji : j = ip
    · subst hji
      exact huse (hWu hj)
    · simp only [hne j hji]
      exact h.valid_use j ((hW j hji).1 hj)
  · rintro j k ⟨r, hr⟩ hj
    by_cases hji : j = ip
    · subst hji
      simp only [hself] at hr
      rw [if_pos (hWu hj)] at hr
      simp only [Option.some.injEq, Prod.mk.injEq] at hr
      simp only [TMap.get_set_self]
      rw [← hr.2.2]
      exact hc hj
    · simp only [hne j hji] at hr
      simp only [hget j hji]
      exact h.copy j k ⟨r, hr⟩ ((hW j hji).1 hj)

theorem setFlags (h : Fs v a s) (hi : a.Has ip n) {x : Inode} {K W : Set ℕ}
    (hx : x.ref = (s.itable.get ip).ref ∧ x.dev = (s.itable.get ip).dev ∧
      x.inum = (s.itable.get ip).inum)
    (hK : ∀ j, j ≠ ip → (j ∈ K ↔ j ∈ a.locked)) (hxK : x.locked = true ↔ ip ∈ K)
    (hW : ∀ j, j ≠ ip → (j ∈ W ↔ j ∈ a.valid)) (hxW : x.valid = true ↔ ip ∈ W)
    (hc : ip ∈ W → x.toDinode = inodes v.sb a.V n ∧ (inodes v.sb a.V n).type ≠ 0) :
    Fs v { a with locked := K, valid := W } { s with itable := s.itable.set ip x } := by
  obtain ⟨hlt, href, hdev, hinum⟩ := h.entry hi
  obtain ⟨h₁, h₂, h₃⟩ := hx
  have hT : a.T = Function.update a.T ip
      (if x.ref ≠ 0 then some (x.ref, x.dev, x.inum) else none) := by
    rw [h₁, h₂, h₃, if_pos href]
    have : a.T ip = some ((s.itable.get ip).ref, (s.itable.get ip).dev, (s.itable.get ip).inum) := by
      rw [← h.tab]
      exact tab_eq_some.2 ⟨hlt, href, rfl, rfl, rfl⟩
    rw [← this, Function.update_eq_self]
  refine h.setEntry hlt hT h.table (fun _ => ?_) hK hxK (fun _ => by rwa [h₁]) hW (fun _ => hxW)
    (fun _ => by rwa [h₁]) fun hw => ?_
  · rw [h₂, h₃, hdev, hinum]
    exact ⟨rfl, h.lt hi⟩
  · rw [h₃, hinum]
    exact hc hw

/-- Blocks were written, and no inode with a valid copy in them. -/
theorem reblock (h : Fs v a s) {st : Store} {V : ℕ → Block} {D : Set ℕ} {L : Finset ℕ} {o : ℤ}
    (hview : View v.sb D ∅ L V { s with store := st }) (hvol : Consistent v D V (inodes v.sb V))
    (hL : v.sb.bitmaps ⊆ L) (ho : st.log.outstanding = o)
    (hkept : ∀ i m, a.Has i m → i ∈ a.valid → inodes v.sb V m = inodes v.sb a.V m) :
    Fs v { a with V := V, D := D, L := L, o := o } { s with store := st } := by
  refine ⟨hview, hvol, hL, ho, h.tab, h.table, h.names, h.locked, h.locked_use, h.valid,
    h.valid_use, fun i m hi hv => ?_, h.ftable, h.procs, h.cur, h.umem⟩
  show _ = inodes v.sb V m ∧ (inodes v.sb V m).type ≠ 0
  rw [hkept i m hi hv]
  exact h.copy i m hi hv

theorem withStore (h : Fs v a s) {st : Store} (hview : View v.sb a.D ∅ a.L a.V { s with store := st })
    (ho : st.log.outstanding = s.store.log.outstanding) : Fs v a { s with store := st } :=
  h.reblock hview h.vol h.bitmaps (ho.trans h.ops) fun _ _ _ _ => rfl

theorem ilock_fs (h : Fs v a s) (hi : a.Has ip n) (hl : ip ∉ a.locked)
    (hB : Buffers v.sb E a.L.card)
    (hE : ip ∉ a.valid → (inodes v.sb a.V n).type = 0 → E (.panic .ilockNoType)) :
    Post (ilock ip) s (fun _ t => (inodes v.sb a.V n).type ≠ 0 ∧ Fs v (a.lock ip) t)
      fun f _ => E f := by
  obtain ⟨hlt, href, -, -⟩ := h.entry hi
  have hfree : (s.itable.get ip).locked = false := by
    rw [← Bool.not_eq_true, h.locked ip hlt]
    exact hl
  have hne : ∀ A : Set ℕ, ∀ j, j ≠ ip → (j ∈ insert ip A ↔ j ∈ A) := fun A j hj =>
    ⟨fun hm => hm.resolve_left hj, .inr⟩
  simp only [ilock, post_bind, post_getInode]
  rw [if_neg (by omega)]
  simp only [post_bind, post_getInode, hfree, Bool.false_eq_true, if_false]
  rw [post_modifyInode]
  have h₁ := h.setFlags hi (x := { s.itable.get ip with locked := true }) ⟨rfl, rfl, rfl⟩
    (hne a.locked) ⟨fun _ => .inl rfl, fun _ => rfl⟩ (fun _ _ => Iff.rfl) (h.valid ip hi.ne_none)
    (h.copy ip n hi)
  generalize ({ s with itable := s.itable.set ip { s.itable.get ip with locked := true } } : State) =
    s₁ at h₁ ⊢
  have hi₁ : ({ a with locked := insert ip a.locked } : Snap).Has ip n := hi
  obtain ⟨hlt₁, -, hdev, hinum⟩ := h₁.entry hi₁
  have hlock₁ : (s₁.itable.get ip).locked = true := (h₁.locked ip hlt₁).2 (.inl rfl)
  by_cases hv : ip ∈ a.valid
  · have hval : (s₁.itable.get ip).valid = true := (h₁.valid ip hi.ne_none).2 hv
    simp only [hval, Bool.not_true, Bool.false_eq_true, if_false, post_pure]
    refine ⟨(h.copy ip n hi hv).2, ?_⟩
    rw [Snap.lock, Set.insert_eq_of_mem hv]
    exact h₁
  · have hval : (s₁.itable.get ip).valid = false := by
      rw [← Bool.not_eq_true, h₁.valid ip hi.ne_none]
      exact hv
    simp only [hval, Bool.not_false, if_true, post_bind, post_get, hdev, hinum, h₁.view.sb_eq]
    obtain ⟨hlow, hhigh⟩ := Superblock.IBLOCK_range (h.lt hi)
    have hnD : v.sb.IBLOCK n ∉ a.D := fun hm => by
      have := (h.vol.dirty _ hm).1
      have := h.vol.wf.bmapstart_le
      omega
    apply (bread_view hB h₁.view (by simp) (Finset.notMem_empty _)).imp
    rintro bp t ⟨ht, hbp, hf, -⟩
    have hd : getDinode (a.V (v.sb.IBLOCK n)) (n % IPB) = inodes v.sb a.V n := by
      rw [inodes, if_pos (h.lt hi)]
      rfl
    simp only [post_liftGetBuf, ht.data hbp hnD, hd]
    rw [post_modifyInode]
    have ht' : View v.sb a.D (insert (v.sb.IBLOCK n) ∅) a.L a.V { t with
        itable := t.itable.set ip { t.itable.get ip with toDinode := inodes v.sb a.V n } } :=
      ht.congr rfl rfl
    apply (brelse_view ht' (Finset.notMem_empty _) hbp).imp
    rintro _ u ⟨hu, hf', -⟩
    rw [post_modifyInode]
    simp only [post_ite, post_panic, post_pure]
    refine ⟨hE hv, fun h0 => ⟨h0, ?_⟩⟩
    have hs : Fs v { a with locked := insert ip a.locked } { s₁ with store := u.store } := by
      apply h₁.withStore (hu.congr rfl _)
      · exact hf'.outstanding.trans hf.outstanding
      · rw [hf'.store]
        exact (congrArg State.sb hf.store).symm
    have hfin := hs.setFlags hi₁ (x := { s₁.itable.get ip with
      toDinode := inodes v.sb a.V n, valid := true }) ⟨rfl, rfl, rfl⟩ (fun _ _ => Iff.rfl)
      ⟨fun _ => .inl rfl, fun _ => hlock₁⟩ (hne a.valid) ⟨fun _ => .inl rfl, fun _ => rfl⟩
      fun _ => ⟨rfl, h0⟩
    refine (congrArg (Fs v (a.lock ip)) ?_).mpr hfin
    rw [hf'.store, hf.store]
    simp only [TMap.get_set_self, TMap.set_set]

theorem iunlock_fs (h : Fs v a s) (hi : a.Has ip n) (hl : ip ∈ a.locked) :
    Post (iunlock ip) s (fun _ t => Fs v (a.unlock ip) t) fun f _ => E f := by
  obtain ⟨hlt, href, -, -⟩ := h.entry hi
  have hlock : (s.itable.get ip).locked = true := (h.locked ip hlt).2 hl
  simp only [iunlock, post_bind, post_getInode, hlock, Bool.not_true, Bool.false_or,
    decide_eq_true_eq]
  rw [if_neg (by omega), post_modifyInode]
  exact h.setFlags hi ⟨rfl, rfl, rfl⟩ (fun j hj => ⟨fun hm => hm.1, fun hm => ⟨hm, hj⟩⟩)
    ⟨fun hf => absurd hf Bool.false_ne_true, fun hm => absurd rfl hm.2⟩ (fun _ _ => Iff.rfl)
    (h.valid ip hi.ne_none) (h.copy ip n hi)

theorem count_eq (h : Fs v a s) (hi : a.Has ip n) : count a.T ip = (s.itable.get ip).ref := by
  obtain ⟨r, hr⟩ := hi
  have hr' := hr
  rw [← h.tab] at hr'
  rw [count, hr, (tab_eq_some.1 hr').2.2.1]
  rfl

theorem takeRef (h : Fs v a s) (hlt : i < NINODE) (hn : n < v.sb.inodeCount)
    (hf : Fits a.T i (ROOTDEV, n)) {x : Inode} (href : x.ref = count a.T i + 1)
    (hname : x.dev = ROOTDEV ∧ x.inum = n) (hl : x.locked = (s.itable.get i).locked)
    (hv : x.valid = true ↔ i ∈ a.valid)
    (hc : i ∈ a.valid → x.toDinode = (s.itable.get i).toDinode) :
    Fs v (a.take i n) { s with itable := s.itable.set i x } := by
  obtain ⟨hdev, hinum⟩ := hname
  have h0 : x.ref ≠ 0 := by omega
  refine h.setEntry hlt ?_ (h.table.afterTake hf) (fun _ => ⟨hdev, hinum ▸ hn⟩) (fun _ _ => Iff.rfl)
    ?_ (fun _ => h0) (fun _ _ => Iff.rfl) (fun _ => hv) (fun _ => h0) fun hm => ?_
  · rw [RefTable.take, if_pos h0, href, hdev, hinum]
  · rw [hl]
    exact h.locked i hlt
  · rw [hc hm, hinum]
    rcases hf with ⟨hnone, -⟩ | ⟨r, hr⟩
    · exact absurd hnone (h.valid_use i hm)
    · exact h.copy i n ⟨r, hr⟩ hm

theorem iget_fs (h : Fs v a s) (hn : n < v.sb.inodeCount)
    (hE : (∀ i < NINODE, a.T i ≠ none) → (∀ i, ¬ a.Has i n) → E (.panic .igetNoInodes)) :
    Post (iget ROOTDEV n) s (fun i t => Fits a.T i (ROOTDEV, n) ∧ Fs v (a.take i n) t)
      fun f _ => E f := by
  simp only [iget, post_bind, post_get]
  cases hf : (List.range NINODE).find? fun i => decide (0 < (s.itable.get i).ref ∧
      (s.itable.get i).dev = ROOTDEV ∧ (s.itable.get i).inum = n) with
  | some i =>
    have hi : i < NINODE := List.mem_range.1 (List.mem_of_find?_eq_some hf)
    have hp := List.find?_some hf
    rw [decide_eq_true_eq] at hp
    obtain ⟨hpos, hdev, hinum⟩ := hp
    have hhas : a.Has i n := ⟨(s.itable.get i).ref, by
      rw [← h.tab]
      exact tab_eq_some.2 ⟨hi, by omega, rfl, hdev, hinum⟩⟩
    have hfits : Fits a.T i (ROOTDEV, n) := .inr hhas
    simp only [post_bind, post_modifyInode, post_pure]
    exact ⟨hfits, h.takeRef hi hn hfits (by rw [h.count_eq hhas]) ⟨hdev, hinum⟩ rfl
      (h.valid i hhas.ne_none) fun _ => rfl⟩
  | none =>
    have hno : ∀ j r, a.T j ≠ some (r, ROOTDEV, n) := by
      intro j r hj
      rw [← h.tab] at hj
      obtain ⟨hlt, h0, hr, hd, hn⟩ := tab_eq_some.1 hj
      have := List.find?_eq_none.1 hf j (List.mem_range.2 hlt)
      rw [decide_eq_true_eq] at this
      exact this ⟨by omega, hd, hn⟩
    cases hz : (List.range NINODE).find? fun i => decide ((s.itable.get i).ref = 0) with
    | some i =>
      have hi : i < NINODE := List.mem_range.1 (List.mem_of_find?_eq_some hz)
      have h0 := List.find?_some hz
      rw [decide_eq_true_eq] at h0
      have htab : a.T i = none := by
        rw [← h.tab]
        exact (tab_eq_none hi).2 h0
      have hfits : Fits a.T i (ROOTDEV, n) := .inl ⟨htab, hno⟩
      have hnv : i ∉ a.valid := fun hm => h.valid_use i hm htab
      simp only [post_bind, post_modifyInode, post_pure]
      exact ⟨hfits, h.takeRef hi hn hfits (by rw [count, htab]; rfl) ⟨rfl, rfl⟩ rfl
        ⟨fun hf => absurd hf Bool.false_ne_true, fun hm => absurd hm hnv⟩ fun hm => absurd hm hnv⟩
    | none =>
      refine post_panic.2 (hE (fun i hi hnone => ?_) ?_)
      · rw [← h.tab, tab_eq_none hi] at hnone
        exact List.find?_eq_none.1 hz i (List.mem_range.2 hi) (decide_eq_true hnone)
      · rintro i ⟨r, hr⟩
        exact hno i r hr

theorem idup_fs (h : Fs v a s) (hi : a.Has ip n) :
    Post (idup ip) s (fun i t => i = ip ∧ Fs v (a.take ip n) t) fun f _ => E f := by
  obtain ⟨hlt, -, hdev, hinum⟩ := h.entry hi
  simp only [idup, post_bind, post_modifyInode, post_pure, true_and]
  exact h.takeRef hlt (h.lt hi) (.inr hi) (by rw [h.count_eq hi]) ⟨hdev, hinum⟩ rfl
    (h.valid ip hi.ne_none) fun _ => rfl

theorem dropRef (h : Fs v a s) (hi : a.Has ip n) (hl : ip ∈ a.locked → 1 < count a.T ip) {x : Inode}
    (hx : x = { s.itable.get ip with ref := (s.itable.get ip).ref - 1 }) :
    Fs v (a.drop ip) { s with itable := s.itable.set ip x } := by
  subst hx
  obtain ⟨hlt, href, hdev, hinum⟩ := h.entry hi
  have hT : a.T ip = some ((s.itable.get ip).ref, ROOTDEV, n) := by
    rw [← h.tab]
    exact tab_eq_some.2 ⟨hlt, href, rfl, hdev, hinum⟩
  have hself : RefTable.drop a.T ip ip =
      if (s.itable.get ip).ref - 1 ≠ 0 then some ((s.itable.get ip).ref - 1, ROOTDEV, n) else none := by
    rw [RefTable.drop, Function.update_self, hT]
    rcases hr : (s.itable.get ip).ref with _ | _ | r <;> simp
  have hne : ∀ j, j ≠ ip → RefTable.drop a.T ip j = a.T j := fun j hj => drop_of_ne hj
  have hmem : ip ∈ (a.drop ip).valid ↔ ip ∈ a.valid ∧ (s.itable.get ip).ref - 1 ≠ 0 := by
    refine and_congr_right fun _ => ?_
    rw [hself]
    split_ifs with h0
    · exact ⟨fun _ => h0, fun _ => Option.some_ne_none _⟩
    · exact ⟨fun hc => absurd rfl hc, fun hc => absurd hc h0⟩
  refine h.setEntry hlt ?_ h.table.afterDrop (fun _ => ⟨hdev, hinum ▸ h.lt hi⟩)
    (fun _ _ => Iff.rfl) (h.locked ip hlt) (fun hm => ?_) (fun j hj => ?_) (fun h0 => ?_)
    (fun hm => (hmem.1 hm).2) fun hm => ?_
  · funext j
    by_cases hj : j = ip
    · rw [hj, Function.update_self, hself, hdev, hinum]
    · rw [Function.update_of_ne hj, hne j hj]
  · have := hl hm
    rw [h.count_eq hi] at this
    show (s.itable.get ip).ref - 1 ≠ 0
    omega
  · refine ⟨fun hm => hm.1, fun hm => ⟨hm, ?_⟩⟩
    rw [hne j hj]
    exact h.valid_use j hm
  · show _ ↔ ip ∈ (a.drop ip).valid
    rw [hmem]
    exact ⟨fun hv => ⟨(h.valid ip hi.ne_none).1 hv, h0⟩, fun hm => (h.valid ip hi.ne_none).2 hm.1⟩
  · show _ = inodes v.sb a.V (s.itable.get ip).inum ∧ _
    rw [hinum]
    exact h.copy ip n hi (hmem.1 hm).1

/-- The last reference to an unlinked inode, or one that `iput` takes for that. -/
def Frees (v : Volume) (a : Snap) (ip n : ℕ) : Prop :=
  count a.T ip = 1 ∧ ip ∈ a.valid ∧ (inodes v.sb a.V n).nlink = 0

theorem frees_iff (h : Fs v a s) (hi : a.Has ip n) : ((s.itable.get ip).ref = 1 ∧
    (s.itable.get ip).valid = true ∧ (s.itable.get ip).nlink = 0) ↔ Frees v a ip n := by
  rw [Frees, h.count_eq hi]
  refine and_congr_right fun _ => ?_
  rw [h.valid ip hi.ne_none]
  refine and_congr_right fun hv => ?_
  rw [(h.copy ip n hi hv).1]

theorem iput_keep (h : Fs v a s) (hi : a.Has ip n) (hl : ip ∈ a.locked → 1 < count a.T ip)
    (hk : ¬ Frees v a ip n) : Post (iput ip) s (fun _ t => Fs v (a.drop ip) t) fun f _ => E f := by
  simp only [iput, post_bind, post_getInode]
  rw [if_neg fun hc => hk ((h.frees_iff hi).1 hc), post_modifyInode]
  exact h.dropRef hi hl rfl

theorem iunlockput_keep (h : Fs v a s) (hi : a.Has ip n) (hl : ip ∈ a.locked)
    (hk : ¬ Frees v a ip n) :
    Post (iunlockput ip) s (fun _ t => Fs v ((a.unlock ip).drop ip) t) fun f _ => E f := by
  unfold iunlockput
  apply (h.iunlock_fs hi hl).seq
  intro _ t ht
  exact ht.iput_keep hi (fun hm => absurd rfl hm.2) hk

end Fs

end

end Xv6
