import Xv6.Lib.RefTable
import Xv6.Fs.BioSpec
import Xv6.Fs.Boot

/-!
References to inodes. Whatever the disk holds, each function of the file system takes
and drops references in the inode table in one way: `tab` is the table as a
reference-counted table, and `Kept T s t` says that a call from `s` to `t` leaves `T`.
-/

namespace Xv6
open Hoare RefTable

/-- The inode table: counts, and the device and inode number of each entry in use. -/
def State.tab (s : State) : Table ℕ (ℕ × ℕ) := fun i =>
  if i < NINODE ∧ (s.itable.get i).ref ≠ 0 then
    some ((s.itable.get i).ref, (s.itable.get i).dev, (s.itable.get i).inum)
  else none

structure Kept (T : Table ℕ (ℕ × ℕ)) (s t : State) : Prop where
  tab : t.tab = T
  ftable : t.ftable = s.ftable
  procs : t.procs = s.procs
  cur : t.cur = s.cur

theorem Kept.refl (s : State) : Kept s.tab s s := ⟨rfl, rfl, rfl, rfl⟩

theorem Kept.trans {T U : Table ℕ (ℕ × ℕ)} {s t u : State} (h₁ : Kept T s t) (h₂ : Kept U t u) :
    Kept U s u :=
  ⟨h₂.tab, h₂.ftable.trans h₁.ftable, h₂.procs.trans h₁.procs, h₂.cur.trans h₁.cur⟩

/-- `m` takes and drops no reference. -/
def Still {α : Type} (m : K α) : Prop :=
  ∀ s, Post m s (fun _ t => Kept s.tab s t) fun _ _ => True

section
variable {α β : Type} {m : K α} {f : α → K β}

theorem Still.bind (hm : Still m) (hf : ∀ a, Still (f a)) : Still (m >>= f) := by
  intro s
  apply (hm s).seq
  intro a t ht
  apply (hf a t).imp
  intro b u hu
  rw [ht.tab] at hu
  exact ht.trans hu

/-- In a run from `s`, a call that takes and drops no reference. -/
theorem Still.next {T : Table ℕ (ℕ × ℕ)} {s t : State} {R : β → State → Prop} (hm : Still m)
    (ht : Kept T s t) (hf : ∀ a u, Kept T s u → Post (f a) u R fun _ _ => True) :
    Post (m >>= f) t R fun _ _ => True := by
  apply (hm t).seq
  intro a u hu
  rw [ht.tab] at hu
  exact hf a u (ht.trans hu)

theorem still_pure (a : α) : Still (pure a : K α) := fun s => post_pure.2 (.refl s)

theorem still_panic (p : Panic) : Still (panic p : K α) := fun _ => post_panic.2 trivial

theorem still_sleepForever : Still (sleepForever : K α) := fun _ => post_sleepForever.2 trivial

theorem still_get : Still (get : K State) := fun s => post_get.2 (.refl s)

theorem Still.ite {c : Prop} [Decidable c] {m n : K α} (hm : Still m) (hn : Still n) :
    Still (if c then m else n) := by
  split_ifs
  · exact hm
  · exact hn

theorem post_lift {m : B α} {s : State} {Q : α → State → Prop} {E : Fault → State → Prop} :
    Post (liftM m : K α) s Q E ↔
      Post m s.store (fun a t => Q a { s with store := t }) fun e t => E e { s with store := t } := by
  rw [show (liftM m : K α) = onStore m from rfl]
  unfold Post onStore
  cases m s.store <;> rfl

theorem still_lift (m : B α) : Still (liftM m : K α) := by
  intro s
  rw [post_lift, post_iff]
  exact ⟨fun _ _ _ => ⟨rfl, rfl, rfl, rfl⟩, fun _ _ _ => trivial⟩

@[simp] theorem post_getInode {ip : ℕ} {s : State} {Q : Inode → State → Prop}
    {E : Fault → State → Prop} : Post (getInode ip) s Q E ↔ Q (s.itable.get ip) s := by
  simp [getInode]

theorem still_getInode (ip : ℕ) : Still (getInode ip) := fun s => post_getInode.2 (.refl s)

@[simp] theorem post_modifyInode {ip : ℕ} {g : Inode → Inode} {s : State}
    {Q : Unit → State → Prop} {E : Fault → State → Prop} :
    Post (modifyInode ip g) s Q E ↔
      Q () { s with itable := s.itable.set ip (g (s.itable.get ip)) } := by
  simp [modifyInode]

theorem tab_set (s : State) (ip : ℕ) (n : Inode) (hip : ip < NINODE) :
    State.tab { s with itable := s.itable.set ip n } =
      Function.update s.tab ip (if n.ref ≠ 0 then some (n.ref, n.dev, n.inum) else none) := by
  funext i
  unfold State.tab
  by_cases hi : i = ip
  · subst hi
    simp only [TMap.get_set_self, Function.update_self, hip, true_and]
  · simp only [TMap.get_set_ne _ _ hi, Function.update_of_ne hi]

theorem tab_set_out (s : State) (ip : ℕ) (n : Inode) (hip : ¬ ip < NINODE) :
    State.tab { s with itable := s.itable.set ip n } = s.tab := by
  funext i
  unfold State.tab
  by_cases hi : i = ip
  · subst hi
    simp only [hip, false_and, if_false]
  · simp only [TMap.get_set_ne _ _ hi]

theorem still_modifyInode {ip : ℕ} {g : Inode → Inode}
    (hg : ∀ n, (g n).ref = n.ref ∧ (g n).dev = n.dev ∧ (g n).inum = n.inum) :
    Still (modifyInode ip g) := by
  intro s
  rw [post_modifyInode]
  refine ⟨?_, rfl, rfl, rfl⟩
  by_cases hip : ip < NINODE
  · obtain ⟨h₁, h₂, h₃⟩ := hg (s.itable.get ip)
    rw [tab_set s ip _ hip, h₁, h₂, h₃]
    funext i
    by_cases hi : i = ip
    · subst hi
      simp only [Function.update_self, State.tab, hip, true_and]
    · rw [Function.update_of_ne hi]
  · exact tab_set_out s ip _ hip

theorem still_setFields {ip : ℕ} {g : Inode → Inode}
    (hg : ∀ n, ((g n).ref, (g n).dev, (g n).inum) = (n.ref, n.dev, n.inum)) :
    Still (modifyInode ip g) :=
  still_modifyInode fun n => by simpa only [Prod.mk.injEq] using hg n

end

/-! The block allocator and the contents of inodes. -/

section
variable (dev ip : ℕ)

theorem still_bzero (bno : ℕ) : Still (bzero dev bno) :=
  (still_lift _).bind fun _ => (still_lift _).bind fun _ => (still_lift _).bind fun _ =>
    still_lift _

theorem still_ballocFrom (bs : List ℕ) : Still (ballocFrom dev bs) := by
  induction bs with
  | nil => exact still_panic _
  | cons b bs ih =>
    unfold ballocFrom
    apply still_get.bind
    intro s
    apply (still_lift _).bind
    intro bp
    apply (still_lift _).bind
    intro buf
    dsimp only
    split
    · exact (still_lift _).bind fun _ => (still_lift _).bind fun _ => (still_lift _).bind fun _ =>
        (still_bzero dev _).bind fun _ => still_pure _
    · exact (still_lift _).bind fun _ => ih

theorem still_balloc : Still (balloc dev) := still_get.bind fun _ => still_ballocFrom dev _

theorem still_bfree (b : ℕ) : Still (bfree dev b) := by
  unfold bfree
  apply still_get.bind
  intro s
  apply (still_lift _).bind
  intro bp
  apply (still_lift _).bind
  intro buf
  exact Still.ite (still_panic _)
    ((still_lift _).bind fun _ => (still_lift _).bind fun _ => still_lift _)

theorem still_iupdate : Still (iupdate ip) :=
  (still_getInode ip).bind fun _ => still_get.bind fun _ => (still_lift _).bind fun _ =>
    (still_lift _).bind fun _ => (still_lift _).bind fun _ => (still_lift _).bind fun _ =>
      still_lift _

theorem still_ilock : Still (ilock ip) := by
  unfold ilock
  apply (still_getInode ip).bind
  intro n
  apply Still.ite (still_panic _)
  apply (still_getInode ip).bind
  intro n
  apply Still.ite still_sleepForever
  dsimp only
  apply (still_setFields (by intro _; rfl)).bind
  intro _
  apply (still_getInode ip).bind
  intro n
  apply Still.ite _ (still_pure _)
  apply still_get.bind
  intro s
  apply (still_lift _).bind
  intro bp
  apply (still_lift _).bind
  intro buf
  apply (still_setFields (by intro _; rfl)).bind
  intro _
  apply (still_lift _).bind
  intro _
  apply (still_setFields (by intro _; rfl)).bind
  intro _
  exact Still.ite (still_panic _) (still_pure _)

theorem still_iunlock : Still (iunlock ip) := by
  unfold iunlock
  apply (still_getInode ip).bind
  intro n
  exact Still.ite (still_panic _) (still_setFields (by intro _; rfl))

theorem still_bmapIndirect : Still (bmapIndirect ip) := by
  unfold bmapIndirect
  apply (still_getInode ip).bind
  intro n
  exact Still.ite
    ((still_balloc _).bind fun _ => (still_setFields (by intro _; rfl)).bind fun _ => still_pure _)
    (still_pure _)

theorem still_bmap (bn : ℕ) : Still (bmap ip bn) := by
  unfold bmap
  apply (still_getInode ip).bind
  intro n
  apply Still.ite
  · exact Still.ite
      ((still_balloc _).bind fun _ => (still_setFields (by intro _; rfl)).bind fun _ => still_pure _)
      (still_pure _)
  · apply Still.ite _ (still_panic _)
    apply (still_bmapIndirect ip).bind
    intro ind
    apply (still_lift _).bind
    intro bp
    apply (still_lift _).bind
    intro buf
    apply Still.ite
    · exact (still_balloc _).bind fun _ => (still_lift _).bind fun _ => (still_lift _).bind fun _ =>
        (still_lift _).bind fun _ => (still_lift _).bind fun _ => still_pure _
    · exact (still_lift _).bind fun _ => still_pure _

theorem still_itruncDirect (i n : ℕ) : Still (itruncDirect ip i n) := by
  induction n generalizing i with
  | zero => exact still_pure _
  | succ n ih =>
    unfold itruncDirect
    apply (still_getInode ip).bind
    intro d
    apply Still.ite
    · exact (still_bfree _ _).bind fun _ => (still_setFields (by intro _; rfl)).bind fun _ => ih _
    · exact ih _

theorem still_itruncIndirect (bp j n : ℕ) : Still (itruncIndirect dev bp j n) := by
  induction n generalizing j with
  | zero => exact still_pure _
  | succ n ih =>
    unfold itruncIndirect
    apply (still_lift _).bind
    intro buf
    exact Still.ite ((still_bfree _ _).bind fun _ => ih _) (ih _)

theorem still_itrunc : Still (itrunc ip) := by
  unfold itrunc
  apply (still_itruncDirect ip _ _).bind
  intro _
  apply (still_getInode ip).bind
  intro d
  have hend : Still (do
      modifyInode ip fun d => { d with size := 0 }
      iupdate ip) := (still_setFields (by intro _; rfl)).bind fun _ => still_iupdate ip
  apply Still.ite
  · exact (still_lift _).bind fun _ => (still_itruncIndirect _ _ _ _).bind fun _ =>
      (still_lift _).bind fun _ => (still_bfree _ _).bind fun _ =>
        (still_setFields (by intro _; rfl)).bind fun _ => hend
  · exact hend

theorem still_eitherCopyout (dst : Dst) (l : List UInt8) : Still (eitherCopyout dst l) := by
  cases dst with
  | user a =>
    intro s
    simp only [eitherCopyout, post_bind, post_get, post_modify, post_pure]
    exact ⟨rfl, rfl, rfl, rfl⟩
  | kernel k => exact still_pure _

theorem still_readiLoop (fuel tot off n : ℕ) (dst : Dst) :
    Still (readiLoop ip fuel tot off n dst) := by
  induction fuel generalizing tot off dst with
  | zero => exact still_pure _
  | succ fuel ih =>
    unfold readiLoop
    apply Still.ite _ (still_pure _)
    apply (still_getInode ip).bind
    intro d
    apply (still_bmap ip _).bind
    intro b
    apply (still_lift _).bind
    intro bp
    apply (still_lift _).bind
    intro buf
    apply (still_eitherCopyout _ _).bind
    intro r
    cases r with
    | none => exact (still_lift _).bind fun _ => still_pure _
    | some dst' => exact (still_lift _).bind fun _ => ih _ _ _

theorem still_readi (dst : Dst) (off n : ℕ) : Still (readi ip dst off n) := by
  unfold readi
  apply (still_getInode ip).bind
  intro d
  exact Still.ite (still_pure _) (still_readiLoop ip _ _ _ _ _)

theorem still_writeiLoop (fuel tot off n : ℕ) (src : Src) :
    Still (writeiLoop ip fuel tot off n src) := by
  induction fuel generalizing tot off src with
  | zero => exact still_pure _
  | succ fuel ih =>
    unfold writeiLoop
    apply Still.ite _ (still_pure _)
    apply (still_getInode ip).bind
    intro d
    apply (still_bmap ip _).bind
    intro b
    apply (still_lift _).bind
    intro bp
    apply still_get.bind
    intro s
    apply (still_lift _).bind
    intro buf
    apply (still_lift _).bind
    intro _
    exact Still.ite ((still_lift _).bind fun _ => (still_lift _).bind fun _ => ih _ _ _)
      ((still_lift _).bind fun _ => still_pure _)

theorem still_writei (src : Src) (off n : ℕ) : Still (writei ip src off n) := by
  unfold writei
  apply (still_getInode ip).bind
  intro d
  apply Still.ite (still_pure _)
  apply Still.ite (still_pure _)
  apply (still_writeiLoop ip _ _ _ _ _).bind
  rintro ⟨tot, off'⟩
  apply (still_getInode ip).bind
  intro d
  apply Still.ite
  · exact (still_setFields (by intro _; rfl)).bind fun _ => (still_iupdate ip).bind fun _ => still_pure _
  · exact (still_iupdate ip).bind fun _ => still_pure _

theorem still_readDirent (off : ℕ) (p : Panic) : Still (readDirent ip off p) := by
  unfold readDirent
  apply (still_readi ip _ _ _).bind
  rintro ⟨r, dst⟩
  cases dst with
  | kernel l => exact Still.ite (still_pure _) (still_panic _)
  | user a => exact still_panic _

theorem still_writeDirent (off : ℕ) (de : Dirent) (p : Panic) :
    Still (writeDirent ip off de p) := by
  unfold writeDirent
  apply (still_writei ip _ _ _).bind
  intro r
  exact Still.ite (still_panic _) (still_pure _)

theorem still_emptyDirent (off n : ℕ) : Still (emptyDirent ip off n) := by
  induction n generalizing off with
  | zero => exact still_pure _
  | succ n ih =>
    unfold emptyDirent
    apply (still_readDirent ip _ _).bind
    intro de
    exact Still.ite (still_pure _) (ih _)

theorem still_isdirempty : Still (isdirempty ip) := by
  have hfrom : ∀ n off, Still (isdiremptyFrom ip off n) := by
    intro n
    induction n with
    | zero => exact fun _ => still_pure _
    | succ n ih =>
      intro off
      unfold isdiremptyFrom
      apply (still_readDirent ip _ _).bind
      intro de
      exact Still.ite (still_pure _) (ih _)
  exact (still_getInode ip).bind fun _ => hfrom _ _

theorem still_readKernel (off n : ℕ) : Still (readKernel ip off n) := by
  unfold readKernel
  apply (still_readi ip _ _ _).bind
  rintro ⟨r, dst⟩
  cases dst <;> exact still_pure _

theorem still_loadseg (offset sz : ℕ) : Still (loadseg ip offset sz) := by
  have hfrom : ∀ n i, Still (loadsegFrom ip offset sz n i) := by
    intro n
    induction n with
    | zero => exact fun _ => still_pure _
    | succ n ih =>
      intro i
      unfold loadsegFrom
      apply (still_readKernel ip _ _).bind
      intro r
      cases r with
      | none => exact still_pure _
      | some l => exact ih _
  exact hfrom _ _

theorem still_loadFrom (mem : ExecMem) (n i off : ℕ) : Still (loadFrom ip mem n i off) := by
  induction n generalizing i off with
  | zero => exact still_pure _
  | succ n ih =>
    unfold loadFrom
    apply (still_readKernel ip _ _).bind
    intro r
    cases r with
    | none => exact still_pure _
    | some l =>
      apply Still.ite (ih _ _)
      apply Still.ite (still_pure _)
      apply Still.ite (still_pure _)
      apply Still.ite (still_pure _)
      apply Still.ite (still_pure _)
      apply (still_loadseg ip _ _).bind
      intro ok
      exact Still.ite (ih _ _) (still_pure _)

end

/-! References taken and dropped. -/

/-- The call leaves one more reference, through entry `ip`. -/
def Got (T : Table ℕ (ℕ × ℕ)) (s : State) (ip : ℕ) (t : State) : Prop :=
  ∃ n, Fits T ip n ∧ Kept (take T ip n) s t

/-- One more reference if the call found something. -/
def GotSome {α : Type} (T : Table ℕ (ℕ × ℕ)) (s : State) (r : Option (ℕ × α)) (t : State) : Prop :=
  match r with
  | none => Kept T s t
  | some (ip, _) => Got T s ip t

section
variable {s : State} {T : Table ℕ (ℕ × ℕ)}

theorem tab_eq_some {i r dev inum : ℕ} : s.tab i = some (r, dev, inum) ↔
    i < NINODE ∧ r ≠ 0 ∧ (s.itable.get i).ref = r ∧ (s.itable.get i).dev = dev ∧
      (s.itable.get i).inum = inum := by
  unfold State.tab
  split_ifs with h
  · simp only [Option.some.injEq, Prod.mk.injEq]
    constructor
    · rintro ⟨rfl, rfl, rfl⟩
      exact ⟨h.1, h.2, rfl, rfl, rfl⟩
    · rintro ⟨-, -, h₁, h₂, h₃⟩
      exact ⟨h₁, h₂, h₃⟩
  · simp only [false_iff]
    rintro ⟨hi, h0, rfl, -⟩
    exact h ⟨hi, h0⟩

theorem tab_eq_none {i : ℕ} (hi : i < NINODE) : s.tab i = none ↔ (s.itable.get i).ref = 0 := by
  unfold State.tab
  by_cases h0 : (s.itable.get i).ref = 0 <;> simp [h0, hi]

theorem iget_tab (s : State) (dev inum : ℕ) :
    Post (iget dev inum) s
      (fun i t => Fits s.tab i (dev, inum) ∧ Kept (take s.tab i (dev, inum)) s t)
      fun _ _ => True := by
  simp only [iget, post_bind, post_get]
  cases hf : (List.range NINODE).find? fun i => decide (0 < (s.itable.get i).ref ∧
      (s.itable.get i).dev = dev ∧ (s.itable.get i).inum = inum) with
  | some i =>
    have hi : i < NINODE := List.mem_range.1 (List.mem_of_find?_eq_some hf)
    have hp := List.find?_some hf
    rw [decide_eq_true_eq] at hp
    obtain ⟨hpos, hdev, hinum⟩ := hp
    have htab : s.tab i = some ((s.itable.get i).ref, dev, inum) :=
      tab_eq_some.2 ⟨hi, by omega, rfl, hdev, hinum⟩
    simp only [post_bind, post_modifyInode, post_pure]
    refine ⟨.of_some htab, ?_, rfl, rfl, rfl⟩
    rw [tab_set s i _ hi, if_pos (Nat.succ_ne_zero _), hdev, hinum, take, count, htab]
    rfl
  | none =>
    have hno : ∀ j r, s.tab j ≠ some (r, dev, inum) := by
      intro j r hj
      obtain ⟨hlt, h0, hr, hd, hn⟩ := tab_eq_some.1 hj
      have := List.find?_eq_none.1 hf j (List.mem_range.2 hlt)
      rw [decide_eq_true_eq] at this
      exact this ⟨by omega, hd, hn⟩
    cases hz : (List.range NINODE).find? fun i => decide ((s.itable.get i).ref = 0) with
    | some i =>
      have hi : i < NINODE := List.mem_range.1 (List.mem_of_find?_eq_some hz)
      have h0 := List.find?_some hz
      rw [decide_eq_true_eq] at h0
      have htab : s.tab i = none := (tab_eq_none hi).2 h0
      simp only [post_bind, post_modifyInode, post_pure]
      refine ⟨.inl ⟨htab, hno⟩, ?_, rfl, rfl, rfl⟩
      rw [tab_set s i _ hi, if_pos Nat.one_ne_zero, take, count, htab]
      rfl
    | none => exact post_panic.2 trivial

theorem idup_tab {ip r : ℕ} {n : ℕ × ℕ} (h : s.tab ip = some (r, n)) :
    Post (idup ip) s (fun i t => i = ip ∧ Kept (take s.tab ip n) s t) fun _ _ => True := by
  obtain ⟨dev, inum⟩ := n
  obtain ⟨hi, -, hr, hd, hn⟩ := tab_eq_some.1 h
  simp only [idup, post_bind, post_modifyInode, post_pure, true_and]
  refine ⟨?_, rfl, rfl, rfl⟩
  rw [tab_set s ip _ hi, if_pos (Nat.succ_ne_zero _), hd, hn, take, count, h, hr]
  rfl

/-- The count goes down by one, whatever else `iput` does. -/
theorem iput_tab (s : State) (ip : ℕ) :
    Post (iput ip) s (fun _ t => Kept (drop s.tab ip) s t) fun _ _ => True := by
  have hlast : ∀ t, Kept s.tab s t →
      Post (modifyInode ip fun n => { n with ref := n.ref - 1 }) t
        (fun _ u => Kept (drop s.tab ip) s u) fun _ _ => True := by
    intro t ht
    rw [post_modifyInode]
    refine ⟨?_, ht.ftable, ht.procs, ht.cur⟩
    by_cases hip : ip < NINODE
    · rw [tab_set t ip _ hip, ht.tab, drop]
      congr 1
      rw [← ht.tab, State.tab]
      simp only [hip, true_and]
      rcases hr : (t.itable.get ip).ref with _ | _ | r <;> simp
    · rw [tab_set_out t ip _ hip, ht.tab]
      have hnone : s.tab ip = none := by
        unfold State.tab
        rw [if_neg fun h => hip h.1]
      funext i
      by_cases hi : i = ip
      · rw [hi, hnone, drop, Function.update_self, hnone]
      · rw [drop_of_ne hi]
  unfold iput
  apply (still_getInode ip).next (.refl s)
  intro n t ht
  dsimp only
  split_ifs
  · exact post_bind.2 (post_sleepForever.2 trivial)
  · apply (still_setFields (by intro _; rfl)).next ht
    intro _ t ht
    apply (still_itrunc ip).next ht
    intro _ t ht
    apply (still_setFields (by intro _; rfl)).next ht
    intro _ t ht
    apply (still_iupdate ip).next ht
    intro _ t ht
    apply (still_setFields (by intro _; rfl)).next ht
    intro _ t ht
    apply (still_setFields (by intro _; rfl)).next ht
    exact fun _ t ht => hlast t ht
  · exact hlast t ht

variable {t : State} {i : ℕ}

theorem iget_refs (ht : Kept T s t) (dev inum : ℕ) :
    Post (iget dev inum) t
      (fun i u => Fits T i (dev, inum) ∧ Kept (take T i (dev, inum)) s u) fun _ _ => True := by
  apply (iget_tab t dev inum).imp
  rintro i u ⟨hf, hu⟩
  rw [ht.tab] at hf hu
  exact ⟨hf, ht.trans hu⟩

theorem iput_refs (ht : Kept T s t) (ip : ℕ) :
    Post (iput ip) t (fun _ u => Kept (drop T ip) s u) fun _ _ => True := by
  apply (iput_tab t ip).imp
  intro _ u hu
  rw [ht.tab] at hu
  exact ht.trans hu

theorem iunlockput_refs (ht : Kept T s t) (ip : ℕ) :
    Post (iunlockput ip) t (fun _ u => Kept (drop T ip) s u) fun _ _ => True := by
  unfold iunlockput
  apply (still_iunlock ip).next ht
  exact fun _ u hu => iput_refs hu ip

theorem iput_back {n : ℕ × ℕ} (hT : Ok T) (hf : Fits T i n) (ht : Kept (take T i n) s t) :
    Post (iput i) t (fun _ u => Kept T s u) fun _ _ => True := by
  have h := iput_refs ht i
  rwa [drop_take hT hf] at h

theorem iunlockput_back {n : ℕ × ℕ} (hT : Ok T) (hf : Fits T i n) (ht : Kept (take T i n) s t) :
    Post (iunlockput i) t (fun _ u => Kept T s u) fun _ _ => True := by
  have h := iunlockput_refs ht i
  rwa [drop_take hT hf] at h

theorem ialloc_refs (ht : Kept T s t) (dev : ℕ) (type : ℤ) :
    Post (ialloc dev type) t (fun i u => Got T s i u) fun _ _ => True := by
  have hfrom : ∀ n inum u, Kept T s u →
      Post (iallocFrom dev type inum n) u (fun i u => Got T s i u) fun _ _ => True := by
    intro n
    induction n with
    | zero => exact fun _ _ _ => post_panic.2 trivial
    | succ n ih =>
      intro inum u hu
      unfold iallocFrom
      apply still_get.next hu
      intro _ u hu
      apply (still_lift _).next hu
      intro _ u hu
      apply (still_lift _).next hu
      intro buf u hu
      dsimp only
      split_ifs
      · apply (still_lift _).next hu
        intro _ u hu
        apply (still_lift _).next hu
        intro _ u hu
        apply (still_lift _).next hu
        intro _ u hu
        apply (iget_refs hu dev inum).imp
        exact fun i v hv => ⟨_, hv⟩
      · apply (still_lift _).next hu
        exact fun _ u hu => ih _ u hu
  unfold ialloc
  apply still_get.next ht
  exact fun _ u hu => hfrom _ _ u hu

theorem dirlookup_refs (ht : Kept T s t) (dp : ℕ) (name : List UInt8) :
    Post (dirlookup dp name) t (fun r u => GotSome T s r u) fun _ _ => True := by
  have hfrom : ∀ n off u, Kept T s u →
      Post (dirlookupFrom dp name off n) u (fun r u => GotSome T s r u) fun _ _ => True := by
    intro n
    induction n with
    | zero => exact fun _ _ hu => post_pure.2 hu
    | succ n ih =>
      intro off u hu
      unfold dirlookupFrom
      apply (still_readDirent dp _ _).next hu
      intro de u hu
      split_ifs
      · apply (still_getInode dp).next hu
        intro d u hu
        apply (iget_refs hu _ _).seq
        exact fun i v hv => post_pure.2 ⟨_, hv⟩
      · exact ih _ u hu
  unfold dirlookup
  apply (still_getInode dp).next ht
  intro d u hu
  split_ifs
  · exact post_bind.2 (post_panic.2 trivial)
  · apply (still_getInode dp).next hu
    exact fun _ u hu => hfrom _ _ u hu

theorem dirlink_refs (hT : Ok T) (ht : Kept T s t) (dp : ℕ) (name : List UInt8) (inum : ℕ) :
    Post (dirlink dp name inum) t (fun _ u => Kept T s u) fun _ _ => True := by
  unfold dirlink
  apply (dirlookup_refs ht dp name).seq
  rintro (_ | ⟨ip, off⟩) u hu
  · apply (still_getInode dp).next hu
    intro d u hu
    apply (still_emptyDirent dp _ _).next hu
    intro off u hu
    apply (still_writeDirent dp _ _ _).next hu
    exact fun _ u hu => post_pure.2 hu
  · obtain ⟨n, hf, hu⟩ := hu
    apply (iput_back hT hf hu).seq
    exact fun _ v hv => post_pure.2 hv

/-- `namex` holds one reference all along: it drops the one to a directory only after it
has taken the next one. -/
theorem namexLoop_refs (hT : Ok T) (parent : Bool) (fuel : ℕ) (path name : List UInt8)
    (hg : Got T s i t) :
    Post (namexLoop parent fuel i path name) t (fun r u => GotSome T s r u) fun _ _ => True := by
  induction fuel generalizing i t path name with
  | zero => exact post_sleepForever.2 trivial
  | succ fuel ih =>
    obtain ⟨n, hf, ht⟩ := hg
    unfold namexLoop
    cases skipelem path with
    | none =>
      dsimp only
      split_ifs
      · apply (iput_back hT hf ht).seq
        exact fun _ u hu => post_pure.2 hu
      · exact post_pure.2 ⟨n, hf, ht⟩
    | some pn =>
      obtain ⟨path', name'⟩ := pn
      dsimp only
      apply (still_ilock i).next ht
      intro _ u hu
      apply (still_getInode i).next hu
      intro d u hu
      split_ifs
      · apply (iunlockput_back hT hf hu).seq
        exact fun _ v hv => post_pure.2 hv
      · apply (still_iunlock i).next hu
        exact fun _ v hv => post_pure.2 ⟨n, hf, hv⟩
      · apply (dirlookup_refs hu i name').seq
        rintro (_ | ⟨next, off⟩) v hv
        · apply (iunlockput_back hT hf hv).seq
          exact fun _ w hw => post_pure.2 hw
        · obtain ⟨m, hfm, hv⟩ := hv
          have hdrop := iunlockput_refs hv i
          rw [drop_take_take hT hf hfm] at hdrop
          apply hdrop.seq
          exact fun _ w hw => ih path' name' ⟨m, hf.of_take hfm, hw⟩

/-- The current directory of the running process is an entry of `T`. -/
def CwdIn (T : Table ℕ (ℕ × ℕ)) (s : State) : Prop :=
  ∃ r n, T ((s.procs.get s.cur).cwd.getD 0) = some (r, n)

theorem CwdIn.take (h : CwdIn T s) (i : ℕ) (n : ℕ × ℕ) : CwdIn (take T i n) s := by
  obtain ⟨r, m, h⟩ := h
  unfold CwdIn
  by_cases hi : (s.procs.get s.cur).cwd.getD 0 = i
  · rw [hi, take_self]
    exact ⟨_, _, rfl⟩
  · rw [take_of_ne hi]
    exact ⟨r, m, h⟩

/-- The current directory matters for a relative path only. -/
theorem namex_refs {path : List UInt8} (hT : Ok T) (hc : path.head? ≠ some SLASH → CwdIn T s)
    (ht : Kept T s t) (parent : Bool) :
    Post (namex path parent) t (fun r u => GotSome T s r u) fun _ _ => True := by
  unfold namex
  split_ifs with hrel
  · apply (iget_refs ht _ _).seq
    exact fun i u hu => namexLoop_refs hT parent _ path [] ⟨_, hu⟩
  · obtain ⟨r, n, hc⟩ := hc hrel
    have hc' := hc
    rw [← ht.tab, ← ht.procs, ← ht.cur] at hc'
    simp only [myproc, post_bind, post_get, post_pure]
    apply (idup_tab hc').imp
    rintro _ u ⟨rfl, hu⟩
    rw [ht.tab] at hu
    rw [ht.procs, ht.cur] at hu ⊢
    exact namexLoop_refs hT parent _ path [] ⟨n, .of_some hc, ht.trans hu⟩

/-- One more reference if the call found an inode. -/
def GotInode (T : Table ℕ (ℕ × ℕ)) (s : State) (r : Option ℕ) (t : State) : Prop :=
  match r with
  | none => Kept T s t
  | some ip => Got T s ip t

theorem nameiFrom_refs {path : List UInt8} (hT : Ok T)
    (hc : path.head? ≠ some SLASH → CwdIn T s) (ht : Kept T s t) :
    Post (namei path) t (fun r u => GotInode T s r u) fun _ _ => True := by
  unfold namei
  apply (namex_refs hT hc ht false).seq
  rintro (_ | ⟨ip, name⟩) u hu
  · exact post_pure.2 hu
  · exact post_pure.2 hu

theorem namei_refs (hT : Ok T) (hc : CwdIn T s) (ht : Kept T s t) (path : List UInt8) :
    Post (namei path) t (fun r u => GotInode T s r u) fun _ _ => True :=
  nameiFrom_refs hT (fun _ => hc) ht

theorem nameiparent_refs (hT : Ok T) (hc : CwdIn T s) (ht : Kept T s t) (path : List UInt8) :
    Post (nameiparent path) t (fun r u => GotSome T s r u) fun _ _ => True :=
  namex_refs hT (fun _ => hc) ht true

theorem create_refs (hT : Ok T) (hc : CwdIn T s) (ht : Kept T s t) (path : Path)
    (type major minor : ℤ) :
    Post (create path type major minor) t (fun r u => GotInode T s r u) fun _ _ => True := by
  unfold create
  apply (nameiparent_refs hT hc ht path).seq
  rintro (_ | ⟨dp, name⟩) u hu
  · exact post_pure.2 hu
  obtain ⟨n, hf, hu⟩ := hu
  have hT₁ : Ok (take T dp n) := hT.afterTake hf
  dsimp only
  apply (still_ilock dp).next hu
  intro _ u hu
  apply (dirlookup_refs hu dp name).seq
  rintro (_ | ⟨ip, off⟩) v hv
  · apply (still_getInode dp).next hv
    intro d v hv
    apply (ialloc_refs hv d.dev type).seq
    rintro ip w ⟨m, hfm, hw⟩
    have hT₂ : Ok (take (take T dp n) ip m) := hT₁.afterTake hfm
    apply (still_ilock ip).next hw
    intro _ w hw
    apply (still_setFields (by intro _; rfl)).next hw
    intro _ w hw
    apply (still_iupdate ip).next hw
    intro _ w hw
    have hend : ∀ w, Kept (take (take T dp n) ip m) s w → Post (do
        let ok ← dirlink dp name (← getInode ip).inum
        if !ok then panic .createDirlink
        iunlockput dp
        return some ip) w (fun r u => GotInode T s r u) fun _ _ => True := by
      intro w hw
      apply (still_getInode ip).next hw
      intro d w hw
      apply (dirlink_refs hT₂ hw dp name d.inum).seq
      intro ok w hw
      split_ifs
      · exact post_bind.2 (post_panic.2 trivial)
      · have hdrop := iunlockput_refs hw dp
        rw [drop_take_take hT hf hfm] at hdrop
        apply hdrop.seq
        exact fun _ x hx => post_pure.2 ⟨m, hf.of_take hfm, hx⟩
    split_ifs
    · apply (still_setFields (by intro _; rfl)).next hw
      intro _ w hw
      apply (still_iupdate dp).next hw
      intro _ w hw
      apply (still_getInode ip).next hw
      intro d w hw
      apply (dirlink_refs hT₂ hw ip DOT d.inum).seq
      intro ok w hw
      split_ifs
      · exact post_bind.2 (post_panic.2 trivial)
      · apply (still_getInode dp).next hw
        intro d w hw
        apply (dirlink_refs hT₂ hw ip DOTDOT d.inum).seq
        intro ok w hw
        split_ifs
        · exact post_bind.2 (post_panic.2 trivial)
        · exact hend w hw
    · exact hend w hw
  · obtain ⟨m, hfm, hv⟩ := hv
    have hdrop := iunlockput_refs hv dp
    rw [drop_take_take hT hf hfm] at hdrop
    have hfm' := hf.of_take hfm
    apply hdrop.seq
    intro _ w hw
    apply (still_ilock ip).next hw
    intro _ w hw
    apply (still_getInode ip).next hw
    intro d w hw
    split_ifs
    · exact post_pure.2 ⟨m, hfm', hw⟩
    · apply (iunlockput_back hT hfm' hw).seq
      exact fun _ x hx => post_pure.2 hx

end

end Xv6
