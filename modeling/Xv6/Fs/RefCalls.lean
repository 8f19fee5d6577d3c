import Xv6.Fs.RefCount

/-!
What the system calls do to references. Calls that leave the descriptors alone leave the
inode table as it was; for the others `During` counts the references that the call holds.
-/

namespace Xv6
open Hoare RefTable

section
variable {T : Table ℕ (ℕ × ℕ)} {s t : State} {ip : ℕ} {n : ℕ × ℕ}

theorem finish_refs (hT : Ok T) (hf : Fits T ip n) (ht : Kept (take T ip n) s t) (r : ℤ) :
    Post (do
      iunlockput ip
      liftM endOp
      return r : K ℤ) t (fun _ u => Kept T s u) fun _ _ => True := by
  apply (iunlockput_back hT hf ht).seq
  intro _ u hu
  apply (still_lift _).next hu
  exact fun _ v hv => post_pure.2 hv

theorem endOp_refs (ht : Kept T s t) (r : ℤ) :
    Post (do
      liftM endOp
      return r : K ℤ) t (fun _ u => Kept T s u) fun _ _ => True := by
  apply (still_lift _).next ht
  exact fun _ v hv => post_pure.2 hv

theorem sysLinkBad_refs (hT : Ok T) (hf : Fits T ip n) (ht : Kept (take T ip n) s t) :
    Post (sysLinkBad ip) t (fun _ u => Kept T s u) fun _ _ => True := by
  unfold sysLinkBad
  apply (still_ilock ip).next ht
  intro _ u hu
  apply (still_setFields (by intro _; rfl)).next hu
  intro _ u hu
  apply (still_iupdate ip).next hu
  exact fun _ u hu => finish_refs hT hf hu (-1)

theorem sysLink_refs (hT : Ok s.tab) (hc : CwdIn s.tab s) (old new : Option Path) :
    Post (sysLink old new) s (fun _ u => Kept s.tab s u) fun _ _ => True := by
  rcases old with _ | old
  · exact post_pure.2 (.refl s)
  rcases new with _ | new
  · exact post_pure.2 (.refl s)
  unfold sysLink
  apply (still_lift _).next (.refl s)
  intro _ u hu
  apply (namei_refs hT hc hu old).seq
  rintro (_ | ip) u hu
  · exact endOp_refs hu (-1)
  obtain ⟨n, hf, hu⟩ := hu
  have hT₁ := hT.afterTake hf
  dsimp only
  apply (still_ilock ip).next hu
  intro _ u hu
  apply (still_getInode ip).next hu
  intro d u hu
  split_ifs
  · exact finish_refs hT hf hu (-1)
  apply (still_setFields (by intro _; rfl)).next hu
  intro _ u hu
  apply (still_iupdate ip).next hu
  intro _ u hu
  apply (still_iunlock ip).next hu
  intro _ u hu
  apply (nameiparent_refs hT₁ (hc.take ip n) hu new).seq
  rintro (_ | ⟨dp, name⟩) u hu
  · exact sysLinkBad_refs hT hf hu
  obtain ⟨m, hfm, hu⟩ := hu
  have hT₂ := hT₁.afterTake hfm
  dsimp only
  apply (still_ilock dp).next hu
  intro _ u hu
  apply (still_getInode dp).next hu
  intro dd u hu
  apply (still_getInode ip).next hu
  intro d u hu
  have hend : ∀ ok u, Kept (take (take s.tab ip n) dp m) s u → Post (do
      iunlockput dp
      if ok = true then
        iput ip
        liftM endOp
        return 0
      else
        sysLinkBad ip : K ℤ) u (fun _ u => Kept s.tab s u) fun _ _ => True := by
    intro ok u hu
    apply (iunlockput_back hT₁ hfm hu).seq
    intro _ u hu
    split_ifs
    · apply (iput_back hT hf hu).seq
      exact fun _ v hv => endOp_refs hv 0
    · exact sysLinkBad_refs hT hf hu
  split_ifs
  · apply (still_getInode ip).next hu
    intro d u hu
    apply (dirlink_refs hT₂ hu dp name d.inum).seq
    exact fun ok v hv => hend ok v hv
  · exact hend false u hu

theorem sysUnlink_refs (hT : Ok s.tab) (hc : CwdIn s.tab s) (path : Option Path) :
    Post (sysUnlink path) s (fun _ u => Kept s.tab s u) fun _ _ => True := by
  rcases path with _ | path
  · exact post_pure.2 (.refl s)
  unfold sysUnlink
  apply (still_lift _).next (.refl s)
  intro _ u hu
  apply (nameiparent_refs hT hc hu path).seq
  rintro (_ | ⟨dp, name⟩) u hu
  · exact endOp_refs hu (-1)
  obtain ⟨n, hf, hu⟩ := hu
  have hT₁ := hT.afterTake hf
  dsimp only
  apply (still_ilock dp).next hu
  intro _ u hu
  split_ifs
  · exact finish_refs hT hf hu (-1)
  apply (dirlookup_refs hu dp name).seq
  rintro (_ | ⟨ip, off⟩) u hu
  · exact finish_refs hT hf hu (-1)
  obtain ⟨m, hfm, hu⟩ := hu
  have hfm' := hf.of_take hfm
  dsimp only
  apply (still_ilock ip).next hu
  intro _ u hu
  apply (still_getInode ip).next hu
  intro d u hu
  split_ifs
  · exact post_bind.2 (post_panic.2 trivial)
  apply (still_getInode ip).next hu
  intro d u hu
  have hend : ∀ u, Kept (take (take s.tab dp n) ip m) s u → Post (do
      iunlockput dp
      modifyInode ip fun n => { n with nlink := short (n.nlink - 1) }
      iupdate ip
      iunlockput ip
      liftM endOp
      return 0 : K ℤ) u (fun _ u => Kept s.tab s u) fun _ _ => True := by
    intro u hu
    have hdrop := iunlockput_refs hu dp
    rw [drop_take_take hT hf hfm] at hdrop
    apply hdrop.seq
    intro _ u hu
    apply (still_setFields (by intro _; rfl)).next hu
    intro _ u hu
    apply (still_iupdate ip).next hu
    exact fun _ u hu => finish_refs hT hfm' hu 0
  have hrest : ∀ (empty : Bool) u, Kept (take (take s.tab dp n) ip m) s u → Post (do
      if !empty then
        iunlockput ip
        sysUnlinkBad dp
      else
        writeDirent dp off ⟨0, List.replicate DIRSIZ 0⟩ .unlinkWritei
        if (← getInode ip).type = T_DIR then
          modifyInode dp fun n => { n with nlink := short (n.nlink - 1) }
          iupdate dp
        iunlockput dp
        modifyInode ip fun n => { n with nlink := short (n.nlink - 1) }
        iupdate ip
        iunlockput ip
        liftM endOp
        return 0 : K ℤ) u (fun _ u => Kept s.tab s u) fun _ _ => True := by
    intro empty u hu
    split_ifs
    · apply (iunlockput_back hT₁ hfm hu).seq
      exact fun _ u hu => finish_refs hT hf hu (-1)
    · apply (still_writeDirent dp _ _ _).next hu
      intro _ u hu
      apply (still_getInode ip).next hu
      intro d u hu
      split_ifs
      · apply (still_setFields (by intro _; rfl)).next hu
        intro _ u hu
        apply (still_iupdate dp).next hu
        exact fun _ u hu => hend u hu
      · exact hend u hu
  split_ifs
  · apply (still_isdirempty ip).next hu
    exact fun empty u hu => hrest empty u hu
  · exact hrest true u hu

theorem sysMake_refs (hT : Ok s.tab) (hc : CwdIn s.tab s) (path : Option Path)
    (type major minor : ℤ) :
    Post (sysMake path type major minor) s (fun _ u => Kept s.tab s u) fun _ _ => True := by
  unfold sysMake
  apply (still_lift _).next (.refl s)
  intro _ u hu
  rcases path with _ | path
  · exact endOp_refs hu (-1)
  dsimp only
  apply (create_refs hT hc hu path type major minor).seq
  rintro (_ | ip) u hu
  · exact endOp_refs hu (-1)
  · obtain ⟨n, hf, hu⟩ := hu
    exact finish_refs hT hf hu 0

theorem sysExec_refs (hT : Ok s.tab) (hc : CwdIn s.tab s) (path : Option Path) (args : Bool)
    (mem : ExecMem) :
    Post (sysExec path args mem) s (fun _ u => Kept s.tab s u) fun _ _ => True := by
  unfold sysExec
  rcases path with _ | path
  · exact post_pure.2 (.refl s)
  dsimp only
  split_ifs
  swap
  · exact post_pure.2 (.refl s)
  unfold exec
  apply (still_lift _).next (.refl s)
  intro _ u hu
  apply (namei_refs hT hc hu path).seq
  rintro (_ | ip) u hu
  · exact endOp_refs hu (-1)
  obtain ⟨n, hf, hu⟩ := hu
  dsimp only
  apply (still_ilock ip).next hu
  intro _ u hu
  apply (still_readKernel ip _ _).next hu
  rintro (_ | l) u hu
  · exact finish_refs hT hf hu (-1)
  dsimp only
  split_ifs
  · exact finish_refs hT hf hu (-1)
  · apply (still_loadFrom ip mem _ _ _).next hu
    intro ok u hu
    split_ifs
    · exact finish_refs hT hf hu _
    · exact finish_refs hT hf hu (-1)

end

/-! One system call of a process that is running. -/

section
variable {δf δi : ℕ → ℤ} {s t : State}

/-- Processes that are not running have no descriptors, and there are `NPROC` slots. -/
structure ProcsOk (ps : TMap FsProc) : Prop where
  dead : ∀ p, (ps.get p).cwd = none → ∀ fd, fd < NOFILE → (ps.get p).ofile.get fd = none
  bound : ∀ p, NPROC ≤ p → (ps.get p).cwd = none

structure During (δf δi : ℕ → ℤ) (s : State) : Prop extends Refs δf δi s where
  procs : ProcsOk s.procs
  alive : (s.procs.get s.cur).cwd ≠ none

theorem ProcsOk.set {ps : TMap FsProc} (h : ProcsOk ps) {p : ℕ} {q : FsProc} (hp : p < NPROC)
    (hq : q.cwd = none → ∀ fd, fd < NOFILE → q.ofile.get fd = none) : ProcsOk (ps.set p q) := by
  constructor
  · intro r
    rw [TMap.get_set]
    split_ifs with hr
    · exact hq
    · exact h.dead r
  · intro r hr
    rw [TMap.get_set_ne _ _ (by omega)]
    exact h.bound r hr

theorem During.cur_lt (h : During δf δi s) : s.cur < NPROC := by
  by_contra hge
  exact h.alive (h.procs.bound s.cur (by omega))

theorem During.same (h : During δf δi s) {φ ι : ℕ → ℤ} (ht : Refs φ ι t) (hp : SameProcs s t) :
    During φ ι t :=
  ⟨ht, hp.1 ▸ h.procs, by rw [hp.1, hp.2]; exact h.alive⟩

theorem During.congr {φ ι : ℕ → ℤ} (h : During δf δi s) (hf : ∀ f, φ f = δf f)
    (hi : ∀ i, ι i = δi i) : During φ ι s := ⟨h.toRefs.congr hf hi, h.procs, h.alive⟩

theorem During.kept (h : During δf δi s) (ht : Kept s.tab s t) : During δf δi t :=
  h.same (h.toRefs.kept ht) ⟨ht.procs, ht.cur⟩

theorem During.got {ip : ℕ} (h : During δf δi s) (ht : Got s.tab s ip t) :
    During δf (δi + one ip) t := by
  have hr := h.toRefs.got ht
  obtain ⟨n, -, ht⟩ := ht
  exact h.same hr ⟨ht.procs, ht.cur⟩

theorem Refs.cwd_count (h : Refs δf δi s) (hδ : ∀ i, 0 ≤ δi i) {p c : ℕ} (hp : p < NPROC)
    (hc : (s.procs.get p).cwd = some c) : 0 < count s.tab c := by
  have h₁ := Finset.single_le_sum (f := fun p => if (s.procs.get p).cwd = some c then 1 else 0)
    (fun _ _ => Nat.zero_le _) (Finset.mem_range.2 hp)
  have h₂ := h.inode c
  have h₃ := hδ c
  simp only [hc, if_true] at h₁
  rw [← cwdUses] at h₁
  omega

theorem During.cwd_count (h : During δf δi s) (hδ : ∀ i, 0 ≤ δi i) :
    ∃ c, (s.procs.get s.cur).cwd = some c ∧ 0 < count s.tab c := by
  obtain ⟨c, hc⟩ := Option.ne_none_iff_exists'.1 h.alive
  exact ⟨c, hc, h.toRefs.cwd_count hδ h.cur_lt hc⟩

theorem During.cwdIn (h : During δf δi s) (hδ : ∀ i, 0 ≤ δi i) : CwdIn s.tab s := by
  obtain ⟨c, hc, hpos⟩ := h.cwd_count hδ
  unfold CwdIn
  rw [hc, Option.getD_some]
  cases hT : s.tab c with
  | none => exact absurd ((count_eq_zero h.ok).2 hT) (by omega)
  | some e => exact ⟨e.1, e.2, rfl⟩

/-- A call that takes and drops no reference keeps the counts. -/
theorem Still.during {α : Type} {m : K α} (hm : Still m) (h : During δf δi s) :
    Post m s (fun _ t => During δf δi t) fun _ _ => True :=
  (hm s).imp fun _ _ ht => h.kept ht

theorem some_use (f g : ℕ) : ((if some f = some g then 1 else 0 : ℕ) : ℤ) = one f g := by
  unfold one
  by_cases h : g = f
  · simp [h]
  · simp [h, Ne.symm h]

theorem one_nonneg (k i : ℕ) : 0 ≤ one k i := by
  unfold one
  split_ifs <;> omega

theorem finish_during {ip : ℕ} (h : During δf (fun i => δi i + one ip i) s)
    (hδ : ∀ i, 0 ≤ δi i) (r : ℤ) :
    Post (do
      iunlockput ip
      liftM endOp
      return r : K ℤ) s (fun _ t => During δf δi t) fun _ _ => True := by
  have hcount : 0 < count s.tab ip := by
    have h₁ := h.inode ip
    have h₂ := hδ ip
    simp only [one, if_true] at h₁
    omega
  apply (iunlockput_refs (.refl s) ip).seq
  intro _ u hu
  apply (still_lift _).next hu
  intro _ v hv
  refine post_pure.2 (h.same ((h.toRefs.dropped hcount hv).congr (fun _ => rfl) fun i => ?_)
    ⟨hv.procs, hv.cur⟩)
  simp only [Pi.sub_apply]
  ring

structure NewFd (s : State) (fd f : ℕ) (t : State) : Prop where
  lt : fd < NOFILE
  free : (s.procs.get s.cur).ofile.get fd = none
  ftable : t.ftable = s.ftable
  ofile : (t.procs.get t.cur).ofile = (s.procs.get s.cur).ofile.set fd (some f)

theorem fdalloc_during {f : ℕ} (h : During (fun g => δf g + one f g) δi s) (hf : f < NFILE) :
    Post (fdalloc f) s (fun r t => match r with
      | none => t = s
      | some fd => During δf δi t ∧ NewFd s fd f t) fun _ _ => True := by
  simp only [fdalloc, post_bind, post_myproc]
  cases hfd : (List.range NOFILE).find? fun fd =>
      decide ((s.procs.get s.cur).ofile.get fd = none) with
  | none => exact post_pure.2 rfl
  | some fd =>
    have hlt : fd < NOFILE := List.mem_range.1 (List.mem_of_find?_eq_some hfd)
    have hnone := List.find?_some hfd
    rw [decide_eq_true_eq] at hnone
    simp only [post_bind, post_modifyProc, post_pure]
    have hset := h.toRefs.setFd (v := some f) (φ := fun g => - one f g) h.cur_lt hlt
      (fun g hg => by
        cases hg
        exact hf)
      (fun g => by
        rw [hnone, some_use]
        simp)
    refine ⟨⟨hset.congr (fun g => by ring) fun _ => rfl, ?_, ?_⟩, ⟨hlt, hnone, rfl, ?_⟩⟩
    · exact h.procs.set h.cur_lt fun hc => absurd hc h.alive
    · simp only [TMap.get_set_self]
      exact h.alive
    · rw [TMap.get_set_self]

theorem During.clearFd {fd f : ℕ} (h : During δf δi s) (hfd : fd < NOFILE)
    (hf : (s.procs.get s.cur).ofile.get fd = some f) :
    During (fun g => δf g + one f g) δi { s with
      procs := s.procs.set s.cur { s.procs.get s.cur with
        ofile := (s.procs.get s.cur).ofile.set fd none } } := by
  have hset := h.toRefs.setFd (v := none) (φ := one f) h.cur_lt hfd (fun g hg => by cases hg)
    (fun g => by
      rw [hf, some_use]
      simp)
  refine ⟨hset, h.procs.set h.cur_lt fun hc => absurd hc h.alive, ?_⟩
  simp only [TMap.get_set_self]
  exact h.alive

theorem post_argfd {fd : ℤ} {Q : Option ℕ → State → Prop} {E : Fault → State → Prop}
    (hnone : Q none s)
    (hsome : ∀ f, fd.toNat < NOFILE → (s.procs.get s.cur).ofile.get fd.toNat = some f →
      Q (some f) s) : Post (argfd fd) s Q E := by
  simp only [argfd, post_ite, post_pure, post_bind, post_myproc]
  refine ⟨fun _ => hnone, fun hr => ?_⟩
  have hlt : fd.toNat < NOFILE := by omega
  cases hf : (s.procs.get s.cur).ofile.get fd.toNat with
  | none => exact hnone
  | some f => exact hsome f hlt hf

theorem sysDup_during (h : During (fun _ => 0) (fun _ => 0) s) (fd : ℤ) :
    Post (sysDup fd) s (fun _ t => During (fun _ => 0) (fun _ => 0) t) fun _ _ => True := by
  unfold sysDup
  rw [post_bind]
  apply post_argfd
  · exact post_pure.2 h
  · intro f hlt hf
    have hfile := h.table _ _ f hf
    have h' : During (fun g => - one f g + one f g) (fun _ => 0) s :=
      h.congr (fun g => by ring) fun _ => rfl
    dsimp only
    apply (fdalloc_during h' hfile).seq
    rintro (_ | fd') u hu
    · subst hu
      exact post_pure.2 h
    · obtain ⟨hu, -⟩ := hu
      apply (filedup_refs hu.toRefs hfile).seq
      rintro _ v ⟨-, hv, hp⟩
      exact post_pure.2 (hu.same (hv.congr (fun g => by ring) fun _ => rfl) hp)

theorem sysClose_during (h : During (fun _ => 0) (fun _ => 0) s) (fd : ℤ) :
    Post (sysClose fd) s (fun _ t => During (fun _ => 0) (fun _ => 0) t) fun _ _ => True := by
  unfold sysClose
  rw [post_bind]
  apply post_argfd
  · exact post_pure.2 h
  · intro f hlt hf
    obtain ⟨hfile, hpos⟩ := h.toRefs.ref_pos h.cur_lt hlt hf le_rfl
    have hclear := h.clearFd hlt hf
    simp only [post_bind, post_modifyProc]
    apply (fileclose_refs hclear.toRefs hfile hpos fun _ => le_rfl).imp
    rintro _ v ⟨hv, hp⟩
    exact post_pure.2 (hclear.same (hv.congr (fun g => by ring) fun _ => rfl) hp)

/-- A file becomes an open inode; the reference the call held goes to it. -/
theorem During.opened {f ip : ℕ} {x : File} (h : During δf (fun i => δi i + one ip i) s)
    (hf : f < NFILE) (href : (s.ftable.get f).ref = 1) (htype : (s.ftable.get f).type = .none)
    (hx : x.ref = 1 ∧ (x.type = .inode ∨ x.type = .device) ∧ x.ip = ip) :
    During δf δi { s with ftable := s.ftable.set f x } := by
  have hold : ∀ i, ¬ (s.ftable.get f).Uses i := by
    rintro i ⟨-, hty, -⟩
    simp [htype] at hty
  have hnew : ∀ i, x.Uses i ↔ i = ip := by
    intro i
    constructor
    · exact fun hu => hu.2.2.symm.trans hx.2.2
    · exact fun hi => ⟨by rw [hx.1]; exact one_pos, hx.2.1, hx.2.2.trans hi.symm⟩
  have hset := h.toRefs.setFile (f := f) (x := x) (ε := 0) (ι := fun i => - one ip i) hf
    (by rw [hx.1, href]; rfl) (fun h0 => absurd (hx.1.symm.trans h0) Nat.one_ne_zero)
    (fun i => by
      rw [if_neg (hold i)]
      simp only [hnew, one]
      split_ifs <;> simp)
  exact h.same (hset.congr (fun g => by ring) fun i => by ring) ⟨rfl, rfl⟩

theorem setUpFile_during {f ip : ℕ} {d : Dinode} {omode : ℕ}
    (h : During δf (fun i => δi i + one ip i) s) (hf : f < NFILE)
    (href : (s.ftable.get f).ref = 1) (htype : (s.ftable.get f).type = .none) :
    Post (setUpFile f ip d omode) s (fun _ t => During δf δi t) fun _ _ => True := by
  rw [setUpFile, post_modifyFile]
  refine h.opened hf href htype ⟨href, ?_, rfl⟩
  dsimp only
  split_ifs
  · exact .inr rfl
  · exact .inl rfl

theorem sysOpenInode_during {ip omode : ℕ} (h : During (fun _ => 0) (one ip) s) :
    Post (sysOpenInode ip omode) s (fun _ t => During (fun _ => 0) (fun _ => 0) t)
      fun _ _ => True := by
  have hbad : ∀ u, During (fun _ => 0) (one ip) u → Post (sysOpenBad ip) u
      (fun _ t => During (fun _ => 0) (fun _ => 0) t) fun _ _ => True := fun u hu =>
    finish_during (hu.congr (fun _ => rfl) fun i => by ring) (fun _ => le_rfl) (-1)
  simp only [sysOpenInode, post_bind, post_getInode]
  split
  · exact hbad s h
  simp only [post_bind]
  apply (filealloc_refs h.toRefs).imp
  rintro (_ | f) u hu
  · subst hu
    exact hbad _ h
  obtain ⟨hnew, hu⟩ := hu
  have hdur := h.same hu hnew.procs
  dsimp only
  apply (fdalloc_during hdur hnew.lt).seq
  rintro (_ | fd) v hv
  · subst hv
    apply (fileclose_refs hu hnew.lt (hnew.ref ▸ one_pos) (one_nonneg ip)).seq
    rintro _ w ⟨hw, hp'⟩
    exact hbad w (hdur.same (hw.congr (fun g => by ring) fun _ => rfl) hp')
  · obtain ⟨hv, hfd⟩ := hv
    have hheld : During (fun _ => 0) (fun i => 0 + one ip i) v :=
      hv.congr (fun _ => rfl) fun i => by ring
    dsimp only
    apply (setUpFile_during hheld hnew.lt (hfd.ftable ▸ hnew.ref) (hfd.ftable ▸ hnew.type)).seq
    intro _ w hw
    have hend : Still (do
        iunlock ip
        liftM endOp
        return (fd : ℤ) : K ℤ) :=
      (still_iunlock ip).bind fun _ => (still_lift _).bind fun _ => still_pure _
    split_ifs
    · exact ((still_itrunc ip).bind fun _ => hend).during hw
    · exact hend.during hw

theorem During.gotInode (h : During (fun _ => 0) (fun _ => 0) s) {ip : ℕ}
    (ht : Got s.tab s ip t) : During (fun _ => 0) (one ip) t :=
  (h.got ht).congr (fun _ => rfl) fun i => by simp

theorem sysOpen_during (h : During (fun _ => 0) (fun _ => 0) s) (path : Option Path)
    (omode : ℕ) :
    Post (sysOpen path omode) s (fun _ t => During (fun _ => 0) (fun _ => 0) t)
      fun _ _ => True := by
  have hc := h.cwdIn fun _ => le_rfl
  unfold sysOpen
  rcases path with _ | path
  · exact post_pure.2 h
  dsimp only
  apply (still_lift _).next (.refl s)
  intro _ u hu
  have hnone : ∀ u, Kept s.tab s u → Post (do
      liftM endOp
      return (-1) : K ℤ) u (fun _ t => During (fun _ => 0) (fun _ => 0) t) fun _ _ => True :=
    fun u hu => (endOp_refs hu (-1)).imp fun _ _ hv => h.kept hv
  split_ifs
  · apply (create_refs h.ok hc hu path T_FILE 0 0).seq
    rintro (_ | ip) v hv
    · exact hnone v hv
    · exact sysOpenInode_during (h.gotInode hv)
  · apply (namei_refs h.ok hc hu path).seq
    rintro (_ | ip) v hv
    · exact hnone v hv
    · have hg := h.gotInode hv
      dsimp only
      apply ((still_ilock ip).during hg).seq
      intro _ w hw
      apply ((still_getInode ip).during hw).seq
      intro d x hx
      split_ifs
      · exact finish_during (hx.congr (fun _ => rfl) fun i => by ring) (fun _ => le_rfl) (-1)
      · exact sysOpenInode_during hx

end

end Xv6
