import Xv6.Fs.RefCalls

/-!
Reference counts over whole runs: `read`, `write`, `chdir`, `pipe`, `fork` and `exit`, the
boot, and every state between two calls.
-/

namespace Xv6
open Hoare RefTable

section
variable {δf δi : ℕ → ℤ} {s t : State}

theorem During.moveFile (h : During δf δi s) {f : ℕ} (hf : f < NFILE) {x : File}
    (hx : x.ref = (s.ftable.get f).ref ∧ x.type = (s.ftable.get f).type ∧
      x.ip = (s.ftable.get f).ip) :
    During δf δi { s with ftable := s.ftable.set f x } := by
  obtain ⟨href, htype, hip⟩ := hx
  have huses : ∀ i, x.Uses i ↔ (s.ftable.get f).Uses i := by
    intro i
    unfold File.Uses
    rw [href, htype, hip]
  have hset := h.toRefs.setFile (x := x) (ε := 0) (ι := fun _ => 0) hf
    (by rw [href, add_zero])
    (fun h0 => htype.trans (h.free f hf (href.symm.trans h0)))
    (fun i => by simp only [huses, add_zero])
  exact h.same (hset.congr (fun g => by ring) fun i => by ring) ⟨rfl, rfl⟩

theorem fileread_during (h : During δf δi s) {f : ℕ} (hf : f < NFILE) (addr : ℕ) (n ext : ℤ) :
    Post (fileread f addr n ext) s (fun _ t => During δf δi t) fun _ _ => True := by
  have hend : ∀ (ip : ℕ) (r : ℤ) u, During δf δi u → Post (do
      iunlock ip
      return r : K ℤ) u (fun _ t => During δf δi t) fun _ _ => True := fun ip r _ hu =>
    ((still_iunlock ip).bind fun _ => still_pure r).during hu
  simp only [fileread, post_bind, post_getFile]
  split
  · exact post_pure.2 h
  split
  · exact post_pure.2 h
  · exact post_pure.2 h
  · apply ((still_ilock _).during h).seq
    intro _ u hu
    apply ((still_readi _ _ _ _).during hu).seq
    rintro ⟨_ | r, dst⟩ v hv
    · exact hend _ _ v hv
    · exact post_bind.2 (post_modifyFile.2 (hend _ _ _ (hv.moveFile hf ⟨rfl, rfl, rfl⟩)))
  · exact post_panic.2 trivial

theorem filewriteLoop_during {f : ℕ} (hf : f < NFILE) (addr n fuel i : ℕ)
    (h : During δf δi s) :
    Post (filewriteLoop f addr n fuel i) s (fun _ t => During δf δi t) fun _ _ => True := by
  induction fuel generalizing i s with
  | zero => exact post_pure.2 h
  | succ fuel ih =>
    have hround : ∀ (ip n₁ : ℕ) (r : Option ℕ) u, During δf δi u → Post (do
        iunlock ip
        liftM endOp
        if r = some n₁ then filewriteLoop f addr n fuel (i + n₁) else return i : K ℕ) u
          (fun _ t => During δf δi t) fun _ _ => True := by
      intro ip n₁ r u hu
      apply ((still_iunlock ip).during hu).seq
      intro _ u hu
      apply ((still_lift _).during hu).seq
      intro _ u hu
      split_ifs
      · exact ih _ hu
      · exact post_pure.2 hu
    unfold filewriteLoop
    split
    · rw [post_bind, post_getFile]
      apply ((still_lift _).during h).seq
      intro _ u hu
      apply ((still_ilock _).during hu).seq
      intro _ u hu
      apply ((still_writei _ _ _ _).during hu).seq
      rintro (_ | r) u hu
      · exact hround _ _ _ u hu
      · exact post_bind.2 (post_modifyFile.2
          (hround _ _ _ _ (hu.moveFile hf ⟨rfl, rfl, rfl⟩)))
    · exact post_pure.2 h

theorem filewrite_during (h : During δf δi s) {f : ℕ} (hf : f < NFILE) (addr : ℕ) (n ext : ℤ) :
    Post (filewrite f addr n ext) s (fun _ t => During δf δi t) fun _ _ => True := by
  simp only [filewrite, post_bind, post_getFile]
  split
  · exact post_pure.2 h
  split
  · exact post_pure.2 h
  · exact post_pure.2 h
  · apply (filewriteLoop_during hf addr _ _ _ h).seq
    exact fun _ _ ht => post_pure.2 ht
  · exact post_panic.2 trivial

theorem argfd_during (h : During δf δi s) (fd : ℤ) {m : ℕ → K ℤ}
    (hm : ∀ f, f < NFILE → Post (m f) s (fun _ t => During δf δi t) fun _ _ => True) :
    Post (argfd fd) s (fun r t => Post (match r with
      | none => return -1
      | some f => m f : K ℤ) t (fun _ t => During δf δi t) fun _ _ => True) fun _ _ => True := by
  apply post_argfd
  · exact post_pure.2 h
  · exact fun f _ hf => hm f (h.table _ _ f hf)

theorem sysRead_during (h : During δf δi s) (fd : ℤ) (addr : ℕ) (n ext : ℤ) :
    Post (sysRead fd addr n ext) s (fun _ t => During δf δi t) fun _ _ => True :=
  post_bind.2 (argfd_during h fd fun _ hf => fileread_during h hf addr n ext)

theorem sysWrite_during (h : During δf δi s) (fd : ℤ) (addr : ℕ) (n ext : ℤ) :
    Post (sysWrite fd addr n ext) s (fun _ t => During δf δi t) fun _ _ => True :=
  post_bind.2 (argfd_during h fd fun _ hf => filewrite_during h hf addr n ext)

/-- The process moves to directory `ip`, to which the call holds a reference; the one to
the old directory is gone already. -/
theorem During.setCwd {c ip : ℕ} (h : During δf (fun i => δi i + one ip i - one c i) s)
    (hc : (s.procs.get s.cur).cwd = some c) :
    During δf δi { s with
      procs := s.procs.set s.cur { s.procs.get s.cur with cwd := some ip } } := by
  have hset := h.toRefs.setProc (q := { s.procs.get s.cur with cwd := some ip })
    (φ := fun _ => 0) (ι := fun i => one c i - one ip i) h.cur_lt
    (fun fd f hf => h.table _ fd f hf) (fun f => add_zero _)
    (fun i => by
      rw [hc, some_use, some_use]
      ring)
  refine ⟨hset.congr (fun g => by ring) fun i => by ring, ?_, ?_⟩
  · exact h.procs.set h.cur_lt fun hn => absurd hn (Option.some_ne_none ip)
  · simp

theorem sysChdir_during (h : During (fun _ => 0) (fun _ => 0) s) (path : Option Path) :
    Post (sysChdir path) s (fun _ t => During (fun _ => 0) (fun _ => 0) t) fun _ _ => True := by
  have hc := h.cwdIn fun _ => le_rfl
  unfold sysChdir
  apply (still_lift _).next (.refl s)
  intro _ u hu
  have hnone : ∀ u, Kept s.tab s u → Post (do
      liftM endOp
      return (-1) : K ℤ) u (fun _ t => During (fun _ => 0) (fun _ => 0) t) fun _ _ => True :=
    fun u hu => (endOp_refs hu (-1)).imp fun _ _ hv => h.kept hv
  rcases path with _ | path
  · exact hnone u hu
  apply (namei_refs h.ok hc hu path).seq
  rintro (_ | ip) v hv
  · exact hnone v hv
  have hg := h.gotInode hv
  dsimp only
  apply ((still_ilock ip).during hg).seq
  intro _ w hw
  apply ((still_getInode ip).during hw).seq
  intro d x hx
  split_ifs
  · exact finish_during (hx.congr (fun _ => rfl) fun i => by ring) (fun _ => le_rfl) (-1)
  · apply ((still_iunlock ip).during hx).seq
    intro _ y hy
    obtain ⟨c, hc, hpos⟩ := hy.cwd_count (one_nonneg ip)
    simp only [post_bind, post_myproc, hc, Option.getD_some]
    apply (iput_tab y c).imp
    intro _ z hz
    have hput := hy.same (hy.toRefs.dropped hpos hz) ⟨hz.procs, hz.cur⟩
    apply (still_lift endOp z).imp
    intro _ z' hz'
    have hend := hput.kept hz'
    have hcwd : (z'.procs.get z'.cur).cwd = some c := by
      rw [hz'.procs, hz'.cur, hz.procs, hz.cur, hc]
    rw [post_modifyProc]
    refine post_pure.2 ((hend.congr (fun _ => rfl) fun i => ?_).setCwd hcwd)
    simp

/-! Pipes. -/

theorem Refs.held_pos {f : ℕ} (h : Refs (fun g => δf g + one f g) δi s) (hf : f < NFILE)
    (hδ : 0 ≤ δf f) : 0 < (s.ftable.get f).ref := by
  have h₁ := h.file f hf
  simp only [one, if_true] at h₁
  omega

theorem During.close {f : ℕ} (h : During (fun g => δf g + one f g) δi s) (hf : f < NFILE)
    (hδ : 0 ≤ δf f) (hδi : ∀ i, 0 ≤ δi i) :
    Post (fileclose f) s (fun _ t => During δf δi t) fun _ _ => True := by
  apply (fileclose_refs h.toRefs hf (h.toRefs.held_pos hf hδ) hδi).imp
  rintro _ t ⟨ht, hp⟩
  exact h.same (ht.congr (fun g => by ring) fun _ => rfl) hp

theorem During.makePipe (h : During δf δi s) {f : ℕ} (hf : f < NFILE)
    (href : (s.ftable.get f).ref = 1) (htype : (s.ftable.get f).type = .none) {x : File}
    (hx : x.ref = 1 ∧ x.type = .pipe) :
    During δf δi { s with ftable := s.ftable.set f x } := by
  have hold : ∀ i, ¬ (s.ftable.get f).Uses i := by
    rintro i ⟨-, hty, -⟩
    simp [htype] at hty
  have hnew : ∀ i, ¬ x.Uses i := by
    rintro i ⟨-, hty, -⟩
    simp [hx.2] at hty
  have hset := h.toRefs.setFile (x := x) (ε := 0) (ι := fun _ => 0) hf
    (by rw [hx.1, href]; rfl) (fun h0 => absurd (hx.1.symm.trans h0) Nat.one_ne_zero)
    (fun i => by simp only [if_neg (hold i), if_neg (hnew i), add_zero])
  exact h.same (hset.congr (fun g => by ring) fun i => by ring) ⟨rfl, rfl⟩

/-- The call holds the two ends of a pipe. -/
def Ends (rf wf : ℕ) (t : State) : Prop :=
  rf < NFILE ∧ wf < NFILE ∧ During (fun g => one wf g + one rf g) (fun _ => 0) t

theorem Ends.bad {rf wf : ℕ} (h : Ends rf wf s) :
    Post (sysPipeBad rf wf) s (fun _ t => During (fun _ => 0) (fun _ => 0) t)
      fun _ _ => True := by
  obtain ⟨hr, hw, h⟩ := h
  apply (h.close hr (one_nonneg wf rf) fun _ => le_rfl).seq
  intro _ u hu
  have hu' : During (fun g => 0 + one wf g) (fun _ => 0) u :=
    hu.congr (fun g => by ring) fun _ => rfl
  apply (hu'.close hw le_rfl fun _ => le_rfl).seq
  exact fun _ v hv => post_pure.2 hv

theorem pipealloc_during (h : During (fun _ => 0) (fun _ => 0) s) (pi : Option ℕ) :
    Post (pipealloc pi) s (fun r t => match r with
      | none => During (fun _ => 0) (fun _ => 0) t
      | some (rf, wf) => Ends rf wf t) fun _ _ => True := by
  unfold pipealloc
  apply (filealloc_refs h.toRefs).seq
  rintro (_ | f0) u hu
  · exact post_pure.2 (hu ▸ h)
  obtain ⟨h0, hu⟩ := hu
  have hu := h.same hu h0.procs
  dsimp only
  apply (filealloc_refs hu.toRefs).seq
  rintro (_ | f1) v hv
  · subst hv
    apply (hu.close h0.lt le_rfl fun _ => le_rfl).seq
    exact fun _ w hw => post_pure.2 hw
  obtain ⟨h1, hv⟩ := hv
  have hv := hu.same hv h1.procs
  have hends : Ends f0 f1 v := ⟨h0.lt, h1.lt, hv.congr (fun g => by ring) fun _ => rfl⟩
  rcases pi with _ | pi
  · have hbad := hends.bad
    simp only [sysPipeBad, post_bind, post_pure] at hbad
    simpa only [post_bind, post_pure] using hbad
  · have hne : f0 ≠ f1 := by
      rintro rfl
      exact absurd (h1.free.symm.trans h0.ref) Nat.zero_ne_one
    have hkeep := h1.others f0 hne
    simp only [post_bind, post_modifyFile, post_pure]
    have hp0 := hends.2.2.makePipe (f := f0) h0.lt (by rw [hkeep, h0.ref])
      (by rw [hkeep, h0.type]) (x := { v.ftable.get f0 with
        type := .pipe, readable := true, writable := false, pipe := pi })
      ⟨by rw [hkeep]; exact h0.ref, rfl⟩
    refine ⟨h0.lt, h1.lt, hp0.makePipe h1.lt ?_ ?_ ⟨?_, rfl⟩⟩
    · rw [TMap.get_set_ne _ _ hne.symm, h1.ref]
    · rw [TMap.get_set_ne _ _ hne.symm, h1.type]
    · rw [TMap.get_set_ne _ _ hne.symm]
      exact h1.ref

theorem still_copyoutInt (a n : ℕ) : Still (copyoutInt a n) := by
  intro s
  simp only [copyoutInt, post_bind, post_get, post_modify, post_pure]
  exact ⟨rfl, rfl, rfl, rfl⟩

theorem unpipe_during {fd0 fd1 rf wf : ℕ} (h : During (fun _ => 0) (fun _ => 0) s)
    (hr : rf < NFILE) (hw : wf < NFILE) (h0 : fd0 < NOFILE) (h1 : fd1 < NOFILE)
    (hne : fd1 ≠ fd0) (hrf : (s.procs.get s.cur).ofile.get fd0 = some rf)
    (hwf : (s.procs.get s.cur).ofile.get fd1 = some wf) :
    Post (do
      clearFd fd0
      clearFd fd1
      sysPipeBad rf wf) s (fun _ t => During (fun _ => 0) (fun _ => 0) t) fun _ _ => True := by
  have hc0 := h.clearFd h0 hrf
  have hc1 := hc0.clearFd (f := wf) h1 (by
    simp only [TMap.get_set_self, TMap.get_set_ne _ _ hne]
    exact hwf)
  rw [post_bind, clearFd, post_modifyProc, post_bind, clearFd, post_modifyProc]
  exact Ends.bad ⟨hr, hw, hc1.congr (fun g => by ring) fun _ => rfl⟩

theorem sysPipe_during (h : During (fun _ => 0) (fun _ => 0) s) (fdarray : ℕ)
    (pi : Option ℕ) :
    Post (sysPipe fdarray pi) s (fun _ t => During (fun _ => 0) (fun _ => 0) t)
      fun _ _ => True := by
  unfold sysPipe
  apply (pipealloc_during h pi).seq
  rintro (_ | ⟨rf, wf⟩) u hu
  · exact post_pure.2 hu
  have hends := hu
  obtain ⟨hr, hw, hu⟩ := hu
  dsimp only
  apply (fdalloc_during hu hr).seq
  rintro (_ | fd0) v hv
  · exact hv ▸ hends.bad
  obtain ⟨hv, h0⟩ := hv
  have hv' : During (fun g => 0 + one wf g) (fun _ => 0) v :=
    hv.congr (fun g => by ring) fun _ => rfl
  have hrf : (v.procs.get v.cur).ofile.get fd0 = some rf := by
    rw [h0.ofile, TMap.get_set_self]
  dsimp only
  apply (fdalloc_during hv' hw).seq
  rintro (_ | fd1) w hwv
  · subst hwv
    have hclear := hv.clearFd h0.lt hrf
    dsimp only
    rw [post_bind, clearFd, post_modifyProc]
    exact Ends.bad ⟨hr, hw, hclear⟩
  obtain ⟨hw', h1⟩ := hwv
  have hne : fd1 ≠ fd0 := by
    rintro rfl
    exact absurd (h1.free.symm.trans hrf) (Option.some_ne_none rf).symm
  have hfail : ∀ x, Kept w.tab w x → Post (do
      clearFd fd0
      clearFd fd1
      sysPipeBad rf wf) x (fun _ t => During (fun _ => 0) (fun _ => 0) t) fun _ _ => True := by
    intro x hx
    apply unpipe_during (hw'.kept hx) hr hw h0.lt h1.lt hne
    · rw [hx.procs, hx.cur, h1.ofile, TMap.get_set_ne _ _ hne.symm, hrf]
    · rw [hx.procs, hx.cur, h1.ofile, TMap.get_set_self]
  dsimp only
  apply (still_copyoutInt _ _).next (.refl w)
  intro ok x hx
  cases ok with
  | false => exact hfail x hx
  | true =>
    apply (still_copyoutInt _ _).next hx
    intro ok y hy
    cases ok with
    | false => exact hfail y hy
    | true => exact post_pure.2 (hw'.kept hy)

/-! `fork` and `exit`. -/

/-- `fork` called in `s` has given the new process `np` the descriptors below `i`. -/
structure Forking (s : State) (np i : ℕ) (t : State) : Prop where
  refs : Refs (fun _ => 0) (fun _ => 0) t
  cur : t.cur = s.cur
  others : ∀ p, p ≠ np → t.procs.get p = s.procs.get p
  cwd : (t.procs.get np).cwd = none
  rest : ∀ k, i ≤ k → k < NOFILE → (t.procs.get np).ofile.get k = none

theorem Forking.caller {np i : ℕ} (h : Forking s np i t) (hne : s.cur ≠ np) :
    t.procs.get t.cur = s.procs.get s.cur := by
  rw [h.cur, h.others _ hne]

theorem forkFiles_forking {np : ℕ} (hs : During (fun _ => 0) (fun _ => 0) s)
    (hnp : np < NPROC) (hne : s.cur ≠ np) (n i : ℕ) (hi : i + n = NOFILE)
    (h : Forking s np i t) :
    Post (forkFiles np i n) t (fun _ u => Forking s np NOFILE u) fun _ _ => True := by
  induction n generalizing i t with
  | zero => exact post_pure.2 (by rwa [show i = NOFILE from hi] at h)
  | succ n ih =>
    have hcur := hs.cur_lt
    have hlti : i < NOFILE := by omega
    simp only [forkFiles, post_bind, post_myproc, h.caller hne]
    cases hf : (s.procs.get s.cur).ofile.get i with
    | none =>
      refine ih (i + 1) (by omega) ⟨h.refs, h.cur, h.others, h.cwd, fun k hk => ?_⟩
      exact h.rest k (by omega)
    | some f =>
      have hf' : (t.procs.get s.cur).ofile.get i = some f := by rw [h.others _ hne, hf]
      obtain ⟨hlt, -⟩ := h.refs.ref_pos hcur hlti hf' le_rfl
      simp only [post_bind]
      apply (filedup_refs h.refs hlt).imp
      rintro f' u ⟨hdup, hu, hp, hc⟩
      rw [post_modify, hdup]
      have hfree : (u.procs.get np).ofile.get i = none := by
        rw [hp]
        exact h.rest i le_rfl hlti
      have hset := hu.setFd (v := some f) (φ := fun g => - one f g) hnp hlti
        (fun g hg => by
          cases hg
          exact hlt)
        (fun g => by
          rw [hfree, some_use]
          simp)
      refine ih (i + 1) (by omega) ⟨hset.congr (fun g => by ring) fun _ => rfl, ?_, ?_, ?_, ?_⟩
      · exact hc.trans h.cur
      · intro p hpn
        simp only [TMap.get_set_ne _ _ hpn, hp, h.others p hpn]
      · simp only [TMap.get_set_self, hp, h.cwd]
      · intro k hk hk'
        simp only [TMap.get_set_self, TMap.get_set_ne _ _ (show k ≠ i by omega), hp]
        exact h.rest k (by omega) hk'

/-- The current directory goes to the new process as well, which is complete then. -/
theorem forkFs_during {np : ℕ} (h : During (fun _ => 0) (fun _ => 0) s) (hnp : np < NPROC)
    (hdead : (s.procs.get np).cwd = none) :
    Post (forkFs np) s (fun _ t => During (fun _ => 0) (fun _ => 0) t) fun _ _ => True := by
  have hne : s.cur ≠ np := by
    rintro rfl
    exact h.alive hdead
  have hstart : Forking s np 0 s :=
    ⟨h.toRefs, rfl, fun _ _ => rfl, hdead, fun k _ hk => h.procs.dead np hdead k hk⟩
  unfold forkFs
  apply (forkFiles_forking h hnp hne NOFILE 0 (zero_add _) hstart).seq
  intro _ t ht
  obtain ⟨c, hc⟩ := Option.ne_none_iff_exists'.1 h.alive
  have hpos := ht.refs.cwd_count (fun _ => le_rfl) h.cur_lt (by rw [ht.others _ hne, hc])
  obtain ⟨⟨r, n⟩, hT⟩ : ∃ e, t.tab c = some e :=
    Option.ne_none_iff_exists'.1 fun h0 => hpos.ne' ((count_eq_zero ht.refs.ok).2 h0)
  simp only [post_bind, post_myproc, ht.caller hne, hc, Option.getD_some]
  apply (idup_tab hT).imp
  rintro d u ⟨hdup, hu⟩
  have hrefs := ht.refs.got ⟨n, .of_some hT, hu⟩
  rw [post_modify, hdup]
  have hnone : (u.procs.get np).cwd = none := by rw [hu.procs, ht.cwd]
  have hset := hrefs.setProc (q := { u.procs.get np with cwd := some c }) (φ := fun _ => 0)
    (ι := fun i => - one c i) hnp (fun fd f hf => hrefs.table np fd f hf) (fun f => add_zero _)
    (fun i => by
      rw [hnone, some_use]
      simp)
  refine ⟨hset.congr (fun g => by ring) fun i => by simp, ?_, ?_⟩
  · have hothers : ∀ p, p ≠ np → u.procs.get p = s.procs.get p := by
      intro p hp
      rw [hu.procs, ht.others p hp]
    constructor
    · intro p
      by_cases hp : p = np
      · subst hp
        rw [TMap.get_set_self]
        exact fun hn => absurd hn (Option.some_ne_none c)
      · rw [TMap.get_set_ne _ _ hp, hothers p hp]
        exact h.procs.dead p
    · intro p hp
      rw [TMap.get_set_ne _ _ (by omega), hothers p (by omega)]
      exact h.procs.bound p hp
  · have hcur : u.cur = s.cur := hu.cur.trans ht.cur
    simp only [hcur, TMap.get_set_ne _ _ hne, hu.procs, ht.others _ hne]
    exact h.alive

theorem exitFiles_during (n fd : ℕ) (hfd : fd + n = NOFILE)
    (h : During (fun _ => 0) (fun _ => 0) s)
    (hclosed : ∀ k, k < fd → (s.procs.get s.cur).ofile.get k = none) :
    Post (exitFiles fd n) s (fun _ t => During (fun _ => 0) (fun _ => 0) t ∧
      ∀ k, k < NOFILE → (t.procs.get t.cur).ofile.get k = none) fun _ _ => True := by
  induction n generalizing fd s with
  | zero => exact post_pure.2 ⟨h, by rwa [show fd = NOFILE from hfd] at hclosed⟩
  | succ n ih =>
    simp only [exitFiles, post_bind, post_myproc]
    cases hf : (s.procs.get s.cur).ofile.get fd with
    | none =>
      refine ih (fd + 1) (by omega) h fun k hk => ?_
      rcases Nat.lt_succ_iff_lt_or_eq.1 hk with hk | rfl
      · exact hclosed k hk
      · exact hf
    | some f =>
      obtain ⟨hlt, hpos⟩ := h.toRefs.ref_pos h.cur_lt (by omega) hf le_rfl
      simp only [post_bind]
      apply (fileclose_refs h.toRefs hlt hpos fun _ => le_rfl).imp
      rintro _ u ⟨hu, hp⟩
      have hdur := h.same hu hp
      have hf' : (u.procs.get u.cur).ofile.get fd = some f := by rw [hp.1, hp.2, hf]
      rw [post_modifyProc]
      refine ih (fd + 1) (by omega)
        ((hdur.clearFd (by omega) hf').congr (fun g => by ring) fun _ => rfl) fun k hk => ?_
      simp only [TMap.get_set_self]
      rw [TMap.get_set]
      split_ifs with hkf
      · rfl
      · rw [hp.1, hp.2]
        exact hclosed k (by omega)

structure Between (s : State) : Prop extends Refs (fun _ => 0) (fun _ => 0) s where
  procs : ProcsOk s.procs

theorem During.between (h : During (fun _ => 0) (fun _ => 0) s) : Between s :=
  ⟨h.toRefs, h.procs⟩

theorem exitFs_between (h : During (fun _ => 0) (fun _ => 0) s) :
    Post exitFs s (fun _ t => Between t) fun _ _ => True := by
  unfold exitFs
  apply (exitFiles_during NOFILE 0 (zero_add _) h fun k hk => absurd hk (Nat.not_lt_zero k)).seq
  rintro _ t ⟨ht, hclosed⟩
  apply (still_lift beginOp t).seq
  intro _ u hu
  have hdur := ht.kept hu
  obtain ⟨c, hc, hpos⟩ := hdur.cwd_count fun _ => le_rfl
  simp only [post_bind, post_myproc, hc, Option.getD_some]
  apply (iput_tab u c).imp
  intro _ v hv
  apply (still_lift endOp v).imp
  intro _ w hw
  rw [post_modifyProc]
  have hrefs := (hdur.toRefs.dropped hpos hv).kept hw
  have hprocs : w.procs = t.procs := hw.procs.trans (hv.procs.trans hu.procs)
  have hcur : w.cur = t.cur := hw.cur.trans (hv.cur.trans hu.cur)
  have hcwd : (w.procs.get w.cur).cwd = some c := by
    rw [hprocs, hcur, ← hu.procs, ← hu.cur, hc]
  have hlt : w.cur < NPROC := hcur ▸ ht.cur_lt
  have hset := hrefs.setProc (q := { w.procs.get w.cur with cwd := none }) (φ := fun _ => 0)
    (ι := one c) hlt (fun fd f hf => hrefs.table _ fd f hf) (fun f => add_zero _)
    (fun i => by
      rw [hcwd, some_use]
      simp)
  refine ⟨hset.congr (fun g => by ring) fun i => by simp, ?_⟩
  apply ProcsOk.set (hprocs ▸ ht.procs) hlt
  rw [hprocs, hcur]
  exact fun _ => hclosed

/-! Whole runs. -/

theorem refs_powerOn (disk : TMap Block) :
    Refs (fun _ => 0) (fun _ => 0) (powerOn disk) := by
  have htab : (powerOn disk).tab = fun _ => none := by
    funext i
    exact if_neg fun h => h.2 rfl
  refine ⟨?_, ?_, ?_, ?_, ?_⟩
  · rw [htab]
    exact ⟨fun _ _ h => Option.some_ne_none _ h.symm, fun _ _ _ _ _ h => nomatch h⟩
  · intro i
    have h₁ : fileUses (powerOn disk).ftable i = 0 :=
      Finset.sum_eq_zero fun f _ => if_neg fun h => lt_irrefl 0 h.1
    have h₂ : cwdUses (powerOn disk).procs i = 0 :=
      Finset.sum_eq_zero fun p _ => if_neg fun h => nomatch h
    rw [htab, h₁, h₂]
    rfl
  · intro f _
    have h : fdUses (powerOn disk).procs f = 0 :=
      Finset.sum_eq_zero fun p _ => Finset.sum_eq_zero fun fd _ => if_neg fun h => nomatch h
    rw [h]
    rfl
  · exact fun _ _ _ => rfl
  · exact fun _ _ _ h => nomatch h

theorem still_fsinit (dev : ℕ) : Still (fsinit dev) := by
  unfold fsinit
  refine (still_lift _).bind fun bp => (still_lift _).bind fun b => ?_
  have hsb : ∀ sb : Superblock, Still (modify fun s => { s with sb := sb } : K Unit) :=
    fun sb s => post_modify.2 ⟨rfl, rfl, rfl, rfl⟩
  refine (hsb _).bind fun _ => (still_lift _).bind fun _ => ?_
  exact ((still_panic _).bind fun _ => still_lift _).ite (still_lift _)

theorem boot_between (disk : TMap Block) :
    Post boot (powerOn disk) (fun _ t => Between t) fun _ _ => True := by
  have h := refs_powerOn disk
  have habs : [SLASH].head? ≠ some SLASH → CwdIn (powerOn disk).tab (powerOn disk) :=
    fun hrel => absurd rfl hrel
  unfold boot
  apply (nameiFrom_refs h.ok habs (.refl _)).seq
  intro root u hu
  have hset : Between { u with
      procs := u.procs.set u.cur { u.procs.get u.cur with cwd := root } } := by
    have hfields : u.procs = .empty ∧ u.cur = 0 ∧ ∀ ι : ℕ → ℤ,
        (∀ i, ((if root = some i then 1 else 0 : ℕ) : ℤ) = ι i) →
          Refs (fun _ => 0) ι u := by
      cases root with
      | none =>
        refine ⟨hu.procs, hu.cur, fun ι hι => (h.kept hu).congr (fun _ => rfl) fun i => ?_⟩
        rw [← hι i]
        rfl
      | some ip =>
        have hgot := h.got hu
        obtain ⟨n, -, hu⟩ := hu
        refine ⟨hu.procs, hu.cur, fun ι hι => hgot.congr (fun _ => rfl) fun i => ?_⟩
        rw [← hι i, some_use]
        simp
    obtain ⟨hprocs, hcur, hrefs⟩ := hfields
    have hlt : u.cur < NPROC := by
      rw [hcur]
      decide
    have hrefs := hrefs _ fun i => rfl
    have hp := hrefs.setProc (q := { u.procs.get u.cur with cwd := root }) (φ := fun _ => 0)
      (ι := fun i => - ((if root = some i then 1 else 0 : ℕ) : ℤ)) hlt
      (fun fd f hf => hrefs.table _ fd f hf) (fun f => add_zero _)
      (fun i => by
        rw [hprocs, add_neg_cancel]
        rfl)
    refine ⟨hp.congr (fun _ => by ring) fun i => by ring, ?_⟩
    rw [hprocs]
    have hempty : ProcsOk .empty := ⟨fun _ _ _ _ => rfl, fun _ _ => rfl⟩
    exact hempty.set hlt fun _ _ _ => rfl
  rw [post_bind, post_modifyProc]
  apply (still_fsinit ROOTDEV _).imp
  exact fun _ v hv => ⟨hset.toRefs.kept hv, hv.procs ▸ hset.procs⟩

/-- One call of a process that is running. -/
theorem Syscall.run_between (sys : Syscall) (h : During (fun _ => 0) (fun _ => 0) s)
    (hfork : ∀ np, sys = .fork (some np) → np < NPROC ∧ (s.procs.get np).cwd = none) :
    Post sys.run s (fun _ t => Between t) fun _ _ => True := by
  have hc := h.cwdIn fun _ => le_rfl
  have hkept : ∀ {m : K ℤ}, Post m s (fun _ t => Kept s.tab s t) (fun _ _ => True) →
      Post m s (fun _ t => Between t) fun _ _ => True :=
    fun hm => hm.imp fun _ _ ht => (h.kept ht).between
  have hdur : ∀ {m : K ℤ}, Post m s (fun _ t => During (fun _ => 0) (fun _ => 0) t)
      (fun _ _ => True) → Post m s (fun _ t => Between t) fun _ _ => True :=
    fun hm => hm.imp fun _ _ ht => ht.between
  cases sys with
  | dup fd => exact hdur (sysDup_during h fd)
  | read fd addr n ext => exact hdur (sysRead_during h fd addr n ext)
  | write fd addr n ext => exact hdur (sysWrite_during h fd addr n ext)
  | close fd => exact hdur (sysClose_during h fd)
  | link old new => exact hkept (sysLink_refs h.ok hc old new)
  | unlink path => exact hkept (sysUnlink_refs h.ok hc path)
  | «open» path omode => exact hdur (sysOpen_during h path omode)
  | mkdir path => exact hkept (sysMake_refs h.ok hc path _ _ _)
  | mknod path major minor => exact hkept (sysMake_refs h.ok hc path _ _ _)
  | chdir path => exact hdur (sysChdir_during h path)
  | pipe fdarray pi => exact hdur (sysPipe_during h fdarray pi)
  | exec path args mem => exact hkept (sysExec_refs h.ok hc path args mem)
  | fork np =>
    cases np with
    | none => exact post_pure.2 h.between
    | some np =>
      obtain ⟨hnp, hdead⟩ := hfork np rfl
      apply (forkFs_during h hnp hdead).seq
      exact fun _ t ht => post_pure.2 ht.between
  | exit =>
    apply (exitFs_between h).seq
    exact fun _ t ht => post_pure.2 ht

theorem Between.next {c : Call} (h : Between s) (ht : c.next s = some t) : Between t := by
  unfold Call.next at ht
  split_ifs at ht with hen
  cases hrun : c.run s with
  | error e u => rw [hrun] at ht; cases ht
  | ok r u =>
    rw [hrun] at ht
    cases ht
    unfold Call.enabled at hen
    rw [Bool.and_eq_true] at hen
    obtain ⟨halive, hen⟩ := hen
    have hdur : During (fun _ => 0) (fun _ => 0) { s with cur := c.pid, umem := c.umem } :=
      ⟨⟨h.ok, h.inode, h.file, h.free, h.table⟩, h.procs,
        Option.ne_none_iff_isSome.2 halive⟩
    have hpost : Post c.run s (fun _ t => Between t) fun _ _ => True := by
      simp only [Call.run, post_bind, post_modify]
      apply c.sys.run_between hdur
      intro np hnp
      rw [hnp] at hen
      simpa [alive] using hen
    exact hpost.of_ok hrun

theorem Reached.between {disk : TMap Block} (h : Reached disk s) : Between s :=
  h.invariant (fun _ hs => (boot_between disk).of_ok hs) fun _ _ _ hs ht => hs.next ht

end

/-! Counts as numbers of references. -/

/-- Descriptor slots, over all processes, that point to file `f`. -/
def descriptors (s : State) (f : ℕ) : Finset (ℕ × ℕ) :=
  (Finset.range NPROC ×ˢ Finset.range NOFILE).filter fun q =>
    (s.procs.get q.1).ofile.get q.2 = some f

/-- Files in use that are inodes or devices and stand for entry `i` of the inode table. -/
def inodeFiles (s : State) (i : ℕ) : Finset ℕ :=
  (Finset.range NFILE).filter fun f => (s.ftable.get f).Uses i

/-- Processes whose current directory is entry `i` of the inode table. -/
def cwdProcs (s : State) (i : ℕ) : Finset ℕ :=
  (Finset.range NPROC).filter fun p => (s.procs.get p).cwd = some i

theorem card_descriptors (s : State) (f : ℕ) : (descriptors s f).card = fdUses s.procs f := by
  rw [descriptors, Finset.card_filter, Finset.sum_product]
  rfl

theorem card_inodeFiles (s : State) (i : ℕ) : (inodeFiles s i).card = fileUses s.ftable i :=
  Finset.card_filter _ _

theorem card_cwdProcs (s : State) (i : ℕ) : (cwdProcs s i).card = cwdUses s.procs i :=
  Finset.card_filter _ _

/-- In every state between two calls the counts are the numbers of references, an inode has
one entry of the table at most, and a free file has no type. -/
theorem reference_counts {disk : TMap Block} {s : State} (h : Reached disk s) :
    (∀ f, f < NFILE → (s.ftable.get f).ref = (descriptors s f).card) ∧
    (∀ i, i < NINODE →
      (s.itable.get i).ref = (inodeFiles s i).card + (cwdProcs s i).card) ∧
    (∀ i j, i < NINODE → j < NINODE → 0 < (s.itable.get i).ref → 0 < (s.itable.get j).ref →
      (s.itable.get i).dev = (s.itable.get j).dev →
      (s.itable.get i).inum = (s.itable.get j).inum → i = j) ∧
    ∀ f, f < NFILE → (s.ftable.get f).ref = 0 → (s.ftable.get f).type = .none := by
  have hb := h.between
  refine ⟨?_, ?_, ?_, hb.free⟩
  · intro f hf
    have := hb.file f hf
    rw [card_descriptors]
    omega
  · intro i hi
    have h₁ := hb.inode i
    have h₂ : count s.tab i = (s.itable.get i).ref := by
      unfold State.tab count
      by_cases h0 : (s.itable.get i).ref = 0
      · simp [h0]
      · simp [hi, h0]
    rw [card_inodeFiles, card_cwdProcs]
    omega
  · intro i j hi hj hri hrj hdev hinum
    refine hb.ok.unique i j (s.itable.get i).ref (s.itable.get j).ref
      ((s.itable.get i).dev, (s.itable.get i).inum) ?_ ?_
    · exact tab_eq_some.2 ⟨hi, hri.ne', rfl, rfl, rfl⟩
    · exact tab_eq_some.2 ⟨hj, hrj.ne', rfl, hdev.symm, hinum.symm⟩

/-- `mkdir /d`, `open /d/f` and `fork`; the child moves to `/d`, has a `pipe` fail at the
copy of the descriptors, and duplicates the descriptor of the file. -/
def forkDup : List Call :=
  [⟨0, .empty, .mkdir (some [SLASH, 100])⟩,
   ⟨0, .empty, .open (some [SLASH, 100, SLASH, 102]) (O_CREATE ||| O_RDWR)⟩,
   ⟨0, .empty, .fork (some 1)⟩,
   ⟨1, .empty, .chdir (some [SLASH, 100])⟩,
   ⟨1, .empty, .pipe 0 (some 0)⟩,
   ⟨1, .empty, .dup 0⟩]

theorem reference_counts_forkDup : ∃ disk s, Mkfs.image [] = some disk ∧ Reached disk s ∧
    (s.ftable.get 0).ref = 3 ∧ (descriptors s 0).card = 3 := by
  have hrun : ((Mkfs.image []).any fun disk => (runOn disk forkDup).any fun s =>
      decide ((s.ftable.get 0).ref = 3)) = true := by
    decide +kernel
  obtain ⟨disk, hdisk, hrun⟩ := (Option.any_eq_true _ _).1 hrun
  obtain ⟨s, hs, href⟩ := (Option.any_eq_true _ _).1 hrun
  rw [decide_eq_true_eq] at href
  have hr : Reached disk s := reached_runOn hs
  have hcount := (reference_counts hr).1 0 (by decide)
  exact ⟨disk, s, hdisk, hr, href, hcount.symm.trans href⟩

end Xv6
