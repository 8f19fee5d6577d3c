import Xv6.Lib.Count
import Xv6.Fs.RefSpec

/-!
Counting references. `Refs` says that the counts in the inode table and in the file table
are the numbers of descriptors, files and current directories that refer to an entry, up
to references that a call in progress holds itself.
-/

namespace Xv6
open Hoare RefTable

/-- File `x` holds a reference to entry `i` of the inode table. -/
def File.Uses (x : File) (i : ℕ) : Prop :=
  0 < x.ref ∧ (x.type = .inode ∨ x.type = .device) ∧ x.ip = i

instance (x : File) (i : ℕ) : Decidable (x.Uses i) := by
  unfold File.Uses
  infer_instance

/-- Files that refer to entry `i` of the inode table. -/
def fileUses (ft : TMap File) (i : ℕ) : ℕ :=
  ∑ f ∈ Finset.range NFILE, if (ft.get f).Uses i then 1 else 0

/-- Processes with entry `i` as their current directory. -/
def cwdUses (ps : TMap FsProc) (i : ℕ) : ℕ :=
  ∑ p ∈ Finset.range NPROC, if (ps.get p).cwd = some i then 1 else 0

/-- Descriptors of a process for file `f`. -/
def FsProc.fdUses (p : FsProc) (f : ℕ) : ℕ :=
  ∑ fd ∈ Finset.range NOFILE, if p.ofile.get fd = some f then 1 else 0

def fdUses (ps : TMap FsProc) (f : ℕ) : ℕ := ∑ p ∈ Finset.range NPROC, (ps.get p).fdUses f

def one (k j : ℕ) : ℤ := if j = k then 1 else 0

/-- Counts are the uses, up to `δf` references to files and `δi` to inodes that the call
in progress holds. -/
structure Refs (δf δi : ℕ → ℤ) (s : State) : Prop where
  ok : Ok s.tab
  inode : ∀ i, (count s.tab i : ℤ) = fileUses s.ftable i + cwdUses s.procs i + δi i
  file : ∀ f, f < NFILE → ((s.ftable.get f).ref : ℤ) = fdUses s.procs f + δf f
  free : ∀ f, f < NFILE → (s.ftable.get f).ref = 0 → (s.ftable.get f).type = .none
  table : ∀ p fd f, (s.procs.get p).ofile.get fd = some f → f < NFILE

section
variable {δf δi : ℕ → ℤ} {s t : State}

theorem Refs.kept (h : Refs δf δi s) (ht : Kept s.tab s t) : Refs δf δi t := by
  refine ⟨ht.tab ▸ h.ok, ?_, ?_, ?_, ?_⟩
  · rw [ht.tab, ht.ftable, ht.procs]
    exact h.inode
  · rw [ht.ftable, ht.procs]
    exact h.file
  · rw [ht.ftable]
    exact h.free
  · rw [ht.procs]
    exact h.table

theorem Refs.got {ip : ℕ} (h : Refs δf δi s) (ht : Got s.tab s ip t) :
    Refs δf (δi + one ip) t := by
  obtain ⟨n, hf, ht⟩ := ht
  refine ⟨?_, ?_, ?_, ?_, ?_⟩
  · rw [ht.tab]
    exact h.ok.afterTake hf
  · intro i
    have := h.inode i
    rw [ht.tab, ht.ftable, ht.procs, count_take, Pi.add_apply, one]
    split_ifs <;> push_cast <;> omega
  · rw [ht.ftable, ht.procs]
    exact h.file
  · rw [ht.ftable]
    exact h.free
  · rw [ht.procs]
    exact h.table

theorem Refs.dropped {ip : ℕ} (h : Refs δf δi s) (hpos : 0 < count s.tab ip)
    (ht : Kept (drop s.tab ip) s t) : Refs δf (δi - one ip) t := by
  refine ⟨?_, ?_, ?_, ?_, ?_⟩
  · rw [ht.tab]
    exact h.ok.afterDrop
  · intro i
    have := h.inode i
    rw [ht.tab, ht.ftable, ht.procs, count_drop, Pi.sub_apply, one]
    split_ifs with hi
    · subst hi
      omega
    · omega
  · rw [ht.ftable, ht.procs]
    exact h.file
  · rw [ht.ftable]
    exact h.free
  · rw [ht.procs]
    exact h.table

theorem fileUses_set (ft : TMap File) {f : ℕ} (hf : f < NFILE) (x : File) (i : ℕ) :
    fileUses (ft.set f x) i + (if (ft.get f).Uses i then 1 else 0) =
      fileUses ft i + if x.Uses i then 1 else 0 := by
  have h := Count.sum_change (f := fun g => if (ft.get g).Uses i then 1 else 0)
    (g := fun g => if ((ft.set f x).get g).Uses i then 1 else 0) hf
    fun j hj => by rw [TMap.get_set_ne _ _ hj]
  simpa only [TMap.get_set_self, fileUses] using h

theorem Refs.setFile {f : ℕ} {x : File} {ε : ℤ} {ι : ℕ → ℤ} (h : Refs δf δi s) (hf : f < NFILE)
    (href : (x.ref : ℤ) = (s.ftable.get f).ref + ε) (hfree : x.ref = 0 → x.type = .none)
    (hι : ∀ i, ((if x.Uses i then 1 else 0 : ℕ) : ℤ) + ι i =
      (if (s.ftable.get f).Uses i then 1 else 0 : ℕ)) :
    Refs (fun g => δf g + ε * one f g) (fun i => δi i + ι i)
      { s with ftable := s.ftable.set f x } := by
  refine ⟨h.ok, ?_, ?_, ?_, h.table⟩
  · intro i
    have h₁ := h.inode i
    have h₂ := fileUses_set s.ftable hf x i
    have h₃ := hι i
    show (count s.tab i : ℤ) = fileUses (s.ftable.set f x) i + cwdUses s.procs i + (δi i + ι i)
    omega
  · intro g hg
    show (((s.ftable.set f x).get g).ref : ℤ) = fdUses s.procs g + (δf g + ε * one f g)
    have h₁ := h.file g hg
    rw [TMap.get_set, one]
    split_ifs with hgf
    · subst hgf
      rw [href]
      omega
    · omega
  · intro g hg
    show ((s.ftable.set f x).get g).ref = 0 → ((s.ftable.set f x).get g).type = .none
    rw [TMap.get_set]
    split_ifs with hgf
    · exact hfree
    · exact h.free g hg

theorem Refs.setProc {p : ℕ} {q : FsProc} (h : Refs δf δi s) (hp : p < NPROC)
    (htable : ∀ fd f, q.ofile.get fd = some f → f < NFILE) {φ ι : ℕ → ℤ}
    (hφ : ∀ f, (q.fdUses f : ℤ) + φ f = (s.procs.get p).fdUses f)
    (hι : ∀ i, ((if q.cwd = some i then 1 else 0 : ℕ) : ℤ) + ι i =
      (if (s.procs.get p).cwd = some i then 1 else 0 : ℕ)) :
    Refs (fun f => δf f + φ f) (fun i => δi i + ι i) { s with procs := s.procs.set p q } := by
  refine ⟨h.ok, ?_, ?_, h.free, ?_⟩
  · intro i
    have h₁ := h.inode i
    have h₂ := Count.sum_change (f := fun r => if (s.procs.get r).cwd = some i then 1 else 0)
      (g := fun r => if ((s.procs.set p q).get r).cwd = some i then 1 else 0) hp
      fun j hj => by rw [TMap.get_set_ne _ _ hj]
    have h₃ := hι i
    simp only [TMap.get_set_self] at h₂
    rw [← cwdUses, ← cwdUses] at h₂
    show (count s.tab i : ℤ) = fileUses s.ftable i + cwdUses (s.procs.set p q) i + (δi i + ι i)
    omega
  · intro f hf
    have h₁ := h.file f hf
    have h₂ := Count.sum_change (f := fun r => (s.procs.get r).fdUses f)
      (g := fun r => ((s.procs.set p q).get r).fdUses f) hp
      fun j hj => by rw [TMap.get_set_ne _ _ hj]
    have h₃ := hφ f
    simp only [TMap.get_set_self] at h₂
    rw [← fdUses, ← fdUses] at h₂
    show ((s.ftable.get f).ref : ℤ) = fdUses (s.procs.set p q) f + (δf f + φ f)
    omega
  · intro r fd f hr
    have hr' : ((s.procs.set p q).get r).ofile.get fd = some f := hr
    rw [TMap.get_set] at hr'
    split_ifs at hr' with hrp
    · exact htable fd f hr'
    · exact h.table r fd f hr'

theorem FsProc.fdUses_set (q : FsProc) {fd : ℕ} (hfd : fd < NOFILE) (v : Option ℕ) (f : ℕ) :
    FsProc.fdUses { q with ofile := q.ofile.set fd v } f +
        (if q.ofile.get fd = some f then 1 else 0) =
      q.fdUses f + if v = some f then 1 else 0 := by
  have h := Count.sum_change (f := fun k => if q.ofile.get k = some f then 1 else 0)
    (g := fun k => if (q.ofile.set fd v).get k = some f then 1 else 0) hfd
    fun j hj => by rw [TMap.get_set_ne _ _ hj]
  simpa only [TMap.get_set_self, FsProc.fdUses] using h

theorem Refs.setFd {p fd : ℕ} {v : Option ℕ} (h : Refs δf δi s) (hp : p < NPROC)
    (hfd : fd < NOFILE) (hv : ∀ f, v = some f → f < NFILE) {φ : ℕ → ℤ}
    (hφ : ∀ f, ((if v = some f then 1 else 0 : ℕ) : ℤ) + φ f =
      (if (s.procs.get p).ofile.get fd = some f then 1 else 0 : ℕ)) :
    Refs (fun f => δf f + φ f) δi { s with
      procs := s.procs.set p { s.procs.get p with ofile := (s.procs.get p).ofile.set fd v } } := by
  have hset := h.setProc (q := { s.procs.get p with ofile := (s.procs.get p).ofile.set fd v })
    (φ := φ) (ι := fun _ => 0) hp ?_ ?_ ?_
  · simpa only [add_zero] using hset
  · intro k f hk
    have hk' : ((s.procs.get p).ofile.set fd v).get k = some f := hk
    rw [TMap.get_set] at hk'
    split_ifs at hk' with hkf
    · exact hv f hk'
    · exact h.table p k f hk'
  · intro f
    have h₁ := (s.procs.get p).fdUses_set hfd v f
    have h₂ := hφ f
    dsimp only
    omega
  · intro i
    simp

theorem Refs.ref_pos (h : Refs δf δi s) {p fd f : ℕ} (hp : p < NPROC) (hfd : fd < NOFILE)
    (hf : (s.procs.get p).ofile.get fd = some f) (hδ : 0 ≤ δf f) :
    f < NFILE ∧ 0 < (s.ftable.get f).ref := by
  have hlt := h.table p fd f hf
  have h₁ := Finset.single_le_sum
    (f := fun k => if (s.procs.get p).ofile.get k = some f then 1 else 0)
    (fun _ _ => Nat.zero_le _) (Finset.mem_range.2 hfd)
  have h₂ := Finset.single_le_sum (f := fun r => (s.procs.get r).fdUses f)
    (fun _ _ => Nat.zero_le _) (Finset.mem_range.2 hp)
  have h₃ := h.file f hlt
  simp only [hf, if_true] at h₁
  rw [← FsProc.fdUses] at h₁
  rw [← fdUses] at h₂
  exact ⟨hlt, by omega⟩

/-! The file table. -/

@[simp] theorem post_getFile {f : ℕ} {Q : File → State → Prop} {E : Fault → State → Prop} :
    Post (getFile f) s Q E ↔ Q (s.ftable.get f) s := by
  simp [getFile]

@[simp] theorem post_modifyFile {f : ℕ} {g : File → File} {Q : Unit → State → Prop}
    {E : Fault → State → Prop} :
    Post (modifyFile f g) s Q E ↔
      Q () { s with ftable := s.ftable.set f (g (s.ftable.get f)) } := by
  simp [modifyFile]

@[simp] theorem post_myproc {Q : FsProc → State → Prop} {E : Fault → State → Prop} :
    Post myproc s Q E ↔ Q (s.procs.get s.cur) s := by
  simp [myproc]

@[simp] theorem post_modifyProc {g : FsProc → FsProc} {Q : Unit → State → Prop}
    {E : Fault → State → Prop} :
    Post (modifyProc g) s Q E ↔
      Q () { s with procs := s.procs.set s.cur (g (s.procs.get s.cur)) } := by
  simp [modifyProc]

def SameProcs (s t : State) : Prop := t.procs = s.procs ∧ t.cur = s.cur

theorem filedup_refs {f : ℕ} (h : Refs δf δi s) (hf : f < NFILE) :
    Post (filedup f) s (fun r t => r = f ∧ Refs (fun g => δf g + one f g) δi t ∧ SameProcs s t)
      fun _ _ => True := by
  simp only [filedup, post_bind, post_getFile, post_ite, post_panic, post_modifyFile, post_pure,
    implies_true, true_and]
  intro hpos
  have hset := h.setFile (f := f) (ε := 1) (ι := fun _ => 0)
    (x := { s.ftable.get f with ref := (s.ftable.get f).ref + 1 }) hf (by push_cast; ring)
    (fun h0 => absurd h0 (Nat.succ_ne_zero _)) ?_
  · simp only [one_mul, add_zero] at hset
    exact ⟨hset, rfl, rfl⟩
  · intro i
    have : File.Uses { s.ftable.get f with ref := (s.ftable.get f).ref + 1 } i ↔
        (s.ftable.get f).Uses i :=
      ⟨fun hu => ⟨by omega, hu.2⟩, fun hu => ⟨Nat.succ_pos _, hu.2⟩⟩
    simp only [this, add_zero]

structure NewFile (s : State) (f : ℕ) (t : State) : Prop where
  lt : f < NFILE
  free : (s.ftable.get f).ref = 0
  ref : (t.ftable.get f).ref = 1
  type : (t.ftable.get f).type = .none
  others : ∀ g, g ≠ f → t.ftable.get g = s.ftable.get g
  procs : SameProcs s t

theorem filealloc_refs (h : Refs δf δi s) :
    Post filealloc s (fun r t => match r with
      | none => t = s
      | some f => NewFile s f t ∧ Refs (fun g => δf g + one f g) δi t) fun _ _ => True := by
  simp only [filealloc, post_bind, post_get, allocFile]
  cases hf : (List.range NFILE).find? fun i => decide ((s.ftable.get i).ref = 0) with
  | none => exact post_pure.2 rfl
  | some f =>
    have hlt : f < NFILE := List.mem_range.1 (List.mem_of_find?_eq_some hf)
    have h0 := List.find?_some hf
    rw [decide_eq_true_eq] at h0
    have hnone := h.free f hlt h0
    simp only [Option.map_some, post_bind, post_modify, post_pure]
    have hset := h.setFile (f := f) (ε := 1) (ι := fun _ => 0)
      (x := { s.ftable.get f with ref := 1 }) hlt (by rw [h0]; rfl)
      (fun h1 => absurd h1 Nat.one_ne_zero) ?_
    · simp only [one_mul, add_zero] at hset
      refine ⟨⟨hlt, h0, ?_, ?_, fun g hg => TMap.get_set_ne _ _ hg, rfl, rfl⟩, hset⟩
      · rw [TMap.get_set_self]
      · rw [TMap.get_set_self]
        exact hnone
    · intro i
      have hu : ¬ File.Uses { s.ftable.get f with ref := 1 } i := by
        rintro ⟨-, hty, -⟩
        simp [hnone] at hty
      have hu' : ¬ (s.ftable.get f).Uses i := by
        rintro ⟨hpos, -⟩
        omega
      simp [hu, hu']

theorem Refs.congr {φ ι : ℕ → ℤ} (h : Refs δf δi s) (hf : ∀ f, φ f = δf f)
    (hi : ∀ i, ι i = δi i) : Refs φ ι s := by
  rwa [show φ = δf from funext hf, show ι = δi from funext hi]

/-- Giving back, in a transaction of its own, a reference to an inode. -/
theorem putInode_refs {ip : ℕ} (h : Refs δf (fun i => δi i + one ip i) s) (hδ : ∀ i, 0 ≤ δi i) :
    Post (do
      liftM beginOp
      iput ip
      liftM endOp : K Unit) s (fun _ t => Refs δf δi t ∧ SameProcs s t) fun _ _ => True := by
  have hcount : 0 < count s.tab ip := by
    have h₁ := h.inode ip
    have h₂ := hδ ip
    simp only [one, if_true] at h₁
    omega
  apply (still_lift _).next (.refl s)
  intro _ u hu
  apply (iput_refs hu ip).seq
  intro _ u hu
  apply (still_lift endOp u).imp
  intro _ v hv
  rw [hu.tab] at hv
  have hv' := hu.trans hv
  refine ⟨(h.dropped hcount hv').congr (fun _ => rfl) fun i => ?_, hv'.procs, hv'.cur⟩
  simp only [Pi.sub_apply]
  ring

/-- One use of a file less; the last one gives its inode back. -/
theorem fileclose_refs {f : ℕ} (h : Refs δf δi s) (hf : f < NFILE)
    (hpos : 0 < (s.ftable.get f).ref) (hδ : ∀ i, 0 ≤ δi i) :
    Post (fileclose f) s (fun _ t => Refs (fun g => δf g - one f g) δi t ∧ SameProcs s t)
      fun _ _ => True := by
  simp only [fileclose, post_bind, post_getFile, post_ite, post_panic, post_modifyFile,
    TMap.get_set_self, TMap.set_set, implies_true, true_and, post_pure]
  refine fun _ => ⟨fun h0 => ?_, fun h0 => ?_⟩
  · have href : (s.ftable.get f).ref = 1 := by omega
    have hset : ∀ ι : ℕ → ℤ, (∀ i, ι i = (if (s.ftable.get f).Uses i then 1 else 0 : ℕ)) →
        Refs (fun g => δf g + (-1) * one f g) (fun i => δi i + ι i)
          { s with ftable := s.ftable.set f { s.ftable.get f with ref := 0, type := .none } } := by
      intro ι hι
      apply h.setFile hf
      · rw [href]
        rfl
      · exact fun _ => rfl
      · intro i
        have hu : ¬ File.Uses { s.ftable.get f with ref := 0, type := .none } i := by
          rintro ⟨hc, -⟩
          exact absurd hc (lt_irrefl 0)
        rw [if_neg hu, hι i]
        simp
    constructor
    · intro hty
      have huses : ∀ i, (s.ftable.get f).Uses i ↔ i = (s.ftable.get f).ip := by
        intro i
        exact ⟨fun hu => hu.2.2.symm, fun hi => ⟨hpos, hty, hi.symm⟩⟩
      have h₁ := hset (one (s.ftable.get f).ip) fun i => by
        simp only [huses, one]
        split_ifs <;> rfl
      have hput := (putInode_refs h₁ hδ).imp fun _ t ht =>
        show Refs (fun g => δf g - one f g) δi t ∧ SameProcs s t from
          ⟨ht.1.congr (fun g => by ring) fun _ => rfl, ht.2⟩
      simpa only [post_bind] using hput
    · intro hty
      have h₁ := hset (fun _ => 0) fun i => by
        have hu : ¬ (s.ftable.get f).Uses i := fun hu => hty hu.2.1
        simp [hu]
      exact ⟨h₁.congr (fun g => by ring) fun i => by ring, rfl, rfl⟩
  · have hset := h.setFile (f := f) (ε := -1) (ι := fun _ => 0)
      (x := { s.ftable.get f with ref := (s.ftable.get f).ref - 1 }) hf
      (by
        dsimp only
        omega)
      (fun hc => absurd hc h0) fun i => by
        have hu : File.Uses { s.ftable.get f with ref := (s.ftable.get f).ref - 1 } i ↔
            (s.ftable.get f).Uses i :=
          ⟨fun hu => ⟨hpos, hu.2⟩, fun hu => ⟨Nat.pos_of_ne_zero h0, hu.2⟩⟩
        simp only [hu, add_zero]
    exact ⟨hset.congr (fun g => by ring) fun i => by ring, rfl, rfl⟩

end

end Xv6
