import Xv6.Fs.Transaction
import Xv6.Fs.Boot

/-!
Crash safety of the log. The abstract disk has committed contents and the contents the
running operations see; they become one when the last operation ends. A crash keeps a
first part of the disk writes of the call it interrupts, and may strike again during
recovery. Recovery always ends at a commit boundary of the abstract disk.
-/

namespace Xv6
open Hoare RedoLog

/-- What an operation does to a block: read it, change it, log it and give it back. -/
def logBlock (b : ℕ) (f : Block → Block) : B Unit := do
  let i ← bread ROOTDEV b
  setData i (f (← getBuf i).data)
  logWrite i
  brelse i

def readBlock (b : ℕ) : B Unit := do
  let i ← bread ROOTDEV b
  brelse i

inductive LogCall where
  | beginOp
  | read (b : ℕ)
  | write (b : ℕ) (f : Block → Block)
  | endOp

def LogCall.run : LogCall → B Unit
  | beginOp => Xv6.beginOp
  | read b => readBlock b
  | write b f => logBlock b f
  | endOp => Xv6.endOp

/-- Operations change blocks outside the log region only, block numbers are `uint`s,
and `end_op` ends an operation that has begun. -/
def LogCall.Allowed (sb : Superblock) (s : Store) : LogCall → Prop
  | write b _ => Home sb.logstart sb.nlog b ∧ b < 2 ^ 32
  | endOp => 0 < s.log.outstanding
  | _ => True

structure Txn where
  committed : ℕ → Block
  current : ℕ → Block
  active : ℕ

def Txn.rest (d : ℕ → Block) : Txn := ⟨d, d, 0⟩

def Txn.step (x : Txn) : LogCall → Txn
  | .beginOp => { x with active := x.active + 1 }
  | .read _ => x
  | .write b f => { x with current := Function.update x.current b (f (x.current b)) }
  | .endOp => if x.active = 1 then .rest x.current else { x with active := x.active - 1 }

def after (m : B Unit) (s : Store) : Store :=
  match m s with
  | .ok _ t => t
  | .error _ t => t

/-- The requests `m` makes to the disk, first one first, also when it stops at a panic. -/
def writesOf (m : B Unit) (s : Store) : List (ℕ × Block) :=
  let t := after m s
  (t.writes.take (t.writes.length - s.writes.length)).reverse

/-- The disk when only the first `k` of the writes were made. -/
def cutOff (d : TMap Block) (ws : List (ℕ × Block)) (k : ℕ) : TMap Block :=
  (ws.take k).foldl (fun d w => d.set w.1 w.2) d

/-- The disks a crash can leave: some first part of the writes of `m` is made, and then
some first part of those of any number of recoveries. -/
inductive Crashed (sb : Superblock) (m : B Unit) (s : Store) : TMap Block → Prop
  | during (k : ℕ) : Crashed sb m s (cutOff s.disk (writesOf m s) k)
  | recovering (d : TMap Block) (k : ℕ) (h : Crashed sb m s d) :
      Crashed sb m s (cutOff d (writesOf (initlog ROOTDEV sb) (powerOn d).store) k)

/-- The states of a machine whose disk had an empty log header at first, over any number
of calls, crashes and reboots, with the abstract disk they stand for. -/
inductive Runs (sb : Superblock) : Store → Txn → Prop
  | boot (d : TMap Block) (s : Store) (he : headerBlocks (d.get sb.logstart) = [])
      (h : initlog ROOTDEV sb (powerOn d).store = .ok () s) : Runs sb s (.rest d.get)
  | call (s t : Store) (x : Txn) (c : LogCall) (hr : Runs sb s x) (ha : c.Allowed sb s)
      (h : c.run s = .ok () t) : Runs sb t (x.step c)
  | reboot (s t : Store) (x : Txn) (c : LogCall) (d : TMap Block) (hr : Runs sb s x)
      (ha : c.Allowed sb s) (hd : Crashed sb c.run s d)
      (h : initlog ROOTDEV sb (powerOn d).store = .ok () t) : Runs sb t (.rest t.disk.get)

section
variable {sb : Superblock} {s : Store} {x : Txn} {V : ℕ → Block}

theorem get_cutOff (d : TMap Block) (ws : List (ℕ × Block)) (k : ℕ) :
    (cutOff d ws k).get = wr d.get (ws.take k) := by
  have hfold : ∀ (vs : List (ℕ × Block)) (d : TMap Block),
      (vs.foldl (fun d w => d.set w.1 w.2) d).get = wr d.get vs := by
    intro vs
    induction vs with
    | nil => exact fun d => rfl
    | cons v vs ih =>
      intro d
      rw [List.foldl_cons, ih, wr]
      congr 1
      funext b
      rw [TMap.get_set, Function.update_apply]
  exact hfold _ d

theorem writesOf_spec {m : B Unit} {p : List (ℕ × Block) → Prop}
    (h : Post m s (fun _ t => ∃ ws, p ws ∧ Wrote s ws t) fun _ t => ∃ ws, p ws ∧ Wrote s ws t) :
    p (writesOf m s) := by
  have hw : ∀ {t : Store} {ws : List (ℕ × Block)}, Wrote s ws t →
      (t.writes.take (t.writes.length - s.writes.length)).reverse = ws := by
    intro t ws hw
    rw [hw.writes]
    simp
  unfold writesOf after
  cases hm : m s with
  | ok a t =>
    obtain ⟨ws, hp, hws⟩ := h.of_ok hm
    exact (hw hws).symm ▸ hp
  | error e t =>
    obtain ⟨ws, hp, hws⟩ := h.of_error hm
    exact (hw hws).symm ▸ hp

theorem powerOn_disk (d : TMap Block) : (powerOn d).store.disk = d := rfl

theorem bio_powerOn (d : TMap Block) : Bio ∅ ∅ ∅ d.get (powerOn d).store := by
  have hno : ∀ i b, ¬ (powerOn d).store.Caches i b := by
    rintro i b ⟨-, hd, -⟩
    have hdev : ((powerOn d).store.bufs.get i).dev = 0 := by
      rw [powerOn, TMap.get_empty]
      rfl
    rw [hdev] at hd
    exact absurd hd (by decide)
  refine ⟨fun i => ?_, fun i _ b h => absurd h (hno i b), fun i b h => absurd h (hno i b),
    fun i b h => absurd h (hno i b), fun i b h => absurd h (hno i b), fun i _ _ => ?_,
    by simp, fun i b h => absurd h (hno i b), fun _ _ _ => rfl⟩
  · simp [powerOn, binitLru]
  · rw [powerOn, TMap.get_empty]
    exact ⟨rfl, rfl⟩

/-- Recovery of a recoverable disk completes, and makes the writes of a recovery. -/
theorem initlog_spec {d : TMap Block} {T : ℕ → Block}
    (hr : Recovers headerFormat sb.logstart sb.nlog d.get T) :
    Post (initlog ROOTDEV sb) (powerOn d).store
      (fun _ t => Tx sb.logstart sb.nlog ∅ ∅
          (wr d.get (recoverWrites headerFormat sb.logstart d.get)) t ∧
        t.log = ⟨sb.logstart, sb.nlog, 0, false, ROOTDEV, []⟩ ∧
        Wrote (powerOn d).store (recoverWrites headerFormat sb.logstart d.get) t)
      fun _ _ => False := by
  simp only [initlog, post_bind, post_modifyLog]
  let l : Log := ⟨sb.logstart, sb.nlog, 0, false, ROOTDEV, []⟩
  change Post recoverFromLog ((powerOn d).store.withLog l) _ _
  have hstart : ((powerOn d).store.withLog l).log.start = sb.logstart := rfl
  have hdev : ((powerOn d).store.withLog l).log.dev = ROOTDEV := rfl
  apply (recoverFromLog_spec ((bio_powerOn d).withLog l) hstart hdev hr.home hr.room).imp
  rintro _ t ⟨hbio, hw, hl⟩
  simp only [Store.withLog_log, l] at hl
  refine ⟨⟨?_, ?_⟩, hl, ⟨hw.writes, hw.disk⟩⟩
  · rw [hl]
    exact hbio
  · rw [hl]
    exact ⟨rfl, rfl, rfl, rfl, le_rfl, by simp, by simp, by simp, headerFormat.fits_nil,
      lt_of_le_of_lt (Nat.zero_le _) hr.room⟩

structure Stands (sb : Superblock) (s : Store) (x : Txn) : Prop where
  tx : ∃ V, Tx sb.logstart sb.nlog ∅ ∅ V s ∧ ∀ b, Home sb.logstart sb.nlog b → V b = x.current b
  header : headerBlocks (s.disk.get sb.logstart) = []
  committed : ∀ b, Home sb.logstart sb.nlog b → s.disk.get b = x.committed b
  active : s.log.outstanding = x.active

theorem stands_of_initlog {d : TMap Block} {t : Store} {T : ℕ → Block}
    (hr : Recovers headerFormat sb.logstart sb.nlog d.get T)
    (h : initlog ROOTDEV sb (powerOn d).store = .ok () t) : Stands sb t (.rest T) := by
  obtain ⟨htx, hl, hw⟩ := (initlog_spec hr).of_ok h
  refine ⟨⟨_, htx, hr.result⟩, ?_, fun b hb => ?_, by rw [hl]; rfl⟩
  · rw [hw.disk, powerOn_disk, ← headerFormat_entries]
    exact recover_empty headerFormat
  · rw [hw.disk, powerOn_disk]
    exact hr.result b hb

theorem Stands.recovers (h : Stands sb s x) :
    Recovers headerFormat sb.logstart sb.nlog s.disk.get x.committed := by
  obtain ⟨V, htx, -⟩ := h.tx
  exact recovers_of_empty (lt_of_le_of_lt (Nat.zero_le _) htx.log.room) h.header h.committed

theorem readBlock_spec (b : ℕ) (h : Tx sb.logstart sb.nlog ∅ ∅ V s) :
    Post (readBlock b) s (fun _ t => Tx sb.logstart sb.nlog ∅ ∅ V t ∧ Quiet s t)
      fun _ t => Quiet s t := by
  simp only [readBlock, post_bind]
  apply (bread_spec h.bio (by simp) fun _ _ => Quiet.refl s).imp
  rintro i t₁ ⟨h₁, hi, -, hq₁⟩
  apply (brelse_spec h₁ (by simp) hi).imp
  rintro _ t₂ ⟨h₂, -, hq₂⟩
  have hl := (hq₁.trans hq₂).log
  exact ⟨⟨hl ▸ h₂, hl ▸ h.log⟩, hq₁.trans hq₂⟩

inductive LogBlockFault (l : Log) : Fault → Prop
  | noBuffers (h : NBUF ≤ l.lh.toFinset.card) : LogBlockFault l (.panic .bgetNoBuffers)
  | tooBig (h : l.full = true) : LogBlockFault l (.panic .tooBigTransaction)
  | outsideTrans (h : l.outstanding < 1) : LogBlockFault l (.panic .logWriteOutsideTrans)

theorem logBlock_spec {b : ℕ} (f : Block → Block) (h : Tx sb.logstart sb.nlog ∅ ∅ V s)
    (hb : Home sb.logstart sb.nlog b) (h32 : b < 2 ^ 32) :
    Post (logBlock b f) s
      (fun _ t => Tx sb.logstart sb.nlog ∅ ∅ (Function.update V b (f (V b))) t ∧
        Wrote s [] t ∧ s.log.full = false ∧ t.log = s.log.record b)
      fun e t => Wrote s [] t ∧ LogBlockFault s.log e := by
  simp only [logBlock, post_bind]
  apply (bread_spec h.bio (by simp) fun hn _ =>
    ⟨Wrote.refl s, .noBuffers (by simpa using hn)⟩).imp
  rintro i t₁ ⟨h₁, hi, -, hq₁⟩
  simp only [post_getBuf, post_setData, h₁.data i b hi (Set.notMem_empty b)]
  obtain ⟨h₂, hsc⟩ := h₁.setData hi (f (V b))
  generalize ht₂ : t₁.setBuf i { t₁.bufs.get i with data := f (V b) } = t₂ at h₂ hsc
  have hw₂ : Wrote s [] t₂ := ht₂ ▸ ⟨hq₁.wrote.writes, hq₁.wrote.disk⟩
  have hl₂ : t₂.log = s.log := by rw [← ht₂, Store.setBuf_log, hq₁.log]
  have hdata : (t₂.bufs.get i).data = f (V b) := by rw [← ht₂]; simp
  have htx : Tx sb.logstart sb.nlog (insert b ∅) (insert b ∅) V t₂ :=
    ⟨hl₂ ▸ h₂, hl₂ ▸ h.log⟩
  apply (logWrite_spec htx ((hsc i b).2 hi) hb h32 (fun hf => ⟨hw₂, .tooBig (hl₂ ▸ hf)⟩)
    fun ho => ⟨hw₂, .outsideTrans (hl₂ ▸ ho)⟩).imp
  rintro _ t₃ ⟨h₃, hsc₃, hf₃, hl₃, hd₃, hw₃⟩
  rw [hl₂] at hf₃ hl₃
  rw [show insert b (∅ : Set ℕ) \ {b} = ∅ by simp, hdata] at h₃
  apply (brelse_spec h₃.bio (by simp) ((hsc₃ i b).2 ((hsc i b).2 hi))).imp
  rintro _ t₄ ⟨h₄, -, hq₄⟩
  refine ⟨⟨hq₄.log ▸ h₄, hq₄.log ▸ h₃.log⟩, ⟨?_, fun c => ?_⟩, hf₃, hq₄.log.trans hl₃⟩
  · rw [hq₄.writes, hw₃, hw₂.writes]
  · rw [hq₄.disk, hd₃, hw₂.disk]

/-- The writes of a call: only `end_op` makes any. -/
def LogCall.writes (V : ℕ → Block) (s : Store) : LogCall → List (ℕ × Block)
  | endOp => endWrites V s.log
  | _ => []

theorem LogCall.run_spec {c : LogCall} (h : Stands sb s x) (htx : Tx sb.logstart sb.nlog ∅ ∅ V s)
    (hV : ∀ b, Home sb.logstart sb.nlog b → V b = x.current b) (ha : c.Allowed sb s) :
    Post c.run s
      (fun _ t => Stands sb t (x.step c) ∧ ∃ ws, ws <+: c.writes V s ∧ Wrote s ws t)
      fun _ t => ∃ ws, ws <+: c.writes V s ∧ Wrote s ws t := by
  have hquiet : ∀ {t : Store} {y : Txn}, Wrote s [] t → (∃ W, Tx sb.logstart sb.nlog ∅ ∅ W t ∧
      ∀ b, Home sb.logstart sb.nlog b → W b = y.current b) → y.committed = x.committed →
      t.log.outstanding = y.active → Stands sb t y := by
    intro t y hw hW hy ho
    refine ⟨hW, ?_, fun b hb => ?_, ho⟩
    · rw [hw.disk]
      exact h.header
    · rw [hw.disk, hy]
      exact h.committed b hb
  cases c with
  | beginOp =>
    apply (beginOp_spec htx fun _ => ?_).imp
    · rintro _ t ⟨ht, -, rfl⟩
      have hw := (Wrote.refl s).withLog { s.log with outstanding := s.log.outstanding + 1 }
      refine ⟨hquiet hw ⟨V, ht, hV⟩ rfl ?_, [], List.nil_prefix, hw⟩
      simp [Txn.step, h.active]
    · exact ⟨[], List.nil_prefix, Wrote.refl s⟩
  | read b =>
    refine (readBlock_spec b htx).mono ?_ fun _ t hq => ⟨[], List.nil_prefix, hq.wrote⟩
    rintro _ t ⟨ht, hq⟩
    exact ⟨hquiet hq.wrote ⟨V, ht, hV⟩ rfl (by rw [hq.log]; exact h.active), [],
      List.nil_prefix, hq.wrote⟩
  | write b f =>
    refine (logBlock_spec f htx ha.1 ha.2).mono ?_ fun _ t hw => ⟨[], List.nil_prefix, hw.1⟩
    rintro _ t ⟨ht, hw, -, hl⟩
    have ho : t.log.outstanding = x.active := by
      rw [hl, Log.record_outstanding, h.active]
    refine ⟨hquiet hw ⟨_, ht, fun a hab => ?_⟩ rfl ho, [], List.nil_prefix, hw⟩
    rw [hV b ha.1]
    by_cases hba : a = b
    · simp [Txn.step, hba]
    · simp [Txn.step, hba, hV a hab]
  | endOp =>
    apply (endOp_spec htx (by simp) (by simp) ha fun ws t hws hw => ⟨ws, hws, hw⟩).imp
    rintro _ t ⟨W, ht, hW, hl, hw⟩
    refine ⟨?_, _, List.prefix_rfl, hw⟩
    have hWV : ∀ b, Home sb.logstart sb.nlog b → W b = x.current b :=
      fun b hb => (hW b hb).trans (hV b hb)
    have hact : s.log.outstanding = x.active := h.active
    by_cases h1 : x.active = 1
    · -- the last operation: what the cache shows is on the disk now
      have ho : s.log.outstanding = 1 := by omega
      simp only [ho, if_true] at hl
      simp only [Txn.step, h1, if_true]
      refine ⟨⟨W, ht, hWV⟩, ?_, fun b hb => ?_, by rw [hl]; rfl⟩
      · rw [hw.disk, endWrites]
        split_ifs
        · rw [htx.log.start_eq, ← headerFormat_entries]
          exact commit_empty headerFormat
        · exact h.header
      · rw [ht.bio.clean b (by simp [hl]) (by simp)]
        exact hWV b hb
    · have ho : s.log.outstanding ≠ 1 := by omega
      have hnone : endWrites V s.log = [] := if_neg fun hc => ho hc.1
      rw [hnone] at hw
      simp only [Txn.step, h1, if_false]
      refine hquiet hw ⟨W, ht, hWV⟩ rfl ?_
      have hpos : 0 < s.log.outstanding := ha
      simp only [hl, hact]
      omega

/-- A crash in a call leaves a disk that recovers to what was committed before, or, if the
call commits, to the current contents. -/
theorem Stands.crashed {c : LogCall} {d : TMap Block} (h : Stands sb s x)
    (ha : c.Allowed sb s) (hd : Crashed sb c.run s d) :
    Recovers headerFormat sb.logstart sb.nlog d.get x.committed ∨
      (c = .endOp ∧ x.active = 1 ∧
        Recovers headerFormat sb.logstart sb.nlog d.get x.current) := by
  obtain ⟨V, htx, hV⟩ := h.tx
  have hsize : 0 < sb.nlog := lt_of_le_of_lt (Nat.zero_le _) htx.log.room
  induction hd with
  | during k =>
    have hpre : writesOf c.run s <+: c.writes V s := by
      apply writesOf_spec (p := (· <+: c.writes V s))
      exact (LogCall.run_spec h htx hV ha).imp fun _ t ht => ht.2
    have hcut := (List.take_prefix k _).trans hpre
    rw [get_cutOff]
    generalize (writesOf c.run s).take k = ws at hcut
    have hnone : c.writes V s = [] → Recovers headerFormat sb.logstart sb.nlog
        (wr s.disk.get ws) x.committed := by
      intro hw
      rw [hw, List.prefix_nil] at hcut
      rw [hcut]
      exact h.recovers
    cases c with
    | beginOp => exact .inl (hnone rfl)
    | read b => exact .inl (hnone rfl)
    | write b f => exact .inl (hnone rfl)
    | endOp =>
      by_cases hcm : s.log.outstanding = 1 ∧ s.log.lh ≠ []
      · simp only [LogCall.writes, endWrites, if_pos hcm, htx.log.start_eq] at hcut
        -- the header block is never pinned, so the cache shows what is on the disk
        have hstart : sb.logstart ∉ s.log.lh.toFinset := by
          rw [List.mem_toFinset]
          exact fun hm => htx.log.home _ hm ⟨le_rfl, by omega⟩
        rw [← htx.bio.clean sb.logstart hstart (by simp)] at hcut
        have hact := h.active
        rcases commit_interrupted htx.log.fits htx.log.home htx.log.room h.header h.committed
          hcut with hC | hL
        · exact .inl hC
        · refine .inr ⟨rfl, by omega, hL.home, hL.room, fun b hb => ?_⟩
          rw [hL.result b hb]
          split_ifs with hm
          · exact hV b hb
          · rw [← h.committed b hb, ← hV b hb]
            exact htx.bio.clean b (by simpa using hm) (by simp)
      · exact .inl (hnone (if_neg hcm))
  | recovering d k _ ih =>
    have hcut : ∀ {T : ℕ → Block}, Recovers headerFormat sb.logstart sb.nlog d.get T →
        Recovers headerFormat sb.logstart sb.nlog
          (cutOff d (writesOf (initlog ROOTDEV sb) (powerOn d).store) k).get T := by
      intro T hT
      have hws : writesOf (initlog ROOTDEV sb) (powerOn d).store =
          recoverWrites headerFormat sb.logstart d.get := by
        apply writesOf_spec (p := (· = recoverWrites headerFormat sb.logstart d.get))
        exact (initlog_spec hT).mono (fun _ t ht => ⟨_, rfl, ht.2.2⟩) fun _ _ hf => hf.elim
      rw [get_cutOff, hws]
      exact hT.interrupted hsize (List.take_prefix _ _)
    rcases ih with hC | ⟨hc, h1, hL⟩
    · exact .inl (hcut hC)
    · exact .inr ⟨hc, h1, hcut hL⟩

theorem Runs.stands (hsize : 0 < sb.nlog) (h : Runs sb s x) : Stands sb s x := by
  induction h with
  | boot d s he h =>
    exact stands_of_initlog (recovers_of_empty hsize he fun _ _ => rfl) h
  | call s t x c _ ha h ih =>
    obtain ⟨V, htx, hV⟩ := ih.tx
    exact ((LogCall.run_spec ih htx hV ha).of_ok h).1
  | reboot s t x c d _ ha hd h ih =>
    have hst : ∀ {T : ℕ → Block}, Recovers headerFormat sb.logstart sb.nlog d.get T →
        Stands sb t (.rest t.disk.get) := by
      intro T hT
      have := stands_of_initlog hT h
      obtain ⟨V, htx, hV⟩ := this.tx
      exact ⟨⟨V, htx, fun b hb => (hV b hb).trans (this.committed b hb).symm⟩, this.header,
        fun _ _ => rfl, this.active⟩
    rcases ih.crashed ha hd with hC | ⟨-, -, hL⟩
    · exact hst hC
    · exact hst hL

/-- Whenever the machine crashes, and however often it crashes again while it recovers,
recovery completes, and it leaves the home blocks as they were at a commit boundary: the
last one, or, if an `end_op` that ends the last operation was interrupted, the one it was
making. -/
theorem recovery_restores_commit_boundary {c : LogCall} {d : TMap Block} (hsize : 0 < sb.nlog)
    (h : Runs sb s x) (ha : c.Allowed sb s) (hd : Crashed sb c.run s d) :
    ∃ t, initlog ROOTDEV sb (powerOn d).store = .ok () t ∧
      ((∀ b, Home sb.logstart sb.nlog b → t.disk.get b = x.committed b) ∨
        (c = .endOp ∧ x.active = 1 ∧
          ∀ b, Home sb.logstart sb.nlog b → t.disk.get b = x.current b)) := by
  have hrec : ∀ {T : ℕ → Block}, Recovers headerFormat sb.logstart sb.nlog d.get T →
      ∃ t, initlog ROOTDEV sb (powerOn d).store = .ok () t ∧
        ∀ b, Home sb.logstart sb.nlog b → t.disk.get b = T b := by
    intro T hT
    obtain ⟨_, t, ht, -⟩ := (initlog_spec hT).returns
    exact ⟨t, ht, (stands_of_initlog hT ht).committed⟩
  rcases (h.stands hsize).crashed ha hd with hC | ⟨hc, h1, hL⟩
  · obtain ⟨t, ht, hCt⟩ := hrec hC
    exact ⟨t, ht, .inl hCt⟩
  · obtain ⟨t, ht, hLt⟩ := hrec hL
    exact ⟨t, ht, .inr ⟨hc, h1, hLt⟩⟩

end

theorem run_eq_after {m : B Unit} {s : Store}
    (h : (match m s with | .ok _ _ => true | .error _ _ => false) = true) :
    m s = .ok () (after m s) := by
  unfold after
  cases hm : m s with
  | ok a t => rfl
  | error e t => simp [hm] at h

/-- A commit of one block on an empty disk, interrupted after its second write. -/
theorem recovery_restores_commit_boundary_one_block :
    let s₁ := after (initlog ROOTDEV Mkfs.sb) (powerOn .empty).store
    let s₂ := after beginOp s₁
    let s₃ := after (logBlock 100 fun b => putWord b 0 7) s₂
    ∃ t, initlog ROOTDEV Mkfs.sb (powerOn (cutOff s₃.disk (writesOf endOp s₃) 2)).store = .ok () t ∧
      ((∀ b, Home 2 30 b → t.disk.get b = TMap.empty.get b) ∨ ∀ b, Home 2 30 b →
        t.disk.get b = Function.update TMap.empty.get 100 (putWord .empty 0 7) b) := by
  intro s₁ s₂ s₃
  have h₁ : Runs Mkfs.sb s₁ (.rest TMap.empty.get) :=
    .boot .empty s₁ (by decide +kernel) (run_eq_after (by decide +kernel))
  have h₂ : Runs Mkfs.sb s₂ _ :=
    .call s₁ s₂ _ .beginOp h₁ trivial (run_eq_after (by decide +kernel))
  have h₃ : Runs Mkfs.sb s₃ _ :=
    .call s₂ s₃ _ (.write 100 fun b => putWord b 0 7) h₂ ⟨by unfold Home; decide, by decide⟩
      (run_eq_after (by decide +kernel))
  have ha : (0 : ℤ) < s₃.log.outstanding := by decide +kernel
  obtain ⟨t, ht, hC | ⟨-, -, hL⟩⟩ :=
    recovery_restores_commit_boundary (c := .endOp) (by decide) h₃ ha (.during 2)
  · exact ⟨t, ht, .inl hC⟩
  · exact ⟨t, ht, .inr hL⟩

end Xv6
