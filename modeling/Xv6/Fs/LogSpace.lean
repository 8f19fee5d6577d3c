import Xv6.Fs.CrashSafety

/-!
Log space. `begin_op` admits operations against `LOGSIZE` blocks, `log_write` stops at
`log.size - 1`, and `mkfs` gives the log `LOGSIZE` blocks with the header among them.
The runs below keep their history, latest call first, so that what the operations have
logged is known from their calls alone.
-/

namespace Xv6
open Hoare RedoLog

structure OpCall where
  op : ℕ
  call : LogCall

def active : List OpCall → Finset ℕ
  | [] => ∅
  | ⟨op, .beginOp⟩ :: h => insert op (active h)
  | ⟨op, .endOp⟩ :: h => (active h).erase op
  | _ :: h => active h

/-- The blocks logged by anyone since no operation was in progress. -/
def pending : List OpCall → Finset ℕ
  | [] => ∅
  | ⟨_, .write b _⟩ :: h => insert b (pending h)
  | ⟨op, .endOp⟩ :: h => if (active h).erase op = ∅ then ∅ else pending h
  | _ :: h => pending h

/-- The blocks `op` has logged since it began. A block that is in the transaction is free. -/
def loggedBy (op : ℕ) : List OpCall → Finset ℕ
  | [] => ∅
  | ⟨o, .beginOp⟩ :: h => if o = op then ∅ else loggedBy op h
  | ⟨o, .write b _⟩ :: h =>
      if o = op ∧ b ∉ pending h then insert b (loggedBy op h) else loggedBy op h
  | _ :: h => loggedBy op h

/-- Every operation has logged at most `MAXOPBLOCKS` different blocks all along. -/
def withinBudget : List OpCall → Bool
  | [] => true
  | c :: h => decide ((loggedBy c.op (c :: h)).card ≤ MAXOPBLOCKS) && withinBudget h

def dataSlots : ℕ := Mkfs.sb.nlog - 1

/-- An operation begins once, logs home blocks, and ends. -/
def OpCall.Allowed (h : List OpCall) : OpCall → Prop
  | ⟨op, .beginOp⟩ => op ∉ active h
  | ⟨_, .read _⟩ => True
  | ⟨op, .write b _⟩ => op ∈ active h ∧ Home Mkfs.sb.logstart Mkfs.sb.nlog b ∧ b < 2 ^ 32
  | ⟨op, .endOp⟩ => op ∈ active h

instance (start size b : ℕ) : Decidable (Home start size b) :=
  inferInstanceAs (Decidable (¬ _))

instance (h : List OpCall) : (c : OpCall) → Decidable (c.Allowed h)
  | ⟨op, .beginOp⟩ => inferInstanceAs (Decidable (op ∉ active h))
  | ⟨_, .read _⟩ => inferInstanceAs (Decidable True)
  | ⟨_, .write _ _⟩ => inferInstanceAs (Decidable (_ ∧ _))
  | ⟨op, .endOp⟩ => inferInstanceAs (Decidable (op ∈ active h))

/-- Each block was logged when a slot was left for it. -/
def SlotLeft : List OpCall → Prop
  | [] => True
  | ⟨_, .write _ _⟩ :: h => (pending h).card < dataSlots ∧ SlotLeft h
  | _ :: h => SlotLeft h

/-- The interleavings of the operations' calls, up to the first fault, on a disk whose log
is empty and has the size `mkfs` gives it. -/
inductive OpRuns (d : TMap Block) : List OpCall → EStateM.Result Fault Store Unit → Prop
  | boot (he : headerBlocks (d.get Mkfs.sb.logstart) = []) :
      OpRuns d [] (initlog ROOTDEV Mkfs.sb (powerOn d).store)
  | call (h : List OpCall) (s : Store) (c : OpCall) (hr : OpRuns d h (.ok () s))
      (ha : c.Allowed h) : OpRuns d (c :: h) (c.call.run s)

section
variable {d : TMap Block} {h : List OpCall} {s : Store}

structure Tracks (h : List OpCall) (s : Store) : Prop where
  tx : ∃ V, Tx Mkfs.sb.logstart Mkfs.sb.nlog ∅ ∅ V s
  listed : s.log.lh.toFinset = pending h
  outstanding : s.log.outstanding = (active h).card

theorem Tracks.length (ht : Tracks h s) : s.log.lh.length = (pending h).card := by
  obtain ⟨V, htx⟩ := ht.tx
  rw [← ht.listed, List.toFinset_card_of_nodup htx.log.nodup]

theorem Tracks.full_iff (ht : Tracks h s) : s.log.full = true ↔ dataSlots ≤ (pending h).card := by
  obtain ⟨V, htx⟩ := ht.tx
  rw [Log.full, decide_eq_true_iff, ht.length, htx.log.size_eq]
  simp only [dataSlots, Mkfs.sb, Mkfs.nlog, LOGSIZE, MAXOPBLOCKS]
  omega

theorem Tracks.step {t : Store} {c : OpCall} (ht : Tracks h s) (ha : c.Allowed h)
    (hc : c.call.run s = .ok () t) : Tracks (c :: h) t := by
  obtain ⟨V, htx⟩ := ht.tx
  obtain ⟨op, call⟩ := c
  cases call with
  | beginOp =>
    obtain ⟨htx', -, rfl⟩ := (beginOp_spec (E := fun _ _ => True) htx fun _ => trivial).of_ok hc
    refine ⟨⟨V, htx'⟩, ht.listed, ?_⟩
    simp [active, Finset.card_insert_of_notMem ha, ht.outstanding]
  | read b =>
    obtain ⟨htx', hq⟩ := (readBlock_spec b htx).of_ok hc
    exact ⟨⟨V, htx'⟩, by rw [hq.log]; exact ht.listed, by rw [hq.log]; exact ht.outstanding⟩
  | write b f =>
    obtain ⟨htx', -, -, hl⟩ := (logBlock_spec f htx ha.2.1 ha.2.2).of_ok hc
    refine ⟨⟨_, htx'⟩, ?_, ?_⟩
    · rw [hl, Log.record_toFinset, ht.listed]
      rfl
    · rw [hl, Log.record_outstanding]
      exact ht.outstanding
  | endOp =>
    have hop : op ∈ active h := ha
    have hpos : 0 < (active h).card := Finset.card_pos.2 ⟨op, hop⟩
    have hout := ht.outstanding
    obtain ⟨W, htx', -, hl, -⟩ :=
      (endOp_spec (E := fun _ _ => True) htx (by simp) (by simp) (by omega)
        fun _ _ _ _ => trivial).of_ok hc
    refine ⟨⟨W, htx'⟩, ?_, ?_⟩
    · have hlast : s.log.outstanding = 1 ↔ (active h).erase op = ∅ := by
        rw [← Finset.card_eq_zero, Finset.card_erase_of_mem hop]
        omega
      simp only [hl, pending, hlast]
      split_ifs
      · rfl
      · exact ht.listed
    · simp only [hl, active, Finset.card_erase_of_mem hop]
      omega

theorem OpRuns.tracks {r : EStateM.Result Fault Store Unit} (hr : OpRuns d h r) :
    ∀ s, r = .ok () s → Tracks h s := by
  induction hr with
  | boot he =>
    intro s hs
    have hrec : Recovers headerFormat Mkfs.sb.logstart Mkfs.sb.nlog d.get d.get :=
      recovers_of_empty (by decide) he fun _ _ => rfl
    obtain ⟨htx, hl, -⟩ := (initlog_spec hrec).of_ok hs
    exact ⟨⟨_, htx⟩, by rw [hl]; rfl, by rw [hl]; rfl⟩
  | call h s c _ ha ih =>
    intro t hc
    exact (ih s rfl).step ha hc

/-- A block can be logged exactly when a slot is left. -/
theorem Tracks.write_iff {op b : ℕ} {f : Block → Block} (ht : Tracks h s)
    (ha : OpCall.Allowed h ⟨op, .write b f⟩) :
    (∀ t, logBlock b f s ≠ .error (.panic .tooBigTransaction) t) ↔
      (pending h).card < dataSlots := by
  obtain ⟨V, htx⟩ := ht.tx
  have hspec := logBlock_spec f htx ha.2.1 ha.2.2
  rw [← not_le, ← ht.full_iff]
  constructor
  · intro hno hfull
    cases hm : logBlock b f s with
    | ok a t =>
      obtain ⟨-, -, hf, -⟩ := hspec.of_ok hm
      simp [hf] at hfull
    | error e t =>
      cases (hspec.of_error hm).2 with
      | noBuffers hn =>
        rw [List.toFinset_card_of_nodup htx.log.nodup] at hn
        exact absurd (hn.trans_lt htx.log.room) (by decide)
      | tooBig => exact hno t hm
      | outsideTrans ho =>
        have : 0 < (active h).card := Finset.card_pos.2 ⟨op, ha.1⟩
        have := ht.outstanding
        omega
  · intro hfull t hm
    cases (hspec.of_error hm).2 with
    | tooBig hf => exact hfull hf

/-- The other calls never reach the panic of `log_write`. -/
theorem Tracks.not_tooBig (ht : Tracks h s) {c : OpCall} (ha : c.Allowed h)
    (hw : ∀ b f, c.call ≠ .write b f) (t : Store) :
    c.call.run s ≠ .error (.panic .tooBigTransaction) t := by
  obtain ⟨V, htx⟩ := ht.tx
  obtain ⟨op, call⟩ := c
  let E : Fault → Store → Prop := fun e _ => e ≠ .panic .tooBigTransaction
  intro hm
  cases call with
  | beginOp => exact (beginOp_spec (E := E) htx fun _ => by simp [E]).of_error hm rfl
  | read b =>
    have hspec : Post (readBlock b) s (fun _ _ => True) E := by
      simp only [readBlock, post_bind]
      apply (bread_spec htx.bio (by simp) fun _ _ => by simp [E]).imp
      rintro i t₁ ⟨h₁, hi, -, -⟩
      exact (brelse_spec h₁ (by simp) hi).imp fun _ _ _ => trivial
    exact hspec.of_error hm rfl
  | write b f => exact hw b f rfl
  | endOp =>
    have : 0 < (active h).card := Finset.card_pos.2 ⟨op, ha⟩
    have := ht.outstanding
    exact (endOp_spec (E := E) htx (by simp) (by simp) (by omega)
      fun _ _ _ _ => by simp [E]).of_error hm rfl

theorem SlotLeft.cons_iff {c : OpCall} :
    SlotLeft (c :: h) ↔ (∀ b f, c.call = .write b f → (pending h).card < dataSlots) ∧
      SlotLeft h := by
  obtain ⟨op, call⟩ := c
  cases call <;> simp [SlotLeft]

/-- A run does not end in the panic of `log_write` if and only if every block was logged
when fewer different blocks were pending than the log has data slots, whatever the operations log.
The header never lists more blocks than there are slots. -/
theorem log_write_fits_iff_slotLeft {r : EStateM.Result Fault Store Unit} (hr : OpRuns d h r) :
    ((∀ t, r ≠ .error (.panic .tooBigTransaction) t) ↔ SlotLeft h) ∧
      ∀ s, r = .ok () s → s.log.lh.length ≤ dataSlots := by
  refine ⟨?_, fun s hs => ?_⟩
  · induction hr with
    | boot he =>
      have hrec : Recovers headerFormat Mkfs.sb.logstart Mkfs.sb.nlog d.get d.get :=
        recovers_of_empty (by decide) he fun _ _ => rfl
      obtain ⟨_, s, hs, -⟩ := (initlog_spec hrec).returns
      simp [hs, SlotLeft]
    | call h s c hr ha ih =>
      have ht := hr.tracks s rfl
      have hh : SlotLeft h := ih.1 fun t => by simp
      rw [SlotLeft.cons_iff, and_iff_left hh]
      obtain ⟨op, call⟩ := c
      by_cases hw : ∃ b f, call = .write b f
      · obtain ⟨b, f, rfl⟩ := hw
        rw [show LogCall.run (.write b f) s = logBlock b f s from rfl, ht.write_iff ha]
        simp
      · simp only [not_exists] at hw
        exact ⟨fun _ b f hbf => absurd hbf (hw b f), fun _ => ht.not_tooBig ha hw⟩
  · obtain ⟨V, htx⟩ := (hr.tracks s hs).tx
    have := htx.log.room
    unfold dataSlots
    omega

end

/-- The result of a history of allowed calls, when all but the last return. -/
def replay (d : TMap Block) : List OpCall → Option (EStateM.Result Fault Store Unit)
  | [] => some (initlog ROOTDEV Mkfs.sb (powerOn d).store)
  | c :: h =>
      match replay d h with
      | some (.ok _ s) => if c.Allowed h then some (c.call.run s) else none
      | _ => none

theorem OpRuns.of_replay {d : TMap Block} {h : List OpCall} {r : EStateM.Result Fault Store Unit}
    (he : headerBlocks (d.get Mkfs.sb.logstart) = []) (hr : replay d h = some r) :
    OpRuns d h r := by
  induction h generalizing r with
  | nil =>
    rw [replay, Option.some.injEq] at hr
    exact hr ▸ .boot he
  | cons c h ih =>
    rw [replay] at hr
    split at hr
    · next s hs =>
      split_ifs at hr with ha
      rw [Option.some.injEq] at hr
      exact hr ▸ .call h s c (ih hs) ha
    · contradiction

/-- Three operations have begun and have logged `n` blocks together, ten each at most. -/
def threeOps (n : ℕ) : List OpCall :=
  ((List.range n).map fun i => ⟨i / 10, .write (100 + i) id⟩).reverse ++
    [⟨2, .beginOp⟩, ⟨1, .beginOp⟩, ⟨0, .beginOp⟩]

/-- Whether a run ended in the panic of `log_write`. -/
def tooBig : EStateM.Result Fault Store Unit → Bool
  | .error (.panic .tooBigTransaction) _ => true
  | _ => false

theorem eq_of_tooBig {r : EStateM.Result Fault Store Unit} (h : tooBig r = true) :
    ∃ t, r = .error (.panic .tooBigTransaction) t := by
  unfold tooBig at h
  split at h
  · next t => exact ⟨t, rfl⟩
  · contradiction

/-- On the image `mkfs` builds, three operations that stay within their budgets reach the
panic of `log_write`. -/
theorem log_write_panics_within_budget :
    withinBudget (threeOps 30) = true ∧ ∃ d t, Mkfs.image [] = some d ∧
      OpRuns d (threeOps 30) (.error (.panic .tooBigTransaction) t) := by
  have hrun : ((Mkfs.image []).any fun d => decide (headerBlocks (d.get Mkfs.sb.logstart) = []) &&
      (replay d (threeOps 30)).any tooBig) = true := by
    decide +kernel
  obtain ⟨d, hd, hrun⟩ := (Option.any_eq_true _ _).1 hrun
  rw [Bool.and_eq_true, decide_eq_true_iff] at hrun
  obtain ⟨r, hr, hbig⟩ := (Option.any_eq_true _ _).1 hrun.2
  obtain ⟨t, rfl⟩ := eq_of_tooBig hbig
  exact ⟨by decide +kernel, d, t, hd, .of_replay hrun.1 hr⟩

/-- With one block less the same operations fit. -/
theorem log_write_fits_twenty_nine_blocks :
    ∃ r, OpRuns .empty (threeOps 29) r ∧
      ((∀ t, r ≠ .error (.panic .tooBigTransaction) t) ↔ SlotLeft (threeOps 29)) ∧
      ∀ s, r = .ok () s → s.log.lh.length ≤ dataSlots := by
  have hrun : (replay .empty (threeOps 29)).isSome = true := by decide +kernel
  obtain ⟨r, hr⟩ := Option.isSome_iff_exists.1 hrun
  have hr : OpRuns .empty (threeOps 29) r := .of_replay (by decide +kernel) hr
  exact ⟨r, hr, log_write_fits_iff_slotLeft hr⟩

end Xv6
