import Xv6.Lib.Monitor
import Xv6.Fs.Transaction

/-!
The protocol of `begin_op`, `log_write` and `end_op` between processes. The fields of the log
are under `log.lock`; `commit` works without it.
-/

namespace Xv6
namespace LogProtocol
open Monitor

/-- The log. No fields are `ops`, the processes between `begin_op` and `end_op`, and `committer`,
the process that commits. -/
structure State where
  log : Log
  ops : Finset ℕ
  committer : Option ℕ

/-- A process outside the lock: in no operation, in one, in `commit` with the header it found,
or back from it. -/
inductive Out
  | idle | inOp | committing (lh : List ℕ) | committed

inductive Pc
  | beginTest | beginInc
  | endDec | endCheck | endTest | endCommitting | endWakeup
  | doneCommitting | doneWakeup
  | writeFull (b : ℕ) | writeTrans (b : ℕ) | writeRecord (b : ℕ)
  | release (o : Out)
  | panic (x : Panic)

def code (p : ℕ) : Pc → State → Action State Pc Out
  | .beginTest, s => if s.log.mustWait then .wait .beginTest else .move s .beginInc
  | .beginInc, s =>
      .move { s with
        log := { s.log with outstanding := s.log.outstanding + 1 }, ops := insert p s.ops }
        (.release .inOp)
  | .endDec, s =>
      .move { s with
        log := { s.log with outstanding := s.log.outstanding - 1 }, ops := s.ops.erase p } .endCheck
  | .endCheck, s => .move s (if s.log.committing then .panic .logCommitting else .endTest)
  | .endTest, s => .move s (if s.log.outstanding = 0 then .endCommitting else .endWakeup)
  | .endCommitting, s =>
      .move { s with log := { s.log with committing := true }, committer := some p }
        (.release (.committing s.log.lh))
  | .endWakeup, _ => .notify (.release .idle)
  | .doneCommitting, s =>
      .move { s with log := { s.log with committing := false }, committer := none } .doneWakeup
  | .doneWakeup, _ => .notify (.release .idle)
  | .writeFull b, s => .move s (if s.log.full then .panic .tooBigTransaction else .writeTrans b)
  | .writeTrans b, s =>
      .move s (if s.log.outstanding < 1 then .panic .logWriteOutsideTrans else .writeRecord b)
  | .writeRecord b, s => .move { s with log := s.log.record b } (.release .inOp)
  | .release o, _ => .leave o
  | .panic x, s => .move s (.panic x)

/-- What a process calls, by where it is. -/
def Calls : Out → Pc → Prop
  | .idle, k => k = .beginTest
  | .inOp, k => k = .endDec ∨ ∃ b, k = .writeFull b
  | .committing _, _ => False
  | .committed, k => k = .doneCommitting

/-- The calls, and the end of `commit`, which empties the header. -/
def system : System State Pc Out where
  code := code
  entry _ o s k s' := s' = s ∧ Calls o k
  free _ o s o' s' := (∃ lh, o = .committing lh) ∧ o' = .committed ∧
    s' = { s with log := { s.log with lh := [] } }

def start (l : Log) : State := ⟨l, ∅, none⟩

def Reachable (l : Log) : Machine State Pc Out → Prop :=
  Transition.Reachable (· = ⟨start l, none, fun _ => .out .idle⟩) (Step system)

structure Rest (s : State) : Prop where
  count : s.log.outstanding = s.ops.card
  committing : s.log.committing = s.committer.isSome
  alone : s.log.committing = true → s.ops = ∅
  empty : s.ops = ∅ → s.log.committing = false → s.log.lh = []

def OutKnows (p : ℕ) (s : State) : Out → Prop
  | .idle => p ∉ s.ops ∧ s.committer ≠ some p
  | .inOp => p ∈ s.ops ∧ s.committer ≠ some p
  | .committing lh => (s.ops = ∅ ∧ s.committer = some p) ∧ s.log.committing = true ∧ s.log.lh = lh
  | .committed => (s.ops = ∅ ∧ s.committer = some p) ∧ s.log.committing = true ∧ s.log.lh = []

structure Ended (p : ℕ) (s : State) : Prop where
  out : p ∉ s.ops
  count : s.log.outstanding = s.ops.card
  committing : s.log.committing = false
  committer : s.committer = none

def Knows (p : ℕ) (s : State) : Place Pc Out → Prop
  | .out o => OutKnows p s o
  | .ready k => ∃ o, Calls o k ∧ OutKnows p s o
  | .asleep k => k = .beginTest ∧ OutKnows p s .idle
  | .inside .beginTest => Rest s ∧ OutKnows p s .idle
  | .inside .beginInc => Rest s ∧ OutKnows p s .idle ∧ s.log.mustWait = false
  | .inside .endCheck | .inside .endTest => Ended p s
  | .inside .endCommitting => Ended p s ∧ s.ops = ∅
  | .inside .endWakeup => Ended p s ∧ s.ops ≠ ∅
  | .inside .doneCommitting => Rest s ∧ OutKnows p s .committed
  | .inside .doneWakeup => Rest s ∧ OutKnows p s .idle
  | .inside (.release o) => Rest s ∧ OutKnows p s o
  | .inside (.panic x) => x = .tooBigTransaction
  | .inside _ => Rest s ∧ OutKnows p s .inOp

def notes : Notes State Pc Out where
  rest := Rest
  knows := Knows
  reason s := s.log.mustWait = true
  notifies
    | .endCheck | .endTest | .endCommitting | .endWakeup | .doneWakeup => True
    | _ => False

section
variable {p q : ℕ} {s s' : State} {o : Out} {m : Machine State Pc Out} {l : Log}

/-- Where a process is in an operation nobody commits. -/
theorem Rest.not_committing (h : Rest s) (hp : p ∈ s.ops) :
    s.log.committing = false ∧ s.committer = none := by
  have hc : s.log.committing = false := by
    rw [← Bool.not_eq_true]
    intro hc
    rw [h.alone hc] at hp
    exact absurd hp (Finset.notMem_empty p)
  have := h.committing
  rw [hc] at this
  exact ⟨hc, by simpa using this.symm⟩

theorem mustWait_of_committing (h : s.log.committing = true) : s.log.mustWait = true := by
  simp [Log.mustWait, h]

/-- A longer header does not make room. -/
theorem mustWait_record {b : ℕ} (h : s.log.mustWait = true) : (s.log.record b).mustWait = true := by
  have hlen : s.log.lh.length ≤ (s.log.record b).lh.length := by
    rw [Log.record_lh]
    split <;> simp
  simp only [Log.mustWait, Log.record_committing, Log.record_outstanding, Bool.or_eq_true,
    decide_eq_true_eq] at h ⊢
  refine h.imp_right fun h => ?_
  omega

theorem OutKnows.congr (h : OutKnows q s o) (hops : q ∈ s'.ops ↔ q ∈ s.ops)
    (hcom : s'.committer = some q ↔ s.committer = some q)
    (hlog : s.committer = some q →
      s'.ops = s.ops ∧ s'.log.committing = s.log.committing ∧ s'.log.lh = s.log.lh) :
    OutKnows q s' o := by
  cases o with
  | idle => simpa only [OutKnows, Ne, hops, hcom] using h
  | inOp => simpa only [OutKnows, Ne, hops, hcom] using h
  | committing lh =>
    obtain ⟨h₀, h₁, h₂⟩ := hlog h.1.2
    simpa only [OutKnows, h₀, hcom, h₁, h₂] using h
  | committed =>
    obtain ⟨h₀, h₁, h₂⟩ := hlog h.1.2
    simpa only [OutKnows, h₀, hcom, h₁, h₂] using h

theorem Knows.congr {x : Place Pc Out} (h : Knows q s x) (hx : ∀ k, x ≠ .inside k)
    (hout : ∀ o, OutKnows q s o → OutKnows q s' o) : Knows q s' x := by
  cases x with
  | out o => exact hout o h
  | ready k =>
    obtain ⟨o, hc, ho⟩ := h
    exact ⟨o, hc, hout o ho⟩
  | asleep k => exact ⟨h.1, hout _ h.2⟩
  | inside k => exact absurd rfl (hx k)

/-- The emptied header wakes nobody's wait, and leaves what others know. -/
theorem notes_stable_commit (h : s.committer = some p) (hc : s.log.committing = true) :
    notes.Stable p s { s with log := { s.log with lh := [] } } := by
  have hrest : Rest s → Rest { s with log := { s.log with lh := [] } } := fun hr =>
    ⟨hr.count, hr.committing, hr.alone, fun _ _ => rfl⟩
  have hout : ∀ q, q ≠ p → ∀ o, OutKnows q s o →
      OutKnows q { s with log := { s.log with lh := [] } } o := fun q hqp o ho =>
    ho.congr Iff.rfl Iff.rfl fun hq => absurd (Option.some.inj (hq.symm.trans h)) hqp
  refine ⟨hrest, fun q hqp x hx => ?_, fun _ => mustWait_of_committing hc⟩
  by_cases hin : ∀ k, x ≠ .inside k
  · exact Knows.congr hx hin (hout q hqp)
  -- nobody inside has gone past a test that found `log.committing` clear
  push Not at hin
  obtain ⟨k, rfl⟩ := hin
  have hended : ¬ Ended q s := fun he => by simp [he.committer] at h
  cases k with
  | beginInc => exact absurd (mustWait_of_committing hc) (by simp [hx.2.2])
  | endCheck => exact absurd hx hended
  | endTest => exact absurd hx hended
  | endCommitting => exact absurd hx.1 hended
  | endWakeup => exact absurd hx.1 hended
  | panic x => exact hx
  | _ => exact ⟨hrest hx.1, hout q hqp _ hx.2⟩

theorem notes_act (p : ℕ) (k : Pc) (s : State) (h : Knows p s (.inside k)) :
    notes.Keeps p k s (code p k s) := by
  have hstable : ∀ {s' : State}, (s.committer = none ∨ s.committer = some p) →
      (s'.committer = none ∨ s'.committer = some p) →
      (∀ q, q ≠ p → (q ∈ s'.ops ↔ q ∈ s.ops)) → notes.StableOut p s s' := by
    intro s' hc hc' hops q hqp x hx hq
    exact Knows.congr hq hx fun o ho => ho.congr (hops q hqp) (by grind) (by grind)
  have hself : notes.StableOut p s s := fun _ _ _ _ => id
  cases k with
  | beginTest =>
    obtain ⟨hr, ho⟩ := h
    cases hw : s.log.mustWait with
    | true =>
      simp only [code, hw, if_true]
      exact ⟨⟨rfl, ho⟩, hr, hw⟩
    | false =>
      simp only [code, hw]
      exact ⟨⟨hr, ho, hw⟩, hself, by simp [notes, hw]⟩
  | beginInc =>
    obtain ⟨hr, ⟨hp, -⟩, hw⟩ := h
    have hc : s.log.committing = false := by
      rw [Log.mustWait, Bool.or_eq_false_iff] at hw
      exact hw.1
    have hnone : s.committer = none := by simpa [hc] using hr.committing.symm
    refine ⟨⟨⟨?_, hr.committing, by simp [hc], by simp⟩, by simp [OutKnows, hnone]⟩,
      hstable (.inl hnone) (.inl hnone) (fun q hqp => by simp [hqp]), by simp [notes, hw]⟩
    simp [hp, hr.count]
  | endDec =>
    obtain ⟨hr, hp, -⟩ := h
    obtain ⟨hc, hnone⟩ := hr.not_committing hp
    refine ⟨⟨by simp, ?_, hc, hnone⟩, hstable (.inl hnone) (.inl hnone)
      (fun q hqp => by simp [hqp]), fun _ => .inr trivial⟩
    have := Finset.card_erase_add_one hp
    simp only [hr.count]
    omega
  | endCheck =>
    have h : Ended p s := h
    simp only [code, h.committing]
    exact ⟨h, hself, fun _ => .inr trivial⟩
  | endTest =>
    have h : Ended p s := h
    by_cases h0 : s.ops = ∅
    · simp only [code, h.count, h0, Finset.card_empty, Nat.cast_zero, if_true]
      exact ⟨⟨h, h0⟩, hself, fun _ => .inr trivial⟩
    · simp only [code, h.count, Nat.cast_eq_zero, Finset.card_eq_zero, h0, if_false]
      exact ⟨⟨h, h0⟩, hself, fun _ => .inr trivial⟩
  | endCommitting =>
    obtain ⟨h, h0⟩ := h
    exact ⟨⟨⟨h.count, rfl, fun _ => h0, by simp⟩, ⟨h0, rfl⟩, rfl, rfl⟩,
      hstable (.inl h.committer) (.inr rfl) (fun _ _ => Iff.rfl),
      fun _ => .inl (mustWait_of_committing rfl)⟩
  | endWakeup =>
    obtain ⟨h, h0⟩ := h
    exact ⟨⟨h.count, by simp [h.committing, h.committer], by simp [h.committing],
      fun he => absurd he h0⟩, h.out, by simp [h.committer]⟩
  | doneCommitting =>
    obtain ⟨hr, ⟨h0, hcom⟩, hc, hlh⟩ := h
    exact ⟨⟨⟨hr.count, rfl, by simp, fun _ _ => hlh⟩, by simp [h0], by simp⟩,
      hstable (.inr hcom) (.inl rfl) (fun _ _ => Iff.rfl), fun _ => .inr trivial⟩
  | doneWakeup => exact h
  | writeFull b =>
    cases hf : s.log.full with
    | true =>
      simp only [code, hf, if_true]
      exact ⟨rfl, hself, by simp [notes]⟩
    | false =>
      simp only [code, hf]
      exact ⟨h, hself, by simp [notes]⟩
  | writeTrans b =>
    have hpos : ¬ s.log.outstanding < 1 := by
      have := Finset.card_pos.2 ⟨p, h.2.1⟩
      rw [h.1.count]
      omega
    simp only [code, hpos, if_false]
    exact ⟨h, hself, by simp [notes]⟩
  | writeRecord b =>
    obtain ⟨hr, hp, -⟩ := h
    obtain ⟨hc, hnone⟩ := hr.not_committing hp
    refine ⟨⟨⟨by simp [hr.count], by simp [hr.committing], by simp [hc], fun h0 => ?_⟩, hp,
      by simp [hnone]⟩, hstable (.inl hnone) (.inl hnone) (fun _ _ => Iff.rfl), ?_⟩
    · exact absurd hp (by simp [show s.ops = ∅ from h0])
    · rintro (hw | hN)
      · exact .inl (mustWait_record hw)
      · exact hN.elim
  | release o => exact ⟨h.2, h.1, by simp [notes]⟩
  | panic x => exact ⟨h, hself, by simp [notes]⟩

theorem notes_proves : notes.Proves system where
  act := notes_act
  call p o s k s' h he := by
    obtain ⟨rfl, hc⟩ := he
    exact ⟨⟨o, hc, h⟩, id, fun _ _ _ => id, id⟩
  free p o s o' s' h hf := by
    obtain ⟨⟨lh, rfl⟩, rfl, rfl⟩ := hf
    exact ⟨⟨h.1, h.2.1, rfl⟩, notes_stable_commit h.1.2 h.2.1⟩
  acquire p s k hr hk := by
    obtain ⟨o, hc, ho⟩ := hk
    cases o with
    | idle =>
      obtain rfl : k = .beginTest := hc
      exact ⟨hr, ho⟩
    | inOp =>
      obtain rfl | ⟨b, rfl⟩ := hc
      · exact ⟨hr, ho⟩
      · exact ⟨hr, ho⟩
    | committing lh => exact hc.elim
    | committed =>
      obtain rfl : k = .doneCommitting := hc
      exact ⟨hr, ho⟩
  wake p s k hk := by
    obtain ⟨rfl, ho⟩ := hk
    exact ⟨.idle, rfl, ho⟩

/-- A process comes to the end of `end_op` only by waking all sleepers. -/
theorem wakesFirst_release : WakesFirst system (· = .release .idle) where
  move p k s s' j h hj := by
    subst hj
    cases k <;> simp only [system, code] at h <;> grind
  wait p k s j h hj := by
    subst hj
    cases k <;> simp only [system, code] at h <;> grind
  entry p o s k s' h hk := by
    subst hk
    cases o <;> simp [system, Calls] at h

/-- The log over whole runs, from any log that is empty and idle. The header does not change
under `commit`: no process is in an operation then, and no other one commits. Of the panics only
`too big a transaction` can happen. While the lock is free, a process sleeps in `begin_op` only
if it has to wait, and then another process is in an operation or commits; when an `end_op`, with
a commit or without, releases the lock for the last time, it has woken all sleepers. -/
theorem log_commit_alone (hl : l.outstanding = 0 ∧ l.committing = false ∧ l.lh = [])
    (h : Reachable l m) :
    (∀ p lh, m.thread p = .out (.committing lh) → m.shared.log.lh = lh ∧ m.shared.ops = ∅ ∧
      ∀ q lh', m.thread q = .out (.committing lh') → q = p) ∧
    (∀ p, m.thread p = .out .inOp → p ∈ m.shared.ops) ∧
    (∀ p x, m.thread p = .inside (.panic x) → x = .tooBigTransaction) ∧
    (∀ p k, m.thread p = .asleep k → m.lock = none → m.shared.log.mustWait = true ∧
      ((∃ q, q ≠ p ∧ q ∈ m.shared.ops) ∨ ∃ q, q ≠ p ∧ m.shared.committer = some q)) ∧
    ∀ q, m.thread q = .inside (.release .idle) → ∀ p k, m.thread p ≠ .asleep k := by
  obtain ⟨h0, hc, hlh⟩ := hl
  have hinv := notes_proves.holds (s := start l) (o := .idle)
    ⟨by simp [start, h0], by simp [start, hc], fun _ => rfl, fun _ _ => hlh⟩
    (fun p => ⟨by simp [start], by simp [start]⟩) h
  have hat : ∀ p x, m.thread p = x → Knows p m.shared x := fun p x hp => hp ▸ hinv.knows p
  refine ⟨fun p lh hp => ?_, fun p hp => (hat p _ hp).1, fun p x hp => hat p _ hp,
    fun p k hp hlock => ?_, fun q hq => (wakesFirst_release.awakeAt h).inside q _ hq rfl⟩
  · obtain ⟨⟨hops, hcom⟩, -, hlh⟩ := hat p _ hp
    refine ⟨hlh, hops, fun q lh' hq => ?_⟩
    exact Option.some.inj ((hat q _ hq).1.2.symm.trans hcom)
  · obtain ⟨-, hp_out, hp_com⟩ := hat p _ hp
    have hr : Rest m.shared := hinv.rest hlock
    have hw : m.shared.log.mustWait = true := by
      refine (hinv.asleep p k hp).elim id ?_
      rintro ⟨q, j, hj, -⟩
      cases hlock.symm.trans (hinv.locked q j hj)
    refine ⟨hw, ?_⟩
    cases hcom : m.shared.committer with
    | some q =>
      exact .inr ⟨q, fun hqp => hp_com (hqp ▸ hcom), rfl⟩
    | none =>
      have hc : m.shared.log.committing = false := by rw [hr.committing, hcom]; rfl
      have hne : m.shared.ops.Nonempty := by
        rw [Finset.nonempty_iff_ne_empty]
        intro hempty
        simp [Log.mustWait, hc, hr.count, hempty, hr.empty hempty hc, MAXOPBLOCKS, LOGSIZE] at hw
      obtain ⟨q, hq⟩ := hne
      exact .inl ⟨q, fun hqp => hp_out (hqp ▸ hq), hq⟩

/-- Process `0` commits, and process `1` sleeps until it is done. -/
theorem log_commit_alone_two : ∃ m, Reachable ⟨2, 30, 0, false, 1, []⟩ m ∧
    m.thread 0 = .out (.committing []) ∧ m.thread 1 = .asleep .beginTest ∧
    m.shared.log.mustWait = true ∧
    ((∃ q, q ≠ 1 ∧ q ∈ m.shared.ops) ∨ ∃ q, q ≠ 1 ∧ m.shared.committer = some q) := by
  have hbegin : Calls .idle .beginTest := rfl
  have hend : Calls .inOp .endDec := .inl rfl
  have h : Reachable ⟨2, 30, 0, false, 1, []⟩ _ := .start _ rfl
  have h := h.next _ _ 0 (.call 0 _ _ _ rfl ⟨rfl, hbegin⟩)
  have h := h.next _ _ 0 (.acquire 0 _ rfl rfl)
  have h := h.next _ _ 0 (.act 0 .beginTest rfl)
  have h := h.next _ _ 0 (.act 0 .beginInc rfl)
  have h := h.next _ _ 0 (.act 0 (.release .inOp) rfl)
  have h := h.next _ _ 0 (.call 0 _ _ _ rfl ⟨rfl, hend⟩)
  have h := h.next _ _ 0 (.acquire 0 _ rfl rfl)
  have h := h.next _ _ 0 (.act 0 .endDec rfl)
  have h := h.next _ _ 0 (.act 0 .endCheck rfl)
  have h := h.next _ _ 0 (.act 0 .endTest rfl)
  have h := h.next _ _ 0 (.act 0 .endCommitting rfl)
  have h := h.next _ _ 0 (.act 0 (.release (.committing [])) rfl)
  have h := h.next _ _ 1 (.call 1 _ _ _ rfl ⟨rfl, hbegin⟩)
  have h := h.next _ _ 1 (.acquire 1 _ rfl rfl)
  have h := h.next _ _ 1 (.act 1 .beginTest rfl)
  exact ⟨_, h, rfl, rfl, (log_commit_alone ⟨rfl, rfl, rfl⟩ h).2.2.2.1 1 .beginTest rfl rfl⟩

end

end LogProtocol
end Xv6
