import Xv6.Fs.LogSpec

/-!
Transactions. `Tx` is what holds between two calls into `log.c`: the logged blocks are
pinned in the cache, everything else in the cache is on the disk, and the log has room
for what it lists.
-/

namespace Xv6
open Hoare RedoLog

/-- A log at rest: no commit is going on, and what the header lists can be committed. -/
structure Log.Ok (start size : ℕ) (l : Log) : Prop where
  start_eq : l.start = start
  size_eq : l.size = size
  dev : l.dev = ROOTDEV
  committing : l.committing = false
  outstanding : 0 ≤ l.outstanding
  in_trans : l.lh ≠ [] → 0 < l.outstanding
  nodup : l.lh.Nodup
  home : ∀ b ∈ l.lh, Home start size b
  fits : HeaderFits l.lh
  room : l.lh.length < size

structure Tx (start size : ℕ) (D : Set ℕ) (H : Finset ℕ) (V : ℕ → Block) (s : Store) : Prop where
  bio : Bio D H s.log.lh.toFinset V s
  log : s.log.Ok start size

/-- The writes `end_op` makes: a commit when the last operation ends. -/
def endWrites (V : ℕ → Block) (l : Log) : List (ℕ × Block) :=
  if l.outstanding = 1 ∧ l.lh ≠ [] then
    commitWrites headerFormat l.start (V l.start) l.lh V
  else []

section
variable {start size : ℕ} {D : Set ℕ} {H : Finset ℕ} {V : ℕ → Block} {s : Store} {i b : ℕ}
  {E : Fault → Store → Prop}

theorem Wrote.withLog {s t : Store} {ws : List (ℕ × Block)} (h : Wrote s ws t) (l : Log) :
    Wrote s ws (t.withLog l) := ⟨h.writes, h.disk⟩

theorem Log.full_eq_false {l : Log} (h : l.full = false) :
    l.lh.length < LOGSIZE ∧ l.lh.length + 1 < l.size := by
  simp only [Log.full, decide_eq_false_iff_not] at h
  omega

@[simp] theorem Log.record_committing (l : Log) (b : ℕ) :
    (l.record b).committing = l.committing := by
  unfold record; split_ifs <;> rfl

@[simp] theorem Log.record_outstanding (l : Log) (b : ℕ) :
    (l.record b).outstanding = l.outstanding := by
  unfold record; split_ifs <;> rfl

theorem Log.record_lh (l : Log) (b : ℕ) :
    (l.record b).lh = if b ∈ l.lh then l.lh else l.lh ++ [b] := by
  unfold record; split_ifs <;> rfl

theorem Log.record_toFinset (l : Log) (b : ℕ) :
    (l.record b).lh.toFinset = insert b l.lh.toFinset := by
  rw [record_lh]
  split_ifs with hb
  · rw [Finset.insert_eq_self.2 (List.mem_toFinset.2 hb)]
  · ext c
    simp

/-- Absorbing a block or adding it keeps the log in order, when there is room. -/
theorem Log.Ok.record {l : Log} (h : l.Ok start size) (hfull : l.full = false)
    (hb : Home start size b) (h32 : b < 2 ^ 32) (ho : 1 ≤ l.outstanding) :
    (l.record b).Ok start size := by
  obtain ⟨hlen, hroom⟩ := Log.full_eq_false hfull
  rw [h.size_eq] at hroom
  by_cases hm : b ∈ l.lh
  · rwa [Log.record, if_pos hm]
  · rw [Log.record, if_neg hm]
    refine ⟨h.start_eq, h.size_eq, h.dev, h.committing, h.outstanding, fun _ => ho, ?_, ?_,
      ⟨?_, ?_⟩, ?_⟩
    · exact List.nodup_append.2 ⟨h.nodup, by simp, by grind⟩
    · simpa [or_imp, forall_and] using ⟨h.home, hb⟩
    · simpa using hlen
    · simpa [or_imp, forall_and] using ⟨h.fits.2, h32⟩
    · simpa using hroom

theorem Log.Ok.withOutstanding {l : Log} (h : l.Ok start size) {o : ℤ} (h0 : 0 ≤ o)
    (hin : l.lh ≠ [] → 0 < o) :
    Log.Ok start size ⟨l.start, l.size, o, false, l.dev, l.lh⟩ :=
  ⟨h.start_eq, h.size_eq, h.dev, rfl, h0, hin, h.nodup, h.home, h.fits, h.room⟩

theorem Log.Ok.cleared {l : Log} (h : l.Ok start size) {o : ℤ} (h0 : 0 ≤ o) :
    Log.Ok start size ⟨l.start, l.size, o, false, l.dev, []⟩ :=
  ⟨h.start_eq, h.size_eq, h.dev, rfl, h0, by simp, by simp, by simp, headerFormat.fits_nil,
    lt_of_le_of_lt (Nat.zero_le _) h.room⟩

theorem beginOp_spec (h : Tx start size D H V s)
    (hE : s.log.mustWait = true → E .asleep s) :
    Post beginOp s (fun _ t => Tx start size D H V t ∧ s.log.mustWait = false ∧
      t = s.withLog { s.log with outstanding := s.log.outstanding + 1 }) E := by
  simp only [beginOp, post_bind, post_get]
  cases hw : s.log.mustWait with
  | true => simpa using hE hw
  | false =>
    simp only [Bool.false_eq_true, if_false, post_modifyLog]
    have h0 := h.log.outstanding
    refine ⟨⟨h.bio.withLog _, ?_⟩, trivial, trivial⟩
    rw [Store.withLog_log, h.log.committing]
    exact h.log.withOutstanding (by omega) fun _ => by omega

theorem logWrite_spec (h : Tx start size D H V s) (hc : s.Caches i b) (hb : Home start size b)
    (h32 : b < 2 ^ 32) (hfull : s.log.full = true → E (.panic .tooBigTransaction) s)
    (hout : s.log.outstanding < 1 → E (.panic .logWriteOutsideTrans) s) :
    Post (logWrite i) s
      (fun _ t => Tx start size (D \ {b}) H (Function.update V b (s.bufs.get i).data) t ∧
        SameCaches s t ∧ s.log.full = false ∧ t.log = s.log.record b ∧ t.disk = s.disk ∧
        t.writes = s.writes) E := by
  simp only [logWrite, post_bind, post_get, post_getBuf, hc.2.2]
  cases hf : s.log.full with
  | true => simpa using hfull hf
  | false =>
    simp only [Bool.false_eq_true, if_false]
    by_cases ho : s.log.outstanding < 1
    · simpa [ho] using hout ho
    · simp only [ho, if_false]
      have hlog := h.log.record hf hb h32 (by omega)
      by_cases hm : b ∈ s.log.lh
      · simp only [hm, not_true, if_false, post_modifyLog]
        obtain ⟨hbio, hsc⟩ := h.bio.pin hc (t := s) (x := s.bufs.get i) (by simp [hm])
          (fun j => by split_ifs with hj <;> simp [hj]) rfl rfl
        refine ⟨⟨?_, hlog⟩, hsc, trivial, rfl, rfl, rfl⟩
        rw [Store.withLog_log, Log.record_toFinset]
        exact hbio.withLog _
      · simp only [hm, not_false_eq_true, if_true, post_bind, bpin, post_modifyBuf, post_modifyLog]
        obtain ⟨hbio, hsc⟩ := h.bio.pin hc
          (x := { s.bufs.get i with refcnt := (s.bufs.get i).refcnt + 1 }) (by simp [hm])
          (bufAt_setBuf s i _) rfl rfl
        refine ⟨⟨?_, hlog⟩, hsc, trivial, rfl, rfl, rfl⟩
        rw [Store.withLog_log, Store.setBuf_log, Log.record_toFinset]
        exact hbio.withLog _

/-- Ending an operation makes the writes of a commit if it is the last one, and changes
no home block as the cache shows it. -/
theorem endOp_spec (h : Tx start size D ∅ V s) (hD : ∀ b, ¬ Home start size b → b ∉ D)
    (hlh : ∀ b ∈ s.log.lh, b ∉ D) (ho : 0 < s.log.outstanding)
    (hE : ∀ ws t, ws <+: endWrites V s.log → Wrote s ws t → E (.panic .bgetNoBuffers) t) :
    Post endOp s
      (fun _ t => ∃ V', Tx start size D ∅ V' t ∧ (∀ b, Home start size b → V' b = V b) ∧
        t.log = { s.log with
          outstanding := s.log.outstanding - 1
          lh := if s.log.outstanding = 1 then [] else s.log.lh } ∧
        Wrote s (endWrites V s.log) t) E := by
  simp only [endOp, post_bind, post_modifyLog, post_get, Store.withLog_log, h.log.committing,
    Bool.false_eq_true, if_false]
  by_cases h1 : s.log.outstanding = 1
  · simp only [h1, sub_self, if_true, post_bind, post_modifyLog, Store.withLog_log,
      Store.withLog_withLog]
    let busy : Log := ⟨s.log.start, s.log.size, 0, true, s.log.dev, s.log.lh⟩
    by_cases hnil : s.log.lh = []
    · simp only [commit, post_bind, post_get, Store.withLog_log, hnil, List.length_nil,
        gt_iff_lt, lt_irrefl, if_false, post_pure,
        Store.withLog_withLog]
      refine ⟨V, ⟨?_, h.log.cleared le_rfl⟩, fun _ _ => rfl, trivial, ?_⟩
      · rw [Store.withLog_log, ← hnil]
        exact h.bio.withLog _
      · rw [endWrites, if_neg (by simp [hnil])]
        exact (Wrote.refl s).withLog _
    · have hW : endWrites V s.log = commitWrites headerFormat start (V start) s.log.lh V := by
        rw [endWrites, if_pos ⟨h1, hnil⟩, h.log.start_eq]
      rw [hW] at hE ⊢
      have hhome : ∀ b ∈ (s.withLog busy).log.lh, Home start size b ∧ b ∉ D :=
        fun b hb => ⟨h.log.home b hb, hlh b hb⟩
      apply (commit_spec (s := s.withLog busy) (h.bio.withLog busy) h.log.start_eq h.log.dev hD
        hhome h.log.nodup hnil h.log.room fun ws t hws hwt => hE ws t hws ⟨hwt.writes, hwt.disk⟩).imp
      rintro _ t ⟨ht, hw, hl⟩
      simp only [Store.withLog_log] at ht hw hl
      refine ⟨wr V (commitWrites headerFormat start (V start) s.log.lh V), ⟨?_, ?_⟩,
        fun b hb => wr_commitWrites_home h.log.room hb, ?_, ?_⟩
      · simp only [hl, Store.withLog_log]
        exact ht.withLog _
      · simp only [hl, Store.withLog_log]
        exact h.log.cleared le_rfl
      · simp only [hl, busy]
      · exact ⟨hw.writes, hw.disk⟩
  · have h0 : s.log.outstanding - 1 ≠ 0 := by omega
    simp only [h0, h1, if_false, post_pure]
    refine ⟨V, ⟨h.bio.withLog _, ?_⟩, fun _ _ => rfl, rfl, ?_⟩
    · exact h.log.withOutstanding (by omega) fun _ => by omega
    · rw [endWrites, if_neg (by tauto)]
      exact (Wrote.refl s).withLog _

end

end Xv6
