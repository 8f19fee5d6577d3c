import Mathlib.Data.List.DropRight
import Xv6.User.Xargs

/-!
How often `xargs` calls `exec` for a line. A child whose `exec` fails works on the rest of its
chunk and on the rest of the input, and its parent then works on the rest of the chunk again.
-/

namespace Xv6
namespace Xargs

/-- A character that ends a line for `xargs`. -/
def isEnd (c : UInt8) : Bool := c = NL ∨ c = CR

/-- The offsets of the characters that end a line. -/
def ends : ℕ → List UInt8 → List ℕ
  | _, [] => []
  | off, c :: l => if isEnd c then off :: ends (off + 1) l else ends (off + 1) l

/-- `k` calls of `exec` were made before this chunk. All calls for it succeed, the last one
apart. -/
def AllButLast (ok : ℕ → Bool) (k : ℕ) (c : List UInt8) : Prop :=
  ∀ j, j + 1 < c.countP isEnd → ok (k + j) = true

def Lucky (ok : ℕ → Bool) : ℕ → List (List UInt8) → Prop
  | _, [] => True
  | k, c :: cs => AllButLast ok k c ∧ Lucky ok (k + c.countP isEnd) cs

/-- The line that the byte at offset `x` belongs to. -/
def lineOf (input : List UInt8) (x : ℕ) : ℕ := (input.take x).count NL

/-- The variables of a process that has read this input. -/
def after (nargs : ℕ) (v : Vars) (input : List UInt8) : Vars :=
  input.foldl (fun v c => v.step nargs c) v

section
variable {nargs n off : ℕ} {forks ok : ℕ → Bool} {v : Vars} {c : UInt8} {l l' rest : List UInt8}
  {cs chunks : List (List UInt8)} {p : Process} {w w' w₁ w₂ : World} {k x : ℕ}

theorem after_append (nargs : ℕ) (v : Vars) (a b : List UInt8) :
    after nargs v (a ++ b) = after nargs (after nargs v a) b := List.foldl_append ..

theorem isEnd_iff : isEnd c = true ↔ c = NL ∨ c = CR := decide_eq_true_iff

theorem ends_append (off : ℕ) (l l' : List UInt8) :
    ends off (l ++ l') = ends off l ++ ends (off + l.length) l' := by
  induction l generalizing off with
  | nil => rfl
  | cons c l ih =>
    rw [List.cons_append, ends, ends, ih, List.length_cons, Nat.add_right_comm, Nat.add_assoc]
    split_ifs <;> rfl

theorem mem_ends_append (pre l : List UInt8) (hc : isEnd c = true) :
    pre.length ∈ ends 0 (pre ++ c :: l) := by
  rw [ends_append, Nat.zero_add, ends, hc]
  exact List.mem_append_right _ List.mem_cons_self

theorem length_ends (off : ℕ) (l : List UInt8) : (ends off l).length = l.countP isEnd := by
  induction l generalizing off with
  | nil => rfl
  | cons c l ih =>
    rw [ends, List.countP_cons, ← ih (off + 1)]
    split_ifs <;> rfl

theorem allButLast_cons (hc : isEnd c = true) :
    AllButLast ok k (c :: l) ↔ (0 < l.countP isEnd → ok k = true) ∧ AllButLast ok (k + 1) l := by
  unfold AllButLast
  rw [List.countP_cons_of_pos hc]
  constructor
  · intro h
    refine ⟨fun hl => h 0 (by omega), fun j hj => ?_⟩
    rw [Nat.add_assoc, Nat.add_comm 1]
    exact h (j + 1) (by omega)
  · rintro ⟨h₀, h₁⟩ j hj
    cases j with
    | zero => exact h₀ (by omega)
    | succ j =>
      rw [Nat.add_comm j, ← Nat.add_assoc]
      exact h₁ j (by omega)

theorem allButLast_cons_of_not (hc : isEnd c = false) :
    AllButLast ok k (c :: l) ↔ AllButLast ok k l := by
  unfold AllButLast
  rw [List.countP_cons_of_neg (by rw [hc]; exact Bool.false_ne_true)]

theorem allButLast_of_zero (h : l.countP isEnd = 0) : AllButLast ok k l := fun j hj => by omega

/-! ### Processes as a relation -/

theorem World.length_called (w : World) (a : Attempt) :
    (w.called a).log.length = w.log.length + 1 := List.length_append

theorem World.offs_called (w : World) (a : Attempt) (new : List ℕ) :
    (w.called a).log.map Attempt.off ++ new = w.log.map Attempt.off ++ a.off :: new := by
  rw [World.called, List.map_append, List.append_assoc]
  rfl

/-- Process `p` runs from the world `w` until it exits in `w'`, and no `fork` fails. -/
inductive Ran (nargs : ℕ) (ok : ℕ → Bool) : Process → World → World → Prop
  | exit {v : Vars} {off : ℕ} {w : World} : w.chunks = [] → Ran nargs ok ⟨v, [], off⟩ w w
  | read {v : Vars} {off : ℕ} {w w' : World} {c : UInt8} {l : List UInt8} {cs : List (List UInt8)} :
      w.chunks = (c :: l) :: cs →
      Ran nargs ok ⟨v, c :: l, w.off⟩ ⟨cs, w.off + (c :: l).length, w.forks, w.log⟩ w' →
      Ran nargs ok ⟨v, [], off⟩ w w'
  | char {v : Vars} {off : ℕ} {w w' : World} {c : UInt8} {l : List UInt8} : isEnd c = false →
      Ran nargs ok ⟨v.step nargs c, l, off + 1⟩ w w' → Ran nargs ok ⟨v, c :: l, off⟩ w w'
  | done {v : Vars} {off : ℕ} {w w' : World} {c : UInt8} {l : List UInt8} : isEnd c = true →
      ok w.log.length = true →
      Ran nargs ok ⟨v.step nargs c, l, off + 1⟩ (w.called ⟨off, v.endWord⟩) w' →
      Ran nargs ok ⟨v, c :: l, off⟩ w w'
  | failed {v : Vars} {off : ℕ} {w w₁ w' : World} {c : UInt8} {l : List UInt8} : isEnd c = true →
      ok w.log.length = false →
      Ran nargs ok ⟨v.step nargs c, l, off + 1⟩ (w.called ⟨off, v.endWord⟩) w₁ →
      Ran nargs ok ⟨v.step nargs c, l, off + 1⟩ w₁ w' → Ran nargs ok ⟨v, c :: l, off⟩ w w'

theorem Ran.at_end (h : Ran nargs ok p w w') : w'.chunks = [] := by
  induction h with
  | exit hw => exact hw
  | read _ _ ih => exact ih
  | char _ _ ih => exact ih
  | done _ _ _ ih => exact ih
  | failed _ _ _ _ _ ih => exact ih

theorem ran_of_run (hf : ∀ i, forks i = true) (hne : ∀ c ∈ w.chunks, c ≠ [])
    (h : run nargs forks ok n p w = .ok w') : Ran nargs ok p w w' := by
  induction n generalizing p w w' with
  | zero => cases h
  | succ n ih =>
    obtain ⟨v, rest, off⟩ := p
    rw [run] at h
    dsimp only at h
    cases rest with
    | nil =>
      dsimp only [World.read] at h
      cases hw : w.chunks with
      | nil =>
        rw [hw] at h
        cases h
        exact .exit hw
      | cons l cs =>
        rw [hw] at h hne
        cases l with
        | nil => exact absurd rfl (hne [] List.mem_cons_self)
        | cons c l => exact .read hw (ih (fun d hd => hne d (List.mem_cons_of_mem _ hd)) h)
    | cons c l =>
      dsimp only at h
      split_ifs at h with hbounds hc hfork hok
      · rw [hf] at hfork
        cases hfork
      · exact .done (isEnd_iff.2 hc) hok (ih hne h)
      · cases hchild : run nargs forks ok n ⟨v.step nargs c, l, off + 1⟩
            (w.called ⟨off, v.endWord⟩) with
        | error e =>
          rw [hchild] at h
          cases h
        | ok w₁ =>
          rw [hchild] at h
          have hchild := ih (w := w.called ⟨off, v.endWord⟩) hne hchild
          refine .failed (isEnd_iff.2 hc) (Bool.eq_false_iff.2 hok) hchild (ih (fun d hd => ?_) h)
          rw [hchild.at_end] at hd
          cases hd
      · exact .char (Bool.eq_false_iff.2 fun he => hc (isEnd_iff.1 he)) (ih hne h)

/-! ### The variables along the input -/

/-- No store that the input leads to is outside an array. -/
def Safe (nargs : ℕ) (v : Vars) (input : List UInt8) : Prop :=
  ∀ pre c post, input = pre ++ c :: post → (after nargs v pre).inBounds c = true

/-- Where a process is in the input, and what the others have left of it. -/
structure Along (nargs : ℕ) (v : Vars) (input : List UInt8) (p : Process) (w : World) : Prop where
  vars : p.vars = after nargs v (input.take p.off)
  rest : p.rest <+: input.drop p.off
  left : w.chunks = [] ∨ p.off + p.rest.length = w.off ∧ w.chunks.flatten = input.drop w.off

section
variable {v₀ : Vars} {input : List UInt8}

theorem Along.read (h : Along nargs v₀ input ⟨v, [], off⟩ w) (hw : w.chunks = (c :: l) :: cs) :
    Along nargs v₀ input ⟨v, c :: l, w.off⟩ ⟨cs, w.off + (c :: l).length, w.forks, w.log⟩ := by
  obtain hnil | ⟨hoff, hflat⟩ := h.left
  · rw [hnil] at hw
    cases hw
  · rw [hw, List.flatten_cons] at hflat
    have hoff : off = w.off := hoff
    refine ⟨hoff ▸ h.vars, ⟨cs.flatten, hflat⟩, .inr ⟨rfl, ?_⟩⟩
    show cs.flatten = input.drop (w.off + (c :: l).length)
    rw [← List.drop_drop, ← hflat, List.drop_left]

theorem Along.split (h : Along nargs v₀ input ⟨v, c :: l, off⟩ w) :
    ∃ post, input = input.take off ++ c :: post := by
  obtain ⟨t, ht⟩ := h.rest
  have ht : c :: (l ++ t) = input.drop off := ht
  exact ⟨l ++ t, by rw [ht, List.take_append_drop]⟩

theorem Along.step (h : Along nargs v₀ input ⟨v, c :: l, off⟩ w)
    (hw : w'.chunks = [] ∨ w'.chunks = w.chunks ∧ w'.off = w.off) :
    Along nargs v₀ input ⟨v.step nargs c, l, off + 1⟩ w' := by
  obtain ⟨t, ht⟩ := h.rest
  have ht : c :: (l ++ t) = input.drop off := ht
  have htake : input.take (off + 1) = input.take off ++ [c] := by
    rw [List.take_add, ← ht]
    rfl
  refine ⟨?_, ⟨t, ?_⟩, ?_⟩
  · show v.step nargs c = after nargs v₀ (input.take (off + 1))
    rw [htake, after_append, ← h.vars]
    rfl
  · show l ++ t = input.drop (off + 1)
    rw [← List.tail_drop, ← ht]
    rfl
  · obtain hw | ⟨hchunks, hoff⟩ := hw
    · exact .inl hw
    · rw [hchunks, hoff]
      refine h.left.imp_right fun hleft => ⟨?_, hleft.2⟩
      have hlen : off + (l.length + 1) = w.off := hleft.1
      show off + 1 + l.length = w.off
      omega

/-- Every process exits. -/
theorem run_returns (hf : ∀ i, forks i = true) (hsafe : Safe nargs v₀ input)
    (hal : Along nargs v₀ input p w) (hne : ∀ c ∈ w.chunks, c ≠ [])
    (hn : p.rest.length + w.chunks.flatten.length + w.chunks.length < n) :
    ∃ w', run nargs forks ok n p w = .ok w' := by
  induction n generalizing p w with
  | zero => omega
  | succ n ih =>
    obtain ⟨v, rest, off⟩ := p
    rw [run]
    cases rest with
    | nil =>
      dsimp only [World.read]
      cases hw : w.chunks with
      | nil => exact ⟨_, rfl⟩
      | cons l cs =>
        rw [hw] at hne hn
        cases l with
        | nil => exact absurd rfl (hne [] List.mem_cons_self)
        | cons c l =>
          refine ih (hal.read hw) (fun d hd => hne d (List.mem_cons_of_mem _ hd)) ?_
          simp only [List.flatten_cons, List.length_append, List.length_cons, List.length_nil]
            at hn ⊢
          omega
    | cons c l =>
      simp only [List.length_cons] at hn ⊢
      have hgo : ∀ u : World, (u.chunks = [] ∨ u.chunks = w.chunks ∧ u.off = w.off) →
          ∃ w', run nargs forks ok n ⟨v.step nargs c, l, off + 1⟩ u = .ok w' := by
        intro u hu
        refine ih (hal.step hu) ?_ ?_
        · obtain hu | ⟨hu, -⟩ := hu <;> rw [hu]
          · exact List.forall_mem_nil _
          · exact hne
        · obtain hu | ⟨hu, -⟩ := hu <;> rw [hu]
          · show l.length + 0 + 0 < n
            omega
          · show l.length + _ + _ < n
            omega
      obtain ⟨post, hsplit⟩ := hal.split
      have hbounds : v.inBounds c = true := by
        have := hsafe _ c post hsplit
        rwa [← hal.vars] at this
      rw [if_neg (by rw [hbounds]; simp)]
      by_cases hc : c = NL ∨ c = CR
      · rw [if_pos hc, if_neg (by rw [hf]; simp)]
        by_cases hok : ok w.log.length = true
        · rw [if_pos hok]
          exact hgo _ (.inr ⟨rfl, rfl⟩)
        · rw [if_neg hok]
          obtain ⟨w₁, hrun⟩ := hgo (w.called ⟨off, v.endWord⟩) (.inr ⟨rfl, rfl⟩)
          have hend := (ran_of_run (w := w.called ⟨off, v.endWord⟩) hf hne hrun).at_end
          rw [hrun]
          exact hgo w₁ (.inl hend)
      · rw [if_neg hc]
        exact hgo w (.inr ⟨rfl, rfl⟩)

/-- In all processes `exec` is called at a line end, with the variables that the input so far
leads to. -/
theorem Ran.vars (h : Ran nargs ok p w w') (hal : Along nargs v₀ input p w)
    (hlog : ∀ a ∈ w.log, a.off ∈ ends 0 input ∧
      a.vars = (after nargs v₀ (input.take a.off)).endWord) :
    ∀ a ∈ w'.log, a.off ∈ ends 0 input ∧
      a.vars = (after nargs v₀ (input.take a.off)).endWord := by
  have hcalled : ∀ {u : World} {v : Vars} {c : UInt8} {l : List UInt8} {off : ℕ},
      isEnd c = true → Along nargs v₀ input ⟨v, c :: l, off⟩ u →
      (∀ a ∈ u.log, a.off ∈ ends 0 input ∧
        a.vars = (after nargs v₀ (input.take a.off)).endWord) →
      ∀ a ∈ (u.called ⟨off, v.endWord⟩).log, a.off ∈ ends 0 input ∧
        a.vars = (after nargs v₀ (input.take a.off)).endWord := by
    intro u v c l off hc hal hu a ha
    obtain ha | ha := List.mem_append.1 ha
    · exact hu a ha
    · obtain ⟨post, hsplit⟩ := hal.split
      rw [List.mem_singleton.1 ha]
      refine ⟨?_, congrArg Vars.endWord hal.vars⟩
      have hlen : (input.take off).length = off := by
        rw [List.length_take]
        have := congrArg List.length hsplit
        rw [List.length_append, List.length_take, List.length_cons] at this
        omega
      have hmem := mem_ends_append (input.take off) post hc
      rwa [← hsplit, hlen] at hmem
  induction h with
  | exit _ => exact hlog
  | read hw _ ih => exact ih (hal.read hw) hlog
  | char _ _ ih => exact ih (hal.step (.inr ⟨rfl, rfl⟩)) hlog
  | done hc _ _ ih => exact ih (hal.step (.inr ⟨rfl, rfl⟩)) (hcalled hc hal hlog)
  | failed hc _ hchild _ ih₁ ih₂ =>
    exact ih₂ (hal.step (.inl hchild.at_end))
      (ih₁ (hal.step (.inr ⟨rfl, rfl⟩)) (hcalled hc hal hlog))

end

/-! ### How many calls -/

/-- A process calls `exec` for every line end in the rest of its chunk and in what the others
have left of the input. -/
theorem Ran.covers (h : Ran nargs ok p w w') :
    ∃ new, w'.log.map Attempt.off = w.log.map Attempt.off ++ new ∧
      ∀ x ∈ ends p.off p.rest ++ ends w.off w.chunks.flatten, x ∈ new := by
  induction h with
  | exit hw =>
    refine ⟨[], (List.append_nil _).symm, ?_⟩
    rw [hw]
    exact fun x hx => hx
  | read hw _ ih =>
    rw [hw, List.flatten_cons, ends_append]
    exact ih
  | char hc _ ih =>
    rw [ends, hc]
    exact ih
  | @done _ off _ _ _ _ hc _ _ ih =>
    obtain ⟨new, hlog, hcover⟩ := ih
    refine ⟨off :: new, hlog.trans (World.offs_called ..), ?_⟩
    rw [ends, hc]
    intro x hx
    obtain rfl | hx := List.mem_cons.1 hx
    · exact List.mem_cons_self
    · exact List.mem_cons_of_mem _ (hcover x hx)
  | @failed _ off _ _ _ _ _ hc _ _ _ ih₁ ih₂ =>
    obtain ⟨new₁, hlog₁, hcover⟩ := ih₁
    obtain ⟨new₂, hlog₂, -⟩ := ih₂
    refine ⟨off :: (new₁ ++ new₂), ?_, ?_⟩
    · rw [hlog₂, hlog₁, List.append_assoc, World.offs_called]
    · rw [ends, hc]
      intro x hx
      obtain rfl | hx := List.mem_cons.1 hx
      · exact List.mem_cons_self
      · exact List.mem_cons_of_mem _ (List.mem_append_left _ (hcover x hx))

/-- When no call fails but the last one of a chunk, there is one call for each line end. -/
theorem Ran.once (h : Ran nargs ok p w w') (hrest : AllButLast ok w.log.length p.rest)
    (hlucky : Lucky ok (w.log.length + p.rest.countP isEnd) w.chunks) :
    w'.log.map Attempt.off =
      w.log.map Attempt.off ++ (ends p.off p.rest ++ ends w.off w.chunks.flatten) := by
  induction h with
  | exit hw =>
    rw [hw]
    exact (List.append_nil _).symm
  | read hw _ ih =>
    rw [hw] at hlucky ⊢
    rw [List.flatten_cons, ends_append]
    exact ih hlucky.1 hlucky.2
  | char hc _ ih =>
    rw [allButLast_cons_of_not hc] at hrest
    rw [List.countP_cons_of_neg (by rw [hc]; exact Bool.false_ne_true)] at hlucky
    rw [ends, hc]
    exact ih hrest hlucky
  | done hc _ _ ih =>
    rw [List.countP_cons_of_pos hc, Nat.add_comm _ 1, ← Nat.add_assoc] at hlucky
    rw [World.length_called] at ih
    rw [ih ((allButLast_cons hc).1 hrest).2 hlucky, ends, hc, World.offs_called]
    rfl
  | @failed _ _ _ _ _ _ l hc hok hchild _ ih₁ ih₂ =>
    obtain ⟨hsafe, hrest⟩ := (allButLast_cons hc).1 hrest
    -- a call that fails is the last one of the chunk: the parent finds no line end any more
    have hzero : l.countP isEnd = 0 := by
      by_contra hpos
      rw [hsafe (Nat.pos_of_ne_zero hpos)] at hok
      cases hok
    have hnil : ∀ off, ends off l = [] := fun off => List.length_eq_zero_iff.1
      ((length_ends off l).trans hzero)
    rw [List.countP_cons_of_pos hc, Nat.add_comm _ 1, ← Nat.add_assoc] at hlucky
    rw [World.length_called] at ih₁
    rw [hchild.at_end] at ih₂
    rw [ih₂ (allButLast_of_zero hzero) trivial, ih₁ hrest hlucky, ends, hc, hnil,
      List.append_assoc, World.offs_called]
    rw [List.nil_append, List.flatten_nil, ends, List.append_nil, List.append_nil]
    rfl

/-- When another call fails, there are two calls for the line end that comes next. -/
theorem Ran.twice (h : Ran nargs ok p w w')
    (hun : ¬(AllButLast ok w.log.length p.rest ∧
      Lucky ok (w.log.length + p.rest.countP isEnd) w.chunks)) :
    ∃ new, w'.log.map Attempt.off = w.log.map Attempt.off ++ new ∧
      ∃ x ∈ ends p.off p.rest ++ ends w.off w.chunks.flatten, 2 ≤ new.count x := by
  induction h with
  | exit hw =>
    rw [hw] at hun
    exact absurd ⟨allButLast_of_zero rfl, trivial⟩ hun
  | read hw _ ih =>
    rw [hw] at hun ⊢
    rw [List.flatten_cons, ends_append]
    exact ih fun h => hun ⟨allButLast_of_zero rfl, h⟩
  | char hc _ ih =>
    rw [allButLast_cons_of_not hc,
      List.countP_cons_of_neg (by rw [hc]; exact Bool.false_ne_true)] at hun
    rw [ends, hc]
    exact ih hun
  | @done _ off _ _ _ _ hc hok _ ih =>
    rw [List.countP_cons_of_pos hc, Nat.add_comm _ 1, ← Nat.add_assoc, allButLast_cons hc] at hun
    rw [World.length_called] at ih
    obtain ⟨new, hlog, x, hx, htwo⟩ := ih fun h => hun ⟨⟨fun _ => hok, h.1⟩, h.2⟩
    refine ⟨off :: new, hlog.trans (World.offs_called ..), x, ?_,
      htwo.trans List.count_le_count_cons⟩
    rw [ends, hc]
    exact List.mem_cons_of_mem _ hx
  | @failed v off w w₁ w' _ l hc hok hchild hparent ih₁ _ =>
    rw [List.countP_cons_of_pos hc, Nat.add_comm _ 1, ← Nat.add_assoc, allButLast_cons hc] at hun
    rw [World.length_called] at ih₁
    obtain ⟨new₂, hlog₂, hcover₂⟩ := hparent.covers
    have hlog : ∀ new₁, w₁.log.map Attempt.off =
        (w.called ⟨off, v.endWord⟩).log.map Attempt.off ++ new₁ →
        w'.log.map Attempt.off = w.log.map Attempt.off ++ off :: (new₁ ++ new₂) := by
      intro new₁ hlog₁
      rw [hlog₂, hlog₁, List.append_assoc, World.offs_called]
    rw [ends, hc]
    by_cases hzero : l.countP isEnd = 0
    · obtain ⟨new₁, hlog₁, x, hx, htwo⟩ := ih₁ fun h =>
        hun ⟨⟨fun hpos => absurd hzero hpos.ne', h.1⟩, h.2⟩
      refine ⟨_, hlog new₁ hlog₁, x, List.mem_cons_of_mem _ hx, ?_⟩
      refine le_trans ?_ List.count_le_count_cons
      rw [List.count_append]
      omega
    · -- the child and the parent both call `exec` for the next line of the chunk
      obtain ⟨new₁, hlog₁, hcover₁⟩ := hchild.covers
      obtain ⟨x, hx⟩ := List.exists_mem_of_ne_nil (ends (off + 1) l) fun hnil =>
        hzero ((length_ends (off + 1) l).symm.trans (by rw [hnil]; rfl))
      refine ⟨_, hlog new₁ hlog₁, x, List.mem_cons_of_mem _ (List.mem_append_left _ hx), ?_⟩
      have h₁ := List.count_pos_iff.2 (hcover₁ x (List.mem_append_left _ hx))
      have h₂ := List.count_pos_iff.2 (hcover₂ x (List.mem_append_left _ hx))
      refine le_trans ?_ List.count_le_count_cons
      rw [List.count_append]
      omega

end

/-! ### Lines -/

section
variable {nargs : ℕ} {forks ok : ℕ → Bool} {v : Vars} {c : UInt8} {lines chunks : List (List UInt8)}
  {log : List Attempt} {pre l input : List UInt8} {k x : ℕ}

/-- One call of `exec` for each of the lines. -/
def OncePerLine (lines : List (List UInt8)) (log : List Attempt) : Prop :=
  ∀ k < lines.length, log.countP (fun a => lineOf (ofLines lines) a.off = k) = 1

theorem ofLines_cons (l : List UInt8) (ls : List (List UInt8)) :
    ofLines (l :: ls) = l ++ NL :: ofLines ls := by
  rw [ofLines, List.map_cons, List.flatten_cons, List.append_assoc]
  rfl

theorem ofLines_append (ls ls' : List (List UInt8)) :
    ofLines (ls ++ ls') = ofLines ls ++ ofLines ls' := by
  rw [ofLines, List.map_append, List.flatten_append]
  rfl

theorem count_ofLines (h : ∀ l ∈ lines, NL ∉ l) : (ofLines lines).count NL = lines.length := by
  induction lines with
  | nil => rfl
  | cons l lines ih =>
    have hl : l.count NL = 0 := List.count_eq_zero.2 (h l List.mem_cons_self)
    have := ih fun m hm => h m (List.mem_cons_of_mem _ hm)
    rw [ofLines] at this ⊢
    rw [List.map_cons, List.flatten_cons, List.count_append, List.count_append, hl, this,
      List.length_cons, List.count_singleton_self]
    omega

theorem map_lineOf_ends (pre : List UInt8) (hcr : CR ∉ l) :
    (ends pre.length l).map (lineOf (pre ++ l)) = List.range' (pre.count NL) (l.count NL) := by
  induction l generalizing pre with
  | nil => rfl
  | cons c l ih =>
    have hnext := ih (pre ++ [c]) fun h => hcr (List.mem_cons_of_mem _ h)
    rw [List.append_assoc, List.singleton_append, List.length_append, List.length_singleton]
      at hnext
    by_cases hc : c = NL
    · rw [ends, if_pos (isEnd_iff.2 (.inl hc)), List.map_cons, hnext, hc, List.count_append,
        List.count_singleton_self, List.count_cons_self, List.range'_succ, lineOf,
        List.take_left]
    · have hc' : c ≠ CR := fun h => hcr (h ▸ List.mem_cons_self)
      rw [ends, if_neg (by rw [isEnd_iff]; tauto), hnext, List.count_append,
        List.count_cons_of_ne hc, List.count_cons_of_ne hc, List.count_nil, Nat.add_zero]

theorem countP_map_off (log : List Attempt) (f : ℕ → Bool) :
    log.countP (fun a => f a.off) = (log.map Attempt.off).countP f := by
  rw [List.countP_map]
  rfl

theorem two_le_countP {f : ℕ → Bool} {L : List ℕ} {x y : ℕ} (hx : x ∈ L) (hy : y ∈ L)
    (hne : x ≠ y) (hfx : f x = true) (hfy : f y = true) : 2 ≤ L.countP f := by
  rw [List.countP_eq_length_filter]
  have hnodup : [x, y].Nodup := by simp [hne]
  refine (hnodup.subperm fun z hz => ?_).length_le
  obtain rfl | hz := List.mem_cons.1 hz
  · exact List.mem_filter.2 ⟨hx, hfx⟩
  · rw [List.mem_singleton.1 hz]
    exact List.mem_filter.2 ⟨hy, hfy⟩

/-- A `\r` ends a line as well, and then there is a second call for the line. -/
theorem two_le_of_cr (hl : ∀ l ∈ lines, NL ∉ l) (hcr : CR ∈ ofLines lines)
    (hcover : ∀ x ∈ ends 0 (ofLines lines), x ∈ log.map Attempt.off) :
    ∃ k < lines.length, 2 ≤ log.countP (fun a => lineOf (ofLines lines) a.off = k) := by
  obtain ⟨m, hm, hcrm⟩ := List.mem_flatten.1 hcr
  obtain ⟨l, hmem, rfl⟩ := List.mem_map.1 hm
  have hcrl : CR ∈ l := by
    obtain h | h := List.mem_append.1 hcrm
    · exact h
    · exact absurd (List.mem_singleton.1 h) (by decide)
  obtain ⟨ls, ls', rfl⟩ := List.append_of_mem hmem
  obtain ⟨a, b, rfl⟩ := List.append_of_mem hcrl
  have hls := count_ofLines fun m hm => hl m (List.mem_append_left _ hm)
  have hab : NL ∉ a ++ CR :: b := hl _ (List.mem_append_right _ List.mem_cons_self)
  have hinput : ofLines (ls ++ (a ++ CR :: b) :: ls') =
      ofLines ls ++ (a ++ CR :: (b ++ NL :: ofLines ls')) := by
    rw [ofLines_append, ofLines_cons, List.append_assoc]
    rfl
  refine ⟨ls.length, by simp, ?_⟩
  rw [countP_map_off log fun x => decide (lineOf _ x = ls.length)]
  rw [hinput] at hcover ⊢
  have hx := hcover (ofLines ls ++ a).length (by
    rw [← List.append_assoc]
    exact mem_ends_append _ _ (by decide))
  have hy := hcover (ofLines ls ++ (a ++ CR :: b)).length (by
    have : ofLines ls ++ (a ++ CR :: (b ++ NL :: ofLines ls')) =
        (ofLines ls ++ (a ++ CR :: b)) ++ NL :: ofLines ls' := by simp
    rw [this]
    exact mem_ends_append _ _ (by decide))
  refine two_le_countP hx hy ?_ ?_ ?_
  · simp only [List.length_append, List.length_cons]
    omega
  · rw [decide_eq_true_iff, lineOf, ← List.append_assoc, List.take_left, List.count_append, hls,
      List.count_eq_zero.2 fun h => hab (List.mem_append_left _ h)]
    rfl
  · have : ofLines ls ++ (a ++ CR :: (b ++ NL :: ofLines ls')) =
        (ofLines ls ++ (a ++ CR :: b)) ++ NL :: ofLines ls' := by simp
    rw [decide_eq_true_iff, lineOf, this, List.take_left, List.count_append, hls,
      List.count_eq_zero.2 hab]
    rfl

/-! ### The limits -/

/-- The part of the input after its last line end. -/
def unfinished (input : List UInt8) : List UInt8 := input.rtakeWhile (!isEnd ·)

theorem unfinished_append_end (pre : List UInt8) (hc : isEnd c = true) (l : List UInt8) :
    unfinished (pre ++ c :: l) = unfinished l := by
  unfold unfinished List.rtakeWhile
  rw [List.reverse_append, List.reverse_cons, List.append_assoc, List.takeWhile_append,
    List.singleton_append, List.takeWhile_cons_of_neg (by simp [hc]), List.append_nil]
  split_ifs with hlen
  · rw [(List.takeWhile_prefix _).eq_of_length hlen]
  · rfl

theorem after_index (nargs : ℕ) (stack : ℕ → Ptr) (buf : ℕ → UInt8) (input : List UInt8) :
    (after nargs (start nargs stack buf) input).argvBufSize = (unfinished input).length ∧
    (after nargs (start nargs stack buf) input).argvi =
      nargs + (unfinished input).count SPACE := by
  induction input using List.reverseRecOn with
  | nil => exact ⟨rfl, rfl⟩
  | append_singleton input c ih =>
    obtain ⟨hsize, hindex⟩ := ih
    rw [after_append]
    show ((after nargs (start nargs stack buf) input).step nargs c).argvBufSize = _ ∧
      ((after nargs (start nargs stack buf) input).step nargs c).argvi = _
    by_cases hc : isEnd c = true
    · have hspace : c ≠ SPACE := by
        rintro rfl
        exact absurd hc (by decide)
      rw [unfinished_append_end input hc, Vars.step, if_neg hspace, if_pos (isEnd_iff.1 hc)]
      exact ⟨rfl, rfl⟩
    · have hnext : unfinished (input ++ [c]) = unfinished input ++ [c] :=
        List.rtakeWhile_concat_pos _ _ _ (by simp [hc])
      rw [hnext, List.length_append, List.count_append, ← Nat.add_assoc, ← hsize, ← hindex,
        Vars.step]
      by_cases hspace : c = SPACE
      · rw [if_pos hspace, hspace]
        exact ⟨rfl, rfl⟩
      · rw [if_neg hspace, if_neg fun h => hc (isEnd_iff.2 h),
          List.count_singleton, if_neg (by simpa using hspace)]
        exact ⟨rfl, rfl⟩

theorem unfinished_infix {post : List UInt8} (h : ofLines lines = pre ++ c :: post) :
    ∃ l ∈ lines, unfinished pre <:+: l := by
  induction lines generalizing pre with
  | nil => simp [ofLines] at h
  | cons l lines ih =>
    rw [ofLines_cons] at h
    obtain ⟨as, hpre, hrest⟩ | ⟨bs, hl, -⟩ := List.append_eq_append_iff.1 h
    · cases as with
      | nil =>
        rw [List.append_nil] at hpre
        exact ⟨l, List.mem_cons_self, hpre ▸ (List.rtakeWhile_suffix _ _).isInfix⟩
      | cons d as =>
        rw [List.cons_append, List.cons.injEq] at hrest
        obtain ⟨m, hm, hin⟩ := ih hrest.2
        refine ⟨m, List.mem_cons_of_mem _ hm, ?_⟩
        rwa [hpre, ← hrest.1, unfinished_append_end l (by decide)]
    · refine ⟨l, List.mem_cons_self, ?_⟩
      exact (List.rtakeWhile_suffix _ _).isInfix.trans ⟨[], bs, by rw [hl]; rfl⟩

theorem length_pieces (l : List UInt8) : (pieces l).length = l.count SPACE + 1 := by
  induction l with
  | nil => rfl
  | cons c l ih =>
    rw [pieces, List.splitOn_cons_eq_if_modifyHead, List.count_cons]
    split_ifs
    · exact congrArg (· + 1) ih
    · rw [List.length_modifyHead]
      exact ih

/-- Lines within the limits lead to no store outside the arrays. -/
theorem safe_of_fits (stack : ℕ → Ptr) (buf : ℕ → UInt8) (hfits : ∀ l ∈ lines, Fits nargs l) :
    Safe nargs (start nargs stack buf) (ofLines lines) := by
  intro pre c post hsplit
  obtain ⟨l, hl, hin⟩ := unfinished_infix hsplit
  obtain ⟨hsize, hindex⟩ := after_index nargs stack buf pre
  obtain ⟨hlen, hpieces⟩ := hfits l hl
  rw [length_pieces] at hpieces
  have hlen' := hin.length_le
  have hcount := hin.sublist.count_le SPACE
  unfold Vars.inBounds
  rw [decide_eq_true_iff, hsize, hindex]
  exact ⟨by omega, fun _ => by omega⟩

theorem Calls.ran (hf : ∀ i, forks i = true) (hd : Delivers input chunks)
    (hc : Calls nargs forks ok chunks v log) :
    ∃ w, Ran nargs ok ⟨v, [], 0⟩ ⟨chunks, 0, 0, []⟩ w ∧ w.log = log := by
  obtain ⟨n, w, hrun, hlog⟩ := hc
  exact ⟨w, ran_of_run hf (fun c hc => (hd.size c hc).1) hrun, hlog⟩

theorem along_start (hd : Delivers input chunks) :
    Along nargs v input ⟨v, [], 0⟩ ⟨chunks, 0, 0, []⟩ :=
  ⟨rfl, List.nil_prefix, .inr ⟨rfl, hd.flatten⟩⟩

theorem calls_exists (hf : ∀ i, forks i = true) (hsafe : Safe nargs v input)
    (hd : Delivers input chunks) : ∃ log, Calls nargs forks ok chunks v log := by
  have hends : ∃ w, run nargs forks ok _ ⟨v, [], 0⟩ ⟨chunks, 0, 0, []⟩ = .ok w :=
    run_returns hf hsafe (along_start hd) (fun c hc => (hd.size c hc).1) (Nat.lt_succ_self _)
  obtain ⟨w, hrun⟩ := hends
  exact ⟨w.log, _, w, hrun, rfl⟩

/-- There is a call of `exec` for every line end. -/
theorem Calls.covers (hf : ∀ i, forks i = true) (hd : Delivers input chunks)
    (hc : Calls nargs forks ok chunks v log) : ∀ x ∈ ends 0 input, x ∈ log.map Attempt.off := by
  obtain ⟨w, hran, rfl⟩ := hc.ran hf hd
  obtain ⟨new, hlog, hcover⟩ := hran.covers
  intro x hx
  rw [hlog]
  exact hcover x (hd.flatten.symm ▸ hx)

/-- Within the limits, and when no `fork` fails, `exec` is called once for every line over all
processes of an invocation exactly if there is no `\\r` in the input and no call fails but for
the last line that ends in a chunk. -/
theorem oncePerLine_iff {stack : ℕ → Ptr} {buf : ℕ → UInt8} (hf : ∀ i, forks i = true)
    (hl : ∀ l ∈ lines, NL ∉ l) (hfits : ∀ l ∈ lines, Fits nargs l)
    (hd : Delivers (ofLines lines) chunks) :
    (∃ log, Calls nargs forks ok chunks (start nargs stack buf) log) ∧
    ∀ log, Calls nargs forks ok chunks (start nargs stack buf) log →
      (OncePerLine lines log ↔ CR ∉ ofLines lines ∧ Lucky ok 0 chunks) := by
  refine ⟨calls_exists hf (safe_of_fits stack buf hfits) hd, fun log hc => ?_⟩
  have hcover := hc.covers hf hd
  obtain ⟨w, hran, rfl⟩ := hc.ran hf hd
  constructor
  · intro h
    have hcr : CR ∉ ofLines lines := by
      intro hcr
      obtain ⟨k, hk, htwo⟩ := two_le_of_cr hl hcr hcover
      rw [h k hk] at htwo
      omega
    refine ⟨hcr, ?_⟩
    by_contra hun
    obtain ⟨new, hlog, x, hx, htwo⟩ := hran.twice fun h => hun h.2
    have hx : x ∈ ends 0 (ofLines lines) := hd.flatten ▸ hx
    have hline : lineOf (ofLines lines) x < lines.length := by
      have hmem := List.mem_map_of_mem (f := lineOf (ofLines lines)) hx
      rw [← count_ofLines hl]
      have hrange := map_lineOf_ends [] hcr
      rw [List.nil_append, List.length_nil] at hrange
      rw [hrange, List.count_nil, List.mem_range'_1] at hmem
      omega
    have hone := h _ hline
    rw [countP_map_off w.log fun y => decide (lineOf (ofLines lines) y = lineOf _ x)] at hone
    have hle : (w.log.map Attempt.off).count x ≤ (w.log.map Attempt.off).countP
        fun y => decide (lineOf (ofLines lines) y = lineOf (ofLines lines) x) := by
      refine List.countP_mono_left fun y _ hy => ?_
      rw [eq_of_beq hy]
      exact decide_eq_true rfl
    rw [hlog] at hle hone
    rw [List.map_nil, List.nil_append] at hle hone
    omega
  · rintro ⟨hcr, hlucky⟩ k hk
    have hlog := hran.once (allButLast_of_zero rfl) hlucky
    rw [countP_map_off w.log fun y => decide (lineOf (ofLines lines) y = k), hlog]
    have hrange := map_lineOf_ends [] hcr
    rw [List.nil_append, List.length_nil, count_ofLines hl, List.count_nil] at hrange
    have hcount : (ends 0 (ofLines lines)).countP
        (fun y => decide (lineOf (ofLines lines) y = k)) =
        ((ends 0 (ofLines lines)).map (lineOf (ofLines lines))).count k := by
      rw [List.count, List.countP_map]
      rfl
    show List.countP _ ([] ++ ([] ++ ends 0 chunks.flatten)) = 1
    rw [List.nil_append, List.nil_append, hd.flatten, hcount, hrange]
    exact List.count_eq_one_of_mem (List.nodup_range' 1 Nat.one_pos)
      (List.mem_range'_1.2 ⟨Nat.zero_le k, by omega⟩)

end

theorem exists_of_toOption {α β ε : Type} {x : Except ε α} {f : α → β} {b : β}
    (h : x.toOption.map f = some b) : ∃ a, x = .ok a ∧ f a = b := by
  cases x with
  | error e => cases h
  | ok a => exact ⟨a, rfl, Option.some_inj.1 h⟩

/-- The lines `a` and `b` in one chunk, and the first `exec` fails: there are two calls for the
second line. -/
theorem two_calls_for_b : ∃ log, Calls 1 (fun _ => true) (fun n => n ≠ 0) [[97, NL, 98, NL]]
      (start 1 (fun _ => .null) fun _ => 0) log ∧
    log.map Attempt.off = [1, 3, 3] ∧ ¬OncePerLine [[97], [98]] log := by
  have hrun : (run 1 (fun _ => true) (fun n => n ≠ 0) 9
      ⟨start 1 (fun _ => .null) fun _ => 0, [], 0⟩ ⟨[[97, NL, 98, NL]], 0, 0, []⟩).toOption.map
        (fun w => w.log.map Attempt.off) = some [1, 3, 3] := by
    decide
  obtain ⟨w, hw, hlog⟩ := exists_of_toOption hrun
  refine ⟨w.log, ⟨9, w, hw, rfl⟩, hlog, fun h => ?_⟩
  have hone := h 1 (by decide)
  rw [countP_map_off w.log fun x => decide (lineOf (ofLines [[97], [98]]) x = 1), hlog] at hone
  exact absurd hone (by decide)

/-- One line whose `exec` fails. -/
theorem oncePerLine_a : ∃ log, Calls 1 (fun _ => true) (fun _ => false) [[97, NL]]
    (start 1 (fun _ => .null) fun _ => 0) log ∧ OncePerLine [[97]] log := by
  obtain ⟨⟨log, hlog⟩, hiff⟩ := @oncePerLine_iff 1 (fun _ => true) (fun _ => false) [[97]]
    [[97, NL]] (fun _ => .null) (fun _ => 0) (fun _ => rfl) (by decide)
    (by unfold Fits; decide) ⟨rfl, by decide⟩
  refine ⟨log, hlog, (hiff log hlog).2 ⟨by decide, fun j hj => ?_, trivial⟩⟩
  have : (List.countP isEnd [97, NL]) = 1 := by decide
  omega

end Xargs
end Xv6
