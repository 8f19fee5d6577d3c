import Xv6.Proc.PushOff

/-!
Interrupt nesting survives migration: the `noff` of a CPU is the number of unmatched calls of
`push_off` of the thread it runs, and the matching `pop_off` restores the interrupts that this
thread had, on whichever CPU.
-/

namespace Xv6
namespace PushOff

variable {m m' : Machine} {c i p : ℕ} {x y : Cpu} {f g : Frame} {l : Lock} {t : Thread}

/-- The calls of `push_off` within `acquire` and `release`. -/
def Phase.pending : Phase → ℕ
  | acquiring _ | releasing => 1
  | ready | fresh | resuming => 0

structure Frame.Ok (f : Frame) : Prop where
  count : f.pushes.length = f.locks.length + f.bare + f.phase.pending
  nodup : f.locks.Nodup

structure Agrees (x : Cpu) (f : Frame) : Prop where
  noff : x.noff = f.pushes.length
  off : f.pushes ≠ [] → x.sie = false
  intena : f.phase ≠ .resuming → ∀ b, f.pushes.getLast? = some b → x.intena = b

/-- A process that is not running is in `sched` or new, and will hold its lock when it goes on. -/
structure Away (p : ℕ) (saved : Bool) (f : Frame) : Prop where
  locks : f.locks = [.proc p]
  bare : f.bare = 0
  phase : f.phase = .fresh ∨ f.phase = .resuming ∧ f.pushes = [saved]

/-- The scheduler's thread at a place in its loop. -/
def At (f : Frame) : Place → Prop
  | .top => f.pushes = []
  | .scan _ => True
  | .test i => f.bare = 0 ∧
      (f.phase = .acquiring (.proc i) ∧ f.locks = [] ∨ f.phase = .ready ∧ f.locks = [.proc i])
  | .unlock i => f.bare = 0 ∧ f.phase = .ready ∧ f.locks = [.proc i]

structure Inv (m : Machine) : Prop where
  panicked : m.panicked = false
  agrees : ∀ c, Agrees (m.cpu c) (m.frame (m.current c))
  frame : ∀ t, (m.frame t).Ok
  lock : ∀ c l, m.lock l = some c ↔ l ∈ (m.frame (m.current c)).locks
  away : ∀ p, (∀ c, m.run c ≠ some p) → Away p (m.saved p) (m.frame (.proc p))
  once : ∀ c c' p, m.run c = some p → m.run c' = some p → c' = c
  state : ∀ c p, m.run c = some p → m.state p = .running ∨ m.lock (.proc p) = some c
  resuming : ∀ c p, m.run c = some p → (m.frame (.proc p)).phase ≠ .fresh ∧
    ((m.frame (.proc p)).phase = .resuming → (m.frame (.proc p)).pushes = [m.saved p])
  sched : ∀ c, At (m.frame (.sched c)) (m.place c)
  swtch : ∀ c p, m.run c = some p → m.place c = .unlock p

theorem proc_ne_sched (p c : ℕ) : Thread.proc p ≠ .sched c := nofun

theorem current_eq_proc : m.current c = .proc p ↔ m.run c = some p := by
  unfold Machine.current
  cases m.run c <;> simp

theorem current_eq_sched : m.current c = .sched i ↔ m.run c = none ∧ c = i := by
  unfold Machine.current
  cases m.run c <;> simp

theorem current_of_none (hr : m.run c = none) : m.current c = .sched c :=
  current_eq_sched.2 ⟨hr, rfl⟩

theorem At.acquired {pl : Place} (h : At f pl) (hf : f.phase = .acquiring l) :
    At { f with locks := l :: f.locks, phase := .ready } pl := by
  cases pl with
  | top => exact h
  | scan i => trivial
  | test i =>
    obtain ⟨hb, ⟨hph, hlocks⟩ | ⟨hph, -⟩⟩ := h
    · rw [hf, Phase.acquiring.injEq] at hph
      exact ⟨hb, .inr ⟨rfl, by rw [hph, hlocks]⟩⟩
    · rw [hf] at hph
      cases hph
  | unlock i =>
    rw [At, hf] at h
    exact absurd h.2.1 nofun

theorem At.released {pl : Place} (h : At f pl) (hf : f.phase = .releasing) :
    At { f with phase := .ready, pushes := f.pushes.tail } pl := by
  cases pl with
  | top =>
    have hnil : f.pushes = [] := h
    rw [At, hnil, List.tail_nil]
  | scan i => trivial
  | test i =>
    rw [At, hf] at h
    obtain ⟨-, ⟨hph, -⟩ | ⟨hph, -⟩⟩ := h <;> cases hph
  | unlock i =>
    rw [At, hf] at h
    exact absurd h.2.1 nofun

theorem leave_frame (m : Machine) (c p : ℕ) (t : Thread) : (m.leave c p).frame t =
    if t = .sched c then { m.frame (.sched c) with pushes := (m.frame (.proc p)).pushes }
    else if t = .proc p then { m.frame (.proc p) with phase := .resuming }
    else m.frame t := by
  simp only [Machine.leave, Function.update_apply]

theorem swtch_frame (m : Machine) (c p : ℕ) (t : Thread) : (m.swtch c p).frame t =
    if t = .proc p then
      if (m.frame (.proc p)).phase = .fresh then
        { m.frame (.proc p) with pushes := (m.frame (.sched c)).pushes, phase := .ready }
      else m.frame (.proc p)
    else m.frame t := by
  simp only [Machine.swtch, Function.update_apply]

theorem Initial.inv (h : Initial m) : Inv m := by
  have hcur : ∀ c, m.current c = .sched c := fun c => current_of_none (h.run c)
  constructor
  · exact h.panicked
  · intro c
    rw [hcur, h.sched]
    exact ⟨h.noff c, fun hne => absurd rfl hne, nofun⟩
  · intro t
    cases t with
    | proc p =>
      rw [h.proc]
      exact ⟨rfl, List.nodup_singleton _⟩
    | sched c =>
      rw [h.sched]
      exact ⟨rfl, List.nodup_nil⟩
  · intro c l
    rw [hcur, h.sched, h.lock]
    exact ⟨nofun, nofun⟩
  · intro p _
    rw [h.proc]
    exact ⟨rfl, rfl, .inl rfl⟩
  · intro c c' p hp
    rw [h.run] at hp
    cases hp
  · intro c p hp
    rw [h.run] at hp
    cases hp
  · intro c p hp
    rw [h.run] at hp
    cases hp
  · intro c
    rw [h.sched, h.place]
    exact rfl
  · intro c p hp
    rw [h.run] at hp
    cases hp

/-! ### `push_off` and `pop_off` -/

namespace Agrees

theorem pushOff (h : Agrees x f) (hf : f.phase ≠ .resuming) (hpushes : g.pushes = x.sie :: f.pushes) :
    Agrees x.pushOff g := by
  refine ⟨?_, fun _ => rfl, fun _ b hb => ?_⟩
  · rw [hpushes, List.length_cons, Cpu.pushOff, h.noff]
  · rw [hpushes] at hb
    cases hp : f.pushes with
    | nil =>
      rw [hp, List.getLast?_singleton, Option.some.injEq] at hb
      have hz : x.noff = 0 := by rw [h.noff, hp, List.length_nil]
      rw [← hb, Cpu.pushOff, if_pos hz]
    | cons a as =>
      have hz : x.noff ≠ 0 := by
        rw [h.noff, hp, List.length_cons]
        exact Nat.succ_ne_zero _
      rw [hp, List.getLast?_cons_cons, ← hp] at hb
      simp only [Cpu.pushOff, if_neg hz]
      exact h.intena hf b hb

/-- Where a `push_off` is unmatched, `pop_off` does not panic. The last one restores the
interrupts. -/
theorem popOff (h : Agrees x f) (hf : f.phase ≠ .resuming) (hne : f.pushes ≠ [])
    (hpushes : g.pushes = f.pushes.tail) :
    ∃ y, x.popOff = some y ∧ Agrees y g ∧ ∀ b, f.pushes = [b] → y.sie = b := by
  obtain ⟨a, as, hp⟩ := List.exists_cons_of_ne_nil hne
  have hoff := h.off hne
  have hnoff : x.noff = as.length + 1 := by rw [h.noff, hp, List.length_cons]
  have hpop : x.popOff = some ⟨as.length, x.intena,
      if as.length = 0 ∧ x.intena = true then true else false⟩ := by
    rw [Cpu.popOff, if_neg (by rw [hoff]; decide), if_neg (by omega), hnoff,
      Nat.add_sub_cancel, hoff]
  rw [hp, List.tail_cons] at hpushes
  refine ⟨_, hpop, ⟨by rw [hpushes], fun hg => ?_, fun _ b hb => ?_⟩, fun b hb => ?_⟩
  · rw [hpushes, ← List.length_pos_iff] at hg
    exact if_neg fun hz => absurd hz.1 (by omega)
  · refine h.intena hf b ?_
    rw [hpushes] at hb
    cases as with
    | nil => cases hb
    | cons a' as => rwa [hp, List.getLast?_cons_cons]
  · rw [hp, List.cons.injEq] at hb
    obtain ⟨rfl, rfl⟩ := hb
    have := h.intena hf a (by rw [hp, List.getLast?_singleton])
    dsimp only
    rw [this]
    cases a <;> rfl

end Agrees

/-! ### Steps of the thread that a CPU runs -/

/-- The thread that CPU `c` runs has changed its frame to `f`, the registers of `c` and its
locks. -/
def Moved (m : Machine) (c : ℕ) (f : Frame) (m' : Machine) : Prop :=
  ∃ x lock, m' = m.move c (m.current c) x f lock ∧ Agrees x f ∧ f.Ok ∧
    (∀ l, lock l = some c ↔ l ∈ f.locks) ∧ ∀ c', c' ≠ c → ∀ l, lock l = some c' ↔ m.lock l = some c'

namespace Inv

theorem current_ne (h : Inv m) {c' : ℕ} (hne : c' ≠ c) : m.current c' ≠ m.current c := by
  intro heq
  cases hc : m.run c with
  | none =>
    rw [current_of_none hc] at heq
    exact hne (current_eq_sched.1 heq).2
  | some p =>
    rw [current_eq_proc.2 hc] at heq
    exact hne (h.once c c' p hc (current_eq_proc.1 heq))

theorem of_moved (h : Inv m) (hm : Moved m c f m')
    (hproc : ∀ p, m.run c = some p → (m.state p = .running ∨ Lock.proc p ∈ f.locks) ∧
      f.phase ≠ .fresh ∧ f.phase ≠ .resuming)
    {pl : Place} (hsched : m.run c = none → At f pl) (hpl : ∀ p, m.run c = some p → pl = m.place c) :
    Inv (m'.goto c pl) := by
  obtain ⟨x, lock, rfl, hagrees, hok, hlock, hother⟩ := hm
  have hcur : ∀ c', ((m.move c (m.current c) x f lock).goto c pl).current c' = m.current c' :=
    fun _ => rfl
  have hframe : ∀ t, ((m.move c (m.current c) x f lock).goto c pl).frame t =
      if t = m.current c then f else m.frame t := fun t => Function.update_apply ..
  constructor
  · exact h.panicked
  · intro c'
    rw [hcur, hframe]
    show Agrees (Function.update m.cpu c x c') _
    by_cases hc : c' = c
    · rw [hc, if_pos rfl, Function.update_self]
      exact hagrees
    · rw [if_neg (h.current_ne hc), Function.update_of_ne hc]
      exact h.agrees c'
  · intro t
    rw [hframe]
    split_ifs
    · exact hok
    · exact h.frame t
  · intro c' l
    rw [hcur, hframe]
    show lock l = some c' ↔ _
    by_cases hc : c' = c
    · rw [hc, if_pos rfl]
      exact hlock l
    · rw [if_neg (h.current_ne hc), hother c' hc l]
      exact h.lock c' l
  · intro p hp
    rw [hframe, if_neg fun heq => hp c (current_eq_proc.1 heq.symm)]
    exact h.away p hp
  · exact h.once
  · intro c' p hp
    show m.state p = _ ∨ lock _ = _
    by_cases hc : c' = c
    · rw [hc] at hp ⊢
      exact (hproc p hp).1.imp_right (hlock _).2
    · rw [hother c' hc]
      exact h.state c' p hp
  · intro c' p hp
    rw [hframe]
    split_ifs with ht
    · have hp' := current_eq_proc.1 ht.symm
      exact ⟨(hproc p hp').2.1, fun hr => absurd hr (hproc p hp').2.2⟩
    · exact h.resuming c' p hp
  · intro c'
    rw [hframe]
    show At _ (Function.update m.place c pl c')
    by_cases hc : c' = c
    · rw [hc, Function.update_self]
      cases hr : m.run c with
      | none =>
        rw [if_pos (current_of_none hr).symm]
        exact hsched hr
      | some p =>
        rw [current_eq_proc.2 hr, if_neg nofun, hpl p hr]
        exact h.sched c
    · rw [if_neg fun heq => hc (current_eq_sched.1 heq.symm).2.symm, Function.update_of_ne hc]
      exact h.sched c'
  · intro c' p hp
    show Function.update m.place c pl c' = _
    by_cases hc : c' = c
    · rw [hc] at hp ⊢
      rw [Function.update_self, hpl p hp]
      exact h.swtch c p hp
    · rw [Function.update_of_ne hc]
      exact h.swtch c' p hp

theorem of_moved_self (h : Inv m) (hm : Moved m c f m')
    (hproc : ∀ p, m.run c = some p → (m.state p = .running ∨ Lock.proc p ∈ f.locks) ∧
      f.phase ≠ .fresh ∧ f.phase ≠ .resuming)
    (hsched : m.run c = none → At f (m.place c)) : Inv m' := by
  have := h.of_moved hm hproc hsched fun _ _ => rfl
  have hgoto : m'.goto c (m.place c) = m' := by
    obtain ⟨x, lock, rfl, -⟩ := hm
    exact congrArg (fun pl => { m.move c (m.current c) x f lock with place := pl })
      (Function.update_eq_self c m.place)
  rwa [hgoto] at this

section
variable (h : Inv m)
include h

theorem push_moved (hf : (m.frame (m.current c)).phase = .ready)
    (hpushes : g.pushes = (m.frame (m.current c)).pushes)
    (hlocks : g.locks = (m.frame (m.current c)).locks)
    (hcount : g.bare + g.phase.pending = (m.frame (m.current c)).bare + 1) :
    Moved m c { g with pushes := (m.cpu c).sie :: g.pushes } (m.push c (m.current c) g) := by
  have hok := h.frame (m.current c)
  refine ⟨_, _, rfl, ?_, ⟨?_, by rw [hlocks]; exact hok.nodup⟩, fun l => ?_, fun _ _ _ => Iff.rfl⟩
  · exact (h.agrees c).pushOff (by rw [hf]; decide) (by rw [hpushes])
  · have hc := hok.count
    rw [hf, Phase.pending] at hc
    rw [List.length_cons, hpushes, hlocks]
    dsimp only
    omega
  · rw [h.lock c l, hlocks]

theorem pop_moved (hf : (m.frame (m.current c)).phase ≠ .resuming)
    (hpushes : g.pushes = (m.frame (m.current c)).pushes)
    (hlocks : g.locks = (m.frame (m.current c)).locks)
    (hcount : g.bare + g.phase.pending + 1 =
      (m.frame (m.current c)).bare + (m.frame (m.current c)).phase.pending) :
    Moved m c { g with pushes := g.pushes.tail } (m.pop c (m.current c) g) ∧
      ∀ b, (m.frame (m.current c)).pushes = [b] →
        ((m.pop c (m.current c) g).cpu c).sie = b := by
  have hok := h.frame (m.current c)
  have hlen := hok.count
  have hne : (m.frame (m.current c)).pushes ≠ [] := by
    rw [← List.length_pos_iff]
    omega
  obtain ⟨y, hy, hagrees, hlast⟩ := (h.agrees c).popOff (g := { g with pushes := g.pushes.tail }) hf hne
    (by rw [hpushes])
  have hpop : m.pop c (m.current c) g =
      m.move c (m.current c) y { g with pushes := g.pushes.tail } m.lock := by
    rw [Machine.pop, hy]
  refine ⟨⟨y, m.lock, hpop, hagrees, ⟨?_, by rw [hlocks]; exact hok.nodup⟩, fun l => ?_,
    fun _ _ _ => Iff.rfl⟩, fun b hb => ?_⟩
  · rw [List.length_tail, hpushes, hlocks]
    dsimp only
    omega
  · rw [h.lock c l, hlocks]
  · rw [hpop]
    show (Function.update m.cpu c y c).sie = b
    rw [Function.update_self]
    exact hlast b hb

theorem spin_moved (hf : (m.frame (m.current c)).phase = .acquiring l) (hl : m.lock l = none) :
    Moved m c
      { m.frame (m.current c) with locks := l :: (m.frame (m.current c)).locks, phase := .ready }
      (m.move c (m.current c) (m.cpu c)
        { m.frame (m.current c) with locks := l :: (m.frame (m.current c)).locks, phase := .ready }
        (Function.update m.lock l (some c))) := by
  have hok := h.frame (m.current c)
  have hagrees := h.agrees c
  have hnot : l ∉ (m.frame (m.current c)).locks := by
    rw [← h.lock c l, hl]
    exact nofun
  refine ⟨_, _, rfl, ⟨hagrees.noff, hagrees.off, fun _ => hagrees.intena (by rw [hf]; exact nofun)⟩,
    ⟨?_, List.nodup_cons.2 ⟨hnot, hok.nodup⟩⟩, fun l' => ?_, fun c' hc l' => ?_⟩
  · have hc := hok.count
    rw [hf, Phase.pending] at hc
    rw [List.length_cons, Phase.pending]
    dsimp only
    omega
  · rw [Function.update_apply, List.mem_cons]
    split_ifs with hl'
    · exact ⟨fun _ => .inl hl', fun _ => rfl⟩
    · rw [h.lock c l']
      exact ⟨.inr, fun ho => ho.resolve_left hl'⟩
  · rw [Function.update_apply]
    split_ifs with hl'
    · rw [hl', hl]
      simpa using Ne.symm hc
    · exact Iff.rfl

theorem release_moved (hf : (m.frame (m.current c)).phase = .ready) (hl : m.lock l = some c) :
    Moved m c
      { m.frame (m.current c) with
        locks := (m.frame (m.current c)).locks.erase l, phase := .releasing }
      (m.move c (m.current c) (m.cpu c)
        { m.frame (m.current c) with
          locks := (m.frame (m.current c)).locks.erase l, phase := .releasing }
        (Function.update m.lock l none)) := by
  have hok := h.frame (m.current c)
  have hagrees := h.agrees c
  have hmem := (h.lock c l).1 hl
  refine ⟨_, _, rfl, ⟨hagrees.noff, hagrees.off, fun _ => hagrees.intena (by rw [hf]; exact nofun)⟩,
    ⟨?_, hok.nodup.erase l⟩, fun l' => ?_, fun c' hc l' => ?_⟩
  · have hc := hok.count
    have hpos := List.length_pos_of_mem hmem
    rw [hf, Phase.pending] at hc
    rw [List.length_erase_of_mem hmem, Phase.pending]
    dsimp only
    omega
  · rw [Function.update_apply, hok.nodup.mem_erase_iff]
    split_ifs with hl'
    · exact ⟨nofun, fun ho => absurd hl' ho.1⟩
    · rw [h.lock c l']
      exact ⟨fun hm => ⟨hl', hm⟩, And.right⟩
  · rw [Function.update_apply]
    split_ifs with hl'
    · rw [hl', hl]
      simpa using Ne.symm hc
    · exact Iff.rfl

theorem intr_moved (hnil : (m.frame (m.current c)).pushes = []) (on : Bool) :
    Moved m c (m.frame (m.current c))
      (m.move c (m.current c) { m.cpu c with sie := on } (m.frame (m.current c)) m.lock) :=
  ⟨_, _, rfl, ⟨(h.agrees c).noff, fun hne => absurd hnil hne, (h.agrees c).intena⟩, h.frame _,
    h.lock c, fun _ _ _ => Iff.rfl⟩

theorem resume_moved (hp : m.run c = some p) (hf : (m.frame (.proc p)).phase = .resuming) :
    Moved m c { m.frame (.proc p) with phase := .ready }
      (m.move c (.proc p) { m.cpu c with intena := m.saved p }
        { m.frame (.proc p) with phase := .ready } m.lock) := by
  have hcur := current_eq_proc.2 hp
  have hok := h.frame (.proc p)
  have hagrees := h.agrees c
  have hlock := h.lock c
  rw [hcur] at hagrees hlock
  refine ⟨{ m.cpu c with intena := m.saved p }, m.lock, by rw [hcur],
    ⟨hagrees.noff, hagrees.off, fun _ b hb => ?_⟩, ⟨?_, hok.nodup⟩, hlock, fun _ _ _ => Iff.rfl⟩
  · have hs := (h.resuming c p hp).2 hf
    dsimp only at hb ⊢
    rwa [hs, List.getLast?_singleton, Option.some.injEq] at hb
  · have := hok.count
    rwa [hf] at this

theorem not_run (hl : m.lock (.proc p) = some c) (ht : m.current c ≠ .proc p)
    (hst : m.state p ≠ .running) (c' : ℕ) : m.run c' ≠ some p := by
  intro hp
  have hl' := (h.state c' p hp).resolve_left hst
  rw [hl, Option.some.injEq] at hl'
  rw [← hl'] at hp
  exact ht (current_eq_proc.2 hp)

theorem setState (hl : m.lock (.proc p) = some c) {st : ProcState}
    (ht : m.current c = .proc p ∨ m.state p ≠ .running) :
    Inv { m with state := Function.update m.state p st } := by
  refine ⟨h.panicked, h.agrees, h.frame, h.lock, h.away, h.once, fun c' q hq => ?_, h.resuming,
    h.sched, h.swtch⟩
  dsimp only
  by_cases hqp : q = p
  · rw [hqp] at hq ⊢
    refine .inr ?_
    rcases ht with ht | hst
    · rw [h.once c c' p (current_eq_proc.1 ht) hq]
      exact hl
    · exact (h.state c' p hq).resolve_left hst
  · rw [Function.update_of_ne hqp]
    exact h.state c' q hq

theorem context (hp : ∀ c, m.run c ≠ some p) : Inv (m.setFrame (.proc p) (.new p)) := by
  have hframe : ∀ t, (m.setFrame (.proc p) (.new p)).frame t =
      if t = .proc p then .new p else m.frame t := fun t => Function.update_apply ..
  have hcur : ∀ c, m.current c ≠ .proc p := fun c heq => hp c (current_eq_proc.1 heq)
  have hagree : ∀ c, (m.setFrame (.proc p) (.new p)).frame
      ((m.setFrame (.proc p) (.new p)).current c) = m.frame (m.current c) := fun c => by
    rw [hframe]
    exact if_neg (hcur c)
  refine ⟨h.panicked, fun c => ?_, fun t => ?_, fun c l => ?_, fun q hq => ?_, h.once, h.state,
    fun c q hq => ?_, fun c => ?_, h.swtch⟩
  · rw [hagree]
    exact h.agrees c
  · rw [hframe]
    split_ifs
    · exact ⟨rfl, List.nodup_singleton _⟩
    · exact h.frame t
  · rw [hagree]
    exact h.lock c l
  · rw [hframe]
    split_ifs with hqp
    · cases hqp
      exact ⟨rfl, rfl, .inl rfl⟩
    · exact h.away q hq
  · rw [hframe, if_neg]
    · exact h.resuming c q hq
    · intro hqp
      cases hqp
      exact hp c hq
  · rw [hframe, if_neg nofun]
    exact h.sched c

theorem goto (hr : m.run c = none) {pl : Place} (hat : At (m.frame (.sched c)) pl) :
    Inv (m.goto c pl) := by
  have hself : Moved m c (m.frame (m.current c)) m := by
    refine ⟨m.cpu c, m.lock, ?_, h.agrees c, h.frame _, h.lock c, fun _ _ _ => Iff.rfl⟩
    rw [Machine.move, Function.update_eq_self, Function.update_eq_self]
  refine h.of_moved hself (fun p hp => ?_) (fun _ => ?_) fun p hp => ?_
  · rw [hr] at hp
    cases hp
  · rw [current_of_none hr]
    exact hat
  · rw [hr] at hp
    cases hp

theorem kernel {op : Op} (hop : m.kernel c (m.current c) op = some m')
    (hrel : ∀ p, m.run c = some p → op = .release (.proc p) → m.state p = .running)
    (hat : m.run c = none → (∃ i, m.place c = .scan i) ∨ op = .spin ∨ op = .released) :
    Inv m' := by
  have hstate : ∀ p, m.run c = some p →
      m.state p = .running ∨ Lock.proc p ∈ (m.frame (m.current c)).locks := fun p hp =>
    (h.state c p hp).imp_right (h.lock c _).1
  have hscan : ∀ {f : Frame}, op ≠ .spin → op ≠ .released → m.run c = none → At f (m.place c) := by
    intro f hs hd hr
    obtain ⟨i, hi⟩ := (hat hr).resolve_right (not_or.2 ⟨hs, hd⟩)
    rw [hi]
    trivial
  cases op with
  | pushOff =>
    simp only [Machine.kernel] at hop
    split_ifs at hop with hf
    cases hop
    exact h.of_moved_self (h.push_moved hf rfl rfl (by rw [hf]; rfl))
      (fun p hp => ⟨hstate p hp, by dsimp only; rw [hf]; exact ⟨nofun, nofun⟩⟩)
      (hscan nofun nofun)
  | popOff =>
    simp only [Machine.kernel] at hop
    split_ifs at hop with hf
    cases hop
    have hmoved := (h.pop_moved (c := c)
      (g := { m.frame (m.current c) with bare := (m.frame (m.current c)).bare - 1 })
      (by rw [hf.1]; exact nofun) rfl rfl (by dsimp only; omega)).1
    exact h.of_moved_self hmoved
      (fun p hp => ⟨hstate p hp, by dsimp only; rw [hf.1]; exact ⟨nofun, nofun⟩⟩)
      (hscan nofun nofun)
  | acquire l =>
    simp only [Machine.kernel] at hop
    split_ifs at hop with hf
    cases hop
    exact h.of_moved_self (h.push_moved hf.1 rfl rfl rfl)
      (fun p hp => ⟨hstate p hp, nofun, nofun⟩) (hscan nofun nofun)
  | spin =>
    simp only [Machine.kernel] at hop
    split at hop
    · rename_i l hf
      split_ifs at hop with hl
      cases hop
      refine h.of_moved_self (h.spin_moved hf hl)
        (fun p hp => ⟨(hstate p hp).imp_right (List.mem_cons_of_mem _), nofun, nofun⟩) fun hr => ?_
      rw [current_of_none hr] at hf ⊢
      exact (h.sched c).acquired hf
    · cases hop
  | release l =>
    simp only [Machine.kernel] at hop
    split_ifs at hop with hf
    cases hop
    refine h.of_moved_self (h.release_moved hf.1 hf.2) (fun p hp => ⟨?_, nofun, nofun⟩)
      (hscan nofun nofun)
    by_cases hl : l = .proc p
    · exact .inl (hrel p hp (by rw [hl]))
    · exact (hstate p hp).imp_right (List.mem_erase_of_ne (Ne.symm hl)).2
  | released =>
    simp only [Machine.kernel] at hop
    split_ifs at hop with hf
    cases hop
    have hmoved := (h.pop_moved (c := c) (g := { m.frame (m.current c) with phase := .ready })
      (by rw [hf]; exact nofun) rfl rfl (by rw [hf]; rfl)).1
    refine h.of_moved_self hmoved (fun p hp => ⟨hstate p hp, nofun, nofun⟩) fun hr => ?_
    rw [current_of_none hr] at hf ⊢
    exact (h.sched c).released hf
  | intr on =>
    simp only [Machine.kernel] at hop
    split_ifs at hop with hf
    cases hop
    exact h.of_moved_self (h.intr_moved hf.2 on)
      (fun p hp => ⟨hstate p hp, by rw [hf.1]; exact ⟨nofun, nofun⟩⟩) (hscan nofun nofun)
  | setState p st =>
    simp only [Machine.kernel] at hop
    split_ifs at hop with hf
    cases hop
    exact h.setState hf.2.1 hf.2.2.2
  | context p =>
    simp only [Machine.kernel] at hop
    split_ifs at hop with hf
    cases hop
    exact h.context (h.not_run hf.2.1 hf.2.2.1 hf.2.2.2)
  | sched | resume | loop => cases hop

/-! ### Switching -/

theorem only_lock {t : Thread} (hf : (m.frame t).phase = .ready) (hmem : l ∈ (m.frame t).locks)
    (hone : (m.frame t).pushes.length = 1) :
    (m.frame t).locks = [l] ∧ (m.frame t).bare = 0 ∧ ∃ b, (m.frame t).pushes = [b] := by
  have hcount := (h.frame t).count
  have hpos := List.length_pos_of_mem hmem
  rw [hf, Phase.pending] at hcount
  obtain ⟨l', hl'⟩ := List.length_eq_one_iff.1 (show (m.frame t).locks.length = 1 by omega)
  rw [hl', List.mem_singleton] at hmem
  exact ⟨by rw [hl', hmem], by omega, List.length_eq_one_iff.1 hone⟩

/-- A CPU switches between the scheduler and the thread of process `p`; other CPUs and other
processes do not notice. -/
theorem switch (hcpu : m'.cpu = m.cpu) (hlock : m'.lock = m.lock) (hpanicked : m'.panicked = m.panicked)
    (hrun : ∀ c', c' ≠ c → m'.run c' = m.run c' ∧ m.run c' ≠ some p)
    (hc : ∀ q, q ≠ p → m.run c ≠ some q ∧ m'.run c ≠ some q)
    (hproc : ∀ q, q ≠ p → m'.frame (.proc q) = m.frame (.proc q) ∧ m'.saved q = m.saved q ∧
      m'.state q = m.state q)
    (hsched : ∀ c', c' ≠ c → m'.frame (.sched c') = m.frame (.sched c') ∧ m'.place c' = m.place c')
    (hagrees : Agrees (m.cpu c) (m'.frame (m'.current c)))
    (hlocks : ∀ l, m.lock l = some c ↔ l ∈ (m'.frame (m'.current c)).locks)
    (hokp : (m'.frame (.proc p)).Ok) (hokc : (m'.frame (.sched c)).Ok)
    (haway : m'.run c ≠ some p → Away p (m'.saved p) (m'.frame (.proc p)))
    (hruns : m'.run c = some p → m'.state p = .running ∧ m'.place c = .unlock p ∧
      (m'.frame (.proc p)).phase ≠ .fresh ∧
      ((m'.frame (.proc p)).phase = .resuming → (m'.frame (.proc p)).pushes = [m'.saved p]))
    (hat : At (m'.frame (.sched c)) (m'.place c)) : Inv m' := by
  have hother : ∀ c', c' ≠ c → m'.frame (m'.current c') = m.frame (m.current c') := by
    intro c' hne
    have hr := hrun c' hne
    cases hq : m.run c' with
    | none =>
      rw [current_of_none hq, current_of_none (hr.1.trans hq)]
      exact (hsched c' hne).1
    | some q =>
      rw [current_eq_proc.2 hq, current_eq_proc.2 (hr.1.trans hq)]
      refine (hproc q ?_).1
      rintro rfl
      exact hr.2 hq
  have hcases : ∀ {c' q}, m'.run c' = some q →
      c' = c ∧ q = p ∨ c' ≠ c ∧ q ≠ p ∧ m.run c' = some q := by
    intro c' q hq
    by_cases hne : c' = c
    · rw [hne] at hq
      exact .inl ⟨hne, by_contra fun hqp => (hc q hqp).2 hq⟩
    · rw [(hrun c' hne).1] at hq
      refine .inr ⟨hne, ?_, hq⟩
      rintro rfl
      exact (hrun c' hne).2 hq
  constructor
  · rw [hpanicked]
    exact h.panicked
  · intro c'
    rw [hcpu]
    by_cases hne : c' = c
    · rw [hne]
      exact hagrees
    · rw [hother c' hne]
      exact h.agrees c'
  · intro t
    cases t with
    | proc q =>
      by_cases hqp : q = p
      · rw [hqp]
        exact hokp
      · rw [(hproc q hqp).1]
        exact h.frame _
    | sched c' =>
      by_cases hne : c' = c
      · rw [hne]
        exact hokc
      · rw [(hsched c' hne).1]
        exact h.frame _
  · intro c' l
    rw [hlock]
    by_cases hne : c' = c
    · rw [hne]
      exact hlocks l
    · rw [hother c' hne]
      exact h.lock c' l
  · intro q hq
    by_cases hqp : q = p
    · rw [hqp] at hq ⊢
      exact haway (hq c)
    · rw [(hproc q hqp).1, (hproc q hqp).2.1]
      refine h.away q fun c' hc' => ?_
      by_cases hne : c' = c
      · rw [hne] at hc'
        exact (hc q hqp).1 hc'
      · exact hq c' ((hrun c' hne).1.trans hc')
  · intro c₁ c₂ q h₁ h₂
    obtain ⟨rfl, rfl⟩ | ⟨-, hqp, hr₁⟩ := hcases h₁
    · obtain ⟨rfl, -⟩ | ⟨-, hqp, -⟩ := hcases h₂
      · rfl
      · exact absurd rfl hqp
    · obtain ⟨-, rfl⟩ | ⟨-, -, hr₂⟩ := hcases h₂
      · exact absurd rfl hqp
      · exact h.once c₁ c₂ q hr₁ hr₂
  · intro c' q hq
    obtain ⟨rfl, rfl⟩ | ⟨-, hqp, hr⟩ := hcases hq
    · exact .inl (hruns hq).1
    · rw [(hproc q hqp).2.2, hlock]
      exact h.state c' q hr
  · intro c' q hq
    obtain ⟨rfl, rfl⟩ | ⟨-, hqp, hr⟩ := hcases hq
    · exact (hruns hq).2.2
    · rw [(hproc q hqp).1, (hproc q hqp).2.1]
      exact h.resuming c' q hr
  · intro c'
    by_cases hne : c' = c
    · rw [hne]
      exact hat
    · rw [(hsched c' hne).1, (hsched c' hne).2]
      exact h.sched c'
  · intro c' q hq
    obtain ⟨rfl, rfl⟩ | ⟨hne, -, hr⟩ := hcases hq
    · exact (hruns hq).2.1
    · rw [(hsched c' hne).2]
      exact h.swtch c' q hr

theorem leave (hp : m.run c = some p) (hf : (m.frame (.proc p)).phase = .ready)
    (hl : m.lock (.proc p) = some c) (hnoff : (m.cpu c).noff = 1) : Inv (m.leave c p) := by
  have hagrees := h.agrees c
  have hlock := h.lock c
  rw [current_eq_proc.2 hp] at hagrees hlock
  obtain ⟨hlocks, hbare, b, hb⟩ := h.only_lock hf ((hlock _).1 hl) (by rw [← hagrees.noff, hnoff])
  have hready : (m.frame (.proc p)).phase ≠ .resuming := by
    rw [hf]
    exact nofun
  have hintena : (m.cpu c).intena = b := hagrees.intena hready b (by rw [hb, List.getLast?_singleton])
  obtain ⟨hsbare, hsphase, hslocks⟩ : At (m.frame (.sched c)) (.unlock p) := h.swtch c p hp ▸ h.sched c
  have hrun : (m.leave c p).run c = none := Function.update_self ..
  have hproc : (m.leave c p).frame (.proc p) = { m.frame (.proc p) with phase := .resuming } := by
    rw [leave_frame, if_neg (proc_ne_sched p c), if_pos rfl]
  have hsched : (m.leave c p).frame (.sched c) =
      { m.frame (.sched c) with pushes := (m.frame (.proc p)).pushes } := by
    rw [leave_frame, if_pos rfl]
  have hsaved : (m.leave c p).saved p = b := (Function.update_self ..).trans hintena
  have hok := h.frame (.proc p)
  refine h.switch (c := c) (p := p) rfl rfl rfl (fun c' hne => ⟨Function.update_of_ne hne .., ?_⟩)
    (fun q hqp => ⟨?_, ?_⟩) (fun q hqp => ⟨?_, Function.update_of_ne hqp .., rfl⟩)
    (fun c' hne => ⟨?_, rfl⟩) ?_ (fun l => ?_) ?_ ⟨?_, ?_⟩ (fun _ => ?_) (fun hr => ?_) ?_
  · intro hr
    exact hne (h.once c c' p hp hr)
  · rw [hp, Ne, Option.some.injEq]
    exact Ne.symm hqp
  · rw [hrun]
    exact nofun
  · rw [leave_frame, if_neg (proc_ne_sched q c), if_neg fun he => hqp (Thread.proc.inj he)]
  · rw [leave_frame, if_neg fun he => hne (Thread.sched.inj he),
      if_neg (proc_ne_sched p c').symm]
  · rw [current_of_none hrun, hsched]
    exact ⟨hagrees.noff, hagrees.off, fun _ => hagrees.intena hready⟩
  · rw [current_of_none hrun, hsched, hlock, hlocks, hslocks]
  · rw [hproc]
    exact ⟨by rw [hok.count, hf]; rfl, hok.nodup⟩
  · rw [hsched, hb, hslocks, hsbare, hsphase]
    rfl
  · rw [hsched]
    exact (h.frame (.sched c)).nodup
  · rw [hproc, hsaved]
    exact ⟨hlocks, hbare, .inr ⟨rfl, hb⟩⟩
  · rw [hrun] at hr
    cases hr
  · rw [hsched]
    show At _ (m.place c)
    rw [h.swtch c p hp]
    exact ⟨hsbare, hsphase, hslocks⟩

theorem swtch_step (hr : m.run c = none) (hpl : m.place c = .test p)
    (hf : (m.frame (.sched c)).phase = .ready) (hst : m.state p ≠ .running) :
    Inv (m.swtch c p) := by
  have hagrees := h.agrees c
  have hlock := h.lock c
  rw [current_of_none hr] at hagrees hlock
  obtain ⟨hbare, ⟨hph, -⟩ | ⟨-, hlocks⟩⟩ : At (m.frame (.sched c)) (.test p) := hpl ▸ h.sched c
  · rw [hf] at hph
    cases hph
  have hl : m.lock (.proc p) = some c := (hlock _).2 (by rw [hlocks]; exact List.mem_singleton_self _)
  have hnot := h.not_run hl (by rw [current_of_none hr]; exact nofun) hst
  have haway := h.away p hnot
  have hok := h.frame (.proc p)
  have hoks := h.frame (.sched c)
  have hlen : (m.frame (.sched c)).pushes.length = 1 := by
    rw [hoks.count, hlocks, hbare, hf]
    rfl
  have hlenp : (m.frame (.proc p)).pushes.length = 1 := by
    rw [hok.count, haway.locks, haway.bare]
    rcases haway.phase with hph | hph
    · rw [hph]
      rfl
    · rw [hph.1]
      rfl
  have hrun : (m.swtch c p).run c = some p := Function.update_self ..
  have hsched : ∀ c', (m.swtch c p).frame (.sched c') = m.frame (.sched c') := fun c' => by
    rw [swtch_frame, if_neg (proc_ne_sched p c').symm]
  have hplace : (m.swtch c p).place c = .unlock p := Function.update_self ..
  obtain ⟨f, hproc, hflocks, hfbare, hflen, hphase⟩ : ∃ f, (m.swtch c p).frame (.proc p) = f ∧
      f.locks = [.proc p] ∧ f.bare = 0 ∧ f.pushes.length = 1 ∧
      (f.phase = .ready ∧ f.pushes = (m.frame (.sched c)).pushes ∨
        f.phase = .resuming ∧ f.pushes = [m.saved p]) := by
    refine ⟨_, rfl, ?_⟩
    rw [swtch_frame, if_pos rfl]
    split_ifs with hfresh
    · exact ⟨haway.locks, haway.bare, hlen, .inl ⟨rfl, rfl⟩⟩
    · exact ⟨haway.locks, haway.bare, hlenp, .inr (haway.phase.resolve_left hfresh)⟩
  have hnoff : (m.cpu c).noff = 1 := by rw [hagrees.noff, hlen]
  refine h.switch (c := c) (p := p) rfl rfl rfl
    (fun c' hne => ⟨Function.update_of_ne hne .., hnot c'⟩) (fun q hqp => ⟨?_, ?_⟩)
    (fun q hqp => ⟨?_, rfl, Function.update_of_ne hqp ..⟩)
    (fun c' hne => ⟨hsched c', Function.update_of_ne hne ..⟩) ?_ (fun l => ?_) ?_ ?_
    (fun hne => absurd hrun hne) (fun _ => ⟨Function.update_self .., hplace, ?_⟩) ?_
  · rw [hr]
    exact nofun
  · rw [hrun, Ne, Option.some.injEq]
    exact Ne.symm hqp
  · rw [swtch_frame, if_neg fun he => hqp (Thread.proc.inj he)]
  · rw [current_eq_proc.2 hrun, hproc]
    refine ⟨by rw [hnoff, hflen], fun _ => hagrees.off ?_, fun hres b hb => ?_⟩
    · rw [← List.length_pos_iff, hlen]
      exact Nat.one_pos
    · obtain ⟨-, hpushes⟩ | ⟨hres', -⟩ := hphase
      · rw [hpushes] at hb
        exact hagrees.intena (by rw [hf]; exact nofun) b hb
      · exact absurd hres' hres
  · rw [current_eq_proc.2 hrun, hproc, hlock, hlocks, hflocks]
  · rw [hproc]
    refine ⟨?_, by rw [hflocks]; exact List.nodup_singleton _⟩
    rw [hflen, hflocks, hfbare]
    obtain ⟨hph, -⟩ | ⟨hph, -⟩ := hphase <;> rw [hph] <;> rfl
  · rw [hsched]
    exact hoks
  · rw [hproc]
    obtain ⟨hph, -⟩ | ⟨hph, hpushes⟩ := hphase
    · rw [hph]
      exact ⟨nofun, nofun⟩
    · rw [hph]
      exact ⟨nofun, fun _ => hpushes⟩
  · rw [hsched, hplace]
    exact ⟨hbare, hf, hlocks⟩

theorem thread {op : Op} (hp : m.run c = some p) (hop : m.thread c p op = some m') : Inv m' := by
  have hcur := current_eq_proc.2 hp
  have hkernel : ∀ {op : Op}, m.kernel c (.proc p) op = some m' →
      (op = .release (.proc p) → m.state p = .running) → Inv m' := by
    intro op hop hrel
    rw [← hcur] at hop
    refine h.kernel hop (fun q hq he => ?_) fun hr => ?_
    · rw [hp, Option.some.injEq] at hq
      rw [← hq] at he ⊢
      exact hrel he
    · rw [hp] at hr
      cases hr
  cases op with
  | release l =>
    simp only [Machine.thread] at hop
    split_ifs at hop with hl
    refine hkernel hop fun he => ?_
    rw [Op.release.injEq] at he
    exact not_not.1 fun hst => hl ⟨he, hst⟩
  | sched =>
    simp only [Machine.thread] at hop
    split_ifs at hop with hf
    cases hop
    exact h.leave hp hf.1 hf.2.1 hf.2.2.1
  | resume =>
    simp only [Machine.thread] at hop
    split_ifs at hop with hf
    cases hop
    refine h.of_moved_self (h.resume_moved hp hf) (fun q hq => ?_) fun hr => ?_
    · rw [hp, Option.some.injEq] at hq
      have hlock := h.lock c (.proc p)
      rw [hcur] at hlock
      rw [← hq]
      exact ⟨(h.state c p hp).imp_right hlock.1, nofun, nofun⟩
    · rw [hp] at hr
      cases hr
  | _ =>
    simp only [Machine.thread] at hop
    exact hkernel hop nofun

theorem scheduler {op : Op} (hr : m.run c = none) (hop : m.scheduler c op = some m') : Inv m' := by
  have hcur := current_of_none hr
  have hnone : ∀ p, m.run c ≠ some p := fun p hp => by
    rw [hr] at hp
    cases hp
  have hs := h.sched c
  have hkernel : ∀ {op : Op}, ((∃ i, m.place c = .scan i) ∨ op = .spin ∨ op = .released) →
      m.kernel c (.sched c) op = some m' → Inv m' := by
    intro op hat hop
    rw [← hcur] at hop
    exact h.kernel hop (fun p hp => absurd hp (hnone p)) fun _ => hat
  cases op with
  | loop =>
    simp only [Machine.scheduler] at hop
    by_cases hf : (m.frame (.sched c)).phase = .ready
    swap
    · rw [if_neg hf] at hop
      cases hop
    rw [if_pos hf] at hop
    cases hpl : m.place c with
    | top =>
      rw [hpl] at hop hs
      cases hop
      have hmoved := h.intr_moved (c := c) (by rw [hcur]; exact hs) true
      rw [hcur] at hmoved
      exact h.of_moved hmoved (fun p hp => absurd hp (hnone p)) (fun _ => trivial) fun p hp => absurd hp (hnone p)
    | scan i =>
      simp only [hpl] at hop
      split_ifs at hop with hne hi
      · obtain ⟨m₁, hm₁, rfl⟩ := Option.map_eq_some_iff.1 hop
        simp only [Machine.kernel] at hm₁
        split_ifs at hm₁ with hl
        cases hm₁
        rw [← hcur] at hf hne ⊢
        refine h.of_moved (h.push_moved
          (g := { m.frame (m.current c) with phase := .acquiring (.proc i) }) hf rfl rfl rfl) (fun p hp => absurd hp (hnone p)) (fun _ => ?_)
          fun p hp => absurd hp (hnone p)
        have hcount := (h.frame (m.current c)).count
        rw [not_not.1 hne, hf, Phase.pending, List.length_nil] at hcount
        refine ⟨by dsimp only; omega, .inl ⟨rfl, ?_⟩⟩
        rw [← List.length_eq_zero_iff]
        dsimp only
        omega
      · cases hop
        exact h.goto hr (not_not.1 hne)
    | test i =>
      simp only [hpl] at hop
      rw [hpl] at hs
      split_ifs at hop with hst
      · cases hop
        exact h.swtch_step hr hpl hf (by rw [hst]; simp)
      · cases hop
        obtain ⟨hbare, ⟨hph, -⟩ | ⟨hph, hlocks⟩⟩ := hs
        · rw [hf] at hph
          cases hph
        · exact h.goto hr ⟨hbare, hph, hlocks⟩
    | unlock i =>
      simp only [hpl] at hop
      obtain ⟨m₁, hm₁, rfl⟩ := Option.map_eq_some_iff.1 hop
      simp only [Machine.kernel] at hm₁
      split_ifs at hm₁ with hl
      cases hm₁
      rw [← hcur] at hf ⊢
      exact h.of_moved (h.release_moved hf hl.2) (fun p hp => absurd hp (hnone p)) (fun _ => trivial)
        fun p hp => absurd hp (hnone p)
  | spin => exact hkernel (.inr (.inl rfl)) hop
  | released => exact hkernel (.inr (.inr rfl)) hop
  | _ =>
    simp only [Machine.scheduler] at hop
    split at hop
    · rename_i i hi
      exact hkernel (.inl ⟨i, hi⟩) hop
    · cases hop

theorem step {e : ℕ × Op} (hstep : step m e = some m') : Inv m' := by
  unfold PushOff.step at hstep
  split at hstep
  · rename_i p hp
    exact h.thread hp hstep
  · rename_i hr
    exact h.scheduler hr hstep

end

theorem of_reachable (h : Reachable m) : Inv m :=
  Transition.Reachable.invariant (fun _ hm => hm.inv) (fun _ _ _ h hs => h.step hs) h

/-- A thread loses its last unmatched `push_off` in `pop_off` only. -/
theorem pop_of_pushes_nil (h : Inv m) {op : Op} (hp : m.run c = some p)
    (hop : m.thread c p op = some m') (hne : (m.frame (.proc p)).pushes ≠ [])
    (hnil : (m'.frame (.proc p)).pushes = []) :
    ∀ b, (m.frame (.proc p)).pushes = [b] → (m'.cpu c).sie = b := by
  have hcur := current_eq_proc.2 hp
  have hmove : ∀ x f lock, (m.move c (.proc p) x f lock).frame (.proc p) = f := fun _ _ _ =>
    Function.update_self ..
  cases op with
  | popOff =>
    simp only [Machine.thread, Machine.kernel] at hop
    split_ifs at hop with hf
    cases hop
    rw [← hcur] at hf ⊢
    exact (h.pop_moved
      (g := { m.frame (m.current c) with bare := (m.frame (m.current c)).bare - 1 })
      (by rw [hf.1]; exact nofun) rfl rfl (by dsimp only; omega)).2
  | released =>
    simp only [Machine.thread, Machine.kernel] at hop
    split_ifs at hop with hf
    cases hop
    rw [← hcur] at hf ⊢
    exact (h.pop_moved (g := { m.frame (m.current c) with phase := .ready })
      (by rw [hf]; exact nofun) rfl rfl (by rw [hf]; rfl)).2
  | pushOff | acquire l =>
    simp only [Machine.thread, Machine.kernel] at hop
    split_ifs at hop
    cases hop
    rw [Machine.push, hmove] at hnil
    cases hnil
  | spin =>
    simp only [Machine.thread, Machine.kernel] at hop
    split at hop
    · split_ifs at hop
      cases hop
      rw [hmove] at hnil
      exact absurd hnil hne
    · cases hop
  | release l | intr on | resume =>
    simp only [Machine.thread, Machine.kernel] at hop
    split_ifs at hop
    cases hop
    rw [hmove] at hnil
    exact absurd hnil hne
  | setState q st =>
    simp only [Machine.thread, Machine.kernel] at hop
    split_ifs at hop
    cases hop
    exact absurd hnil hne
  | context q =>
    simp only [Machine.thread, Machine.kernel] at hop
    split_ifs at hop with hf
    cases hop
    have : (m.setFrame (.proc q) (.new q)).frame (.proc p) = m.frame (.proc p) :=
      Function.update_of_ne hf.2.2.1 ..
    rw [this] at hnil
    exact absurd hnil hne
  | sched =>
    simp only [Machine.thread] at hop
    split_ifs at hop
    cases hop
    rw [leave_frame, if_neg (proc_ne_sched p c), if_pos rfl] at hnil
    exact absurd hnil hne
  | loop => cases hop

end Inv

/-- In every run, the `noff` of a CPU is the number of unmatched calls of `push_off` of the thread
that it runs, `pop_off` does not panic, and the `pop_off` that matches the outermost `push_off` of
a thread turns interrupts on exactly if they were on before it. -/
theorem intr_nesting (h : Reachable m) : m.panicked = false ∧
    ∀ c p, m.run c = some p → (m.cpu c).noff = (m.frame (.proc p)).pushes.length ∧
      ∀ op m' b, step m (c, op) = some m' → (m.frame (.proc p)).pushes = [b] →
        (m'.frame (.proc p)).pushes = [] → (m'.cpu c).sie = b := by
  have hinv := Inv.of_reachable h
  refine ⟨hinv.panicked, fun c p hp => ⟨?_, fun op m' b hstep hb hnil => ?_⟩⟩
  · rw [(hinv.agrees c).noff, current_eq_proc.2 hp]
  · simp only [step, hp] at hstep
    exact hinv.pop_of_pushes_nil hp hstep (by rw [hb]; exact List.cons_ne_nil _ _) hnil b hb

def boot : Machine where
  cpu _ := ⟨0, false, false⟩
  run _ := none
  place _ := .top
  lock _ := none
  state p := if p = 0 then .runnable else .unused
  saved _ := false
  frame
    | .proc p => .new p
    | .sched _ => ⟨[], [], 0, .ready⟩
  panicked := false

theorem boot_initial : Initial boot where
  noff _ := rfl
  run _ := rfl
  place _ := rfl
  lock _ := rfl
  state p := by
    simp only [boot]
    split_ifs <;> exact nofun
  sched _ := rfl
  proc _ := rfl
  panicked := rfl

/-- Process `0` starts on CPU `0`, turns interrupts on in `forkret` and yields to CPU `1`, where
it is about to leave the `release` of `yield`. -/
def migration : List (ℕ × Op) :=
  [(0, .loop), (0, .loop), (0, .spin), (0, .loop), (0, .release (.proc 0)), (0, .released),
    (0, .acquire (.proc 0)), (0, .spin), (0, .setState 0 .runnable), (0, .sched), (0, .loop),
    (0, .released), (1, .loop), (1, .loop), (1, .spin), (1, .loop), (1, .resume),
    (1, .release (.proc 0))]

theorem intr_nesting_migration : ∃ m m', Reachable m ∧ m.run 1 = some 0 ∧ (m.cpu 1).noff = 1 ∧
    step m (1, .released) = some m' ∧ (m'.cpu 1).sie = true := by
  obtain ⟨m', hm'⟩ : ∃ m', ((Transition.exec step boot migration).bind
      (step · (1, .released))) = some m' := Option.isSome_iff_exists.1 (by decide +kernel)
  obtain ⟨m, hm, hstep⟩ := Option.bind_eq_some_iff.1 hm'
  have hrun : (Transition.exec step boot migration).map (·.run 1) = some (some 0) := by
    decide +kernel
  have hpushes : (Transition.exec step boot migration).map (fun m => (m.frame (.proc 0)).pushes) =
      some [true] := by decide +kernel
  have hnil : ((Transition.exec step boot migration).bind (step · (1, .released))).map
      (fun m => (m.frame (.proc 0)).pushes) = some [] := by decide +kernel
  rw [hm, Option.map_some, Option.some.injEq] at hrun hpushes
  rw [hm', Option.map_some, Option.some.injEq] at hnil
  have hr : Reachable m := Transition.Reachable.exec (fun _ _ _ hs => hs) (.start _ boot_initial) hm
  obtain ⟨hnoff, hpop⟩ := (intr_nesting hr).2 1 0 hrun
  exact ⟨m, m', hr, hrun, by rw [hnoff, hpushes]; rfl, hstep,
    hpop .released m' true hstep hpushes hnil⟩

end PushOff
end Xv6
