import Xv6.Fs.UserCopy
import Xv6.Proc.Pipe

/-!
What a `piperead` takes out of the pipe and what it stores in user memory. The byte is
taken before `copyout` is tried, so that a byte is lost when its address is not mapped.
-/

namespace Xv6

/-- The byte at user address `a`, if there is a page. -/
def UserMem.byte (um : UserMem) (a : ℕ) : Option UInt8 :=
  (um.walkaddr a).map fun page => page.get (a % PGSIZE)

namespace UserMem
variable {um : UserMem} {a b : ℕ}

theorem walkaddr_rounddown : um.walkaddr (PGROUNDDOWN a) = um.walkaddr a := by
  have hq : PGROUNDDOWN a / PGSIZE = a / PGSIZE := by
    unfold PGROUNDDOWN PGSIZE
    omega
  have hm : PGROUNDDOWN a ≥ MAXVA ↔ a ≥ MAXVA := by
    unfold PGROUNDDOWN PGSIZE MAXVA
    omega
  unfold walkaddr
  simp only [hq, hm]

theorem byte_eq_none : um.byte a = none ↔ um.walkaddr a = none := Option.map_eq_none_iff

theorem copyout_one (um : UserMem) (a : ℕ) (c : UInt8) :
    copyout um a [c] = match um.walkaddr a with
      | none => (um, false)
      | some page => (um.set (a / PGSIZE) (page.set (a % PGSIZE) c), true) := by
  have hq : PGROUNDDOWN a / PGSIZE = a / PGSIZE := by
    unfold PGROUNDDOWN PGSIZE
    omega
  have hm : a - PGROUNDDOWN a = a % PGSIZE := by
    unfold PGROUNDDOWN PGSIZE
    omega
  have hlt : a % PGSIZE < PGSIZE := Nat.mod_lt _ (by decide)
  simp only [copyout, copyoutLoop, List.length_singleton, List.cons_ne_nil, if_false,
    walkaddr_rounddown]
  cases um.walkaddr a with
  | none => rfl
  | some page =>
    have hn : min (PGSIZE - a % PGSIZE) 1 = 1 := by omega
    simp only [hq, hm, hn, List.take_succ_cons, List.take_zero, List.drop_succ_cons,
      List.drop_zero, Bytes.putBytes, decide_true]

theorem byte_set {page : Bytes} {c : UInt8} (h : um.walkaddr a = some page) :
    UserMem.byte (um.set (a / PGSIZE) (page.set (a % PGSIZE) c)) b =
      if b = a then some c else um.byte b := by
  have ha : a < MAXVA := by
    by_contra hge
    rw [walkaddr, if_pos (by omega)] at h
    cases h
  rw [walkaddr, if_neg (by omega)] at h
  unfold byte walkaddr
  by_cases hb : b ≥ MAXVA
  · rw [if_pos hb, if_pos hb, if_neg (by omega)]
  · rw [if_neg hb, if_neg hb, TMap.get?_set]
    by_cases hq : b / PGSIZE = a / PGSIZE
    · rw [if_pos hq, Option.map_some, TMap.get_set, hq, h, Option.map_some]
      by_cases hba : b = a
      · rw [hba, if_pos rfl, if_pos rfl]
      · have hne : b % PGSIZE ≠ a % PGSIZE := by
          intro hm
          apply hba
          rw [← Nat.div_add_mod b PGSIZE, ← Nat.div_add_mod a PGSIZE, hq, hm]
        rw [if_neg hne, if_neg hba]
    · have hba : b ≠ a := by
        rintro rfl
        exact hq rfl
      rw [if_neg hq, if_neg hba]

end UserMem

namespace PipeFifo
variable {pi pi' : Pipe} {um um' : UserMem} {addr i k : ℕ} {n : ℤ}

/-- The loop of `piperead` from `i` on, for `k` rounds. -/
def pipereadLoop (addr : ℕ) (pi : Pipe) (um : UserMem) (i : ℕ) : ℕ → ℕ × Pipe × UserMem
  | 0 => (i, pi, um)
  | k + 1 =>
      if pi.nread = pi.nwrite then (i, pi, um)
      else
        match copyout um ((addr + i) % 2 ^ 64) [pi.front] with
        | (um', true) => pipereadLoop addr pi.advance um' (i + 1) k
        | (um', false) => (i, pi.advance, um')

/-- `piperead` from where it has the lock; `none` when it goes to sleep. -/
def piperead (killed : Bool) (addr : ℕ) (n : ℤ) (pi : Pipe) (um : UserMem) :
    Option (ℤ × Pipe × UserMem) :=
  if pi.nread = pi.nwrite ∧ pi.writeopen = true then
    if killed then some (-1, pi, um) else none
  else
    let (i, pi', um') := pipereadLoop addr pi um 0 n.toNat
    some (i, pi', um')

/-- The read took out of the pipe the `i` bytes it stored at `addr`, and no other byte of
user memory changed. -/
def Consumed (addr : ℕ) (pi : Pipe) (um : UserMem) (i : ℕ) (pi' : Pipe) (um' : UserMem) : Prop :=
  ∃ taken : List UInt8, taken.length = i ∧ pi.contents = taken ++ pi'.contents ∧
    (∀ j < i, um'.byte ((addr + j) % 2 ^ 64) = some (taken.getD j 0)) ∧
    ∀ a, (∀ j < i, a ≠ (addr + j) % 2 ^ 64) → um'.byte a = um.byte a

/-- Counters are `uint`. -/
def Pipe.Ok (pi : Pipe) : Prop := pi.nread < 2 ^ 32 ∧ pi.nwrite < 2 ^ 32

/-- All bytes that the read could deliver have an address that is mapped. -/
def Deliverable (addr : ℕ) (n : ℤ) (pi : Pipe) (um : UserMem) : Prop :=
  ∀ j : ℕ, (j : ℤ) < n → j < pi.count → um.byte ((addr + j) % 2 ^ 64) ≠ none

theorem Pipe.Ok.advance (h : pi.Ok) : pi.advance.Ok := ⟨Nat.mod_lt _ (by decide), h.2⟩

theorem Pipe.Ok.count_eq_zero (h : pi.Ok) : pi.count = 0 ↔ pi.nread = pi.nwrite := by
  obtain ⟨h₁, h₂⟩ := h
  unfold Pipe.count RingBuffer.count
  omega

theorem Pipe.Ok.count_advance (h : pi.Ok) (hne : pi.nread ≠ pi.nwrite) :
    pi.count = pi.advance.count + 1 := by
  obtain ⟨h₁, h₂⟩ := h
  unfold Pipe.count Pipe.advance RingBuffer.count
  dsimp only
  omega

theorem length_contents (pi : Pipe) : pi.contents.length = pi.count := by
  unfold Pipe.contents RingBuffer.contents Pipe.count
  rw [List.length_map, List.length_range]

theorem Pipe.Ok.contents_advance (h : pi.Ok) (hne : pi.nread ≠ pi.nwrite) :
    pi.contents = pi.front :: pi.advance.contents := by
  have hc := h.count_advance hne
  unfold Pipe.count at hc
  unfold Pipe.contents RingBuffer.contents
  rw [hc, List.range_succ_eq_map, List.map_cons, List.map_map, Nat.add_zero]
  congr 1
  refine List.map_congr_left fun j _ => ?_
  have hslot : ((pi.nread + 1) % 2 ^ 32 + j) % PIPESIZE = (pi.nread + Nat.succ j) % PIPESIZE := by
    rw [Nat.add_mod, Nat.mod_mod_of_dvd _ dvd, ← Nat.add_mod]
    congr 1
    omega
  simp only [Function.comp_apply, Pipe.advance, hslot]

theorem addr_inj {j l : ℕ} (hj : j < 2 ^ 64) (hl : l < 2 ^ 64)
    (h : (addr + j) % 2 ^ 64 = (addr + l) % 2 ^ 64) : j = l :=
  Nat.ModEq.eq_of_lt_of_lt (Nat.ModEq.add_left_cancel' addr h) hj hl

/-- Rounds that all deliver: the loop stops after `k` rounds or when the pipe is empty. -/
theorem pipereadLoop_deliverable (hk : i + k ≤ 2 ^ 32) (hok : pi.Ok)
    (hd : ∀ j < k, j < pi.count → um.byte ((addr + (i + j)) % 2 ^ 64) ≠ none) :
    ∃ taken pi' um', pipereadLoop addr pi um i k = (i + taken.length, pi', um') ∧
      pi.contents = taken ++ pi'.contents ∧ taken.length ≤ k ∧
      (∀ j < taken.length, um'.byte ((addr + (i + j)) % 2 ^ 64) = some (taken.getD j 0)) ∧
      ∀ a, (∀ j < taken.length, a ≠ (addr + (i + j)) % 2 ^ 64) → um'.byte a = um.byte a := by
  induction k generalizing pi um i with
  | zero =>
    exact ⟨[], pi, um, rfl, (List.nil_append _).symm, le_rfl,
      fun j hj => absurd hj (Nat.not_lt_zero _), fun _ _ => rfl⟩
  | succ k ih =>
    unfold pipereadLoop
    by_cases hne : pi.nread = pi.nwrite
    · rw [if_pos hne]
      exact ⟨[], pi, um, rfl, (List.nil_append _).symm, Nat.zero_le _,
        fun j hj => absurd hj (Nat.not_lt_zero _), fun _ _ => rfl⟩
    · rw [if_neg hne, UserMem.copyout_one]
      have hcount := hok.count_advance hne
      have h0 := hd 0 (Nat.succ_pos k) (by omega)
      rw [Nat.add_zero, Ne, UserMem.byte_eq_none] at h0
      obtain ⟨page, hpage⟩ := Option.ne_none_iff_exists'.1 h0
      simp only [hpage]
      have hset := fun b => UserMem.byte_set (b := b) (c := pi.front) hpage
      generalize um.set ((addr + i) % 2 ^ 64 / PGSIZE)
        (page.set ((addr + i) % 2 ^ 64 % PGSIZE) pi.front) = um₁ at hset
      obtain ⟨taken, pi', um', hrun, hcont, hlen, hstored, hframe⟩ := ih (i := i + 1) (by omega)
        hok.advance (by
          intro j hj hjc
          rw [hset, show i + 1 + j = i + (j + 1) by omega]
          split_ifs
          · exact Option.some_ne_none _
          · exact hd (j + 1) (by omega) (by omega))
      refine ⟨pi.front :: taken, pi', um', ?_, ?_, ?_, ?_, ?_⟩
      · rw [hrun, List.length_cons, show i + 1 + taken.length = i + (taken.length + 1) by omega]
      · rw [hok.contents_advance hne, hcont, List.cons_append]
      · exact Nat.succ_le_succ hlen
      · intro j hj
        rw [List.length_cons] at hj
        cases j with
        | zero =>
          rw [Nat.add_zero, hframe, hset, if_pos rfl, List.getD_cons_zero]
          intro j hj' he
          have := addr_inj (by omega) (by omega) he
          omega
        | succ j =>
          rw [List.getD_cons_succ, ← hstored j (by omega), show i + 1 + j = i + (j + 1) by omega]
      · intro a ha
        rw [List.length_cons] at ha
        rw [hframe, hset, if_neg]
        · have := ha 0 (by omega)
          rwa [Nat.add_zero] at this
        · intro j hj
          rw [show i + 1 + j = i + (j + 1) by omega]
          exact ha (j + 1) (by omega)

/-- A byte whose address is not mapped is taken out and the loop stops: the pipe has lost
one byte more than the loop counts. -/
theorem pipereadLoop_lost (hk : i + k ≤ 2 ^ 32) (hok : pi.Ok) {j : ℕ} (hj : j < k)
    (hjc : j < pi.count) (hun : um.byte ((addr + (i + j)) % 2 ^ 64) = none) :
    ∃ l pi' um', pipereadLoop addr pi um i k = (i + l, pi', um') ∧
      pi.count = l + 1 + pi'.count := by
  induction k generalizing pi um i j with
  | zero => omega
  | succ k ih =>
    have hne : pi.nread ≠ pi.nwrite := by
      rw [Ne, ← hok.count_eq_zero]
      omega
    have hcount := hok.count_advance hne
    unfold pipereadLoop
    rw [if_neg hne, UserMem.copyout_one]
    cases hpage : um.walkaddr ((addr + i) % 2 ^ 64) with
    | none => exact ⟨0, pi.advance, um, rfl, by omega⟩
    | some page =>
      have hset := fun b => UserMem.byte_set (b := b) (c := pi.front) hpage
      dsimp only
      generalize um.set ((addr + i) % 2 ^ 64 / PGSIZE)
        (page.set ((addr + i) % 2 ^ 64 % PGSIZE) pi.front) = um₁ at hset
      cases j with
      | zero =>
        rw [Nat.add_zero, UserMem.byte_eq_none, hpage] at hun
        cases hun
      | succ j =>
        obtain ⟨l, pi', um', hrun, hl⟩ := ih (i := i + 1) (by omega) hok.advance
          (j := j) (by omega) (by omega) (by
            rw [hset, show i + 1 + j = i + (j + 1) by omega, if_neg]
            · exact hun
            · intro he
              have := addr_inj (by omega) (by omega) he
              omega)
        exact ⟨l + 1, pi', um', by rw [hrun, show i + 1 + l = i + (l + 1) by omega], by omega⟩

/-- A `piperead` that returns `i ≥ 0` takes `i` bytes out of the pipe, those it stored,
exactly when every byte it could deliver has a mapped address. -/
theorem piperead_consumes_iff (hok : pi.Ok) (hn : n < 2 ^ 31) (killed : Bool) :
    (∀ (i : ℕ) pi' um', piperead killed addr n pi um = some ((i : ℤ), pi', um') →
        Consumed addr pi um i pi' um') ↔ Deliverable addr n pi um := by
  have hk : 0 + n.toNat ≤ 2 ^ 32 := by omega
  constructor
  · intro h j hj hjc hun
    have hempty : ¬ (pi.nread = pi.nwrite ∧ pi.writeopen = true) := by
      intro hc
      have := hok.count_eq_zero.2 hc.1
      omega
    obtain ⟨l, pi', um', hrun, hl⟩ := pipereadLoop_lost hk hok (j := j)
      (by omega) hjc (show um.byte ((addr + (0 + j)) % 2 ^ 64) = none by rwa [Nat.zero_add])
    have hres : piperead killed addr n pi um = some ((l : ℤ), pi', um') := by
      rw [piperead, if_neg hempty, hrun, Nat.zero_add]
    obtain ⟨taken, hlen, hcont, -, -⟩ := h l pi' um' hres
    have := congrArg List.length hcont
    rw [List.length_append, length_contents, length_contents] at this
    omega
  · intro hd i pi' um' hres
    unfold piperead at hres
    split_ifs at hres
    · have : (-1 : ℤ) = i := congrArg Prod.fst (Option.some.inj hres)
      omega
    · obtain ⟨taken, pi₁, um₁, hrun, hcont, -, hstored, hframe⟩ :=
        pipereadLoop_deliverable hk hok fun j hj hjc =>
          show um.byte ((addr + (0 + j)) % 2 ^ 64) ≠ none by
            rw [Nat.zero_add]
            exact hd j (by omega) hjc
      rw [hrun] at hres
      simp only [Nat.zero_add] at hres hstored hframe
      simp only [Option.some.injEq, Prod.mk.injEq, Int.natCast_inj] at hres
      obtain ⟨rfl, rfl, rfl⟩ := hres
      exact ⟨taken, rfl, hcont, hstored, hframe⟩

def oneByte : Pipe := ⟨fun _ => 7, 0, 1, true, true⟩

/-- A read of one byte to an address that is not mapped returns `0` and loses the byte. -/
theorem piperead_loses_byte : ∃ pi' um', piperead false 0 1 oneByte .empty = some (0, pi', um') ∧
    oneByte.contents = [7] ∧ pi'.contents = [] := ⟨oneByte.advance, .empty, rfl, rfl, rfl⟩

/-- With a page at address `0` the byte is delivered. -/
theorem piperead_consumes_onePage : ∃ pi' um',
    piperead false 0 1 oneByte (.set .empty 0 .empty) = some (1, pi', um') ∧
      Consumed 0 oneByte (.set .empty 0 .empty) 1 pi' um' := by
  have hall := (piperead_consumes_iff (n := 1) (show oneByte.Ok from ⟨by decide, by decide⟩)
    (by decide) false).2 (by
      intro j hj _
      have : j = 0 := by omega
      subst this
      show UserMem.byte (.set .empty 0 .empty) ((0 + 0) % 2 ^ 64) ≠ none
      decide)
  exact ⟨_, _, rfl, hall 1 _ _ rfl⟩

/-! The machine of the pipe runs this loop. -/

abbrev Goes (p : ℕ) : Machine → Machine → Prop :=
  Relation.ReflTransGen fun m m' => step m p .go = some m'

theorem goes_readLoop {m : Machine} {p : ℕ} {dst : ℕ → Bool} (hk : n.toNat = i + k)
    (hpc : m.thread p = .readLoop dst n i) (hi : (i + k : ℕ) ≤ 2 ^ 32)
    (hdst : ∀ j < k, dst (i + j) = (um.byte ((addr + (i + j)) % 2 ^ 64)).isSome) :
    ∃ m', Goes p m m' ∧ m'.thread p = .readDone n (pipereadLoop addr m.pipe um i k).1 ∧
      m'.pipe = (pipereadLoop addr m.pipe um i k).2.1 := by
  induction k generalizing m um i with
  | zero =>
    refine ⟨m.goto p (.readDone n i), .single ?_, Function.update_self .., rfl⟩
    rw [step, hpc, go, if_neg (by omega)]
  | succ k ih =>
    have hlt : (i : ℤ) < n := by omega
    unfold pipereadLoop
    by_cases hne : m.pipe.nread = m.pipe.nwrite
    · rw [if_pos hne]
      refine ⟨m.goto p (.readDone n i), .single ?_, Function.update_self .., rfl⟩
      rw [step, hpc, go, if_pos hlt, if_pos hne]
    · rw [if_neg hne, UserMem.copyout_one]
      have hd := hdst 0 (Nat.succ_pos k)
      rw [Nat.add_zero, UserMem.byte] at hd
      cases hpage : um.walkaddr ((addr + i) % 2 ^ 64) with
      | none =>
        rw [hpage] at hd
        refine ⟨{ m with pipe := m.pipe.advance }.goto p (.readDone n i), .single ?_,
          Function.update_self .., rfl⟩
        rw [step, hpc, go, if_pos hlt, if_neg hne, hd]
        rfl
      | some page =>
        rw [hpage] at hd
        have hset := fun b => UserMem.byte_set (b := b) (c := m.pipe.front) hpage
        dsimp only
        generalize um.set ((addr + i) % 2 ^ 64 / PGSIZE)
          (page.set ((addr + i) % 2 ^ 64 % PGSIZE) m.pipe.front) = um₁ at hset
        let m₁ := { m with
          pipe := m.pipe.advance, delivered := m.delivered ++ [m.pipe.front] }.goto p
            (.readLoop dst n (i + 1))
        obtain ⟨m', hgo, hthread, hpipe⟩ := ih (m := m₁) (i := i + 1) (by omega)
          (Function.update_self ..) (by omega) (by
            intro j hj
            rw [hset, show i + 1 + j = i + (j + 1) by omega, if_neg]
            · exact hdst (j + 1) (by omega)
            · intro he
              have := addr_inj (by omega) (by omega) he
              omega)
        refine ⟨m', .head ?_ hgo, hthread, hpipe⟩
        rw [step, hpc, go, if_pos hlt, if_neg hne, hd]
        rfl

end PipeFifo

end Xv6
