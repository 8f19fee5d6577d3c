import Mathlib.Data.List.GetD
import Xv6.Dev.Console

/-!
The line discipline of the console, for every interleaving of typed characters and reads: the
buffer has what was committed and not yet taken, then the line that is being edited.
-/

namespace Xv6
namespace Console

open RingBuffer

variable {s : Cons} {t : Text} {consumed : List UInt8} {c : UInt8}

/-! ### The buffer -/

theorem dvd : INPUT_BUF ∣ 2 ^ 32 := by decide

structure Holds (s : Cons) (consumed : List UInt8) (t : Text) : Prop where
  ring : Ring (2 ^ 32) INPUT_BUF s.buf s.r s.e consumed.length (t.committed ++ t.line)
  commit : s.w = t.committed.length % 2 ^ 32
  history : consumed <+: t.committed
  line : NL ∉ t.line
  full : (t.committed ++ t.line).length = consumed.length + INPUT_BUF → t.line = []

namespace Holds

theorem queue_ring (h : Holds s consumed t) :
    Ring (2 ^ 32) INPUT_BUF s.buf s.r s.w consumed.length t.committed := by
  rw [h.commit]
  exact h.ring.cut (List.prefix_append _ _) h.history.length_le

theorem line_ring (h : Holds s consumed t) :
    Ring (2 ^ 32) INPUT_BUF s.buf s.w s.e t.committed.length (t.committed ++ t.line) := by
  rw [h.commit]
  exact h.ring.skip h.history.length_le (List.prefix_append _ _).length_le

theorem consumed_queue (h : Holds s consumed t) : consumed ++ s.queue = t.committed := by
  rw [Cons.queue, h.queue_ring.contents_eq dvd (by decide)]
  exact List.prefix_iff_eq_append.1 h.history

theorem line_eq (h : Holds s consumed t) : s.line = t.line := by
  rw [Cons.line, h.line_ring.contents_eq dvd (by decide), List.drop_left]

theorem count_line (h : Holds s consumed t) : count (2 ^ 32) s.w s.e = t.line.length := by
  rw [h.line_ring.count_eq (by decide), List.length_append, Nat.add_sub_cancel_left]

theorem count_queue (h : Holds s consumed t) :
    count (2 ^ 32) s.r s.w = t.committed.length - consumed.length :=
  h.queue_ring.count_eq (by decide)

theorem count_all (h : Holds s consumed t) :
    count (2 ^ 32) s.r s.e = t.committed.length + t.line.length - consumed.length := by
  rw [h.ring.count_eq (by decide), List.length_append]

theorem e_eq_w_iff (h : Holds s consumed t) : s.e = s.w ↔ t.line = [] := by
  rw [eq_comm, h.line_ring.eq_iff (by decide), List.length_append, ← List.length_eq_zero_iff]
  omega

/-! Editing -/

theorem erase_e (h : Holds s consumed t) {l : List UInt8} {x : UInt8} (hl : t.line = l ++ [x]) :
    s.erase.e = (t.committed ++ l).length % 2 ^ 32 := by
  have hw := h.ring.write
  rw [hl, ← List.append_assoc, List.length_append, List.length_singleton] at hw
  simp only [Cons.erase, hw]
  omega

theorem last (h : Holds s consumed t) {l : List UInt8} {x : UInt8} (hl : t.line = l ++ [x]) :
    s.buf (s.erase.e % INPUT_BUF) = x := by
  have hslot := h.ring.slot (t.committed ++ l).length
    (h.history.length_le.trans (List.prefix_append _ _).length_le)
    (by simp only [hl, List.length_append, List.length_singleton]; omega)
  rw [hl, ← List.append_assoc, List.getElem?_concat_length, Option.some.injEq] at hslot
  rw [h.erase_e hl, Nat.mod_mod_of_dvd _ dvd]
  exact hslot.symm

theorem erase (h : Holds s consumed t) {l : List UInt8} {x : UInt8} (hl : t.line = l ++ [x]) :
    Holds s.erase consumed ⟨t.committed, l⟩ := by
  have hroom := h.ring.room
  rw [hl, ← List.append_assoc, List.length_append, List.length_singleton] at hroom
  refine ⟨?_, by rw [Cons.erase_w, h.commit], h.history,
    fun hx => h.line (hl ▸ List.mem_append_left _ hx), fun hf => ?_⟩
  · rw [h.erase_e hl, Cons.erase_buf, Cons.erase_r]
    refine h.ring.cut ?_ (h.history.length_le.trans (List.prefix_append _ _).length_le)
    rw [hl, ← List.append_assoc]
    exact List.prefix_append _ _
  · dsimp only at hf
    omega

theorem killLine (h : Holds s consumed t) {k : ℕ} (hk : t.line.length = k) :
    Holds (s.killLine k) consumed ⟨t.committed, []⟩ := by
  induction k generalizing s t with
  | zero =>
    rw [List.length_eq_zero_iff] at hk
    rw [Cons.killLine, ← hk]
    exact h
  | succ k ih =>
    obtain ⟨l, x, hl⟩ : ∃ l x, t.line = l ++ [x] :=
      (List.eq_nil_or_concat' t.line).resolve_left (List.ne_nil_of_length_eq_add_one hk)
    have hne : s.e ≠ s.w := by
      rw [Ne, h.e_eq_w_iff, hl]
      exact List.append_ne_nil_of_right_ne_nil _ (List.cons_ne_nil _ _)
    have hx : x ≠ NL := by
      rintro rfl
      exact h.line (hl ▸ List.mem_append_right _ List.mem_cons_self)
    rw [Cons.killLine, if_pos ⟨hne, by rwa [h.last hl]⟩]
    refine ih (t := ⟨t.committed, l⟩) (h.erase hl) ?_
    rw [hl, List.length_append, List.length_singleton] at hk
    exact Nat.succ.inj hk

theorem store (h : Holds s consumed t)
    (hroom : (t.committed ++ t.line).length < consumed.length + INPUT_BUF) (c : UInt8) :
    Ring (2 ^ 32) INPUT_BUF (s.store c).buf (s.store c).r (s.store c).e consumed.length
      (t.committed ++ (t.line ++ [c])) := by
  rw [← List.append_assoc]
  exact h.ring.push dvd hroom c

/-- What `consoleintr` does to the buffer is the edit of the text. -/
theorem consoleintr (h : Holds s consumed t) (c : UInt8) :
    Holds (s.consoleintr c).1 consumed (t.type c (INPUT_BUF - count (2 ^ 32) s.r s.e)) := by
  have hlen := h.ring.room
  have hle := h.history.length_le
  have hcount := h.count_all
  rw [List.length_append] at hlen
  unfold Cons.consoleintr Text.type
  by_cases hP : c = ctrl 'P'
  · rw [if_pos hP, if_pos (.inr hP)]
    exact h
  rw [if_neg hP]
  by_cases hU : c = ctrl 'U'
  · rw [if_pos hU, hU, if_neg (by decide), if_pos rfl]
    exact h.killLine h.count_line.symm
  rw [if_neg hU]
  by_cases hH : c = ctrl 'H' ∨ c = DEL
  · have h0 : c ≠ 0 := by
      rintro rfl
      exact absurd hH (by decide)
    rw [if_pos hH, if_neg (not_or.2 ⟨h0, hP⟩), if_neg hU, if_pos hH]
    by_cases hne : s.e = s.w
    · rw [if_neg (not_not.2 hne)]
      have hl := h.e_eq_w_iff.1 hne
      rw [hl, List.dropLast_nil, ← hl]
      exact h
    · rw [if_pos hne]
      obtain ⟨l, x, hl⟩ := (List.eq_nil_or_concat' t.line).resolve_left
        fun hl => hne (h.e_eq_w_iff.2 hl)
      rw [hl, List.dropLast_concat]
      exact h.erase hl
  rw [if_neg hH]
  by_cases h0 : c = 0
  · rw [if_neg (fun hc => hc.1 h0), if_pos (.inl h0)]
    exact h
  rw [if_neg (not_or.2 ⟨h0, hP⟩), if_neg hU, if_neg hH]
  by_cases hfull : count (2 ^ 32) s.r s.e < INPUT_BUF
  · have hsome : INPUT_BUF - count (2 ^ 32) s.r s.e ≠ 0 := by omega
    rw [if_pos ⟨h0, hfull⟩, if_neg hsome]
    generalize (if c = CR then NL else c) = c'
    rw [hcount] at hfull ⊢
    have hring := h.store (by rw [List.length_append]; omega) c'
    have hfullIff : (s.store c').e = ((s.store c').r + INPUT_BUF) % 2 ^ 32 ↔
        INPUT_BUF - (t.committed.length + t.line.length - consumed.length) = 1 := by
      rw [hring.full_iff (by decide)]
      simp only [List.length_append, List.length_singleton]
      omega
    dsimp only
    simp only [hfullIff]
    split_ifs with hend
    · have hw := hring.write
      refine ⟨?_, hw, h.history.trans (List.prefix_append _ _), List.not_mem_nil, fun _ => rfl⟩
      rw [List.append_nil]
      exact hring
    · refine ⟨hring, h.commit, h.history, ?_, fun hf => ?_⟩
      · rw [List.mem_append, List.mem_singleton]
        exact not_or.2 ⟨h.line, fun hc => hend (.inl hc.symm)⟩
      · simp only [List.length_append, List.length_singleton] at hf
        exact absurd (.inr (.inr (by omega))) hend
  · have hnone : INPUT_BUF - count (2 ^ 32) s.r s.e = 0 := by omega
    rw [if_neg (fun hc => hfull hc.2), if_pos hnone]
    exact h

/-! Reading -/

theorem front_eq (h : Holds s consumed t) (hne : s.r ≠ s.w) :
    t.committed[consumed.length]? = some s.front :=
  h.queue_ring.next dvd (h.queue_ring.lt_of_ne (by decide) hne)

theorem advance (h : Holds s consumed t) (hne : s.r ≠ s.w) :
    Holds s.advance (consumed ++ [s.front]) t := by
  have hlt := h.queue_ring.lt_of_ne (by decide) hne
  have hfront := h.front_eq hne
  have hroom := h.ring.room
  refine ⟨?_, h.commit, ?_, h.line, fun hf => ?_⟩
  · rw [List.length_append]
    refine h.ring.pop ?_
    rw [List.length_append]
    omega
  · obtain ⟨l, hl⟩ := h.history
    rw [← hl, List.getElem?_append_right le_rfl, Nat.sub_self, ← List.head?_eq_getElem?] at hfront
    obtain ⟨l', rfl⟩ := List.head?_eq_some_iff.1 hfront
    exact ⟨l', by rw [← hl, List.append_assoc, List.singleton_append]⟩
  · simp only [List.length_append, List.length_singleton] at hf hroom
    omega

theorem putBack (h : Holds s consumed t) : s.advance.putBack = s := by
  have hr := h.ring.read_lt (by decide)
  have : ((s.r + 1) % 2 ^ 32 + 2 ^ 32 - 1) % 2 ^ 32 = s.r := by omega
  simp only [Cons.putBack, Cons.advance, this]

theorem head_queue (h : Holds s consumed t) (hne : s.r ≠ s.w) : s.queue.head? = some s.front := by
  rw [← h.front_eq hne, ← h.consumed_queue, List.getElem?_append_right le_rfl, Nat.sub_self,
    List.head?_eq_getElem?]

end Holds

/-! ### A read -/

/-- The bytes are where the caller wants them, and nothing else of its memory has changed. -/
def Delivered (rd : Read) (got : List UInt8) : Prop :=
  match rd.args.dst with
  | .user a => rd.dst = .user ((a + got.length) % 2 ^ 64) ∧
      (∀ j < got.length, rd.um.byte ((a + j) % 2 ^ 64) = some (got.getD j 0)) ∧
      ∀ b, (∀ j < got.length, b ≠ (a + j) % 2 ^ 64) → rd.um.byte b = rd.args.um.byte b
  | .kernel l => rd.dst = .kernel (l ++ got) ∧ rd.um = rd.args.um

structure Progress (rd : Read) (got : List UInt8) : Prop where
  ok : rd.args.Ok
  delivered : Delivered rd got
  target : rd.target = rd.args.n % 2 ^ 32
  n : rd.n = rd.args.n - got.length
  length : (got.length : ℤ) ≤ max rd.args.n 0
  eof : ctrl 'D' ∉ got

/-- A read that returns `v` and took `taken` out of the buffer has stored `got`, which is at most
one line. -/
structure Result (rd : Read) (v : ℤ) (taken got : List UInt8) : Prop where
  taken : taken = got ∨ got = [] ∧ taken = [ctrl 'D']
  delivered : Delivered rd got
  length : (got.length : ℤ) ≤ max rd.args.n 0
  line : NL ∉ got.dropLast
  eof : ctrl 'D' ∉ got
  ret : v = got.length ∨ v = -1

/-- Why a read that is not killed ends: it has all bytes or a whole line, or it came to an
end of file, which stays for the next read unless this one has no bytes. -/
def Ends (rd : Read) (s : Cons) (taken got : List UInt8) : Prop :=
  (got.length : ℤ) = max rd.args.n 0 ∨ got.getLast? = some NL ∨
    got = [] ∧ taken = [ctrl 'D'] ∨ got ≠ [] ∧ s.queue.head? = some (ctrl 'D')

variable {rd rd' : Read} {got taken : List UInt8} {v : ℤ}

theorem Delivered.start {args : Args} (h : args.Ok) : Delivered (.start args) [] := by
  unfold Delivered Read.start
  dsimp only
  cases hd : args.dst with
  | user a =>
    refine ⟨?_, fun j hj => absurd hj (Nat.not_lt_zero _), fun _ _ => rfl⟩
    rw [List.length_nil, Nat.add_zero, Nat.mod_eq_of_lt (h.addr a hd)]
  | kernel l => exact ⟨by rw [List.append_nil], rfl⟩

theorem Progress.start {args : Args} (h : args.Ok) : Progress (.start args) [] :=
  ⟨h, .start h, rfl, (sub_zero _).symm, le_max_right _ _, List.not_mem_nil⟩

namespace Progress

theorem ret (h : Progress rd got) : rd.ret = got.length := by
  obtain ⟨hlow, hup, -, -⟩ := h.ok
  have hlen := h.length
  have hlt : (got.length : ℤ) < 2 ^ 31 := by
    rcases max_cases rd.args.n 0 with hm | hm <;> omega
  have hnonneg : (0 : ℤ) ≤ got.length := Int.natCast_nonneg _
  rw [Read.ret, h.target, h.n]
  generalize (got.length : ℤ) = k at *
  rw [Int.bmod_def]
  split <;> omega

theorem lt_target (h : Progress rd got) (hn : 0 < rd.n) :
    rd.n % 2 ^ 32 < rd.target ↔ got ≠ [] := by
  obtain ⟨hlow, hup, -, -⟩ := h.ok
  have hlen := h.n
  rw [h.target, Ne, ← List.length_eq_zero_iff, Int.emod_eq_of_lt hn.le (by omega),
    Int.emod_eq_of_lt (by omega) (by omega)]
  omega

theorem put (h : Progress rd got) (hn : 0 < rd.n) {c : UInt8} (hc : c ≠ ctrl 'D') :
    ∃ rd', rd.put c = some rd' ∧ Progress rd' (got ++ [c]) := by
  have hlen := h.n
  obtain ⟨hlow, hup, -, hmapped⟩ := h.ok
  have hcount : ((got ++ [c]).length : ℤ) = got.length + 1 := by
    rw [List.length_append, List.length_singleton, Nat.cast_add, Nat.cast_one]
  have hmax : ((got ++ [c]).length : ℤ) ≤ max rd.args.n 0 := by
    rw [hcount]
    exact le_max_of_le_left (by omega)
  have heof : ctrl 'D' ∉ got ++ [c] := by
    rw [List.mem_append, List.mem_singleton]
    exact not_or.2 ⟨h.eof, hc.symm⟩
  have hd := h.delivered
  unfold Delivered at hd
  cases hdst : rd.args.dst with
  | kernel l =>
    simp only [hdst] at hd
    refine ⟨{ rd with dst := .kernel (l ++ got ++ [c]), n := rd.n - 1 }, by rw [Read.put, hd.1],
      h.ok, ?_, h.target, ?_, hmax, heof⟩
    · unfold Delivered
      simp only [hdst]
      exact ⟨by rw [List.append_assoc], hd.2⟩
    · rw [hcount]
      dsimp only
      omega
  | user a =>
    simp only [hdst] at hd
    obtain ⟨haddr, hstored, hframe⟩ := hd
    have hpage : rd.um.byte ((a + got.length) % 2 ^ 64) ≠ none := by
      rw [hframe]
      · exact hmapped a hdst got.length (by omega)
      · intro j hj he
        have := PipeFifo.addr_inj (by omega) (by omega) he
        omega
    rw [Ne, UserMem.byte_eq_none] at hpage
    obtain ⟨page, hpage⟩ := Option.ne_none_iff_exists'.1 hpage
    have hset := fun b => UserMem.byte_set (b := b) (c := c) hpage
    have hput : rd.put c = some { rd with
        um := rd.um.set ((a + got.length) % 2 ^ 64 / PGSIZE)
          (page.set ((a + got.length) % 2 ^ 64 % PGSIZE) c)
        dst := .user (((a + got.length) % 2 ^ 64 + 1) % 2 ^ 64), n := rd.n - 1 } := by
      simp only [Read.put, haddr, UserMem.copyout_one, hpage]
    generalize rd.um.set ((a + got.length) % 2 ^ 64 / PGSIZE)
      (page.set ((a + got.length) % 2 ^ 64 % PGSIZE) c) = um at hset hput
    refine ⟨_, hput, h.ok, ?_, h.target, ?_, hmax, heof⟩
    · unfold Delivered
      simp only [hdst]
      refine ⟨?_, fun j hj => ?_, fun b hb => ?_⟩
      · rw [Nat.mod_add_mod, List.length_append, List.length_singleton, Nat.add_assoc]
      · rw [List.length_append, List.length_singleton] at hj
        rw [hset]
        obtain hlt | rfl := Nat.lt_succ_iff_lt_or_eq.1 hj
        · rw [if_neg, hstored j hlt, List.getD_append _ _ _ _ hlt]
          intro he
          have := PipeFifo.addr_inj (by omega) (by omega) he
          omega
        · rw [if_pos rfl, List.getD_append_right _ _ _ _ le_rfl, Nat.sub_self,
            List.getD_cons_zero]
      · rw [hset, if_neg, hframe]
        · intro j hj
          exact hb j (by rw [List.length_append]; omega)
        · exact hb got.length (by rw [List.length_append, List.length_singleton]; omega)
    · rw [hcount]
      dsimp only
      omega

theorem result (h : Progress rd got) (hline : NL ∉ got.dropLast)
    (hv : v = rd.ret ∨ v = -1) : Result rd v got got :=
  ⟨.inl rfl, h.delivered, h.length, hline, h.eof, hv.imp_left fun hv => hv.trans h.ret⟩

end Progress

/-! ### Runs -/

variable {m m' : Machine} {i j : ℕ} {pc : Pc}

def CallOk (m : Machine) (i : ℕ) : Pc → Prop
  | .idle => m.taken i = []
  | .acquire rd | .loop rd | .asleep rd => Progress rd (m.taken i) ∧ NL ∉ m.taken i
  | .leaving rd v => ∃ got, Result rd v (m.taken i) got ∧
      (v = -1 ∧ m.killed i = true ∨ v = got.length ∧ Ends rd m.cons (m.taken i) got)
  | .returned rd v => ∃ got, Result rd v (m.taken i) got

structure Inv (m : Machine) : Prop where
  text : Holds m.cons (m.consumed.map Prod.snd) (edited m.typed)
  mutex : ∀ i, (m.call i).locked = true → m.lock = some i
  calls : ∀ i, CallOk m i (m.call i)

theorem boot_inv : Inv boot :=
  ⟨⟨.empty _ _ _, rfl, List.nil_prefix, List.not_mem_nil, fun _ => rfl⟩, nofun, fun _ => rfl⟩

theorem locked_wake (pc : Pc) : pc.wake.locked = pc.locked := by cases pc <;> rfl

theorem CallOk.wake (h : CallOk m i pc) : CallOk m i pc.wake := by
  cases pc <;> exact h

theorem callOk_goto {pc' : Pc} : CallOk (m.goto j pc') i pc ↔ CallOk m i pc := by
  cases pc <;> exact Iff.rfl

theorem CallOk.congr (h : CallOk m i pc) (hl : pc.locked = false)
    (ht : m'.taken i = m.taken i) : CallOk m' i pc := by
  cases pc with
  | loop rd => cases hl
  | leaving rd v => cases hl
  | _ =>
    simp only [CallOk] at h ⊢
    rw [ht]
    exact h

theorem CallOk.kill {killed : ℕ → Bool} (h : CallOk m i pc)
    (hk : m.killed i = true → killed i = true) : CallOk { m with killed := killed } i pc := by
  cases pc with
  | leaving rd v =>
    obtain ⟨got, hres, hwhy⟩ := h
    exact ⟨got, hres, hwhy.imp_left fun hv => ⟨hv.1, hk hv.2⟩⟩
  | _ => exact h

theorem taken_take (m : Machine) (i j : ℕ) :
    (m.take i).taken j = if j = i then m.taken j ++ [m.cons.front] else m.taken j := by
  unfold Machine.take Machine.taken
  rw [List.filter_append, List.map_append]
  by_cases hj : j = i
  · rw [if_pos hj, List.filter_cons_of_pos (by simp [hj])]
    rfl
  · rw [if_neg hj, List.filter_cons_of_neg (by simpa using Ne.symm hj)]
    simp

namespace Inv

theorem unlocked (h : Inv m) (hl : m.lock = some i ∨ m.lock = none) (hj : j ≠ i) :
    (m.call j).locked = false := by
  by_contra hlocked
  have hlock := h.mutex j (by simpa using hlocked)
  rcases hl with hl | hl <;> rw [hl] at hlock <;> cases hlock
  exact hj rfl

theorem move (h : Inv m) (hlock : m.lock = some i ∨ m.lock = none) {pc : Pc}
    (hcalls : m'.call = m.call) (htaken : ∀ j, j ≠ i → m'.taken j = m.taken j)
    (htext : Holds m'.cons (m'.consumed.map Prod.snd) (edited m'.typed))
    (hmutex : pc.locked = true → m'.lock = some i) (hcall : CallOk m' i pc) :
    Inv (m'.goto i pc) := by
  have hgoto : ∀ j, (m'.goto i pc).call j = if j = i then pc else m.call j := fun j => by
    rw [← hcalls]
    exact Function.update_apply ..
  refine ⟨htext, fun j hj => ?_, fun j => ?_⟩
  · rw [hgoto] at hj
    split_ifs at hj with hji
    · rw [hji]
      exact hmutex hj
    · rw [h.unlocked hlock hji] at hj
      cases hj
  · rw [hgoto, callOk_goto]
    split_ifs with hji
    · rw [hji]
      exact hcall
    · exact (h.calls j).congr (h.unlocked hlock hji) (htaken j hji)

theorem take (h : Inv m) (hne : m.cons.r ≠ m.cons.w) :
    Holds (m.take i).cons ((m.take i).consumed.map Prod.snd) (edited (m.take i).typed) := by
  have := h.text.advance hne
  simpa only [Machine.take, List.map_append, List.map_cons, List.map_nil] using this

theorem round (h : Inv m) (hpc : m.call i = .loop rd) : Inv (m.round i rd) := by
  have hlock : m.lock = some i := h.mutex i (by rw [hpc]; rfl)
  obtain ⟨hprog, hline⟩ : Progress rd (m.taken i) ∧ NL ∉ m.taken i := by
    have := h.calls i
    rwa [hpc] at this
  have hnl : NL ∉ (m.taken i).dropLast := fun hmem => hline (List.mem_of_mem_dropLast hmem)
  have hret := hprog.ret
  unfold Machine.round
  by_cases hn : 0 < rd.n
  swap
  · rw [if_neg hn]
    refine h.move (.inl hlock) rfl (fun _ _ => rfl) h.text (fun _ => hlock)
      ⟨_, hprog.result hnl (.inl rfl), .inr ⟨hret, .inl ?_⟩⟩
    have := hprog.n
    have := hprog.length
    rcases max_cases rd.args.n 0 with hm | hm <;> omega
  rw [if_pos hn]
  by_cases hempty : m.cons.r = m.cons.w
  · rw [if_pos hempty]
    split_ifs with hk
    · exact h.move (.inl hlock) rfl (fun _ _ => rfl) h.text (fun _ => hlock)
        ⟨_, hprog.result hnl (.inr rfl), .inl ⟨rfl, hk⟩⟩
    · exact h.move (.inl hlock) rfl (fun _ _ => rfl) h.text nofun ⟨hprog, hline⟩
  rw [if_neg hempty]
  have hother : ∀ j, j ≠ i → (m.take i).taken j = m.taken j := fun j hj => by
    rw [taken_take, if_neg hj]
  have htaken : (m.take i).taken i = m.taken i ++ [m.cons.front] := by rw [taken_take, if_pos rfl]
  by_cases heof : m.cons.front = ctrl 'D'
  · rw [if_pos heof]
    split_ifs with ht
    · rw [h.text.putBack]
      refine h.move (.inl hlock) rfl (fun _ _ => rfl) h.text (fun _ => hlock)
        ⟨_, hprog.result hnl (.inl rfl), .inr ⟨hret, .inr (.inr (.inr ⟨?_, ?_⟩))⟩⟩
      · exact (hprog.lt_target hn).1 ht
      · rw [← heof]
        exact h.text.head_queue hempty
    · have hnil : m.taken i = [] := not_not.1 fun hne => ht ((hprog.lt_target hn).2 hne)
      rw [hnil] at hprog hret
      rw [hnil, List.nil_append, heof] at htaken
      refine h.move (.inl hlock) rfl hother (h.take hempty) (fun _ => hlock)
        ⟨[], ⟨.inr ⟨rfl, htaken⟩, hprog.delivered, hprog.length, List.not_mem_nil, hprog.eof,
          .inl hret⟩, .inr ⟨hret, .inr (.inr (.inl ⟨rfl, htaken⟩))⟩⟩
  · rw [if_neg heof]
    obtain ⟨rd', hput, hprog'⟩ := hprog.put hn heof
    rw [hput]
    dsimp only
    by_cases hnewline : m.cons.front = NL
    · rw [if_pos hnewline]
      refine h.move (.inl hlock) rfl hother (h.take hempty) (fun _ => hlock) ?_
      rw [CallOk, htaken]
      refine ⟨_, hprog'.result ?_ (.inl rfl), .inr ⟨hprog'.ret, .inr (.inl ?_)⟩⟩
      · rwa [List.dropLast_concat]
      · rw [List.getLast?_concat, hnewline]
    · rw [if_neg hnewline]
      refine h.move (.inl hlock) rfl hother (h.take hempty) (fun _ => hlock) ?_
      rw [CallOk, htaken]
      refine ⟨hprog', ?_⟩
      rw [List.mem_append, List.mem_singleton]
      exact not_or.2 ⟨hline, Ne.symm hnewline⟩

theorem go (h : Inv m) (hgo : m.go i (m.call i) = some m') : Inv m' := by
  have hcall := h.calls i
  cases hpc : m.call i with
  | idle | asleep | returned =>
    rw [hpc] at hgo
    cases hgo
  | acquire rd =>
    rw [hpc] at hgo hcall
    simp only [Machine.go] at hgo
    split_ifs at hgo with hlock
    cases hgo
    show Inv (Machine.goto { m with lock := some i } i _)
    exact h.move (.inr hlock) rfl (fun _ _ => rfl) h.text (fun _ => rfl) hcall
  | loop rd =>
    rw [hpc] at hgo
    cases hgo
    exact h.round hpc
  | leaving rd v =>
    have hlock := h.mutex i (by rw [hpc]; rfl)
    rw [hpc] at hgo hcall
    cases hgo
    obtain ⟨got, hres, -⟩ := hcall
    exact h.move (.inl hlock) rfl (fun _ _ => rfl) h.text nofun ⟨got, hres⟩

/-- A call moves on without the lock, or stays where it is. -/
theorem outside (h : Inv m) (hlocked : pc.locked = true → (m.call i).locked = true)
    (hcall : CallOk m i pc) : Inv (m.goto i pc) := by
  have hgoto : ∀ j, (m.goto i pc).call j = if j = i then pc else m.call j := fun j =>
    Function.update_apply ..
  refine ⟨h.text, fun j hj => ?_, fun j => ?_⟩
  · rw [hgoto] at hj
    split_ifs at hj with hji
    · rw [hji]
      exact h.mutex i (hlocked hj)
    · exact h.mutex j hj
  · rw [hgoto, callOk_goto]
    split_ifs with hji
    · rw [hji]
      exact hcall
    · exact h.calls j

theorem typed (h : Inv m) (hlock : m.lock = none) (c : UInt8) {call : ℕ → Pc}
    (hcall : call = (fun i => (m.call i).wake) ∨ call = m.call) :
    Inv { m with
      cons := (m.cons.consoleintr c).1
      call := call
      typed := m.typed ++ [(c, INPUT_BUF - count (2 ^ 32) m.cons.r m.cons.e)] } := by
  have hun : ∀ i, (m.call i).locked = false := fun i => by
    by_contra hl
    have := h.mutex i (by simpa using hl)
    rw [hlock] at this
    cases this
  have hun' : ∀ i, (call i).locked = false := fun i => by
    obtain rfl | rfl := hcall
    · rw [locked_wake, hun]
    · exact hun i
  refine ⟨?_, fun i hi => ?_, fun i => ?_⟩
  · rw [edited, List.foldl_concat]
    exact h.text.consoleintr c
  · rw [hun'] at hi
    cases hi
  · refine CallOk.congr (m := m) ?_ (hun' i) rfl
    obtain rfl | rfl := hcall
    · exact (h.calls i).wake
    · exact h.calls i

theorem step (h : Inv m) {e : Choice} (hok : e.Ok) (hstep : step m e = some m') : Inv m' := by
  cases e with
  | typed c =>
    simp only [Console.step] at hstep
    split_ifs at hstep with hlock hwoken
    · cases hstep
      exact h.typed hlock c (.inl rfl)
    · cases hstep
      exact h.typed hlock c (.inr rfl)
  | read i args =>
    simp only [Console.step] at hstep
    have hcall := h.calls i
    cases hpc : m.call i with
    | idle =>
      rw [hpc] at hstep hcall
      cases hstep
      have hnil : m.taken i = [] := hcall
      refine h.outside nofun ?_
      rw [CallOk, hnil]
      exact ⟨.start hok, List.not_mem_nil⟩
    | _ =>
      rw [hpc] at hstep
      cases hstep
  | kill i =>
    cases hstep
    have hmoved : Inv (m.goto i (m.call i).wake) :=
      h.outside (by rw [locked_wake]; exact id) (h.calls i).wake
    refine ⟨hmoved.text, hmoved.mutex, fun j => (hmoved.calls j).kill fun hk => ?_⟩
    rw [Function.update_apply]
    split_ifs
    · rfl
    · exact hk
  | go i => exact h.go hstep

theorem of_reachable (h : Reachable m) : Inv m :=
  Transition.Reachable.invariant (fun _ hm => hm ▸ boot_inv) (fun _ _ _ h hs => h.step hs.1 hs.2) h

end Inv

/-- The line discipline. In every run the indices are in order, the bytes that readers took and
those that wait for them are the committed text, and a read stores at most one line and ends
at an end of file. -/
theorem line_discipline (h : Reachable m) :
    (count (2 ^ 32) m.cons.r m.cons.w + count (2 ^ 32) m.cons.w m.cons.e =
        count (2 ^ 32) m.cons.r m.cons.e ∧
      count (2 ^ 32) m.cons.r m.cons.e ≤ INPUT_BUF ∧
      (count (2 ^ 32) m.cons.r m.cons.e = INPUT_BUF → m.cons.w = m.cons.e)) ∧
    (m.consumed.map Prod.snd ++ m.cons.queue = (edited m.typed).committed ∧
      m.cons.line = (edited m.typed).line) ∧
    (∀ i rd v, m.call i = .leaving rd v → ∃ got, Result rd v (m.taken i) got ∧
      (v = -1 ∧ m.killed i = true ∨ v = got.length ∧ Ends rd m.cons (m.taken i) got)) ∧
    ∀ i rd v, m.call i = .returned rd v → ∃ got, Result rd v (m.taken i) got := by
  have hinv := Inv.of_reachable h
  have htext := hinv.text
  have hroom := htext.ring.room
  have hle := htext.history.length_le
  rw [List.length_append] at hroom
  refine ⟨⟨?_, ?_, fun hfull => ?_⟩, ⟨htext.consumed_queue, htext.line_eq⟩, fun i rd v hpc => ?_,
    fun i rd v hpc => ?_⟩
  · rw [htext.count_queue, htext.count_line, htext.count_all]
    omega
  · rw [htext.count_all]
    omega
  · refine (htext.e_eq_w_iff.2 (htext.full ?_)).symm
    rw [htext.count_all] at hfull
    rw [List.length_append]
    have : INPUT_BUF = 128 := rfl
    omega
  · have := hinv.calls i
    rwa [hpc] at this
  · have := hinv.calls i
    rwa [hpc] at this

theorem Reachable.run {es : List Choice} (hes : ∀ e ∈ es, e.Ok) (h : Reachable m)
    (hrun : Transition.exec step m es = some m') : Reachable m' := by
  induction es generalizing m with
  | nil =>
    cases hrun
    exact h
  | cons e es ih =>
    obtain ⟨m₁, hstep, hrest⟩ := Option.bind_eq_some_iff.1 hrun
    exact ih (fun e he => hes e (List.mem_cons_of_mem _ he))
      (.next m m₁ e h ⟨hes e List.mem_cons_self, hstep⟩) hrest

/-- A line that is ended by `C('D')`, and a read of five bytes that comes to it. -/
def eofRun : List Choice :=
  [.typed 97, .typed (ctrl 'D'), .read 0 ⟨.empty, .kernel [], 5⟩, .go 0, .go 0, .go 0]

theorem eofRun_ok : ∀ e ∈ eofRun, e.Ok := by
  have hargs : Args.Ok ⟨.empty, .kernel [], 5⟩ := ⟨by decide, by decide, nofun, nofun⟩
  intro e he
  simp only [eofRun, List.mem_cons, List.not_mem_nil, or_false] at he
  rcases he with rfl | rfl | rfl | rfl | rfl | rfl
  · trivial
  · trivial
  · exact hargs
  all_goals trivial

/-- The read has taken the one byte before the end of file, which is the next byte to be
read. -/
theorem line_discipline_eof : ∃ m, Reachable m ∧ m.typed = [(97, 128), (ctrl 'D', 127)] ∧
    m.taken 0 = [97] ∧ m.consumed.map Prod.snd ++ m.cons.queue = [97, ctrl 'D'] := by
  obtain ⟨m, hm⟩ : ∃ m, Transition.exec step boot eofRun = some m :=
    Option.isSome_iff_exists.1 (by decide +kernel)
  have htyped : (Transition.exec step boot eofRun).map Machine.typed =
      some [(97, 128), (ctrl 'D', 127)] := by decide +kernel
  have htaken : (Transition.exec step boot eofRun).map (·.taken 0) = some [97] := by decide +kernel
  rw [hm, Option.map_some, Option.some.injEq] at htyped htaken
  have hr : Reachable m := Reachable.run eofRun_ok (.start _ rfl) hm
  refine ⟨m, hr, htyped, htaken, ?_⟩
  rw [(line_discipline hr).2.1.1, htyped]
  decide +kernel

end Console
end Xv6
