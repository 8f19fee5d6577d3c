import Xv6.Lib.Monitor
import Xv6.Lib.Ring

/-!
The transmit side of `uart.c`. Any number of processes put characters into `uart_tx_buf` under
`uart_tx_lock`, and interrupts send them on; the device takes them one by one. It keeps its
interrupt up from when it has nothing left to send until it is given the next character.
-/

namespace Xv6
namespace Uart
open Monitor RingBuffer

def UART_TX_BUF_SIZE : ℕ := 32

structure State where
  buf : ℕ → UInt8
  w : ℕ
  r : ℕ
  panicked : Bool
  /-- The number of characters in the device, and its interrupt. -/
  busy : ℕ
  irq : Bool
  /-- All characters put so far, how many of them were taken out of the buffer, and those that
  were sent. -/
  stored : List UInt8
  taken : ℕ
  sent : List UInt8

/-- The next line of `uartputc` or `uartstart`, with `uart_tx_lock` held. -/
inductive Pc
  | putPanicked (c : UInt8) | putFull (c : UInt8) | putStore (c : UInt8) | putW (c : UInt8)
  | startEmpty | startIdle | startTake | startWakeup (c : UInt8) | startSend (c : UInt8)
  | release
  deriving DecidableEq

def code : Pc → State → Action State Pc Unit
  | .putPanicked c, s => .move s (if s.panicked then .putPanicked c else .putFull c)
  | .putFull c, s =>
      if s.w = (s.r + UART_TX_BUF_SIZE) % 2 ^ 64 then .wait (.putFull c) else .move s (.putStore c)
  | .putStore c, s =>
      .move { s with buf := Function.update s.buf (s.w % UART_TX_BUF_SIZE) c } (.putW c)
  | .putW c, s => .move { s with w := (s.w + 1) % 2 ^ 64, stored := s.stored ++ [c] } .startEmpty
  | .startEmpty, s => .move s (if s.r = s.w then .release else .startIdle)
  | .startIdle, s => .move s (if s.busy = 0 then .startTake else .release)
  | .startTake, s =>
      .move { s with r := (s.r + 1) % 2 ^ 64, taken := s.taken + 1 }
        (.startWakeup (s.buf (s.r % UART_TX_BUF_SIZE)))
  | .startWakeup c, _ => .notify (.startSend c)
  | .startSend c, s =>
      .move { s with busy := s.busy + 1, irq := false, sent := s.sent ++ [c] } .startEmpty
  | .release, _ => .leave ()

/-- What happens outside the lock: the device sends a character, `uartputc_sync` gives it one,
the kernel panics. -/
inductive Event (s : State) : State → Prop
  | send (h : 0 < s.busy) : Event s { s with busy := s.busy - 1, irq := s.irq || s.busy = 1 }
  | sync : Event s { s with busy := s.busy + 1, irq := false }
  | panic : Event s { s with panicked := true }

/-- Processes call `uartputc`; `uartintr` serves the interrupt of the device, and those for
characters that have come in, which can be at any time. -/
def system : System State Pc Unit where
  code _ := code
  entry _ _ s k s' := s' = s ∧ ((∃ c, k = .putPanicked c) ∨ k = .startEmpty)
  free _ _ s _ s' := Event s s'

def start (buf : ℕ → UInt8) : State := ⟨buf, 0, 0, false, 0, false, [], 0, []⟩

def Reachable (buf : ℕ → UInt8) : Machine State Pc Unit → Prop :=
  Transition.Reachable (· = ⟨start buf, none, fun _ => .out ()⟩) (Step system)

def Buffers (s : State) : Prop :=
  Ring (2 ^ 64) UART_TX_BUF_SIZE s.buf s.r s.w s.taken s.stored

def Alive (s : State) : Prop := 0 < s.busy ∨ s.irq = true

def Rest (s : State) : Prop :=
  Buffers s ∧ s.sent = s.stored.take s.taken ∧ (s.taken < s.stored.length → Alive s)

def Knows : State → Place Pc Unit → Prop
  | _, .out _ => True
  | _, .ready k => (∃ c, k = .putPanicked c ∨ k = .putFull c) ∨ k = .startEmpty
  | _, .asleep k => ∃ c, k = .putFull c
  | s, .inside (.putStore _) => Rest s ∧ s.stored.length < s.taken + UART_TX_BUF_SIZE
  | s, .inside (.putW c) => Rest s ∧ s.stored.length < s.taken + UART_TX_BUF_SIZE ∧
      s.buf (s.w % UART_TX_BUF_SIZE) = c
  | s, .inside .startEmpty => Buffers s ∧ s.sent = s.stored.take s.taken
  | s, .inside .startIdle | s, .inside .startTake =>
      Buffers s ∧ s.sent = s.stored.take s.taken ∧ s.taken < s.stored.length
  | s, .inside (.startWakeup c) | s, .inside (.startSend c) =>
      Buffers s ∧ s.sent ++ [c] = s.stored.take s.taken
  | s, .inside _ => Rest s

def notes : Notes State Pc Unit where
  rest := Rest
  knows _ := Knows
  reason s := s.stored.length = s.taken + UART_TX_BUF_SIZE
  notifies k := ∃ c, k = .startWakeup c

section
variable {s s' : State} {m : Machine State Pc Unit} {buf : ℕ → UInt8}

/-- The code touches nothing that a thread outside goes by. -/
theorem notes_stableOut (p : ℕ) (s s' : State) : notes.StableOut p s s' := by
  intro q _ x hx hq
  cases x with
  | inside k => exact absurd rfl (hx k)
  | _ => exact hq

theorem Event.stable (h : Event s s') (p : ℕ) : notes.Stable p s s' := by
  have halive : Alive s → Alive s' := by
    intro ha
    cases h <;> simp only [Alive, Bool.or_eq_true, decide_eq_true_eq] at ha ⊢ <;> omega
  have hrest : Rest s → Rest s' := by
    rintro ⟨hb, hsent, hlive⟩
    cases h <;> exact ⟨hb, hsent, fun hlt => halive (hlive hlt)⟩
  refine ⟨hrest, fun q _ x hq => ?_, fun hr => by cases h <;> exact hr⟩
  cases x with
  | inside k =>
    cases k with
    | putStore c => exact ⟨hrest hq.1, by cases h <;> exact hq.2⟩
    | putW c => exact ⟨hrest hq.1, by cases h <;> exact hq.2⟩
    | putPanicked c => exact hrest hq
    | putFull c => exact hrest hq
    | release => exact hrest hq
    | _ => cases h <;> exact hq
  | _ => exact hq

theorem notes_act (p : ℕ) (k : Pc) (s : State) (h : Knows s (.inside k)) :
    notes.Keeps p k s (code k s) := by
  have hM : UART_TX_BUF_SIZE < 2 ^ 64 := by decide
  have hd : UART_TX_BUF_SIZE ∣ 2 ^ 64 := by decide
  have hst := notes_stableOut p s
  cases k with
  | putPanicked c =>
    refine ⟨?_, hst _, .inl ∘ ?_⟩
    · show Knows s (.inside (if s.panicked then .putPanicked c else .putFull c))
      split_ifs <;> exact h
    · simp [notes]
  | putFull c =>
    by_cases hf : s.w = (s.r + UART_TX_BUF_SIZE) % 2 ^ 64
    · simp only [code, if_pos hf]
      exact ⟨⟨c, rfl⟩, h, (h.1.full_iff hM).1 hf⟩
    · have hroom := h.1.room
      have hne := mt (h.1.full_iff hM).2 hf
      simp only [code, if_neg hf]
      exact ⟨⟨h, by omega⟩, hst _, by simp [notes]⟩
  | putStore c =>
    obtain ⟨⟨hb, hsent, hlive⟩, hroom⟩ := h
    exact ⟨⟨⟨hb.poke hd hroom c, hsent, hlive⟩, hroom, Function.update_self ..⟩, hst _,
      by simp [notes]⟩
  | putW c =>
    obtain ⟨⟨hb, hsent, -⟩, hroom, hc⟩ := h
    refine ⟨⟨hb.commit hd hroom hc, ?_⟩, hst _, ?_⟩
    · show s.sent = (s.stored ++ [c]).take s.taken
      rw [List.take_append_of_le_length hb.taken, hsent]
    · simp only [notes, reduceCtorEq, exists_false, or_false]
      omega
  | startEmpty =>
    obtain ⟨hb, hsent⟩ := h
    refine ⟨?_, hst _, .inl ∘ ?_⟩
    · show Knows s (.inside (if s.r = s.w then .release else .startIdle))
      split_ifs with he
      · exact ⟨hb, hsent, fun hlt => absurd ((hb.eq_iff hM).1 he) hlt.ne⟩
      · exact ⟨hb, hsent, hb.lt_of_ne hM he⟩
    · simp [notes]
  | startIdle =>
    obtain ⟨hb, hsent, hlt⟩ := h
    refine ⟨?_, hst _, .inl ∘ ?_⟩
    · show Knows s (.inside (if s.busy = 0 then .startTake else .release))
      split_ifs with hbusy
      · exact ⟨hb, hsent, hlt⟩
      · exact ⟨hb, hsent, fun _ => .inl (Nat.pos_of_ne_zero hbusy)⟩
    · simp [notes]
  | startTake =>
    obtain ⟨hb, hsent, hlt⟩ := h
    refine ⟨⟨hb.pop hlt, ?_⟩, hst _, fun _ => .inr ⟨_, rfl⟩⟩
    show s.sent ++ [s.buf (s.r % UART_TX_BUF_SIZE)] = s.stored.take (s.taken + 1)
    rw [List.take_add_one, ← hsent, hb.next hd hlt]
    rfl
  | startWakeup c => exact h
  | startSend c => exact ⟨h, hst _, by simp [notes]⟩
  | release => exact ⟨trivial, h, by simp [notes]⟩

theorem notes_proves : notes.Proves system where
  act := notes_act
  call p o s k s' _ he := by
    obtain ⟨rfl, ⟨c, rfl⟩ | rfl⟩ := he
    · exact ⟨.inl ⟨c, .inl rfl⟩, id, fun _ _ _ => id, id⟩
    · exact ⟨.inr rfl, id, fun _ _ _ => id, id⟩
  free p o s o' s' _ hf := ⟨trivial, hf.stable p⟩
  acquire p s k hr hk := by
    obtain ⟨c, rfl | rfl⟩ | rfl := hk
    · exact hr
    · exact hr
    · exact ⟨hr.1, hr.2.1⟩
  wake p s k hk := by
    obtain ⟨c, rfl⟩ := hk
    exact .inl ⟨c, .inr rfl⟩

/-- Console output over whole runs. While nobody has the lock, the characters put so far are
those sent, in the order they were put, and then those in the buffer, and if there are any of
these the device is busy or asks for more; a process sleeps only while the buffer is full, or
until the thread inside wakes it. -/
theorem uart_fifo (h : Reachable buf m) :
    (m.lock = none → m.shared.stored = m.shared.sent ++
        contents (2 ^ 64) UART_TX_BUF_SIZE m.shared.buf m.shared.r m.shared.w ∧
      (m.shared.sent ≠ m.shared.stored → 0 < m.shared.busy ∨ m.shared.irq = true)) ∧
    ∀ p k, m.thread p = .asleep k →
      m.shared.stored.length = m.shared.taken + UART_TX_BUF_SIZE ∨
        ∃ q c, m.thread q = .inside (.startWakeup c) := by
  have hstart : Rest (start buf) := ⟨Ring.empty _ _ buf, rfl, by simp [start]⟩
  have hinv := notes_proves.holds hstart (fun _ => trivial) h
  refine ⟨fun hl => ?_, fun p k hp => (hinv.asleep p k hp).imp_right ?_⟩
  · obtain ⟨hb, hsent, hlive⟩ := hinv.rest hl
    refine ⟨?_, fun hne => hlive (lt_of_le_of_ne hb.taken fun he => hne ?_)⟩
    · rw [hb.contents_eq (by decide) (by decide), hsent, List.take_append_drop]
    · rw [hsent, he, List.take_length]
  · rintro ⟨q, j, hj, c, rfl⟩
    exact ⟨q, c, hj⟩

/-- Process `0` puts `33` characters, and process `1` one more. -/
def fill : List (ℕ × Option Pc) :=
  (0, some (.putPanicked 65)) :: List.replicate 12 (0, none) ++
    (List.range 32).flatMap (fun _ => (0, some (.putPanicked 66)) :: List.replicate 8 (0, none)) ++
    (1, some (.putPanicked 67)) :: List.replicate 3 (1, none)

/-- The first character has been sent, the next `32` fill the buffer, and process `1` sleeps. -/
theorem uart_fifo_full : ∃ m, Reachable (fun _ => 0) m ∧ m.lock = none ∧
    m.shared.stored = 65 :: List.replicate 32 66 ∧ m.thread 1 = .asleep (.putFull 67) ∧
    m.shared.sent ++ contents (2 ^ 64) UART_TX_BUF_SIZE m.shared.buf m.shared.r m.shared.w =
      65 :: List.replicate 32 66 ∧ m.shared.sent = [65] ∧
    (m.shared.stored.length = m.shared.taken + UART_TX_BUF_SIZE ∨
      ∃ q c, m.thread q = .inside (.startWakeup c)) := by
  have hrun : (Transition.exec (Machine.does system fun _ k => k = .putPanicked 65 ∨
      k = .putPanicked 66 ∨ k = .putPanicked 67) ⟨start fun _ => 0, none, fun _ => .out ()⟩ fill).map
        (fun m => (m.lock, m.shared.stored, m.thread 1, m.shared.sent)) =
      some (none, 65 :: List.replicate 32 66, .asleep (.putFull 67), [65]) := by
    decide +kernel
  obtain ⟨m, hm, heq⟩ := Option.map_eq_some_iff.1 hrun
  simp only [Prod.mk.injEq] at heq
  obtain ⟨hlock, hstored, hasleep, hsent⟩ := heq
  have h : Reachable (fun _ => 0) m := by
    refine reachable_of_does (S := system) (fun p o s k hk => ?_) (.start _ rfl) hm
    obtain rfl | rfl | rfl := of_decide_eq_true hk <;> exact ⟨rfl, .inl ⟨_, rfl⟩⟩
  refine ⟨m, h, hlock, hstored, hasleep, ?_, hsent, (uart_fifo h).2 1 _ hasleep⟩
  rw [← ((uart_fifo h).1 hlock).1, hstored]

end

end Uart
end Xv6
