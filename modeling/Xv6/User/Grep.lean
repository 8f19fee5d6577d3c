import Xv6.User.Memmove

/-!
`grep.c`. A `char *` that is only read, the pattern or the text of `match`, is the list of the
bytes from there on, and its string ends at the first NUL or with the list. The buffer is in memory.
-/

namespace Xv6
namespace Grep

def STAR : UInt8 := 42
def DOLLAR : UInt8 := 36
def DOT : UInt8 := 46
def CARET : UInt8 := 94
def NL : UInt8 := 10

def ch (s : List UInt8) (i : ℕ) : UInt8 := s.getD i 0

theorem length_pos_of_ch {s : List UInt8} (h : ch s 0 ≠ 0) : 0 < s.length := by
  cases s with
  | nil => exact absurd rfl h
  | cons c s => exact Nat.zero_lt_succ _

mutual

/-- `matchhere`: search for `re` at the beginning of `text`. -/
def matchhere (re text : List UInt8) : Bool :=
  if ch re 0 = 0 then true
  else if ch re 1 = STAR then matchstar (ch re 0) (re.drop 2) text
  else if ch re 0 = DOLLAR ∧ ch re 1 = 0 then ch text 0 = 0
  else if ch text 0 ≠ 0 ∧ (ch re 0 = DOT ∨ ch re 0 = ch text 0) then
    matchhere (re.drop 1) (text.drop 1)
  else false
termination_by (re.length, text.length, 0)
decreasing_by
  all_goals
    have : 0 < re.length := length_pos_of_ch (by assumption)
    refine Prod.Lex.left _ _ ?_
    rw [List.length_drop]
    omega

/-- `matchstar`: search for `c*re` at the beginning of `text`. -/
def matchstar (c : UInt8) (re text : List UInt8) : Bool :=
  if matchhere re text then true
  else if ch text 0 ≠ 0 ∧ (ch text 0 = c ∨ c = DOT) then matchstar c re (text.drop 1)
  else false
termination_by (re.length, text.length, 1)
decreasing_by
  · exact Prod.Lex.right _ (Prod.Lex.right _ Nat.zero_lt_one)
  · have : 0 < text.length := length_pos_of_ch (And.left (by assumption))
    refine Prod.Lex.right _ (Prod.Lex.left _ _ ?_)
    rw [List.length_drop]
    omega

end

/-- `do { ... } while(*text++ != '\0')` of `match`. -/
def matchFrom (re text : List UInt8) : Bool :=
  if matchhere re text then true
  else if ch text 0 ≠ 0 then matchFrom re (text.drop 1)
  else false
termination_by text.length
decreasing_by
  have : 0 < text.length := length_pos_of_ch (by assumption)
  rw [List.length_drop]
  omega

def matchText (re text : List UInt8) : Bool :=
  if ch re 0 = CARET then matchhere (re.drop 1) text else matchFrom re text

/-! ### The loop over the lines -/

def BUFSIZE : ℕ := 1024

def bytesAt (mem : ByteMemory) (p n : ℕ) : List UInt8 := (List.range n).map fun i => mem (p + i)

/-- `strchr(s, c)` for a string that ends within the next `n` bytes. -/
def strchr (mem : ByteMemory) (c : UInt8) : ℕ → ℕ → Option ℕ
  | 0, _ => none
  | n + 1, s =>
      if mem s = 0 then none
      else if mem s = c then some s
      else strchr mem c n (s + 1)

theorem le_of_strchr {mem : ByteMemory} {c : UInt8} {n s q : ℕ} (h : strchr mem c n s = some q) :
    s ≤ q ∧ q < s + n := by
  induction n generalizing s with
  | zero => cases h
  | succ n ih =>
    rw [strchr] at h
    split_ifs at h
    · cases h
      omega
    · have := ih h
      omega

/-- What `grep` has done so far: `p`, the memory, and the bytes of each `write(1, ...)`. -/
structure Progress where
  p : ℕ
  mem : ByteMemory
  out : List (List UInt8)

/-- `while((q = strchr(p, '\n')) != 0)`, with the bytes of the buffer from `p` on. -/
def grepLines (pattern : List UInt8) (n : ℕ) (g : Progress) : Progress :=
  match h : strchr g.mem NL n g.p with
  | none => g
  | some q =>
      let mem := Function.update g.mem q 0
      if matchText pattern (bytesAt mem g.p n) then
        let mem := Function.update mem q NL
        grepLines pattern (n - (q + 1 - g.p)) ⟨q + 1, mem, g.out ++ [bytesAt mem g.p (q + 1 - g.p)]⟩
      else grepLines pattern (n - (q + 1 - g.p)) ⟨q + 1, mem, g.out⟩
termination_by n
decreasing_by
  all_goals
    have := le_of_strchr h
    omega

/-- `read(fd, ..., n)`: the next chunk, cut if it has more than `n` bytes. Without a chunk the file
is at its end. -/
def read (n : ℕ) : List (List UInt8) → List UInt8 × List (List UInt8)
  | [] => ([], [])
  | c :: cs => if n < c.length then (c.take n, c.drop n :: cs) else (c, cs)

theorem length_read (n : ℕ) (chunks : List (List UInt8)) :
    (read n chunks).2.flatten.length + (read n chunks).1.length = chunks.flatten.length := by
  cases chunks with
  | nil => rfl
  | cons c cs =>
    rw [read]
    split_ifs
    · simp only [List.flatten_cons, List.length_append, List.length_drop, List.length_take]
      omega
    · rw [List.flatten_cons, List.length_append, Nat.add_comm]

/-- The bytes are stored from `a` on. -/
def store (mem : ByteMemory) (a : ℕ) (bytes : List UInt8) : ByteMemory :=
  fun b => if a ≤ b ∧ b < a + bytes.length then bytes.getD (b - a) 0 else mem b

structure State where
  m : ℕ
  mem : ByteMemory
  out : List (List UInt8)

/-- The body of the loop, after a `read` that returned the bytes `c`. -/
def grepRound (pattern : List UInt8) (buf : ℕ) (g : State) (c : List UInt8) : State :=
  let m := g.m + c.length
  let mem := Function.update (store g.mem (buf + g.m) c) (buf + m) 0
  let r := grepLines pattern BUFSIZE ⟨buf, mem, g.out⟩
  if 0 < m then
    let m := m - (r.p - buf)
    ⟨m, (Memmove.ulibMemmove buf r.p m r.mem).2, r.out⟩
  else ⟨m, r.mem, r.out⟩

/-- `while((n = read(fd, buf+m, sizeof(buf)-m-1)) > 0)`, with what the calls of `read` return. -/
def grepLoop (pattern : List UInt8) (buf : ℕ) (g : State) (chunks : List (List UInt8)) : State :=
  if 0 < (read (BUFSIZE - g.m - 1) chunks).1.length then
    grepLoop pattern buf (grepRound pattern buf g (read (BUFSIZE - g.m - 1) chunks).1)
      (read (BUFSIZE - g.m - 1) chunks).2
  else g
termination_by chunks.flatten.length
decreasing_by
  have := length_read (BUFSIZE - g.m - 1) chunks
  omega

def grep (pattern : List UInt8) (buf : ℕ) (mem : ByteMemory) (chunks : List (List UInt8)) :
    List (List UInt8) :=
  (grepLoop pattern buf ⟨0, mem, []⟩ chunks).out

end Grep
end Xv6
