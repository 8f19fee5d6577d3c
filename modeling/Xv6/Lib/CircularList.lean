import Mathlib.Tactic

/-!
Circular lists with a head. `Circular next head l` says that `next` leads from the head through
`l` and back; the walk along `next` finds a node from wherever it starts.
-/

namespace CircularList
variable {α : Type} {next next' : α → α} {head p q f t : α} {l us vs ws ds xs ys : List α}

/-- `next` leads from each of the nodes to the one after it. -/
abbrev Linked (next : α → α) (l : List α) : Prop := l.IsChain fun a b => next a = b

def Circular (next : α → α) (head : α) (l : List α) : Prop := Linked next (head :: (l ++ [head]))

theorem linked_pair : Linked next [p, q] ↔ next p = q := List.isChain_pair

theorem linked_cons_cons : Linked next (p :: q :: l) ↔ next p = q ∧ Linked next (q :: l) :=
  List.isChain_cons_cons

theorem Linked.congr (h : Linked next (l ++ [t])) (hn : ∀ a ∈ l, next' a = next a) :
    Linked next' (l ++ [t]) := by
  induction l with
  | nil => exact List.isChain_singleton t
  | cons a l ih =>
    have ha := hn a List.mem_cons_self
    cases l with
    | nil =>
      rw [List.singleton_append, linked_pair] at *
      rw [ha, h]
    | cons b l =>
      rw [List.cons_append, List.cons_append, linked_cons_cons] at *
      exact ⟨ha.trans h.1, ih h.2 fun c hc => hn c (List.mem_cons_of_mem _ hc)⟩

theorem linked_append_cons : Linked next (xs ++ p :: ys) ↔
    Linked next (xs ++ [p]) ∧ Linked next (p :: ys) := by
  constructor
  · intro h
    refine ⟨?_, h.right_of_append⟩
    have : xs ++ p :: ys = (xs ++ [p]) ++ ys := by simp
    rw [this] at h
    exact h.left_of_append
  · rintro ⟨h₁, h₂⟩
    induction xs with
    | nil => exact h₂
    | cons x xs ih =>
      cases xs with
      | nil =>
        rw [List.singleton_append, linked_pair] at h₁
        exact linked_cons_cons.mpr ⟨h₁, h₂⟩
      | cons y xs =>
        rw [List.cons_append, List.cons_append, linked_cons_cons] at h₁
        exact linked_cons_cons.mpr ⟨h₁.1, ih h₁.2⟩

theorem Circular.rotate (h : Circular next head l) (hf : head :: l = xs ++ f :: ys) :
    Linked next (f :: (ys ++ (xs ++ [f]))) := by
  unfold Circular at h
  rw [← List.cons_append, hf, List.append_assoc, List.cons_append, linked_append_cons] at h
  obtain ⟨hx, hy⟩ := h
  cases xs with
  | nil =>
    obtain ⟨rfl, rfl⟩ := List.cons.inj hf
    exact hy
  | cons x xs =>
    obtain ⟨rfl, hl⟩ := List.cons.inj hf
    rw [← List.cons_append] at hy
    exact linked_append_cons.mpr ⟨hy, hx⟩

/-- A node leads to the end, or to a later node of an ordered list. -/
theorem Linked.next_mem {r : α → α → Prop} {a : α} (h : Linked next (l ++ [t]))
    (hr : l.Pairwise r) (ha : a ∈ l) : next a = t ∨ next a ∈ l ∧ r a (next a) := by
  obtain ⟨xs, ys, rfl⟩ := List.append_of_mem ha
  rw [List.append_assoc, List.cons_append] at h
  have hstep := (linked_append_cons.mp h).2
  have hrest := (List.pairwise_append.mp hr).2.1
  cases ys with
  | nil => exact .inl (linked_pair.mp hstep)
  | cons b ys =>
    rw [List.cons_append, linked_cons_cons] at hstep
    right
    rw [hstep.1]
    exact ⟨by simp, (List.pairwise_cons.mp hrest).1 b List.mem_cons_self⟩

theorem Linked.next_head (h : Linked next (xs ++ p :: (ys ++ [t]))) : next p = ys.headD t := by
  have hstep := (linked_append_cons.mp h).2
  cases ys with
  | nil => exact linked_pair.mp hstep
  | cons b ys =>
    rw [List.cons_append, linked_cons_cons] at hstep
    exact hstep.1

theorem Linked.replace (h : Linked next (xs ++ p :: (ds ++ (vs ++ [t])))) (ws : List α)
    (hxs : ∀ a ∈ xs, next' a = next a) (hvs : ∀ a ∈ vs, next' a = next a)
    (hws : Linked next' (p :: (ws ++ [vs.headD t]))) :
    Linked next' (xs ++ p :: (ws ++ (vs ++ [t]))) := by
  obtain ⟨h₁, h₂⟩ := linked_append_cons.mp h
  refine linked_append_cons.mpr ⟨h₁.congr hxs, ?_⟩
  cases vs with
  | nil => exact hws
  | cons v vs =>
    rw [List.headD_cons] at hws
    rw [List.cons_append] at h₂ ⊢
    rw [← List.cons_append] at h₂ hws ⊢
    exact linked_append_cons.mpr ⟨hws, (linked_append_cons.mp h₂).2.congr (l := v :: vs) hvs⟩

theorem Linked.map_next (h : Linked next (l ++ [t])) : l.map next = (l ++ [t]).tail := by
  induction l with
  | nil => rfl
  | cons a l ih =>
    cases l with
    | nil => exact congrArg (fun b => [b]) (linked_pair.mp h)
    | cons b l =>
      obtain ⟨hab, hl⟩ := linked_cons_cons.mp h
      rw [List.map_cons, ih hl, hab]
      rfl

theorem Circular.next_inj (h : Circular next head l) (hl : (head :: l).Nodup)
    (hp : p ∈ head :: l) (hq : q ∈ head :: l) (hpq : next p = next q) : p = q := by
  have hmap : (head :: l).map next = l ++ [head] := Linked.map_next h
  have hnodup : ((head :: l).map next).Nodup := by
    rw [hmap]
    exact (List.perm_append_singleton head l).nodup_iff.mpr hl
  exact List.inj_on_of_nodup_map hnodup hp hq hpq

/-- Follow `next` to the first node that satisfies `stop`. -/
def walk (next : α → α) (stop : α → Prop) [DecidablePred stop] : ℕ → α → Option α
  | 0, _ => none
  | n + 1, a => if stop a then some a else walk next stop n (next a)

theorem walk_eq_find? {stop : α → Prop} [DecidablePred stop] {n : ℕ}
    (h : Linked next (f :: xs)) (hs : ∃ a ∈ f :: xs, stop a) (hn : xs.length + 1 ≤ n) :
    walk next stop n f = (f :: xs).find? (stop ·) := by
  induction xs generalizing f n with
  | nil =>
    obtain ⟨n, rfl⟩ : ∃ k, n = k + 1 := ⟨n - 1, by omega⟩
    obtain ⟨a, ha, hsa⟩ := hs
    obtain rfl := List.mem_singleton.mp ha
    rw [walk, if_pos hsa, List.find?_cons_of_pos (by simpa using hsa)]
  | cons x xs ih =>
    simp only [List.length_cons] at hn
    obtain ⟨n, rfl⟩ : ∃ k, n = k + 1 := ⟨n - 1, by omega⟩
    obtain ⟨hfx, hxs⟩ := linked_cons_cons.mp h
    by_cases hf : stop f
    · rw [walk, if_pos hf, List.find?_cons_of_pos (by simpa using hf)]
    · rw [walk, if_neg hf, List.find?_cons_of_neg (by simpa using hf), hfx]
      obtain ⟨a, ha, hsa⟩ := hs
      obtain rfl | ha := List.mem_cons.mp ha
      · exact absurd hsa hf
      · exact ih hxs ⟨a, ha, hsa⟩ (by omega)

/-- The walk finds the only node of the ring that satisfies `stop`. -/
theorem Circular.walk {stop : α → Prop} [DecidablePred stop] (h : Circular next head l)
    (hf : f ∈ head :: l) (ht : t ∈ head :: l) (hstop : ∀ a ∈ head :: l, stop a ↔ a = t) {n : ℕ}
    (hn : l.length + 1 ≤ n) : walk next stop n f = some t := by
  obtain ⟨xs, ys, hxy⟩ := List.append_of_mem hf
  have hmem : ∀ a, a ∈ f :: (ys ++ xs) ↔ a ∈ head :: l := by
    intro a
    rw [hxy]
    simp only [List.mem_cons, List.mem_append]
    tauto
  have hlen : (ys ++ xs).length = l.length := by
    have := congrArg List.length hxy
    simp only [List.length_cons, List.length_append] at this ⊢
    omega
  have hround := h.rotate hxy
  rw [← List.append_assoc, ← List.cons_append] at hround
  have hs : ∃ a ∈ f :: (ys ++ xs), stop a :=
    ⟨t, (hmem t).mpr ht, (hstop t ht).mpr rfl⟩
  rw [walk_eq_find? hround.left_of_append hs (by omega)]
  cases hfind : (f :: (ys ++ xs)).find? (stop ·) with
  | none =>
    obtain ⟨a, ha, hsa⟩ := hs
    exact absurd hsa (by simpa using List.find?_eq_none.mp hfind a ha)
  | some a =>
    have hsa : stop a := by simpa using List.find?_some hfind
    have ha := (hmem a).mp (List.mem_of_find?_eq_some hfind)
    rw [(hstop a ha).mp hsa]

end CircularList
