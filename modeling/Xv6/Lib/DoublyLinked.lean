import Xv6.Lib.CircularList

/-!
Rings with links in both directions. `Ring next prev head l` says that `next` leads from the head
through `l` and back, and `prev` the other way. A node is unlinked and put in front by writing
to the links of its neighbours.
-/

namespace DoublyLinked
open CircularList

variable {α : Type} {next prev next' prev' : α → α} {head a b p q : α} {l us vs xs ys : List α}

/-- Each of the nodes is linked with the one after it. -/
abbrev Joined (next prev : α → α) (l : List α) : Prop :=
  l.IsChain fun a b => next a = b ∧ prev b = a

def Ring (next prev : α → α) (head : α) (l : List α) : Prop := Joined next prev (head :: (l ++ [head]))

theorem joined_append_cons : Joined next prev (us ++ p :: vs) ↔
    Joined next prev (us ++ [p]) ∧ Joined next prev (p :: vs) := List.isChain_split

theorem joined_cons_cons : Joined next prev (p :: q :: l) ↔
    (next p = q ∧ prev q = p) ∧ Joined next prev (q :: l) := List.isChain_cons_cons

/-- The links between the nodes are the `next` of all but the last and the `prev` of all but the
first. -/
theorem Joined.congr (h : Joined next prev (a :: l)) (hn : ∀ x ∈ (a :: l).dropLast, next' x = next x)
    (hp : ∀ x ∈ l, prev' x = prev x) : Joined next' prev' (a :: l) := by
  induction l generalizing a with
  | nil => exact List.isChain_singleton a
  | cons b l ih =>
    obtain ⟨⟨hab, hba⟩, hl⟩ := joined_cons_cons.mp h
    have ha := hn a List.mem_cons_self
    have hb := hp b List.mem_cons_self
    refine joined_cons_cons.mpr ⟨⟨ha.trans hab, hb.trans hba⟩, ih hl ?_ ?_⟩
    · exact fun x hx => hn x (List.mem_cons_of_mem _ hx)
    · exact fun x hx => hp x (List.mem_cons_of_mem _ hx)

theorem Joined.linked (h : Joined next prev l) : Linked next l := h.imp fun _ _ hab => hab.1

theorem Ring.linked_next (h : Ring next prev head l) : Linked next (head :: (l ++ [head])) :=
  Joined.linked h

theorem Ring.linked_prev (h : Ring next prev head l) :
    Linked prev (head :: (l.reverse ++ [head])) := by
  have hrev : (head :: (l ++ [head])).reverse = head :: (l.reverse ++ [head]) := by simp
  rw [← hrev, Linked, List.isChain_reverse]
  exact List.IsChain.imp (fun _ _ hab => hab.2) h

theorem Joined.prev_next (h : Joined next prev l) (ha : a ∈ l.dropLast) : prev (next a) = a := by
  induction l with
  | nil => cases ha
  | cons b l ih =>
    cases l with
    | nil => cases ha
    | cons c l =>
      obtain ⟨⟨hbc, hcb⟩, hl⟩ := joined_cons_cons.mp h
      obtain rfl | ha := List.mem_cons.1 ha
      · rw [hbc, hcb]
      · exact ih hl ha

theorem Joined.next_prev (h : Joined next prev (p :: l)) (ha : a ∈ l) : next (prev a) = a := by
  induction l generalizing p with
  | nil => cases ha
  | cons c l ih =>
    obtain ⟨⟨hpc, hcp⟩, hl⟩ := joined_cons_cons.mp h
    obtain rfl | ha := List.mem_cons.1 ha
    · rw [hcp, hpc]
    · exact ih hl ha

theorem Ring.inverse (h : Ring next prev head l) (ha : a ∈ head :: l) :
    prev (next a) = a ∧ next (prev a) = a := by
  constructor
  · refine Joined.prev_next h ?_
    rw [← List.cons_append, List.dropLast_concat]
    exact ha
  · refine Joined.next_prev h ?_
    rw [List.mem_append, List.mem_singleton, or_comm]
    exact List.mem_cons.1 ha

section
variable [DecidableEq α]

/-- `b->next->prev = b->prev; b->prev->next = b->next`. -/
theorem Ring.remove (h : Ring next prev head (xs ++ b :: ys)) (hn : (head :: (xs ++ b :: ys)).Nodup)
    (hprev : prev' = Function.update prev (next b) (prev b))
    (hnext : next' = Function.update next (prev' b) (next b)) :
    Ring next' prev' head (xs ++ ys) := by
  obtain ⟨us, p, hp⟩ : ∃ us p, head :: xs = us ++ [p] := by
    obtain h₀ | ⟨us, p, hp⟩ := List.eq_nil_or_concat (head :: xs)
    · cases h₀
    · exact ⟨us, p, hp.trans List.concat_eq_append⟩
  obtain ⟨q, vs, hq⟩ : ∃ q vs, ys ++ [head] = q :: vs := by
    cases ys with
    | nil => exact ⟨head, [], rfl⟩
    | cons q ys => exact ⟨q, ys ++ [head], rfl⟩
  have hsplit : ∀ zs, head :: (xs ++ zs ++ ys ++ [head]) = us ++ p :: (zs ++ q :: vs) := by
    intro zs
    rw [List.append_assoc, hq, ← List.cons_append, ← List.cons_append, hp]
    simp
  have hwhole : Joined next prev (us ++ p :: b :: q :: vs) := by
    have hb := hsplit [b]
    rw [← List.append_cons] at hb
    show Joined next prev (us ++ p :: ([b] ++ q :: vs))
    rw [← hb]
    exact h
  obtain ⟨hus, hrest⟩ := joined_append_cons.mp hwhole
  obtain ⟨⟨hpb, hbp⟩, hrest⟩ := joined_cons_cons.mp hrest
  obtain ⟨⟨hbq, -⟩, hvs⟩ := joined_cons_cons.mp hrest
  have hn' : ((us ++ [p]) ++ b :: ys).Nodup := by
    rw [← hp]
    exact hn
  have hpq : prev' = Function.update prev q p := by rw [hprev, hbq, hbp]
  have hp' : prev' b = p := by
    rw [hpq]
    by_cases hb : b = q
    · rw [hb, Function.update_self]
    · rw [Function.update_of_ne hb, hbp]
  have hnp : next' = Function.update next p q := by rw [hnext, hp', hbq]
  have hpus : p ∉ us := fun hmem =>
    (List.nodup_append.mp (List.nodup_append.mp hn').1).2.2 p hmem p (List.mem_singleton_self p) rfl
  have hpys : p ∉ ys := fun hmem => (List.nodup_append.mp hn').2.2 p (by simp) p
    (List.mem_cons_of_mem _ hmem) rfl
  have hqxs : ∀ x ∈ xs, x ≠ q := by
    rintro x hx rfl
    have hq' : x ∈ ys ++ [head] := by rw [hq]; exact List.mem_cons_self
    obtain hxy | hxh := List.mem_append.1 hq'
    · exact (List.nodup_append.mp (List.nodup_cons.mp hn).2).2.2 x hx x
        (List.mem_cons_of_mem _ hxy) rfl
    · exact (List.nodup_cons.mp hn).1 (List.mem_singleton.1 hxh ▸ List.mem_append_left _ hx)
  have hqvs : q ∉ vs := by
    have hyh : (ys ++ [head]).Nodup := by
      obtain ⟨hh, hrest⟩ := List.nodup_cons.mp hn
      refine (List.perm_append_singleton head ys).nodup_iff.mpr (List.nodup_cons.mpr ⟨?_, ?_⟩)
      · exact fun hmem => hh (List.mem_append_right _ (List.mem_cons_of_mem _ hmem))
      · exact (List.nodup_cons.mp (List.nodup_append.mp hrest).2.1).2
    rw [hq] at hyh
    exact (List.nodup_cons.mp hyh).1
  have hnew := hsplit []
  rw [List.append_nil, List.nil_append] at hnew
  show Joined next' prev' (head :: (xs ++ ys ++ [head]))
  rw [hnew, joined_append_cons, joined_cons_cons, hnp, hpq]
  refine ⟨?_, ⟨Function.update_self .., Function.update_self ..⟩, ?_⟩
  · rw [← hp] at hus ⊢
    refine hus.congr ?_ ?_
    · intro x hx
      rw [hp, List.dropLast_concat] at hx
      exact Function.update_of_ne (ne_of_mem_of_not_mem hx hpus) _ _
    · exact fun x hx => Function.update_of_ne (hqxs x hx) _ _
  · refine hvs.congr ?_ ?_
    · intro x hx
      rw [← hq, List.dropLast_concat] at hx
      exact Function.update_of_ne (ne_of_mem_of_not_mem hx hpys) _ _
    · exact fun x hx => Function.update_of_ne (ne_of_mem_of_not_mem hx hqvs) _ _

/-- `b->next = head.next; b->prev = &head; head.next->prev = b; head.next = b`. -/
theorem Ring.insert (h : Ring next prev head l) (hn : (head :: l).Nodup) (hb : b ∉ head :: l)
    (hnext : next' = Function.update next b (next head))
    (hprev : prev' = Function.update (Function.update prev b head) (next' head) b) :
    Ring (Function.update next' head b) prev' head (b :: l) := by
  obtain ⟨q, vs, hq⟩ : ∃ q vs, l ++ [head] = q :: vs := by
    cases l with
    | nil => exact ⟨head, [], rfl⟩
    | cons q l => exact ⟨q, l ++ [head], rfl⟩
  unfold Ring at h ⊢
  rw [hq] at h
  rw [List.cons_append, hq]
  obtain ⟨⟨hhq, -⟩, hvs⟩ := joined_cons_cons.mp h
  have hbh : head ≠ b := fun hhb => hb (hhb ▸ List.mem_cons_self)
  have hbl : b ∉ q :: vs := by
    rw [← hq, List.mem_append, List.mem_singleton]
    rintro (hmem | hmem)
    · exact hb (List.mem_cons_of_mem _ hmem)
    · exact hbh hmem.symm
  have hqvs : q ∉ vs := by
    have hlh : (l ++ [head]).Nodup := (List.perm_append_singleton head l).nodup_iff.mpr hn
    rw [hq] at hlh
    exact (List.nodup_cons.mp hlh).1
  have hq' : next' head = q := by rw [hnext, Function.update_of_ne hbh, hhq]
  have hqb : q ≠ b := fun hqb => hbl (hqb ▸ List.mem_cons_self)
  rw [hq'] at hprev
  refine joined_cons_cons.mpr ⟨⟨Function.update_self .., ?_⟩,
    joined_cons_cons.mpr ⟨⟨?_, ?_⟩, hvs.congr ?_ ?_⟩⟩
  · rw [hprev, Function.update_of_ne hqb.symm, Function.update_self]
  · rw [Function.update_of_ne hbh.symm, hnext, Function.update_self, hhq]
  · rw [hprev, Function.update_self]
  · intro x hx
    rw [← hq, List.dropLast_concat] at hx
    have hxh : x ≠ head := fun hxh => (List.nodup_cons.mp hn).1 (hxh ▸ hx)
    have hxb : x ≠ b := fun hxb => hb (List.mem_cons_of_mem _ (hxb ▸ hx))
    rw [Function.update_of_ne hxh, hnext, Function.update_of_ne hxb]
  · intro x hx
    have hxq : x ≠ q := fun hxq => hqvs (hxq ▸ hx)
    have hxb : x ≠ b := fun hxb => hbl (List.mem_cons_of_mem _ (hxb ▸ hx))
    rw [hprev, Function.update_of_ne hxq, Function.update_of_ne hxb]

/-- `for (b = a; b != last; b = step(b)) if (found(b)) return b;` for at most `n` rounds. -/
def search (step : α → α) (last : α) (found : α → Bool) : ℕ → α → Option (Option α)
  | 0, _ => none
  | n + 1, a =>
      if a = last then some none
      else if found a then some (some a)
      else search step last found n (step a)

theorem search_eq_find? {step : α → α} {last f : α} {found : α → Bool} {n : ℕ}
    (h : Linked step (f :: (l ++ [last]))) (hl : last ∉ l) (hn : l.length < n) :
    search step last found n (step f) = some (l.find? found) := by
  induction l generalizing f n with
  | nil =>
    obtain ⟨n, rfl⟩ : ∃ k, n = k + 1 := ⟨n - 1, by rw [List.length_nil] at hn; omega⟩
    rw [linked_pair.mp h, search, if_pos rfl]
    rfl
  | cons a l ih =>
    rw [List.length_cons] at hn
    obtain ⟨n, rfl⟩ : ∃ k, n = k + 1 := ⟨n - 1, by omega⟩
    obtain ⟨hfa, hl'⟩ := linked_cons_cons.mp h
    have ha : a ≠ last := fun hal => hl (hal ▸ List.mem_cons_self)
    rw [hfa, search, if_neg ha]
    by_cases hfound : found a = true
    · rw [if_pos hfound, List.find?_cons_of_pos hfound]
    · rw [if_neg hfound, List.find?_cons_of_neg hfound]
      exact ih hl' (fun hmem => hl (List.mem_cons_of_mem _ hmem)) (by omega)

end

end DoublyLinked
