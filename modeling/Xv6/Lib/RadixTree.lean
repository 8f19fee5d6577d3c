import Mathlib.Tactic

/-!
Radix trees in a memory of nodes. A tree has `D` levels of nodes with `B` entries each.
An entry of an inner node is `0` or the pointer to the node one level down; an entry of a
node of the last level is the value of a key. `At d π` says that node `d` is the one that
the indices `π` lead to.
-/

namespace RadixTree
variable {B D : ℕ} {ptr : ℕ → ℕ} {At At' : ℕ → List ℕ → Prop} {entry entry' : ℕ → ℕ → ℕ}
  {leaf : List ℕ → ℕ} {c d p i v : ℕ} {π : List ℕ}

structure Tree (B D : ℕ) (ptr : ℕ → ℕ) (At : ℕ → List ℕ → Prop) (entry : ℕ → ℕ → ℕ)
    (leaf : List ℕ → ℕ) : Prop where
  place : ∀ d π ρ, At d π → At d ρ → π = ρ
  inj : ∀ d e π, At d π → At e π → d = e
  short : ∀ d π, At d π → π.length < D
  down : ∀ c π i, At c π → π.length + 1 < D → i < B →
    entry c i = 0 ∨ ∃ d, At d (π ++ [i]) ∧ entry c i = ptr d
  up : ∀ d π i, At d (π ++ [i]) → i < B ∧ ∃ c, At c π ∧ entry c i = ptr d
  value : ∀ d π i, At d π → π.length + 1 = D → i < B → entry d i = leaf (π ++ [i])
  absent : ∀ π i, (∀ d, ¬ At d π) → π.length + 1 = D → leaf (π ++ [i]) = 0

theorem Tree.single (hD : 0 < D) (hAt : ∀ d π, At d π ↔ d = p ∧ π = [])
    (h0 : ∀ i, i < B → entry p i = 0) : Tree B D ptr At entry fun _ => 0 := by
  constructor
  · intro d π ρ hd he
    rw [((hAt d π).1 hd).2, ((hAt d ρ).1 he).2]
  · intro d e π hd he
    rw [((hAt d π).1 hd).1, ((hAt e π).1 he).1]
  · intro d π hd
    rw [((hAt d π).1 hd).2]
    exact hD
  · intro c π i hc _ hi
    rw [((hAt c π).1 hc).1]
    exact .inl (h0 i hi)
  · intro d π i hd
    have := ((hAt d _).1 hd).2
    simp at this
  · intro d π i hd _ hi
    rw [((hAt d π).1 hd).1]
    exact h0 i hi
  · intro π i _ _
    rfl

theorem Tree.congr (h : Tree B D ptr At entry leaf) (hAt : ∀ d π, At' d π ↔ At d π)
    (he : ∀ d π i, At d π → i < B → entry' d i = entry d i) : Tree B D ptr At' entry' leaf := by
  constructor
  · intro d π ρ hd hd'
    exact h.place d π ρ ((hAt d π).1 hd) ((hAt d ρ).1 hd')
  · intro d e π hd he
    exact h.inj d e π ((hAt d π).1 hd) ((hAt e π).1 he)
  · intro d π hd
    exact h.short d π ((hAt d π).1 hd)
  · intro c π i hc hπ hi
    have hc := (hAt c π).1 hc
    rw [he c π i hc hi]
    simpa only [hAt] using h.down c π i hc hπ hi
  · intro d π i hd
    obtain ⟨hi, c, hc, hp⟩ := h.up d π i ((hAt d _).1 hd)
    exact ⟨hi, c, (hAt c π).2 hc, by rw [he c π i hc hi, hp]⟩
  · intro d π i hd hπ hi
    have hd := (hAt d π).1 hd
    rw [he d π i hd hi]
    exact h.value d π i hd hπ hi
  · intro π i hno
    exact h.absent π i fun d hd => hno d ((hAt d π).2 hd)

theorem Tree.above (h : Tree B D ptr At entry leaf) {σ : List ℕ} :
    ∀ d, At d (π ++ σ) → ∃ c, At c π := by
  induction σ using List.reverseRecOn with
  | nil =>
    intro d hd
    exact ⟨d, by simpa using hd⟩
  | append_singleton σ i ih =>
    intro d hd
    rw [← List.append_assoc] at hd
    obtain ⟨-, c, hc, -⟩ := h.up d _ i hd
    exact ih c hc

/-- There is no node below an entry that is `0`. -/
theorem Tree.none_below (h : Tree B D ptr At entry leaf) (hptr : ∀ d, ptr d ≠ 0) (hc : At c π)
    (hci : entry c i = 0) {ρ : List ℕ} (hρ : π ++ [i] <+: ρ) : ¬ At d ρ := by
  obtain ⟨σ, rfl⟩ := hρ
  intro hd
  obtain ⟨e, he⟩ := h.above d hd
  obtain ⟨-, c', hc', hp⟩ := h.up e π i he
  rw [h.inj c' c π hc' hc, hci] at hp
  exact hptr e hp.symm

/-- A new empty node `p` under the entry `i` of `c`. -/
theorem Tree.attach (h : Tree B D ptr At entry leaf) (hc : At c π) (hπ : π.length + 1 < D)
    (hi : i < B) (hci : entry c i = 0) (hptr : ∀ d, ptr d ≠ 0) (hp : ∀ ρ, ¬ At p ρ)
    (hAt : ∀ d ρ, At' d ρ ↔ if d = p then ρ = π ++ [i] else At d ρ)
    (hset : entry' c i = ptr p) (hzero : ∀ j, j < B → entry' p j = 0)
    (he : ∀ d ρ j, At d ρ → j < B → ¬ (d = c ∧ j = i) → entry' d j = entry d j) :
    Tree B D ptr At' entry' leaf := by
  have hne : ∀ {d ρ}, At d ρ → d ≠ p := by
    rintro d ρ hd rfl
    exact hp ρ hd
  have hold : ∀ {d ρ}, At d ρ → At' d ρ := by
    intro d ρ hd
    rw [hAt, if_neg (hne hd)]
    exact hd
  have hnew : At' p (π ++ [i]) := by
    rw [hAt, if_pos rfl]
  have hfree : ∀ d, ¬ At d (π ++ [i]) := by
    intro d hd
    obtain ⟨-, c', hc', hp'⟩ := h.up d π i hd
    rw [h.inj c' c π hc' hc, hci] at hp'
    exact hptr d hp'.symm
  constructor
  · intro d ρ ρ' hd hd'
    rw [hAt] at hd hd'
    split_ifs at hd hd' with hdp
    · rw [hd, hd']
    · exact h.place d ρ ρ' hd hd'
  · intro d e ρ hd he'
    rw [hAt] at hd he'
    split_ifs at hd he' with hdp hep hep
    · rw [hdp, hep]
    · rw [hd] at he'
      exact absurd he' (hfree e)
    · rw [he'] at hd
      exact absurd hd (hfree d)
    · exact h.inj d e ρ hd he'
  · intro d ρ hd
    rw [hAt] at hd
    split_ifs at hd with hdp
    · rw [hd]
      simpa using hπ
    · exact h.short d ρ hd
  · intro b ρ j hb hρ hj
    rw [hAt] at hb
    split_ifs at hb with hbp
    · rw [hbp]
      exact .inl (hzero j hj)
    · by_cases hbc : b = c ∧ j = i
      · obtain ⟨rfl, rfl⟩ := hbc
        rw [h.place b ρ π hb hc]
        exact .inr ⟨p, hnew, hset⟩
      · rw [he b ρ j hb hj hbc]
        refine (h.down b ρ j hb hρ hj).imp_right ?_
        rintro ⟨d, hd, hpd⟩
        exact ⟨d, hold hd, hpd⟩
  · intro d ρ j hd
    rw [hAt] at hd
    split_ifs at hd with hdp
    · obtain ⟨rfl, hji⟩ := List.append_inj' hd rfl
      rw [List.singleton_inj] at hji
      rw [hji, hdp]
      exact ⟨hi, c, hold hc, hset⟩
    · obtain ⟨hj, b, hb, hpb⟩ := h.up d ρ j hd
      refine ⟨hj, b, hold hb, ?_⟩
      rw [he b ρ j hb hj, hpb]
      rintro ⟨rfl, rfl⟩
      rw [hci] at hpb
      exact hptr d hpb.symm
  · intro d ρ j hd hρ hj
    rw [hAt] at hd
    split_ifs at hd with hdp
    · rw [hd, hdp, hzero j hj, h.absent _ j hfree (hd ▸ hρ)]
    · rw [he d ρ j hd hj, h.value d ρ j hd hρ hj]
      rintro ⟨rfl, rfl⟩
      rw [h.place d ρ π hd hc] at hρ
      omega
  · intro ρ j hno hρ
    exact h.absent ρ j (fun d hd => hno d (hold hd)) hρ

theorem Tree.setValue (h : Tree B D ptr At entry leaf) (hd : At d π) (hπ : π.length + 1 = D)
    (hset : entry' d i = v)
    (he : ∀ e ρ j, At e ρ → j < B → ¬ (e = d ∧ j = i) → entry' e j = entry e j) :
    Tree B D ptr At entry' (Function.update leaf (π ++ [i]) v) := by
  have hinner : ∀ {c ρ j}, At c ρ → ρ.length + 1 < D → ¬ (c = d ∧ j = i) := by
    rintro c ρ j hc hρ ⟨rfl, rfl⟩
    rw [h.place c ρ π hc hd] at hρ
    omega
  constructor
  · exact h.place
  · exact h.inj
  · exact h.short
  · intro c ρ j hc hρ hj
    rw [he c ρ j hc hj (hinner hc hρ)]
    exact h.down c ρ j hc hρ hj
  · intro e ρ j hej
    obtain ⟨hj, c, hc, hp⟩ := h.up e ρ j hej
    have hρ : ρ.length + 1 < D := by
      have := h.short e _ hej
      simpa using this
    exact ⟨hj, c, hc, by rw [he c ρ j hc hj (hinner hc hρ), hp]⟩
  · intro e ρ j heρ hρ hj
    by_cases hed : e = d ∧ j = i
    · obtain ⟨rfl, rfl⟩ := hed
      rw [h.place e ρ π heρ hd, Function.update_self, hset]
    · rw [he e ρ j heρ hj hed, Function.update_of_ne, h.value e ρ j heρ hρ hj]
      intro heq
      obtain ⟨rfl, hji⟩ := List.append_inj' heq rfl
      rw [List.singleton_inj] at hji
      exact hed ⟨h.inj e d ρ heρ hd, hji⟩
  · intro ρ j hno hρ
    rw [Function.update_of_ne, h.absent ρ j hno hρ]
    intro heq
    obtain ⟨rfl, -⟩ := List.append_inj' heq rfl
    exact hno d hd

end RadixTree
