import Xv6.Lib.Hoare
import Xv6.Fs.Bio

/-!
What the buffer cache shows of the disk. `Bio D H P V s` says that block `b` has
contents `V b`, for every `b` outside `D`: in the buffer that caches it, and on disk
when it is not pinned. `H` are the blocks whose buffers are held, `P` the pinned ones,
and `D` those whose buffer was changed and neither logged nor written since.
-/

namespace Xv6
open Hoare

namespace Store

section
variable (s : Store) (i : ℕ) (x y : Buf)

@[simp] theorem setBuf_disk : (s.setBuf i x).disk = s.disk := rfl
@[simp] theorem setBuf_writes : (s.setBuf i x).writes = s.writes := rfl
@[simp] theorem setBuf_lru : (s.setBuf i x).lru = s.lru := rfl
@[simp] theorem setBuf_log : (s.setBuf i x).log = s.log := rfl
@[simp] theorem setBuf_bufs : (s.setBuf i x).bufs = s.bufs.set i x := rfl
@[simp] theorem setBuf_setBuf : (s.setBuf i x).setBuf i y = s.setBuf i y := by simp [setBuf]

end

def Caches (s : Store) (i b : ℕ) : Prop :=
  i < NBUF ∧ (s.bufs.get i).dev = ROOTDEV ∧ (s.bufs.get i).blockno = b

end Store

structure Bio (D : Set ℕ) (H P : Finset ℕ) (V : ℕ → Block) (s : Store) : Prop where
  lru_mem : ∀ i, i ∈ s.lru ↔ i < NBUF
  unique : ∀ i j b, s.Caches i b → s.Caches j b → i = j
  valid : ∀ i b, s.Caches i b → (s.bufs.get i).valid = true
  locked : ∀ i b, s.Caches i b → ((s.bufs.get i).locked = true ↔ b ∈ H)
  refcnt : ∀ i b, s.Caches i b →
    (s.bufs.get i).refcnt = (if b ∈ H then 1 else 0) + (if b ∈ P then 1 else 0)
  idle : ∀ i, i < NBUF → (s.bufs.get i).dev ≠ ROOTDEV →
    (s.bufs.get i).refcnt = 0 ∧ (s.bufs.get i).locked = false
  here : ∀ b, b ∈ H ∨ b ∈ P → ∃ i, s.Caches i b
  data : ∀ i b, s.Caches i b → b ∉ D → (s.bufs.get i).data = V b
  clean : ∀ b, b ∉ P → b ∉ D → s.disk.get b = V b

/-- Buffers of held blocks stay where they are. -/
def Stable (H : Finset ℕ) (s t : Store) : Prop := ∀ i b, b ∈ H → s.Caches i b → t.Caches i b

section
variable {D : Set ℕ} {H P : Finset ℕ} {V : ℕ → Block} {s : Store} {i b : ℕ}

@[simp] theorem post_getBuf {Q : Buf → Store → Prop} {E : Fault → Store → Prop} :
    Post (getBuf i) s Q E ↔ Q (s.bufs.get i) s := by
  simp [getBuf]

@[simp] theorem post_modifyBuf {f : Buf → Buf} {Q : Unit → Store → Prop}
    {E : Fault → Store → Prop} :
    Post (modifyBuf i f) s Q E ↔ Q () (s.setBuf i (f (s.bufs.get i))) := by
  simp [modifyBuf]

@[simp] theorem post_setData {d : Block} {Q : Unit → Store → Prop} {E : Fault → Store → Prop} :
    Post (setData i d) s Q E ↔ Q () (s.setBuf i { s.bufs.get i with data := d }) := by
  simp [setData]

@[simp] theorem post_panic {σ α : Type} {p : Panic} {s : σ} {Q : α → σ → Prop}
    {E : Fault → σ → Prop} : Post (panic p : EStateM Fault σ α) s Q E ↔ E (.panic p) s := by
  simp [panic]

@[simp] theorem post_sleepForever {σ α : Type} {s : σ} {Q : α → σ → Prop}
    {E : Fault → σ → Prop} : Post (sleepForever : EStateM Fault σ α) s Q E ↔ E .asleep s := by
  simp [sleepForever]

/-- `t` has `x` in place of buffer `i`. -/
def BufAt (s : Store) (i : ℕ) (x : Buf) (t : Store) : Prop :=
  ∀ j, t.bufs.get j = if j = i then x else s.bufs.get j

theorem bufAt_setBuf (s : Store) (i : ℕ) (x : Buf) : BufAt s i x (s.setBuf i x) :=
  fun j => TMap.get_set s.bufs i j x

theorem caches_set {t : Store} {x : Buf} (ht : BufAt s i x t) (j c : ℕ) :
    t.Caches j c ↔ if j = i then i < NBUF ∧ x.dev = ROOTDEV ∧ x.blockno = c
      else s.Caches j c := by
  simp only [Store.Caches, ht j]
  split_ifs with h
  · rw [h]
  · rfl

theorem caches_set_same {t : Store} {x : Buf} (ht : BufAt s i x t)
    (hd : x.dev = (s.bufs.get i).dev) (hb : x.blockno = (s.bufs.get i).blockno) (j c : ℕ) :
    t.Caches j c ↔ s.Caches j c := by
  rw [caches_set ht]
  split_ifs with h
  · rw [h, hd, hb, Store.Caches]
  · rfl

/-- A buffer without references belongs to a block that is neither held nor pinned. -/
theorem Bio.not_mem_of_refcnt_zero (h : Bio D H P V s) (hc : s.Caches i b)
    (h0 : (s.bufs.get i).refcnt = 0) : b ∉ H ∧ b ∉ P := by
  have hr := h.refcnt i b hc
  constructor <;> intro hm <;> rw [h0, if_pos hm] at hr <;> omega

theorem Bio.unlocked_of_refcnt_zero (h : Bio D H P V s) (hi : i < NBUF)
    (h0 : (s.bufs.get i).refcnt = 0) : (s.bufs.get i).locked = false := by
  by_cases hd : (s.bufs.get i).dev = ROOTDEV
  · have hc : s.Caches i (s.bufs.get i).blockno := ⟨hi, hd, rfl⟩
    have hn := (h.not_mem_of_refcnt_zero hc h0).1
    rw [← h.locked i _ hc] at hn
    simpa using hn
  · exact (h.idle i hi hd).2

/-- Every operation on a buffer `i` that keeps its block `b` is an instance: the new
buffer has to suit the new sets and contents at `b`, and nothing else may change. -/
theorem Bio.update {t : Store} {x : Buf} {A : Set ℕ} {K N : Finset ℕ} {W : ℕ → Block}
    (h : Bio D H P V s) (hc : s.Caches i b) (hbufs : BufAt s i x t)
    (hx : x.dev = ROOTDEV ∧ x.blockno = b ∧ x.valid = true)
    (hlru : ∀ j, j ∈ t.lru ↔ j ∈ s.lru) (hlock : x.locked = true ↔ b ∈ K)
    (href : x.refcnt = (if b ∈ K then 1 else 0) + (if b ∈ N then 1 else 0))
    (hdata : b ∉ A → x.data = W b) (hclean : b ∉ N → b ∉ A → t.disk.get b = W b)
    (hH : ∀ c, c ≠ b → (c ∈ K ↔ c ∈ H)) (hP : ∀ c, c ≠ b → (c ∈ N ↔ c ∈ P))
    (hD : ∀ c, c ≠ b → c ∉ A → c ∉ D) (hV : ∀ c, c ≠ b → W c = V c)
    (hdisk : ∀ c, c ≠ b → t.disk.get c = s.disk.get c) :
    Bio A K N W t ∧ ∀ j c, t.Caches j c ↔ s.Caches j c := by
  have hcs : ∀ j c, t.Caches j c ↔ s.Caches j c :=
    caches_set_same hbufs (hx.1.trans hc.2.1.symm) (hx.2.1.trans hc.2.2.symm)
  have hne : ∀ j c, s.Caches j c → j ≠ i → c ≠ b := by
    rintro j c hj hji rfl
    exact hji (h.unique j i c hj hc)
  have hib : ∀ c, s.Caches i c → c = b := fun c hi => hi.2.2.symm.trans hc.2.2
  have key : ∀ (F : ℕ → Buf → Prop), F b x → (∀ j c, c ≠ b → s.Caches j c → F c (s.bufs.get j)) →
      ∀ j c, t.Caches j c → F c (t.bufs.get j) := by
    intro F hFx hF j c hj
    rw [hcs] at hj
    rw [hbufs j]
    split_ifs with hji
    · rw [hji] at hj
      rw [hib c hj]
      exact hFx
    · exact hF j c (hne j c hj hji) hj
  refine ⟨⟨?_, ?_, ?_, ?_, ?_, ?_, ?_, ?_, ?_⟩, hcs⟩
  · intro j
    rw [hlru, h.lru_mem]
  · intro j k c hj hk
    exact h.unique j k c ((hcs j c).1 hj) ((hcs k c).1 hk)
  · exact key (fun _ y => y.valid = true) hx.2.2 fun j c _ hj => h.valid j c hj
  · refine key (fun c y => y.locked = true ↔ c ∈ K) hlock fun j c hcb hj => ?_
    rw [hH c hcb]
    exact h.locked j c hj
  · refine key (fun c y => y.refcnt = (if c ∈ K then 1 else 0) + (if c ∈ N then 1 else 0))
      href fun j c hcb hj => ?_
    simp only [hH c hcb, hP c hcb]
    exact h.refcnt j c hj
  · intro j hj hd
    have hji : j ≠ i := by
      rintro rfl
      rw [hbufs j, if_pos rfl] at hd
      exact hd hx.1
    rw [hbufs j, if_neg hji] at hd ⊢
    exact h.idle j hj hd
  · intro c hcm
    by_cases hcb : c = b
    · exact ⟨i, hcb ▸ (hcs i b).2 hc⟩
    · rw [hH c hcb, hP c hcb] at hcm
      obtain ⟨j, hj⟩ := h.here c hcm
      exact ⟨j, (hcs j c).2 hj⟩
  · refine key (fun c y => c ∉ A → y.data = W c) hdata fun j c hcb hj hcD => ?_
    rw [hV c hcb]
    exact h.data j c hj (hD c hcb hcD)
  · intro c hcP hcD
    by_cases hcb : c = b
    · rw [hcb] at hcP hcD ⊢
      exact hclean hcP hcD
    · rw [hdisk c hcb, hV c hcb]
      exact h.clean c (by rwa [hP c hcb] at hcP) (hD c hcb hcD)

theorem Bio.recycle {t : Store} {x : Buf} (h : Bio D H P V s) (hi : i < NBUF)
    (h0 : (s.bufs.get i).refcnt = 0) (hb : ∀ j, ¬ s.Caches j b)
    (hbufs : BufAt s i x t) (hdisk : t.disk = s.disk) (hlru : t.lru = s.lru)
    (hx : x = ⟨true, ROOTDEV, b, true, 1, s.disk.get b⟩) :
    Bio D (insert b H) P V t ∧ t.Caches i b := by
  have hcs := caches_set hbufs
  have hbH : b ∉ H := fun hm => (h.here b (.inl hm)).elim fun j hj => hb j hj
  have hbP : b ∉ P := fun hm => (h.here b (.inr hm)).elim fun j hj => hb j hj
  have hcase : ∀ j c, t.Caches j c → (j = i ∧ c = b) ∨ (j ≠ i ∧ c ≠ b ∧ s.Caches j c) := by
    intro j c hj
    rw [hcs] at hj
    split_ifs at hj with hji
    · left
      exact ⟨hji, by rw [← hj.2.2, hx]⟩
    · right
      refine ⟨hji, ?_, hj⟩
      rintro rfl
      exact hb j hj
  have hself : t.bufs.get i = ⟨true, ROOTDEV, b, true, 1, s.disk.get b⟩ := by
    rw [hbufs i, if_pos rfl, hx]
  have hother : ∀ j, j ≠ i → t.bufs.get j = s.bufs.get j := by
    intro j hji
    rw [hbufs j, if_neg hji]
  have hib : t.Caches i b := ⟨hi, by rw [hself], by rw [hself]⟩
  refine ⟨⟨?_, ?_, ?_, ?_, ?_, ?_, ?_, ?_, ?_⟩, hib⟩
  · rw [hlru]
    exact h.lru_mem
  · intro j k c hj hk
    rcases hcase j c hj with ⟨rfl, rfl⟩ | ⟨_, hcb, hj⟩ <;>
      rcases hcase k _ hk with ⟨rfl, hcb'⟩ | ⟨_, hcb', hk⟩
    · rfl
    · exact absurd rfl hcb'
    · exact absurd hcb' hcb
    · exact h.unique j k c hj hk
  · intro j c hj
    rcases hcase j c hj with ⟨rfl, rfl⟩ | ⟨hji, _, hj⟩
    · rw [hself]
    · rw [hother j hji]
      exact h.valid j c hj
  · intro j c hj
    rcases hcase j c hj with ⟨rfl, rfl⟩ | ⟨hji, hcb, hj⟩
    · simp [hself]
    · rw [hother j hji, h.locked j c hj]
      simp [hcb]
  · intro j c hj
    rcases hcase j c hj with ⟨rfl, rfl⟩ | ⟨hji, hcb, hj⟩
    · simp [hself, hbP]
    · rw [hother j hji, h.refcnt j c hj]
      simp [hcb]
  · intro j hj hd
    have hji : j ≠ i := by
      rintro rfl
      rw [hself] at hd
      exact hd rfl
    rw [hother j hji] at hd ⊢
    exact h.idle j hj hd
  · intro c hcm
    by_cases hcb : c = b
    · exact ⟨i, hcb ▸ hib⟩
    · have hcm' : c ∈ H ∨ c ∈ P := by simpa [hcb] using hcm
      obtain ⟨j, hj⟩ := h.here c hcm'
      have hji : j ≠ i := by
        rintro rfl
        have := h.not_mem_of_refcnt_zero hj h0
        exact hcm'.elim this.1 this.2
      refine ⟨j, ?_⟩
      rw [hcs, if_neg hji]
      exact hj
  · intro j c hj hcD
    rcases hcase j c hj with ⟨rfl, rfl⟩ | ⟨hji, _, hj⟩
    · rw [hself]
      exact h.clean c hbP hcD
    · rw [hother j hji]
      exact h.data j c hj hcD
  · rw [hdisk]
    exact h.clean

structure Quiet (s t : Store) : Prop where
  disk : t.disk = s.disk
  writes : t.writes = s.writes
  log : t.log = s.log

theorem Quiet.refl (s : Store) : Quiet s s := ⟨rfl, rfl, rfl⟩

theorem Quiet.trans {s t u : Store} (h₁ : Quiet s t) (h₂ : Quiet t u) : Quiet s u :=
  ⟨h₂.disk.trans h₁.disk, h₂.writes.trans h₁.writes, h₂.log.trans h₁.log⟩

section
variable {E : Fault → Store → Prop}

/-- Only held and pinned blocks keep a buffer from being recycled. -/
theorem Bio.card_of_all_referenced (h : Bio D H P V s)
    (hall : ∀ i, i < NBUF → (s.bufs.get i).refcnt ≠ 0) : NBUF ≤ (H ∪ P).card := by
  have hcache : ∀ i, i < NBUF → s.Caches i (s.bufs.get i).blockno := by
    intro i hi
    refine ⟨hi, ?_, rfl⟩
    by_contra hd
    exact hall i hi (h.idle i hi hd).1
  have hinj : Set.InjOn (fun i => (s.bufs.get i).blockno) (Finset.range NBUF : Set ℕ) := by
    intro i hi j hj hij
    have hi' := hcache i (by simpa using hi)
    have hj' := hcache j (by simpa using hj)
    simp only at hij
    rw [hij] at hi'
    exact h.unique i j _ hi' hj'
  have hmaps : Set.MapsTo (fun i => (s.bufs.get i).blockno) (Finset.range NBUF : Set ℕ)
      (H ∪ P : Finset ℕ) := by
    intro i hi
    have hi' : i < NBUF := by simpa using hi
    have hr := h.refcnt i _ (hcache i hi')
    have := hall i hi'
    simp only [Finset.coe_union, Set.mem_union, Finset.mem_coe]
    by_contra hn
    rw [not_or] at hn
    rw [if_neg hn.1, if_neg hn.2] at hr
    omega
  simpa using Finset.card_le_card_of_injOn _ hmaps hinj

theorem bread_spec (h : Bio D H P V s) (hb : b ∉ H)
    (hE : NBUF ≤ (H ∪ P).card → b ∉ P → E (.panic .bgetNoBuffers) s) :
    Post (bread ROOTDEV b) s
      (fun i t => Bio D (insert b H) P V t ∧ t.Caches i b ∧ Stable H s t ∧ Quiet s t) E := by
  simp only [bread, bget, post_bind, post_get]
  cases hf : s.lru.find? fun i =>
      decide ((s.bufs.get i).dev = ROOTDEV ∧ (s.bufs.get i).blockno = b) with
  | some i =>
    have hi : i < NBUF := (h.lru_mem i).1 (List.mem_of_find?_eq_some hf)
    have hp := List.find?_some hf
    simp only [decide_eq_true_eq] at hp
    have hc : s.Caches i b := ⟨hi, hp⟩
    have hl : (s.bufs.get i).locked = false := by
      have := h.locked i b hc
      simpa [hb] using this
    have hv := h.valid i b hc
    simp only [post_bind, post_modifyBuf, acquireBuf, post_getBuf, Store.setBuf_bufs,
      TMap.get_set_self, hl, Bool.false_eq_true, if_false, post_pure, hv, Bool.not_true,
      Store.setBuf_setBuf]
    obtain ⟨hbio, hcs⟩ := h.update (t := s.setBuf i { s.bufs.get i with
        valid := true, refcnt := (s.bufs.get i).refcnt + 1, locked := true })
      (A := D) (K := insert b H) (N := P) (W := V)
      hc (bufAt_setBuf _ _ _) ⟨hp.1, hp.2, rfl⟩ (fun _ => Iff.rfl) (by simp)
      (by simp [h.refcnt i b hc, hb, Nat.add_comm]) (h.data i b hc) (h.clean b)
      (fun c hcb => by simp [hcb]) (fun _ _ => Iff.rfl) (fun _ _ hD => hD) (fun _ _ => rfl)
      (fun _ _ => rfl)
    exact ⟨hbio, (hcs i b).2 hc, fun j c _ hj => (hcs j c).2 hj, rfl, rfl, rfl⟩
  | none =>
    have hno : ∀ j, ¬ s.Caches j b := by
      intro j hj
      have := List.find?_eq_none.1 hf j ((h.lru_mem j).2 hj.1)
      exact this (by simpa using hj.2)
    cases hr : s.lru.reverse.find? fun i => decide ((s.bufs.get i).refcnt = 0) with
    | some i =>
      have hi : i < NBUF :=
        (h.lru_mem i).1 (List.mem_reverse.1 (List.mem_of_find?_eq_some hr))
      have h0 : (s.bufs.get i).refcnt = 0 := by simpa using List.find?_some hr
      have hl := h.unlocked_of_refcnt_zero hi h0
      simp only [post_bind, post_modifyBuf, acquireBuf, post_getBuf, Store.setBuf_bufs,
        TMap.get_set_self, hl, Bool.false_eq_true, if_false, post_pure, Bool.not_false, if_true,
        Store.setBuf_setBuf, virtioDiskRw, post_get, post_setData, Store.setBuf_disk]
      obtain ⟨hbio, hc⟩ := h.recycle (t := s.setBuf i ⟨true, ROOTDEV, b, true, 1, s.disk.get b⟩)
        hi h0 hno (bufAt_setBuf _ _ _) rfl rfl rfl
      refine ⟨hbio, hc, fun j c hcH hj => ?_, rfl, rfl, rfl⟩
      have hji : j ≠ i := by
        rintro rfl
        exact (h.not_mem_of_refcnt_zero hj h0).1 hcH
      rw [caches_set (bufAt_setBuf _ _ _), if_neg hji]
      exact hj
    | none =>
      simp only [post_panic]
      apply hE
      · apply h.card_of_all_referenced
        intro i hi
        have := List.find?_eq_none.1 hr i (List.mem_reverse.2 ((h.lru_mem i).2 hi))
        simpa using this
      · intro hbP
        obtain ⟨j, hj⟩ := h.here b (.inr hbP)
        exact hno j hj

/-- `t` caches the same blocks in the same buffers. -/
def SameCaches (s t : Store) : Prop := ∀ j c, t.Caches j c ↔ s.Caches j c

theorem brelse_spec (h : Bio D (insert b H) P V s) (hb : b ∉ H) (hc : s.Caches i b) :
    Post (brelse i) s (fun _ t => Bio D H P V t ∧ SameCaches s t ∧ Quiet s t) E := by
  have hl : (s.bufs.get i).locked = true := (h.locked i b hc).2 (Finset.mem_insert_self b H)
  have hr : (s.bufs.get i).refcnt - 1 = if b ∈ P then 1 else 0 := by
    rw [h.refcnt i b hc, if_pos (Finset.mem_insert_self b H)]
    omega
  have key : ∀ l : List ℕ, (∀ j, j ∈ l ↔ j ∈ s.lru) →
      Bio D H P V { s.setBuf i { s.bufs.get i with
        locked := false, refcnt := (s.bufs.get i).refcnt - 1 } with lru := l } ∧
      SameCaches s { s.setBuf i { s.bufs.get i with
        locked := false, refcnt := (s.bufs.get i).refcnt - 1 } with lru := l } := by
    intro l hlru
    exact h.update hc (bufAt_setBuf _ _ _) ⟨hc.2.1, hc.2.2, h.valid i b hc⟩ hlru (by simp [hb])
      (by simp only [hr, if_neg hb]; omega) (h.data i b hc) (h.clean b)
      (fun c hcb => by simp [hcb]) (fun _ _ => Iff.rfl) (fun _ _ hD => hD) (fun _ _ => rfl)
      (fun _ _ => rfl)
  simp only [brelse, post_bind, post_getBuf, hl, Bool.not_true, Bool.false_eq_true, if_false,
    post_modifyBuf, Store.setBuf_bufs, TMap.get_set_self]
  split_ifs with h0
  · obtain ⟨hbio, hcs⟩ := key (i :: s.lru.erase i) fun j => by
      by_cases hji : j = i
      · simp [hji, (h.lru_mem i).2 hc.1]
      · simp [hji, List.mem_erase_of_ne hji]
    exact post_modify.2 ⟨hbio, hcs, rfl, rfl, rfl⟩
  · obtain ⟨hbio, hcs⟩ := key s.lru fun _ => Iff.rfl
    exact post_pure.2 ⟨hbio, hcs, rfl, rfl, rfl⟩

/-- Changing the data of a buffer makes its block one whose contents are not promised. -/
theorem Bio.setData (h : Bio D H P V s) (hc : s.Caches i b) (d : Block) :
    Bio (insert b D) H P V (s.setBuf i { s.bufs.get i with data := d }) ∧
      SameCaches s (s.setBuf i { s.bufs.get i with data := d }) :=
  h.update hc (bufAt_setBuf _ _ _) ⟨hc.2.1, hc.2.2, h.valid i b hc⟩ (fun _ => Iff.rfl)
    (h.locked i b hc) (h.refcnt i b hc) (fun hD => absurd (Set.mem_insert b D) hD)
    (fun _ hD => absurd (Set.mem_insert b D) hD) (fun _ _ => Iff.rfl) (fun _ _ => Iff.rfl)
    (fun _ _ hD hm => hD (Set.mem_insert_of_mem b hm)) (fun _ _ => rfl) (fun _ _ => rfl)

/-- Writing a held buffer out: its data is what the block holds from now on. -/
theorem bwrite_spec (h : Bio D H P V s) (hb : b ∈ H) (hc : s.Caches i b) :
    Post (bwrite i) s
      (fun _ t => Bio (D \ {b}) H P (Function.update V b (s.bufs.get i).data) t ∧
        SameCaches s t ∧ t.bufs = s.bufs ∧ t.log = s.log ∧
        t.disk = s.disk.set b (s.bufs.get i).data ∧
        t.writes = (b, (s.bufs.get i).data) :: s.writes) E := by
  have hl : (s.bufs.get i).locked = true := (h.locked i b hc).2 hb
  simp only [bwrite, post_bind, post_getBuf, hl, Bool.not_true, Bool.false_eq_true, if_false,
    virtioDiskRw, if_true, post_modify, hc.2.2]
  have hself : BufAt s i (s.bufs.get i) { s with
      disk := s.disk.set b (s.bufs.get i).data
      writes := (b, (s.bufs.get i).data) :: s.writes } := by
    intro j
    split_ifs with hji
    · rw [hji]
    · rfl
  obtain ⟨hbio, hcs⟩ := h.update (A := D \ {b}) (K := H) (N := P)
    (W := Function.update V b (s.bufs.get i).data) hc hself ⟨hc.2.1, hc.2.2, h.valid i b hc⟩
    (fun _ => Iff.rfl) (h.locked i b hc) (h.refcnt i b hc) (fun _ => by simp)
    (fun _ _ => by simp) (fun _ _ => Iff.rfl) (fun _ _ => Iff.rfl)
    (fun c hcb hD hm => hD ⟨hm, hcb⟩) (fun c hcb => Function.update_of_ne hcb _ _)
    (fun c hcb => TMap.get_set_ne _ _ hcb)
  exact ⟨hbio, hcs, trivial, trivial, trivial, trivial⟩

/-- Logging a held buffer: it is pinned, and its data is what the block holds. -/
theorem Bio.pin {t : Store} {x : Buf} (h : Bio D H P V s) (hc : s.Caches i b)
    (hx : x = { s.bufs.get i with
      refcnt := (s.bufs.get i).refcnt + if b ∈ P then 0 else 1 })
    (ht : BufAt s i x t) (hdisk : t.disk = s.disk) (hlru : t.lru = s.lru) :
    Bio (D \ {b}) H (insert b P) (Function.update V b (s.bufs.get i).data) t ∧
      SameCaches s t := by
  subst hx
  refine h.update hc ht ⟨hc.2.1, hc.2.2, h.valid i b hc⟩ (fun _ => by rw [hlru])
    (h.locked i b hc) ?_ (fun _ => by simp) (fun hP => absurd (Finset.mem_insert_self b P) hP)
    (fun _ _ => Iff.rfl) (fun c hcb => by simp [hcb]) (fun c hcb hD hm => hD ⟨hm, hcb⟩)
    (fun c hcb => Function.update_of_ne hcb _ _) (fun _ _ => by rw [hdisk])
  simp only [h.refcnt i b hc, Finset.mem_insert_self, if_true]
  split_ifs <;> rfl

theorem bunpin_spec (h : Bio D H P V s) (hb : b ∈ P) (hc : s.Caches i b)
    (hd : b ∉ D → s.disk.get b = V b) :
    Post (bunpin i) s (fun _ t => Bio D H (P.erase b) V t ∧ SameCaches s t ∧ Quiet s t) E := by
  simp only [bunpin, post_modifyBuf]
  obtain ⟨hbio, hcs⟩ := h.update (A := D) (K := H) (N := P.erase b) (W := V) hc
    (bufAt_setBuf s i { s.bufs.get i with refcnt := (s.bufs.get i).refcnt - 1 })
    ⟨hc.2.1, hc.2.2, h.valid i b hc⟩ (fun _ => Iff.rfl) (h.locked i b hc)
    (by simp [h.refcnt i b hc, hb]) (h.data i b hc) (fun _ hD => hd hD) (fun _ _ => Iff.rfl)
    (fun c hcb => by simp [hcb]) (fun _ _ hD => hD) (fun _ _ => rfl) (fun _ _ => rfl)
  exact ⟨hbio, hcs, rfl, rfl, rfl⟩

end

end

end Xv6
