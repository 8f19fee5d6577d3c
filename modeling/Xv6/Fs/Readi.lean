import Xv6.Fs.Bmap

/-!
Reading an inode. `readi` delivers the bytes that the block map shows and changes the
contents of no file; on an inode without holes it changes nothing but the cache.
-/

namespace Xv6
open Hoare

def readBytes (V : ℕ → Block) (d : Dinode) (off len : ℕ) : List UInt8 :=
  (List.range len).map fun j => byteAt V d (off + j)

/-- How many bytes `readi` delivers. -/
def readLen (size off len : ℕ) : ℕ :=
  if off > size ∨ (off + len) % 2 ^ 32 < off then 0 else min len (size - off)

/-- Every fault of the log and of the block allocator is allowed. -/
structure Lenient (sb : Superblock) (E : Fault → Prop) (o : ℤ) : Prop where
  room : ∀ l, Room sb E l o
  blocks : E (.panic .ballocOutOfBlocks)

/-- A block of the range is missing. -/
def Holed (w : Work) (off len : ℕ) : Prop :=
  ∃ x, off ≤ x ∧ x < off + len ∧ blockOf w.V w.d (x / BSIZE) = 0

section
variable {v : Volume} {ip n off len : ℕ} {w : Work} {s t u : State} {E : Fault → Prop}
  {V : ℕ → Block} {d : Dinode}

@[simp] theorem length_readBytes (V : ℕ → Block) (d : Dinode) (off len : ℕ) :
    (readBytes V d off len).length = len := by simp [readBytes]

theorem readBytes_add (V : ℕ → Block) (d : Dinode) (off m len : ℕ) :
    readBytes V d off (m + len) = readBytes V d off m ++ readBytes V d (off + m) len := by
  simp only [readBytes, List.range_add, List.map_append, List.map_map, List.append_cancel_left_eq]
  refine List.map_congr_left fun j _ => ?_
  rw [Function.comp_apply, Nat.add_assoc]

theorem getD_readBytes {j : ℕ} (hj : j < len) :
    (readBytes V d off len).getD j 0 = byteAt V d (off + j) := by
  simp [readBytes, List.getD_eq_getElem?_getD, hj]

theorem byteAt_within {j : ℕ} (hj : off % BSIZE + j < BSIZE) :
    byteAt V d (off + j) = (dataOf V d (off / BSIZE)).get (off % BSIZE + j) := by
  have h₁ : (off + j) / BSIZE = off / BSIZE := by
    unfold BSIZE at *
    omega
  have h₂ : (off + j) % BSIZE = off % BSIZE + j := by
    unfold BSIZE at *
    omega
  rw [byteAt, h₁, h₂]

theorem getBytes_dataOf (h : len ≤ BSIZE - off % BSIZE) :
    (dataOf V d (off / BSIZE)).getBytes (off % BSIZE) len = readBytes V d off len := by
  apply List.ext_getElem (by simp)
  intro j h₁ h₂
  rw [← List.getD_eq_getElem _ 0 h₁, ← List.getD_eq_getElem _ 0 h₂]
  rw [length_readBytes] at h₂
  rw [Bytes.getD_getBytes _ _ _ _ h₂, getD_readBytes h₂, byteAt_within (by omega)]

theorem lt_nblocks {size : ℕ} (h : off < size) : off / BSIZE < nblocks size := by
  unfold nblocks BSIZE
  omega

theorem div_lt_MAXFILE (h : off < MAXFILE * BSIZE) : off / BSIZE < MAXFILE :=
  Nat.div_lt_of_lt_mul (by rwa [Nat.mul_comm])

theorem Editing.size_le (h : Editing v ip n w s) : w.d.size ≤ MAXFILE * BSIZE := by
  have := h.vol.size n
  rwa [Function.update_self] at this

theorem Edited.withUmem (h₁ : Edited ip s t) {um : UserMem}
    (h₂ : Edited ip { t with umem := um } u) : Edited ip { s with umem := um } u := by
  refine ⟨h₂.sb.trans h₁.sb, h₂.ftable.trans h₁.ftable, h₂.procs.trans h₁.procs,
    h₂.cur.trans h₁.cur, h₂.umem, fun j hj => (h₂.others j hj).trans (h₁.others j hj), ?_,
    h₂.outstanding.trans h₁.outstanding, h₂.disk.trans h₁.disk, h₂.writes.trans h₁.writes⟩
  have h := h₂.entry
  rw [show ({ t with umem := um } : State).itable = t.itable from rfl, h₁.entry] at h
  exact h

theorem Editing.congr (h : Editing v ip n w s) (hstore : t.store = s.store) (hsb : t.sb = s.sb)
    (hi : t.itable.get ip = s.itable.get ip) : Editing v ip n w t := by
  refine ⟨h.view.congr hstore hsb, h.vol, ?_, ?_, ?_, h.lt, h.type, h.bitmaps⟩
  · rw [hi]
    exact h.dev
  · rw [hi]
    exact h.inum
  · rw [hi]
    exact h.copy

theorem eitherCopyout_spec (dst : Dst) (bytes : List UInt8) (s : State)
    {F : Fault → State → Prop} :
    Post (eitherCopyout dst bytes) s (fun r t => t = { s with umem := t.umem } ∧
      ∀ l, dst = .kernel l → r = some (.kernel (l ++ bytes)) ∧ t.umem = s.umem) F := by
  cases dst with
  | user a =>
    simp only [eitherCopyout, post_bind, post_get, post_modify, post_pure]
    exact ⟨trivial, fun l h => by cases h⟩
  | kernel l =>
    refine post_pure.2 ⟨rfl, fun k hk => ?_⟩
    cases hk
    exact ⟨rfl, rfl⟩

theorem Editing.readBlock (h : Editing v ip n w s) (hoff : off < MAXFILE * BSIZE)
    (hB : Buffers v.sb E w.L.card)
    (hh : blockOf w.V w.d (off / BSIZE) ≠ 0 ∨ Lenient v.sb E s.store.log.outstanding) :
    Post (do
      bread (← getInode ip).dev (← bmap ip (off / BSIZE)) : K ℕ) s
      (fun i t => ∃ w' b, View v.sb w'.D (insert b ∅) w'.L w'.V t ∧ t.store.Caches i b ∧
        b = blockOf w'.V w'.d (off / BSIZE) ∧ b ≠ 0 ∧ Edited ip s t ∧ Grown v n w w' ∧
        (blockOf w.V w.d (off / BSIZE) ≠ 0 → w' = w) ∧
        ∀ u, Frame t u → View v.sb w'.D ∅ w'.L w'.V u → Editing v ip n w' u) fun f _ => E f := by
  simp only [post_bind, post_getInode, h.dev]
  apply (bmap_spec h (div_lt_MAXFILE hoff) hB fun h0 =>
    ⟨(hh.resolve_left fun hc => hc h0).room _, fun _ => (hh.resolve_left fun hc => hc h0).blocks⟩).imp
  rintro b t ⟨w', ht, hf, hg, hb, hb0, hsame, -, -⟩
  have hB' : Buffers v.sb E w'.L.card := by
    rcases hh with h0 | hl
    · rw [hsame h0]
      exact hB
    · exact (hl.room _).buffers
  apply (bread_view hB' ht.view (by simp) (Finset.notMem_empty _)).imp
  rintro i u ⟨hu, hi, hf', -⟩
  exact ⟨w', b, hu, hi, hb, hb0, hf.trans (.of_frame hf'), hg, hsame,
    fun x hx hview => ht.keep (hf'.trans hx) hview⟩

theorem Grown.clean {w₁ : Work} (h : Grown v n w w₁) (hclean : ∀ k, blockOf w.V w.d k ∉ w.D)
    (k : ℕ) : blockOf w₁.V w₁.d k ∉ w₁.D := by
  intro hmem
  have he := h.fresh _ hmem
  rw [he] at hmem
  exact hclean _ (h.dirty hmem)

theorem Grown.readBytes_eq {w₁ : Work} (h : Grown v n w w₁) (off len : ℕ) :
    readBytes w₁.V w₁.d off len = readBytes w.V w.d off len := by
  refine List.map_congr_left fun j _ => ?_
  rw [byteAt, h.data]
  rfl

theorem Grown.getBytes_eq {w₁ : Work} {i b m : ℕ} (h : Grown v n w w₁)
    (hclean : ∀ k, blockOf w.V w.d k ∉ w.D) (hview : View v.sb w₁.D (insert b ∅) w₁.L w₁.V t)
    (hi : t.store.Caches i b) (hb : b = blockOf w₁.V w₁.d (off / BSIZE)) (hb0 : b ≠ 0)
    (hm : m ≤ BSIZE - off % BSIZE) :
    (t.store.bufs.get i).data.getBytes (off % BSIZE) m = readBytes w.V w.d off m := by
  have hnD : b ∉ w₁.D := hb ▸ h.clean hclean _
  have hd : w₁.V b = dataOf w.V w.d (off / BSIZE) := by
    rw [← h.data, dataOf, ← hb, if_neg hb0]
  rw [hview.data hi hnD, hd, getBytes_dataOf hm]

/-- A copy to the user between reading a block and releasing it. -/
theorem Edited.copyout {x : State} (hf : Edited ip s t)
    (hdone : ∀ u, Frame t u → View v.sb w.D ∅ w.L w.V u → Editing v ip n w u)
    (hx : x = { t with umem := x.umem }) (hxu : Frame x u) (hu : View v.sb w.D ∅ w.L w.V u) :
    Editing v ip n w u ∧ Edited ip { s with umem := u.umem } u := by
  have hux : u = { t with umem := u.umem, store := u.store } := by
    rw [hxu.store, hx]
  have hft : Frame t { t with store := u.store } := by
    refine ⟨rfl, ?_, ?_, ?_⟩
    · rw [hxu.outstanding, hx]
    · rw [hxu.disk, hx]
    · rw [hxu.writes, hx]
  have hE := hdone { t with store := u.store } hft (hu.congr rfl (by rw [hux]))
  refine ⟨hE.congr rfl (by rw [hux]) (by rw [hux]), ?_⟩
  apply hf.withUmem
  rw [hux]
  exact ⟨rfl, rfl, rfl, rfl, rfl, fun _ _ => rfl, rfl, hft.outstanding, hft.disk, hft.writes⟩

theorem Edited.umem_trans (h₁ : Edited ip { s with umem := t.umem } t)
    (h₂ : Edited ip { t with umem := u.umem } u) : Edited ip { s with umem := u.umem } u := by
  refine ⟨h₂.sb.trans h₁.sb, h₂.ftable.trans h₁.ftable, h₂.procs.trans h₁.procs,
    h₂.cur.trans h₁.cur, rfl, fun j hj => (h₂.others j hj).trans (h₁.others j hj), ?_,
    h₂.outstanding.trans h₁.outstanding, h₂.disk.trans h₁.disk, h₂.writes.trans h₁.writes⟩
  have e₁ := h₁.entry
  have e₂ := h₂.entry
  simp only at e₁ e₂ ⊢
  rw [e₂, e₁]

theorem Holed.of_rest {m : ℕ} (h : Holed w (off + m) len) : Holed w off (m + len) := by
  obtain ⟨x, h₁, h₂, h₀⟩ := h
  exact ⟨x, by omega, by omega, h₀⟩

/-- What reading `len` bytes from `off` on leaves, where `N` is the count to be returned. -/
def ReadDone (v : Volume) (ip n : ℕ) (w : Work) (off len N : ℕ) (dst : Dst) (s : State)
    (r : Option ℕ × Dst) (t : State) : Prop :=
  ∃ w', Editing v ip n w' t ∧ Edited ip { s with umem := t.umem } t ∧ Grown v n w w' ∧
    (¬ Holed w off len → w' = w) ∧
    ∀ l, dst = .kernel l → t.umem = s.umem ∧ ((∀ k, blockOf w.V w.d k ∉ w.D) →
      r = (some N, .kernel (l ++ readBytes w.V w.d off len)))

theorem Editing.readNothing (h : Editing v ip n w s) (off N : ℕ) (dst : Dst) :
    ReadDone v ip n w off 0 N dst s (some N, dst) s := by
  refine ⟨w, h, .refl ip s, .refl v n w, fun _ => rfl, fun l hl => ⟨rfl, fun _ => ?_⟩⟩
  rw [hl]
  simp [readBytes]

/-- `m` bytes, which leave `w₁`, and then the rest of them. -/
theorem ReadDone.cons {w₁ : Work} {m N : ℕ} {dst dst' : Dst} {bytes : List UInt8}
    {r : Option ℕ × Dst} (hE : Edited ip { s with umem := t.umem } t) (hg : Grown v n w w₁)
    (hsame : ¬ Holed w off (m + len) → w₁ = w)
    (hk : ∀ l, dst = .kernel l → dst' = .kernel (l ++ bytes) ∧ t.umem = s.umem)
    (hbytes : (∀ k, blockOf w.V w.d k ∉ w.D) → bytes = readBytes w.V w.d off m)
    (hrest : ReadDone v ip n w₁ (off + m) len N dst' t r u) :
    ReadDone v ip n w off (m + len) N dst s r u := by
  obtain ⟨w₂, hu, hf, hg₂, hsame₂, hk₂⟩ := hrest
  refine ⟨w₂, hu, hE.umem_trans hf, hg.trans hg₂, fun hs => ?_, fun l hl => ?_⟩
  · have hw := hsame hs
    rw [hsame₂ (hw.symm ▸ fun hh => hs hh.of_rest), hw]
  · obtain ⟨hdst, hum⟩ := hk l hl
    obtain ⟨hum₂, hres⟩ := hk₂ _ hdst
    refine ⟨hum₂.trans hum, fun hclean => ?_⟩
    rw [hres (hg.clean hclean), hbytes hclean, hg.readBytes_eq, List.append_assoc, ← readBytes_add]

theorem readiLoop_spec {fuel tot N : ℕ} {dst : Dst} (h : Editing v ip n w s) (hle : tot ≤ N)
    (hsize : off + (N - tot) ≤ w.d.size) (hfuel : N - tot ≤ fuel)
    (hB : Buffers v.sb E w.L.card)
    (hh : ¬ Holed w off (N - tot) ∨ Lenient v.sb E s.store.log.outstanding) :
    Post (readiLoop ip fuel tot off N dst) s (ReadDone v ip n w off (N - tot) N dst s)
      fun f _ => E f := by
  induction fuel generalizing s w tot off dst with
  | zero =>
    obtain rfl : tot = N := by omega
    rw [Nat.sub_self]
    exact post_pure.2 (h.readNothing off tot dst)
  | succ fuel ih =>
    unfold readiLoop
    by_cases hlt : tot < N
    swap
    · obtain rfl : tot = N := by omega
      rw [if_neg hlt, Nat.sub_self]
      exact post_pure.2 (h.readNothing off tot dst)
    rw [if_pos hlt]
    have hfirst : ¬ Holed w off (N - tot) → blockOf w.V w.d (off / BSIZE) ≠ 0 :=
      fun hsol h0 => hsol ⟨off, le_rfl, by omega, h0⟩
    have hread := h.readBlock (lt_of_lt_of_le (by omega) h.size_le) hB (hh.imp_left hfirst)
    simp only [post_bind] at hread ⊢
    refine hread.imp fun d₁ t₁ => fun h₁ => h₁.imp fun b t₂ => fun h₂ => h₂.imp ?_
    rintro i t ⟨w₁, b', hview, hi, hb, hb0, hf, hg, hsame, hdone⟩
    have hm : 0 < min (N - tot) (BSIZE - off % BSIZE) := by
      have := Nat.mod_lt off (show 0 < BSIZE by decide)
      exact lt_min (by omega) (by omega)
    have hm' : min (N - tot) (BSIZE - off % BSIZE) ≤ N - tot := min_le_left _ _
    have hm'' : min (N - tot) (BSIZE - off % BSIZE) ≤ BSIZE - off % BSIZE := min_le_right _ _
    generalize min (N - tot) (BSIZE - off % BSIZE) = m at hm hm' hm'' ⊢
    obtain ⟨len, hlen⟩ : ∃ len, N - tot = m + len := ⟨N - tot - m, by omega⟩
    rw [hlen] at hfirst hh ⊢
    simp only [post_liftGetBuf]
    apply (eitherCopyout_spec dst _ t).imp
    rintro r x ⟨hx, hk⟩
    have hview' : View v.sb w₁.D (insert b' ∅) w₁.L w₁.V x := by
      rw [hx]
      exact hview.congr rfl rfl
    have hi' : x.store.Caches i b' := by
      rw [hx]
      exact hi
    cases r with
    | none =>
      simp only [post_bind]
      apply (brelse_view hview' (Finset.notMem_empty _) hi').imp
      rintro _ u ⟨hu, hfu, -⟩
      obtain ⟨hE₁, hE₂⟩ := hf.copyout hdone hx hfu hu
      refine post_pure.2 ⟨w₁, hE₁, hE₂, hg, fun hsol => hsame (hfirst hsol), fun l hl => ?_⟩
      exact absurd (hk l hl).1.symm (Option.some_ne_none _)
    | some dst' =>
      simp only [post_bind]
      apply (brelse_view hview' (Finset.notMem_empty _) hi').imp
      rintro _ u ⟨hu, hfu, -⟩
      obtain ⟨hE₁, hE₂⟩ := hf.copyout hdone hx hfu hu
      obtain rfl : len = N - (tot + m) := by omega
      have hsize₁ : w₁.d.size = w.d.size := hg.head.2.2.2.2
      have hsol : ¬ Holed w off (m + (N - (tot + m))) → w₁ = w := fun hs => hsame (hfirst hs)
      have hh₁ : ¬ Holed w₁ (off + m) (N - (tot + m)) ∨
          Lenient v.sb E u.store.log.outstanding := by
        rw [hE₂.outstanding]
        exact hh.imp_left fun hs => (hsol hs).symm ▸ fun hr => hs hr.of_rest
      have hB₁ : Buffers v.sb E w₁.L.card := by
        rcases hh with hs | hl
        · rw [hsol hs]
          exact hB
        · exact (hl.room _).buffers
      refine (ih hE₁ (by omega) (by omega) (by omega) hB₁ hh₁).imp fun r y hy =>
        hy.cons hE₂ hg hsol (fun l hl => ?_)
          fun hclean => hg.getBytes_eq hclean hview hi hb hb0 hm''
      obtain ⟨hr, hum⟩ := hk l hl
      exact ⟨Option.some.inj hr, by rw [hfu.umem, hum, hf.umem]⟩

theorem readi_spec {N : ℕ} {dst : Dst} (h : Editing v ip n w s)
    (hB : Buffers v.sb E w.L.card)
    (hh : ¬ Holed w off (readLen w.d.size off N) ∨ Lenient v.sb E s.store.log.outstanding) :
    Post (readi ip dst off N) s (fun r t => ∃ w', Editing v ip n w' t ∧
      Edited ip { s with umem := t.umem } t ∧ Grown v n w w' ∧
      (¬ Holed w off (readLen w.d.size off N) → w' = w) ∧
      ∀ l, dst = .kernel l → t.umem = s.umem ∧ ((∀ k, blockOf w.V w.d k ∉ w.D) →
        r = (some (readLen w.d.size off N),
          .kernel (l ++ readBytes w.V w.d off (readLen w.d.size off N))))) fun f _ => E f := by
  have hsize : (s.itable.get ip).size = w.d.size := by rw [← h.copy]
  simp only [readi, post_bind, post_getInode, hsize]
  by_cases hc : off > w.d.size ∨ (off + N) % 2 ^ 32 < off
  · rw [if_pos hc]
    refine post_pure.2 ⟨w, h, .refl ip s, .refl v n w, fun _ => rfl, fun l hl => ⟨rfl, fun _ => ?_⟩⟩
    rw [readLen, if_pos hc, hl]
    simp [readBytes]
  · have hoff : off ≤ w.d.size := by omega
    have hlen : (if off + N > w.d.size then w.d.size - off else N) = readLen w.d.size off N := by
      rw [readLen, if_neg hc]
      split_ifs <;> omega
    have hle : readLen w.d.size off N ≤ w.d.size - off := by
      rw [readLen, if_neg hc]
      exact min_le_right _ _
    rw [if_neg hc, hlen]
    apply (readiLoop_spec (N := readLen w.d.size off N) h (Nat.zero_le _) (by omega) (by omega) hB
      (by rwa [Nat.sub_zero])).imp
    exact fun _ _ h => h

end

end Xv6
