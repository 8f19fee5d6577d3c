import Xv6.Fs.MkfsSpec

/-!
The image `mkfs` makes. `Built n type bytes din s` describes it after `n - 1` inodes
were allocated, as long as their slots lie before the data blocks; `Made` describes the
finished image.
-/

namespace Xv6
namespace Mkfs
open Hoare

section
variable {din din' : ℕ → Dinode} {nb : ℕ → ℕ} {bytes : ℕ → List UInt8} {s t : St} {i : ℕ}
  {E : Exit → St → Prop}

/-- Blocks before the data blocks, and the fields of inodes other than `addrs`, do not
matter for the layout of the data. -/
theorem Laid.transport (h : Laid din nb bytes s) (hdin : ∀ j, (din' j).addrs = (din j).addrs)
    (hfb : t.freeblock = s.freeblock)
    (himg : ∀ b, nmeta ≤ b → t.img.get? b = s.img.get? b) : Laid din' nb bytes t := by
  have hget : ∀ b, nmeta ≤ b → t.img.get b = s.img.get b :=
    fun b hb => by rw [TMap.get, himg b hb, TMap.get]
  have hslot : ∀ j τ, slot t.img.get (din' j) τ = slot s.img.get (din j) τ := by
    intro j τ
    rw [slot_addrs (hdin j)]
    apply slot_congr
    exact fun h0 => hget _ (h.slot_given h0).1
  have hplace : place t.img.get din' = place s.img.get din := funext fun q => hslot q.1 q.2
  have hgiven : given t = given s := by
    unfold given
    rw [hfb]
  refine ⟨⟨hfb ▸ h.start, ?_, ?_, ?_, ?_, ?_, ?_, h.fits, ?_⟩, ?_, ?_, hfb ▸ h.taken⟩
  · intro b hb
    rw [hfb] at hb
    rw [himg b (le_trans h.start hb), h.fresh b hb]
  · rw [hplace, hgiven]
    exact h.ledger
  · rw [hplace, hgiven]
    exact h.exact
  · intro j
    rw [hdin j]
    exact h.length j
  · intro j bn hbn
    rw [blockOf, hslot]
    exact h.filled j bn hbn
  · intro j off hoff
    rw [← h.contents j off hoff, byteAt, byteAt, dataOf_congr (hslot j _)]
    exact fun h0 => hget _ (h.slot_given h0).1
  · simp only [hslot, hfb]
    exact h.count
  · intro j
    rw [hslot]
    exact h.snug j
  · intro b hb
    by_cases hn : nmeta ≤ b
    · rw [himg b hn] at hb
      exact h.written b hb
    · exact lt_trans (Nat.lt_of_not_le hn) (by decide)

theorem Laid.addrs_lt (h : Laid din nb bytes s) : ∀ a ∈ (din i).addrs, a < 2 ^ 32 := by
  intro a ha
  obtain ⟨σ, hσ, rfl⟩ := List.getElem_of_mem ha
  have hlen := h.length i
  have hs : slot s.img.get (din i) σ = (din i).addrs[σ] := by
    rw [slot_direct (by omega), List.getD_eq_getElem _ _ hσ]
  have htaken := h.taken
  have hF : FSSIZE = 1000 := rfl
  by_cases h0 : slot s.img.get (din i) σ = 0
  · rw [← hs, h0]
    norm_num
  · have := (h.slot_given h0).2
    omega

def wrote (s : St) (i : ℕ) (d : Dinode) : St :=
  { s with
    img := s.img.set (sb.IBLOCK i) (putDinode (s.img.get (sb.IBLOCK i)) (i % IPB) d)
    inodes := s.inodes.set i d }

theorem IBLOCK_range (hi : i < inodeSlots) :
    sb.inodestart ≤ sb.IBLOCK i ∧ sb.IBLOCK i < nmeta := by
  simp only [inodeSlots, Superblock.IBLOCK, show nmeta = 46 from rfl,
    show sb.inodestart = 32 from rfl, show IPB = 16 from rfl] at *
  omega

@[simp] theorem post_winode {d : Dinode} {Q : Unit → St → Prop} (hi : i < inodeSlots) :
    Post (winode i d) s Q E ↔ Q () (wrote s i d) := by
  have hF : sb.IBLOCK i < FSSIZE := lt_trans (IBLOCK_range hi).2 (by decide)
  simp only [winode, post_bind, post_rsect, post_wsect, post_modify]
  exact ⟨fun h => h.2 hF, fun h => ⟨fun hge => absurd hF (Nat.not_lt.2 hge), fun _ => h⟩⟩

@[simp] theorem post_rinode {Q : Dinode → St → Prop} (hi : i < inodeSlots) :
    Post (rinode i) s Q E ↔ Q (dinodeAt sb s.img.get i) s := by
  have hF : sb.IBLOCK i < FSSIZE := lt_trans (IBLOCK_range hi).2 (by decide)
  simp only [rinode, post_bind, post_rsect, post_pure]
  exact ⟨fun h => h.2 hF, fun h => ⟨fun hge => absurd hF (Nat.not_lt.2 hge), fun _ => h⟩⟩

theorem wrote_get? {d : Dinode} (hi : i < inodeSlots) {b : ℕ}
    (hb : b < sb.inodestart ∨ nmeta ≤ b) : (wrote s i d).img.get? b = s.img.get? b := by
  have := IBLOCK_range hi
  unfold wrote
  rw [TMap.get?_set, if_neg (by omega)]

theorem dinodeAt_wrote {d : Dinode} (hd : d.Ok) (j : ℕ) :
    dinodeAt sb (wrote s i d).img.get j = if j = i then d else dinodeAt sb s.img.get j := by
  unfold wrote
  rw [TMap.get_set_eq_update]
  exact dinodeAt_put sb s.img.get i j hd

theorem dinodeAt_frame (h : ∀ b, b < nmeta → t.img.get? b = s.img.get? b) {j : ℕ}
    (hj : j < inodeSlots) : dinodeAt sb t.img.get j = dinodeAt sb s.img.get j := by
  unfold dinodeAt
  rw [TMap.get, h _ (IBLOCK_range hj).2, TMap.get]

structure Built (n : ℕ) (type : ℕ → ℤ) (bytes : ℕ → List UInt8) (din : ℕ → Dinode) (s : St) :
    Prop where
  laid : Laid din (fun i => nblocks (bytes i).length) bytes s
  next : s.freeinode = n
  disk : ∀ i, i < inodeSlots → dinodeAt sb s.img.get i = din i
  head : ∀ i, 1 ≤ i → i < n → SameHead ⟨type i, 0, 0, 1, (bytes i).length, []⟩ (din i)
  free : ∀ i, i = 0 ∨ n ≤ i → din i = zeroDinode ∧ bytes i = []
  last : ∀ i, 1 ≤ i → i < n → s.inodes.get? i = some (din i)
  super : s.img.get 1 = putSuperblock .empty sb
  low : ∀ b, b < sb.inodestart → b ≠ 1 → s.img.get? b = none

variable {n : ℕ} {type : ℕ → ℤ} {cap : ℕ → ℕ}

theorem ok_of_head {d : Dinode} {ty : ℤ} {len : ℕ} (hty : IsShort ty) (hlen : len < 2 ^ 32)
    (h : SameHead ⟨ty, 0, 0, 1, len, []⟩ d) (hl : d.addrs.length = NDIRECT + 1)
    (ha : ∀ a ∈ d.addrs, a < 2 ^ 32) : d.Ok := by
  have h0 : IsShort 0 := ⟨by decide, by decide⟩
  have h1 : IsShort 1 := ⟨by decide, by decide⟩
  obtain ⟨h₁, h₂, h₃, h₄, h₅⟩ := h
  refine ⟨?_, ?_, ?_, ?_, ?_, hl, ha⟩
  · rwa [h₁]
  · rwa [h₂]
  · rwa [h₃]
  · rwa [h₄]
  · rwa [h₅]

theorem nblocks_mono {a b : ℕ} (h : a ≤ b) : nblocks a ≤ nblocks b :=
  Nat.div_le_div_right (by omega)

theorem ialloc_spec (h : Built n type bytes din s) (hn : n < inodeSlots) (h1 : 1 ≤ n)
    (hty : IsShort (type n)) :
    Post (ialloc (type n)) s (fun r t => r = n ∧ ∃ din', Built (n + 1) type bytes din' t) E := by
  simp only [ialloc, post_bind, post_get, post_modify, h.next, post_winode hn, post_pure]
  let d : Dinode := { zeroDinode with type := type n, nlink := 1 }
  have hd : d.Ok :=
    ok_of_head hty (by decide) ⟨rfl, rfl, rfl, rfl, rfl⟩ zeroDinode_ok.length zeroDinode_ok.addrs
  obtain ⟨hdn, hbn⟩ := h.free n (.inr le_rfl)
  refine ⟨trivial, Function.update din n d, ?_, ?_, ?_, ?_, ?_, ?_, ?_, ?_⟩
  · apply h.laid.transport
    · intro j
      by_cases hj : j = n
      · rw [hj, Function.update_self, hdn]
      · rw [Function.update_of_ne hj]
    · rfl
    · exact fun b hb => wrote_get? hn (.inr hb)
  · rfl
  · intro j hj
    rw [dinodeAt_wrote hd]
    by_cases hjn : j = n
    · rw [if_pos hjn, hjn, Function.update_self]
    · rw [if_neg hjn, Function.update_of_ne hjn]
      exact h.disk j hj
  · intro j hj1 hjn
    by_cases hj : j = n
    · rw [hj, Function.update_self, hbn]
      exact ⟨rfl, rfl, rfl, rfl, rfl⟩
    · rw [Function.update_of_ne hj]
      exact h.head j hj1 (by omega)
  · intro j hj
    rw [Function.update_of_ne (by omega)]
    exact h.free j (by omega)
  · intro j hj1 hjn
    show (s.inodes.set n d).get? j = _
    rw [TMap.get?_set]
    by_cases hj : j = n
    · rw [if_pos hj, hj, Function.update_self]
    · rw [if_neg hj, Function.update_of_ne hj]
      exact h.last j hj1 (by omega)
  · rw [TMap.get, wrote_get? hn (.inl (by decide)), ← TMap.get]
    exact h.super
  · intro b hb hb1
    rw [wrote_get? hn (.inl hb)]
    exact h.low b hb hb1

/-- Appending to an inode. It fails only if the image is too small for files of the
lengths `cap`, or one of these is longer than a file can be. -/
theorem iappend_spec (h : Built n type bytes din s) (hn : n ≤ inodeSlots) (h1 : 1 ≤ i)
    (hin : i < n) (hty : IsShort (type i)) {p : List UInt8}
    (hcap : ∀ j, (Function.update bytes i (bytes i ++ p) j).length ≤ cap j)
    (hdie : FSSIZE < need (fun j => nblocks (cap j)) → ∀ t, E .die t)
    (hassert : (∃ j, MAXFILE * BSIZE < cap j) → ∀ t, E .assert t) :
    Post (iappend i p) s (fun _ t => ∃ din',
      Built n type (Function.update bytes i (bytes i ++ p)) din' t) E := by
  have hi : i < inodeSlots := lt_of_lt_of_le hin hn
  have hhead := h.head i h1 hin
  have hlen : (bytes i).length + p.length ≤ cap i := by
    have := hcap i
    rwa [Function.update_self, List.length_append] at this
  have hneed : need (Function.update (fun j => nblocks (bytes j).length) i
      (nblocks ((bytes i).length + p.length))) ≤ need fun j => nblocks (cap j) := by
    apply need_mono
    intro j
    by_cases hj : j = i
    · rw [hj, Function.update_self]
      exact nblocks_mono hlen
    · rw [Function.update_of_ne hj]
      have := hcap j
      rw [Function.update_of_ne hj] at this
      exact nblocks_mono this
  have hloop := iappendLoop_spec (E := E) (p := p) le_rfl h.laid hi rfl
    (fun hlt => hdie (lt_of_lt_of_le hlt hneed))
    (fun hlt => hassert ⟨i, lt_of_lt_of_le hlt hlen⟩)
  simp only [iappend, post_bind, post_rinode hi, h.disk i hi]
  rw [hhead.2.2.2.2]
  apply hloop.imp
  rintro ⟨d', off⟩ t ⟨hoff, happ⟩
  rw [post_winode hi]
  simp only at hoff
  subst hoff
  let d : Dinode := { d' with size := (bytes i).length + p.length }
  have hhd : SameHead ⟨type i, 0, 0, 1, (bytes i).length + p.length, []⟩ d := by
    obtain ⟨a₁, a₂, a₃, a₄, -⟩ := hhead.trans happ.head
    exact ⟨a₁, a₂, a₃, a₄, rfl⟩
  have haddr : ∀ j, (Function.update din i d j).addrs = (Function.update din i d' j).addrs := by
    intro j
    by_cases hj : j = i
    · rw [hj, Function.update_self, Function.update_self]
    · rw [Function.update_of_ne hj, Function.update_of_ne hj]
  have hd : d.Ok := by
    have hfit := happ.fits i
    rw [Function.update_self, List.length_append] at hfit
    have hl := happ.length i
    have ha := happ.toLaid.addrs_lt (i := i)
    rw [Function.update_self] at hl ha
    exact ok_of_head hty (lt_of_le_of_lt hfit (by decide)) hhd hl ha
  have hnb : (fun j => nblocks (Function.update bytes i (bytes i ++ p) j).length) =
      Function.update (fun j => nblocks (bytes j).length) i
        (nblocks ((bytes i).length + p.length)) := by
    funext j
    by_cases hj : j = i
    · rw [hj, Function.update_self, Function.update_self, List.length_append]
    · rw [Function.update_of_ne hj, Function.update_of_ne hj]
  refine ⟨Function.update din i d, ?_, ?_, ?_, ?_, ?_, ?_, ?_, ?_⟩
  · rw [hnb]
    exact happ.toLaid.transport haddr rfl fun b hb => wrote_get? hi (.inr hb)
  · exact happ.frame.freeinode.trans h.next
  · intro j hj
    rw [dinodeAt_wrote hd]
    by_cases hji : j = i
    · rw [if_pos hji, hji, Function.update_self]
    · rw [if_neg hji, Function.update_of_ne hji, dinodeAt_frame happ.frame.img hj]
      exact h.disk j hj
  · intro j hj1 hjn
    by_cases hj : j = i
    · rw [hj, Function.update_self, Function.update_self, List.length_append]
      exact hhd
    · rw [Function.update_of_ne hj, Function.update_of_ne hj]
      exact h.head j hj1 hjn
  · intro j hj
    rw [Function.update_of_ne (by omega), Function.update_of_ne (by omega)]
    exact h.free j hj
  · intro j hj1 hjn
    show (t.inodes.set i d).get? j = _
    rw [TMap.get?_set]
    by_cases hj : j = i
    · rw [if_pos hj, hj, Function.update_self]
    · rw [if_neg hj, Function.update_of_ne hj, happ.frame.inodes]
      exact h.last j hj1 hjn
  · rw [TMap.get, wrote_get? hi (.inl (by decide)), happ.frame.img 1 (by decide), ← TMap.get]
    exact h.super
  · intro b hb hb1
    rw [wrote_get? hi (.inl hb), happ.frame.img b (lt_trans hb (by decide))]
    exact h.low b hb hb1

theorem appendChunks_spec {cs : List (List UInt8)} (h : Built n type bytes din s)
    (hn : n ≤ inodeSlots) (h1 : 1 ≤ i) (hin : i < n) (hty : IsShort (type i))
    (hcap : ∀ j, (Function.update bytes i (bytes i ++ cs.flatten) j).length ≤ cap j)
    (hdie : FSSIZE < need (fun j => nblocks (cap j)) → ∀ t, E .die t)
    (hassert : (∃ j, MAXFILE * BSIZE < cap j) → ∀ t, E .assert t) :
    Post (appendChunks i cs) s (fun _ t => ∃ din',
      Built n type (Function.update bytes i (bytes i ++ cs.flatten)) din' t) E := by
  induction cs generalizing bytes din s with
  | nil =>
    simp only [appendChunks, post_pure, List.flatten_nil, List.append_nil,
      Function.update_eq_self]
    exact ⟨din, h⟩
  | cons c cs ih =>
    simp only [appendChunks, post_bind]
    have hc : ∀ j, (Function.update bytes i (bytes i ++ c) j).length ≤ cap j := by
      intro j
      have := hcap j
      by_cases hj : j = i
      · rw [hj, Function.update_self] at this ⊢
        simp only [List.flatten_cons, List.length_append] at this ⊢
        omega
      · rwa [Function.update_of_ne hj] at this ⊢
    apply (iappend_spec h hn h1 hin hty hc hdie hassert).imp
    rintro _ t ⟨din₁, h₁⟩
    have hih := ih h₁
    rw [Function.update_idem, Function.update_self, List.append_assoc, ← List.flatten_cons] at hih
    exact hih hcap

end

def Input.content (f : Input) : List UInt8 := f.chunks.flatten

def fileDirent (f : Input) (inum : ℕ) : Dirent := ⟨inum, strncpy DIRSIZ (shortname f.path)⟩

def dotDirent : Dirent := ⟨ROOTINO, strncpy DIRSIZ [46]⟩

def dotdotDirent : Dirent := ⟨ROOTINO, strncpy DIRSIZ [46, 46]⟩

def rootDirents (files : List Input) : List Dirent :=
  dotDirent :: dotdotDirent :: (files.zipIdx 2).map fun p => fileDirent p.1 p.2

def rootBytes (files : List Input) : List UInt8 := (rootDirents files).flatMap Dirent.encode

/-- What inode `i` of the image of `files` contains. -/
def bytesOf (files : List Input) (i : ℕ) : List UInt8 :=
  if i = 0 then [] else if i = ROOTINO then rootBytes files
  else files[i - 2]?.elim [] Input.content

def typeOf (i : ℕ) : ℤ := if i = ROOTINO then T_DIR else T_FILE

/-- The inputs for which `mkfs` neither runs into the end of the image nor into an
assertion. -/
structure Fits (files : List Input) : Prop where
  blocks : need (fun j => nblocks (bytesOf files j).length) ≤ FSSIZE
  sizes : ∀ j, (bytesOf files j).length ≤ MAXFILE * BSIZE
  names : ∀ f ∈ files, SLASH ∉ stripUser f.path

theorem isShort_typeOf (i : ℕ) : IsShort (typeOf i) := by
  unfold typeOf
  split_ifs <;> exact ⟨by decide, by decide⟩

theorem rootDirents_concat (files : List Input) (f : Input) :
    rootDirents (files ++ [f]) = rootDirents files ++ [fileDirent f (files.length + 2)] := by
  simp only [rootDirents, List.zipIdx_append, List.map_append, List.cons_append]
  simp [Nat.add_comm]

theorem rootBytes_append (files more : List Input) :
    rootBytes files <+: rootBytes (files ++ more) := by
  unfold rootBytes rootDirents
  rw [List.zipIdx_append, List.map_append, ← List.cons_append, ← List.cons_append,
    List.flatMap_append]
  exact List.prefix_append _ _

theorem length_rootBytes (files : List Input) :
    (rootBytes files).length = DIRENTSIZE * (files.length + 2) := by
  have hlen : ∀ l : List Dirent, (∀ de ∈ l, de.name.length = DIRSIZ) →
      (l.flatMap Dirent.encode).length = DIRENTSIZE * l.length := by
    intro l
    induction l with
    | nil => intro _; rfl
    | cons de l ih =>
      intro hl
      have hde := hl de List.mem_cons_self
      rw [List.flatMap_cons, List.length_append, ih fun e he => hl e (List.mem_cons_of_mem de he),
        Dirent.encode, List.length_append, Bytes.length_le, hde, List.length_cons]
      simp only [DIRSIZ, DIRENTSIZE]
      omega
  unfold rootBytes
  rw [hlen]
  · simp [rootDirents]
  · intro de hde
    simp only [rootDirents, List.mem_cons, List.mem_map] at hde
    obtain rfl | rfl | ⟨p, -, rfl⟩ := hde <;> exact length_strncpy _ _

theorem length_bytesOf_le (files more : List Input) (i : ℕ) :
    (bytesOf files i).length ≤ (bytesOf (files ++ more) i).length := by
  unfold bytesOf
  split_ifs
  · exact le_rfl
  · exact (rootBytes_append files more).length_le
  · by_cases hlt : i - 2 < files.length
    · rw [List.getElem?_append_left hlt]
    · rw [List.getElem?_eq_none (by omega)]
      exact Nat.zero_le _

theorem bytesOf_file (files : List Input) (j : ℕ) :
    bytesOf files (j + 2) = files[j]?.elim [] Input.content := by
  unfold bytesOf
  rw [if_neg (by omega), if_neg (by simp only [ROOTINO]; omega), Nat.add_sub_cancel]

theorem bytesOf_free (files : List Input) {i : ℕ} (h : i = 0 ∨ files.length + 2 ≤ i) :
    bytesOf files i = [] := by
  rcases h with rfl | h
  · rfl
  · obtain ⟨j, rfl⟩ : ∃ j, i = j + 2 := ⟨i - 2, by omega⟩
    rw [bytesOf_file, List.getElem?_eq_none (by omega)]
    rfl

theorem bytesOf_concat (files : List Input) (f : Input) :
    Function.update (Function.update (bytesOf files) ROOTINO
      (bytesOf files ROOTINO ++ (fileDirent f (files.length + 2)).encode)) (files.length + 2)
      f.content = bytesOf (files ++ [f]) := by
  have hroot : ∀ l, bytesOf l ROOTINO = rootBytes l := fun l => rfl
  funext i
  by_cases hi : i = files.length + 2
  · rw [hi, Function.update_self, bytesOf_file, List.getElem?_append_right le_rfl]
    simp
  · rw [Function.update_of_ne hi]
    by_cases h1 : i = ROOTINO
    · rw [h1, Function.update_self, hroot, hroot, rootBytes, rootBytes, rootDirents_concat,
        List.flatMap_append]
      simp
    · rw [Function.update_of_ne h1]
      unfold bytesOf
      by_cases h0 : i = 0
      · rw [if_pos h0, if_pos h0]
      · rw [if_neg h0, if_neg h0, if_neg h1, if_neg h1]
        simp only [ROOTINO] at h1
        by_cases hlt : i - 2 < files.length
        · rw [List.getElem?_append_left hlt]
        · rw [List.getElem?_eq_none (by omega), List.getElem?_eq_none]
          rw [List.length_append, List.length_singleton]
          omega

section
variable {files more : List Input} {f : Input} {din : ℕ → Dinode} {s : St}
  {E : Exit → St → Prop}

theorem addFile_spec (h : Built (files.length + 2) typeOf (bytesOf files) din s)
    (hn : files.length + 2 < inodeSlots)
    (hE : ¬ Fits (files ++ [f] ++ more) → ∀ e t, E e t) :
    Post (addFile ROOTINO f) s (fun _ t => ∃ din',
      Built (files.length + 3) typeOf (bytesOf (files ++ [f])) din' t) E := by
  let all := files ++ [f] ++ more
  have hdie : FSSIZE < need (fun j => nblocks (bytesOf all j).length) → ∀ t, E .die t :=
    fun hlt => hE (fun hf => absurd hf.blocks (Nat.not_le.2 hlt)) .die
  have hassert : (∃ j, MAXFILE * BSIZE < (bytesOf all j).length) → ∀ t, E .assert t := by
    rintro ⟨j, hj⟩
    exact hE (fun hf => absurd (hf.sizes j) (Nat.not_le.2 hj)) .assert
  have hall : ∀ j, (bytesOf (files ++ [f]) j).length ≤ (bytesOf all j).length :=
    length_bytesOf_le (files ++ [f]) more
  have hfile : (T_FILE : ℤ) = typeOf (files.length + 2) := by
    unfold typeOf
    rw [if_neg (by simp only [ROOTINO]; omega)]
  have hnew : bytesOf files (files.length + 2) = [] := bytesOf_free files (.inr le_rfl)
  have hne : files.length + 2 ≠ ROOTINO := by simp only [ROOTINO]; omega
  simp only [addFile, post_bind, post_ite, post_throw]
  refine ⟨fun hs => hE (fun hf => hf.names f (by simp) hs) _ _, fun _ => ?_⟩
  rw [hfile]
  apply (ialloc_spec h hn (by omega) (isShort_typeOf _)).imp
  rintro inum s₁ ⟨rfl, din₁, h₁⟩
  have hcap₁ : ∀ j, (Function.update (bytesOf files) ROOTINO (bytesOf files ROOTINO ++
      (fileDirent f (files.length + 2)).encode) j).length ≤ (bytesOf all j).length := by
    intro j
    refine le_trans ?_ (hall j)
    rw [← bytesOf_concat]
    by_cases hj : j = files.length + 2
    · rw [hj, Function.update_of_ne hne, hnew]
      exact Nat.zero_le _
    · rw [Function.update_of_ne hj]
  have hroot : ROOTINO < files.length + 2 + 1 := by simp only [ROOTINO]; omega
  apply (iappend_spec h₁ (by omega) (by decide) hroot (isShort_typeOf _) hcap₁ hdie hassert).imp
  rintro _ s₂ ⟨din₂, h₂⟩
  have hchunks : _ → Post (appendChunks (files.length + 2) f.chunks) s₂ _ E := fun hcap =>
    appendChunks_spec h₂ (by omega) (by omega) (by omega) (isShort_typeOf _) hcap hdie hassert
  rw [Function.update_of_ne hne, hnew, List.nil_append, ← Input.content, bytesOf_concat] at hchunks
  exact hchunks hall

theorem addFiles_spec (h : Built (files.length + 2) typeOf (bytesOf files) din s)
    (hn : (files ++ more).length + 2 ≤ inodeSlots)
    (hE : ¬ Fits (files ++ more) → ∀ e t, E e t) :
    Post (addFiles ROOTINO more) s (fun _ t => ∃ din',
      Built ((files ++ more).length + 2) typeOf (bytesOf (files ++ more)) din' t) E := by
  induction more generalizing files din s with
  | nil =>
    simp only [addFiles, post_pure, List.append_nil]
    exact ⟨din, h⟩
  | cons f more ih =>
    have hcons : files ++ f :: more = files ++ [f] ++ more := by simp
    have hlen : (files ++ [f]).length = files.length + 1 := by simp
    rw [hcons] at hn hE ⊢
    simp only [addFiles, post_bind]
    have hn' : files.length + 2 < inodeSlots := by
      rw [List.length_append, hlen] at hn
      omega
    apply (addFile_spec h hn' hE).imp
    rintro _ t ⟨din', ht⟩
    rw [show files.length + 3 = (files ++ [f]).length + 2 by rw [hlen]] at ht
    exact ih ht hn hE

theorem getBit_markUsed (b : Block) (i n j : ℕ) :
    getBit (markUsed b i n) j = (getBit b j || decide (i ≤ j ∧ j < i + n)) := by
  induction n generalizing b i with
  | zero =>
    rw [markUsed, decide_eq_false (by omega), Bool.or_false]
  | succ n ih =>
    rw [markUsed, ih, getBit_setBit, Bool.or_assoc]
    congr 1
    rw [← Bool.decide_or, decide_eq_decide]
    omega

structure Made (files : List Input) (din : ℕ → Dinode) (s : St) : Prop where
  laid : Laid din (fun i => nblocks (bytesOf files i).length) (bytesOf files) s
  next : s.freeinode = files.length + 2
  disk : ∀ i, i < ninodeblocks * IPB → dinodeAt sb s.img.get i = din i
  root : SameHead ⟨T_DIR, 0, 0, 1, ((rootBytes files).length / BSIZE + 1) * BSIZE, []⟩
    (din ROOTINO)
  file : ∀ i, 2 ≤ i → i < files.length + 2 →
    SameHead ⟨T_FILE, 0, 0, 1, (bytesOf files i).length, []⟩ (din i)
  free : ∀ i, i = 0 ∨ files.length + 2 ≤ i → din i = zeroDinode
  last : ∀ i, 1 ≤ i → i < files.length + 2 → s.inodes.get? i = some (din i)
  bitmap : ∀ b, getBit (s.img.get sb.bmapstart) b = decide (b < s.freeblock)
  super : s.img.get 1 = putSuperblock .empty sb
  low : ∀ b, b < sb.inodestart → b ≠ 1 → s.img.get? b = none

/-- `mkfs` starts with an image of zeros. -/
def start : St := ⟨.empty, 1, nmeta, .empty⟩

theorem built_start :
    Built 1 typeOf (fun _ => []) (fun _ => zeroDinode)
      { start with img := start.img.set 1 (putSuperblock .empty sb) } := by
  have hslot : ∀ (V : ℕ → Block) σ, slot V zeroDinode σ = 0 := fun V σ => slot_zeroDinode
  have hget : ∀ b, b ≠ 1 → (start.img.set 1 (putSuperblock .empty sb)).get? b = none := by
    intro b hb
    rw [TMap.get?_set, if_neg hb]
    rfl
  refine ⟨⟨⟨le_rfl, ?_, ⟨?_, ?_⟩, ?_, fun _ => rfl, ?_, ?_, fun _ => Nat.zero_le _, ?_⟩, ?_, ?_,
    ?_⟩, rfl, ?_, ?_, fun _ _ => ⟨rfl, rfl⟩, ?_, ?_, ?_⟩
  · intro b hb
    apply hget b
    rintro rfl
    exact absurd hb (by decide)
  · exact fun p h0 => absurd (hslot _ _) h0
  · exact fun p q h0 => absurd (hslot _ _) h0
  · rintro b ⟨h₁, h₂⟩
    have h₂' : b < nmeta := h₂
    omega
  · intro i bn _
    show slot _ _ _ ≠ 0 ↔ _
    rw [hslot]
    exact ⟨fun h => absurd rfl h, fun h => absurd h (Nat.not_lt_zero bn)⟩
  · intro i off _
    unfold byteAt dataOf blockOf
    rw [hslot, if_pos rfl]
    rfl
  · show nmeta = _
    simp only [hslot, if_true, Nat.add_zero, show nblocks ([] : List UInt8).length = 0 from rfl,
      Finset.sum_const_zero]
  · intro i
    rw [hslot]
    exact ⟨fun h => absurd rfl h, fun h => absurd h (by decide)⟩
  · intro b hb
    by_contra hge
    apply hb
    apply hget b
    rintro rfl
    exact hge (by decide)
  · decide
  · intro i hi
    have := (IBLOCK_range hi).1
    unfold dinodeAt
    rw [TMap.get, hget _ (by
      intro h1
      rw [h1] at this
      exact absurd this (by decide))]
    exact getDinode_empty _
  · intro i h₁ h₂
    omega
  · intro i h₁ h₂
    omega
  · exact TMap.get_set_self _ _ _
  · exact fun b _ hb => hget b hb

theorem bytesOf_nil :
    Function.update (Function.update (fun _ => []) ROOTINO ([] ++ dotDirent.encode)) ROOTINO
      ([] ++ dotDirent.encode ++ dotdotDirent.encode) = bytesOf [] := by
  rw [Function.update_idem]
  funext i
  by_cases hi : i = ROOTINO
  · rw [hi, Function.update_self]
    rfl
  · rw [Function.update_of_ne hi, bytesOf_free]
    simp only [ROOTINO] at hi
    simp only [List.length_nil]
    omega

/-- The size of the root directory is rounded up and the bitmap is written. -/
theorem Built.finish (h : Built (files.length + 2) typeOf (bytesOf files) din s) :
    ∃ din', Made files din'
      { wrote s ROOTINO { din ROOTINO with
          size := ((din ROOTINO).size / BSIZE + 1) * BSIZE } with
        img := (wrote s ROOTINO { din ROOTINO with
          size := ((din ROOTINO).size / BSIZE + 1) * BSIZE }).img.set sb.bmapstart
            (markUsed .empty 0 s.freeblock) } := by
  have hi : ROOTINO < inodeSlots := by decide
  have hlt : ROOTINO < files.length + 2 := by simp only [ROOTINO]; omega
  obtain ⟨h₁, h₂, h₃, h₄, h₅⟩ := h.head ROOTINO (by decide) hlt
  have hsize : (din ROOTINO).size = (rootBytes files).length := h₅
  generalize hd : ({ din ROOTINO with
    size := ((din ROOTINO).size / BSIZE + 1) * BSIZE } : Dinode) = d
  have haddr : d.addrs = (din ROOTINO).addrs := by rw [← hd]
  have hhead : SameHead ⟨T_DIR, 0, 0, 1, ((rootBytes files).length / BSIZE + 1) * BSIZE, []⟩ d := by
    rw [← hd]
    exact ⟨h₁, h₂, h₃, h₄, by rw [hsize]⟩
  have hok : d.Ok := by
    refine ok_of_head ⟨by decide, by decide⟩ ?_ hhead ?_ ?_
    · have := h.laid.fits ROOTINO
      rw [show bytesOf files ROOTINO = rootBytes files from rfl] at this
      simp only [BSIZE, show MAXFILE = 268 from rfl] at this ⊢
      omega
    · rw [haddr]
      exact h.laid.length ROOTINO
    · rw [haddr]
      exact h.laid.addrs_lt
  have hget : ∀ b, b ≠ sb.bmapstart → ((wrote s ROOTINO d).img.set sb.bmapstart
      (markUsed .empty 0 s.freeblock)).get? b = (wrote s ROOTINO d).img.get? b := by
    intro b hb
    rw [TMap.get?_set, if_neg hb]
  have hother : ∀ j, j ≠ ROOTINO → Function.update din ROOTINO d j = din j :=
    fun j hj => Function.update_of_ne hj _ _
  refine ⟨Function.update din ROOTINO d, ?_, h.next, ?_, ?_, ?_, ?_, ?_, ?_, ?_, ?_⟩
  · apply h.laid.transport
    · intro j
      by_cases hj : j = ROOTINO
      · rw [hj, Function.update_self, haddr]
      · rw [hother j hj]
    · rfl
    · intro b hb
      rw [hget b (fun h45 => absurd (h45 ▸ hb) (by decide)), wrote_get? hi (.inr hb)]
  · intro j hj
    have hb : sb.IBLOCK j ≠ sb.bmapstart := by
      simp only [Superblock.IBLOCK, show sb.bmapstart = 45 from rfl,
        show sb.inodestart = 32 from rfl, show ninodeblocks = 13 from rfl,
        show IPB = 16 from rfl] at *
      omega
    unfold dinodeAt
    rw [TMap.get, hget _ hb, ← TMap.get, ← dinodeAt, dinodeAt_wrote hok]
    by_cases hjr : j = ROOTINO
    · rw [if_pos hjr, hjr, Function.update_self]
    · rw [if_neg hjr, hother j hjr]
      exact h.disk j (lt_trans hj (by decide))
  · rw [Function.update_self]
    exact hhead
  · intro j hj2 hjn
    have hjr : j ≠ ROOTINO := by simp only [ROOTINO]; omega
    have := h.head j (by omega) hjn
    rw [typeOf, if_neg hjr] at this
    rw [hother j hjr]
    exact this
  · intro j hj
    rw [hother j (by simp only [ROOTINO] at hlt ⊢; omega)]
    exact (h.free j hj).1
  · intro j hj1 hjn
    show (s.inodes.set ROOTINO d).get? j = _
    rw [TMap.get?_set]
    by_cases hjr : j = ROOTINO
    · rw [if_pos hjr, hjr, Function.update_self]
    · rw [if_neg hjr, hother j hjr]
      exact h.last j hj1 hjn
  · intro b
    rw [show (wrote s ROOTINO d).freeblock = s.freeblock from rfl, TMap.get_set_self,
      getBit_markUsed, getBit_empty, Bool.false_or, decide_eq_decide]
    omega
  · rw [TMap.get, hget 1 (by decide), wrote_get? hi (.inl (by decide)), ← TMap.get]
    exact h.super
  · intro b hb hb1
    rw [hget b (fun h45 => absurd (h45 ▸ hb) (by decide)), wrote_get? hi (.inl hb)]
    exact h.low b hb hb1

theorem main_spec (hn : files.length + 2 ≤ inodeSlots) (hE : ¬ Fits files → ∀ e t, E e t) :
    Post (main files) start (fun _ t => ∃ din, Made files din t) E := by
  have hdie : FSSIZE < need (fun j => nblocks (bytesOf files j).length) → ∀ t, E .die t :=
    fun hlt => hE (fun hf => absurd hf.blocks (Nat.not_le.2 hlt)) .die
  have hassert : (∃ j, MAXFILE * BSIZE < (bytesOf files j).length) → ∀ t, E .assert t := by
    rintro ⟨j, hj⟩
    exact hE (fun hf => absurd (hf.sizes j) (Nat.not_le.2 hj)) .assert
  have hnil : ∀ j, (bytesOf [] j).length ≤ (bytesOf files j).length :=
    length_bytesOf_le [] files
  have hdot : ∀ j, (Function.update (fun _ => ([] : List UInt8)) ROOTINO
      ([] ++ dotDirent.encode) j).length ≤ (bytesOf files j).length := by
    intro j
    refine le_trans ?_ (hnil j)
    by_cases hj : j = ROOTINO
    · rw [hj]
      decide
    · rw [Function.update_of_ne hj]
      exact Nat.zero_le _
  have hi : ROOTINO < inodeSlots := by decide
  simp only [main, post_bind, post_wsect]
  have hroot : (T_DIR : ℤ) = typeOf 1 := rfl
  rw [hroot]
  apply (ialloc_spec built_start (by decide) le_rfl (isShort_typeOf 1)).imp
  rintro _ s₁ ⟨rfl, din₁, h₁⟩
  simp only [ROOTINO, ne_eq, not_true, if_false, post_bind]
  have hdots := iappend_spec (E := E) (p := dotDirent.encode) h₁ (by decide) le_rfl (by decide)
    (isShort_typeOf 1) hdot hdie hassert
  apply hdots.imp
  rintro _ s₂ ⟨din₂, h₂⟩
  have hdotdot : _ → Post (iappend ROOTINO dotdotDirent.encode) s₂ _ E := fun hcap =>
    iappend_spec h₂ (by decide) le_rfl (by decide) (isShort_typeOf 1) hcap hdie hassert
  rw [show (1 : ℕ) = ROOTINO from rfl, Function.update_self, bytesOf_nil] at hdotdot
  apply (hdotdot hnil).imp
  rintro _ s₃ ⟨din₃, h₃⟩
  have h₃' : Built (([] : List Input).length + 2) typeOf (bytesOf []) din₃ s₃ := h₃
  apply (addFiles_spec h₃' hn hE).imp
  rintro _ s₄ ⟨din₄, h₄⟩
  rw [List.nil_append] at h₄
  have hused : s₄.freeblock < BSIZE * 8 := lt_of_le_of_lt h₄.laid.taken (by decide)
  apply (post_rinode hi).2
  rw [h₄.disk ROOTINO hi]
  apply (post_winode hi).2
  simp only [post_get, balloc, post_bind, post_ite, post_throw, post_wsect]
  exact ⟨fun hc => absurd hused hc, fun _ => h₄.finish⟩

end

end Mkfs
end Xv6
