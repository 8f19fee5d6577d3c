import Xv6.Fs.MkfsVolume

/-!
What `mkfs` wrote is what the kernel reads: on a freshly made image the lookup of a name in the
root directory finds its file, the file has its bytes, and reading writes nothing.
-/

namespace Xv6
open Hoare RefTable

section
variable {v : Volume} {d : TMap Block} {a : Snap} {s : State} {n : ℕ}

/-- After the boot the kernel shows the inodes and files of the disk. -/
theorem boot_shows (h : Bootable v d) : Post boot (powerOn d) (fun _ t => ∃ V,
    (∀ b, b ≠ v.sb.logstart → V b = d.get b) ∧ inodes v.sb V = inodes v.sb d.get ∧ (∀ n, Undisturbed d.get V (inodes v.sb d.get n)) ∧
    Fs v (.boot v V) t) fun _ _ => False := by
  apply (boot_fs h).imp
  rintro _ t ⟨V, hV, hfs, -⟩
  have hlow := h.vol.wf.log
  have hnlog := h.nlog
  have hhome : ∀ b, v.sb.inodestart ≤ b → V b = d.get b := fun b hb => hV b (by omega)
  exact ⟨V, hV, (h.vol.relog hhome).1, h.vol.relog_undisturbed hhome, hfs⟩

theorem open_boot {α : Type} {V : ℕ → Block} (h : Fs v (.boot v V) s)
    (hB : v.sb.bitmaps.card < v.sb.logCap) (hn : n < v.sb.inodeCount)
    (hty : (inodes v.sb V n).type ≠ 0) {f : ℕ → K α} {Q : α → State → Prop}
    (hf : ∀ ip t, RefTable.Fits (Snap.boot v V).T ip (ROOTDEV, n) →
      Fs v (((Snap.boot v V).take ip n).lock ip) t → Post (f ip) t Q fun _ _ => False) :
    Post (do let ip ← iget ROOTDEV n; ilock ip; f ip) s Q fun _ _ => False := by
  rw [post_bind]
  have hfree : ¬ ∀ i < NINODE, (Snap.boot v V).T i ≠ none := fun hc =>
    hc 1 (by decide) (Snap.boot_free v V Nat.one_ne_zero)
  apply (h.iget_fs (E := fun _ => False) hn fun hc => absurd hc hfree).imp
  rintro ip t ⟨hfits, ht⟩
  rw [post_bind]
  apply (ht.ilock_fs (E := fun _ => False) (Snap.has_take ip _ n) (Set.notMem_empty ip)
    (fun hc => absurd hc (not_le.2 hB)) fun _ h0 => hty h0).imp
  rintro _ u ⟨-, hu⟩
  exact hf ip u hfits hu

end

/-- Reading `n` bytes at `off` of an inode that nothing has open. -/
def readInode (inum : ℕ) (dst : Dst) (off n : ℕ) : K (Option ℕ × Dst) := do
  let ip ← iget ROOTDEV inum
  ilock ip
  readi ip dst off n

/-- Looking a name up in the root directory and reading the whole of what it names: type and
link count of the inode, and what `readi` returns. -/
def readByName (name : List UInt8) : K (Option (ℤ × ℤ × Option ℕ × Dst)) := do
  let dp ← iget ROOTDEV ROOTINO
  ilock dp
  match ← dirlookup dp name with
  | none => return none
  | some (ip, _) =>
      ilock ip
      let d := (← getInode ip).toDinode
      let (r, dst) ← readi ip (.kernel []) 0 d.size
      return some (d.type, d.nlink, r, dst)

section
variable {v : Volume} {d : TMap Block} {V : ℕ → Block} {s : State} {n : ℕ}

/-- Reading a file without holes leaves the disk and the log alone. -/
theorem readInode_boot (h : Fs v (.boot v V) s) (hB : v.sb.bitmaps.card < v.sb.logCap)
    (hn : n < v.sb.inodeCount) (hty : (inodes v.sb V n).type ≠ 0) (hh : n ∉ v.holey) (dst : Dst)
    (off N : ℕ) : Post (readInode n dst off N) s
      (fun _ t => t.store.log.lh = [] ∧ ∀ b, t.store.disk.get b = s.store.disk.get b)
      fun _ _ => False := by
  unfold readInode
  apply open_boot h hB hn hty
  rintro ip t - ht
  have hi : (((Snap.boot v V).take ip n).lock ip).Has ip n := Snap.has_take ip _ n
  have hv : ip ∈ (((Snap.boot v V).take ip n).lock ip).valid := Set.mem_insert ip _
  apply (ht.readi_fs (E := fun _ => False) hi hv (ht.not_holed_read hi hv hh)
    fun hc => absurd hc (not_le.2 hB)).imp
  rintro r u ⟨hu, -⟩
  have hlh := hu.lh_nil rfl
  refine ⟨hlh, fun b => ?_⟩
  rw [hu.disk hlh, h.disk (h.lh_nil rfl)]
  rfl

theorem mapped_iff {a : Snap} {k : ℕ} : Mapped v a n k ↔
    blockOf a.V (inodes v.sb a.V n) (k * DIRENTSIZE / BSIZE) ≠ 0 := by
  constructor
  · intro h h0
    exact h ⟨k * DIRENTSIZE, le_rfl, by unfold DIRENTSIZE; omega, h0⟩
  · rintro h ⟨x, hlo, hhi, h0⟩
    have hx : x / BSIZE = k * DIRENTSIZE / BSIZE := by
      unfold DIRENTSIZE BSIZE at *
      omega
    rw [hx] at h0
    exact h h0

theorem readByName_boot (name : List UInt8) {k : ℕ} (h : Fs v (.boot v V) s)
    (hB : v.sb.bitmaps.card < v.sb.logCap) (hd : IsDir v V (inodes v.sb V ROOTINO))
    (hfind : dirFind V (inodes v.sb V ROOTINO) name = some k)
    (hmap : ∀ j ≤ k, blockOf V (inodes v.sb V ROOTINO) (j * DIRENTSIZE / BSIZE) ≠ 0)
    (hn : (direntAt V (inodes v.sb V ROOTINO) k).inum = n) (hroot : n ≠ ROOTINO)
    (hty : (inodes v.sb V n).type ≠ 0) (hh : n ∉ v.holey) :
    Post (readByName name) s (fun r _ => r = some ((inodes v.sb V n).type, (inodes v.sb V n).nlink,
      some (inodes v.sb V n).size,
      .kernel (readBytes V (inodes v.sb V n) 0 (inodes v.sb V n).size))) fun _ _ => False := by
  have hnoE : Buffers v.sb (fun _ => False) v.sb.bitmaps.card := fun hc => absurd hc (not_le.2 hB)
  have hsize : (inodes v.sb V n).size ≤ MAXFILE * BSIZE := h.vol.size n
  have hfree : (Snap.boot v V).T 1 = none := Snap.boot_free v V Nat.one_ne_zero
  unfold readByName
  apply open_boot h hB h.vol.wf.root
  · rw [hd.type]
    exact (by decide : T_DIR ≠ 0)
  intro dp t hfits ht
  obtain rfl : dp = 0 := by
    rcases hfits with ⟨-, hno⟩ | ⟨r, hr⟩
    · exact absurd (Snap.boot_root v V) (hno 0 1)
    · by_contra hne
      rw [Snap.boot_free v V hne] at hr
      cases hr
  have hi : (((Snap.boot v V).take 0 ROOTINO).lock 0).Has 0 ROOTINO := Snap.has_take 0 _ _
  have hv : 0 ∈ (((Snap.boot v V).take 0 ROOTINO).lock 0).valid := Set.mem_insert 0 _
  apply (dirlookup_fs (E := fun _ => False) ht hi hv hd hnoE (fun j _ hj => ?_)
    fun hc => ?_).seq
  · intro r u hr
    obtain hnone | @⟨k', i, u, hk, hfit, hu⟩ := hr
    · exact absurd (hfind.symm.trans hnone) (Option.some_ne_none k)
    obtain rfl : k = k' := Option.some.inj (hfind.symm.trans hk)
    change Fs v ((((Snap.boot v V).take 0 ROOTINO).lock 0).take i
      (direntAt V (inodes v.sb V ROOTINO) k).inum) u at hu
    change RefTable.Fits _ i (ROOTDEV, (direntAt V (inodes v.sb V ROOTINO) k).inum) at hfit
    rw [hn] at hu hfit
    have hine : i ≠ 0 := by
      rintro rfl
      obtain ⟨r, hr⟩ : ∃ r, (((Snap.boot v V).take 0 ROOTINO).lock 0).T 0 = some (r, ROOTDEV, n) := by
        rcases hfit with ⟨hnone, -⟩ | hsome
        · exact absurd hnone hi.ne_none
        · exact hsome
      exact hroot (Snap.Has.eq ⟨r, hr⟩ hi)
    have hl : i ∉ ((((Snap.boot v V).take 0 ROOTINO).lock 0).take i n).locked := by
      rintro (h0 | h0)
      · exact hine h0
      · exact h0
    apply (hu.ilock_fs (Snap.has_take i _ n) hl hnoE fun _ h0 => hty h0).seq
    rintro _ x ⟨-, hx⟩
    have hix : (((((Snap.boot v V).take 0 ROOTINO).lock 0).take i n).lock i).Has i n :=
      Snap.has_take i _ n
    have hvx : i ∈ (((((Snap.boot v V).take 0 ROOTINO).lock 0).take i n).lock i).valid :=
      Set.mem_insert i _
    have hcopy : (x.itable.get i).toDinode = inodes v.sb V n := (hx.copy i n hix hvx).1
    simp only [post_bind, post_getInode, hcopy]
    apply (hx.readi_fs hix hvx (hx.not_holed_read hix hvx hh) hnoE).imp
    rintro r y ⟨-, hr⟩
    have hlen : readLen (inodes v.sb V n).size 0 (inodes v.sb V n).size = (inodes v.sb V n).size := by
      unfold readLen MAXFILE NDIRECT NINDIRECT BSIZE at *
      rw [if_neg (by omega)]
      omega
    have hres := (hr [] rfl).2 fun j hj => absurd hj (Set.notMem_empty _)
    change r = (some (readLen (inodes v.sb V n).size 0 (inodes v.sb V n).size),
      .kernel ([] ++ readBytes V (inodes v.sb V n) 0
        (readLen (inodes v.sb V n).size 0 (inodes v.sb V n).size))) at hres
    rw [hlen] at hres
    rw [hres, post_pure]
    rfl
  · exact mapped_iff.2 (hmap j (hj k hfind))
  · apply hc 1 (by decide)
    exact (RefTable.take_of_ne (T := (Snap.boot v V).T) (n := (ROOTDEV, ROOTINO))
      Nat.one_ne_zero).trans hfree

end

namespace Mkfs

section
variable {files : List Input} {din : ℕ → Dinode} {s : St}

/-- The room `mkfs` leaves in the log. -/
theorem bitmaps_lt_logCap : sb.bitmaps.card < sb.logCap := by decide

theorem image_of_main (h : main files start = .ok () s) : image files = some s.img := by
  unfold image
  rw [start] at h
  rw [h]

theorem made_of_image {disk : TMap Block} (hn : files.length ≤ 206) (h : image files = some disk) :
    ∃ din s, Made files din s ∧ s.img = disk := by
  unfold image at h
  cases hm : main files start with
  | error e t =>
    rw [start] at hm
    rw [hm] at h
    cases h
  | ok a t =>
    have hslots : files.length + 2 ≤ inodeSlots := le_trans (Nat.add_le_add_right hn 2) (by decide)
    obtain ⟨din, hmade⟩ := (main_spec (E := fun _ _ => True) hslots fun _ _ _ => trivial).of_ok hm
    rw [start] at hm
    rw [hm] at h
    exact ⟨din, t, hmade, Option.some.inj h⟩

/-- What a list of inputs has to be for all of its files to be found again. -/
structure Acceptable (files : List Input) : Prop where
  few : files.length + 2 ≤ NINODES
  distinct : (files.map fun f => shortname f.path).Nodup
  names : ∀ f ∈ files, SLASH ∉ stripUser f.path ∧ shortname f.path ≠ [] ∧ shortname f.path ≠ DOT ∧
    shortname f.path ≠ DOTDOT ∧ (shortname f.path).length ≤ DIRSIZ ∧ 0 ∉ shortname f.path
  sizes : ∀ f ∈ files, f.content.length ≤ MAXFILE * BSIZE
  blocks : need (fun j => nblocks (bytesOf files j).length) ≤ FSSIZE

theorem Acceptable.fits (h : Acceptable files) : Fits files := by
  refine ⟨h.blocks, fun j => ?_, fun f hf => (h.names f hf).1⟩
  unfold bytesOf
  split_ifs
  · exact Nat.zero_le _
  · have hfew := h.few
    rw [length_rootBytes, show MAXFILE = 268 from rfl]
    unfold NINODES DIRENTSIZE BSIZE at *
    omega
  · cases hg : files[j - 2]? with
    | none => exact Nat.zero_le _
    | some f => exact h.sizes f (List.mem_of_getElem? hg)

theorem Acceptable.nodup (h : Acceptable files) : ((rootDirents files).map Dirent.name).Nodup := by
  have hmap : (rootDirents files).map Dirent.name =
      (DOT :: DOTDOT :: files.map fun f => shortname f.path).map (strncpy DIRSIZ) := by
    have hz : (files.zipIdx 2).map (fun p => (fileDirent p.1 p.2).name) =
        ((files.zipIdx 2).map Prod.fst).map fun f => strncpy DIRSIZ (shortname f.path) := by
      rw [List.map_map]
      rfl
    rw [List.zipIdx_map_fst] at hz
    simp only [rootDirents, List.map_cons, List.map_map]
    congr 2
  have hname : ∀ t ∈ DOT :: DOTDOT :: files.map (fun f => shortname f.path),
      t.length ≤ DIRSIZ ∧ 0 ∉ t := by
    intro t ht
    simp only [List.mem_cons, List.mem_map] at ht
    rcases ht with rfl | rfl | ⟨f, hf, rfl⟩
    · exact ⟨by decide, by decide⟩
    · exact ⟨by decide, by decide⟩
    · exact (h.names f hf).2.2.2.2
  rw [hmap]
  apply List.Nodup.map_on
  · intro t ht u hu he
    exact strncpy_inj (hname t ht).1 (hname t ht).2 (hname u hu).1 (hname u hu).2 he
  · rw [List.nodup_cons, List.nodup_cons]
    refine ⟨fun hm => ?_, fun hm => ?_, h.distinct⟩
    · rcases List.mem_cons.1 hm with hd | hm
      · exact absurd hd (by decide)
      · obtain ⟨f, hf, he⟩ := List.mem_map.1 hm
        exact (h.names f hf).2.2.1 he
    · obtain ⟨f, hf, he⟩ := List.mem_map.1 hm
      exact (h.names f hf).2.2.2.1 he

theorem Made.find_file {i : ℕ} (h : Made files din s) (hn : files.length ≤ 206)
    (hnames : ((rootDirents files).map Dirent.name).Nodup) (hi : i < files.length) :
    dirFind s.img.get (din ROOTINO) (shortname files[i].path) = some (i + 2) ∧
      (direntAt s.img.get (din ROOTINO) (i + 2)).inum = i + 2 := by
  have hlen := length_rootDirents files
  have hlt : i + 2 < (rootDirents files).length := by omega
  have hget : (rootDirents files)[i + 2] = fileDirent files[i] (i + 2) := by
    simp only [rootDirents, List.getElem_cons_succ, List.getElem_map, List.getElem_zipIdx]
    rw [Nat.add_comm 2 i]
  have hd : direntAt s.img.get (din ROOTINO) (i + 2) = fileDirent files[i] (i + 2) := by
    rw [h.dirent hn hlt, hget]
  refine ⟨?_, by rw [hd]; rfl⟩
  rw [dirFind, SlotMap.find_eq_some (h.distinct hn hnames)]
  constructor
  · rw [h.root_size]
    unfold direntCount DIRENTSIZE BSIZE
    omega
  · refine ⟨i + 2, ?_⟩
    rw [dirSlots, hd]
    show (if i + 2 = 0 then none else some (strncpy DIRSIZ (strncpy DIRSIZ _), i + 2)) = _
    rw [if_neg (Nat.succ_ne_zero (i + 1)), strncpy_strncpy]

theorem Made.readBytes_eq {i : ℕ} (h : Made files din s) (hlen : (bytesOf files i).length ≤ MAXFILE * BSIZE) :
    readBytes s.img.get (din i) 0 (bytesOf files i).length = bytesOf files i := by
  apply List.ext_getElem
  · rw [length_readBytes]
  · intro j h₁ h₂
    simp only [readBytes, List.getElem_map, List.getElem_range, Nat.zero_add]
    rw [h.laid.contents _ _ (lt_of_lt_of_le h₂ hlen), List.getD_eq_getElem _ _ h₂]

end

/-- Every inode that has a type has all of its blocks. -/
def Solid (disk : TMap Block) : Prop :=
  ∀ i < sb.inodeCount, (dinodeAt sb disk.get i).type ≠ 0 →
    ∀ k < nblocks (dinodeAt sb disk.get i).size, blockOf disk.get (dinodeAt sb disk.get i) k ≠ 0

/-- An image has a hole exactly when the entries of its root directory fill their blocks; on
one that has none, the kernel reads without writing. -/
theorem image_solid_iff {files : List Input} {disk : TMap Block} (hn : files.length ≤ 206)
    (h : image files = some disk) :
    (Solid disk ↔ (files.length + 2) % 64 ≠ 0) ∧
    (Solid disk → ∃ s, BootedOn disk s ∧ ∀ i < sb.inodeCount, (dinodeAt sb disk.get i).type ≠ 0 →
      ∀ dst off n, ∃ r t, readInode i dst off n s = .ok r t ∧ t.store.log.lh = [] ∧
        ∀ b, t.store.disk.get b = s.store.disk.get b) := by
  obtain ⟨din, s, hmade, rfl⟩ := made_of_image hn h
  have hroot : dinodeAt sb s.img.get ROOTINO = din ROOTINO := hmade.disk ROOTINO (by decide)
  have hsize := hmade.root_size
  have hiff : Solid s.img ↔ (files.length + 2) % 64 ≠ 0 := by
    constructor
    · intro hs hz
      have hpos : nblocks (din ROOTINO).size - 1 < nblocks (din ROOTINO).size := by
        rw [hsize]
        unfold nblocks BSIZE DIRENTSIZE
        omega
      have hty : (dinodeAt sb s.img.get ROOTINO).type ≠ 0 := by
        rw [hroot, hmade.root.1]
        exact (by decide : T_DIR ≠ 0)
      have hlast := hs ROOTINO (by decide) hty (nblocks (din ROOTINO).size - 1)
      rw [hroot] at hlast
      rcases (hmade.root_filled hpos hn).1 (hlast hpos) with hne | hlt
      · exact hne hz
      · omega
    · intro hne i hi hty k hk
      have hsolid := (hmade.consistent hn).solid i (fun hh => hne hh.2)
      rw [inodes, if_pos hi] at hsolid
      exact hsolid hty k hk
  refine ⟨hiff, fun hs => ?_⟩
  obtain ⟨_, t, ht, V, -, hin, -, hfs⟩ := (boot_shows (hmade.bootable hn)).returns
  refine ⟨t, ht, fun i hi hty dst off n => ?_⟩
  have hty' : (inodes sb V i).type ≠ 0 := by
    rw [show inodes sb V = inodes sb s.img.get from hin, inodes, if_pos hi]
    exact hty
  exact (readInode_boot hfs bitmaps_lt_logCap hi hty' (fun hh => hiff.1 hs hh.2) dst off n).returns

/-- `62` files fill the block of the root directory, and the image has a hole. -/
theorem image_solid_iff_fullRoot : ∃ disk,
    image (List.replicate 62 ⟨[97], []⟩) = some disk ∧ ¬ Solid disk := by
  obtain ⟨s, hs, -⟩ := main_replicate (n := 62) (by decide) (by decide +kernel) (by decide +kernel)
  have hi := image_of_main hs
  have hn : (List.replicate 62 (⟨[97], []⟩ : Input)).length = 62 := List.length_replicate
  exact ⟨s.img, hi, fun h => (image_solid_iff (by rw [hn]; decide) hi).1.1 h (by rw [hn])⟩

/-- What the kernel finds on the image of acceptable files: each of them, under its name and
with its bytes. The free map marks the blocks that were handed out, and each of those that
hold data is in one slot of one inode. -/
theorem image_readBack {files : List Input} (h : Acceptable files) :
    ∃ s, main files start = .ok () s ∧
      (∃ k, BootedOn s.img k ∧ ∀ f ∈ files, ∃ t, readByName (shortname f.path) k =
        .ok (some (T_FILE, 1, some f.content.length, .kernel f.content)) t) ∧
      (∀ b, getBit (s.img.get sb.bmapstart) b = decide (b < s.freeblock)) ∧
      ∀ b, nmeta ≤ b → b < s.freeblock → ∃! p : ℕ × ℕ, p.1 < sb.inodeCount ∧
        slot s.img.get (dinodeAt sb s.img.get p.1) p.2 = b := by
  have hfew := h.few
  have hn : files.length ≤ 206 := by
    unfold NINODES at hfew
    omega
  have hslots : files.length + 2 ≤ inodeSlots := le_trans hfew (by decide)
  obtain ⟨_, s, hm, din, hmade⟩ :=
    (main_spec (E := fun _ _ => False) hslots (absurd h.fits)).returns
  refine ⟨s, hm, ?_, hmade.bitmap, fun b hlo hhi => ?_⟩
  · obtain ⟨_, t, ht, V, -, hin, hsame, hfs⟩ := (boot_shows (hmade.bootable hn)).returns
    refine ⟨t, ht, fun f hf => ?_⟩
    obtain ⟨i, hi, rfl⟩ := List.getElem_of_mem hf
    have hdin : inodes sb V = din := (show inodes sb V = inodes sb s.img.get from hin).trans
      (hmade.inodes_eq hn)
    have hsame' : Undisturbed s.img.get V (din ROOTINO) := by
      rw [← hmade.inodes_eq hn]
      exact hsame ROOTINO
    have hfile := hmade.file (i + 2) (by omega) (by omega)
    obtain ⟨hfind, hinum⟩ := hmade.find_file hn h.nodup hi
    have hbytes : bytesOf files (i + 2) = files[i].content := by
      rw [bytesOf_file, List.getElem?_eq_getElem hi]
      rfl
    have hread := readByName_boot (n := i + 2) (k := i + 2) (shortname files[i].path) hfs
      bitmaps_lt_logCap
    rw [show inodes (volume files.length).sb V = din from hdin] at hread
    have hmap : ∀ j ≤ i + 2, blockOf V (din ROOTINO) (j * DIRENTSIZE / BSIZE) ≠ 0 := by
      intro j hj
      rw [blockOf, (hsame' _).1]
      refine (hmade.laid.filled ROOTINO _ ?_).2 ?_
      · rw [show MAXFILE = 268 from rfl]
        unfold DIRENTSIZE BSIZE
        omega
      · show _ < nblocks (rootBytes files).length
        rw [length_rootBytes]
        unfold nblocks DIRENTSIZE BSIZE
        omega
    have hlen : (din (i + 2)).size = (bytesOf files (i + 2)).length := hfile.2.2.2.2
    obtain ⟨r, u, hu, hr⟩ := (hread (hsame'.isDir (hmade.isDir hn))
      ((hsame'.dirFind_eq _).trans hfind) hmap (by rw [hsame'.direntAt_eq, hinum])
      (by unfold ROOTINO; omega) (hmade.type_ne_zero (by omega) (by omega))
      fun hh => absurd hh.1 (by unfold ROOTINO; omega)).returns
    refine ⟨u, ?_⟩
    have hbytes' : readBytes V (din (i + 2)) 0 (din (i + 2)).size = files[i].content := by
      have hu' : Undisturbed s.img.get V (din (i + 2)) := by
        rw [← hmade.inodes_eq hn]
        exact hsame (i + 2)
      rw [hlen, ← hbytes]
      refine Eq.trans ?_ (hmade.readBytes_eq (hmade.laid.fits (i + 2)))
      exact List.map_congr_left fun j _ => hu'.byteAt_eq (0 + j)
    rw [hu, hr, hbytes', hlen, hbytes, hfile.1, hfile.2.2.2.1]
  · obtain ⟨p, hp⟩ := hmade.laid.exact b ⟨hlo, hhi⟩
    have hb0 : b ≠ 0 := by
      have : nmeta = 46 := rfl
      omega
    have hplt : ∀ q : ℕ × ℕ, place s.img.get din q = b → q.1 < sb.inodeCount := by
      intro q hq
      by_contra hge
      rw [inodeCount_eq] at hge
      rw [place, hmade.free q.1 (.inr (by omega)), slot_zeroDinode] at hq
      exact hb0 hq.symm
    have hdisk : ∀ q : ℕ × ℕ, q.1 < sb.inodeCount → dinodeAt sb s.img.get q.1 = din q.1 := fun q hq =>
      hmade.disk q.1 hq
    refine ⟨p, ⟨hplt p hp, ?_⟩, ?_⟩
    · show slot s.img.get (dinodeAt sb s.img.get p.1) p.2 = b
      rw [hdisk p (hplt p hp)]
      exact hp
    · rintro q ⟨hq, hqb⟩
      rw [hdisk q hq] at hqb
      exact hmade.laid.ledger.inj q p (by rw [place, hqb]; exact hb0) (hqb.trans hp.symm)

/-- Two files, one of them in two pieces. -/
theorem image_readBack_two : ∃ s k t,
    main [⟨[97], [[1, 2], [3]]⟩, ⟨[98], []⟩] start = .ok () s ∧ BootedOn s.img k ∧
      readByName [97] k = .ok (some (T_FILE, 1, some 3, .kernel [1, 2, 3])) t := by
  obtain ⟨s, hs, ⟨k, hk, hread⟩, -⟩ := image_readBack
    (show Acceptable [⟨[97], [[1, 2], [3]]⟩, ⟨[98], []⟩] from
      ⟨by decide, by decide, by decide, by decide, by decide +kernel⟩)
  obtain ⟨t, ht⟩ := hread _ List.mem_cons_self
  exact ⟨s, k, t, hs, hk, ht⟩

end Mkfs

end Xv6
