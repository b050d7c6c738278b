import ChisaiFs.Effects

/-! Unmounting and mounting again. The operations never write the superblock or a bitmap
block, so the second mount finds the device as formatted and creates the root once more. -/

namespace ChisaiFs
open Cells Outcome

/-- `fs_destroy`, then `fs_init` in a fresh process on the same device. -/
def remount (fs : Filesystem) : Exec Filesystem := fsInit (unmounted (fsDestroy fs).d)

/-- The counters, the bitmaps, the paths and the contents of `fs'` are those of `fs`. -/
structure Preserved (geo : Geometry) (fs fs' : Filesystem) : Prop where
  freeBlocks : fs'.sb.freeBlocks = fs.sb.freeBlocks
  freeInodes : fs'.sb.freeInodes = fs.sb.freeInodes
  data : ∀ k, geo.InRange k → blkgrpsDataExist fs'.blkGrps k = blkgrpsDataExist fs.blkGrps k
  inode : ∀ i, geo.InRange i → blkgrpsInodeExist fs'.blkGrps i = blkgrpsInodeExist fs.blkGrps i
  paths : ∀ path, fsPathToInode fs' path = fsPathToInode fs path
  reads : ∀ path i x, fsPathToInode fs path = .ok (some (i, x)) → ∀ size off,
    fsReadFile fs' ⟨x, i⟩ size off = fsReadFile fs ⟨x, i⟩ size off

/-- Nothing is there but the root as it was created: block 1 and inodes 1 and 2 are marked
and counted, and no other path resolves. -/
structure OnlyRoot (geo : Geometry) (fs : Filesystem) : Prop where
  freeBlocks : fs.sb.freeBlocks = geo.superblock.freeBlocks - 1
  freeInodes : fs.sb.freeInodes = geo.superblock.freeInodes - 1 - 1
  data : ∀ k, geo.InRange k → blkgrpsDataExist fs.blkGrps k = .ok (decide (k = 1))
  inode : ∀ i, geo.InRange i →
    blkgrpsInodeExist fs.blkGrps i = .ok (decide (i = badblkInode ∨ i = rootInode))
  paths : ∀ path, fsPathToInode fs path =
    .ok (if strtokSlash path = [] then some (rootInode, rootInodeRec) else none)

section Found

variable {geo : Geometry} {d : Device} {fs : Filesystem}

theorem exist_eq_decide {r : Bool} {e : Exec Bool} {p : Prop} [Decidable p] (he : e = .ok r)
    (hr : r = true ↔ p) : e = .ok (decide p) := by
  rw [he]
  congr 1
  rw [Bool.eq_iff_iff, hr, decide_eq_true_iff]

/-- A volume with the root and nothing else. -/
theorem OnlyRoot.of_volume (hm : Mounted geo fs)
    (hblocks : fs.sb.freeBlocks = geo.superblock.freeBlocks - 1)
    (hinodes : fs.sb.freeInodes = geo.superblock.freeInodes - 1 - 1)
    (hdata : ∀ k, k ∈ (volume geo fs).dataUsed ↔ k = 1)
    (hinode : ∀ i, i ∈ (volume geo fs).inodeUsed ↔ i = badblkInode ∨ i = rootInode)
    (hroot : (volume geo fs).inode rootInode = rootInodeRec)
    (hdir : ((volume geo fs).dir 1).size = 0) : OnlyRoot geo fs := by
  refine ⟨hblocks, hinodes, fun k hk => ?_, fun i hi => ?_, fun path => ?_⟩
  · obtain ⟨r, hr⟩ := blkgrpsDataExist_of_inRange hm hk
    exact exist_eq_decide hr ((blkgrpsDataExist_eq_ok hm hr).trans (hdata k))
  · obtain ⟨r, hr⟩ := blkgrpsInodeExist_of_inRange hm hi
    exact exist_eq_decide hr ((blkgrpsInodeExist_eq_ok hm hr).trans (hinode i))
  · have hfind : fsFindInode fs rootInode = .ok (some rootInodeRec) :=
      (fsFindInode_iff hm).mpr ⟨(hinode _).mpr (Or.inr rfl), hroot⟩
    have hblock : fsFindDir fs rootInodeRec.directBlks[0] = .ok (some ((volume geo fs).dir 1)) :=
      (fsFindDir_iff hm).mpr ⟨(hdata _).mpr rfl, rfl⟩
    have hempty : ∀ c, dirFileInodeIdx ((volume geo fs).dir 1) c = .ok 0 := by
      intro c
      rw [dirFileInodeIdx, dirFind, hdir]
      rfl
    rw [fsPathToInode, hfind, ok_bind]
    dsimp only
    cases strtokSlash path with
    | nil => rfl
    | cons token rest =>
      rw [if_neg (List.cons_ne_nil _ _), fsWalk, hblock, ok_bind]
      dsimp only
      rw [hempty]
      rfl

theorem onlyRoot_volume (h : Formatted geo d) (he : fsInit (unmounted d) = .ok fs) :
    (∀ k, k ∈ (volume geo fs).dataUsed ↔ k = 1) ∧
      ∀ i, i ∈ (volume geo fs).inodeUsed ↔ i = badblkInode ∨ i = rootInode := by
  obtain ⟨-, -, hv, -⟩ := fsInit_formatted h he
  refine ⟨fun k => ?_, fun i => ?_⟩
  · rw [hv]
    exact ⟨fun hk => hk.resolve_right (Set.notMem_empty k), Or.inl⟩
  · rw [hv]
    constructor
    · rintro (hi | hi | hi)
      · exact Or.inr hi
      · exact Or.inl hi
      · exact absurd hi (Set.notMem_empty i)
    · rintro (hi | hi)
      · exact Or.inr (Or.inl hi)
      · exact Or.inl hi

theorem onlyRoot_of_fsInit (h : Formatted geo d) (he : fsInit (unmounted d) = .ok fs) :
    OnlyRoot geo fs := by
  obtain ⟨hdata, hinode⟩ := onlyRoot_volume h he
  obtain ⟨hm, -, hv, hs⟩ := fsInit_formatted h he
  refine .of_volume hm (by rw [hs]) (by rw [hs]) hdata hinode ?_ ?_
  · rw [hv]
    exact Volume.setInode_inode_same _
  · rw [hv]
    exact congrArg Dir.size (withRoot_dir _)

end Found

section Unmounted

variable {geo : Geometry} {d d₀ : Device} {fs fs' fs₀ : Filesystem}

theorem Formatted.congr (h : Formatted geo d₀) (hsize : d.size = geo.size)
    (hbytes : ∀ p, geo.Reserved p → d.bytes p = d₀.bytes p) : Formatted geo d := by
  have hmin := geo.min_size
  have hw := superblockCodec_width
  refine ⟨hsize, ?_, fun j hj p hp => ?_⟩
  · rw [← h.super]
    exact slice_congr fun k hk => hbytes _ (Or.inl (by omega))
  · rw [hbytes _ (Or.inr ⟨j, by omega, by omega⟩)]
    exact h.bitmaps j hj p hp

theorem fsCreateRoot_grows (he : fsCreateRoot fs = .ok fs') : Grows geo fs fs' := by
  obtain ⟨fs₁, fs₂, fs₃, fs₄, h₁, h₂, h₃, h₄, h₅⟩ := fsCreateRoot_eq_ok he
  have hdata : Grows geo fs fs₂ :=
    (Relation.ReflTransGen.single (.fill (.alloc h₁))).tail (.fill (fsSaveDir_fill h₂))
  exact ((hdata.tail (.inodeAlloc h₃)).tail (.inodeAlloc h₄)).tail (.saveInode h₅)

theorem fsInit_reserved (h : Formatted geo d) (he : fsInit (unmounted d) = .ok fs) {p : ℕ}
    (hp : geo.Reserved p) : fs.d.bytes p = d.bytes p := by
  obtain ⟨grps, -, -, hm, -, -, hcreate⟩ := fsInit_creates h he
  exact (chain_invariant (fun s => s.d.bytes p = d.bytes p) (fun _ _ h hs => hs.mounted h)
    (fun s t hs hi hst => (hst.reserved hs hp).trans hi) hm rfl
    (fsCreateRoot_grows hcreate).changes).2

theorem formatted_of_run {allowed : Filesystem → Op → Prop} (hmount : freshMount geo = .ok fs₀)
    (hrun : Reaches Op.step allowed fs₀ fs) : Formatted geo fs.d := by
  obtain ⟨d, hd, hinit⟩ := bind_eq_ok.mp hmount
  have hfmt := freshDisk_formatted hd
  obtain ⟨hm, hsame⟩ := run_reserved (fsInit_formatted hfmt hinit).1 hrun
  exact hfmt.congr hm.device fun p hp =>
    (hsame p hp).trans (fsInit_reserved hfmt hinit hp)

end Unmounted

section Returns

variable {geo : Geometry} {d d₀ : Device} {fs fs' gs gs' : Filesystem} {k : ChisaiSize}

theorem fsDataAlloc_of_groups (hg : fs.blkGrps = gs.blkGrps)
    (he : fsDataAlloc gs = .ok (k, gs')) :
    ∃ fs', fsDataAlloc fs = .ok (k, fs') ∧ fs'.blkGrps = gs'.blkGrps := by
  obtain ⟨⟨idx, grps⟩, ha, he⟩ := bind_eq_ok.mp he
  rw [fsDataAlloc, hg, ha, ok_bind]
  dsimp only at he ⊢
  split_ifs at he ⊢
  all_goals
    cases he
    exact ⟨_, rfl, rfl⟩

theorem fsInodeAlloc_of_groups (hg : fs.blkGrps = gs.blkGrps)
    (he : fsInodeAlloc gs = .ok (k, gs')) :
    ∃ fs', fsInodeAlloc fs = .ok (k, fs') ∧ fs'.blkGrps = gs'.blkGrps := by
  obtain ⟨⟨idx, grps⟩, ha, he⟩ := bind_eq_ok.mp he
  rw [fsInodeAlloc, hg, ha, ok_bind]
  dsimp only at he ⊢
  split_ifs at he ⊢
  all_goals
    cases he
    exact ⟨_, rfl, rfl⟩

theorem fsCreateRoot_of_groups (hm : Mounted geo fs) (hm₀ : Mounted geo gs)
    (hg : fs.blkGrps = gs.blkGrps) (he : fsCreateRoot gs = .ok gs') :
    ∃ fs', fsCreateRoot fs = .ok fs' := by
  obtain ⟨gs₁, gs₂, gs₃, gs₄, h₁, h₂, h₃, h₄, -⟩ := fsCreateRoot_eq_ok he
  obtain ⟨hn₁, -, hcase⟩ := fsDataAlloc_spec hm₀ h₁
  have hblk : geo.InRange 1 := (hcase.resolve_left fun hc => absurd hc.1 (by decide)).1
  obtain ⟨hn₂, -, hgs₂, -⟩ := fsSaveDir_spec hn₁ h₂
  have hn₃ := (fsInodeAlloc_spec hn₂ h₃).1
  obtain ⟨-, -, hcase⟩ := fsInodeAlloc_spec hn₃ h₄
  have hroot : geo.InRange rootInode := (hcase.resolve_left fun hc => absurd hc.1 (by decide)).1
  obtain ⟨fs₁, hf₁, hg₁⟩ := fsDataAlloc_of_groups hg h₁
  have hm₁ := (fsDataAlloc_spec hm hf₁).1
  obtain ⟨fs₂, hf₂⟩ := fsSaveDir_ok hm₁ dirInit hblk
  obtain ⟨hm₂, -, hfs₂, -⟩ := fsSaveDir_spec hm₁ hf₂
  obtain ⟨fs₃, hf₃, hg₃⟩ := fsInodeAlloc_of_groups (hfs₂.trans (hg₁.trans hgs₂.symm)) h₃
  have hm₃ := (fsInodeAlloc_spec hm₂ hf₃).1
  obtain ⟨fs₄, hf₄, -⟩ := fsInodeAlloc_of_groups hg₃ h₄
  obtain ⟨fs₅, hf₅⟩ := fsSaveInode_ok (fsInodeAlloc_spec hm₃ hf₄).1 rootInodeRec hroot
  refine ⟨fs₅, ?_⟩
  unfold fsCreateRoot
  simp only [hf₁, hf₂, hf₃, hf₄, ok_bind, assertThat, ↓reduceIte]
  exact hf₅

theorem blkgrpsLoadFrom_formatted (h : Formatted geo d) (h₀ : Formatted geo d₀) {i n : ℕ}
    (hn : i + n ≤ geo.groups) : blkgrpsLoadFrom d geo.blkSize geo.groupSize i n =
      blkgrpsLoadFrom d₀ geo.blkSize geo.groupSize i n := by
  induction n generalizing i with
  | zero => rfl
  | succ n ih =>
    have hload : ∀ off, off = 0 ∨ off = geo.blkSize →
        deviceDataLoad d (geo.blkSize + geo.groupSize * i + off) geo.blkSize =
          deviceDataLoad d₀ (geo.blkSize + geo.groupSize * i + off) geo.blkSize := by
      intro off hoff
      unfold deviceDataLoad
      rw [h.size, h₀.size, slice_congr fun k hk => ?_]
      have hp : off + k < 2 * geo.blkSize := by omega
      rw [Nat.mul_comm geo.groupSize i, Nat.add_assoc (_ + _), h.bitmaps i (by omega) _ hp,
        h₀.bitmaps i (by omega) _ hp]
    have hload₀ := hload 0 (Or.inl rfl)
    rw [Nat.add_zero] at hload₀
    unfold blkgrpsLoadFrom
    dsimp only
    rw [hload₀, hload _ (Or.inr rfl), ih (by omega)]

theorem fsInit_of_created {sb : Superblock} {grps : BlockGroups} (hsb : superblockLoad fs.d = .ok sb)
    (hz : fs.blkgrpSize = 0) (hmagic : sb.magic = magic)
    (hgrps : blkgrpsLoad fs.d sb.blockSize sb.groups = .ok grps)
    (hex : blkgrpsInodeExist grps rootInode = .ok false)
    (hcreate : fsCreateRoot (loaded fs sb grps) = .ok fs')
    (hdir : dirCodec.width ≤ sb.blockSize.toNat) : fsInit fs = .ok fs' := by
  have hinode : inodeCodec.width ≤ inodeSize.toNat := by decide
  unfold loaded at hcreate
  unfold fsInit
  simp only [hsb, hz, hmagic, hgrps, hex, hcreate, hdir, hinode, ok_bind, assertThat, ↓reduceIte,
    ne_eq, not_true_eq_false, Bool.false_eq_true]
  rfl

theorem fsInit_total (h : Formatted geo d) (h₀ : Formatted geo d₀)
    (he : fsInit (unmounted d₀) = .ok gs) : ∃ fs, fsInit (unmounted d) = .ok fs := by
  obtain ⟨grps, hgrps, -, hm₀, -, hex, hcreate⟩ := fsInit_creates h₀ he
  have hload : blkgrpsLoad d (UInt32.ofNat geo.blkSize) (UInt32.ofNat geo.groups) = .ok grps := by
    rw [← hgrps]
    unfold blkgrpsLoad
    rw [geo.blkSize_toNat, geo.groups_toNat, blkgrpBytes_geometry,
      blkgrpsLoadFrom_formatted h h₀ (Nat.zero_add _).le]
  have hm : Mounted geo (loaded (unmounted d) geo.superblock grps) := mounted_loaded h.size hm₀.groups
  obtain ⟨fs, hfs⟩ := fsCreateRoot_of_groups hm hm₀ rfl hcreate
  refine ⟨fs, fsInit_of_created (superblockLoad_formatted h) rfl rfl hload hex hfs ?_⟩
  rw [show geo.superblock.blockSize = UInt32.ofNat geo.blkSize from rfl, geo.blkSize_toNat]
  exact dir_fits geo

end Returns

section Law

variable {geo : Geometry} {fs fs' fs₀ : Filesystem}

theorem OnlyRoot.preserved (h : OnlyRoot geo fs) (h' : OnlyRoot geo fs') :
    Preserved geo fs fs' where
  freeBlocks := h'.freeBlocks.trans h.freeBlocks.symm
  freeInodes := h'.freeInodes.trans h.freeInodes.symm
  data k hk := (h'.data k hk).trans (h.data k hk).symm
  inode i hi := (h'.inode i hi).trans (h.inode i hi).symm
  paths path := (h'.paths path).trans (h.paths path).symm
  reads path i x hx size off := by
    rw [h.paths path] at hx
    have hsome := Except.ok.inj hx
    split_ifs at hsome
    have hroot : rootInodeRec = x := congrArg Prod.snd (Option.some.inj hsome)
    have hzero : x.size = 0 := hroot ▸ rfl
    rw [fsReadFile_empty hzero, fsReadFile_empty hzero]

theorem Preserved.onlyRoot (h : Preserved geo fs fs') (h' : OnlyRoot geo fs') :
    OnlyRoot geo fs where
  freeBlocks := h.freeBlocks.symm.trans h'.freeBlocks
  freeInodes := h.freeInodes.symm.trans h'.freeInodes
  data k hk := (h.data k hk).symm.trans (h'.data k hk)
  inode i hi := (h.inode i hi).symm.trans (h'.inode i hi)
  paths path := (h.paths path).symm.trans (h'.paths path)

/-- Unmounting and mounting again brings the state back exactly when there is nothing to
bring back but the root. -/
theorem remount_preserves (hmount : freshMount geo = .ok fs₀)
    (hrun : Reaches Op.step (fun _ _ => True) fs₀ fs) :
    (∃ fs', remount fs = .ok fs' ∧ Preserved geo fs fs') ↔ OnlyRoot geo fs := by
  have hfmt := formatted_of_run hmount hrun
  constructor
  · rintro ⟨fs', hinit, hpres⟩
    exact hpres.onlyRoot (onlyRoot_of_fsInit hfmt hinit)
  · intro h
    obtain ⟨d, hd, hinit⟩ := bind_eq_ok.mp hmount
    obtain ⟨fs', hfs'⟩ := fsInit_total hfmt (freshDisk_formatted hd) hinit
    exact ⟨fs', hfs', h.preserved (onlyRoot_of_fsInit hfmt hfs')⟩

/-- A directory was made and removed again. -/
theorem remount_preserves_removed :
    ∃ fs₀ fs₁ fs fs', freshMount smallDisk = .ok fs₀ ∧
      (Op.mkdir [47, 100] 0o755).step fs₀ = .ok fs₁ ∧ (Op.remove [47, 100]).step fs₁ = .ok fs ∧
      remount fs = .ok fs' ∧ Preserved smallDisk fs fs' := by
  have hrun : Yields (freshMount smallDisk) fun fs₀ =>
      Yields ((Op.mkdir [47, 100] 0o755).step fs₀) fun fs₁ =>
      Yields ((Op.remove [47, 100]).step fs₁) fun fs =>
        (fs.sb.freeBlocks = fs₀.sb.freeBlocks ∧ fs.sb.freeInodes = fs₀.sb.freeInodes) ∧
        (fs.blkGrps.data.map GroupMap.bitmap = fs₀.blkGrps.data.map GroupMap.bitmap ∧
          fs.blkGrps.inode.map GroupMap.bitmap = fs₀.blkGrps.inode.map GroupMap.bitmap) ∧
        fsFindInode fs rootInode = .ok (some rootInodeRec) ∧
        Finds (fsFindDir fs 1) fun dir => dir.size = 0 := by
    decide +kernel
  obtain ⟨fs₀, hmount, fs₁, hmkdir, fs, hremove, ⟨hblocks, hinodes⟩, ⟨hdata, hinode⟩, hroot,
    dir, hdir, hsize⟩ := hrun
  have hsteps : Reaches Op.step (fun _ _ => True) fs₀ fs :=
    .tail _ (.tail _ .refl trivial hmkdir) trivial hremove
  obtain ⟨d, hd, hinit⟩ := bind_eq_ok.mp hmount
  have hm₀ := (freshMount_spec hmount).1
  have hm := (run_reserved hm₀ hsteps).1
  obtain ⟨hdata₀, hinode₀⟩ := onlyRoot_volume (freshDisk_formatted hd) hinit
  have h₀ := onlyRoot_of_fsInit (freshDisk_formatted hd) hinit
  have honly : OnlyRoot smallDisk fs := by
    refine .of_volume hm (hblocks.trans h₀.freeBlocks) (hinodes.trans h₀.freeInodes) ?_ ?_
      ((fsFindInode_iff hm).mp hroot).2 (((fsFindDir_iff hm).mp hdir).2.symm ▸ hsize)
    · exact fun k => Iff.trans (by simp only [volume, usedSet, bitAt_congr hdata]) (hdata₀ k)
    · exact fun i => Iff.trans (by simp only [volume, usedSet, bitAt_congr hinode]) (hinode₀ i)
  obtain ⟨fs', hfs', hpres⟩ := (remount_preserves hmount hsteps).mpr honly
  exact ⟨fs₀, fs₁, fs, fs', hmount, hmkdir, hremove, hfs', hpres⟩

/-- The directory `/d` is gone after the second mount. -/
theorem remount_loses_directory :
    ∃ fs₀ fs fs', freshMount smallDisk = .ok fs₀ ∧ (Op.mkdir [47, 100] 0o755).step fs₀ = .ok fs ∧
      remount fs = .ok fs' ∧ fsPathToInode fs' [47, 100] ≠ fsPathToInode fs [47, 100] ∧
      ¬ Preserved smallDisk fs fs' := by
  have hrun : Yields (freshMount smallDisk) fun fs₀ =>
      Yields ((Op.mkdir [47, 100] 0o755).step fs₀) fun fs => Yields (remount fs) fun fs' =>
        fsPathToInode fs' [47, 100] ≠ fsPathToInode fs [47, 100] := by
    decide +kernel
  obtain ⟨fs₀, hmount, fs, hs, fs', hfs', hne⟩ := hrun
  exact ⟨fs₀, fs, fs', hmount, hs, hfs', hne, fun hpres => hne (hpres.paths _)⟩

end Law

end ChisaiFs
