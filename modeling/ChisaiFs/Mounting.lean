import ChisaiFs.Invariant

/-! Mounting a formatted device: the groups load empty, and `fs_create_root` takes data
block 1 and inodes 1 and 2. -/

namespace ChisaiFs
open Cells Outcome Relator Ownership

section Init

variable {fs fs' : Filesystem}

theorem fsCreateRoot_eq_ok (he : fsCreateRoot fs = .ok fs') :
    ∃ fs₁ fs₂ fs₃ fs₄, fsDataAlloc fs = .ok (1, fs₁) ∧ fsSaveDir fs₁ dirInit 1 = .ok fs₂ ∧
      fsInodeAlloc fs₂ = .ok (badblkInode, fs₃) ∧ fsInodeAlloc fs₃ = .ok (rootInode, fs₄) ∧
      fsSaveInode fs₄ rootInodeRec rootInode = .ok fs' := by
  obtain ⟨⟨k, fs₁⟩, h₁, he⟩ := bind_eq_ok.mp he
  obtain ⟨_, ha, he⟩ := bind_eq_ok.mp he
  obtain ⟨fs₂, h₂, he⟩ := bind_eq_ok.mp he
  obtain ⟨⟨i, fs₃⟩, h₃, he⟩ := bind_eq_ok.mp he
  obtain ⟨_, hb, he⟩ := bind_eq_ok.mp he
  obtain ⟨⟨j, fs₄⟩, h₄, he⟩ := bind_eq_ok.mp he
  obtain ⟨_, hc, he⟩ := bind_eq_ok.mp he
  have hk : k = 1 := (ite_error_eq_ok.mp ha).1
  have hi : i = badblkInode := (ite_error_eq_ok.mp hb).1
  have hj : j = rootInode := (ite_error_eq_ok.mp hc).1
  subst hk hi hj
  exact ⟨fs₁, fs₂, fs₃, fs₄, h₁, h₂, h₃, h₄, he⟩

/-- The state with everything loaded, before the root is looked for. -/
def loaded (fs : Filesystem) (sb : Superblock) (grps : BlockGroups) : Filesystem :=
  { sb := sb, blkGrps := grps, d := fs.d, blkgrpSize := blkgrpBytes sb.blockSize }

theorem fsInit_eq_ok (he : fsInit fs = .ok fs') :
    ∃ sb grps, superblockLoad fs.d = .ok sb ∧ blkgrpsLoad fs.d sb.blockSize sb.groups = .ok grps ∧
      ((blkgrpsInodeExist grps rootInode = .ok true ∧ fs' = loaded fs sb grps) ∨
        (blkgrpsInodeExist grps rootInode = .ok false ∧
          fsCreateRoot (loaded fs sb grps) = .ok fs')) := by
  obtain ⟨sb, hsb, he⟩ := bind_eq_ok.mp he
  obtain ⟨_, -, he⟩ := bind_eq_ok.mp he
  obtain ⟨grps, hgrps, he⟩ := bind_eq_ok.mp he
  refine ⟨sb, grps, hsb, hgrps, ?_⟩
  dsimp only at he
  split_ifs at he
  · cases he
  · obtain ⟨exist, hex, he⟩ := bind_eq_ok.mp he
    cases exist with
    | true =>
      left
      obtain ⟨fs₁, h₁, he⟩ := bind_eq_ok.mp he
      obtain ⟨_, -, he⟩ := bind_eq_ok.mp he
      obtain ⟨_, -, he⟩ := bind_eq_ok.mp he
      cases h₁
      cases he
      exact ⟨hex, rfl⟩
    | false =>
      right
      obtain ⟨fs₁, h₁, he⟩ := bind_eq_ok.mp he
      obtain ⟨_, -, he⟩ := bind_eq_ok.mp he
      obtain ⟨_, -, he⟩ := bind_eq_ok.mp he
      cases he
      exact ⟨hex, h₁⟩

end Init

/-- What `superblock_init` fills in for a geometry. -/
def Geometry.superblock (geo : Geometry) : Superblock where
  magic := magic
  blockSize := UInt32.ofNat geo.blkSize
  blocksCnt := UInt32.ofNat (geo.groups * geo.perGroup)
  inodesCnt := UInt32.ofNat (geo.groups * geo.perGroup)
  freeBlocks := UInt32.ofNat (geo.groups * geo.perGroup)
  freeInodes := UInt32.ofNat (geo.groups * geo.perGroup)
  groups := UInt32.ofNat geo.groups
  dataBlockPerGroups := UInt32.ofNat geo.perGroup

/-- A process that has not mounted anything yet. -/
def unmounted (d : Device) : Filesystem :=
  ⟨⟨0, 0, 0, 0, 0, 0, 0, 0⟩, ⟨0, 0, 0, [], []⟩, d, 0⟩

/-- A device full of zeros with a superblock on it. -/
def freshDisk (geo : Geometry) : Exec Device := do
  let sb ← superblockInit (UInt32.ofNat geo.blkSize) (UInt32.ofNat geo.groups)
  superblockSave sb ⟨geo.size, fun _ => 0⟩

/-- `fs_init` on a freshly formatted device full of zeros. -/
def freshMount (geo : Geometry) : Exec Filesystem := do
  let d ← freshDisk geo
  fsInit (unmounted d)

/-- The superblock of the geometry and bitmaps without a set bit. -/
structure Formatted (geo : Geometry) (d : Device) : Prop where
  size : d.size = geo.size
  super : slice d.bytes 0 superblockCodec.width = superblockCodec.enc geo.superblock
  bitmaps : ∀ j < geo.groups, ∀ p < 2 * geo.blkSize,
    d.bytes (geo.blkSize + j * geo.groupSize + p) = 0

section Fresh

variable {geo : Geometry} {d : Device}

theorem Geometry.blkSize_toNat (geo : Geometry) : (UInt32.ofNat geo.blkSize).toNat = geo.blkSize := by
  have h := geo.blkSize_lt
  exact toNat_ofNat_of_lt (by omega)

theorem Geometry.groups_toNat (geo : Geometry) : (UInt32.ofNat geo.groups).toNat = geo.groups := by
  have h := geo.total_lt
  have hle := Nat.le_mul_of_pos_right geo.groups geo.perGroup_pos
  exact toNat_ofNat_of_lt (by omega)

theorem Geometry.perGroup_toNat (geo : Geometry) :
    (UInt32.ofNat geo.blkSize * byteBits).toNat = geo.perGroup := by
  have h := geo.perGroup_lt
  have h8 : byteBits.toNat = 8 := rfl
  rw [UInt32.toNat_mul, geo.blkSize_toNat, h8, Nat.mul_comm]
  exact Nat.mod_eq_of_lt h

theorem Geometry.perGroup_eq (geo : Geometry) :
    UInt32.ofNat geo.blkSize * byteBits = UInt32.ofNat geo.perGroup := by
  rw [← UInt32.toNat_inj, geo.perGroup_toNat, toNat_ofNat_of_lt geo.perGroup_lt]

theorem Geometry.total_eq (geo : Geometry) : UInt32.ofNat geo.blkSize * byteBits *
    UInt32.ofNat geo.groups = UInt32.ofNat (geo.groups * geo.perGroup) := by
  have h := geo.total_lt
  rw [← UInt32.toNat_inj, UInt32.toNat_mul, geo.perGroup_toNat, geo.groups_toNat,
    toNat_ofNat_of_lt h, Nat.mul_comm, Nat.mod_eq_of_lt h]

theorem superblockInit_geometry (geo : Geometry) :
    superblockInit (UInt32.ofNat geo.blkSize) (UInt32.ofNat geo.groups) = .ok geo.superblock := by
  have hmin := geo.min_size
  have hw : superblockCodec.width ≤ (UInt32.ofNat geo.blkSize).toNat := by
    rw [geo.blkSize_toNat, superblockCodec_width]
    omega
  unfold superblockInit Geometry.superblock
  rw [assertThat, if_pos hw, geo.total_eq, geo.perGroup_eq]
  rfl

theorem freshDisk_formatted (h : freshDisk geo = .ok d) : Formatted geo d := by
  unfold freshDisk at h
  rw [superblockInit_geometry, ok_bind, superblockSave, deviceDataSave_eq_ok] at h
  obtain ⟨-, rfl⟩ := h
  have hlen := superblockCodec.length_enc geo.superblock
  have hmin := geo.min_size
  refine ⟨rfl, ?_, fun j hj p hp => ?_⟩
  · rw [← hlen]
    exact slice_overwrite_self _ _ _
  · rw [superblockCodec_width] at hlen
    exact overwrite_outside _ (by omega)

theorem blkgrpBytes_geometry (geo : Geometry) :
    blkgrpBytes (UInt32.ofNat geo.blkSize) = geo.groupSize := by
  have hfits := geo.group_fits
  rw [← geo.blkSize_toNat] at hfits
  rw [(blkgrpBytes_eq hfits).2, geo.blkSize_toNat]
  rfl

theorem bit_of_zeros {v : Bitvec} (h : ∀ x ∈ v.inner, x = 0) (k : ℕ) : v.bit k = false := by
  unfold Bitvec.bit
  cases hk : v.inner[k / 8]? with
  | none => simp
  | some x =>
    rw [h x (List.mem_of_getElem? hk)]
    simp

theorem usedSet_of_zeros {n : ℕ} {ms : List GroupMap}
    (h : ∀ m ∈ ms, ∀ x ∈ m.bitmap.inner, x = 0) : usedSet n ms = ∅ := by
  ext k
  simp only [usedSet, bitAt, Set.mem_ofPred_eq, Set.mem_empty_iff_false, iff_false]
  cases hm : ms[(k - 1).toNat / n]? with
  | none => simp
  | some m => simp [bit_of_zeros (h m (List.mem_of_getElem? hm))]

theorem blkgrpsLoad_maps {grps : BlockGroups}
    (hl : blkgrpsLoad d (UInt32.ofNat geo.blkSize) (UInt32.ofNat geo.groups) = .ok grps) :
    grps.data = (List.range' 0 geo.groups).map
        (fun j => loadedMap d (geo.blkSize + geo.groupSize * j) geo.blkSize) ∧
      grps.inode = (List.range' 0 geo.groups).map
        (fun j => loadedMap d (geo.blkSize + geo.groupSize * j + geo.blkSize) geo.blkSize) := by
  unfold blkgrpsLoad at hl
  split_ifs at hl
  rw [geo.blkSize_toNat, geo.groups_toNat, blkgrpBytes_geometry] at hl
  obtain ⟨⟨data, inode⟩, hload, he⟩ := bind_eq_ok.mp hl
  cases he
  exact blkgrpsLoadFrom_eq_ok hload

theorem superblockLoad_formatted (h : Formatted geo d) :
    superblockLoad d = .ok geo.superblock := by
  have hmin := geo.min_size
  have hw := superblockCodec_width
  have harea := geo.area_fits
  rw [superblockLoad, deviceDataLoad_eq_ok.mpr ⟨by rw [h.size]; omega, h.super⟩, ok_bind,
    superblockCodec.dec_enc]
  rfl

theorem loadedMap_zeros (h : Formatted geo d) {j off : ℕ} (hj : j < geo.groups)
    (hoff : off = 0 ∨ off = geo.blkSize) : ∀ x ∈ (loadedMap d
      (geo.blkSize + geo.groupSize * j + off) geo.blkSize).bitmap.inner, x = 0 := by
  intro x hx
  obtain ⟨p, hp, rfl⟩ := List.mem_iff_getElem.mp hx
  simp only [loadedMap, blkgrpUpdateNext, slice_length] at hp
  simp only [loadedMap, blkgrpUpdateNext, getElem_slice]
  have hz := h.bitmaps j hj (off + p) (by omega)
  rwa [Nat.mul_comm geo.groupSize j, Nat.add_assoc (_ + _)]

theorem blkgrpsLoad_geometry {grps : BlockGroups}
    (hl : blkgrpsLoad d (UInt32.ofNat geo.blkSize) (UInt32.ofNat geo.groups) = .ok grps) :
    GroupsOk geo.blkSize geo.groups grps ∧ AllPrimed grps := by
  have hfits := geo.index_fits
  have hspec := blkgrpsLoad_spec (by rw [geo.blkSize_toNat]; exact geo.blkSize_pos)
    (by rw [geo.blkSize_toNat, geo.groups_toNat]; exact hfits) hl
  rwa [geo.blkSize_toNat, geo.groups_toNat] at hspec

theorem blkgrpsLoad_zeros (h : Formatted geo d) {grps : BlockGroups}
    (hl : blkgrpsLoad d (UInt32.ofNat geo.blkSize) (UInt32.ofNat geo.groups) = .ok grps) :
    (∀ m ∈ grps.data, ∀ x ∈ m.bitmap.inner, x = 0) ∧
      ∀ m ∈ grps.inode, ∀ x ∈ m.bitmap.inner, x = 0 := by
  obtain ⟨hd, hi⟩ := blkgrpsLoad_maps hl
  refine ⟨fun m hm => ?_, fun m hm => ?_⟩
  · rw [hd] at hm
    obtain ⟨j, hj, rfl⟩ := List.mem_map.mp hm
    rw [List.mem_range'_1, Nat.zero_add] at hj
    exact loadedMap_zeros h hj.2 (Or.inl rfl)
  · rw [hi] at hm
    obtain ⟨j, hj, rfl⟩ := List.mem_map.mp hm
    rw [List.mem_range'_1, Nat.zero_add] at hj
    exact loadedMap_zeros h hj.2 (Or.inr rfl)

theorem blkgrpsLoad_formatted (h : Formatted geo d) {grps : BlockGroups}
    (hl : blkgrpsLoad d (UInt32.ofNat geo.blkSize) (UInt32.ofNat geo.groups) = .ok grps) :
    GroupsOk geo.blkSize geo.groups grps ∧ AllPrimed grps ∧
      usedSet geo.perGroup grps.data = ∅ ∧ usedSet geo.perGroup grps.inode = ∅ := by
  obtain ⟨hok, hprimed⟩ := blkgrpsLoad_geometry hl
  obtain ⟨hd, hi⟩ := blkgrpsLoad_zeros h hl
  exact ⟨hok, hprimed, usedSet_of_zeros hd, usedSet_of_zeros hi⟩

def Device.bare (geo : Geometry) (d : Device) : Volume where
  inode i := inodeCodec.dec (slice d.bytes (geo.slotOff (i - 1).toNat) inodeCodec.width)
  block k j := if j < geo.blkSize then d.bytes (geo.blkOff (k - 1).toNat + j) else 0
  inodeUsed := ∅
  dataUsed := ∅

def Volume.withRoot (v : Volume) : Volume :=
  ((((v.useData 1).setDir 1 dirInit).useInode badblkInode).useInode rootInode).setInode rootInode
    rootInodeRec

theorem fsCreateRoot_volume {fs fs' : Filesystem} (h : Mounted geo fs)
    (hp : AllPrimed fs.blkGrps) (he : fsCreateRoot fs = .ok fs') :
    Mounted geo fs' ∧ AllPrimed fs'.blkGrps ∧ volume geo fs' = (volume geo fs).withRoot ∧
      fs'.sb = { fs.sb with
        freeBlocks := fs.sb.freeBlocks - 1, freeInodes := fs.sb.freeInodes - 1 - 1 } := by
  obtain ⟨fs₁, fs₂, fs₃, fs₄, h₁, h₂, h₃, h₄, h₅⟩ := fsCreateRoot_eq_ok he
  obtain ⟨hm₁, -, hv₁⟩ := fsDataAlloc_spec h h₁
  obtain ⟨hm₂, hs₂, hg₂, hv₂⟩ := fsSaveDir_spec hm₁ h₂
  obtain ⟨hm₃, -, hv₃⟩ := fsInodeAlloc_spec hm₂ h₃
  obtain ⟨hm₄, -, hv₄⟩ := fsInodeAlloc_spec hm₃ h₄
  obtain ⟨hm₅, hs₅, hg₅, hv₅⟩ := fsSaveInode_spec hm₄ h₅
  have hp₂ : AllPrimed fs₂.blkGrps := hg₂ ▸ fsDataAlloc_primed h hp h₁
  have hp₄ := fsInodeAlloc_primed hm₃ (fsInodeAlloc_primed hm₂ hp₂ h₃) h₄
  have hv₁ := (hv₁.resolve_left fun hc => absurd hc.1 (by decide)).2.2
  have hv₃ := (hv₃.resolve_left fun hc => absurd hc.1 (by decide)).2.2
  have hv₄ := (hv₄.resolve_left fun hc => absurd hc.1 (by decide)).2.2
  refine ⟨hm₅, hg₅ ▸ hp₄, ?_, ?_⟩
  · rw [hv₅, hv₄, hv₃, hv₂, hv₁]
    rfl
  · rw [hs₅, fsInodeAlloc_sb hm₃ h₄, fsInodeAlloc_sb hm₂ h₃, hs₂, fsDataAlloc_sb h h₁]
    rfl

theorem mounted_loaded (h : d.size = geo.size) {grps : BlockGroups}
    (hg : GroupsOk geo.blkSize geo.groups grps) :
    Mounted geo (loaded (unmounted d) geo.superblock grps) where
  blockSize := geo.blkSize_toNat
  perGroup := toNat_ofNat_of_lt geo.perGroup_lt
  groupSize := blkgrpBytes_geometry geo
  groups := hg
  device := h

theorem fsInit_creates {fs : Filesystem} (h : Formatted geo d)
    (he : fsInit (unmounted d) = .ok fs) :
    ∃ grps, blkgrpsLoad d (UInt32.ofNat geo.blkSize) (UInt32.ofNat geo.groups) = .ok grps ∧
      AllPrimed grps ∧ Mounted geo (loaded (unmounted d) geo.superblock grps) ∧
      volume geo (loaded (unmounted d) geo.superblock grps) = d.bare geo ∧
      blkgrpsInodeExist grps rootInode = .ok false ∧
      fsCreateRoot (loaded (unmounted d) geo.superblock grps) = .ok fs := by
  obtain ⟨sb, grps, hsb, hgrps, hcase⟩ := fsInit_eq_ok he
  obtain ⟨buf, hbuf, hsb⟩ := bind_eq_ok.mp hsb
  cases hsb
  obtain ⟨-, rfl⟩ := deviceDataLoad_eq_ok.mp hbuf
  rw [show (unmounted d).d = d from rfl, h.super, superblockCodec.dec_enc] at hgrps hcase
  obtain ⟨hok, hprimed, hdata, hinode⟩ := blkgrpsLoad_formatted h hgrps
  have hm := mounted_loaded h.size hok
  have hbare : volume geo (loaded (unmounted d) geo.superblock grps) = d.bare geo :=
    Volume.ext rfl rfl hinode hdata
  refine ⟨grps, hgrps, hprimed, hm, hbare, ?_⟩
  rcases hcase with ⟨hex, -⟩ | hcreate
  · have hroot := (blkgrpsInodeExist_eq_ok hm hex).mp rfl
    rw [hbare] at hroot
    exact absurd hroot (Set.notMem_empty rootInode)
  · exact hcreate

theorem fsInit_formatted {fs : Filesystem} (h : Formatted geo d)
    (he : fsInit (unmounted d) = .ok fs) :
    Mounted geo fs ∧ AllPrimed fs.blkGrps ∧ volume geo fs = (d.bare geo).withRoot ∧
      fs.sb = { geo.superblock with
        freeBlocks := geo.superblock.freeBlocks - 1,
        freeInodes := geo.superblock.freeInodes - 1 - 1 } := by
  obtain ⟨grps, -, hprimed, hm, hbare, -, hcreate⟩ := fsInit_creates h he
  obtain ⟨hm', hp', hv, hs⟩ := fsCreateRoot_volume hm hprimed hcreate
  exact ⟨hm', hp', hbare ▸ hv, hs⟩

theorem blankInode_blk (n : ℕ) : blankInode.blk n = 0 := by
  unfold Inode.blk blankInode
  split_ifs <;> simp

theorem rootInodeRec_blk (n : ℕ) : rootInodeRec.blk n = if n = 0 then 1 else 0 := by
  rw [rootInodeRec, blk_inodeAddBlock]
  exact if_congr Iff.rfl rfl (inodeInit_blk n)

theorem withRoot_dir (v : Volume) : v.withRoot.dir 1 = dirInit := by
  have hblock : v.withRoot.block 1 = ((v.useData 1).setDir 1 dirInit).block 1 := by
    simp only [Volume.withRoot, Volume.setInode_block, Volume.useInode_block]
  rw [Volume.dir_congr hblock]
  exact Volume.setDir_dir_same dirInit

theorem withRoot_wellformed {v : Volume} (hi : v.inodeUsed = ∅)
    (hbad : v.inode badblkInode = blankInode) :
    v.withRoot.Wellformed := by
  have hbad' : v.withRoot.inode badblkInode = blankInode := by
    rw [Volume.withRoot, Volume.setInode_inode_of_ne _ (by decide)]
    exact hbad
  have hroot : v.withRoot.inode rootInode = rootInodeRec := Volume.setInode_inode_same _
  have hused : ∀ j, j ∈ v.withRoot.inodeUsed → j = rootInode ∨ j = badblkInode := by
    rintro j (hj | hj | hj)
    · exact Or.inl hj
    · exact Or.inr hj
    · change j ∈ v.inodeUsed at hj
      rw [hi] at hj
      exact absurd hj (Set.notMem_empty j)
  have howns : ∀ a k, v.withRoot.Owns a k → a = (rootInode, 0) ∧ k = 1 := by
    rintro ⟨j, n⟩ k ⟨hj, hk, h0⟩
    rcases hused j hj with rfl | rfl
    · rw [hroot, rootInodeRec_blk] at hk
      split_ifs at hk with hn
      · exact ⟨Prod.ext rfl hn, hk.symm⟩
      · exact absurd hk.symm h0
    · rw [hbad', blankInode_blk] at hk
      exact absurd hk.symm h0
  have hdir : ∀ j, v.withRoot.IsDir j → j = rootInode := by
    rintro j ⟨hj, hm⟩
    refine (hused j hj).resolve_right ?_
    rintro rfl
    rw [hbad'] at hm
    exact absurd hm (by decide)
  have hempty : v.withRoot.dirOf rootInode = dirInit := by
    rw [Volume.dirOf, hroot, rootInodeRec_blk, if_pos rfl]
    exact withRoot_dir v
  refine ⟨⟨?_, ?_⟩, ⟨?_, ?_, ?_, ?_⟩, ⟨Or.inr (Or.inl rfl), hbad', Or.inl rfl, hroot⟩⟩
  · intro a k ha
    rw [(howns a k ha).2]
    exact Or.inl rfl
  · intro a b k ha hb
    rw [(howns a k ha).1, (howns b k hb).1]
  · intro j hj
    rw [hdir j hj, hroot]
    decide
  · intro j hj
    rw [hdir j hj, hempty]
    decide
  · rintro ⟨j, s⟩ r ⟨hj, hs, -⟩
    rw [hdir j hj, hempty] at hs
    exact absurd hs (Nat.not_lt_zero _)
  · rintro ⟨j, s⟩ - r ⟨hj, hs, -⟩ -
    rw [hdir j hj, hempty] at hs
    exact absurd hs (Nat.not_lt_zero _)

theorem freshDisk_slot (h : freshDisk geo = .ok d) (i : ChisaiSize) :
    (d.bare geo).inode i = blankInode := by
  unfold freshDisk at h
  rw [superblockInit_geometry, ok_bind, superblockSave, deviceDataSave_eq_ok] at h
  obtain ⟨-, rfl⟩ := h
  have hlen := superblockCodec.length_enc geo.superblock
  have hmin := geo.min_size
  have hslot := (geo.slot_le_group (i - 1).toNat).1
  rw [superblockCodec_width] at hlen
  have hz : slice (overwrite (fun _ => 0) 0 (superblockCodec.enc geo.superblock))
      (geo.slotOff (i - 1).toNat) inodeCodec.width = slice (fun _ => 0) 0 inodeCodec.width := by
    refine List.ext_getElem (by simp) fun k hk _ => ?_
    rw [getElem_slice, getElem_slice]
    exact overwrite_outside _ (by omega)
  change inodeCodec.dec (slice _ _ _) = _
  rw [hz]
  decide +kernel

theorem freshMount_spec {fs : Filesystem} (h : freshMount geo = .ok fs) :
    Mounted geo fs ∧ AllPrimed fs.blkGrps ∧ (volume geo fs).Wellformed := by
  obtain ⟨d, hd, he⟩ := bind_eq_ok.mp h
  obtain ⟨hm, hp, hv, -⟩ := fsInit_formatted (freshDisk_formatted hd) he
  exact ⟨hm, hp, hv ▸ withRoot_wellformed rfl (freshDisk_slot hd badblkInode)⟩

theorem freshMount_not_regular {fs : Filesystem} (h : freshMount geo = .ok fs) {i : ChisaiSize}
    (hu : i ∈ (volume geo fs).inodeUsed) : ¬ sIsreg ((volume geo fs).inode i).mode := by
  obtain ⟨-, -, hw⟩ := freshMount_spec h
  obtain ⟨d, hd, he⟩ := bind_eq_ok.mp h
  obtain ⟨-, -, hv, -⟩ := fsInit_formatted (freshDisk_formatted hd) he
  rw [hv] at hu
  rcases hu with rfl | rfl | hu
  · rw [hw.root]
    decide
  · rw [hw.bad]
    decide
  · exact absurd hu (Set.notMem_empty i)

end Fresh

/-- One group of 512-byte blocks. -/
def smallDisk : Geometry where
  blkSize := 512
  groups := 1
  size := 512 + (2 * 512 + 8 * 512 * (128 + 512))
  pow2 := ⟨9, rfl⟩
  min_size := le_refl 512
  group_fits := by decide
  index_fits := by decide
  area_fits := by decide

section SmallRuns

variable {σ : Type} {ι : Type} {step : σ → ι → Exec σ} {allowed : σ → ι → Prop}
  [∀ s i, Decidable (allowed s i)]

theorem exists_run (start : Filesystem → σ) (inputs : List ι) {p : σ → Prop} [DecidablePred p]
    (h : Yields (freshMount smallDisk) fun fs =>
      ((runAllowed step allowed (start fs) inputs).any fun s => decide (p s)) = true) :
    ∃ fs s, freshMount smallDisk = .ok fs ∧ Reaches step allowed (start fs) s ∧ p s := by
  obtain ⟨fs, hmount, hrun⟩ := h
  obtain ⟨s, hs, hp⟩ := (Option.any_eq_true _ _).mp hrun
  exact ⟨fs, s, hmount, reaches_of_runAllowed .refl hs, of_decide_eq_true hp⟩

end SmallRuns

end ChisaiFs
