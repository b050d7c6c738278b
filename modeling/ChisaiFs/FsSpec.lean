import ChisaiFs.Volume
import ChisaiFs.AllocatorLaw

/-! What the file system's primitives do to the volume. -/

namespace ChisaiFs
open Cells Outcome

def Geometry.InRange (geo : Geometry) (k : ChisaiSize) : Prop :=
  k ≠ 0 ∧ (k - 1).toNat < geo.groups * geo.perGroup

section Columns

variable {geo : Geometry} {ms ms' : List GroupMap} {k : ChisaiSize}

theorem Geometry.total_lt (geo : Geometry) : geo.groups * geo.perGroup < 2 ^ 32 := geo.index_fits

theorem inRange_of_used (hlen : ms.length = geo.groups) (h : k ∈ usedSet geo.perGroup ms) :
    geo.InRange k := by
  have hfits : ms.length * (8 * geo.blkSize) < 2 ^ 32 := by
    rw [hlen]
    exact geo.index_fits
  have hr := sub_one_lt hfits h geo.blkSize_pos
  rw [hlen] at hr
  exact hr

theorem zero_not_used (hlen : ms.length = geo.groups) : (0 : ChisaiSize) ∉ usedSet geo.perGroup ms :=
  fun h => (inRange_of_used hlen h).1 rfl

theorem usedSet_alloc (hlen : ms.length = geo.groups) (h : AllocSpec geo.blkSize 0 ms k ms') :
    (k = 0 ∧ ms' = ms) ∨ (geo.InRange k ∧ k ∉ usedSet geo.perGroup ms ∧
      usedSet geo.perGroup ms' = insert k (usedSet geo.perGroup ms)) := by
  rcases h.cases with ⟨h0, he, -⟩ | ⟨p, hp, hidx, hclear, hbits⟩
  · exact Or.inl ⟨h0, he⟩
  · right
    rw [hlen] at hp
    have hk0 : k ≠ 0 := by
      rintro rfl
      rw [UInt32.toNat_zero] at hidx
      omega
    have hkp : (k - 1).toNat = p := by
      rw [sub_one_toNat hk0]
      omega
    refine ⟨⟨hk0, hkp ▸ hp⟩, ?_, ?_⟩
    · intro hk
      change bitAt (8 * geo.blkSize) ms (k - 1).toNat = true at hk
      rw [hkp, hclear] at hk
      cases hk
    · ext j
      change bitAt (8 * geo.blkSize) ms' (j - 1).toNat = true ↔ _
      rw [hbits, Bool.or_eq_true, beq_iff_eq, Set.mem_insert_iff, ← hkp]
      refine or_congr ⟨fun hj => ?_, fun hj => by rw [hj]⟩ Iff.rfl
      by_contra hne
      exact sub_one_injective hne hj

theorem usedSet_release (h : (k = 0 ∧ ms' = ms) ∨ (k ≠ 0 ∧ ReleaseSpec geo.blkSize ms k ms'))
    (hlen : ms.length = geo.groups) :
    usedSet geo.perGroup ms' = usedSet geo.perGroup ms \ {k} := by
  rcases h with ⟨rfl, rfl⟩ | ⟨hk, hs⟩
  · exact (Set.sdiff_singleton_eq_self (zero_not_used hlen)).symm
  · ext j
    change bitAt (8 * geo.blkSize) ms' (j - 1).toNat = true ↔ _
    rw [hs.bits, Bool.and_eq_true, bne_iff_ne, Set.mem_sdiff, Set.mem_singleton_iff, and_comm]
    refine and_congr Iff.rfl ⟨fun hj he => hj (by rw [he]), fun hj => sub_one_injective hj⟩

end Columns

section Spec

variable {geo : Geometry} {fs fs' : Filesystem}

theorem Mounted.withDevice (h : Mounted geo fs) (d : Device) (hd : d.size = fs.d.size) :
    Mounted geo { fs with d := d } :=
  ⟨h.blockSize, h.perGroup, h.groupSize, h.groups, hd.trans h.device⟩

theorem Mounted.withGroups (h : Mounted geo fs) {sb : Superblock} {grps : BlockGroups}
    (hb : sb.blockSize = fs.sb.blockSize) (hn : sb.dataBlockPerGroups = fs.sb.dataBlockPerGroups)
    (hg : GroupsOk geo.blkSize geo.groups grps) :
    Mounted geo { fs with sb := sb, blkGrps := grps } :=
  ⟨hb ▸ h.blockSize, hn ▸ h.perGroup, h.groupSize, hg, h.device⟩

theorem Mounted.dataUsed_inRange (h : Mounted geo fs) {k : ChisaiSize}
    (hk : k ∈ (volume geo fs).dataUsed) : geo.InRange k :=
  inRange_of_used h.groups.data_length hk

theorem Mounted.inodeUsed_inRange (h : Mounted geo fs) {i : ChisaiSize}
    (hi : i ∈ (volume geo fs).inodeUsed) : geo.InRange i :=
  inRange_of_used h.groups.inode_length hi

theorem blkgrpsDataExist_eq_ok (h : Mounted geo fs) {k : ChisaiSize} {r : Bool}
    (he : blkgrpsDataExist fs.blkGrps k = .ok r) : r = true ↔ k ∈ (volume geo fs).dataUsed := by
  have hr := blkgrpsExist_eq_ok h.groups.pos h.groups.num
    (by rw [h.groups.data_length]; exact h.groups.fits) he
  rw [hr]
  rfl

theorem blkgrpsInodeExist_eq_ok (h : Mounted geo fs) {i : ChisaiSize} {r : Bool}
    (he : blkgrpsInodeExist fs.blkGrps i = .ok r) : r = true ↔ i ∈ (volume geo fs).inodeUsed := by
  have hr := blkgrpsExist_eq_ok h.groups.pos h.groups.num
    (by rw [h.groups.inode_length]; exact h.groups.fits) he
  rw [hr]
  rfl

theorem blkgrpsDataExist_of_inRange (h : Mounted geo fs) {k : ChisaiSize} (hk : geo.InRange k) :
    ∃ r, blkgrpsDataExist fs.blkGrps k = .ok r :=
  blkgrpsExist_ok h.groups.pos h.groups.num h.groups.data
    (by rw [h.groups.data_length]; exact hk.2)

theorem blkgrpsInodeExist_of_inRange (h : Mounted geo fs) {i : ChisaiSize} (hi : geo.InRange i) :
    ∃ r, blkgrpsInodeExist fs.blkGrps i = .ok r :=
  blkgrpsExist_ok h.groups.pos h.groups.num h.groups.inode
    (by rw [h.groups.inode_length]; exact hi.2)

theorem blkgrpsAlloc_eq_ok {b g : ℕ} {grps grps' : BlockGroups} (h : GroupsOk b g grps)
    (kind : MapKind) {k : ChisaiSize} (he : blkgrpsAlloc kind grps = .ok (k, grps')) :
    ∃ ms', grps' = grps.withMaps kind ms' ∧ AllocSpec b 0 (grps.maps kind) k ms' := by
  by_cases hp : FirstPrimed (grps.maps kind)
  · obtain ⟨idx, ms', he', hs⟩ := (blkgrpsAlloc_spec h kind).1 hp
    rw [he'] at he
    cases he
    exact ⟨ms', rfl, hs⟩
  · rw [(blkgrpsAlloc_spec h kind).2 hp] at he
    cases he

theorem fsDataAlloc_eq_ok (h : Mounted geo fs) {k : ChisaiSize}
    (he : fsDataAlloc fs = .ok (k, fs')) :
    ∃ ms', AllocSpec geo.blkSize 0 fs.blkGrps.data k ms' ∧
      fs' = { fs with
        blkGrps := { fs.blkGrps with data := ms' }
        sb := { fs.sb with freeBlocks := fs.sb.freeBlocks - if k = 0 then 0 else 1 } } := by
  unfold fsDataAlloc at he
  obtain ⟨⟨idx, grps⟩, ha, he⟩ := bind_eq_ok.mp he
  obtain ⟨ms', rfl, hs⟩ := blkgrpsAlloc_eq_ok h.groups .data ha
  refine ⟨ms', ?_⟩
  dsimp only at he
  split_ifs at he with h0
  · cases he
    rw [h0] at hs
    exact ⟨hs, by simp [BlockGroups.withMaps]⟩
  · cases he
    exact ⟨hs, by simp [BlockGroups.withMaps, h0]⟩

theorem fsInodeAlloc_eq_ok (h : Mounted geo fs) {i : ChisaiSize}
    (he : fsInodeAlloc fs = .ok (i, fs')) :
    ∃ ms', AllocSpec geo.blkSize 0 fs.blkGrps.inode i ms' ∧
      fs' = { fs with
        blkGrps := { fs.blkGrps with inode := ms' }
        sb := { fs.sb with freeInodes := fs.sb.freeInodes - if i = 0 then 0 else 1 } } := by
  unfold fsInodeAlloc at he
  obtain ⟨⟨idx, grps⟩, ha, he⟩ := bind_eq_ok.mp he
  obtain ⟨ms', rfl, hs⟩ := blkgrpsAlloc_eq_ok h.groups .inode ha
  refine ⟨ms', ?_⟩
  dsimp only at he
  split_ifs at he with h0
  · cases he
    rw [h0] at hs
    exact ⟨hs, by simp [BlockGroups.withMaps]⟩
  · cases he
    exact ⟨hs, by simp [BlockGroups.withMaps, h0]⟩

theorem fsDataAlloc_spec (h : Mounted geo fs) {k : ChisaiSize}
    (he : fsDataAlloc fs = .ok (k, fs')) :
    Mounted geo fs' ∧ fs'.d = fs.d ∧ ((k = 0 ∧ volume geo fs' = volume geo fs) ∨
      (geo.InRange k ∧ k ∉ (volume geo fs).dataUsed ∧
        volume geo fs' = (volume geo fs).useData k)) := by
  obtain ⟨ms', hs, rfl⟩ := fsDataAlloc_eq_ok h he
  refine ⟨h.withGroups rfl rfl (h.groups.withMaps .data hs.ok ?_), rfl, ?_⟩
  · exact hs.length.trans h.groups.data_length
  · rcases usedSet_alloc h.groups.data_length hs with ⟨h0, rfl⟩ | ⟨hr, hn, hu⟩
    · exact Or.inl ⟨h0, rfl⟩
    · exact Or.inr ⟨hr, hn, Volume.ext rfl rfl rfl hu⟩

theorem fsInodeAlloc_spec (h : Mounted geo fs) {i : ChisaiSize}
    (he : fsInodeAlloc fs = .ok (i, fs')) :
    Mounted geo fs' ∧ fs'.d = fs.d ∧ ((i = 0 ∧ volume geo fs' = volume geo fs) ∨
      (geo.InRange i ∧ i ∉ (volume geo fs).inodeUsed ∧
        volume geo fs' = (volume geo fs).useInode i)) := by
  obtain ⟨ms', hs, rfl⟩ := fsInodeAlloc_eq_ok h he
  refine ⟨h.withGroups rfl rfl (h.groups.withMaps .inode hs.ok ?_), rfl, ?_⟩
  · exact hs.length.trans h.groups.inode_length
  · rcases usedSet_alloc h.groups.inode_length hs with ⟨h0, rfl⟩ | ⟨hr, hn, hu⟩
    · exact Or.inl ⟨h0, rfl⟩
    · exact Or.inr ⟨hr, hn, Volume.ext rfl rfl hu rfl⟩

theorem fsDataAlloc_primed (h : Mounted geo fs) (hp : AllPrimed fs.blkGrps) {k : ChisaiSize}
    (he : fsDataAlloc fs = .ok (k, fs')) : AllPrimed fs'.blkGrps := by
  obtain ⟨ms', hs, rfl⟩ := fsDataAlloc_eq_ok h he
  exact ⟨hs.primed hp.1, hp.2⟩

theorem fsInodeAlloc_primed (h : Mounted geo fs) (hp : AllPrimed fs.blkGrps) {i : ChisaiSize}
    (he : fsInodeAlloc fs = .ok (i, fs')) : AllPrimed fs'.blkGrps := by
  obtain ⟨ms', hs, rfl⟩ := fsInodeAlloc_eq_ok h he
  exact ⟨hp.1, hs.primed hp.2⟩

theorem fsDataAlloc_sb (h : Mounted geo fs) {k : ChisaiSize}
    (he : fsDataAlloc fs = .ok (k, fs')) : fs'.sb =
      { fs.sb with freeBlocks := fs.sb.freeBlocks - if k = 0 then 0 else 1 } := by
  obtain ⟨ms', hs, rfl⟩ := fsDataAlloc_eq_ok h he
  rfl

theorem fsInodeAlloc_sb (h : Mounted geo fs) {i : ChisaiSize}
    (he : fsInodeAlloc fs = .ok (i, fs')) : fs'.sb =
      { fs.sb with freeInodes := fs.sb.freeInodes - if i = 0 then 0 else 1 } := by
  obtain ⟨ms', hs, rfl⟩ := fsInodeAlloc_eq_ok h he
  rfl

theorem fsDataRelease_eq_ok (h : Mounted geo fs) {k : ChisaiSize}
    (he : fsDataRelease fs k = .ok fs') :
    ∃ ms', ((k = 0 ∧ ms' = fs.blkGrps.data) ∨
        (k ≠ 0 ∧ ReleaseSpec geo.blkSize fs.blkGrps.data k ms')) ∧
      fs' = { fs with
        blkGrps := { fs.blkGrps with data := ms' }
        sb := { fs.sb with freeBlocks := fs.sb.freeBlocks + 1 } } := by
  obtain ⟨grps, hg, he⟩ := bind_eq_ok.mp he
  obtain ⟨ms', rfl, hs⟩ := blkgrpsKindRelease_spec h.groups .data hg
  cases he
  exact ⟨ms', hs, rfl⟩

theorem fsInodeRelease_eq_ok (h : Mounted geo fs) {i : ChisaiSize}
    (he : fsInodeRelease fs i = .ok fs') :
    ∃ ms', ((i = 0 ∧ ms' = fs.blkGrps.inode) ∨
        (i ≠ 0 ∧ ReleaseSpec geo.blkSize fs.blkGrps.inode i ms')) ∧
      fs' = { fs with
        blkGrps := { fs.blkGrps with inode := ms' }
        sb := { fs.sb with freeInodes := fs.sb.freeInodes + 1 } } := by
  obtain ⟨grps, hg, he⟩ := bind_eq_ok.mp he
  obtain ⟨ms', rfl, hs⟩ := blkgrpsKindRelease_spec h.groups .inode hg
  cases he
  exact ⟨ms', hs, rfl⟩

theorem releasedMaps_ok {b : ℕ} {ms ms' : List GroupMap} {k : ChisaiSize} (hms : MapsOk b ms)
    (h : (k = 0 ∧ ms' = ms) ∨ (k ≠ 0 ∧ ReleaseSpec b ms k ms')) :
    MapsOk b ms' ∧ ms'.length = ms.length := by
  rcases h with ⟨-, rfl⟩ | ⟨-, hs⟩
  · exact ⟨hms, rfl⟩
  · exact ⟨hs.ok, hs.length⟩

theorem fsDataRelease_spec (h : Mounted geo fs) {k : ChisaiSize}
    (he : fsDataRelease fs k = .ok fs') :
    Mounted geo fs' ∧ fs'.d = fs.d ∧ volume geo fs' = (volume geo fs).freeData k := by
  obtain ⟨ms', hs, rfl⟩ := fsDataRelease_eq_ok h he
  obtain ⟨hok, hlen⟩ := releasedMaps_ok h.groups.data hs
  exact ⟨h.withGroups rfl rfl
    (h.groups.withMaps .data hok (hlen.trans h.groups.data_length)), rfl,
    Volume.ext rfl rfl rfl (usedSet_release hs h.groups.data_length)⟩

theorem fsInodeRelease_spec (h : Mounted geo fs) {i : ChisaiSize}
    (he : fsInodeRelease fs i = .ok fs') :
    Mounted geo fs' ∧ fs'.d = fs.d ∧ volume geo fs' = (volume geo fs).freeInode i := by
  obtain ⟨ms', hs, rfl⟩ := fsInodeRelease_eq_ok h he
  obtain ⟨hok, hlen⟩ := releasedMaps_ok h.groups.inode hs
  exact ⟨h.withGroups rfl rfl
    (h.groups.withMaps .inode hok (hlen.trans h.groups.inode_length)), rfl,
    Volume.ext rfl rfl (usedSet_release hs h.groups.inode_length) rfl⟩

theorem fsDataRelease_ok (h : Mounted geo fs) {k : ChisaiSize} (hk : k ≠ 0 → geo.InRange k) :
    ∃ fs', fsDataRelease fs k = .ok fs' := by
  unfold fsDataRelease blkgrpsDataRelease
  by_cases h0 : k = 0
  · subst h0
    exact ⟨_, rfl⟩
  · obtain ⟨ms, hms⟩ := blkgrpsRelease_ok h.groups.pos h.groups.num h.groups.data
      (k := k) (by rw [h.groups.data_length]; exact (hk h0).2)
    rw [hms]
    exact ⟨_, rfl⟩

theorem fsInodeRelease_ok (h : Mounted geo fs) {i : ChisaiSize} (hi : geo.InRange i) :
    ∃ fs', fsInodeRelease fs i = .ok fs' := by
  obtain ⟨ms, hms⟩ := blkgrpsRelease_ok h.groups.pos h.groups.num h.groups.inode
    (k := i) (by rw [h.groups.inode_length]; exact hi.2)
  rw [fsInodeRelease, blkgrpsInodeRelease, hms]
  exact ⟨_, rfl⟩

theorem fsSaveInode_spec (h : Mounted geo fs) {x : Inode} {i : ChisaiSize}
    (he : fsSaveInode fs x i = .ok fs') :
    Mounted geo fs' ∧ fs'.sb = fs.sb ∧ fs'.blkGrps = fs.blkGrps ∧
      volume geo fs' = (volume geo fs).setInode i x := by
  unfold fsSaveInode inodeSave at he
  obtain ⟨d, hd, he⟩ := bind_eq_ok.mp he
  cases he
  obtain ⟨-, rfl⟩ := deviceDataSave_eq_ok.mp hd
  refine ⟨h.withDevice _ rfl, rfl, rfl, volume_overwrite_slot i x _ ?_⟩
  rw [fsInodeToOffset_eq h]

theorem fsSaveInode_ok (h : Mounted geo fs) (x : Inode) {i : ChisaiSize} (hi : geo.InRange i) :
    ∃ fs', fsSaveInode fs x i = .ok fs' := by
  have hend := geo.slot_end_le hi.2
  have hw := inodeCodec_width
  have hfit : fsInodeToOffset fs i + (inodeCodec.enc x).length ≤ fs.d.size := by
    rw [inodeCodec.length_enc, fsInodeToOffset_eq h, h.device]
    omega
  rw [fsSaveInode, inodeSave, deviceDataSave_eq_ok.mpr ⟨hfit, rfl⟩]
  exact ⟨_, rfl⟩

theorem deviceDataSave_block (h : Mounted geo fs) {k : ChisaiSize} {off : ℕ} {bs : List UInt8}
    {d : Device} (hfit : off + bs.length ≤ geo.blkSize)
    (hd : deviceDataSave fs.d (off + fsDataToOffset fs k) bs = .ok d) :
    Mounted geo { fs with d := d } ∧
      volume geo { fs with d := d } = (volume geo fs).writeBlock k off bs := by
  obtain ⟨-, rfl⟩ := deviceDataSave_eq_ok.mp hd
  refine ⟨h.withDevice _ rfl, volume_overwrite_block k off bs _ hfit ?_⟩
  rw [fsDataToOffset_eq h, Nat.add_comm]

theorem deviceDataSave_block_ok (h : Mounted geo fs) {k : ChisaiSize} {off : ℕ} {bs : List UInt8}
    (hk : geo.InRange k) (hfit : off + bs.length ≤ geo.blkSize) :
    ∃ d, deviceDataSave fs.d (off + fsDataToOffset fs k) bs = .ok d := by
  have hend := geo.blk_end_le hk.2
  refine ⟨_, deviceDataSave_eq_ok.mpr ⟨?_, rfl⟩⟩
  rw [fsDataToOffset_eq h, h.device]
  omega

theorem slice_volume_block (k : ChisaiSize) {off n : ℕ} (hfit : off + n ≤ geo.blkSize) :
    slice fs.d.bytes (geo.blkOff (k - 1).toNat + off) n = slice ((volume geo fs).block k) off n := by
  refine List.ext_getElem (by simp) fun j hj _ => ?_
  rw [slice_length] at hj
  have hlt : off + j < geo.blkSize := by omega
  simp [volume, hlt, Nat.add_assoc]

theorem deviceDataLoad_block (h : Mounted geo fs) {k : ChisaiSize} {off n : ℕ} {bs : List UInt8}
    (hfit : off + n ≤ geo.blkSize)
    (hd : deviceDataLoad fs.d (off + fsDataToOffset fs k) n = .ok bs) :
    bs = slice ((volume geo fs).block k) off n := by
  obtain ⟨-, rfl⟩ := deviceDataLoad_eq_ok.mp hd
  rw [fsDataToOffset_eq h, Nat.add_comm, slice_volume_block k hfit]

theorem deviceDataLoad_block_ok (h : Mounted geo fs) {k : ChisaiSize} {off n : ℕ}
    (hk : geo.InRange k) (hfit : off + n ≤ geo.blkSize) :
    deviceDataLoad fs.d (off + fsDataToOffset fs k) n =
      .ok (slice ((volume geo fs).block k) off n) := by
  have hend := geo.blk_end_le hk.2
  rw [deviceDataLoad_eq_ok, fsDataToOffset_eq h, Nat.add_comm off, slice_volume_block k hfit,
    h.device]
  exact ⟨by omega, rfl⟩

theorem dir_fits (geo : Geometry) : dirCodec.width ≤ geo.blkSize := by
  have h := geo.min_size
  have hw := dirCodec_width
  omega

theorem fsSaveDir_spec (h : Mounted geo fs) {dir : Dir} {k : ChisaiSize}
    (he : fsSaveDir fs dir k = .ok fs') :
    Mounted geo fs' ∧ fs'.sb = fs.sb ∧ fs'.blkGrps = fs.blkGrps ∧
      volume geo fs' = (volume geo fs).setDir k dir := by
  unfold fsSaveDir dirSave at he
  obtain ⟨d, hd, he⟩ := bind_eq_ok.mp he
  cases he
  rw [← Nat.zero_add (fsDataToOffset fs k)] at hd
  have hfit : 0 + (dirCodec.enc dir).length ≤ geo.blkSize := by
    rw [dirCodec.length_enc, Nat.zero_add]
    exact dir_fits geo
  obtain ⟨hm, hv⟩ := deviceDataSave_block h hfit hd
  exact ⟨hm, rfl, rfl, hv⟩

theorem fsSaveDir_ok (h : Mounted geo fs) (dir : Dir) {k : ChisaiSize}
    (hk : geo.InRange k) :
    ∃ fs', fsSaveDir fs dir k = .ok fs' := by
  have hfit : 0 + (dirCodec.enc dir).length ≤ geo.blkSize := by
    rw [dirCodec.length_enc, Nat.zero_add]
    exact dir_fits geo
  obtain ⟨d, hd⟩ := deviceDataSave_block_ok h hk hfit
  rw [Nat.zero_add] at hd
  rw [fsSaveDir, dirSave, hd]
  exact ⟨_, rfl⟩

theorem fsFindInode_eq_ok (h : Mounted geo fs) {i : ChisaiSize} {r : Option Inode}
    (he : fsFindInode fs i = .ok r) :
    (i ∈ (volume geo fs).inodeUsed ∧ r = some ((volume geo fs).inode i)) ∨
      (i ∉ (volume geo fs).inodeUsed ∧ r = none) := by
  unfold fsFindInode at he
  obtain ⟨e, hex, he⟩ := bind_eq_ok.mp he
  have hiff := blkgrpsInodeExist_eq_ok h hex
  cases e with
  | false =>
    cases he
    exact Or.inr ⟨fun hi => Bool.noConfusion (hiff.mpr hi), rfl⟩
  | true =>
    obtain ⟨x, hx, he⟩ := bind_eq_ok.mp he
    cases he
    obtain ⟨buf, hb, hx⟩ := bind_eq_ok.mp hx
    cases hx
    obtain ⟨-, rfl⟩ := deviceDataLoad_eq_ok.mp hb
    refine Or.inl ⟨hiff.mp rfl, ?_⟩
    rw [fsInodeToOffset_eq h]
    rfl

theorem fsFindDir_eq_ok (h : Mounted geo fs) {k : ChisaiSize} {r : Option Dir}
    (he : fsFindDir fs k = .ok r) :
    (k ∈ (volume geo fs).dataUsed ∧ r = some ((volume geo fs).dir k)) ∨
      (k ∉ (volume geo fs).dataUsed ∧ r = none) := by
  unfold fsFindDir at he
  obtain ⟨e, hex, he⟩ := bind_eq_ok.mp he
  have hiff := blkgrpsDataExist_eq_ok h hex
  cases e with
  | false =>
    cases he
    exact Or.inr ⟨fun hk => Bool.noConfusion (hiff.mpr hk), rfl⟩
  | true =>
    obtain ⟨x, hx, he⟩ := bind_eq_ok.mp he
    cases he
    obtain ⟨buf, hb, hx⟩ := bind_eq_ok.mp hx
    cases hx
    rw [← Nat.zero_add (fsDataToOffset fs k)] at hb
    have hs := deviceDataLoad_block h (by rw [Nat.zero_add]; exact dir_fits geo) hb
    refine Or.inl ⟨hiff.mp rfl, ?_⟩
    rw [hs]
    rfl

theorem blkgrpsDataExist_of_used (h : Mounted geo fs) {k : ChisaiSize}
    (hk : k ∈ (volume geo fs).dataUsed) : blkgrpsDataExist fs.blkGrps k = .ok true := by
  obtain ⟨r, hr⟩ := blkgrpsDataExist_of_inRange h (h.dataUsed_inRange hk)
  rw [hr, (blkgrpsDataExist_eq_ok h hr).mpr hk]

theorem blkgrpsInodeExist_of_used (h : Mounted geo fs) {i : ChisaiSize}
    (hi : i ∈ (volume geo fs).inodeUsed) : blkgrpsInodeExist fs.blkGrps i = .ok true := by
  obtain ⟨r, hr⟩ := blkgrpsInodeExist_of_inRange h (h.inodeUsed_inRange hi)
  rw [hr, (blkgrpsInodeExist_eq_ok h hr).mpr hi]

theorem inodeLoad_of_inRange (h : Mounted geo fs) {i : ChisaiSize} (hi : geo.InRange i) :
    inodeLoad fs.d (fsInodeToOffset fs i) = .ok ((volume geo fs).inode i) := by
  have hend := geo.slot_end_le hi.2
  have hw := inodeCodec_width
  have hfit : fsInodeToOffset fs i + inodeCodec.width ≤ fs.d.size := by
    rw [fsInodeToOffset_eq h, h.device]
    omega
  rw [inodeLoad, deviceDataLoad_eq_ok.mpr ⟨hfit, rfl⟩, fsInodeToOffset_eq h]
  rfl

theorem fsFindInode_of_used (h : Mounted geo fs) {i : ChisaiSize}
    (hi : i ∈ (volume geo fs).inodeUsed) :
    fsFindInode fs i = .ok (some ((volume geo fs).inode i)) := by
  rw [fsFindInode, blkgrpsInodeExist_of_used h hi, ok_bind, if_pos rfl,
    inodeLoad_of_inRange h (h.inodeUsed_inRange hi)]
  rfl

theorem fsFindInode_iff (h : Mounted geo fs) {i : ChisaiSize} {x : Inode} :
    fsFindInode fs i = .ok (some x) ↔
      i ∈ (volume geo fs).inodeUsed ∧ (volume geo fs).inode i = x := by
  constructor
  · intro he
    rcases fsFindInode_eq_ok h he with ⟨hi, hx⟩ | ⟨-, hx⟩
    · exact ⟨hi, (Option.some.inj hx).symm⟩
    · cases hx
  · rintro ⟨hi, rfl⟩
    exact fsFindInode_of_used h hi

theorem fsFindDir_of_used (h : Mounted geo fs) {k : ChisaiSize}
    (hk : k ∈ (volume geo fs).dataUsed) :
    fsFindDir fs k = .ok (some ((volume geo fs).dir k)) := by
  have hfit : 0 + dirCodec.width ≤ geo.blkSize := by
    rw [Nat.zero_add]
    exact dir_fits geo
  have hload := deviceDataLoad_block_ok h (h.dataUsed_inRange hk) hfit
  rw [Nat.zero_add] at hload
  rw [fsFindDir, blkgrpsDataExist_of_used h hk, ok_bind, if_pos rfl, dirLoad, hload]
  rfl

theorem fsFindDir_iff (h : Mounted geo fs) {k : ChisaiSize} {dir : Dir} :
    fsFindDir fs k = .ok (some dir) ↔
      k ∈ (volume geo fs).dataUsed ∧ (volume geo fs).dir k = dir := by
  constructor
  · intro he
    rcases fsFindDir_eq_ok h he with ⟨hk, hd⟩ | ⟨-, hd⟩
    · exact ⟨hk, (Option.some.inj hd).symm⟩
    · cases hd
  · rintro ⟨hk, rfl⟩
    exact fsFindDir_of_used h hk

end Spec

end ChisaiFs
