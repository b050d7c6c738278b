import ChisaiFs.Fs
import ChisaiFs.Allocator
import ChisaiFs.Library.Placement

/-! Where inode slots and data blocks lie on the device. With a geometry that does not
wrap in 32 bits, the offset functions place different indexes at disjoint intervals. -/

namespace ChisaiFs
open Placement

/-- A block group: two bitmap blocks, the inode slots and the data blocks. -/
def groupAreas (b : ℕ) : List Area := [⟨b, 1⟩, ⟨b, 1⟩, ⟨128, 8 * b⟩, ⟨b, 8 * b⟩]

def slotCell (b p : ℕ) : Cell := ⟨p / (8 * b), 2, p % (8 * b)⟩

def blkCell (b p : ℕ) : Cell := ⟨p / (8 * b), 3, p % (8 * b)⟩

section Cells

variable {b p q : ℕ}

theorem total_groupAreas : total (groupAreas b) = 2 * b + 8 * b * (128 + b) := by
  simp only [total, groupAreas, Area.size, List.map_cons, List.map_nil, List.sum_cons, List.sum_nil]
  ring

theorem slotCell_valid (hb : 0 < b) : (slotCell b p).Valid (groupAreas b) :=
  ⟨⟨128, 8 * b⟩, rfl, Nat.mod_lt p (by omega)⟩

theorem blkCell_valid (hb : 0 < b) : (blkCell b p).Valid (groupAreas b) :=
  ⟨⟨b, 8 * b⟩, rfl, Nat.mod_lt p (by omega)⟩

theorem slotCell_off : (slotCell b p).off b (groupAreas b) =
    b + p / (8 * b) * (2 * b + 8 * b * (128 + b)) + 2 * b + 128 * (p % (8 * b)) := by
  have hinner : (slotCell b p).inner (groupAreas b) = b * 1 + (b * 1 + 0) + 128 * (p % (8 * b)) :=
    rfl
  rw [Cell.off, total_groupAreas, hinner]
  simp only [slotCell]
  omega

theorem blkCell_off : (blkCell b p).off b (groupAreas b) =
    b + p / (8 * b) * (2 * b + 8 * b * (128 + b)) + 2 * b + 128 * (8 * b) + b * (p % (8 * b)) := by
  have hinner : (blkCell b p).inner (groupAreas b) =
      b * 1 + (b * 1 + (128 * (8 * b) + 0)) + b * (p % (8 * b)) := rfl
  rw [Cell.off, total_groupAreas, hinner]
  simp only [blkCell]
  omega

theorem cell_ne (h : p ≠ q) (a a' : ℕ) :
    (⟨p / (8 * b), a, p % (8 * b)⟩ : Cell) ≠ ⟨q / (8 * b), a', q % (8 * b)⟩ := by
  intro he
  obtain ⟨hd, -, hm⟩ := Cell.mk.inj he
  apply h
  rw [← Nat.div_add_mod p (8 * b), hd, hm, Nat.div_add_mod]

end Cells

section Bytes

variable {b : UInt32}

theorem toNat_mul_byteBits (h : 8 * b.toNat < 2 ^ 32) : (b * byteBits).toNat = 8 * b.toNat := by
  have h8 : byteBits.toNat = 8 := rfl
  rw [UInt32.toNat_mul, h8, Nat.mul_comm]
  exact Nat.mod_eq_of_lt h

theorem toNat_inodeSize_add (h : 128 + b.toNat < 2 ^ 32) :
    (inodeSize + b).toNat = 128 + b.toNat := by
  have h128 : inodeSize.toNat = 128 := rfl
  rw [UInt32.toNat_add, h128]
  exact Nat.mod_eq_of_lt h

theorem blkgrpBytes_eq (h : 2 * b.toNat + 8 * b.toNat * (128 + b.toNat) < 2 ^ 32) :
    (b * byteBits * (inodeSize + b)).toNat = 8 * b.toNat * (128 + b.toNat) ∧
      blkgrpBytes b = 2 * b.toNat + 8 * b.toNat * (128 + b.toNat) := by
  have h2 : (2 : UInt32).toNat = 2 := rfl
  have hsum : 8 * b.toNat * (128 + b.toNat) = 128 * (8 * b.toNat) + 8 * b.toNat * b.toNat := by ring
  have hcell : 128 + b.toNat < 2 ^ 32 := by
    have hlt := b.toNat_lt
    rcases Nat.eq_zero_or_pos b.toNat with h0 | hpos
    · omega
    · have hle : 128 + b.toNat ≤ 8 * b.toNat * (128 + b.toNat) :=
        Nat.le_mul_of_pos_left _ (by omega)
      omega
  have hmul : (b * byteBits * (inodeSize + b)).toNat = 8 * b.toNat * (128 + b.toNat) := by
    rw [UInt32.toNat_mul, toNat_mul_byteBits (by omega), toNat_inodeSize_add hcell]
    exact Nat.mod_eq_of_lt (by omega)
  refine ⟨hmul, ?_⟩
  rw [blkgrpBytes, UInt32.toNat_add, hmul, UInt32.toNat_mul, h2,
    Nat.mod_eq_of_lt (by omega : 2 * b.toNat < _)]
  exact Nat.mod_eq_of_lt h

end Bytes

/-- Block size, group count and device size of a formatted device without 32-bit wrap. -/
structure Geometry where
  blkSize : ℕ
  groups : ℕ
  size : ℕ
  pow2 : ∃ k, blkSize = 2 ^ k
  min_size : 512 ≤ blkSize
  group_fits : 2 * blkSize + 8 * blkSize * (128 + blkSize) < 2 ^ 32
  index_fits : groups * (8 * blkSize) < 2 ^ 32
  area_fits : blkSize + groups * (2 * blkSize + 8 * blkSize * (128 + blkSize)) ≤ size

namespace Geometry

variable (geo : Geometry)

def perGroup : ℕ := 8 * geo.blkSize

def groupSize : ℕ := 2 * geo.blkSize + 8 * geo.blkSize * (128 + geo.blkSize)

def slotOff (p : ℕ) : ℕ :=
  geo.blkSize + p / geo.perGroup * geo.groupSize + 2 * geo.blkSize + 128 * (p % geo.perGroup)

def blkOff (p : ℕ) : ℕ :=
  geo.blkSize + p / geo.perGroup * geo.groupSize + 2 * geo.blkSize + 128 * geo.perGroup +
    geo.blkSize * (p % geo.perGroup)

theorem blkSize_pos : 0 < geo.blkSize := by
  have h := geo.min_size
  omega

theorem perGroup_pos : 0 < geo.perGroup := by
  have h := geo.min_size
  unfold perGroup
  omega

theorem perGroup_lt : geo.perGroup < 2 ^ 32 := by
  have h := geo.group_fits
  have hle : 8 * geo.blkSize * 1 ≤ 8 * geo.blkSize * (128 + geo.blkSize) :=
    Nat.mul_le_mul_left _ (by omega)
  unfold perGroup
  omega

theorem groupSize_eq :
    geo.groupSize = 2 * geo.blkSize + 128 * geo.perGroup + geo.blkSize * geo.perGroup := by
  unfold groupSize perGroup
  ring

theorem group_sep {i j : ℕ} (h : i < j) (w : ℕ) : i * w + w ≤ j * w := by
  rw [← Nat.succ_mul]
  exact Nat.mul_le_mul_right w h

theorem slot_in_group (p : ℕ) :
    geo.blkSize + p / geo.perGroup * geo.groupSize + 2 * geo.blkSize ≤ geo.slotOff p ∧
    geo.slotOff p + 128 ≤ geo.blkSize + p / geo.perGroup * geo.groupSize + 2 * geo.blkSize +
      128 * geo.perGroup := by
  have hm := Nat.mod_lt p geo.perGroup_pos
  unfold slotOff
  omega

theorem blk_in_group (p : ℕ) :
    geo.blkSize + p / geo.perGroup * geo.groupSize + 2 * geo.blkSize + 128 * geo.perGroup ≤
      geo.blkOff p ∧
    geo.blkOff p + geo.blkSize ≤
      geo.blkSize + p / geo.perGroup * geo.groupSize + geo.groupSize := by
  have hm := group_sep (Nat.mod_lt p geo.perGroup_pos) geo.blkSize
  rw [Nat.mul_comm _ geo.blkSize, Nat.mul_comm _ geo.blkSize] at hm
  have hg := geo.groupSize_eq
  unfold blkOff
  omega

theorem apart_of_group_ne {i j a b m n : ℕ} (h : i ≠ j)
    (ha : geo.blkSize + i * geo.groupSize ≤ a)
    (ha' : a + m ≤ geo.blkSize + i * geo.groupSize + geo.groupSize)
    (hb : geo.blkSize + j * geo.groupSize ≤ b)
    (hb' : b + n ≤ geo.blkSize + j * geo.groupSize + geo.groupSize) :
    a + m ≤ b ∨ b + n ≤ a := by
  rcases Nat.lt_or_gt_of_ne h with hlt | hlt
  · have hs := group_sep hlt geo.groupSize
    omega
  · have hs := group_sep hlt geo.groupSize
    omega

theorem slot_le_group (p : ℕ) :
    geo.blkSize + p / geo.perGroup * geo.groupSize ≤ geo.slotOff p ∧
    geo.slotOff p + 128 ≤ geo.blkSize + p / geo.perGroup * geo.groupSize + geo.groupSize := by
  have hs := geo.slot_in_group p
  have hg := geo.groupSize_eq
  omega

theorem blk_le_group (p : ℕ) :
    geo.blkSize + p / geo.perGroup * geo.groupSize ≤ geo.blkOff p ∧
    geo.blkOff p + geo.blkSize ≤
      geo.blkSize + p / geo.perGroup * geo.groupSize + geo.groupSize := by
  have hs := geo.blk_in_group p
  omega

theorem slotOff_eq (p : ℕ) :
    geo.slotOff p = (slotCell geo.blkSize p).off geo.blkSize (groupAreas geo.blkSize) :=
  slotCell_off.symm

theorem blkOff_eq (p : ℕ) :
    geo.blkOff p = (blkCell geo.blkSize p).off geo.blkSize (groupAreas geo.blkSize) :=
  blkCell_off.symm

theorem slot_slot_disjoint {p q : ℕ} (h : p ≠ q) :
    geo.slotOff p + 128 ≤ geo.slotOff q ∨ geo.slotOff q + 128 ≤ geo.slotOff p := by
  rw [slotOff_eq, slotOff_eq]
  exact Cell.apart (slotCell_valid geo.blkSize_pos) (slotCell_valid geo.blkSize_pos) (cell_ne h 2 2)

theorem blk_blk_disjoint {p q : ℕ} (h : p ≠ q) :
    geo.blkOff p + geo.blkSize ≤ geo.blkOff q ∨ geo.blkOff q + geo.blkSize ≤ geo.blkOff p := by
  rw [blkOff_eq, blkOff_eq]
  exact Cell.apart (blkCell_valid geo.blkSize_pos) (blkCell_valid geo.blkSize_pos) (cell_ne h 3 3)

theorem slot_blk_disjoint (p q : ℕ) :
    geo.slotOff p + 128 ≤ geo.blkOff q ∨ geo.blkOff q + geo.blkSize ≤ geo.slotOff p := by
  rw [slotOff_eq, blkOff_eq]
  refine Cell.apart (slotCell_valid geo.blkSize_pos) (blkCell_valid geo.blkSize_pos) fun he => ?_
  cases congrArg Cell.area he

theorem group_end_le {p : ℕ} (h : p < geo.groups * geo.perGroup) :
    geo.blkSize + p / geo.perGroup * geo.groupSize + geo.groupSize ≤ geo.size := by
  have hlt : p / geo.perGroup < geo.groups := (Nat.div_lt_iff_lt_mul geo.perGroup_pos).mpr h
  have hs := group_sep hlt geo.groupSize
  have ha := geo.area_fits
  change geo.blkSize + geo.groups * geo.groupSize ≤ geo.size at ha
  omega

theorem slot_end_le {p : ℕ} (h : p < geo.groups * geo.perGroup) :
    geo.slotOff p + 128 ≤ geo.size :=
  (geo.slot_le_group p).2.trans (geo.group_end_le h)

theorem blk_end_le {p : ℕ} (h : p < geo.groups * geo.perGroup) :
    geo.blkOff p + geo.blkSize ≤ geo.size :=
  (geo.blk_le_group p).2.trans (geo.group_end_le h)

/-- The group count is the one `chisai_format` takes from the device size. -/
def AsFormatted : Prop :=
  geo.blkSize ∣ geo.size ∧ geo.groups = (geo.size - geo.blkSize) / geo.groupSize

instance : Decidable geo.AsFormatted := inferInstanceAs (Decidable (_ ∧ _))

theorem blkSize_dvd_blkOff (p : ℕ) : geo.blkSize ∣ geo.blkOff p := by
  have hper : geo.blkSize ∣ geo.perGroup := Nat.dvd_mul_left _ _
  have hgroup : geo.blkSize ∣ geo.groupSize := by
    rw [groupSize_eq]
    exact Nat.dvd_add (Nat.dvd_add (Nat.dvd_mul_left _ _) (hper.mul_left _))
      (Nat.dvd_mul_right _ _)
  exact Nat.dvd_add (Nat.dvd_add (Nat.dvd_add (Nat.dvd_add (Nat.dvd_refl _) (hgroup.mul_left _))
    (Nat.dvd_mul_left _ _)) (hper.mul_left _)) (Nat.dvd_mul_right _ _)

theorem last_mod : 4294967295 % geo.perGroup = geo.perGroup - 1 := by
  obtain ⟨k, hk⟩ := geo.pow2
  have hper : geo.perGroup = 2 ^ (k + 3) := by
    unfold perGroup
    rw [hk, pow_add, Nat.mul_comm]
    rfl
  have hlt := geo.perGroup_lt
  have hk32 : k + 3 < 32 := by
    rw [hper] at hlt
    exact (Nat.pow_lt_pow_iff_right (by norm_num)).mp hlt
  have hsplit : 2 ^ 32 = 2 ^ (k + 3) * 2 ^ (32 - (k + 3)) := by
    rw [← pow_add]
    congr 1
    omega
  obtain ⟨q, hq⟩ : ∃ q, 2 ^ (32 - (k + 3)) = q + 1 :=
    ⟨_, (Nat.sub_one_add_one (Nat.two_pow_pos _).ne').symm⟩
  have hpos := Nat.two_pow_pos (k + 3)
  rw [hper, show 4294967295 = 2 ^ 32 - 1 from rfl, hsplit, hq, Nat.mul_succ,
    Nat.add_sub_assoc hpos, Nat.mul_add_mod]
  exact Nat.mod_eq_of_lt (by omega)

theorem AsFormatted.size_le {geo : Geometry} (h : geo.AsFormatted) :
    geo.size ≤ geo.blkOff 4294967295 := by
  obtain ⟨hdvd, hgroups⟩ := h
  have hg := geo.groupSize_eq
  have hmin := geo.min_size
  have hpos := geo.perGroup_pos
  have hsize : geo.size < geo.blkSize + geo.groups * geo.groupSize + geo.groupSize := by
    have hlt := Nat.lt_div_mul_add (a := geo.size - geo.blkSize) (show 0 < geo.groupSize by omega)
    rw [← hgroups] at hlt
    omega
  have hle : geo.groups ≤ 4294967295 / geo.perGroup := by
    have hfits := geo.index_fits
    change geo.groups * geo.perGroup < 2 ^ 32 at hfits
    exact (Nat.le_div_iff_mul_le hpos).mpr (by omega)
  rcases hle.lt_or_eq with hlt | heq
  · have hsep := group_sep hlt geo.groupSize
    have hin := (geo.blk_le_group 4294967295).1
    omega
  · have hend : geo.blkOff 4294967295 + geo.blkSize =
        geo.blkSize + geo.groups * geo.groupSize + geo.groupSize := by
      have hlast : geo.blkSize * (geo.perGroup - 1) + geo.blkSize =
          geo.blkSize * geo.perGroup := by
        rw [← Nat.mul_succ, Nat.succ_eq_add_one, Nat.sub_add_cancel hpos]
      unfold blkOff
      rw [geo.last_mod, ← heq]
      omega
    by_contra hgt
    obtain ⟨c, hc⟩ := hdvd
    obtain ⟨e, he⟩ := geo.blkSize_dvd_blkOff 4294967295
    have hec : e < c := by
      by_contra hge
      have hmul := Nat.mul_le_mul_left geo.blkSize (not_lt.mp hge)
      omega
    have hmul := Nat.mul_le_mul_left geo.blkSize (show e + 1 ≤ c from hec)
    rw [Nat.mul_succ] at hmul
    omega

end Geometry

/-- A mounted file system: the geometry of the superblock and the shape of the in-memory
block groups, on a device that holds all groups. -/
structure Mounted (geo : Geometry) (fs : Filesystem) : Prop where
  blockSize : fs.sb.blockSize.toNat = geo.blkSize
  perGroup : fs.sb.dataBlockPerGroups.toNat = geo.perGroup
  groupSize : fs.blkgrpSize = geo.groupSize
  groups : GroupsOk geo.blkSize geo.groups fs.blkGrps
  device : fs.d.size = geo.size

section Offsets

variable {geo : Geometry} {fs : Filesystem} {b : ℕ}

/-- The sizes from which the offsets are computed, for a block size without 32-bit wrap. -/
structure Placed (b : ℕ) (fs : Filesystem) : Prop where
  blockSize : fs.sb.blockSize.toNat = b
  perGroup : fs.sb.dataBlockPerGroups.toNat = 8 * b
  groupSize : fs.blkgrpSize = 2 * b + 8 * b * (128 + b)
  pos : 0 < b
  fits : 2 * b + 8 * b * (128 + b) < 2 ^ 32

theorem Mounted.placed (h : Mounted geo fs) : Placed geo.blkSize fs :=
  ⟨h.blockSize, h.perGroup, h.groupSize, geo.blkSize_pos, geo.group_fits⟩

theorem Placed.parts (h : Placed b fs) : 2 * b < 2 ^ 32 ∧ 8 * b < 2 ^ 32 ∧
    128 * (8 * b) < 2 ^ 32 ∧ b * (8 * b) < 2 ^ 32 := by
  have hf := h.fits
  have hsum : 8 * b * (128 + b) = 128 * (8 * b) + b * (8 * b) := by ring
  omega

theorem Placed.two_mul_blockSize (h : Placed b fs) : (2 * fs.sb.blockSize).toNat = 2 * b := by
  have h2 : (2 : UInt32).toNat = 2 := rfl
  rw [UInt32.toNat_mul, h.blockSize, h2, Nat.mod_eq_of_lt h.parts.1]

theorem Placed.slots (h : Placed b fs) (i : ChisaiSize) :
    (inodeSize * ((i - 1) % fs.sb.dataBlockPerGroups)).toNat = 128 * ((i - 1).toNat % (8 * b)) := by
  have hpos := h.pos
  have hparts := h.parts
  have hm := Nat.mod_lt (i - 1).toNat (show 0 < 8 * b by omega)
  have h128 : inodeSize.toNat = 128 := rfl
  rw [UInt32.toNat_mul, UInt32.toNat_mod, h.perGroup, h128]
  exact Nat.mod_eq_of_lt (by omega)

theorem Placed.table (h : Placed b fs) :
    (inodeSize * fs.sb.dataBlockPerGroups).toNat = 128 * (8 * b) := by
  have h128 : inodeSize.toNat = 128 := rfl
  rw [UInt32.toNat_mul, h.perGroup, h128]
  exact Nat.mod_eq_of_lt h.parts.2.2.1

theorem Placed.blocks (h : Placed b fs) (k : ChisaiSize) :
    (fs.sb.blockSize * ((k - 1) % fs.sb.dataBlockPerGroups)).toNat =
      b * ((k - 1).toNat % (8 * b)) := by
  have hpos := h.pos
  have hparts := h.parts
  have hm := Nat.mul_le_mul_left b (Nat.mod_lt (k - 1).toNat (show 0 < 8 * b by omega))
  rw [Nat.mul_succ] at hm
  rw [UInt32.toNat_mul, UInt32.toNat_mod, h.perGroup, h.blockSize]
  exact Nat.mod_eq_of_lt (by omega)

theorem Placed.fsInodeToOffset_eq (h : Placed b fs) (i : ChisaiSize) :
    fsInodeToOffset fs i = (slotCell b (i - 1).toNat).off b (groupAreas b) := by
  rw [slotCell_off]
  unfold fsInodeToOffset
  simp only [h.slots, h.two_mul_blockSize, h.blockSize, h.groupSize, UInt32.toNat_div, h.perGroup]

theorem Placed.fsDataToOffset_eq (h : Placed b fs) (k : ChisaiSize) :
    fsDataToOffset fs k = (blkCell b (k - 1).toNat).off b (groupAreas b) := by
  rw [blkCell_off]
  unfold fsDataToOffset
  simp only [h.blocks, h.table, h.two_mul_blockSize, h.blockSize, h.groupSize, UInt32.toNat_div,
    h.perGroup]

theorem fsInodeToOffset_eq (h : Mounted geo fs) (i : ChisaiSize) :
    fsInodeToOffset fs i = geo.slotOff (i - 1).toNat := by
  rw [h.placed.fsInodeToOffset_eq, geo.slotOff_eq]

theorem fsDataToOffset_eq (h : Mounted geo fs) (k : ChisaiSize) :
    fsDataToOffset fs k = geo.blkOff (k - 1).toNat := by
  rw [h.placed.fsDataToOffset_eq, geo.blkOff_eq]

theorem sub_one_injective {i j : ChisaiSize} (h : i ≠ j) : (i - 1).toNat ≠ (j - 1).toNat := by
  intro he
  apply h
  have hs : i - 1 = j - 1 := UInt32.toNat_inj.mp he
  exact (UInt32.sub_left_inj 1).mp hs

end Offsets

end ChisaiFs
