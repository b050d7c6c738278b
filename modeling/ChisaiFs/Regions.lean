import ChisaiFs.Format

/-! The areas of a device that the superblock, the group loader, the two offset functions and the
existence tests name. For every block size and group count whose sizes fit 32 bits they are apart
and inside the formatted area. -/

namespace ChisaiFs
open Cells Outcome Placement

inductive Region
  | superblock
  | dataBitmap (j : ℕ)
  | inodeBitmap (j : ℕ)
  | slot (i : ChisaiSize)
  | block (k : ChisaiSize)
  deriving DecidableEq

/-- The regions of `g` groups of blocks of `b` bytes. -/
def Region.Valid (b g : ℕ) : Region → Prop
  | superblock => True
  | dataBitmap j | inodeBitmap j => j < g
  | slot i | block i => i ≠ 0 ∧ i.toNat ≤ g * (8 * b)

/-- Where a region starts: the bitmaps where `blkgrps_load` reads them. -/
def Region.off (fs : Filesystem) : Region → ℕ
  | superblock => 0
  | dataBitmap j => fs.sb.blockSize.toNat + fs.blkgrpSize * j
  | inodeBitmap j => fs.sb.blockSize.toNat + fs.blkgrpSize * j + fs.sb.blockSize.toNat
  | slot i => fsInodeToOffset fs i
  | block k => fsDataToOffset fs k

def Region.width (fs : Filesystem) : Region → ℕ
  | slot _ => inodeSize.toNat
  | _ => fs.sb.blockSize.toNat

/-- The cell of a region behind the superblock. -/
def Region.cell (b : ℕ) : Region → Cell
  | superblock => ⟨0, 0, 0⟩
  | dataBitmap j => ⟨j, 0, 0⟩
  | inodeBitmap j => ⟨j, 1, 0⟩
  | slot i => slotCell b (i - 1).toNat
  | block k => blkCell b (k - 1).toNat

section Regions

variable {b g : ℕ} {fs : Filesystem} {r s : Region} {i k : ChisaiSize}

theorem index_lt (hb : 0 < b) (h0 : i ≠ 0) (hle : i.toNat ≤ g * (8 * b)) :
    (i - 1).toNat / (8 * b) < g := by
  have hpos : 0 < i.toNat := toNat_pos h0
  have h1 : (1 : UInt32).toNat = 1 := rfl
  have hone : 1 ≤ i := UInt32.le_iff_toNat_le.mpr (by omega)
  rw [Nat.div_lt_iff_lt_mul (by omega), UInt32.toNat_sub_of_le _ _ hone]
  omega

theorem Region.cell_valid (hb : 0 < b) (r : Region) : (r.cell b).Valid (groupAreas b) := by
  cases r with
  | superblock => exact ⟨⟨b, 1⟩, rfl, Nat.one_pos⟩
  | dataBitmap j => exact ⟨⟨b, 1⟩, rfl, Nat.one_pos⟩
  | inodeBitmap j => exact ⟨⟨b, 1⟩, rfl, Nat.one_pos⟩
  | slot i => exact slotCell_valid hb
  | block k => exact blkCell_valid hb

theorem Region.cell_group (hb : 0 < b) (hg : 0 < g) (hr : r.Valid b g) : (r.cell b).group < g := by
  cases r with
  | superblock => exact hg
  | dataBitmap j => exact hr
  | inodeBitmap j => exact hr
  | slot i => exact index_lt hb hr.1 hr.2
  | block k => exact index_lt hb hr.1 hr.2

theorem Region.cell_width (h : Placed b fs) (r : Region) :
    (r.cell b).width (groupAreas b) = r.width fs := by
  cases r with
  | slot i => rfl
  | _ => exact h.blockSize.symm

theorem Region.cell_off (h : Placed b fs) (hr : r ≠ superblock) :
    (r.cell b).off b (groupAreas b) = r.off fs := by
  cases r with
  | superblock => exact absurd rfl hr
  | dataBitmap j =>
    have hinner : (Cell.mk j 0 0).inner (groupAreas b) = 0 := Nat.zero_add _
    rw [cell, Cell.off, hinner, total_groupAreas, off, h.blockSize, h.groupSize, Nat.mul_comm j,
      Nat.add_zero]
  | inodeBitmap j =>
    have hinner : (Cell.mk j 1 0).inner (groupAreas b) = b * 1 + 0 + b * 0 := rfl
    rw [cell, Cell.off, hinner, total_groupAreas, off, h.blockSize, h.groupSize, Nat.mul_comm j]
    omega
  | slot i => exact (h.fsInodeToOffset_eq i).symm
  | block k => exact (h.fsDataToOffset_eq k).symm

theorem Region.cell_injective (hr : r ≠ superblock) (hs : s ≠ superblock)
    (hc : r.cell b = s.cell b) : r = s := by
  have hidx : ∀ {i k : ChisaiSize} {a a' : ℕ},
      (⟨(i - 1).toNat / (8 * b), a, (i - 1).toNat % (8 * b)⟩ : Cell) =
        ⟨(k - 1).toNat / (8 * b), a', (k - 1).toNat % (8 * b)⟩ → i = k := by
    intro i k a a' he
    by_contra hne
    exact cell_ne (sub_one_injective hne) a a' he
  have harea := congrArg Cell.area hc
  have hgroup := congrArg Cell.group hc
  cases r with
  | superblock => exact absurd rfl hr
  | dataBitmap j =>
    cases s with
    | superblock => exact absurd rfl hs
    | dataBitmap j' => exact congrArg dataBitmap hgroup
    | _ => cases harea
  | inodeBitmap j =>
    cases s with
    | superblock => exact absurd rfl hs
    | inodeBitmap j' => exact congrArg inodeBitmap hgroup
    | _ => cases harea
  | slot i =>
    cases s with
    | superblock => exact absurd rfl hs
    | slot k => exact congrArg slot (hidx hc)
    | _ => cases harea
  | block k =>
    cases s with
    | superblock => exact absurd rfl hs
    | block k' => exact congrArg block (hidx hc)
    | _ => cases harea

/-- Different regions are apart, and all lie in the formatted area. -/
structure LaidOut (b g : ℕ) (fs : Filesystem) : Prop where
  apart : ∀ r s : Region, r.Valid b g → s.Valid b g → r ≠ s →
    r.off fs + r.width fs ≤ s.off fs ∨ s.off fs + s.width fs ≤ r.off fs
  inside : ∀ r : Region, r.Valid b g →
    r.off fs + r.width fs ≤ b + g * (2 * b + 8 * b * (128 + b))

theorem Region.head_le (h : Placed b fs) (hr : r ≠ superblock) : b ≤ r.off fs := by
  have hle := (@Cell.Valid.group_le (groupAreas b) b _ (r.cell_valid h.pos)).1
  rw [cell_off h hr] at hle
  omega

theorem Placed.laidOut (h : Placed b fs) (hg : 0 < g) : LaidOut b g fs where
  apart r s hr hs hne := by
    by_cases hr0 : r = .superblock
    · subst hr0
      have hle := Region.head_le h (Ne.symm hne)
      have hb := h.blockSize
      left
      change 0 + fs.sb.blockSize.toNat ≤ s.off fs
      omega
    by_cases hs0 : s = .superblock
    · subst hs0
      have hle := Region.head_le h hne
      have hb := h.blockSize
      right
      change 0 + fs.sb.blockSize.toNat ≤ r.off fs
      omega
    have hcells := @Cell.apart (groupAreas b) b _ _ (r.cell_valid h.pos) (s.cell_valid h.pos)
      fun he => hne (Region.cell_injective hr0 hs0 he)
    rwa [Region.cell_off h hr0, Region.cell_off h hs0, Region.cell_width h,
      Region.cell_width h] at hcells
  inside r hr := by
    by_cases hr0 : r = .superblock
    · subst hr0
      have hb := h.blockSize
      simp only [Region.off, Region.width]
      omega
    · have hend := @Cell.Valid.end_le (groupAreas b) b _ g (r.cell_valid h.pos)
        (Region.cell_group h.pos hg hr)
      rwa [Region.cell_off h hr0, Region.cell_width h, total_groupAreas] at hend

/-- All products that the loader, the superblock and the offset functions compute in 32 bits are
exact, and the end of the formatted area fits 64. -/
structure Exact (b g : ℕ) (fs : Filesystem) : Prop where
  groupSize : blkgrpBytes fs.sb.blockSize = 2 * b + 8 * b * (128 + b)
  bitmaps : (2 * fs.sb.blockSize).toNat = 2 * b
  perGroup : (fs.sb.blockSize * byteBits).toNat = 8 * b
  cell : (inodeSize + fs.sb.blockSize).toNat = 128 + b
  cells : (fs.sb.blockSize * byteBits * (inodeSize + fs.sb.blockSize)).toNat = 8 * b * (128 + b)
  count : fs.sb.blocksCnt.toNat = g * (8 * b)
  table : (inodeSize * fs.sb.dataBlockPerGroups).toNat = 128 * (8 * b)
  slots : ∀ i, (inodeSize * ((i - 1) % fs.sb.dataBlockPerGroups)).toNat =
    128 * ((i - 1) % fs.sb.dataBlockPerGroups).toNat
  blocks : ∀ k, (fs.sb.blockSize * ((k - 1) % fs.sb.dataBlockPerGroups)).toNat =
    b * ((k - 1) % fs.sb.dataBlockPerGroups).toNat
  area : b + g * (2 * b + 8 * b * (128 + b)) < 2 ^ 64

/-- The slot and the block of an index are in the group whose bitmaps are consulted for it. -/
structure Consulted (b g : ℕ) (d : Device) (fs : Filesystem) : Prop where
  inode : ∀ i : ChisaiSize, (Region.slot i).Valid b g → ∃ j < g,
    b + j * (2 * b + 8 * b * (128 + b)) ≤ fsInodeToOffset fs i ∧
    fsInodeToOffset fs i + inodeSize.toNat ≤ b + (j + 1) * (2 * b + 8 * b * (128 + b)) ∧
    blkgrpsInodeExist fs.blkGrps i =
      bitvecGet ⟨slice d.bytes ((Region.inodeBitmap j).off fs) b⟩ ((i - 1).toNat % (8 * b))
  data : ∀ k : ChisaiSize, (Region.block k).Valid b g → ∃ j < g,
    b + j * (2 * b + 8 * b * (128 + b)) ≤ fsDataToOffset fs k ∧
    fsDataToOffset fs k + b ≤ b + (j + 1) * (2 * b + 8 * b * (128 + b)) ∧
    blkgrpsDataExist fs.blkGrps k =
      bitvecGet ⟨slice d.bytes ((Region.dataBitmap j).off fs) b⟩ ((k - 1).toNat % (8 * b))

end Regions

section Loaded

variable {b g : UInt32} {d : Device} {sb : Superblock} {grps : BlockGroups} {i : ChisaiSize}

theorem blkgrpsExist_loaded {f : ℕ → ℕ} (hb : 0 < b.toNat) (h8 : 8 * b.toNat < 2 ^ 32) (h0 : i ≠ 0)
    (hle : i.toNat ≤ g.toNat * (8 * b.toNat)) :
    blkgrpsExist (b * byteBits)
        ((List.range' 0 g.toNat).map fun j => loadedMap d (f j) b.toNat) i =
      bitvecGet ⟨slice d.bytes (f ((i - 1).toNat / (8 * b.toNat))) b.toNat⟩
        ((i - 1).toNat % (8 * b.toNat)) := by
  have hlt := index_lt hb h0 hle
  have hget : ((List.range' 0 g.toNat).map fun j => loadedMap d (f j) b.toNat)[
      (i - 1).toNat / (8 * b.toNat)]? =
        some (loadedMap d (f ((i - 1).toNat / (8 * b.toNat))) b.toNat) := by
    simp [hlt]
  unfold blkgrpsExist
  rw [if_neg h0, UInt32.toNat_div, UInt32.toNat_mod, toNat_mul_byteBits h8, hget]
  rfl

/-- For every block size of at least 512 bytes and every group count whose sizes fit 32 bits:
what `superblock_init` and the group loader set up places all structures apart and inside the
formatted area, computes every product exactly, and tests each index in the group it lies in. -/
theorem layout_collision_free (hmin : 512 ≤ b.toNat)
    (hgroup : 2 * b.toNat + 8 * b.toNat * (128 + b.toNat) < 2 ^ 32) (hg : 1 ≤ g.toNat)
    (hidx : g.toNat * (8 * b.toNat) < 2 ^ 32) (hsb : superblockInit b g = .ok sb)
    (hload : blkgrpsLoad d sb.blockSize sb.groups = .ok grps) :
    LaidOut b.toNat g.toNat (loaded (unmounted d) sb grps) ∧
      Exact b.toNat g.toNat (loaded (unmounted d) sb grps) ∧
      Consulted b.toNat g.toNat d (loaded (unmounted d) sb grps) := by
  have hsb := superblockInit_eq_ok hsb
  subst hsb
  have hpos : 0 < b.toNat := by omega
  have hsum : 8 * b.toNat * (128 + b.toNat) = 128 * (8 * b.toNat) + 8 * b.toNat * b.toNat := by ring
  have h8 : 8 * b.toNat < 2 ^ 32 := by omega
  obtain ⟨hcells, hbytes⟩ := blkgrpBytes_eq hgroup
  have hp : Placed b.toNat (loaded (unmounted d) ⟨magic, b, b * byteBits * g, b * byteBits * g,
      b * byteBits * g, b * byteBits * g, g, b * byteBits⟩ grps) :=
    ⟨rfl, toNat_mul_byteBits h8, hbytes, hpos, hgroup⟩
  have hlaid := hp.laidOut hg
  refine ⟨hlaid, ?_, ?_⟩
  · have hcount : (b * byteBits * g).toNat = g.toNat * (8 * b.toNat) := by
      rw [UInt32.toNat_mul, toNat_mul_byteBits h8, Nat.mul_comm]
      exact Nat.mod_eq_of_lt hidx
    have harea : b.toNat + g.toNat * (2 * b.toNat + 8 * b.toNat * (128 + b.toNat)) < 2 ^ 64 := by
      have hg := Nat.mul_le_mul_left g.toNat (Nat.mul_le_mul_left 8 hmin)
      have hle := Nat.mul_le_mul (show g.toNat ≤ 2 ^ 20 by omega) (Nat.le_of_lt hgroup)
      omega
    have hcell : 128 + b.toNat < 2 ^ 32 := by omega
    refine ⟨hbytes, hp.two_mul_blockSize, toNat_mul_byteBits h8, toNat_inodeSize_add hcell, hcells,
       hcount, hp.table, fun i => ?_, fun k => ?_, harea⟩
    · rw [hp.slots, UInt32.toNat_mod, hp.perGroup]
    · rw [hp.blocks, UInt32.toNat_mod, hp.perGroup]
  · unfold blkgrpsLoad at hload
    split_ifs at hload with hg0
    obtain ⟨⟨data, inode⟩, hfrom, hload⟩ := bind_eq_ok.mp hload
    cases hload
    obtain ⟨hdata, hinode⟩ := blkgrpsLoadFrom_eq_ok hfrom
    dsimp only at hdata hinode
    subst hdata hinode
    constructor
    · intro i hi
      obtain ⟨hge, hle⟩ := @Cell.Valid.group_le (groupAreas b.toNat) b.toNat _
        ((Region.slot i).cell_valid hpos)
      rw [Region.cell_off hp Region.noConfusion, total_groupAreas] at hge hle
      rw [Region.cell_width hp] at hle
      refine ⟨(i - 1).toNat / (8 * b.toNat), index_lt hpos hi.1 hi.2, hge, hle, ?_⟩
      rw [Region.off, hp.blockSize, hp.groupSize, ← hbytes]
      exact blkgrpsExist_loaded hpos h8 hi.1 hi.2
    · intro k hk
      obtain ⟨hge, hle⟩ := @Cell.Valid.group_le (groupAreas b.toNat) b.toNat _
        ((Region.block k).cell_valid hpos)
      rw [Region.cell_off hp Region.noConfusion, total_groupAreas] at hge hle
      rw [Region.cell_width hp] at hle
      refine ⟨(k - 1).toNat / (8 * b.toNat), index_lt hpos hk.1 hk.2, hge, hle, ?_⟩
      rw [Region.off, hp.blockSize, hp.groupSize, ← hbytes]
      exact blkgrpsExist_loaded hpos h8 hk.1 hk.2

/-- One group of blocks of 512 bytes. -/
theorem layout_collision_free_smallDisk :
    ∃ sb grps, superblockInit 512 1 = .ok sb ∧
      blkgrpsLoad ⟨smallDisk.size, fun _ => 0⟩ sb.blockSize sb.groups = .ok grps ∧
      LaidOut 512 1 (loaded (unmounted ⟨smallDisk.size, fun _ => 0⟩) sb grps) ∧
      Exact 512 1 (loaded (unmounted ⟨smallDisk.size, fun _ => 0⟩) sb grps) ∧
      Consulted 512 1 ⟨smallDisk.size, fun _ => 0⟩
        (loaded (unmounted ⟨smallDisk.size, fun _ => 0⟩) sb grps) := by
  have hload : Yields (blkgrpsLoad ⟨smallDisk.size, fun _ => 0⟩ 512 1) fun _ => True := by
    decide +kernel
  obtain ⟨grps, hgrps, -⟩ := hload
  exact ⟨_, grps, rfl, hgrps, layout_collision_free (b := 512) (g := 1) (by decide) (by decide)
    (by decide) (by decide) rfl hgrps⟩

end Loaded

end ChisaiFs
