import ChisaiFs.Bitvec
import ChisaiFs.Device

/-! The block groups and their two allocators. The source keeps, in every element of
`blk_grps`, a data and an inode bitmap with their cached next indexes; here each kind is
a column of its own. The three header fields are read through element 0 only. -/

namespace ChisaiFs

/-- A bitmap of one block group with its cached next index (1-based, 0 if there is none). -/
structure GroupMap where
  bitmap : Bitvec
  next : ChisaiSize
  deriving DecidableEq

structure BlockGroups where
  groups : UInt32
  blkInodeNum : UInt32
  blkgrpSize : ℕ
  data : List GroupMap
  inode : List GroupMap
  deriving DecidableEq

/-- `blkgrp_update_next_inode` and `blkgrp_update_next_data`. -/
def blkgrpUpdateNext (m : GroupMap) : GroupMap :=
  { m with next := UInt32.ofNat (bitvecFindFirstSet m.bitmap) }

/-- `blkgrp_inode_alloc` and `blkgrp_data_alloc`. With no cached index the bit to set is
index `2 ^ 32 - 1`. -/
def blkgrpAlloc (m : GroupMap) : Exec (ChisaiSize × GroupMap) := do
  let bitmap ← bitvecSet m.bitmap (m.next - 1).toNat
  return (m.next, blkgrpUpdateNext { m with bitmap := bitmap })

/-- `blkgrp_free_inode_num` and `blkgrp_free_data_num`. -/
def blkgrpFreeNum (m : GroupMap) : ChisaiSize := UInt32.ofNat (bitvecCountZeros m.bitmap)

/-- The loop of both allocators, from group `i` on. -/
def blkgrpsAllocFrom (blkInodeNum : UInt32) (i : UInt32) :
    List GroupMap → Exec (ChisaiSize × List GroupMap)
  | [] => .ok (0, [])
  | m :: ms =>
    if blkgrpFreeNum m = 0 then do
      let (idx, ms') ← blkgrpsAllocFrom blkInodeNum (i + 1) ms
      return (idx, m :: ms')
    else do
      let (idx, m') ← blkgrpAlloc m
      return (i * blkInodeNum + idx, m' :: ms)

def blkgrpsInodeAlloc (grps : BlockGroups) : Exec (ChisaiSize × BlockGroups) := do
  let (idx, ms) ← blkgrpsAllocFrom grps.blkInodeNum 0 grps.inode
  return (idx, { grps with inode := ms })

def blkgrpsDataAlloc (grps : BlockGroups) : Exec (ChisaiSize × BlockGroups) := do
  let (idx, ms) ← blkgrpsAllocFrom grps.blkInodeNum 0 grps.data
  return (idx, { grps with data := ms })

def blkgrpsExist (blkInodeNum : UInt32) (ms : List GroupMap) (idx : ChisaiSize) : Exec Bool :=
  if idx = 0 then .ok false
  else
    match ms[((idx - 1) / blkInodeNum).toNat]? with
    | some m => bitvecGet m.bitmap ((idx - 1) % blkInodeNum).toNat
    | none => .error .outOfRange

def blkgrpsInodeExist (grps : BlockGroups) (inodeIdx : ChisaiSize) : Exec Bool :=
  blkgrpsExist grps.blkInodeNum grps.inode inodeIdx

def blkgrpsDataExist (grps : BlockGroups) (dataIdx : ChisaiSize) : Exec Bool :=
  blkgrpsExist grps.blkInodeNum grps.data dataIdx

/-- Both release functions leave the cached next index as it is. -/
def blkgrpsRelease (blkInodeNum : UInt32) (ms : List GroupMap) (idx : ChisaiSize) :
    Exec (List GroupMap) :=
  if idx = 0 then .ok ms
  else
    let grpIdx := ((idx - 1) / blkInodeNum).toNat
    match ms[grpIdx]? with
    | some m => do
      let bitmap ← bitvecReset m.bitmap ((idx - 1) % blkInodeNum).toNat
      return ms.set grpIdx { m with bitmap := bitmap }
    | none => .error .outOfRange

def blkgrpsInodeRelease (grps : BlockGroups) (inodeIdx : ChisaiSize) : Exec BlockGroups := do
  let ms ← blkgrpsRelease grps.blkInodeNum grps.inode inodeIdx
  return { grps with inode := ms }

def blkgrpsDataRelease (grps : BlockGroups) (dataIdx : ChisaiSize) : Exec BlockGroups := do
  let ms ← blkgrpsRelease grps.blkInodeNum grps.data dataIdx
  return { grps with data := ms }

/-- The loop of `blkgrps_load`: `n` groups from group `i` on. -/
def blkgrpsLoadFrom (d : Device) (blkSize blkgrpSize : ℕ) :
    ℕ → ℕ → Exec (List GroupMap × List GroupMap)
  | _, 0 => .ok ([], [])
  | i, n + 1 => do
    let off := blkSize + blkgrpSize * i
    let data ← deviceDataLoad d off blkSize
    let inode ← deviceDataLoad d (off + blkSize) blkSize
    let (ds, is) ← blkgrpsLoadFrom d blkSize blkgrpSize (i + 1) n
    return (blkgrpUpdateNext ⟨⟨data⟩, 0⟩ :: ds, blkgrpUpdateNext ⟨⟨inode⟩, 0⟩ :: is)

/-- The size of a block group, in the 32-bit arithmetic of its operands. -/
def blkgrpBytes (blkSize : UInt32) : ℕ :=
  (2 * blkSize + blkSize * byteBits * (inodeSize + blkSize)).toNat

/-- With no group at all the header is written outside the (empty) array. -/
def blkgrpsLoad (d : Device) (blkSize groups : UInt32) : Exec BlockGroups :=
  if groups = 0 then .error .outOfRange
  else do
    let (data, inode) ← blkgrpsLoadFrom d blkSize.toNat (blkgrpBytes blkSize) 0 groups.toNat
    return ⟨groups, blkSize * byteBits, blkgrpBytes blkSize, data, inode⟩

/-- `blkgrps_destroy` frees the bitmaps; nothing is written back. -/
def blkgrpsDestroy (grps : BlockGroups) : BlockGroups := { grps with data := [], inode := [] }

end ChisaiFs
