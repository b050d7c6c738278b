import ChisaiFs.Device
import ChisaiFs.Library.Words
import ChisaiFs.Library.Outcome

/-! The superblock and its image in the first block of the device. -/

namespace ChisaiFs
open Words

structure Superblock where
  magic : UInt32
  blockSize : UInt32
  blocksCnt : UInt32
  inodesCnt : UInt32
  freeBlocks : UInt32
  freeInodes : UInt32
  groups : UInt32
  dataBlockPerGroups : UInt32
  deriving DecidableEq, Repr

def superblockCodec : Codec UInt8 Superblock :=
  (u32.pair (u32.pair (u32.pair (u32.pair (u32.pair (u32.pair (u32.pair u32))))))).via
    { toFun := fun sb => (sb.magic, sb.blockSize, sb.blocksCnt, sb.inodesCnt, sb.freeBlocks,
        sb.freeInodes, sb.groups, sb.dataBlockPerGroups)
      invFun := fun (magic, blockSize, blocksCnt, inodesCnt, freeBlocks, freeInodes, groups,
        dataBlockPerGroups) => ⟨magic, blockSize, blocksCnt, inodesCnt, freeBlocks, freeInodes,
        groups, dataBlockPerGroups⟩
      left_inv := fun _ => rfl
      right_inv := fun _ => rfl }

theorem superblockCodec_width : superblockCodec.width = 32 := rfl

def superblockInit (blkSize groups : UInt32) : Exec Superblock := do
  assertThat (superblockCodec.width ≤ blkSize.toNat)
  return {
    magic := magic
    blockSize := blkSize
    blocksCnt := blkSize * byteBits * groups
    inodesCnt := blkSize * byteBits * groups
    freeBlocks := blkSize * byteBits * groups
    freeInodes := blkSize * byteBits * groups
    groups := groups
    dataBlockPerGroups := blkSize * byteBits }

def superblockSave (sb : Superblock) (d : Device) : Exec Device :=
  deviceDataSave d 0 (superblockCodec.enc sb)

def superblockLoad (d : Device) : Exec Superblock := do
  let buf ← deviceDataLoad d 0 superblockCodec.width
  return superblockCodec.dec buf

end ChisaiFs
