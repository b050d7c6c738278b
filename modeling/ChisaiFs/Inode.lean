import ChisaiFs.Device
import ChisaiFs.Library.Words
import ChisaiFs.Library.Outcome

/-! Inodes and their 88-byte image; the four bytes after `mode` are structure padding. -/

namespace ChisaiFs
open Words

theorem directBlksNum_pos : 0 < directBlksNum := by decide

structure Inode where
  mode : UInt32
  nlink : UInt64
  blkcnt : Int64
  size : Int64
  directBlks : Vector ChisaiSize directBlksNum
  indirectBlk : ChisaiSize
  doubleIndirectBlk : ChisaiSize
  deriving DecidableEq

def inodeCodec : Codec UInt8 Inode :=
  (u32.pair ((Codec.padding 4 0).pair (u64.pair (i64.pair (i64.pair
    ((u32.array directBlksNum).pair (u32.pair u32))))))).via
    { toFun := fun inode => (inode.mode, (), inode.nlink, inode.blkcnt, inode.size,
        inode.directBlks, inode.indirectBlk, inode.doubleIndirectBlk)
      invFun := fun (mode, (), nlink, blkcnt, size, directBlks, indirectBlk, doubleIndirectBlk) =>
        ⟨mode, nlink, blkcnt, size, directBlks, indirectBlk, doubleIndirectBlk⟩
      left_inv := fun _ => rfl
      right_inv := fun _ => rfl }

theorem inodeCodec_width : inodeCodec.width = 88 := rfl

def inodeInit : Inode where
  mode := 0
  nlink := 1
  blkcnt := 0
  size := 0
  directBlks := Vector.replicate directBlksNum 0
  indirectBlk := 0
  doubleIndirectBlk := 0

def inodeSetMode (inode : Inode) (mode : UInt32) : Inode := { inode with mode := mode }

def inodeSetNlink (inode : Inode) (nlink : UInt64) : Inode := { inode with nlink := nlink }

def inodeAddBlock (inode : Inode) (dataIdx : ChisaiSize) : Inode :=
  { inode with directBlks := inode.directBlks.set 0 dataIdx }

def inodeGetBlkcnt (inode : Inode) : Int64 := inode.blkcnt

def inodeGetSize (inode : Inode) : Int64 := inode.size

def inodeSetSize (inode : Inode) (size : Int64) : Inode :=
  { inode with size := size, blkcnt := size / 512 + 1 }

def inodeSave (inode : Inode) (d : Device) (offset : ℕ) : Exec Device :=
  deviceDataSave d offset (inodeCodec.enc inode)

def inodeLoad (d : Device) (offset : ℕ) : Exec Inode := do
  let buf ← deviceDataLoad d offset inodeCodec.width
  return inodeCodec.dec buf

/-- The direct block of number `n`, 0 past the last one. -/
def Inode.blk (inode : Inode) (n : ℕ) : ChisaiSize :=
  if h : n < directBlksNum then inode.directBlks[n] else 0

def Inode.setBlk (inode : Inode) (n : ℕ) (k : ChisaiSize) : Inode :=
  if h : n < directBlksNum then { inode with directBlks := inode.directBlks.set n k } else inode

section Blocks

variable {inode : Inode} {n m : ℕ} {k : ChisaiSize}

theorem Inode.blk_of_lt (h : n < directBlksNum) : inode.blk n = inode.directBlks[n] := dif_pos h

theorem Inode.directBlks_zero (inode : Inode) : inode.directBlks[0] = inode.blk 0 := rfl

theorem Inode.blk_of_ge (h : directBlksNum ≤ n) : inode.blk n = 0 := dif_neg (not_lt.mpr h)

theorem Inode.lt_of_blk_ne (h : inode.blk n ≠ 0) : n < directBlksNum := by
  by_contra hn
  exact h (blk_of_ge (not_lt.mp hn))

theorem Inode.setBlk_of_lt (h : n < directBlksNum) :
    inode.setBlk n k = { inode with directBlks := inode.directBlks.set n k } := dif_pos h

@[simp] theorem Inode.setBlk_mode : (inode.setBlk n k).mode = inode.mode := by
  unfold setBlk
  split_ifs <;> rfl

@[simp] theorem Inode.setBlk_size : (inode.setBlk n k).size = inode.size := by
  unfold setBlk
  split_ifs <;> rfl

theorem Inode.blk_setBlk_same (h : n < directBlksNum) : (inode.setBlk n k).blk n = k := by
  simp [setBlk, blk, h]

theorem Inode.blk_setBlk_of_ne (h : m ≠ n) : (inode.setBlk n k).blk m = inode.blk m := by
  unfold setBlk
  split_ifs with hn
  · by_cases hm : m < directBlksNum
    · rw [blk_of_lt hm, blk_of_lt hm]
      exact Vector.getElem_set_ne hn hm (Ne.symm h)
    · rw [blk_of_ge (not_lt.mp hm), blk_of_ge (not_lt.mp hm)]
  · rfl

theorem inodeInit_blk (n : ℕ) : inodeInit.blk n = 0 := by
  unfold Inode.blk inodeInit
  split_ifs <;> simp

theorem blk_inodeAddBlock (n : ℕ) :
    (inodeAddBlock inode k).blk n = if n = 0 then k else inode.blk n := by
  split_ifs with hn
  · subst hn
    exact Inode.blk_setBlk_same (by decide)
  · exact Inode.blk_setBlk_of_ne hn

@[simp] theorem Inode.blk_inodeSetSize (size : Int64) : (inodeSetSize inode size).blk n = inode.blk n :=
  rfl

end Blocks

end ChisaiFs
