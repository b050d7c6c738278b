import ChisaiFs.Layout

/-! The file system seen as a table of inodes, an array of data blocks and the two sets of
used indexes. A mounted file system has such a volume, and its device writes act on it as
updates of one slot or of one block. -/

namespace ChisaiFs
open Cells Outcome

@[ext] structure Volume where
  inode : ChisaiSize → Inode
  block : ChisaiSize → ℕ → UInt8
  inodeUsed : Set ChisaiSize
  dataUsed : Set ChisaiSize

namespace Volume

variable (v : Volume) (i j : ChisaiSize)

def setInode (x : Inode) : Volume := { v with inode := Function.update v.inode i x }

def writeBlock (off : ℕ) (bytes : List UInt8) : Volume :=
  { v with block := Function.update v.block i (overwrite (v.block i) off bytes) }

def useInode : Volume := { v with inodeUsed := insert i v.inodeUsed }
def freeInode : Volume := { v with inodeUsed := v.inodeUsed \ {i} }
def useData : Volume := { v with dataUsed := insert i v.dataUsed }
def freeData : Volume := { v with dataUsed := v.dataUsed \ {i} }

/-- The directory in the first bytes of a block. -/
def dir : Dir := dirCodec.dec (slice (v.block i) 0 dirCodec.width)

def setDir (dir : Dir) : Volume := v.writeBlock i 0 (dirCodec.enc dir)

variable {v i j}

@[simp] theorem setInode_inode_same (x : Inode) : (v.setInode i x).inode i = x :=
  Function.update_self ..

theorem setInode_inode_of_ne (x : Inode) (h : j ≠ i) : (v.setInode i x).inode j = v.inode j :=
  Function.update_of_ne h ..

@[simp] theorem setInode_block (x : Inode) : (v.setInode i x).block = v.block := rfl
@[simp] theorem setInode_inodeUsed (x : Inode) : (v.setInode i x).inodeUsed = v.inodeUsed := rfl
@[simp] theorem setInode_dataUsed (x : Inode) : (v.setInode i x).dataUsed = v.dataUsed := rfl
@[simp] theorem setInode_dir (x : Inode) : (v.setInode i x).dir = v.dir := rfl

@[simp] theorem writeBlock_inode (off : ℕ) (bs : List UInt8) :
    (v.writeBlock i off bs).inode = v.inode := rfl

@[simp] theorem writeBlock_inodeUsed (off : ℕ) (bs : List UInt8) :
    (v.writeBlock i off bs).inodeUsed = v.inodeUsed := rfl

@[simp] theorem writeBlock_dataUsed (off : ℕ) (bs : List UInt8) :
    (v.writeBlock i off bs).dataUsed = v.dataUsed := rfl

@[simp] theorem writeBlock_block_same (off : ℕ) (bs : List UInt8) :
    (v.writeBlock i off bs).block i = overwrite (v.block i) off bs :=
  Function.update_self ..

theorem writeBlock_block_of_ne (off : ℕ) (bs : List UInt8) (h : j ≠ i) :
    (v.writeBlock i off bs).block j = v.block j :=
  Function.update_of_ne h ..

@[simp] theorem setInode_setInode (x y : Inode) :
    (v.setInode i x).setInode i y = v.setInode i y := by
  unfold setInode
  rw [Function.update_idem]

@[simp] theorem setInode_self : v.setInode i (v.inode i) = v := by
  unfold setInode
  rw [Function.update_eq_self]

theorem writeBlock_comm {off off' : ℕ} {bs bs' : List UInt8} (h : i ≠ j) :
    (v.writeBlock i off bs).writeBlock j off' bs' =
      (v.writeBlock j off' bs').writeBlock i off bs := by
  unfold writeBlock
  simp only [Function.update_of_ne h, Function.update_of_ne (Ne.symm h)]
  rw [Function.update_comm h]

theorem setDir_freeInode (dir : Dir) :
    (v.freeInode i).setDir j dir = (v.setDir j dir).freeInode i := rfl

theorem setDir_freeData (dir : Dir) :
    (v.freeData i).setDir j dir = (v.setDir j dir).freeData i := rfl

theorem freeData_freeInode : (v.freeData i).freeInode j = (v.freeInode j).freeData i := rfl

theorem dir_congr {v w : Volume} (h : v.block i = w.block i) : v.dir i = w.dir i := by
  unfold dir
  rw [h]

theorem writeBlock_dir_of_ne (off : ℕ) (bs : List UInt8) (h : j ≠ i) :
    (v.writeBlock i off bs).dir j = v.dir j :=
  dir_congr (writeBlock_block_of_ne off bs h)

@[simp] theorem useInode_inode : (v.useInode i).inode = v.inode := rfl
@[simp] theorem useInode_block : (v.useInode i).block = v.block := rfl
@[simp] theorem useInode_dir : (v.useInode i).dir = v.dir := rfl
@[simp] theorem useInode_inodeUsed : (v.useInode i).inodeUsed = insert i v.inodeUsed := rfl
@[simp] theorem useInode_dataUsed : (v.useInode i).dataUsed = v.dataUsed := rfl

@[simp] theorem freeInode_inode : (v.freeInode i).inode = v.inode := rfl
@[simp] theorem freeInode_block : (v.freeInode i).block = v.block := rfl
@[simp] theorem freeInode_dir : (v.freeInode i).dir = v.dir := rfl
@[simp] theorem freeInode_inodeUsed : (v.freeInode i).inodeUsed = v.inodeUsed \ {i} := rfl
@[simp] theorem freeInode_dataUsed : (v.freeInode i).dataUsed = v.dataUsed := rfl

@[simp] theorem useData_inode : (v.useData i).inode = v.inode := rfl
@[simp] theorem useData_block : (v.useData i).block = v.block := rfl
@[simp] theorem useData_dir : (v.useData i).dir = v.dir := rfl
@[simp] theorem useData_inodeUsed : (v.useData i).inodeUsed = v.inodeUsed := rfl
@[simp] theorem useData_dataUsed : (v.useData i).dataUsed = insert i v.dataUsed := rfl

@[simp] theorem freeData_inode : (v.freeData i).inode = v.inode := rfl
@[simp] theorem freeData_block : (v.freeData i).block = v.block := rfl
@[simp] theorem freeData_dir : (v.freeData i).dir = v.dir := rfl
@[simp] theorem freeData_inodeUsed : (v.freeData i).inodeUsed = v.inodeUsed := rfl
@[simp] theorem freeData_dataUsed : (v.freeData i).dataUsed = v.dataUsed \ {i} := rfl

@[simp] theorem setDir_inode (dir : Dir) : (v.setDir i dir).inode = v.inode := rfl
@[simp] theorem setDir_inodeUsed (dir : Dir) : (v.setDir i dir).inodeUsed = v.inodeUsed := rfl
@[simp] theorem setDir_dataUsed (dir : Dir) : (v.setDir i dir).dataUsed = v.dataUsed := rfl

@[simp] theorem setDir_dir_same (dir : Dir) : (v.setDir i dir).dir i = dir := by
  have hs : slice ((v.setDir i dir).block i) 0 dirCodec.width = dirCodec.enc dir := by
    rw [setDir, writeBlock_block_same, ← dirCodec.length_enc dir]
    exact slice_overwrite_self _ _ _
  rw [Volume.dir, hs, dirCodec.dec_enc]

theorem setDir_dir_of_ne (dir : Dir) (h : j ≠ i) : (v.setDir i dir).dir j = v.dir j :=
  writeBlock_dir_of_ne 0 _ h

theorem setDir_block_of_ne (dir : Dir) (h : j ≠ i) : (v.setDir i dir).block j = v.block j :=
  writeBlock_block_of_ne 0 _ h

end Volume

def usedSet (n : ℕ) (ms : List GroupMap) : Set ChisaiSize :=
  {k | bitAt n ms (k - 1).toNat = true}

def volume (geo : Geometry) (fs : Filesystem) : Volume where
  inode i := inodeCodec.dec (slice fs.d.bytes (geo.slotOff (i - 1).toNat) inodeCodec.width)
  block k j := if j < geo.blkSize then fs.d.bytes (geo.blkOff (k - 1).toNat + j) else 0
  inodeUsed := usedSet geo.perGroup fs.blkGrps.inode
  dataUsed := usedSet geo.perGroup fs.blkGrps.data

section Writes

variable {geo : Geometry} {fs : Filesystem}

theorem volume_overwrite_slot (i : ChisaiSize) (x : Inode) (bytes : ℕ → UInt8)
    (hb : bytes = overwrite fs.d.bytes (geo.slotOff (i - 1).toNat) (inodeCodec.enc x)) :
    volume geo { fs with d := { fs.d with bytes := bytes } } = (volume geo fs).setInode i x := by
  subst hb
  have hlen : (inodeCodec.enc x).length = 88 := inodeCodec.length_enc x
  have hw := inodeCodec_width
  ext1
  · funext j
    by_cases hj : j = i
    · subst hj
      have hs := slice_overwrite_self fs.d.bytes (geo.slotOff (j - 1).toNat) (inodeCodec.enc x)
      rw [hlen, ← hw] at hs
      simp [volume, hs]
    · have hd := geo.slot_slot_disjoint (sub_one_injective hj)
      rw [Volume.setInode_inode_of_ne x hj]
      simp only [volume]
      rw [slice_overwrite_disjoint fs.d.bytes (by omega)]
  · funext k j
    have hd := geo.slot_blk_disjoint (i - 1).toNat (k - 1).toNat
    simp only [volume, Volume.setInode_block]
    split_ifs with hj
    · exact overwrite_outside _ (by omega)
    · rfl
  · rfl
  · rfl

theorem volume_overwrite_block (k : ChisaiSize) (off : ℕ) (bs : List UInt8) (bytes : ℕ → UInt8)
    (hfit : off + bs.length ≤ geo.blkSize)
    (hb : bytes = overwrite fs.d.bytes (geo.blkOff (k - 1).toNat + off) bs) :
    volume geo { fs with d := { fs.d with bytes := bytes } } =
      (volume geo fs).writeBlock k off bs := by
  subst hb
  have hw := inodeCodec_width
  ext1
  · funext i
    have hd := geo.slot_blk_disjoint (i - 1).toNat (k - 1).toNat
    simp only [volume, Volume.writeBlock_inode]
    rw [slice_overwrite_disjoint fs.d.bytes (by omega)]
  · funext j q
    by_cases hj : j = k
    · subst hj
      rw [Volume.writeBlock_block_same]
      simp only [volume]
      by_cases hin : off ≤ q ∧ q - off < bs.length
      · have hq : q < geo.blkSize := by omega
        have hin' : geo.blkOff (j - 1).toNat + off ≤ geo.blkOff (j - 1).toNat + q ∧
            geo.blkOff (j - 1).toNat + q - (geo.blkOff (j - 1).toNat + off) < bs.length := by omega
        have he : geo.blkOff (j - 1).toNat + q - (geo.blkOff (j - 1).toNat + off) = q - off := by
          omega
        simp only [overwrite, hq, hin, hin', he, ↓reduceIte, ↓reduceDIte, and_self]
      · rw [overwrite_outside _ (by omega), overwrite_outside _ (by omega)]
    · have hd := geo.blk_blk_disjoint (sub_one_injective hj)
      rw [Volume.writeBlock_block_of_ne off bs hj]
      simp only [volume]
      split_ifs with hq
      · exact overwrite_outside _ (by omega)
      · rfl
  · rfl
  · rfl

end Writes

end ChisaiFs
