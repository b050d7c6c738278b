import ChisaiFs.Contents
import ChisaiFs.Library.Recorded

/-! Reads and writes on a device whose accesses past the end are left to the operating system, with
a record of every index that they pass to `fs_data_to_offset` and the block groups at that
moment. What returns on the device that refuses such accesses returns the same here. -/

namespace ChisaiFs
open Cells Words Recorded Outcome

structure Passed where
  blkGrps : BlockGroups
  idx : ChisaiSize

abbrev Traced := Rec Passed Fault

namespace Traced

variable (e : Stray)

/-- `device_data_load` in the pass at position `off` of the file. -/
def deviceDataLoad (off : ℕ) (d : Device) (offset size : ℕ) : Traced (List UInt8) :=
  if offset + size ≤ d.size then pure (slice d.bytes offset size)
  else do
    let bytes ← quiet (e.load off offset)
    return slice bytes 0 size

def deviceDataSave (off : ℕ) (d : Device) (offset : ℕ) (buf : List UInt8) : Traced Device :=
  if offset + buf.length ≤ d.size then pure { d with bytes := overwrite d.bytes offset buf }
  else do
    let bytes ← quiet (e.save off offset d buf)
    return { d with bytes := bytes }

def fsDataToOffset (fs : Filesystem) (dataIdx : ChisaiSize) : Traced ℕ :=
  record ⟨fs.blkGrps, dataIdx⟩ (ChisaiFs.fsDataToOffset fs dataIdx)

def fsFindBlk (fs : Filesystem) (inode : Inode) (off : ℕ) (blkIdx : Option ChisaiSize) :
    Traced (ChisaiError × Option ChisaiSize) := do
  let blkSize := fs.sb.blockSize
  let blkNum : UInt32 := UInt32.ofNat (off / blkSize.toNat)
  let blkIdxsPerBlock : UInt32 := blkSize / 4
  if h : blkNum.toNat < directBlksNum then
    let found := inode.directBlks[blkNum.toNat]
    return (if found = 0 then .enoent else .ok, some found)
  else if blkNum < UInt32.ofNat directBlksNum + blkIdxsPerBlock then
    let indirOff := blkNum - UInt32.ofNat directBlksNum
    let offset ← fsDataToOffset fs inode.indirectBlk
    let buf ← deviceDataLoad e off fs.d (indirOff.toNat * 4 + offset) 4
    let found := u32.dec buf
    return (if found = 0 then .enoent else .ok, some found)
  else
    return (.corrupt, blkIdx)

def fsClearBlk (fs : Filesystem) (off : ℕ) (dataIdx : ChisaiSize) : ℕ → ℕ → Device → Traced Device
  | _, 0, d => pure d
  | i, n + 1, d => do
    let offset ← fsDataToOffset fs dataIdx
    let d ← deviceDataSave e off d (i * 4 + offset) (u32.enc 0)
    fsClearBlk fs off dataIdx (i + 1) n d

def fsAllocBlk (fs : Filesystem) (inode : Inode) (off : ℕ) :
    Traced (ChisaiError × ChisaiSize × Inode × Filesystem) := do
  let blkSize := fs.sb.blockSize
  let blkNum : UInt32 := UInt32.ofNat (off / blkSize.toNat)
  let blkIdxsPerBlock : UInt32 := blkSize / 4
  let (blkIdx, fs) ← quiet (fsDataAlloc fs)
  if blkIdx = 0 then
    return (.enomem, blkIdx, inode, fs)
  else if h : blkNum.toNat < directBlksNum then
    return (.ok, blkIdx, { inode with directBlks := inode.directBlks.set blkNum.toNat blkIdx }, fs)
  else if blkNum < UInt32.ofNat directBlksNum + blkIdxsPerBlock then
    let (blkIdx, inode, fs) ←
      if inode.indirectBlk = 0 then do
        let inode := { inode with indirectBlk := blkIdx }
        let d ← fsClearBlk e fs off inode.indirectBlk 0 blkIdxsPerBlock.toNat fs.d
        let (blkIdx, fs) ← quiet (fsDataAlloc { fs with d := d })
        pure (blkIdx, inode, fs)
      else pure (blkIdx, inode, fs)
    let indirOff := blkNum - UInt32.ofNat directBlksNum
    let offset ← fsDataToOffset fs inode.indirectBlk
    let d ← deviceDataSave e off fs.d (indirOff.toNat * 4 + offset) (u32.enc blkIdx)
    return (.ok, blkIdx, inode, { fs with d := d })
  else
    return (.corrupt, blkIdx, inode, fs)

def fsWriteChunk (buf : List UInt8) (s : WriteState) : Traced (WriteState × Bool) := do
  let blkSize := s.fs.sb.blockSize
  let (ret, blkIdx) ← fsFindBlk e s.fs s.inode s.off s.blkIdx
  let (ret, blkIdx, inode, fs) ←
    if ret = .enoent then do
      let (ret, blkIdx, inode, fs) ← fsAllocBlk e s.fs s.inode s.off
      pure (ret, some blkIdx, inode, fs)
    else pure (ret, blkIdx, s.inode, s.fs)
  if ret = .enomem then
    return ({ s with fs := fs, inode := inode, blkIdx := blkIdx }, true)
  else
    match blkIdx with
    | none => quiet (.error .uninitialised)
    | some blk =>
      let offIn := offInblk s.off blkSize.toNat
      let wlen := min (buf.length - s.total) (blkSize.toNat - offIn)
      let offset ← fsDataToOffset fs blk
      let d ← deviceDataSave e s.off fs.d (offIn + offset) ((buf.drop s.total).take wlen)
      return (⟨{ fs with d := d }, inode, blkIdx, s.total + wlen, s.off + wlen⟩, false)

def fsWriteLoop (buf : List UInt8) : ℕ → WriteState → Traced (WriteState × Bool)
  | fuel, s =>
    if s.total < buf.length then
      match fuel with
      | 0 => quiet (.error .diverges)
      | fuel + 1 => do
        let (s, nospace) ← fsWriteChunk e buf s
        if nospace then return (s, true) else fsWriteLoop buf fuel s
    else pure (s, false)

def fsWriteFile (fs : Filesystem) (file : FileInfo) (buf : List UInt8) (off : ℕ) :
    Traced (ℤ × FileInfo × Filesystem) := do
  let oldFileSz : UInt32 := (inodeGetSize file.inode).toUInt64.toUInt32
  let overwrite : Bool := off < oldFileSz.toNat
  let (s, nospace) ← fsWriteLoop e buf buf.length ⟨fs, file.inode, none, 0, off⟩
  if ¬ nospace then quiet (assertThat (s.total = buf.length))
  let inode := inodeSetSize s.inode
    (Int64.ofNat (if overwrite then s.total else s.total + oldFileSz.toNat))
  let fs ← quiet (fsSaveInode s.fs inode file.idx)
  return (toInt s.total, ⟨inode, file.idx⟩, fs)

def fsReadLoop (fs : Filesystem) (inode : Inode) (size : ℕ) :
    ℕ → List UInt8 → ℕ → Traced (ℤ × List UInt8)
  | fuel, buf, off =>
    if buf.length < size then
      match fuel with
      | 0 => quiet (.error .diverges)
      | fuel + 1 => do
        let (ret, blkIdx) ← fsFindBlk e fs inode off none
        if ret ≠ .ok then
          return (ret.code, buf)
        else
          match blkIdx with
          | none => quiet (.error .uninitialised)
          | some blk =>
            let blkSize := fs.sb.blockSize
            let offIn := offInblk off blkSize.toNat
            let rlen := min (size - buf.length) (blkSize.toNat - offIn)
            let offset ← fsDataToOffset fs blk
            let bytes ← deviceDataLoad e off fs.d (offIn + offset) rlen
            fsReadLoop fs inode size fuel (buf ++ bytes) (off + rlen)
    else pure (toInt buf.length, buf)

def fsReadFile (fs : Filesystem) (file : FileInfo) (size off : ℕ) : Traced (ℤ × List UInt8) :=
  let size := min size file.inode.size.toUInt64.toNat
  fsReadLoop e fs file.inode size size [] off

variable {e}

theorem deviceDataLoad_unless (off : ℕ) (d : Device) (offset size : ℕ) :
    Unless .outsideDevice (ChisaiFs.deviceDataLoad d offset size)
      (deviceDataLoad e off d offset size).result := by
  unfold deviceDataLoad ChisaiFs.deviceDataLoad
  split_ifs
  · exact Or.inr rfl
  · exact Or.inl rfl

theorem deviceDataSave_unless (off : ℕ) (d : Device) (offset : ℕ) (buf : List UInt8) :
    Unless .outsideDevice (ChisaiFs.deviceDataSave d offset buf)
      (deviceDataSave e off d offset buf).result := by
  unfold deviceDataSave ChisaiFs.deviceDataSave
  split_ifs
  · exact Or.inr rfl
  · exact Or.inl rfl

theorem fsFindBlk_unless (fs : Filesystem) (inode : Inode) (off : ℕ) (blkIdx : Option ChisaiSize) :
    Unless .outsideDevice (ChisaiFs.fsFindBlk fs inode off blkIdx)
      (fsFindBlk e fs inode off blkIdx).result := by
  unfold fsFindBlk ChisaiFs.fsFindBlk
  dsimp only
  split_ifs
  all_goals try exact .refl _
  all_goals
    simp only [result_bind, fsDataToOffset, result_record, ok_bind]
    exact (deviceDataLoad_unless ..).bind fun _ => .refl _

theorem fsClearBlk_unless (fs : Filesystem) (off : ℕ) (k : ChisaiSize) (i n : ℕ) (d : Device) :
    Unless .outsideDevice (ChisaiFs.fsClearBlk fs k i n d) (fsClearBlk e fs off k i n d).result := by
  induction n generalizing i d with
  | zero => exact .refl _
  | succ n ih =>
    unfold fsClearBlk ChisaiFs.fsClearBlk
    simp only [result_bind, fsDataToOffset, result_record, ok_bind]
    exact (deviceDataSave_unless ..).bind fun d => ih (i + 1) d

theorem fsAllocBlk_unless (fs : Filesystem) (inode : Inode) (off : ℕ) :
    Unless .outsideDevice (ChisaiFs.fsAllocBlk fs inode off) (fsAllocBlk e fs inode off).result := by
  unfold fsAllocBlk ChisaiFs.fsAllocBlk
  dsimp only
  rw [result_bind, result_quiet]
  refine (Unless.refl _).bind fun r => ?_
  obtain ⟨k, fs₁⟩ := r
  dsimp only
  split_ifs
  all_goals try exact .refl _
  · simp only [result_bind, result_quiet, fsDataToOffset, result_record, result_pure, ok_bind]
    refine (fsClearBlk_unless ..).bind fun d => (Unless.refl _).bind fun r =>
      (Unless.refl _).bind fun r => ?_
    exact (deviceDataSave_unless ..).bind fun _ => .refl _
  · simp only [result_bind, fsDataToOffset, result_record, result_pure, pure_bind, ok_bind]
    exact (deviceDataSave_unless ..).bind fun _ => .refl _

theorem fsWriteChunk_unless (buf : List UInt8) (s : WriteState) :
    Unless .outsideDevice (ChisaiFs.fsWriteChunk buf s) (fsWriteChunk e buf s).result := by
  unfold fsWriteChunk ChisaiFs.fsWriteChunk
  dsimp only
  rw [result_bind]
  refine (fsFindBlk_unless ..).bind fun r => ?_
  obtain ⟨ret, found⟩ := r
  dsimp only
  split_ifs
  · rw [result_bind]
    refine (fsAllocBlk_unless ..).bind fun r => ?_
    obtain ⟨ret, k, inode, fs⟩ := r
    rw [result_bind]
    refine (Unless.refl _).bind fun r => ?_
    obtain ⟨ret, found, inode, fs⟩ := r
    dsimp only
    split_ifs
    · exact .refl _
    · cases found with
      | none => exact .refl _
      | some k =>
        simp only [result_bind, fsDataToOffset, result_record, ok_bind]
        exact (deviceDataSave_unless ..).bind fun _ => .refl _
  · rw [result_bind]
    refine (Unless.refl _).bind fun r => ?_
    obtain ⟨ret, found, inode, fs⟩ := r
    dsimp only
    split_ifs
    · exact .refl _
    · cases found with
      | none => exact .refl _
      | some k =>
        simp only [result_bind, fsDataToOffset, result_record, ok_bind]
        exact (deviceDataSave_unless ..).bind fun _ => .refl _

theorem fsWriteLoop_unless (buf : List UInt8) (fuel : ℕ) (s : WriteState) :
    Unless .outsideDevice (ChisaiFs.fsWriteLoop buf fuel s) (fsWriteLoop e buf fuel s).result := by
  induction fuel generalizing s with
  | zero =>
    unfold fsWriteLoop ChisaiFs.fsWriteLoop
    split_ifs <;> exact .refl _
  | succ fuel ih =>
    unfold fsWriteLoop ChisaiFs.fsWriteLoop
    split_ifs
    · rw [result_bind]
      refine (fsWriteChunk_unless buf s).bind fun r => ?_
      obtain ⟨s₁, nospace⟩ := r
      dsimp only
      split_ifs
      · exact .refl _
      · exact ih s₁
    · exact .refl _

/-- The write is the one of the source: where no access is refused it does the same. -/
theorem fsWriteFile_unless (fs : Filesystem) (file : FileInfo) (buf : List UInt8) (off : ℕ) :
    Unless .outsideDevice (ChisaiFs.fsWriteFile fs file buf off)
      (fsWriteFile e fs file buf off).result := by
  unfold fsWriteFile ChisaiFs.fsWriteFile
  dsimp only
  rw [result_bind]
  refine (fsWriteLoop_unless ..).bind fun r => ?_
  obtain ⟨s, nospace⟩ := r
  dsimp only
  split_ifs <;> simp only [result_bind, result_quiet, result_pure] <;> exact .refl _

theorem fsReadLoop_unless (fs : Filesystem) (inode : Inode) (size fuel : ℕ) (buf : List UInt8)
    (off : ℕ) :
    Unless .outsideDevice (ChisaiFs.fsReadLoop fs inode size fuel buf off)
      (fsReadLoop e fs inode size fuel buf off).result := by
  induction fuel generalizing buf off with
  | zero =>
    unfold fsReadLoop ChisaiFs.fsReadLoop
    split_ifs <;> exact .refl _
  | succ fuel ih =>
    unfold fsReadLoop ChisaiFs.fsReadLoop
    split_ifs
    · rw [result_bind]
      refine (fsFindBlk_unless ..).bind fun r => ?_
      obtain ⟨ret, found⟩ := r
      dsimp only
      split_ifs
      · exact .refl _
      · cases found with
        | none => exact .refl _
        | some k =>
          simp only [result_bind, fsDataToOffset, result_record, ok_bind]
          exact (deviceDataLoad_unless ..).bind fun bytes => ih _ _
    · exact .refl _

/-- The read is the one of the source. -/
theorem fsReadFile_unless (fs : Filesystem) (file : FileInfo) (size off : ℕ) :
    Unless .outsideDevice (ChisaiFs.fsReadFile fs file size off)
      (fsReadFile e fs file size off).result :=
  fsReadLoop_unless _ _ _ _ _ _

end Traced

end ChisaiFs
