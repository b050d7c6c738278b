import ChisaiFs.BlockGroup
import ChisaiFs.Superblock
import ChisaiFs.Inode
import ChisaiFs.Dir

/-! The operations of the file system over the device, the superblock and the in-memory
block groups. Offsets are the non-negative ones the kernel passes, so they are naturals;
arithmetic in 32-bit operands is that of `UInt32`, and the 64-bit sums cannot wrap. -/

namespace ChisaiFs
open Words

/-- `blkgrpSize` is the static `BLKGRP_SIZE`, 0 until the file system is mounted. -/
structure Filesystem where
  sb : Superblock
  blkGrps : BlockGroups
  d : Device
  blkgrpSize : ℕ

structure FileInfo where
  inode : Inode
  idx : ChisaiSize
  deriving DecidableEq

def fsInodeToOffset (fs : Filesystem) (inodeIdx : ChisaiSize) : ℕ :=
  let grpIdx := (inodeIdx - 1) / fs.sb.dataBlockPerGroups
  let bitvecIdx := (inodeIdx - 1) % fs.sb.dataBlockPerGroups
  let blkSize := fs.sb.blockSize
  blkSize.toNat + grpIdx.toNat * fs.blkgrpSize + (2 * blkSize).toNat + (inodeSize * bitvecIdx).toNat

def fsDataToOffset (fs : Filesystem) (dataIdx : ChisaiSize) : ℕ :=
  let grpIdx := (dataIdx - 1) / fs.sb.dataBlockPerGroups
  let bitvecIdx := (dataIdx - 1) % fs.sb.dataBlockPerGroups
  let blkSize := fs.sb.blockSize
  blkSize.toNat + grpIdx.toNat * fs.blkgrpSize + (2 * blkSize).toNat +
    (inodeSize * fs.sb.dataBlockPerGroups).toNat + (blkSize * bitvecIdx).toNat

def fsInodeAlloc (fs : Filesystem) : Exec (ChisaiSize × Filesystem) := do
  let (inodeIdx, blkGrps) ← blkgrpsInodeAlloc fs.blkGrps
  if inodeIdx = 0 then
    return (noInode, { fs with blkGrps := blkGrps })
  else
    return (inodeIdx, { fs with
      blkGrps := blkGrps, sb := { fs.sb with freeInodes := fs.sb.freeInodes - 1 } })

def fsDataAlloc (fs : Filesystem) : Exec (ChisaiSize × Filesystem) := do
  let (dataIdx, blkGrps) ← blkgrpsDataAlloc fs.blkGrps
  if dataIdx = 0 then
    return (0, { fs with blkGrps := blkGrps })
  else
    return (dataIdx, { fs with
      blkGrps := blkGrps, sb := { fs.sb with freeBlocks := fs.sb.freeBlocks - 1 } })

def fsInodeRelease (fs : Filesystem) (inodeIdx : ChisaiSize) : Exec Filesystem := do
  let blkGrps ← blkgrpsInodeRelease fs.blkGrps inodeIdx
  return { fs with
    blkGrps := blkGrps, sb := { fs.sb with freeInodes := fs.sb.freeInodes + 1 } }

/-- The counter goes up even when index 0 is released. -/
def fsDataRelease (fs : Filesystem) (dataIdx : ChisaiSize) : Exec Filesystem := do
  let blkGrps ← blkgrpsDataRelease fs.blkGrps dataIdx
  return { fs with
    blkGrps := blkGrps, sb := { fs.sb with freeBlocks := fs.sb.freeBlocks + 1 } }

def fsSaveInode (fs : Filesystem) (inode : Inode) (inodeIdx : ChisaiSize) : Exec Filesystem := do
  let d ← inodeSave inode fs.d (fsInodeToOffset fs inodeIdx)
  return { fs with d := d }

def fsSaveDir (fs : Filesystem) (dir : Dir) (dataIdx : ChisaiSize) : Exec Filesystem := do
  let d ← dirSave dir fs.d (fsDataToOffset fs dataIdx)
  return { fs with d := d }

def fsFindInode (fs : Filesystem) (inodeIdx : ChisaiSize) : Exec (Option Inode) := do
  if ← blkgrpsInodeExist fs.blkGrps inodeIdx then
    let inode ← inodeLoad fs.d (fsInodeToOffset fs inodeIdx)
    return some inode
  else
    return none

def fsFindDir (fs : Filesystem) (dataIdx : ChisaiSize) : Exec (Option Dir) := do
  if ← blkgrpsDataExist fs.blkGrps dataIdx then
    let dir ← dirLoad fs.d (fsDataToOffset fs dataIdx)
    return some dir
  else
    return none

def fsCreateRoot (fs : Filesystem) : Exec Filesystem := do
  let rootInodeRec := inodeSetNlink (inodeSetMode inodeInit (sIfdir ||| 0o777)) 2
  let (dataIdx, fs) ← fsDataAlloc fs
  assertThat (dataIdx = 1)
  let fs ← fsSaveDir fs dirInit dataIdx
  let (inodeIdx, fs) ← fsInodeAlloc fs
  assertThat (inodeIdx = badblkInode)
  let (inodeIdx, fs) ← fsInodeAlloc fs
  assertThat (inodeIdx = rootInode)
  fsSaveInode fs (inodeAddBlock rootInodeRec dataIdx) inodeIdx

/-- `fs_init` on the state of a process, whose `blkgrpSize` is still 0 if it is fresh. -/
def fsInit (fs : Filesystem) : Exec Filesystem := do
  let sb ← superblockLoad fs.d
  let blkSize := sb.blockSize
  assertThat (fs.blkgrpSize = 0)
  let blkGrps ← blkgrpsLoad fs.d blkSize sb.groups
  if sb.magic ≠ magic then .error .die
  let fs : Filesystem :=
    { sb := sb, blkGrps := blkGrps, d := fs.d, blkgrpSize := blkgrpBytes blkSize }
  let fs ← if ← blkgrpsInodeExist fs.blkGrps rootInode then .ok fs else fsCreateRoot fs
  assertThat (inodeCodec.width ≤ inodeSize.toNat)
  assertThat (dirCodec.width ≤ blkSize.toNat)
  return fs

def fsDestroy (fs : Filesystem) : Filesystem :=
  { fs with blkGrps := blkgrpsDestroy fs.blkGrps }

def slash : UInt8 := 47

/-- The tokens `strtok` delivers one after the other with the delimiter `/`. -/
def strtokSlash (path : CString) : List CString := (path.splitOn slash).filter (· ≠ [])

/-- `strrchr(path, '/')`, as the texts before and after the last slash. -/
def strrchrSlash (path : CString) : Option (CString × CString) :=
  match path.reverse.dropWhile (· ≠ slash) with
  | [] => none
  | _ :: before => some (before.reverse, (path.reverse.takeWhile (· ≠ slash)).reverse)

/-- The loop of `fs_path_to_inode` over the remaining tokens. -/
def fsWalk (fs : Filesystem) :
    List CString → ChisaiSize → Inode → Exec (Option (ChisaiSize × Inode))
  | [], inodeIdx, inode => .ok (some (inodeIdx, inode))
  | token :: rest, _, inode => do
    match ← fsFindDir fs (getElem inode.directBlks 0 directBlksNum_pos) with
    | none => return none
    | some dir =>
      let inodeIdx ← dirFileInodeIdx dir token
      if inodeIdx = 0 then
        return none
      else
        match ← fsFindInode fs inodeIdx with
        | none => return none
        | some inode => fsWalk fs rest inodeIdx inode

/-- `none` stands for `NO_INODE`. -/
def fsPathToInode (fs : Filesystem) (path : CString) : Exec (Option (ChisaiSize × Inode)) := do
  match ← fsFindInode fs rootInode with
  | none => return none
  | some inode => fsWalk fs (strtokSlash path) rootInode inode

def fsGetMetadata (fs : Filesystem) (path : CString) : Exec (Except ChisaiError FileInfo) := do
  match ← fsPathToInode fs path with
  | none => return .error .enoent
  | some (idx, inode) => return .ok ⟨inode, idx⟩

/-- `__fs_get_dir`. -/
def fsGetDirOf (fs : Filesystem) (path : CString) : Exec (Except ChisaiError (Inode × Dir)) := do
  match ← fsPathToInode fs path with
  | none => return .error .enoent
  | some (_, inode) =>
    match ← fsFindDir fs (getElem inode.directBlks 0 directBlksNum_pos) with
    | none => return .error .corrupt
    | some dir => return .ok (inode, dir)

/-- What `fs_path_to_parent` delivers: the parent's inode and directory, and the file name. -/
structure Parent where
  inode : Inode
  dir : Dir
  filePath : CString

/-- The name is copied into the caller's buffer of `CHISAI_FILE_LEN` bytes before its
length is checked. -/
def fsPathToParent (fs : Filesystem) (path : CString) : Exec (Except ChisaiError Parent) := do
  match strrchrSlash path with
  | none => .error .outOfRange
  | some (parentPath, filePath) =>
    if filePath.length + 1 > chisaiFileLen then .error .outOfRange
    if filePath.length > chisaiFileLen then
      return .error .enametoolong
    else
      match ← fsGetDirOf fs parentPath with
      | .error e => return .error e
      | .ok (inode, dir) => return .ok ⟨inode, dir, filePath⟩

def fsMkdir (fs : Filesystem) (path : CString) (mode : UInt32) :
    Exec (ChisaiError × Filesystem) := do
  match ← fsPathToParent fs path with
  | .error e => return (e, fs)
  | .ok parent =>
    if (← dirFileInodeIdx parent.dir parent.filePath) ≠ 0 then
      return (.eexist, fs)
    else
      let (newDataIdx, fs) ← fsDataAlloc fs
      if newDataIdx = 0 then
        return (.enomem, fs)
      else
        let (newInodeIdx, fs) ← fsInodeAlloc fs
        if newInodeIdx = noInode then
          return (.enomem, fs)
        else
          let (_, parentDir) ← dirInsert parent.dir parent.filePath newInodeIdx
          let fs ← fsSaveDir fs parentDir (getElem parent.inode.directBlks 0 directBlksNum_pos)
          let newInode := inodeSetSize
            (inodeSetNlink (inodeSetMode inodeInit (sIfdir ||| mode)) 2) 0x1000
          let fs ← fsSaveInode fs (inodeAddBlock newInode newDataIdx) newInodeIdx
          let fs ← fsSaveDir fs dirInit newDataIdx
          return (.ok, fs)

/-- Returns what `file` points to: filled in on success, as it was otherwise. -/
def fsCreateFile (fs : Filesystem) (path : CString) (mode : UInt32) (file : FileInfo) :
    Exec (ChisaiError × FileInfo × Filesystem) := do
  match ← fsPathToParent fs path with
  | .error e => return (e, file, fs)
  | .ok parent =>
    if (← dirFileInodeIdx parent.dir parent.filePath) ≠ 0 then
      return (.eexist, file, fs)
    else
      let (newInodeIdx, fs) ← fsInodeAlloc fs
      if newInodeIdx = noInode then
        return (.enomem, file, fs)
      else
        let (_, parentDir) ← dirInsert parent.dir parent.filePath newInodeIdx
        let fs ← fsSaveDir fs parentDir (getElem parent.inode.directBlks 0 directBlksNum_pos)
        let file : FileInfo := ⟨inodeSetMode inodeInit mode, newInodeIdx⟩
        let fs ← fsSaveInode fs file.inode newInodeIdx
        return (.ok, file, fs)

def fsRenameFile (fs : Filesystem) (src dst : CString) : Exec (ChisaiError × Filesystem) := do
  match ← fsPathToParent fs src with
  | .error e => return (e, fs)
  | .ok parentFrom =>
    let inodeIdxFrom ← dirFileInodeIdx parentFrom.dir parentFrom.filePath
    if inodeIdxFrom = 0 then
      return (.enoent, fs)
    else
      let (removed, parentDirFrom) ← dirRemove parentFrom.dir parentFrom.filePath
      if removed = 0 then
        return (.corrupt, fs)
      else
        let fs ← fsSaveDir fs parentDirFrom
          (getElem parentFrom.inode.directBlks 0 directBlksNum_pos)
        match ← fsPathToParent fs dst with
        | .error e => return (e, fs)
        | .ok parentTo =>
          let (inserted, parentDirTo) ← dirInsert parentTo.dir parentTo.filePath inodeIdxFrom
          if inserted then
            let fs ← fsSaveDir fs parentDirTo
              (getElem parentTo.inode.directBlks 0 directBlksNum_pos)
            return (.ok, fs)
          else
            return (.corrupt, fs)

def fsRemoveFile (fs : Filesystem) (path : CString) : Exec (ChisaiError × Filesystem) := do
  match ← fsPathToParent fs path with
  | .error e => return (e, fs)
  | .ok parent =>
    let (inodeIdx, parentDir) ← dirRemove parent.dir parent.filePath
    match ← fsFindInode fs inodeIdx with
    | none => .error .assertFailed
    | some inode =>
      let fs ← fsDataRelease fs (getElem inode.directBlks 0 directBlksNum_pos)
      let fs ← fsInodeRelease fs inodeIdx
      let fs ← fsSaveDir fs parentDir (getElem parent.inode.directBlks 0 directBlksNum_pos)
      return (.ok, fs)

/-- `*blk_idx` is left as it was when the block number is out of range. -/
def fsFindBlk (fs : Filesystem) (inode : Inode) (off : ℕ) (blkIdx : Option ChisaiSize) :
    Exec (ChisaiError × Option ChisaiSize) := do
  let blkSize := fs.sb.blockSize
  let blkNum : UInt32 := UInt32.ofNat (off / blkSize.toNat)
  let blkIdxsPerBlock : UInt32 := blkSize / 4
  if h : blkNum.toNat < directBlksNum then
    let found := inode.directBlks[blkNum.toNat]
    return (if found = 0 then .enoent else .ok, some found)
  else if blkNum < UInt32.ofNat directBlksNum + blkIdxsPerBlock then
    let indirOff := blkNum - UInt32.ofNat directBlksNum
    let buf ← deviceDataLoad fs.d (indirOff.toNat * 4 + fsDataToOffset fs inode.indirectBlk) 4
    let found := u32.dec buf
    return (if found = 0 then .enoent else .ok, some found)
  else
    return (.corrupt, blkIdx)

/-- The loop that clears a new indirect block, from entry `i` on. -/
def fsClearBlk (fs : Filesystem) (dataIdx : ChisaiSize) : ℕ → ℕ → Device → Exec Device
  | _, 0, d => .ok d
  | i, n + 1, d => do
    let d ← deviceDataSave d (i * 4 + fsDataToOffset fs dataIdx) (u32.enc 0)
    fsClearBlk fs dataIdx (i + 1) n d

def fsAllocBlk (fs : Filesystem) (inode : Inode) (off : ℕ) :
    Exec (ChisaiError × ChisaiSize × Inode × Filesystem) := do
  let blkSize := fs.sb.blockSize
  let blkNum : UInt32 := UInt32.ofNat (off / blkSize.toNat)
  let blkIdxsPerBlock : UInt32 := blkSize / 4
  let (blkIdx, fs) ← fsDataAlloc fs
  if blkIdx = 0 then
    return (.enomem, blkIdx, inode, fs)
  else if h : blkNum.toNat < directBlksNum then
    return (.ok, blkIdx, { inode with directBlks := inode.directBlks.set blkNum.toNat blkIdx }, fs)
  else if blkNum < UInt32.ofNat directBlksNum + blkIdxsPerBlock then
    let (blkIdx, inode, fs) ←
      if inode.indirectBlk = 0 then do
        let inode := { inode with indirectBlk := blkIdx }
        let d ← fsClearBlk fs inode.indirectBlk 0 blkIdxsPerBlock.toNat fs.d
        let (blkIdx, fs) ← fsDataAlloc { fs with d := d }
        pure (blkIdx, inode, fs)
      else pure (blkIdx, inode, fs)
    let indirOff := blkNum - UInt32.ofNat directBlksNum
    let d ← deviceDataSave fs.d (indirOff.toNat * 4 + fsDataToOffset fs inode.indirectBlk)
      (u32.enc blkIdx)
    return (.ok, blkIdx, inode, { fs with d := d })
  else
    return (.corrupt, blkIdx, inode, fs)

/-- `ALIGN_DOWN(x, a)`: `x - (a - 1)`, aligned up with the mask of `a`. -/
def alignDown (x a : UInt64) : UInt64 :=
  let mask := a - 1
  (x - (a - 1) + mask) &&& ~~~mask

/-- The offset in its block, as both loops compute it. -/
def offInblk (off blkSize : ℕ) : ℕ :=
  (UInt64.ofNat off - alignDown (UInt64.ofNat off) (UInt64.ofNat blkSize)).toNat

/-- The variables of the loop of `fs_write_file`; `blkIdx` starts without a value. -/
structure WriteState where
  fs : Filesystem
  inode : Inode
  blkIdx : Option ChisaiSize
  total : ℕ
  off : ℕ

/-- One pass of the loop: `none` when it breaks out for want of space. -/
def fsWriteChunk (buf : List UInt8) (s : WriteState) : Exec (WriteState × Bool) := do
  let blkSize := s.fs.sb.blockSize
  let (ret, blkIdx) ← fsFindBlk s.fs s.inode s.off s.blkIdx
  let (ret, blkIdx, inode, fs) ←
    if ret = .enoent then do
      let (ret, blkIdx, inode, fs) ← fsAllocBlk s.fs s.inode s.off
      pure (ret, some blkIdx, inode, fs)
    else pure (ret, blkIdx, s.inode, s.fs)
  if ret = .enomem then
    return ({ s with fs := fs, inode := inode, blkIdx := blkIdx }, true)
  else
    match blkIdx with
    | none => .error .uninitialised
    | some blk =>
      let offIn := offInblk s.off blkSize.toNat
      let wlen := min (buf.length - s.total) (blkSize.toNat - offIn)
      let d ← deviceDataSave fs.d (offIn + fsDataToOffset fs blk) ((buf.drop s.total).take wlen)
      return (⟨{ fs with d := d }, inode, blkIdx, s.total + wlen, s.off + wlen⟩, false)

/-- The loop of `fs_write_file`; the flag says whether it ended for want of space. -/
def fsWriteLoop (buf : List UInt8) : ℕ → WriteState → Exec (WriteState × Bool)
  | fuel, s =>
    if s.total < buf.length then
      match fuel with
      | 0 => .error .diverges
      | fuel + 1 => do
        let (s, nospace) ← fsWriteChunk buf s
        if nospace then return (s, true) else fsWriteLoop buf fuel s
    else .ok (s, false)

/-- Every pass stores at least one byte, so `size` passes are enough. -/
def fsWriteFile (fs : Filesystem) (file : FileInfo) (buf : List UInt8) (off : ℕ) :
    Exec (ℤ × FileInfo × Filesystem) := do
  let oldFileSz : UInt32 := (inodeGetSize file.inode).toUInt64.toUInt32
  let overwrite : Bool := off < oldFileSz.toNat
  let (s, nospace) ← fsWriteLoop buf buf.length ⟨fs, file.inode, none, 0, off⟩
  if ¬ nospace then assertThat (s.total = buf.length)
  let inode := inodeSetSize s.inode
    (Int64.ofNat (if overwrite then s.total else s.total + oldFileSz.toNat))
  let fs ← fsSaveInode s.fs inode file.idx
  return (toInt s.total, ⟨inode, file.idx⟩, fs)

/-- The loop of `fs_read_file`, with the bytes delivered so far. -/
def fsReadLoop (fs : Filesystem) (inode : Inode) (size : ℕ) :
    ℕ → List UInt8 → ℕ → Exec (ℤ × List UInt8)
  | fuel, buf, off =>
    if buf.length < size then
      match fuel with
      | 0 => .error .diverges
      | fuel + 1 => do
        let (ret, blkIdx) ← fsFindBlk fs inode off none
        if ret ≠ .ok then
          return (ret.code, buf)
        else
          match blkIdx with
          | none => .error .uninitialised
          | some blk =>
            let blkSize := fs.sb.blockSize
            let offIn := offInblk off blkSize.toNat
            let rlen := min (size - buf.length) (blkSize.toNat - offIn)
            let bytes ← deviceDataLoad fs.d (offIn + fsDataToOffset fs blk) rlen
            fsReadLoop fs inode size fuel (buf ++ bytes) (off + rlen)
    else .ok (toInt buf.length, buf)

def fsReadFile (fs : Filesystem) (file : FileInfo) (size off : ℕ) : Exec (ℤ × List UInt8) :=
  let size := min size file.inode.size.toUInt64.toNat
  fsReadLoop fs file.inode size size [] off

/-- The release loop: `idx` runs from `newBlkcnt + n - 1` down to `newBlkcnt`. -/
def fsTruncateLoop (newBlkcnt : ℕ) : ℕ → Filesystem → Inode → Exec (Filesystem × Inode)
  | 0, fs, inode => .ok (fs, inode)
  | n + 1, fs, inode =>
    if h : newBlkcnt + n < directBlksNum then do
      assertThat (inode.directBlks[newBlkcnt + n] ≠ 0)
      let fs ← fsDataRelease fs inode.directBlks[newBlkcnt + n]
      fsTruncateLoop newBlkcnt n fs
        { inode with directBlks := inode.directBlks.set (newBlkcnt + n) 0 }
    else .error .outOfRange

def fsTruncateFile (fs : Filesystem) (file : FileInfo) (trctSize : ℕ) :
    Exec (ChisaiError × FileInfo × Filesystem) := do
  let newBlkcnt := trctSize / fs.sb.blockSize.toNat
  let oldBlkcnt := inodeGetBlkcnt file.inode
  assertThat (file.inode.size.toInt ≥ trctSize)
  let (fs, inode) ← fsTruncateLoop newBlkcnt (oldBlkcnt.toInt - newBlkcnt).toNat fs file.inode
  let inode := inodeSetSize inode (Int64.ofNat trctSize)
  let fs ← fsSaveInode fs inode file.idx
  return (.ok, ⟨inode, file.idx⟩, fs)

/-- `struct chisai_dir_info`: the directory as it was opened, and the position in it. -/
structure DirInfo where
  dir : Dir
  pos : UInt32

def fsGetDir (fs : Filesystem) (path : CString) : Exec (Except ChisaiError DirInfo) := do
  match ← fsGetDirOf fs path with
  | .error e => return .error e
  | .ok (_, dir) => return .ok ⟨dir, 0⟩

/-- The cleared record with the mode that every name is given. -/
def dataInfo : FileInfo where
  inode :=
    { mode := sIfdir ||| 0o777, nlink := 0, blkcnt := 0, size := 0,
      directBlks := Vector.replicate directBlksNum 0, indirectBlk := 0, doubleIndirectBlk := 0 }
  idx := 0

/-- `strcpy` of an entry's name into the caller's buffer of `CHISAI_FILE_LEN` bytes. -/
def strcpyFromName (node : DirNode) : Exec CString :=
  let name := node.name.toList.takeWhile (· ≠ 0)
  if name.length + 1 ≤ chisaiFileLen then .ok name else .error .outOfRange

/-- The next name with its record, or `none` at the end. -/
def fsGetData (dir : DirInfo) : Exec (Option (CString × FileInfo) × DirInfo) :=
  if dir.pos = 0 then
    .ok (some ([46], dataInfo), { dir with pos := dir.pos + 1 })
  else if dir.pos = 1 then
    .ok (some ([46, 46], dataInfo), { dir with pos := dir.pos + 1 })
  else if dir.pos - 2 < dir.dir.size then
    if h : (dir.pos - 2).toNat < chisaiFilePerDir then do
      let name ← strcpyFromName (getElem dir.dir.node (dir.pos - 2).toNat h)
      return (some (name, dataInfo), { dir with pos := dir.pos + 1 })
    else .error .outOfRange
  else .ok (none, dir)

end ChisaiFs
