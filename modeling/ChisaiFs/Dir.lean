import ChisaiFs.Device
import ChisaiFs.Library.Words
import ChisaiFs.Library.Outcome

/-! Directories: fifteen entries of a 28-byte name and an inode index, stored as the first
488 bytes of a data block. -/

namespace ChisaiFs
open Words

structure DirNode where
  name : Vector UInt8 chisaiFileLen
  idx : ChisaiSize
  deriving DecidableEq

def dirNodeCodec : Codec UInt8 DirNode :=
  ((u8.array chisaiFileLen).pair u32).via
    { toFun := fun node => (node.name, node.idx)
      invFun := fun (name, idx) => ⟨name, idx⟩
      left_inv := fun _ => rfl
      right_inv := fun _ => rfl }

structure Dir where
  node : Vector DirNode chisaiFilePerDir
  size : UInt32
  checksum : UInt32
  deriving DecidableEq

def dirCodec : Codec UInt8 Dir :=
  ((dirNodeCodec.array chisaiFilePerDir).pair (u32.pair u32)).via
    { toFun := fun dir => (dir.node, dir.size, dir.checksum)
      invFun := fun (node, size, checksum) => ⟨node, size, checksum⟩
      left_inv := fun _ => rfl
      right_inv := fun _ => rfl }

theorem dirNodeCodec_width : dirNodeCodec.width = 32 := rfl

theorem dirCodec_width : dirCodec.width = 488 := rfl

theorem dirCodec_dec_size (l : List UInt8) :
    (dirCodec.dec l).size = u32.dec ((l.drop 480).take 4) := rfl

def dirInit : Dir where
  node := Vector.replicate chisaiFilePerDir ⟨Vector.replicate chisaiFileLen 0, 0⟩
  size := 0
  checksum := 0

def dirSave (dir : Dir) (d : Device) (offset : ℕ) : Exec Device :=
  deviceDataSave d offset (dirCodec.enc dir)

def dirLoad (d : Device) (offset : ℕ) : Exec Dir := do
  let buf ← deviceDataLoad d offset dirCodec.width
  return dirCodec.dec buf

/-- `strcmp(mem, s) == 0`, reading `mem` up to its first difference from `s`. -/
def strcmpEq : List UInt8 → CString → Exec Bool
  | [], _ => .error .outOfRange
  | x :: _, [] => .ok (x == 0)
  | x :: xs, c :: cs => if x = c then strcmpEq xs cs else .ok false

/-- `strcpy` into the name of an entry. What does not fit there runs into the index. -/
def strcpyName (node : DirNode) (s : CString) : Exec DirNode :=
  if s.length + 1 ≤ dirNodeCodec.width then
    .ok (dirNodeCodec.dec (s ++ 0 :: (dirNodeCodec.enc node).drop (s.length + 1)))
  else .error .outOfRange

/-- The search loop of `dir_file_inode_idx` and `dir_remove`: `n` entries from entry `i` on. -/
def dirFindFrom (dir : Dir) (filePath : CString) :
    ℕ → ℕ → Exec (Option (Fin chisaiFilePerDir))
  | _, 0 => .ok none
  | i, n + 1 =>
    if h : i < chisaiFilePerDir then do
      if ← strcmpEq (dirNodeCodec.enc dir.node[i]) filePath then
        return some ⟨i, h⟩
      else
        dirFindFrom dir filePath (i + 1) n
    else .error .outOfRange

def dirFind (dir : Dir) (filePath : CString) : Exec (Option (Fin chisaiFilePerDir)) :=
  dirFindFrom dir filePath 0 dir.size.toNat

def dirFileInodeIdx (dir : Dir) (filePath : CString) : Exec ChisaiSize := do
  match ← dirFind dir filePath with
  | some i => return dir.node[i].idx
  | none => return 0

def dirInsert (dir : Dir) (filePath : CString) (inodeIdx : ChisaiSize) : Exec (Bool × Dir) :=
  if h : dir.size.toNat < chisaiFilePerDir then do
    let node ← strcpyName dir.node[dir.size.toNat] filePath
    return (true, { dir with
      node := dir.node.set dir.size.toNat { node with idx := inodeIdx }
      size := dir.size + 1 })
  else .ok (false, dir)

/-- The removed entry is overwritten by the last one. -/
def dirRemove (dir : Dir) (filePath : CString) : Exec (ChisaiSize × Dir) := do
  match ← dirFind dir filePath with
  | some i =>
    let size := dir.size - 1
    if h : size.toNat < chisaiFilePerDir then
      return (dir.node[i].idx, { dir with node := dir.node.set i dir.node[size.toNat], size := size })
    else .error .outOfRange
  | none => return (0, dir)

end ChisaiFs
