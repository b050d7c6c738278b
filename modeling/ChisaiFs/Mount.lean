import ChisaiFs.Fs

/-! The calls that are mounted. The kernel passes no null pointers, so those checks have no
counterpart; what a handle points to is kept by value. -/

namespace ChisaiFs

/-- What `struct stat` is filled with. -/
structure Stat where
  ino : UInt64
  mode : UInt32
  nlink : UInt64
  size : Int64
  blocks : Int64
  uid : UInt32
  gid : UInt32
  deriving DecidableEq

def magicUid : UInt32 := 0x00616d69
def magicGid : UInt32 := 0x0052696e

def chisaiFuseTostat (info : FileInfo) : Stat where
  ino := info.idx.toUInt64
  mode := info.inode.mode
  nlink := info.inode.nlink
  size := info.inode.size
  blocks := info.inode.blkcnt
  uid := magicUid
  gid := magicGid

def chisaiFuseOpendir (fs : Filesystem) (path : CString) : Exec (Except ChisaiError DirInfo) :=
  fsGetDir fs path

/-- The loop of `chisai_fuse_readdir`, with what `filler` is given by the passes left. -/
def readdirLoop : ℕ → DirInfo → Exec (List (CString × Stat) × DirInfo)
  | 0, _ => .error .diverges
  | fuel + 1, dir => do
    let (found, dir) ← fsGetData dir
    match found with
    | none => return ([], dir)
    | some (name, info) =>
      let (rest, dir) ← readdirLoop fuel dir
      return ((name, chisaiFuseTostat info) :: rest, dir)

/-- Every pass but the last moves the position, so `size + 3` passes are enough. -/
def chisaiFuseReaddir (dir : DirInfo) : Exec (List (CString × Stat) × DirInfo) :=
  readdirLoop (dir.dir.size.toNat + 3) dir

end ChisaiFs
