import ChisaiFs.Coherence
import ChisaiFs.Naming

/-! The table `chisai_fuse_opts` of the mounted process. A request is served from the file
system, the open files and the open directories; libfuse is started with `-s`, so requests are
served one after the other. -/

namespace ChisaiFs
open Outcome Heaps

def eperm : ℤ := -1

/-- What libfuse answers itself when a descriptor is not open. -/
def ebadf : ℤ := -9

/-- The code of a call, or what it has filled in besides a code of 0. -/
inductive Reply
  | code (ret : ℤ)
  | attr (stat : Stat)
  | data (ret : ℤ) (buf : List UInt8)
  | names (listing : List (CString × Stat))
  deriving DecidableEq

def chisaiFuseGetattr (fs : Filesystem) (path : CString) : Exec (Except ChisaiError Stat) :=
  Except.map chisaiFuseTostat <$> fsGetMetadata fs path

/-- The permissions are not looked at. -/
def chisaiFuseAccess (fs : Filesystem) (path : CString) (_mask : ℤ) : Exec ChisaiError := do
  match ← fsGetMetadata fs path with
  | .error e => return e
  | .ok _ => return .ok

def chisaiFuseMkdir (fs : Filesystem) (path : CString) (mode : UInt32) :
    Exec (ChisaiError × Filesystem) :=
  fsMkdir fs path mode

/-- Serves both `unlink` and `rmdir`. -/
def chisaiFuseUnlink (fs : Filesystem) (path : CString) : Exec (ChisaiError × Filesystem) :=
  fsRemoveFile fs path

def chisaiFuseRename (fs : Filesystem) (src dst : CString) : Exec (ChisaiError × Filesystem) :=
  fsRenameFile fs src dst

def chisaiFuseStatfs (_path : CString) : ℤ := eperm

/-- Nothing is buffered in memory. -/
def chisaiFuseFsync (_path : CString) (_isdatasync : Bool) : ℤ := 0

def chisaiFuseFlush (_path : CString) : ℤ := 0

/-- Serves both `link` and `symlink`. -/
def chisaiFuseLink (_src _dst : CString) : ℤ := eperm

def chisaiFuseMknod (_path : CString) (_mode : UInt32) (_dev : UInt64) : ℤ := eperm

def chisaiFuseChmod (_path : CString) (_mode : UInt32) : ℤ := 0

def chisaiFuseChown (_path : CString) (_uid _gid : UInt32) : ℤ := eperm

def chisaiFuseUtimens (_path : CString) (_ts : Fin 2 → ℤ × ℤ) : ℤ := 0

/-- The objects of `chisai_fuse_opendir`, and for each open directory where its object is. -/
structure OpenDirs where
  streams : Heap DirInfo
  dirs : Heap ℕ

def OpenDirs.start : OpenDirs := ⟨.empty, .empty⟩

/-- `chisai_fuse_opendir` with its `malloc`: the object starts cleared, and without a directory
it is freed again. -/
def OpenDirs.opendir (fs : Filesystem) (d : OpenDirs) (path : CString) :
    Exec (ChisaiError × OpenDirs) := do
  let fh := d.streams.fresh
  let streams := d.streams.alloc ⟨dirInit, 0⟩
  match ← chisaiFuseOpendir fs path with
  | .error e => return (e, { d with streams := streams.free fh })
  | .ok dir => return (.ok, ⟨streams.store fh dir, d.dirs.alloc fh⟩)

/-- Reads what is left of the directory. -/
def OpenDirs.readdir (d : OpenDirs) (fh : ℕ) : Exec (List (CString × Stat) × OpenDirs) :=
  match d.streams.get fh with
  | none => .error .useAfterFree
  | some dir => do
    let (listing, dir) ← chisaiFuseReaddir dir
    return (listing, { d with streams := d.streams.store fh dir })

/-- Returns `-EPERM` although the object is freed; libfuse closes the directory all the same. -/
def OpenDirs.releasedir (d : OpenDirs) (dd fh : ℕ) : Exec (ℤ × OpenDirs) :=
  match d.streams.get fh with
  | none => .error .useAfterFree
  | some _ => .ok (eperm, ⟨d.streams.free fh, d.dirs.free dd⟩)

inductive PathRequest
  | statfs (path : CString)
  | getattr (path : CString)
  | access (path : CString) (mask : ℤ)
  | mkdir (path : CString) (mode : UInt32)
  | rmdir (path : CString)
  | opendir (path : CString)
  | readdir (dd : ℕ) (path : CString) (off : ℕ)
  | releasedir (dd : ℕ) (path : CString)
  | rename (src dst : CString)
  | unlink (path : CString)
  | fsync (path : CString) (isdatasync : Bool)
  | flush (path : CString)
  | link (src dst : CString)
  | symlink (src dst : CString)
  | mknod (path : CString) (mode : UInt32) (dev : UInt64)
  | chmod (path : CString) (mode : UInt32)
  | chown (path : CString) (uid gid : UInt32)
  | utimens (path : CString) (ts : Fin 2 → ℤ × ℤ)
  deriving DecidableEq

inductive Request
  | path (r : PathRequest)
  | file (c : Call)
  deriving DecidableEq

def PathRequest.serve (fs : Filesystem) (d : OpenDirs) :
    PathRequest → Exec (Reply × Filesystem × OpenDirs)
  | .statfs path => .ok (.code (chisaiFuseStatfs path), fs, d)
  | .getattr path => do
    match ← chisaiFuseGetattr fs path with
    | .error e => return (.code e.code, fs, d)
    | .ok stat => return (.attr stat, fs, d)
  | .access path mask => do return (.code (← chisaiFuseAccess fs path mask).code, fs, d)
  | .mkdir path mode => do
    let (r, fs) ← chisaiFuseMkdir fs path mode
    return (.code r.code, fs, d)
  | .rmdir path | .unlink path => do
    let (r, fs) ← chisaiFuseUnlink fs path
    return (.code r.code, fs, d)
  | .opendir path => do
    let (r, d) ← d.opendir fs path
    return (.code r.code, fs, d)
  | .readdir dd _ _ =>
    match d.dirs.get dd with
    | none => .ok (.code ebadf, fs, d)
    | some fh => do
      let (listing, d) ← d.readdir fh
      return (.names listing, fs, d)
  | .releasedir dd _ =>
    match d.dirs.get dd with
    | none => .ok (.code ebadf, fs, d)
    | some fh => do
      let (ret, d) ← d.releasedir dd fh
      return (.code ret, fs, d)
  | .rename src dst => do
    let (r, fs) ← chisaiFuseRename fs src dst
    return (.code r.code, fs, d)
  | .fsync path isdatasync => .ok (.code (chisaiFuseFsync path isdatasync), fs, d)
  | .flush path => .ok (.code (chisaiFuseFlush path), fs, d)
  | .link src dst | .symlink src dst => .ok (.code (chisaiFuseLink src dst), fs, d)
  | .mknod path mode dev => .ok (.code (chisaiFuseMknod path mode dev), fs, d)
  | .chmod path mode => .ok (.code (chisaiFuseChmod path mode), fs, d)
  | .chown path uid gid => .ok (.code (chisaiFuseChown path uid gid), fs, d)
  | .utimens path ts => .ok (.code (chisaiFuseUtimens path ts), fs, d)

/-- A call with the `fi` of descriptor `fd`, and its reply. -/
def OpenFiles.serveOn {α : Type} (s : OpenFiles) (fd : ℕ) (reply : α → Reply)
    (call : Process → ℕ → Exec (α × ℕ × Process)) : Exec (Reply × OpenFiles) :=
  match s.files.get fd with
  | none => .ok (.code ebadf, s)
  | some fi => do
    let (a, fh, p) ← call s.proc fi.fh
    return (reply a, ⟨p, s.files.store fd { fi with fh := fh }⟩)

def Reply.ofStat : Except ChisaiError Stat → Reply
  | .error e => .code e.code
  | .ok stat => .attr stat

def Call.serve (s : OpenFiles) : Call → Exec (Reply × OpenFiles)
  | .create path mode =>
    (fun r => (.code r.1.code, s.opened path r)) <$> chisaiFuseCreate s.proc path mode
  | .open path => (fun r => (.code r.1.code, s.opened path r)) <$> chisaiFuseOpen s.proc path 0
  | .truncate path size =>
    (fun r => (.code r.1.code, ⟨r.2, s.files⟩)) <$> chisaiFuseTruncate s.proc path size
  | .release fd _ =>
    match s.files.get fd with
    | none => .ok (.code ebadf, s)
    | some fi =>
      (fun r => (.code r.1.code, ⟨r.2, s.files.free fd⟩)) <$> chisaiFuseRelease s.proc fi.fh
  | .fgetattr fd path => s.serveOn fd .ofStat fun p fh => chisaiFuseFgetattr p path fh
  | .read fd path size off =>
    s.serveOn fd (fun r => .data r.1 r.2) fun p fh => chisaiFuseRead p path fh size off
  | .write fd path buf off => s.serveOn fd .code fun p fh => chisaiFuseWrite p path fh buf off

/-- The mounted process with what libfuse keeps of its open files and directories. -/
structure Mountpoint where
  files : OpenFiles
  dirs : OpenDirs

def Mountpoint.start (fs : Filesystem) : Mountpoint := ⟨.start fs, .start⟩

def Mountpoint.fs (s : Mountpoint) : Filesystem := s.files.proc.fs

def Mountpoint.serve (s : Mountpoint) : Request → Exec (Reply × Mountpoint)
  | .path r =>
    (fun t => (t.1, ⟨{ s.files with proc := { s.files.proc with fs := t.2.1 } }, t.2.2⟩)) <$>
      r.serve s.fs s.dirs
  | .file c => (fun t => (t.1, ⟨t.2, s.dirs⟩)) <$> c.serve s.files

def Mountpoint.next (s : Mountpoint) (r : Request) : Exec Mountpoint := Prod.snd <$> s.serve r

theorem OpenFiles.serveOn_on {α : Type} (s : OpenFiles) (fd : ℕ) (reply : α → Reply)
    (call : Process → ℕ → Exec (α × ℕ × Process)) :
    Prod.snd <$> s.serveOn fd reply call = s.on fd call := by
  unfold serveOn on
  cases s.files.get fd with
  | none => rfl
  | some fi =>
    dsimp only
    cases call s.proc fi.fh <;> rfl

theorem Call.serve_step (c : Call) (s : OpenFiles) : Prod.snd <$> c.serve s = c.step s := by
  cases c with
  | create path mode => exact (comp_map _ _ _).symm
  | «open» path => exact (comp_map _ _ _).symm
  | truncate path size => exact (comp_map _ _ _).symm
  | release fd path =>
    dsimp only [serve, step]
    cases s.files.get fd with
    | none => rfl
    | some fi => exact (comp_map _ _ _).symm
  | fgetattr fd path =>
    dsimp only [serve, step]
    rw [OpenFiles.serveOn_on]
  | read fd path size off =>
    dsimp only [serve, step]
    rw [OpenFiles.serveOn_on]
  | write fd path buf off =>
    dsimp only [serve, step]
    rw [OpenFiles.serveOn_on]

end ChisaiFs
