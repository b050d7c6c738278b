import ChisaiFs.Mount
import ChisaiFs.Effects
import ChisaiFs.Library.Heaps

/-! The calls on open files. A handle is a pointer to an object with a copy of the inode; the
flag `REOPEN` tells the next call on a handle to replace that object. -/

namespace ChisaiFs
open Cells Outcome Heaps

/-- The statics of the mounted process and the objects that `malloc` returned. -/
structure Process where
  fs : Filesystem
  reopen : Bool
  objects : Heap FileInfo

/-- What stands for the contents of an object that nothing is stored in yet; no call that
returns a handle leaves it there. -/
def unfilled : FileInfo := ⟨inodeInit, noInode⟩

def Process.load (p : Process) (fh : ℕ) : Exec FileInfo :=
  match p.objects.get fh with
  | some file => .ok file
  | none => .error .useAfterFree

def Process.free (p : Process) (fh : ℕ) : Exec Process :=
  match p.objects.get fh with
  | some _ => .ok { p with objects := p.objects.free fh }
  | none => .error .useAfterFree

/-- Returns `fi->fh` after the code, as the calls below do. -/
def chisaiFuseOpen (p : Process) (path : CString) (fh : ℕ) :
    Exec (ChisaiError × ℕ × Process) := do
  let file := p.objects.fresh
  let p := { p with objects := p.objects.alloc unfilled }
  match ← fsGetMetadata p.fs path with
  | .error e => return (e, fh, ← p.free file)
  | .ok info => return (.ok, file, { p with objects := p.objects.store file info })

def chisaiFuseCreate (p : Process) (path : CString) (mode : UInt32) :
    Exec (ChisaiError × ℕ × Process) := do
  let (ret, info, fs) ← fsCreateFile p.fs path mode unfilled
  return (ret, p.objects.fresh, { p with fs := fs, objects := p.objects.alloc info })

def chisaiFuseTruncate (p : Process) (path : CString) (size : ℕ) :
    Exec (ChisaiError × Process) := do
  match ← fsGetMetadata p.fs path with
  | .error e => return (e, p)
  | .ok file =>
    let (ret, _, fs) ← fsTruncateFile p.fs file size
    return (ret, { p with fs := fs, reopen := p.reopen || ret = .ok })

def chisaiFuseRelease (p : Process) (fh : ℕ) : Exec (ChisaiError × Process) := do
  return (.ok, ← p.free fh)

def chisaiFuseReopen (p : Process) (path : CString) (fh : ℕ) :
    Exec (ChisaiError × ℕ × Process) := do
  if p.reopen then
    let (ret, p) ← chisaiFuseRelease p fh
    if ret ≠ .ok then
      return (ret, fh, p)
    else
      let (ret, fh, p) ← chisaiFuseOpen p path fh
      return (ret, fh, if ret = .ok then { p with reopen := false } else p)
  else
    return (.ok, fh, p)

/-- How the three calls on a handle run: `file` is taken from `fi->fh` before the handle is
reopened, and `work` is done on the object it points to. -/
def onHandle {α : Type} (p : Process) (path : CString) (fh : ℕ) (failed : ChisaiError → α)
    (work : Filesystem → FileInfo → Exec (α × FileInfo × Filesystem)) :
    Exec (α × ℕ × Process) := do
  let file := fh
  let (ret, fh, p) ← chisaiFuseReopen p path fh
  if ret ≠ .ok then
    return (failed ret, fh, p)
  else
    let info ← p.load file
    let (result, info, fs) ← work p.fs info
    return (result, fh, { p with fs := fs, objects := p.objects.store file info })

def chisaiFuseFgetattr (p : Process) (path : CString) (fh : ℕ) :
    Exec (Except ChisaiError Stat × ℕ × Process) :=
  onHandle p path fh .error fun fs file => .ok (.ok (chisaiFuseTostat file), file, fs)

def chisaiFuseRead (p : Process) (path : CString) (fh size off : ℕ) :
    Exec ((ℤ × List UInt8) × ℕ × Process) :=
  onHandle p path fh (fun e => (e.code, [])) fun fs file => do
    return (← fsReadFile fs file size off, file, fs)

def chisaiFuseWrite (p : Process) (path : CString) (fh : ℕ) (buf : List UInt8) (off : ℕ) :
    Exec (ℤ × ℕ × Process) :=
  onHandle p path fh ChisaiError.code fun fs file => fsWriteFile fs file buf off

/-- What the kernel keeps of an open file; `fh` is where its object is. -/
structure OpenFile where
  path : CString
  fh : ℕ

/-- The mounted process and the files that are open, by descriptor. -/
structure OpenFiles where
  proc : Process
  files : Heap OpenFile

def OpenFiles.start (fs : Filesystem) : OpenFiles := ⟨⟨fs, false, .empty⟩, .empty⟩

inductive Call
  | create (path : CString) (mode : UInt32)
  | open (path : CString)
  | truncate (path : CString) (size : ℕ)
  | release (fd : ℕ) (path : CString)
  | fgetattr (fd : ℕ) (path : CString)
  | read (fd : ℕ) (path : CString) (size off : ℕ)
  | write (fd : ℕ) (path : CString) (buf : List UInt8) (off : ℕ)
  deriving DecidableEq

/-- A file is open once the call that opens it has returned 0. -/
def OpenFiles.opened (s : OpenFiles) (path : CString) : ChisaiError × ℕ × Process → OpenFiles
  | (ret, fh, p) => ⟨p, if ret = .ok then s.files.alloc ⟨path, fh⟩ else s.files⟩

/-- A call with the `fi` of descriptor `fd`; one that is not open never gets here. -/
def OpenFiles.on {α : Type} (s : OpenFiles) (fd : ℕ)
    (call : Process → ℕ → Exec (α × ℕ × Process)) : Exec OpenFiles :=
  match s.files.get fd with
  | none => .ok s
  | some fi => do
    let (_, fh, p) ← call s.proc fi.fh
    return ⟨p, s.files.store fd { fi with fh := fh }⟩

def Call.step (s : OpenFiles) : Call → Exec OpenFiles
  | .create path mode => s.opened path <$> chisaiFuseCreate s.proc path mode
  | .open path => s.opened path <$> chisaiFuseOpen s.proc path 0
  | .truncate path size => (fun r => ⟨r.2, s.files⟩) <$> chisaiFuseTruncate s.proc path size
  | .release fd _ =>
    match s.files.get fd with
    | none => .ok s
    | some fi => (fun r => ⟨r.2, s.files.free fd⟩) <$> chisaiFuseRelease s.proc fi.fh
  | .fgetattr fd path => s.on fd fun p fh => chisaiFuseFgetattr p path fh
  | .read fd path size off => s.on fd fun p fh => chisaiFuseRead p path fh size off
  | .write fd path buf off => s.on fd fun p fh => chisaiFuseWrite p path fh buf off

def OpenFiles.inodes (s : OpenFiles) : List ChisaiSize :=
  s.files.live.filterMap fun fi => (s.proc.objects.get fi.fh).map (·.idx)

def OpenFiles.OpenFor (s : OpenFiles) (fd : ℕ) (path : CString) : Prop :=
  (s.files.get fd).map (·.path) = some path

/-- Calls on a handle pass the path that it was opened with. -/
def Call.PathKept (s : OpenFiles) : Call → Prop
  | .release fd path | .fgetattr fd path | .read fd path _ _ | .write fd path _ _ =>
    s.OpenFor fd path
  | _ => True

/-- In addition a file with an open handle is not opened. -/
def Call.OneHandle (s : OpenFiles) : Call → Prop
  | .open path =>
    match fsGetMetadata s.proc.fs path with
    | .ok (.ok info) => info.idx ∉ s.inodes
    | _ => True
  | c => c.PathKept s

instance (s : OpenFiles) (fd : ℕ) (path : CString) : Decidable (s.OpenFor fd path) :=
  inferInstanceAs (Decidable (_ = _))

instance (s : OpenFiles) : (c : Call) → Decidable (c.PathKept s)
  | .create _ _ | .open _ | .truncate _ _ => inferInstanceAs (Decidable True)
  | .release fd path | .fgetattr fd path | .read fd path _ _ | .write fd path _ _ =>
    inferInstanceAs (Decidable (s.OpenFor fd path))

instance (s : OpenFiles) (path : CString) : Decidable ((Call.open path).OneHandle s) :=
  match h : fsGetMetadata s.proc.fs path with
  | .ok (.ok info) => decidable_of_iff (info.idx ∉ s.inodes) (by simp only [Call.OneHandle, h])
  | .ok (.error _) => isTrue (by simp only [Call.OneHandle, h])
  | .error _ => isTrue (by simp only [Call.OneHandle, h])

instance (s : OpenFiles) : (c : Call) → Decidable (c.OneHandle s)
  | .open _ => inferInstance
  | .create path mode => inferInstanceAs (Decidable ((Call.create path mode).PathKept s))
  | .truncate path size => inferInstanceAs (Decidable ((Call.truncate path size).PathKept s))
  | .release fd path => inferInstanceAs (Decidable ((Call.release fd path).PathKept s))
  | .fgetattr fd path => inferInstanceAs (Decidable ((Call.fgetattr fd path).PathKept s))
  | .read fd path size off => inferInstanceAs (Decidable ((Call.read fd path size off).PathKept s))
  | .write fd path buf off => inferInstanceAs (Decidable ((Call.write fd path buf off).PathKept s))

section Calls

variable {p p' : Process} {path : CString} {fh fh' : ℕ} {r : ChisaiError}

theorem fsGetMetadata_error {fs : Filesystem} {e : ChisaiError}
    (he : fsGetMetadata fs path = .ok (.error e)) : e ≠ .ok := by
  obtain ⟨found, -, he⟩ := bind_eq_ok.mp he
  cases found with
  | none =>
    cases he
    exact ChisaiError.noConfusion
  | some r => cases he

theorem Process.free_eq_ok (he : p.free fh = .ok p') :
    (∃ file, p.objects.get fh = some file) ∧ p' = { p with objects := p.objects.free fh } := by
  unfold Process.free at he
  cases hget : p.objects.get fh with
  | none =>
    rw [hget] at he
    cases he
  | some file =>
    rw [hget] at he
    cases he
    exact ⟨⟨file, rfl⟩, rfl⟩

theorem chisaiFuseOpen_eq_ok (he : chisaiFuseOpen p path fh = .ok (r, fh', p')) :
    p'.fs = p.fs ∧ p'.reopen = p.reopen ∧
      ((r ≠ .ok ∧ ∀ a, p'.objects.get a = p.objects.get a) ∨
        (r = .ok ∧ fh' = p.objects.fresh ∧ ∃ info, fsGetMetadata p.fs path = .ok (.ok info) ∧
          ∀ a, p'.objects.get a =
            if a = p.objects.fresh then some info else p.objects.get a)) := by
  obtain ⟨found, hfound, he⟩ := bind_eq_ok.mp he
  have hnew : (p.objects.alloc unfilled).get p.objects.fresh = some unfilled := by
    rw [Heap.get_alloc, if_pos rfl]
  cases found with
  | error e =>
    obtain ⟨p₁, hfree, he⟩ := bind_eq_ok.mp he
    obtain ⟨-, rfl⟩ := Process.free_eq_ok hfree
    cases he
    refine ⟨rfl, rfl, Or.inl ⟨fsGetMetadata_error hfound, fun a => ?_⟩⟩
    dsimp only
    rw [Heap.get_free, Heap.get_alloc]
    split_ifs with ha
    · rw [ha, Heap.get_fresh]
    · rfl
  | ok info =>
    cases he
    refine ⟨rfl, rfl, Or.inr ⟨rfl, rfl, info, hfound, fun a => ?_⟩⟩
    dsimp only
    rw [Heap.get_store hnew, Heap.get_alloc]
    split_ifs <;> rfl

theorem chisaiFuseReopen_lowered (hdown : p.reopen = false) :
    chisaiFuseReopen p path fh = .ok (.ok, fh, p) := by
  unfold chisaiFuseReopen
  rw [hdown]
  rfl

theorem chisaiFuseReopen_raised (hup : p.reopen = true)
    (he : chisaiFuseReopen p path fh = .ok (r, fh', p')) :
    (r ≠ .ok ∧ p'.reopen = true) ∨ (r = .ok ∧ p'.objects.get fh = none) := by
  unfold chisaiFuseReopen at he
  rw [hup, if_pos rfl] at he
  obtain ⟨⟨r₁, p₁⟩, hrel, he⟩ := bind_eq_ok.mp he
  obtain ⟨_, hfree, hpure⟩ := bind_eq_ok.mp hrel
  obtain ⟨⟨file, hget⟩, rfl⟩ := Process.free_eq_ok hfree
  cases hpure
  dsimp only at he
  rw [if_neg (not_not.mpr rfl)] at he
  obtain ⟨⟨r₂, fh₂, p₂⟩, hopen, he⟩ := bind_eq_ok.mp he
  obtain ⟨-, hflag, hcase⟩ := chisaiFuseOpen_eq_ok hopen
  cases he
  rcases hcase with ⟨hr, -⟩ | ⟨rfl, -, info, -, hobjects⟩
  · rw [if_neg hr]
    exact Or.inl ⟨hr, hflag.trans hup⟩
  · refine Or.inr ⟨rfl, ?_⟩
    have hne : fh ≠ (p.objects.free fh).fresh := by
      rw [Heap.fresh, Heap.free, List.length_set]
      exact Heap.ne_fresh hget
    rw [if_pos rfl]
    dsimp only
    rw [hobjects, if_neg hne, Heap.get_free, if_pos rfl]

variable {α : Type} {a : α} {failed : ChisaiError → α} {file : FileInfo}
  {work : Filesystem → FileInfo → Exec (α × FileInfo × Filesystem)}

theorem onHandle_lowered (hdown : p.reopen = false) (hget : p.objects.get fh = some file)
    (he : onHandle p path fh failed work = .ok (a, fh', p')) :
    fh' = fh ∧ ∃ info fs, work p.fs file = .ok (a, info, fs) ∧
      p' = { p with fs := fs, objects := p.objects.store fh info } := by
  unfold onHandle at he
  rw [chisaiFuseReopen_lowered hdown, ok_bind] at he
  dsimp only at he
  rw [if_neg (not_not.mpr rfl)] at he
  obtain ⟨info, hload, he⟩ := bind_eq_ok.mp he
  unfold Process.load at hload
  rw [hget] at hload
  cases hload
  obtain ⟨⟨b, info, fs⟩, hwork, he⟩ := bind_eq_ok.mp he
  cases he
  exact ⟨rfl, info, fs, hwork, rfl⟩

theorem onHandle_raised (hup : p.reopen = true)
    (he : onHandle p path fh failed work = .ok (a, fh', p')) : p'.reopen = true := by
  unfold onHandle at he
  obtain ⟨⟨r, fh₁, p₁⟩, hreopen, he⟩ := bind_eq_ok.mp he
  dsimp only at he
  rcases chisaiFuseReopen_raised hup hreopen with ⟨hr, hflag⟩ | ⟨rfl, hnone⟩
  · rw [if_pos hr] at he
    cases he
    exact hflag
  · rw [if_neg (not_not.mpr rfl)] at he
    obtain ⟨info, hload, -⟩ := bind_eq_ok.mp he
    unfold Process.load at hload
    rw [hnone] at hload
    cases hload

end Calls

end ChisaiFs
