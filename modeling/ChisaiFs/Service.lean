import ChisaiFs.Requests
import ChisaiFs.Library.Simulation

/-! What whole sessions do to the file system. Every request that the kernel sends is served by
one operation at most, and that operation is lawful: an open file has the inode of the device as
long as the flag `REOPEN` is down, and afterwards it is not written through any more. -/

namespace ChisaiFs
open Outcome Heaps Simulation

/-- The inode that the entry of a path's last name is of, 0 if there is no entry. -/
def fsNamedInode (fs : Filesystem) (path : CString) : Exec (Except ChisaiError ChisaiSize) := do
  match ← fsPathToParent fs path with
  | .error e => return .error e
  | .ok parent => return .ok (← dirFileInodeIdx parent.dir parent.filePath)

/-- The file that a path leads to, if any, has the property. -/
def LeadsTo (fs : Filesystem) (path : CString) (p : FileInfo → Prop) : Prop :=
  Ensures (fsGetMetadata fs path) fun r => Ensures r p

/-- What the kernel sees to before a call on files: directories are neither opened nor cut, and
a file has one handle. The limit on writes is not the kernel's: they end within the direct blocks. -/
def Call.Lawful (s : OpenFiles) : Call → Prop
  | .create path mode => ParentIsDir s.proc.fs path ∧ Proper path ∧ sIsreg mode
  | .open path => LeadsTo s.proc.fs path fun info =>
      sIsreg info.inode.mode ∧ info.idx ∉ s.inodes
  | .truncate path _ => LeadsTo s.proc.fs path fun info => sIsreg info.inode.mode
  | .write _ _ buf off => off + buf.length ≤ directBlksNum * s.proc.fs.sb.blockSize.toNat
  | _ => True

/-- And before a request on paths. A file that is open is not removed: libfuse renames it. -/
def PathRequest.Lawful (s : OpenFiles) : PathRequest → Prop
  | .mkdir path _ => ParentIsDir s.proc.fs path ∧ Proper path
  | .rmdir path | .unlink path => ParentIsDir s.proc.fs path ∧ Proper path ∧
      Ensures (fsNamedInode s.proc.fs path) fun r => Ensures r fun i => i ∉ s.inodes
  | .rename src dst => ParentIsDir s.proc.fs src ∧ ParentIsDir s.proc.fs dst ∧ Proper src ∧
      Proper dst
  | _ => True

def Request.Lawful (s : Mountpoint) : Request → Prop
  | .path r => r.Lawful s.files
  | .file c => c.Lawful s.files

instance LeadsTo.decidable (fs : Filesystem) (path : CString) (p : FileInfo → Prop) [DecidablePred p] :
    Decidable (LeadsTo fs path p) := inferInstanceAs (Decidable (Ensures _ _))

instance Call.decidableLawful (s : OpenFiles) : (c : Call) → Decidable (c.Lawful s)
  | .create path mode =>
    inferInstanceAs (Decidable (ParentIsDir s.proc.fs path ∧ Proper path ∧ sIsreg mode))
  | .open path => inferInstanceAs (Decidable (LeadsTo s.proc.fs path fun info =>
      sIsreg info.inode.mode ∧ info.idx ∉ s.inodes))
  | .truncate path _ =>
    inferInstanceAs (Decidable (LeadsTo s.proc.fs path fun info => sIsreg info.inode.mode))
  | .write _ _ buf off => inferInstanceAs (Decidable
      (off + buf.length ≤ directBlksNum * s.proc.fs.sb.blockSize.toNat))
  | .release .. | .fgetattr .. | .read .. => isTrue trivial

instance PathRequest.decidableLawful (s : OpenFiles) : (r : PathRequest) → Decidable (r.Lawful s)
  | .mkdir path _ => inferInstanceAs (Decidable (ParentIsDir s.proc.fs path ∧ Proper path))
  | .rmdir path | .unlink path => inferInstanceAs (Decidable (ParentIsDir s.proc.fs path ∧
      Proper path ∧ Ensures (fsNamedInode s.proc.fs path) fun r => Ensures r fun i => i ∉ s.inodes))
  | .rename src dst => inferInstanceAs (Decidable (ParentIsDir s.proc.fs src ∧
      ParentIsDir s.proc.fs dst ∧ Proper src ∧ Proper dst))
  | .statfs .. | .getattr .. | .access .. | .opendir .. | .readdir .. | .releasedir .. | .fsync ..
  | .flush .. | .link .. | .symlink .. | .mknod .. | .chmod .. | .chown .. | .utimens .. =>
    isTrue trivial

instance Request.decidableLawful (s : Mountpoint) : (r : Request) → Decidable (r.Lawful s)
  | .path r => inferInstanceAs (Decidable (r.Lawful s.files))
  | .file c => inferInstanceAs (Decidable (c.Lawful s.files))

/-- The operation that serves a request on paths, if it is one that changes the device. -/
def PathRequest.op : PathRequest → Option Op
  | .mkdir path mode => some (.mkdir path mode)
  | .rmdir path | .unlink path => some (.remove path)
  | .rename src dst => some (.rename src dst)
  | _ => none

def Operated (fs fs' : Filesystem) : Prop :=
  fs' = fs ∨ ∃ op : Op, op.Lawful fs ∧ op.Named ∧ op.step fs = .ok fs'

section Effects

variable {geo : Geometry} {fs fs' : Filesystem} {s t : OpenFiles} {d d' : OpenDirs} {reply : Reply}
  {path src dst : CString} {mode : UInt32} {r : ChisaiError} {i : ChisaiSize} {fd : ℕ}

theorem PathRequest.serve_op {r : PathRequest} (he : r.serve fs d = .ok (reply, fs', d')) :
    fs' = fs ∨ ∃ op, r.op = some op ∧ op.step fs = .ok fs' := by
  cases r with
  | mkdir path mode =>
    obtain ⟨⟨r, fs₁⟩, hcall, he⟩ := bind_eq_ok.mp he
    cases he
    exact Or.inr ⟨_, rfl, map_eq_ok.mpr ⟨_, hcall, rfl⟩⟩
  | rmdir path =>
    obtain ⟨⟨r, fs₁⟩, hcall, he⟩ := bind_eq_ok.mp he
    cases he
    exact Or.inr ⟨_, rfl, map_eq_ok.mpr ⟨_, hcall, rfl⟩⟩
  | unlink path =>
    obtain ⟨⟨r, fs₁⟩, hcall, he⟩ := bind_eq_ok.mp he
    cases he
    exact Or.inr ⟨_, rfl, map_eq_ok.mpr ⟨_, hcall, rfl⟩⟩
  | rename src dst =>
    obtain ⟨⟨r, fs₁⟩, hcall, he⟩ := bind_eq_ok.mp he
    cases he
    exact Or.inr ⟨_, rfl, map_eq_ok.mpr ⟨_, hcall, rfl⟩⟩
  | getattr path =>
    obtain ⟨found, -, he⟩ := bind_eq_ok.mp he
    cases found <;> cases he <;> exact Or.inl rfl
  | access path mask =>
    obtain ⟨_, -, he⟩ := bind_eq_ok.mp he
    cases he
    exact Or.inl rfl
  | opendir path =>
    obtain ⟨_, -, he⟩ := bind_eq_ok.mp he
    cases he
    exact Or.inl rfl
  | readdir dd path off =>
    dsimp only [serve] at he
    split at he
    · cases he
      exact Or.inl rfl
    · obtain ⟨_, -, he⟩ := bind_eq_ok.mp he
      cases he
      exact Or.inl rfl
  | releasedir dd path =>
    dsimp only [serve] at he
    split at he
    · cases he
      exact Or.inl rfl
    · obtain ⟨_, -, he⟩ := bind_eq_ok.mp he
      cases he
      exact Or.inl rfl
  | statfs | fsync | flush | link | symlink | mknod | chmod | chown | utimens =>
    cases he
    exact Or.inl rfl

theorem PathRequest.Lawful.op {r : PathRequest} (hl : r.Lawful s) {op : Op}
    (hop : r.op = some op) : op.Lawful s.proc.fs ∧ op.Named := by
  cases r <;> cases hop
  case mkdir path mode => exact hl
  case rmdir path => exact ⟨hl.1, hl.2.1⟩
  case unlink path => exact ⟨hl.1, hl.2.1⟩
  case rename src dst => exact ⟨⟨hl.1, hl.2.1⟩, hl.2.2⟩

def Spared (geo : Geometry) (fs fs' : Filesystem) (i : ChisaiSize) : Prop :=
  i ∈ (volume geo fs').inodeUsed ∧ (volume geo fs').inode i = (volume geo fs).inode i

theorem fsMkdir_spares (h : Mounted geo fs) (hi : i ∈ (volume geo fs).inodeUsed)
    (he : fsMkdir fs path mode = .ok (r, fs')) : Spared geo fs fs' i := by
  obtain ⟨-, hcase⟩ := fsMkdir_volume h he
  rcases hcase with ⟨-, hv | ⟨k, -, hv⟩⟩ |
    ⟨-, parent, p, k, i', inserted, dir, -, -, -, -, -, hnew, -, hv⟩
  · rw [Spared, hv]
    exact ⟨hi, rfl⟩
  · rw [Spared, hv]
    exact ⟨hi, rfl⟩
  · rw [Spared, hv]
    exact ⟨Or.inr hi, Function.update_of_ne (ne_of_mem_of_not_mem hi hnew) ..⟩

theorem fsCreateFile_spares {file file' : FileInfo} (h : Mounted geo fs)
    (hi : i ∈ (volume geo fs).inodeUsed)
    (he : fsCreateFile fs path mode file = .ok (r, file', fs')) : Spared geo fs fs' i := by
  by_cases hr : r = .ok
  · obtain rfl := hr
    obtain ⟨-, hfresh, hu, hinode⟩ := fsCreateFile_inodes h he
    rw [Spared, hu, hinode]
    exact ⟨Or.inr hi, Function.update_of_ne (ne_of_mem_of_not_mem hi hfresh) ..⟩
  · obtain ⟨-, -, hv⟩ := (fsCreateFile_volume h he).2.resolve_right fun hc => hr hc.1
    rw [Spared, hv]
    exact ⟨hi, rfl⟩

theorem fsRenameFile_spares (h : Mounted geo fs) (hi : i ∈ (volume geo fs).inodeUsed)
    (he : fsRenameFile fs src dst = .ok (r, fs')) : Spared geo fs fs' i := by
  obtain ⟨-, hcase⟩ := fsRenameFile_volume h he
  rcases hcase with ⟨-, hv⟩ | ⟨source, p, j, hl, fs₁, -, -, -, -, -, hv₁, hcase⟩
  · rw [Spared, hv]
    exact ⟨hi, rfl⟩
  rcases hcase with ⟨-, rfl⟩ | ⟨-, target, p₂, dir, -, -, -, hv⟩
  · rw [Spared, hv₁]
    exact ⟨hi, rfl⟩
  · rw [Spared, hv, Volume.setDir_inodeUsed, Volume.setDir_inode, hv₁]
    exact ⟨hi, rfl⟩

theorem fsRemoveFile_spares (h : Mounted geo fs) (hi : i ∈ (volume geo fs).inodeUsed)
    (hne : Ensures (fsNamedInode fs path) fun r => Ensures r fun named => named ≠ i)
    (he : fsRemoveFile fs path = .ok (r, fs')) : Spared geo fs fs' i := by
  obtain ⟨-, hcase⟩ := fsRemoveFile_volume h he
  rcases hcase with ⟨-, hv⟩ | ⟨-, parent, p, j, hl, hp, -, hj, -, hv⟩
  · rw [Spared, hv]
    exact ⟨hi, rfl⟩
  · have hnamed : fsNamedInode fs path = .ok (.ok (parent.dir.idxAt j)) := by
      simp only [fsNamedInode, hp, ok_bind, dirFileInodeIdx, hj]
      rfl
    have hfreed : parent.dir.idxAt j ≠ i := (hne.apply hnamed).apply rfl
    rw [Spared, hv]
    exact ⟨⟨hi, hfreed.symm⟩, rfl⟩

theorem PathRequest.Lawful.spares {r : PathRequest} (hl : r.Lawful s) (h : Mounted geo s.proc.fs)
    (hi : i ∈ (volume geo s.proc.fs).inodeUsed) (hopen : i ∈ s.inodes) {op : Op}
    (hop : r.op = some op) (hs : op.step s.proc.fs = .ok fs') : Spared geo s.proc.fs fs' i := by
  have hother : ∀ x : Exec (Except ChisaiError ChisaiSize),
      (Ensures x fun r => Ensures r fun named => named ∉ s.inodes) →
        Ensures x fun r => Ensures r fun named => named ≠ i := by
    rintro x hx r hr named hn rfl
    exact hx r hr _ hn hopen
  cases r <;> cases hop
  case mkdir path mode =>
    obtain ⟨_, he, rfl⟩ := map_eq_ok.mp hs
    exact fsMkdir_spares h hi he
  case rmdir path =>
    obtain ⟨_, he, rfl⟩ := map_eq_ok.mp hs
    exact fsRemoveFile_spares h hi (hother _ hl.2.2) he
  case unlink path =>
    obtain ⟨_, he, rfl⟩ := map_eq_ok.mp hs
    exact fsRemoveFile_spares h hi (hother _ hl.2.2) he
  case rename src dst =>
    obtain ⟨_, he, rfl⟩ := map_eq_ok.mp hs
    exact fsRenameFile_spares h hi he

theorem Coherent.spared {held : ℕ → Option FileInfo} (h : Coherent geo fs held)
    (hm : Mounted geo fs') (hkeep : ∀ fd file, held fd = some file → Spared geo fs fs' file.idx) :
    Coherent geo fs' held where
  mounted := hm
  current fd file hfd := by
    obtain ⟨hu, hi⟩ := hkeep fd file hfd
    exact ⟨hu, hi.trans (h.current fd file hfd).2⟩
  single := h.single

theorem chisaiFuseOpen_inUse {p p' : Process} {fh fh' : ℕ}
    (he : chisaiFuseOpen p path fh = .ok (r, fh', p')) :
    p'.objects.inUse = p.objects.inUse + if r = .ok then 1 else 0 := by
  obtain ⟨found, hfound, he⟩ := bind_eq_ok.mp he
  have hnew : (p.objects.alloc unfilled).get p.objects.fresh = some unfilled := by
    rw [Heap.get_alloc, if_pos rfl]
  cases found with
  | error e =>
    obtain ⟨p₁, hfree, he⟩ := bind_eq_ok.mp he
    obtain ⟨-, rfl⟩ := Process.free_eq_ok hfree
    cases he
    have hcount := Heap.inUse_free hnew
    rw [Heap.inUse_alloc] at hcount
    rw [if_neg (fsGetMetadata_error hfound)]
    dsimp only
    omega
  | ok info =>
    cases he
    rw [if_pos rfl]
    dsimp only
    rw [Heap.inUse_store hnew, Heap.inUse_alloc]

/-- With the flag raised a call on a handle does not get as far as its work. One that returns has
freed the object and left the handle as it was. -/
theorem onHandle_cases {α : Type} {p p' : Process} {fh fh' : ℕ} {a : α} {failed : ChisaiError → α}
    {work : Filesystem → FileInfo → Exec (α × FileInfo × Filesystem)}
    (he : onHandle p path fh failed work = .ok (a, fh', p')) :
    (p.reopen = false ∧ ∃ file info fs, p.objects.get fh = some file ∧
      work p.fs file = .ok (a, info, fs) ∧
      p' = { p with fs := fs, objects := p.objects.store fh info }) ∨
    (p.reopen = true ∧ ∃ e, e ≠ .ok ∧ a = failed e ∧ p'.fs = p.fs ∧ p'.reopen = true ∧
      p'.objects.inUse + 1 = p.objects.inUse) := by
  rcases Bool.eq_false_or_eq_true p.reopen with hflag | hflag
  · right
    obtain ⟨⟨r, fh₁, p₁⟩, hreopen, he⟩ := bind_eq_ok.mp he
    dsimp only at he
    rcases chisaiFuseReopen_raised hflag hreopen with ⟨hr, hup⟩ | ⟨rfl, hnone⟩
    · rw [if_pos hr] at he
      cases he
      unfold chisaiFuseReopen at hreopen
      rw [hflag, if_pos rfl] at hreopen
      obtain ⟨⟨r₁, p₁⟩, hrel, hreopen⟩ := bind_eq_ok.mp hreopen
      obtain ⟨_, hfree, hpure⟩ := bind_eq_ok.mp hrel
      obtain ⟨⟨file, hget⟩, rfl⟩ := Process.free_eq_ok hfree
      cases hpure
      dsimp only at hreopen
      rw [if_neg (not_not.mpr rfl)] at hreopen
      obtain ⟨⟨r₂, fh₂, p₂⟩, hopen, hreopen⟩ := bind_eq_ok.mp hreopen
      cases hreopen
      rw [if_neg hr] at hup ⊢
      have hcount := chisaiFuseOpen_inUse hopen
      rw [if_neg hr, Nat.add_zero] at hcount
      refine ⟨hflag, _, hr, rfl, (chisaiFuseOpen_eq_ok hopen).1, hup, ?_⟩
      rw [hcount]
      exact Heap.inUse_free hget
    · rw [if_neg (not_not.mpr rfl)] at he
      obtain ⟨info, hload, -⟩ := bind_eq_ok.mp he
      rw [Process.load, hnone] at hload
      cases hload
  · left
    cases hget : p.objects.get fh with
    | none =>
      unfold onHandle at he
      rw [chisaiFuseReopen_lowered hflag, ok_bind] at he
      dsimp only at he
      rw [if_neg (not_not.mpr rfl), Process.load, hget] at he
      cases he
    | some file =>
      obtain ⟨-, info, fs, hwork, rfl⟩ := onHandle_lowered hflag hget he
      exact ⟨hflag, file, info, fs, rfl, hwork, rfl⟩

theorem OpenFiles.on_fs {α : Type} {failed : ChisaiError → α}
    {work : Filesystem → FileInfo → Exec (α × FileInfo × Filesystem)}
    (he : s.on fd (fun p fh => onHandle p path fh failed work) = .ok t) :
    t.proc.fs = s.proc.fs ∨ s.proc.reopen = false ∧ ∃ a file info fs, s.held fd = some file ∧
      work s.proc.fs file = .ok (a, info, fs) ∧ t.proc.fs = fs := by
  unfold OpenFiles.on at he
  split at he
  · cases he
    exact Or.inl rfl
  · next fi hfd =>
    obtain ⟨⟨a, fh, p⟩, hcall, he⟩ := bind_eq_ok.mp he
    cases he
    rcases onHandle_cases hcall with ⟨hdown, file, info, fs, hget, hwork, rfl⟩ | ⟨-, e, -, -, hfs, -⟩
    · exact Or.inr ⟨hdown, a, file, info, fs, (OpenFiles.held_eq hfd).trans hget, hwork, rfl⟩
    · exact Or.inl hfs

theorem Call.operated (h : Mounted geo s.proc.fs)
    (hfresh : s.proc.reopen = false → ∀ fd file, s.held fd = some file → FreshFile s.proc.fs file)
    {c : Call} (hl : c.Lawful s) (hs : c.step s = .ok t) : Operated s.proc.fs t.proc.fs := by
  cases c with
  | create path mode =>
    obtain ⟨_, hcall, rfl⟩ := map_eq_ok.mp hs
    obtain ⟨⟨r, info, fs⟩, hcreate, he⟩ := bind_eq_ok.mp hcall
    cases he
    exact Or.inr ⟨.create path mode, ⟨hl.1, hl.2.2⟩, hl.2.1, map_eq_ok.mpr ⟨_, hcreate, rfl⟩⟩
  | «open» path =>
    obtain ⟨⟨r, fh, p⟩, hcall, rfl⟩ := map_eq_ok.mp hs
    exact Or.inl (chisaiFuseOpen_eq_ok hcall).1
  | truncate path size =>
    obtain ⟨_, hcall, rfl⟩ := map_eq_ok.mp hs
    obtain ⟨found, hfound, he⟩ := bind_eq_ok.mp hcall
    cases found with
    | error e =>
      cases he
      exact Or.inl rfl
    | ok file =>
      obtain ⟨⟨r, file', fs⟩, htrunc, he⟩ := bind_eq_ok.mp he
      cases he
      obtain ⟨hu, hi⟩ := fsGetMetadata_used h hfound
      exact Or.inr ⟨.truncate file size,
        (FreshFile.iff h).mpr ⟨hu, hi, (Ensures.apply hl hfound).apply rfl⟩, trivial,
        map_eq_ok.mpr ⟨_, htrunc, rfl⟩⟩
  | release fd path =>
    dsimp only [Call.step] at hs
    split at hs
    · cases hs
      exact Or.inl rfl
    · obtain ⟨_, hcall, rfl⟩ := map_eq_ok.mp hs
      obtain ⟨p, hfree, he⟩ := bind_eq_ok.mp hcall
      obtain ⟨-, rfl⟩ := Process.free_eq_ok hfree
      cases he
      exact Or.inl rfl
  | fgetattr fd path =>
    rcases OpenFiles.on_fs hs with hfs | ⟨-, a, file, info, fs, -, hwork, hfs⟩
    · exact Or.inl hfs
    · cases hwork
      exact Or.inl hfs
  | read fd path size off =>
    rcases OpenFiles.on_fs hs with hfs | ⟨-, a, file, info, fs, -, hwork, hfs⟩
    · exact Or.inl hfs
    · obtain ⟨_, -, hwork⟩ := bind_eq_ok.mp hwork
      cases hwork
      exact Or.inl hfs
  | write fd path buf off =>
    rcases OpenFiles.on_fs hs with hfs | ⟨hdown, a, file, info, fs, hfd, hwork, hfs⟩
    · exact Or.inl hfs
    · exact Or.inr ⟨.write file buf off, ⟨hfresh hdown fd file hfd, hl⟩, trivial,
        map_eq_ok.mpr ⟨_, hwork, hfs.symm⟩⟩

theorem Call.Moves.regular {held held' : ℕ → Option FileInfo} (h : Coherent geo fs held)
    (hw : (volume geo fs).Wellformed)
    (hreg : ∀ fd file, held fd = some file → sIsreg file.inode.mode) {c : Call}
    (hcreate : ∀ path mode, c = .create path mode → sIsreg mode)
    (hopen : ∀ path, c = .open path → LeadsTo fs path fun info => sIsreg info.inode.mode)
    (hrange : ∀ fd path buf off, c = .write fd path buf off →
      off + buf.length ≤ directBlksNum * geo.blkSize)
    (hc : c.Moves fs held fs' held') : ∀ fd file, held' fd = some file → sIsreg file.inode.mode := by
  have hupdate : ∀ fd (o : Option FileInfo), (∀ info, o = some info → sIsreg info.inode.mode) →
      ∀ fd' file, Function.update held fd o fd' = some file → sIsreg file.inode.mode := by
    intro fd o ho fd' file hfile
    by_cases hsame : fd' = fd
    · rw [hsame, Function.update_self] at hfile
      exact ho file hfile
    · rw [Function.update_of_ne hsame] at hfile
      exact hreg fd' file hfile
  cases hc with
  | idle => exact hreg
  | failed => exact hreg
  | @created path mode fd info _ hfd he =>
    refine hupdate fd _ fun x hx => ?_
    cases hx
    obtain ⟨-, hcase⟩ := fsCreateFile_volume h.mounted he
    rcases hcase with ⟨hr, -⟩ | ⟨-, parent, p, i, inserted, dir, -, -, -, -, rfl, -⟩
    · exact absurd rfl hr
    · exact hcreate path mode rfl
  | @opened path fd info hfd he =>
    refine hupdate fd _ fun x hx => ?_
    cases hx
    exact ((hopen path rfl).apply he).apply rfl
  | @wrote fd path buf off file file' ret _ hfd he =>
    refine hupdate fd _ fun x hx => ?_
    cases hx
    have hfit := hrange fd path buf off rfl
    have hmod := Nat.mod_le off geo.span
    obtain ⟨-, c, hsteps, -, -, -, rfl, -⟩ :=
      fsWriteFile_confined h.mounted rfl (by omega) he
    obtain ⟨hu, hi⟩ := h.current fd file hfd
    have hf : FreshFile fs file := (FreshFile.iff h.mounted).mpr ⟨hu, hi, hreg fd file hfd⟩
    have hcarries : Volume.Carries file.idx c.vol c.inode := by
      clear he
      induction hsteps with
      | refl => exact hf.carries h.mounted hw
      | tail _ hs ih => exact ih.step hs
    exact hcarries.2.2
  | closed => exact hupdate _ _ fun _ hx => by cases hx

end Effects

section Sessions

variable {geo : Geometry} {fs₀ fs fs' : Filesystem} {s t : Mountpoint}

/-- While the flag is down every open file has the current inode of a regular file of its own. -/
structure Sound (geo : Geometry) (s : OpenFiles) : Prop where
  separate : s.Separate
  coherent : Coherent geo s.proc.fs s.held
  regular : ∀ fd file, s.held fd = some file → sIsreg file.inode.mode

theorem Sound.fresh {s : OpenFiles} (h : Sound geo s) {fd : ℕ} {file : FileInfo}
    (hfd : s.held fd = some file) : FreshFile s.proc.fs file := by
  obtain ⟨hu, hi⟩ := h.coherent.current fd file hfd
  exact (FreshFile.iff h.coherent.mounted).mpr ⟨hu, hi, h.regular fd file hfd⟩

theorem Sound.call {s t : OpenFiles} (hsound : s.proc.reopen = false → Sound geo s)
    (ho : Orderly geo s.proc.fs) {c : Call} (hl : c.Lawful s) (hs : c.step s = .ok t)
    (hdown : t.proc.reopen = false) : Sound geo t := by
  cases hflag : s.proc.reopen with
  | true =>
    rw [Call.step_raised hflag hs] at hdown
    cases hdown
  | false =>
    obtain ⟨hsep, hco, hreg⟩ := hsound hflag
    rcases Call.step_moves hsep hflag hs with ⟨-, hraised⟩ | ⟨-, hsep', hmoves⟩
    · rw [hraised] at hdown
      cases hdown
    · refine ⟨hsep', hco.moves ?_ hmoves, hmoves.regular hco ho.wellformed hreg ?_ ?_ ?_⟩
      · rintro path info fd file rfl hfound hfile hsame
        have hopen := ((Ensures.apply hl hfound).apply rfl).2
        exact hopen (OpenFiles.mem_inodes.mpr ⟨fd, file, hfile, hsame⟩)
      · rintro path mode rfl
        exact hl.2.2
      · rintro path rfl
        exact fun r hr info hinfo => (hl r hr info hinfo).1
      · rintro fd path buf off rfl
        rw [← ho.mounted.blockSize]
        exact hl

theorem Sound.path {s : OpenFiles} (h : Sound geo s) (hm : Mounted geo fs')
    (hkeep : ∀ fd file, s.held fd = some file → Spared geo s.proc.fs fs' file.idx) :
    Sound geo { s with proc := { s.proc with fs := fs' } } :=
  ⟨⟨h.separate.live, h.separate.apart⟩, h.coherent.spared hm hkeep, h.regular⟩

structure InSession (geo : Geometry) (s : Mountpoint) : Prop where
  named : NamedReachable geo s.files.proc.fs
  sound : s.files.proc.reopen = false → Sound geo s.files

theorem NamedReachable.operated (h : NamedReachable geo fs) (ho : Operated fs fs') :
    NamedReachable geo fs' := by
  obtain ⟨fs₀, hmount, hrun⟩ := h
  rcases ho with rfl | ⟨op, hl, hn, hs⟩
  · exact ⟨fs₀, hmount, hrun⟩
  · exact ⟨fs₀, hmount, hrun.tail op ⟨hl, hn⟩ hs⟩

theorem InSession.next (h : InSession geo s) {r : Request} (hl : r.Lawful s)
    (hs : s.next r = .ok t) : InSession geo t := by
  obtain ⟨⟨reply, t⟩, hserve, rfl⟩ := map_eq_ok.mp hs
  have ho := h.named.orderly
  cases r with
  | file c =>
    obtain ⟨⟨reply, files⟩, hcall, hpair⟩ := map_eq_ok.mp hserve
    cases hpair
    have hstep : c.step s.files = .ok files := by
      rw [← Call.serve_step, hcall]
      rfl
    exact ⟨h.named.operated (Call.operated ho.mounted (fun hdown _ _ => (h.sound hdown).fresh) hl
      hstep), Sound.call h.sound ho hl hstep⟩
  | path r =>
    obtain ⟨⟨reply, fs', dirs⟩, hcall, hpair⟩ := map_eq_ok.mp hserve
    cases hpair
    rcases PathRequest.serve_op hcall with rfl | ⟨op, hop, hs⟩
    · exact ⟨h.named, fun hdown => (h.sound hdown).path ho.mounted fun fd file hfile =>
        ((h.sound hdown).coherent.current fd file hfile).imp id fun _ => rfl⟩
    · obtain ⟨hlop, hn⟩ := PathRequest.Lawful.op hl hop
      refine ⟨h.named.operated (Or.inr ⟨op, hlop, hn, hs⟩), fun hdown => ?_⟩
      have hsound := h.sound hdown
      refine hsound.path (ho.step hlop hn hs).mounted fun fd file hfile => ?_
      exact PathRequest.Lawful.spares hl ho.mounted (hsound.coherent.current fd file hfile).1
        (OpenFiles.mem_inodes.mpr ⟨fd, file, hfile, rfl⟩) hop hs

theorem inSession (hmount : freshMount geo = .ok fs₀)
    (hrun : Reaches Mountpoint.next (fun s r => r.Lawful s) (.start fs₀) s) : InSession geo s := by
  have hm := (freshMount_spec hmount).1
  refine hrun.invariant (InSession geo) (fun s r t h hl hs => h.next hl hs) ?_
  refine ⟨⟨fs₀, hmount, .refl⟩, fun _ => ⟨OpenFiles.start_separate fs₀, ⟨hm, ?_, ?_⟩, ?_⟩⟩
  · exact fun _ _ hfile => nomatch hfile
  · exact fun _ _ _ _ hfile => nomatch hfile
  · exact fun _ _ hfile => nomatch hfile

/-- In a session of lawful requests the file system only ever goes through lawful operations, and
until a file is truncated each open file has an object of its own, with the inode that the device
has for it. -/
theorem session_lawful (hmount : freshMount geo = .ok fs₀)
    (hrun : Reaches Mountpoint.next (fun s r => r.Lawful s) (.start fs₀) s) :
    NamedReachable geo s.fs ∧ (s.files.proc.reopen = false →
      (∀ fd fi, s.files.files.get fd = some fi → ∃ file,
        s.files.proc.objects.get fi.fh = some file ∧ FreshFile s.fs file) ∧
      ∀ fd fd' fi fi' file file', s.files.files.get fd = some fi →
        s.files.files.get fd' = some fi' → s.files.proc.objects.get fi.fh = some file →
        s.files.proc.objects.get fi'.fh = some file' → file.idx = file'.idx → fd = fd') := by
  obtain ⟨hnamed, hsound⟩ := inSession hmount hrun
  refine ⟨hnamed, fun hdown => ⟨fun fd fi hfd => ?_, ?_⟩⟩
  · obtain ⟨file, hfile⟩ := (hsound hdown).separate.live fd fi hfd
    exact ⟨file, hfile, (hsound hdown).fresh ((OpenFiles.held_eq hfd).trans hfile)⟩
  · intro fd fd' fi fi' file file' hfd hfd' hfile hfile' hsame
    exact (hsound hdown).coherent.single fd fd' file file'
      ((OpenFiles.held_eq hfd).trans hfile) ((OpenFiles.held_eq hfd').trans hfile') hsame

theorem exists_session (rs : List Request) {p : Mountpoint → Prop} [DecidablePred p]
    (h : Yields (freshMount smallDisk) fun fs =>
      ((runAllowed Mountpoint.next (fun s r => r.Lawful s) (.start fs) rs).any fun s =>
        decide (p s)) = true) :
    ∃ fs₀ s, freshMount smallDisk = .ok fs₀ ∧
      Reaches Mountpoint.next (fun s r => r.Lawful s) (.start fs₀) s ∧ p s :=
  exists_run Mountpoint.start rs h

/-- Two files in a directory, one of them renamed while it is open. -/
def twoOpenFiles : List Request :=
  [.path (.mkdir [47, 100] 0o755), .file (.create [47, 100, 47, 97] 0o100644),
    .file (.create [47, 98] 0o100644), .file (.write 0 [47, 100, 47, 97] [1, 2, 3] 0),
    .path (.rename [47, 100, 47, 97] [47, 99]), .file (.write 1 [47, 98] [4] 5)]

theorem session_lawful_twoOpenFiles :
    ∃ fs₀ s, freshMount smallDisk = .ok fs₀ ∧
      Reaches Mountpoint.next (fun s r => r.Lawful s) (.start fs₀) s ∧
      (s.files.proc.reopen = false ∧ s.files.inodes.length = 2) ∧ NamedReachable smallDisk s.fs ∧
      ∀ fd fi, s.files.files.get fd = some fi → ∃ file,
        s.files.proc.objects.get fi.fh = some file ∧ FreshFile s.fs file := by
  obtain ⟨fs₀, s, hmount, hrun, hdown, hlen⟩ := exists_session twoOpenFiles
    (p := fun s => s.files.proc.reopen = false ∧ s.files.inodes.length = 2) (by decide +kernel)
  obtain ⟨hnamed, hsound⟩ := session_lawful hmount hrun
  exact ⟨fs₀, s, hmount, hrun, ⟨hdown, hlen⟩, hnamed, (hsound hdown).1⟩

end Sessions

end ChisaiFs
