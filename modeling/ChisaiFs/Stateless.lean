import ChisaiFs.Service

/-! The mounted process compared with a server that keeps no inodes in memory. That server has
the number of an open file's inode only and loads the inode for every call; as long as nothing is
truncated nobody can tell the two apart. -/

namespace ChisaiFs
open Outcome Heaps Lockstep Simulation

/-- The numbers of the inodes of open files, by descriptor, beside the file system. -/
structure Stateless where
  fs : Filesystem
  files : Heap ChisaiSize
  dirs : OpenDirs

def Stateless.start (fs : Filesystem) : Stateless := ⟨fs, .empty, .start⟩

def Stateless.serveOn {α : Type} (t : Stateless) (fd : ℕ) (reply : α → Reply)
    (work : Filesystem → FileInfo → Exec (α × FileInfo × Filesystem)) :
    Exec (Reply × Stateless) :=
  match t.files.get fd with
  | none => .ok (.code ebadf, t)
  | some idx => do
    match ← fsFindInode t.fs idx with
    | none => return (.code ChisaiError.enoent.code, t)
    | some inode =>
      let (a, _, fs) ← work t.fs ⟨inode, idx⟩
      return (reply a, { t with fs := fs })

def Call.serveStateless (t : Stateless) : Call → Exec (Reply × Stateless)
  | .create path mode => do
    let (ret, info, fs) ← fsCreateFile t.fs path mode unfilled
    return (.code ret.code,
      { t with fs := fs, files := if ret = .ok then t.files.alloc info.idx else t.files })
  | .open path => do
    match ← fsGetMetadata t.fs path with
    | .error e => return (.code e.code, t)
    | .ok info => return (.code ChisaiError.ok.code, { t with files := t.files.alloc info.idx })
  | .truncate path size => do
    match ← fsGetMetadata t.fs path with
    | .error e => return (.code e.code, t)
    | .ok file =>
      let (ret, _, fs) ← fsTruncateFile t.fs file size
      return (.code ret.code, { t with fs := fs })
  | .release fd _ =>
    match t.files.get fd with
    | none => .ok (.code ebadf, t)
    | some _ => .ok (.code ChisaiError.ok.code, { t with files := t.files.free fd })
  | .fgetattr fd _ => t.serveOn fd .attr fun fs file => .ok (chisaiFuseTostat file, file, fs)
  | .read fd _ size off => t.serveOn fd (fun r => .data r.1 r.2) fun fs file => do
      return (← fsReadFile fs file size off, file, fs)
  | .write fd _ buf off => t.serveOn fd .code fun fs file => fsWriteFile fs file buf off

def Stateless.serve (t : Stateless) : Request → Exec (Reply × Stateless)
  | .path r => (fun u => (u.1, { t with fs := u.2.1, dirs := u.2.2 })) <$> r.serve t.fs t.dirs
  | .file c => c.serveStateless t

/-- A lawful request; a call on files finds the flag down. -/
def Request.Steady (s : Mountpoint) : Request → Prop
  | .path r => r.Lawful s.files
  | .file c => c.Lawful s.files ∧ s.files.proc.reopen = false

instance Request.decidableSteady (s : Mountpoint) : (r : Request) → Decidable (r.Steady s)
  | .path r => inferInstanceAs (Decidable (r.Lawful s.files))
  | .file c => inferInstanceAs (Decidable (c.Lawful s.files ∧ s.files.proc.reopen = false))

theorem Request.Steady.lawful {s : Mountpoint} {r : Request} (h : r.Steady s) : r.Lawful s := by
  cases r with
  | path r => exact h
  | file c => exact h.1

/-- The numbers kept are those of the copies. -/
structure Mirrors (s : OpenFiles) (t : Stateless) : Prop where
  fresh : t.files.fresh = s.files.fresh
  files : ∀ fd, t.files.get fd = (s.held fd).map (·.idx)

section Mirrors

variable {geo : Geometry} {s s' : OpenFiles} {t : Stateless} {fd : ℕ} {fi : OpenFile}
  {info : FileInfo}

theorem Mirrors.closed (h : Mirrors s t) (hfd : s.files.get fd = none) : t.files.get fd = none := by
  rw [h.files, OpenFiles.held_of_closed hfd]
  rfl

theorem Mirrors.opened (h : Mirrors s t) (hfd : s.files.get fd = some fi)
    (hget : s.proc.objects.get fi.fh = some info) : t.files.get fd = some info.idx := by
  rw [h.files, OpenFiles.held_eq hfd, hget]
  rfl

theorem Mirrors.congr (h : Mirrors s t) {fs : Filesystem} (hfiles : s'.files = s.files)
    (hheld : s'.held = s.held) : Mirrors s' { t with fs := fs } := by
  refine ⟨?_, fun fd => ?_⟩
  · rw [hfiles]
    exact h.fresh
  · rw [hheld]
    exact h.files fd

theorem Mirrors.alloc (h : Mirrors s t) {path : CString} {fs : Filesystem}
    (hfiles : s'.files = s.files.alloc ⟨path, s.proc.objects.fresh⟩)
    (hheld : s'.held = Function.update s.held s.files.fresh (some info)) :
    Mirrors s' { t with fs := fs, files := t.files.alloc info.idx } := by
  refine ⟨?_, fun fd => ?_⟩
  · rw [hfiles, Heap.fresh_alloc, Heap.fresh_alloc, h.fresh]
  · rw [Heap.get_alloc, hheld, h.fresh]
    split_ifs with hnew
    · rw [hnew, Function.update_self]
      rfl
    · rw [Function.update_of_ne hnew]
      exact h.files fd

theorem Mirrors.free (h : Mirrors s t) (hfiles : s'.files = s.files.free fd)
    (hheld : s'.held = Function.update s.held fd none) :
    Mirrors s' { t with files := t.files.free fd } := by
  refine ⟨?_, fun fd' => ?_⟩
  · rw [hfiles, Heap.fresh_free, Heap.fresh_free, h.fresh]
  · rw [Heap.get_free, hheld]
    split_ifs with hsame
    · rw [hsame, Function.update_self]
      rfl
    · rw [Function.update_of_ne hsame]
      exact h.files fd'

theorem Mirrors.store (h : Mirrors s t) {fs : Filesystem} {file : FileInfo}
    (hfiles : s'.files = s.files.store fd fi)
    (hold : s.held fd = some file) (hidx : info.idx = file.idx)
    (hheld : s'.held = Function.update s.held fd (some info)) :
    Mirrors s' { t with fs := fs } := by
  refine ⟨?_, fun fd' => ?_⟩
  · rw [hfiles, Heap.fresh_store, h.fresh]
  · rw [hheld]
    by_cases hsame : fd' = fd
    · rw [hsame, Function.update_self, Option.map_some, hidx]
      exact (h.files fd).trans (by rw [hold]; rfl)
    · rw [Function.update_of_ne hsame]
      exact h.files fd'

end Mirrors

theorem onHandle_eq {α : Type} {p : Process} {path : CString} {fh : ℕ} {file : FileInfo}
    {failed : ChisaiError → α} {work : Filesystem → FileInfo → Exec (α × FileInfo × Filesystem)}
    (hdown : p.reopen = false) (hget : p.objects.get fh = some file) :
    onHandle p path fh failed work = (fun r => (r.1, fh,
      { p with fs := r.2.2, objects := p.objects.store fh r.2.1 })) <$> work p.fs file := by
  unfold onHandle
  rw [chisaiFuseReopen_lowered hdown, ok_bind]
  dsimp only
  rw [if_neg (not_not.mpr rfl), Process.load, hget]
  rfl

theorem chisaiFuseOpen_missing {p : Process} {path : CString} (fh : ℕ) {e : ChisaiError}
    (hfound : fsGetMetadata p.fs path = .ok (.error e)) :
    ∃ p', chisaiFuseOpen p path fh = .ok (e, fh, p') := by
  have hget : (p.objects.alloc unfilled).get p.objects.fresh = some unfilled := by
    rw [Heap.get_alloc, if_pos rfl]
  unfold chisaiFuseOpen
  dsimp only
  simp only [hfound, ok_bind, Process.free, hget]
  exact ⟨_, rfl⟩

theorem chisaiFuseOpen_found {p : Process} {path : CString} (fh : ℕ) {info : FileInfo}
    (hfound : fsGetMetadata p.fs path = .ok (.ok info)) :
    ∃ p', chisaiFuseOpen p path fh = .ok (.ok, p.objects.fresh, p') := by
  unfold chisaiFuseOpen
  dsimp only
  simp only [hfound, ok_bind]
  exact ⟨_, rfl⟩

section Requests

variable {geo : Geometry} {s : OpenFiles} {t : Stateless} {fd : ℕ} {path : CString}

/-- The two servers after one call: the same reply and the same file system. -/
def Answers (t : Stateless) (p : Reply × OpenFiles) (q : Reply × Stateless) : Prop :=
  q.1 = p.1 ∧ q.2.fs = p.2.proc.fs ∧ q.2.dirs = t.dirs ∧
    (p.2.proc.reopen = false → Mirrors p.2 q.2)

theorem OpenFiles.serveOn_answers {α : Type} (reply : α → Reply) (h : Sound geo s)
    (hdown : s.proc.reopen = false) (hfs : t.fs = s.proc.fs) (hm : Mirrors s t)
    {failed : ChisaiError → α}
    {work : Filesystem → FileInfo → Exec (α × FileInfo × Filesystem)}
    (hidx : ∀ fs file a info fs', work fs file = .ok (a, info, fs') → info.idx = file.idx) :
    Alike (Answers t) (s.serveOn fd reply fun p fh => onHandle p path fh failed work)
      (t.serveOn fd reply work) := by
  cases hfd : s.files.get fd with
  | none =>
    simp only [OpenFiles.serveOn, Stateless.serveOn, hfd, hm.closed hfd]
    exact .ok ⟨rfl, hfs, rfl, fun _ => hm⟩
  | some fi =>
    obtain ⟨file, hget⟩ := h.separate.live fd fi hfd
    have hheld := (OpenFiles.held_eq hfd).trans hget
    have hload := (h.fresh hheld).1
    simp only [OpenFiles.serveOn, Stateless.serveOn, hfd, hm.opened hfd hget, hfs, hload, ok_bind,
      onHandle_eq hdown hget]
    cases hwork : work s.proc.fs file with
    | error e => exact .error e
    | ok r =>
      obtain ⟨a, info, fs⟩ := r
      refine .ok ⟨rfl, rfl, rfl, fun _ => ?_⟩
      have hsep := h.separate.store
        (t := ⟨{ s.proc with fs := fs, objects := s.proc.objects.store fi.fh info },
          s.files.store fd fi⟩) hfd rfl rfl
      exact hm.store rfl hheld (hidx _ _ _ _ _ hwork) hsep.2

theorem Mirrors.create_answers (hm : Mirrors s t) (h : Sound geo s)
    (hfs : t.fs = s.proc.fs) (path : CString) (mode : UInt32) :
    Alike (Answers t) (Call.serve s (.create path mode))
      (Call.serveStateless t (.create path mode)) := by
  simp only [Call.serve, chisaiFuseCreate, Call.serveStateless, hfs]
  cases hcreate : fsCreateFile s.proc.fs path mode unfilled with
  | error e => exact .error e
  | ok r =>
    obtain ⟨r, info, fs⟩ := r
    have hget : ∀ a, (s.proc.objects.alloc info).get a =
        if a = s.proc.objects.fresh then some info else s.proc.objects.get a :=
      fun a => Heap.get_alloc
    refine .ok ⟨rfl, rfl, rfl, fun _ => ?_⟩
    dsimp only [OpenFiles.opened]
    by_cases hr : r = .ok
    · rw [if_pos hr, if_pos hr]
      have hsep := h.separate.alloc
        (t := ⟨{ s.proc with fs := fs, objects := s.proc.objects.alloc info },
          s.files.alloc ⟨path, s.proc.objects.fresh⟩⟩) rfl hget
      exact hm.alloc rfl hsep.2
    · rw [if_neg hr, if_neg hr]
      have hsep := h.separate.congr
        (t := ⟨{ s.proc with fs := fs, objects := s.proc.objects.alloc info }, s.files⟩) rfl
        fun a file ha => (hget a).trans ((if_neg (Heap.ne_fresh ha)).trans ha)
      exact hm.congr rfl hsep.2

theorem Mirrors.open_answers (hm : Mirrors s t) (h : Sound geo s)
    (hfs : t.fs = s.proc.fs) (path : CString) :
    Alike (Answers t) (Call.serve s (.open path)) (Call.serveStateless t (.open path)) := by
  simp only [Call.serve, Call.serveStateless, hfs]
  cases hfound : fsGetMetadata s.proc.fs path with
  | error e =>
    rw [chisaiFuseOpen, hfound]
    exact .error e
  | ok found =>
    cases found with
    | error e =>
      obtain ⟨p, hopen⟩ := chisaiFuseOpen_missing 0 hfound
      obtain ⟨hpfs, -, ⟨hr, hget⟩ | ⟨hr, -, info, hinfo, -⟩⟩ := chisaiFuseOpen_eq_ok hopen
      · rw [hopen]
        refine .ok ⟨rfl, hfs.trans hpfs.symm, rfl, fun _ => ?_⟩
        dsimp only [OpenFiles.opened]
        rw [if_neg hr]
        have hsep := h.separate.congr (t := ⟨p, s.files⟩) rfl fun a file ha => (hget a).trans ha
        exact hm.congr rfl hsep.2
      · cases hfound.symm.trans hinfo
    | ok info =>
      obtain ⟨p, hopen⟩ := chisaiFuseOpen_found 0 hfound
      obtain ⟨hpfs, -, ⟨hr, -⟩ | ⟨-, -, info', hinfo, hget⟩⟩ := chisaiFuseOpen_eq_ok hopen
      · exact absurd rfl hr
      · cases hfound.symm.trans hinfo
        rw [hopen]
        refine .ok ⟨rfl, hpfs.symm, rfl, fun _ => ?_⟩
        have hsep := h.separate.alloc
          (t := ⟨p, s.files.alloc ⟨path, s.proc.objects.fresh⟩⟩) rfl hget
        exact hm.alloc rfl hsep.2

theorem Mirrors.truncate_answers (hm : Mirrors s t) (hfs : t.fs = s.proc.fs)
    (path : CString) (size : ℕ) :
    Alike (Answers t) (Call.serve s (.truncate path size))
      (Call.serveStateless t (.truncate path size)) := by
  simp only [Call.serve, chisaiFuseTruncate, Call.serveStateless, hfs]
  cases hfound : fsGetMetadata s.proc.fs path with
  | error e => exact .error e
  | ok found =>
    cases found with
    | error e => exact .ok ⟨rfl, hfs, rfl, fun _ => hm⟩
    | ok file =>
      simp only [ok_bind]
      cases htrunc : fsTruncateFile s.proc.fs file size with
      | error e => exact .error e
      | ok r =>
        obtain ⟨r, file', fs⟩ := r
        exact .ok ⟨rfl, rfl, rfl, fun _ => hm.congr rfl rfl⟩

theorem Mirrors.release_answers (hm : Mirrors s t) (h : Sound geo s)
    (hfs : t.fs = s.proc.fs) (fd : ℕ) (path : CString) :
    Alike (Answers t) (Call.serve s (.release fd path))
      (Call.serveStateless t (.release fd path)) := by
  cases hfd : s.files.get fd with
  | none =>
    simp only [Call.serve, Call.serveStateless, hfd, hm.closed hfd]
    exact .ok ⟨rfl, hfs, rfl, fun _ => hm⟩
  | some fi =>
    obtain ⟨file, hget⟩ := h.separate.live fd fi hfd
    simp only [Call.serve, Call.serveStateless, hfd, hm.opened hfd hget, chisaiFuseRelease,
      Process.free, hget]
    have hsep := h.separate.free
      (t := ⟨{ s.proc with objects := s.proc.objects.free fi.fh }, s.files.free fd⟩) hfd rfl rfl
    exact .ok ⟨rfl, hfs, rfl, fun _ => hm.free rfl hsep.2⟩

theorem Call.serve_answers (h : Sound geo s) (hdown : s.proc.reopen = false)
    (hfs : t.fs = s.proc.fs) (hm : Mirrors s t) (c : Call) :
    Alike (Answers t) (c.serve s) (c.serveStateless t) := by
  cases c with
  | create path mode => exact hm.create_answers h hfs path mode
  | «open» path => exact hm.open_answers h hfs path
  | truncate path size => exact hm.truncate_answers hfs path size
  | release fd path => exact hm.release_answers h hfs fd path
  | fgetattr fd path =>
    refine OpenFiles.serveOn_answers .ofStat h hdown hfs hm ?_
    intro fs file a info fs' he
    cases he
    rfl
  | read fd path size off =>
    refine OpenFiles.serveOn_answers (fun r : ℤ × List UInt8 => .data r.1 r.2) h hdown hfs hm ?_
    intro fs file a info fs' he
    obtain ⟨_, -, he⟩ := bind_eq_ok.mp he
    cases he
    rfl
  | write fd path buf off =>
    refine OpenFiles.serveOn_answers .code h hdown hfs hm ?_
    intro fs file a info fs' he
    obtain ⟨s, nospace, -, -, hfile, -⟩ := fsWriteFile_eq_ok he
    rw [hfile]

end Requests

section Sessions

variable {geo : Geometry} {fs₀ : Filesystem} {s : Mountpoint} {t : Stateless}

structure Shadows (geo : Geometry) (s : Mountpoint) (t : Stateless) : Prop where
  session : InSession geo s
  fs : t.fs = s.files.proc.fs
  dirs : t.dirs = s.dirs
  mirrors : s.files.proc.reopen = false → Mirrors s.files t

theorem Shadows.serve (h : Shadows geo s t) {r : Request} (hr : r.Steady s) :
    Alike (fun p q => q.1 = p.1 ∧ Shadows geo p.2 q.2) (s.serve r) (t.serve r) := by
  have hboth : Alike (fun p q => q.1 = p.1 ∧ q.2.fs = p.2.files.proc.fs ∧ q.2.dirs = p.2.dirs ∧
      (p.2.files.proc.reopen = false → Mirrors p.2.files q.2)) (s.serve r) (t.serve r) := by
    cases r with
    | path r =>
      simp only [Mountpoint.serve, Stateless.serve, h.fs, h.dirs, Mountpoint.fs]
      cases r.serve s.files.proc.fs s.dirs with
      | error e => exact .error e
      | ok u => exact .ok ⟨rfl, rfl, rfl, fun hdown =>
          ⟨(h.mirrors hdown).fresh, (h.mirrors hdown).files⟩⟩
    | file c =>
      obtain ⟨-, hdown⟩ := hr
      have hcall := Call.serve_answers (h.session.sound hdown) hdown h.fs (h.mirrors hdown) c
      simp only [Mountpoint.serve, Stateless.serve]
      generalize c.serve s.files = x at hcall
      generalize c.serveStateless t = y at hcall
      cases hcall with
      | error e => exact .error e
      | ok ha => exact .ok ⟨ha.1, ha.2.1, ha.2.2.1.trans h.dirs, ha.2.2.2⟩
  refine hboth.mono fun p q hp hq hans => ⟨hans.1, ?_, hans.2.1, hans.2.2.1, hans.2.2.2⟩
  exact h.session.next hr.lawful (map_eq_ok.mpr ⟨p, hp, rfl⟩)

/-- Nobody can tell a session from one with a server that keeps no inodes, not even by a fault,
as long as calls on files find the flag down. -/
theorem serve_stateless (hmount : freshMount geo = .ok fs₀) {rs : List Request}
    (hrs : Admitted Mountpoint.serve (fun s r => r.Steady s) (.start fs₀) rs) :
    outputs Stateless.serve (.start fs₀) rs = outputs Mountpoint.serve (.start fs₀) rs := by
  refine outputs_simulated (R := Shadows geo) ?_ ?_ hrs
  · exact fun s t r h hr => h.serve hr
  · exact ⟨inSession hmount .refl, rfl, rfl, fun _ => ⟨rfl, fun fd => rfl⟩⟩

theorem serve_stateless_twoOpenFiles : ∃ fs₀, freshMount smallDisk = .ok fs₀ ∧
    outputs Stateless.serve (.start fs₀) twoOpenFiles =
      outputs Mountpoint.serve (.start fs₀) twoOpenFiles := by
  have hrun : Yields (freshMount smallDisk) fun fs₀ =>
      Admitted Mountpoint.serve (fun s r => r.Steady s) (.start fs₀) twoOpenFiles := by
    decide +kernel
  obtain ⟨fs₀, hmount, hrs⟩ := hrun
  exact ⟨fs₀, hmount, serve_stateless hmount hrs⟩

end Sessions

end ChisaiFs
