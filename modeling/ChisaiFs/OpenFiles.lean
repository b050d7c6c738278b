import ChisaiFs.Handles

/-! The open files seen as a table of copies of inodes. While the flag `REOPEN`
is down every call is one update of that table and of the file system. -/

namespace ChisaiFs
open Outcome Heaps

def OpenFiles.held (s : OpenFiles) (fd : ℕ) : Option FileInfo :=
  (s.files.get fd).bind fun fi => s.proc.objects.get fi.fh

/-- Every open file has an object of its own. -/
structure OpenFiles.Separate (s : OpenFiles) : Prop where
  live : ∀ fd fi, s.files.get fd = some fi → ∃ file, s.proc.objects.get fi.fh = some file
  apart : ∀ fd fd' fi fi', s.files.get fd = some fi → s.files.get fd' = some fi' →
    fi.fh = fi'.fh → fd = fd'

inductive Call.Moves (fs : Filesystem) (held : ℕ → Option FileInfo) :
    Call → Filesystem → (ℕ → Option FileInfo) → Prop
  | idle {c : Call} : Moves fs held c fs held
  | failed {path : CString} {mode : UInt32} {r : ChisaiError} {info : FileInfo} {fs' : Filesystem}
      (hr : r ≠ .ok) (he : fsCreateFile fs path mode unfilled = .ok (r, info, fs')) :
      Moves fs held (.create path mode) fs' held
  | created {path : CString} {mode : UInt32} {fd : ℕ} {info : FileInfo} {fs' : Filesystem}
      (hfd : held fd = none) (he : fsCreateFile fs path mode unfilled = .ok (.ok, info, fs')) :
      Moves fs held (.create path mode) fs' (Function.update held fd (some info))
  | opened {path : CString} {fd : ℕ} {info : FileInfo} (hfd : held fd = none)
      (he : fsGetMetadata fs path = .ok (.ok info)) :
      Moves fs held (.open path) fs (Function.update held fd (some info))
  | wrote {fd : ℕ} {path : CString} {buf : List UInt8} {off : ℕ} {file file' : FileInfo} {ret : ℤ}
      {fs' : Filesystem} (hfd : held fd = some file)
      (he : fsWriteFile fs file buf off = .ok (ret, file', fs')) :
      Moves fs held (.write fd path buf off) fs' (Function.update held fd (some file'))
  | closed {fd : ℕ} {path : CString} :
      Moves fs held (.release fd path) fs (Function.update held fd none)

section Tables

variable {s t : OpenFiles} {fd : ℕ} {fi : OpenFile} {path : CString} {info : FileInfo}

theorem OpenFiles.start_separate (fs : Filesystem) : (OpenFiles.start fs).Separate :=
  ⟨fun _ _ hfd => (nomatch hfd), fun _ _ _ _ hfd => (nomatch hfd)⟩

theorem OpenFiles.held_eq (hfd : s.files.get fd = some fi) : s.held fd = s.proc.objects.get fi.fh := by
  rw [OpenFiles.held, hfd, Option.bind_some]

theorem OpenFiles.held_of_closed (hfd : s.files.get fd = none) : s.held fd = none := by
  rw [OpenFiles.held, hfd, Option.bind_none]

namespace OpenFiles.Separate

theorem congr (h : s.Separate) (hf : t.files = s.files)
    (ho : ∀ a file, s.proc.objects.get a = some file → t.proc.objects.get a = some file) :
    t.Separate ∧ t.held = s.held := by
  refine ⟨⟨fun fd fi hfd => ?_, ?_⟩, ?_⟩
  · rw [hf] at hfd
    obtain ⟨file, hget⟩ := h.live fd fi hfd
    exact ⟨file, ho _ _ hget⟩
  · rw [hf]
    exact h.apart
  · funext fd
    cases hfd : s.files.get fd with
    | none => rw [OpenFiles.held_of_closed hfd, OpenFiles.held_of_closed (hf ▸ hfd)]
    | some fi =>
      obtain ⟨file, hget⟩ := h.live fd fi hfd
      rw [OpenFiles.held_eq hfd, OpenFiles.held_eq (hf ▸ hfd), hget, ho _ _ hget]

theorem alloc (h : s.Separate)
    (hf : t.files = s.files.alloc ⟨path, s.proc.objects.fresh⟩)
    (ho : ∀ a, t.proc.objects.get a =
      if a = s.proc.objects.fresh then some info else s.proc.objects.get a) :
    t.Separate ∧ t.held = Function.update s.held s.files.fresh (some info) := by
  have hkeep : ∀ fd fi, s.files.get fd = some fi → fi.fh ≠ s.proc.objects.fresh := by
    intro fd fi hfd
    obtain ⟨file, hget⟩ := h.live fd fi hfd
    exact Heap.ne_fresh hget
  refine ⟨⟨fun fd fi hfd => ?_, fun fd fd' fi fi' hfd hfd' he => ?_⟩, ?_⟩
  · rw [hf, Heap.get_alloc] at hfd
    rw [ho]
    split_ifs at hfd with hnew
    · cases hfd
      exact ⟨info, if_pos rfl⟩
    · rw [if_neg (hkeep fd fi hfd)]
      exact h.live fd fi hfd
  · rw [hf, Heap.get_alloc] at hfd hfd'
    split_ifs at hfd hfd' with hnew hnew' hnew'
    · exact hnew.trans hnew'.symm
    · cases hfd
      exact absurd he.symm (hkeep fd' fi' hfd')
    · cases hfd'
      exact absurd he (hkeep fd fi hfd)
    · exact h.apart fd fd' fi fi' hfd hfd' he
  · funext fd
    have hget : t.files.get fd = if fd = s.files.fresh then
        some ⟨path, s.proc.objects.fresh⟩ else s.files.get fd := by
      rw [hf, Heap.get_alloc]
    by_cases hnew : fd = s.files.fresh
    · rw [hnew, Function.update_self, ← hnew, OpenFiles.held_eq (hget.trans (if_pos hnew)), ho,
        if_pos rfl]
    · rw [if_neg hnew] at hget
      rw [Function.update_of_ne hnew]
      cases hfd : s.files.get fd with
      | none => rw [OpenFiles.held_of_closed hfd, OpenFiles.held_of_closed (hget.trans hfd)]
      | some fi =>
        rw [OpenFiles.held_eq hfd, OpenFiles.held_eq (hget.trans hfd), ho, if_neg (hkeep fd fi hfd)]

theorem store (h : s.Separate) (hfd : s.files.get fd = some fi)
    (hf : t.files = s.files.store fd fi)
    (ho : t.proc.objects = s.proc.objects.store fi.fh info) :
    t.Separate ∧ t.held = Function.update s.held fd (some info) := by
  obtain ⟨file, hlive⟩ := h.live fd fi hfd
  have hfiles : ∀ fd', t.files.get fd' = s.files.get fd' := by
    intro fd'
    rw [hf, Heap.get_store hfd]
    split_ifs with he
    · rw [he, hfd]
    · rfl
  have hobjects : ∀ a, t.proc.objects.get a =
      if a = fi.fh then some info else s.proc.objects.get a := by
    intro a
    rw [ho, Heap.get_store hlive]
  refine ⟨⟨fun fd' fi' hfd' => ?_, fun fd₁ fd₂ fi₁ fi₂ h₁ h₂ he => ?_⟩, ?_⟩
  · rw [hfiles] at hfd'
    rw [hobjects]
    split_ifs
    · exact ⟨info, rfl⟩
    · exact h.live fd' fi' hfd'
  · rw [hfiles] at h₁ h₂
    exact h.apart fd₁ fd₂ fi₁ fi₂ h₁ h₂ he
  · funext fd'
    by_cases hsame : fd' = fd
    · subst hsame
      rw [Function.update_self, OpenFiles.held_eq ((hfiles fd').trans hfd), hobjects, if_pos rfl]
    · rw [Function.update_of_ne hsame]
      cases hfd' : s.files.get fd' with
      | none => rw [OpenFiles.held_of_closed hfd', OpenFiles.held_of_closed ((hfiles fd').trans hfd')]
      | some fi' =>
        have hne : fi'.fh ≠ fi.fh := fun he => hsame (h.apart fd' fd fi' fi hfd' hfd he)
        rw [OpenFiles.held_eq hfd', OpenFiles.held_eq ((hfiles fd').trans hfd'), hobjects, if_neg hne]

theorem free (h : s.Separate) (hfd : s.files.get fd = some fi)
    (hf : t.files = s.files.free fd) (ho : t.proc.objects = s.proc.objects.free fi.fh) :
    t.Separate ∧ t.held = Function.update s.held fd none := by
  have hfiles : ∀ fd', t.files.get fd' = if fd' = fd then none else s.files.get fd' := by
    intro fd'
    rw [hf, Heap.get_free]
  have hobjects : ∀ fd' fi', fd' ≠ fd → s.files.get fd' = some fi' →
      t.proc.objects.get fi'.fh = s.proc.objects.get fi'.fh := by
    intro fd' fi' hne hfd'
    rw [ho, Heap.get_free, if_neg fun he => hne (h.apart fd' fd fi' fi hfd' hfd he)]
  refine ⟨⟨fun fd' fi' hfd' => ?_, fun fd₁ fd₂ fi₁ fi₂ h₁ h₂ he => ?_⟩, ?_⟩
  · rw [hfiles] at hfd'
    split_ifs at hfd' with hne
    rw [hobjects fd' fi' hne hfd']
    exact h.live fd' fi' hfd'
  · rw [hfiles] at h₁ h₂
    split_ifs at h₁ h₂
    exact h.apart fd₁ fd₂ fi₁ fi₂ h₁ h₂ he
  · funext fd'
    by_cases hsame : fd' = fd
    · rw [hsame, Function.update_self, OpenFiles.held_of_closed ((hfiles fd).trans (if_pos rfl))]
    · rw [Function.update_of_ne hsame]
      have hget := (hfiles fd').trans (if_neg hsame)
      cases hfd' : s.files.get fd' with
      | none => rw [OpenFiles.held_of_closed hfd', OpenFiles.held_of_closed (hget.trans hfd')]
      | some fi' =>
        rw [OpenFiles.held_eq hfd', OpenFiles.held_eq (hget.trans hfd'), hobjects fd' fi' hsame hfd']

end OpenFiles.Separate

theorem OpenFiles.on_raised {α : Type} {failed : ChisaiError → α}
    {work : Filesystem → FileInfo → Exec (α × FileInfo × Filesystem)}
    (hup : s.proc.reopen = true)
    (he : s.on fd (fun p fh => onHandle p path fh failed work) = .ok t) :
    t.proc.reopen = true := by
  unfold OpenFiles.on at he
  split at he
  · cases he
    exact hup
  · obtain ⟨⟨a, fh, p⟩, hcall, he⟩ := bind_eq_ok.mp he
    cases he
    exact onHandle_raised hup hcall

theorem Call.step_raised {c : Call} (hup : s.proc.reopen = true) (hs : c.step s = .ok t) :
    t.proc.reopen = true := by
  cases c with
  | create path mode =>
    obtain ⟨_, hcall, rfl⟩ := map_eq_ok.mp hs
    obtain ⟨⟨r, info, fs⟩, -, he⟩ := bind_eq_ok.mp hcall
    cases he
    exact hup
  | «open» path =>
    obtain ⟨⟨r, fh, p⟩, hcall, rfl⟩ := map_eq_ok.mp hs
    exact (chisaiFuseOpen_eq_ok hcall).2.1.trans hup
  | truncate path size =>
    obtain ⟨_, hcall, rfl⟩ := map_eq_ok.mp hs
    obtain ⟨found, -, he⟩ := bind_eq_ok.mp hcall
    cases found with
    | error e =>
      cases he
      exact hup
    | ok file =>
      obtain ⟨⟨r, file', fs⟩, -, he⟩ := bind_eq_ok.mp he
      cases he
      exact Bool.or_eq_true_iff.mpr (Or.inl hup)
  | release fd path =>
    dsimp only [Call.step] at hs
    split at hs
    · cases hs
      exact hup
    · obtain ⟨_, hcall, rfl⟩ := map_eq_ok.mp hs
      obtain ⟨p, hfree, he⟩ := bind_eq_ok.mp hcall
      obtain ⟨-, rfl⟩ := Process.free_eq_ok hfree
      cases he
      exact hup
  | fgetattr fd path => exact OpenFiles.on_raised hup hs
  | read fd path size off => exact OpenFiles.on_raised hup hs
  | write fd path buf off => exact OpenFiles.on_raised hup hs

theorem OpenFiles.Separate.on {α : Type} {failed : ChisaiError → α}
    {work : Filesystem → FileInfo → Exec (α × FileInfo × Filesystem)} (h : s.Separate)
    (hdown : s.proc.reopen = false)
    (he : s.on fd (fun p fh => onHandle p path fh failed work) = .ok t) :
    t = s ∨ ∃ a file, s.held fd = some file ∧ ∃ info,
      work s.proc.fs file = .ok (a, info, t.proc.fs) ∧ t.proc.reopen = false ∧
        t.Separate ∧ t.held = Function.update s.held fd (some info) := by
  unfold OpenFiles.on at he
  split at he
  · cases he
    exact Or.inl rfl
  · next fi hfd =>
    obtain ⟨⟨a, fh, p⟩, hcall, he⟩ := bind_eq_ok.mp he
    cases he
    obtain ⟨file, hlive⟩ := h.live fd fi hfd
    obtain ⟨rfl, info, fs, hwork, rfl⟩ := onHandle_lowered hdown hlive hcall
    exact Or.inr ⟨a, file, (OpenFiles.held_eq hfd).trans hlive, info, hwork, hdown, h.store hfd rfl rfl⟩

theorem OpenFiles.Separate.create {mode : UInt32} (h : s.Separate) (hdown : s.proc.reopen = false)
    (hs : (Call.create path mode).step s = .ok t) : t.proc.reopen = false ∧ t.Separate ∧
      (Call.create path mode).Moves s.proc.fs s.held t.proc.fs t.held := by
  obtain ⟨_, hcall, rfl⟩ := map_eq_ok.mp hs
  obtain ⟨⟨r, info, fs⟩, hcreate, he⟩ := bind_eq_ok.mp hcall
  cases he
  have hget : ∀ a, (s.proc.objects.alloc info).get a =
      if a = s.proc.objects.fresh then some info else s.proc.objects.get a :=
    fun a => Heap.get_alloc
  by_cases hr : r = .ok
  · subst hr
    obtain ⟨hsep, hheld⟩ := h.alloc
      (t := s.opened path (.ok, s.proc.objects.fresh,
        { s.proc with fs := fs, objects := s.proc.objects.alloc info })) rfl hget
    refine ⟨hdown, hsep, ?_⟩
    rw [hheld]
    exact .created (OpenFiles.held_of_closed Heap.get_fresh) hcreate
  · obtain ⟨hsep, hheld⟩ := h.congr
      (t := s.opened path (r, s.proc.objects.fresh,
        { s.proc with fs := fs, objects := s.proc.objects.alloc info })) (if_neg hr) fun a file ha =>
        (hget a).trans ((if_neg (Heap.ne_fresh ha)).trans ha)
    refine ⟨hdown, hsep, ?_⟩
    rw [hheld]
    exact .failed hr hcreate

theorem OpenFiles.Separate.open (h : s.Separate) (hdown : s.proc.reopen = false)
    (hs : (Call.open path).step s = .ok t) : t.proc.reopen = false ∧ t.Separate ∧
      (Call.open path).Moves s.proc.fs s.held t.proc.fs t.held := by
  obtain ⟨⟨r, fh, p⟩, hcall, rfl⟩ := map_eq_ok.mp hs
  obtain ⟨hfs, hflag, hcase⟩ := chisaiFuseOpen_eq_ok hcall
  have hfs : (s.opened path (r, fh, p)).proc.fs = s.proc.fs := hfs
  rcases hcase with ⟨hr, hget⟩ | ⟨rfl, rfl, info, hfound, hget⟩
  · obtain ⟨hsep, hheld⟩ := h.congr (t := s.opened path (r, fh, p)) (if_neg hr)
      fun a file ha => (hget a).trans ha
    refine ⟨hflag.trans hdown, hsep, ?_⟩
    rw [hheld, hfs]
    exact .idle
  · obtain ⟨hsep, hheld⟩ := h.alloc (t := s.opened path (.ok, s.proc.objects.fresh, p)) rfl hget
    refine ⟨hflag.trans hdown, hsep, ?_⟩
    rw [hheld, hfs]
    exact .opened (OpenFiles.held_of_closed Heap.get_fresh) hfound

/-- A truncation that finds its file raises the flag. -/
theorem OpenFiles.Separate.truncate {size : ℕ} (h : s.Separate) (hdown : s.proc.reopen = false)
    (hs : (Call.truncate path size).step s = .ok t) :
    t.proc.reopen = true ∨ (t.proc.reopen = false ∧ t.Separate ∧
      (Call.truncate path size).Moves s.proc.fs s.held t.proc.fs t.held) := by
  obtain ⟨_, hcall, rfl⟩ := map_eq_ok.mp hs
  obtain ⟨found, -, he⟩ := bind_eq_ok.mp hcall
  cases found with
  | error e =>
    cases he
    exact Or.inr ⟨hdown, h, .idle⟩
  | ok file =>
    obtain ⟨⟨r, file', fs⟩, htrunc, he⟩ := bind_eq_ok.mp he
    obtain ⟨_, -, htrunc⟩ := bind_eq_ok.mp htrunc
    obtain ⟨⟨fs₁, inode⟩, -, htrunc⟩ := bind_eq_ok.mp htrunc
    obtain ⟨fs₂, -, htrunc⟩ := bind_eq_ok.mp htrunc
    cases htrunc
    cases he
    exact Or.inl (Bool.or_eq_true_iff.mpr (Or.inr rfl))

theorem OpenFiles.Separate.release (h : s.Separate) (hdown : s.proc.reopen = false)
    (hs : (Call.release fd path).step s = .ok t) : t.proc.reopen = false ∧ t.Separate ∧
      (Call.release fd path).Moves s.proc.fs s.held t.proc.fs t.held := by
  dsimp only [Call.step] at hs
  split at hs
  · cases hs
    exact ⟨hdown, h, .idle⟩
  · next fi hfd =>
    obtain ⟨_, hcall, rfl⟩ := map_eq_ok.mp hs
    obtain ⟨p, hfree, he⟩ := bind_eq_ok.mp hcall
    obtain ⟨-, rfl⟩ := Process.free_eq_ok hfree
    cases he
    obtain ⟨hsep, hheld⟩ := h.free (t := ⟨{ s.proc with objects := s.proc.objects.free fi.fh },
      s.files.free fd⟩) hfd rfl rfl
    refine ⟨hdown, hsep, ?_⟩
    rw [hheld]
    exact .closed

theorem OpenFiles.Separate.idle {α : Type} {failed : ChisaiError → α} {c : Call}
    {work : Filesystem → FileInfo → Exec (α × FileInfo × Filesystem)} (h : s.Separate)
    (hdown : s.proc.reopen = false)
    (hwork : ∀ {fs fs' : Filesystem} {file info : FileInfo} {a : α},
      work fs file = .ok (a, info, fs') → info = file ∧ fs' = fs)
    (he : s.on fd (fun p fh => onHandle p path fh failed work) = .ok t) :
    t.proc.reopen = false ∧ t.Separate ∧ c.Moves s.proc.fs s.held t.proc.fs t.held := by
  rcases h.on hdown he with rfl | ⟨a, file, hheld, info, hok, hdown', hsep, hheld'⟩
  · exact ⟨hdown, h, .idle⟩
  · obtain ⟨rfl, hfs⟩ := hwork hok
    refine ⟨hdown', hsep, ?_⟩
    rw [hheld', ← hheld, Function.update_eq_self, hfs]
    exact .idle

theorem read_idle {α : Type} {r : Exec α} {fs fs' : Filesystem} {file info : FileInfo} {a : α}
    (he : (r >>= fun a => pure (a, file, fs)) = .ok (a, info, fs')) : info = file ∧ fs' = fs := by
  obtain ⟨_, -, he⟩ := bind_eq_ok.mp he
  obtain ⟨hinfo, hfs⟩ := Prod.mk.inj (Prod.mk.inj (pure_eq_ok.mp he)).2
  exact ⟨hinfo.symm, hfs.symm⟩

theorem Call.step_moves {c : Call} (h : s.Separate) (hdown : s.proc.reopen = false)
    (hs : c.step s = .ok t) :
    ((∃ path size, c = .truncate path size) ∧ t.proc.reopen = true) ∨
      (t.proc.reopen = false ∧ t.Separate ∧
        c.Moves s.proc.fs s.held t.proc.fs t.held) := by
  cases c with
  | create path mode => exact Or.inr (h.create hdown hs)
  | «open» path => exact Or.inr (h.open hdown hs)
  | truncate path size => exact (h.truncate hdown hs).imp_left fun hup => ⟨⟨path, size, rfl⟩, hup⟩
  | release fd path => exact Or.inr (h.release hdown hs)
  | fgetattr fd path =>
    refine Or.inr (h.idle hdown (fun hwork => ?_) hs)
    cases hwork
    exact ⟨rfl, rfl⟩
  | read fd path size off => exact Or.inr (h.idle hdown read_idle hs)
  | write fd path buf off =>
    right
    rcases h.on hdown hs with rfl | ⟨a, file, hheld, info, hwork, hdown', hsep, hheld'⟩
    · exact ⟨hdown, h, .idle⟩
    · refine ⟨hdown', hsep, ?_⟩
      rw [hheld']
      exact .wrote hheld hwork

end Tables

end ChisaiFs
