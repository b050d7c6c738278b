import ChisaiFs.OpenFiles

/-! The copies of inodes that open files have, compared with the inodes on the device. -/

namespace ChisaiFs
open Outcome Heaps

section Inodes

variable {geo : Geometry} {fs fs' : Filesystem} {path : CString} {file info : FileInfo}

theorem fsGetMetadata_used (h : Mounted geo fs) (he : fsGetMetadata fs path = .ok (.ok info)) :
    info.idx ∈ (volume geo fs).inodeUsed ∧ (volume geo fs).inode info.idx = info.inode := by
  obtain ⟨found, hfound, he⟩ := bind_eq_ok.mp he
  cases found with
  | none => cases he
  | some r =>
    obtain ⟨hu, hi⟩ := fsPathToInode_eq_some h hfound
    cases he
    exact ⟨hu, hi.symm⟩

theorem fsCreateFile_inodes (h : Mounted geo fs) {mode : UInt32}
    (he : fsCreateFile fs path mode file = .ok (.ok, info, fs')) :
    Mounted geo fs' ∧ info.idx ∉ (volume geo fs).inodeUsed ∧
      (volume geo fs').inodeUsed = insert info.idx (volume geo fs).inodeUsed ∧
      (volume geo fs').inode = Function.update (volume geo fs).inode info.idx info.inode := by
  obtain ⟨hm, hcase⟩ := fsCreateFile_volume h he
  rcases hcase with ⟨hr, -⟩ | ⟨-, parent, p, i, inserted, dir, -, -, -, hnew, rfl, -, hv⟩
  · exact absurd rfl hr
  · refine ⟨hm, hnew, ?_, ?_⟩
    · rw [hv]
      rfl
    · rw [hv]
      rfl

theorem fsWriteFile_inodes (h : Mounted geo fs) {buf : List UInt8} {off : ℕ} {ret : ℤ}
    (he : fsWriteFile fs file buf off = .ok (ret, info, fs')) :
    Mounted geo fs' ∧ info.idx = file.idx ∧
      (volume geo fs').inodeUsed = (volume geo fs).inodeUsed ∧
      (volume geo fs').inode = Function.update (volume geo fs).inode info.idx info.inode := by
  obtain ⟨fs₁, hfills, hidx, hsave⟩ := fsWriteFile_effect h he
  obtain ⟨hi, hu⟩ := hfills.inodes h
  obtain ⟨hm, -, -, hv⟩ := fsSaveInode_spec (hfills.mounted h) hsave
  refine ⟨hm, hidx, ?_, ?_⟩
  · rw [hv, Volume.setInode_inodeUsed, hu]
  · rw [hv, hidx, ← hi]
    rfl

end Inodes

/-- Each copy is the inode on the device, and no two are of one file. -/
structure Coherent (geo : Geometry) (fs : Filesystem) (held : ℕ → Option FileInfo) : Prop where
  mounted : Mounted geo fs
  current : ∀ fd file, held fd = some file →
    file.idx ∈ (volume geo fs).inodeUsed ∧ (volume geo fs).inode file.idx = file.inode
  single : ∀ fd fd' file file', held fd = some file → held fd' = some file' →
    file.idx = file'.idx → fd = fd'

section Runs

variable {geo : Geometry} {fs fs' : Filesystem} {held held' : ℕ → Option FileInfo}

/-- One descriptor gets a current copy, of a file that no other has, and the inodes of all other
files are as before. -/
theorem Coherent.update (h : Coherent geo fs held) (hm : Mounted geo fs') {fd : ℕ} {info : FileInfo}
    (hother : ∀ fd' file, fd' ≠ fd → held fd' = some file → file.idx ≠ info.idx)
    (hused : (volume geo fs').inodeUsed = insert info.idx (volume geo fs).inodeUsed)
    (hinode : (volume geo fs').inode = Function.update (volume geo fs).inode info.idx info.inode) :
    Coherent geo fs' (Function.update held fd (some info)) where
  mounted := hm
  current fd' file hfd' := by
    rw [hused, hinode]
    by_cases hsame : fd' = fd
    · rw [hsame, Function.update_self] at hfd'
      cases hfd'
      exact ⟨Or.inl rfl, Function.update_self ..⟩
    · rw [Function.update_of_ne hsame] at hfd'
      obtain ⟨hu, hi⟩ := h.current fd' file hfd'
      exact ⟨Or.inr hu, (Function.update_of_ne (hother fd' file hsame hfd') ..).trans hi⟩
  single fd₁ fd₂ file₁ file₂ h₁ h₂ he := by
    by_cases hsame₁ : fd₁ = fd
    · by_cases hsame₂ : fd₂ = fd
      · rw [hsame₁, hsame₂]
      · rw [hsame₁, Function.update_self] at h₁
        rw [Function.update_of_ne hsame₂] at h₂
        cases h₁
        exact absurd he.symm (hother fd₂ file₂ hsame₂ h₂)
    · rw [Function.update_of_ne hsame₁] at h₁
      by_cases hsame₂ : fd₂ = fd
      · rw [hsame₂, Function.update_self] at h₂
        cases h₂
        exact absurd he (hother fd₁ file₁ hsame₁ h₁)
      · rw [Function.update_of_ne hsame₂] at h₂
        exact h.single fd₁ fd₂ file₁ file₂ h₁ h₂ he

theorem Coherent.moves (h : Coherent geo fs held) {c : Call}
    (hone : ∀ path info fd file, c = .open path → fsGetMetadata fs path = .ok (.ok info) →
      held fd = some file → file.idx ≠ info.idx)
    (hc : c.Moves fs held fs' held') : Coherent geo fs' held' := by
  cases hc with
  | idle => exact h
  | failed hr he =>
    obtain ⟨hm, hcase⟩ := fsCreateFile_volume h.mounted he
    rcases hcase with ⟨-, -, hv⟩ | ⟨hok, -⟩
    · exact ⟨hm, by rw [hv]; exact h.current, h.single⟩
    · exact absurd hok hr
  | created hfd he =>
    obtain ⟨hm, hnew, hused, hinode⟩ := fsCreateFile_inodes h.mounted he
    refine h.update hm (fun fd' file hne hfile => ?_) hused hinode
    rintro hsame
    exact hnew (hsame ▸ (h.current fd' file hfile).1)
  | opened hfd he =>
    obtain ⟨hu, hi⟩ := fsGetMetadata_used h.mounted he
    refine h.update h.mounted (fun fd' file hne hfile => hone _ _ fd' file rfl he hfile)
      (Set.insert_eq_of_mem hu).symm ?_
    rw [← hi, Function.update_eq_self]
  | @wrote fd path buf off file file' ret _ hfd he =>
    obtain ⟨hm, hidx, hused, hinode⟩ := fsWriteFile_inodes h.mounted he
    refine h.update hm (fun fd' file' hne hfile hsame => ?_) ?_ hinode
    · exact hne (h.single fd' fd file' file hfile hfd (hsame.trans hidx))
    · rw [hused, hidx, Set.insert_eq_of_mem (h.current fd file hfd).1]
  | @closed fd path =>
    have hopen : ∀ fd' file, Function.update held fd none fd' = some file → held fd' = some file := by
      intro fd' file hfile
      by_cases hsame : fd' = fd
      · rw [hsame, Function.update_self] at hfile
        cases hfile
      · rwa [Function.update_of_ne hsame] at hfile
    exact ⟨h.mounted, fun fd' file hfile => h.current fd' file (hopen fd' file hfile),
      fun fd₁ fd₂ file₁ file₂ h₁ h₂ => h.single fd₁ fd₂ file₁ file₂ (hopen _ _ h₁) (hopen _ _ h₂)⟩

theorem OpenFiles.mem_inodes {s : OpenFiles} {i : ChisaiSize} :
    i ∈ s.inodes ↔ ∃ fd file, s.held fd = some file ∧ file.idx = i := by
  simp only [OpenFiles.inodes, List.mem_filterMap, Heap.mem_live]
  constructor
  · rintro ⟨fi, ⟨fd, hfd⟩, hi⟩
    obtain ⟨file, hfile, he⟩ := Option.map_eq_some_iff.mp hi
    exact ⟨fd, file, (OpenFiles.held_eq hfd).trans hfile, he⟩
  · rintro ⟨fd, file, hheld, rfl⟩
    obtain ⟨fi, hfd, hfile⟩ := Option.bind_eq_some_iff.mp hheld
    exact ⟨fi, ⟨fd, hfd⟩, by rw [hfile]; rfl⟩

/-- While the flag is down every open file has a current copy of its own. -/
def OpenFiles.InStep (geo : Geometry) (s : OpenFiles) : Prop :=
  s.proc.reopen = false → s.Separate ∧ Coherent geo s.proc.fs s.held

theorem OpenFiles.InStep.step {s s' : OpenFiles} (h : s.InStep geo) {c : Call} (hc : c.OneHandle s)
    (hs : c.step s = .ok s') : s'.InStep geo := by
  intro hdown'
  cases hflag : s.proc.reopen with
  | true =>
    rw [Call.step_raised hflag hs] at hdown'
    cases hdown'
  | false =>
    obtain ⟨hsep, hco⟩ := h hflag
    rcases Call.step_moves hsep hflag hs with ⟨-, hraised⟩ | ⟨-, hsep', hmoves⟩
    · rw [hraised] at hdown'
      cases hdown'
    · refine ⟨hsep', hco.moves ?_ hmoves⟩
      rintro path info fd file rfl hfound hfile hsame
      simp only [Call.OneHandle, hfound] at hc
      exact hc (OpenFiles.mem_inodes.mpr ⟨fd, file, hfile, hsame⟩)

/-- With one handle for each file, a read, write or fgetattr that gets past its reopen works on
a live object with the inode that the device has, exactly when the flag was not raised. -/
theorem handle_current_iff {s : OpenFiles} {fd : ℕ} {fi : OpenFile} {fh : ℕ} {p : Process}
    (h : Mounted geo fs) (hrun : Reaches Call.step (fun s c => c.OneHandle s) (.start fs) s)
    (hfd : s.files.get fd = some fi)
    (he : chisaiFuseReopen s.proc fi.path fi.fh = .ok (.ok, fh, p)) :
    Yields (p.load fi.fh) (fun file => fsFindInode p.fs file.idx = .ok (some file.inode)) ↔
      s.proc.reopen = false := by
  have hin : s.InStep geo := by
    refine hrun.invariant (OpenFiles.InStep geo) (fun s c s' h hc hs => h.step hc hs) fun _ => ?_
    exact ⟨OpenFiles.start_separate fs, h, fun _ _ hfile => (nomatch hfile),
      fun _ _ _ _ hfile => (nomatch hfile)⟩
  constructor
  · rintro ⟨file, hload, -⟩
    cases hflag : s.proc.reopen with
    | false => rfl
    | true =>
      rcases chisaiFuseReopen_raised hflag he with ⟨hr, -⟩ | ⟨-, hnone⟩
      · exact absurd rfl hr
      · rw [Process.load, hnone] at hload
        cases hload
  · intro hdown
    obtain ⟨hsep, hco⟩ := hin hdown
    rw [chisaiFuseReopen_lowered hdown] at he
    cases he
    obtain ⟨file, hfile⟩ := hsep.live fd fi hfd
    refine ⟨file, ?_, (fsFindInode_iff hco.mounted).mpr ?_⟩
    · rw [Process.load, hfile]
    · exact hco.current fd file ((OpenFiles.held_eq hfd).trans hfile)

theorem exists_openFiles (calls : List Call) {p : OpenFiles → OpenFile → Prop}
    [∀ s fi, Decidable (p s fi)]
    (h : Yields (freshMount smallDisk) fun fs =>
      ((runAllowed Call.step (fun s c => c.OneHandle s) (.start fs) calls).any fun s =>
        (s.files.get 0).any fun fi => decide (p s fi)) = true) :
    ∃ fs s fi, freshMount smallDisk = .ok fs ∧
      Reaches Call.step (fun s c => c.OneHandle s) (.start fs) s ∧ s.files.get 0 = some fi ∧
        p s fi := by
  obtain ⟨fs, s, hmount, hrun, hfound⟩ := exists_run OpenFiles.start calls
    (p := fun s => (s.files.get 0).any fun fi => decide (p s fi)) (by simpa using h)
  obtain ⟨fi, hfd, hp⟩ := (Option.any_eq_true _ _).mp hfound
  exact ⟨fs, s, fi, hmount, hrun, hfd, of_decide_eq_true hp⟩

/-- A file that was created and written to. -/
theorem handle_current_written :
    ∃ fs s fi fh p, freshMount smallDisk = .ok fs ∧
      Reaches Call.step (fun s c => c.OneHandle s) (.start fs) s ∧
      s.files.get 0 = some fi ∧
      chisaiFuseReopen s.proc fi.path fi.fh = .ok (.ok, fh, p) ∧
      Yields (p.load fi.fh) fun file => fsFindInode p.fs file.idx = .ok (some file.inode) := by
  have hrun := exists_openFiles
    [.create [47, 97] 0o100644, .write 0 [47, 97] [1, 2, 3] 0]
    (p := fun s fi => s.proc.reopen = false ∧
      Yields (chisaiFuseReopen s.proc fi.path fi.fh) fun r => r.1 = .ok) (by decide +kernel)
  obtain ⟨fs, s, fi, hmount, hrun, hfd, hdown, ⟨r, fh, p⟩, he, rfl⟩ := hrun
  exact ⟨fs, s, fi, fh, p, hmount, hrun, hfd, he,
    (handle_current_iff (freshMount_spec hmount).1 hrun hfd he).mpr hdown⟩

/-- Truncating the open file `/a` frees the object that the next read uses. -/
theorem truncate_frees_handle :
    ∃ fs s fi fh p, freshMount smallDisk = .ok fs ∧
      Reaches Call.step (fun s c => c.OneHandle s) (.start fs) s ∧
      s.files.get 0 = some fi ∧
      chisaiFuseReopen s.proc fi.path fi.fh = .ok (.ok, fh, p) ∧ p.objects.get fi.fh = none ∧
      chisaiFuseRead s.proc fi.path fi.fh 1 0 = .error .useAfterFree ∧
      ¬ Yields (p.load fi.fh) fun file => fsFindInode p.fs file.idx = .ok (some file.inode) := by
  have hrun := exists_openFiles
    [.create [47, 97] 0o100644, .truncate [47, 97] 0]
    (p := fun s fi => Yields (chisaiFuseReopen s.proc fi.path fi.fh) fun r =>
      r.1 = .ok ∧ (r.2.2.objects.get fi.fh).isNone) (by decide +kernel)
  obtain ⟨fs, s, fi, hmount, hrun, hfd, ⟨r, fh, p⟩, he, rfl, hnone⟩ := hrun
  have hnone : p.objects.get fi.fh = none := Option.isNone_iff_eq_none.mp hnone
  have hload : p.load fi.fh = .error .useAfterFree := by rw [Process.load, hnone]
  refine ⟨fs, s, fi, fh, p, hmount, hrun, hfd, he, hnone, ?_, ?_⟩
  · rw [chisaiFuseRead, onHandle, he, ok_bind]
    dsimp only
    rw [if_neg (not_not.mpr rfl), hload]
    rfl
  · rintro ⟨file, hfile, -⟩
    rw [hload] at hfile
    cases hfile

end Runs

end ChisaiFs
