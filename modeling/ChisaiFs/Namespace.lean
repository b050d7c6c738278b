import ChisaiFs.Paths

/-! What the namespace operations do when they return: their steps one after the other, and
their effect on the volume. -/

namespace ChisaiFs
open Cells Outcome

section Steps

variable {fs fs' : Filesystem} {path src dst : CString} {mode : UInt32} {r : ChisaiError}

def newDirInode (mode : UInt32) (dataIdx : ChisaiSize) : Inode :=
  inodeAddBlock (inodeSetSize (inodeSetNlink (inodeSetMode inodeInit (sIfdir ||| mode)) 2) 0x1000)
    dataIdx

/-- The parent directory is `parent` and has no entry of the name. -/
def Absent (fs : Filesystem) (path : CString) (parent : Parent) : Prop :=
  fsPathToParent fs path = .ok (.ok parent) ∧
    dirFileInodeIdx parent.dir parent.filePath = .ok 0

theorem not_absent_of_error {e : ChisaiError} (hp : fsPathToParent fs path = .ok (.error e))
    (parent : Parent) : ¬ Absent fs path parent := by
  intro habs
  cases hp.symm.trans habs.1

theorem not_absent_of_found {parent : Parent} {i : ChisaiSize}
    (hp : fsPathToParent fs path = .ok (.ok parent))
    (hi : dirFileInodeIdx parent.dir parent.filePath = .ok i) (h0 : i ≠ 0) (parent' : Parent) :
    ¬ Absent fs path parent' := by
  intro habs
  cases hp.symm.trans habs.1
  exact h0 (Except.ok.inj (hi.symm.trans habs.2))

theorem fsMkdir_eq_ok (he : fsMkdir fs path mode = .ok (r, fs')) :
    (r ≠ .ok ∧ fs' = fs ∧ ∀ parent, ¬ Absent fs path parent) ∨ ∃ parent k fs₁,
      Absent fs path parent ∧ fsDataAlloc fs = .ok (k, fs₁) ∧ ((k = 0 ∧ r = .enomem ∧ fs' = fs₁) ∨
        (k ≠ 0 ∧ ∃ i fs₂, fsInodeAlloc fs₁ = .ok (i, fs₂) ∧
          ((i = 0 ∧ r = .enomem ∧ fs' = fs₂) ∨
            (i ≠ 0 ∧ r = .ok ∧ ∃ inserted dir fs₃ fs₄,
              dirInsert parent.dir parent.filePath i = .ok (inserted, dir) ∧
              fsSaveDir fs₂ dir parent.inode.directBlks[0] = .ok fs₃ ∧
              fsSaveInode fs₃ (newDirInode mode k) i = .ok fs₄ ∧
              fsSaveDir fs₄ dirInit k = .ok fs')))) := by
  obtain ⟨found, hp, he⟩ := bind_eq_ok.mp he
  cases found with
  | error e =>
    cases he
    exact Or.inl ⟨fsPathToParent_error hp, rfl, not_absent_of_error hp⟩
  | ok parent =>
    obtain ⟨idx, hidx, he⟩ := bind_eq_ok.mp he
    split_ifs at he with h0
    · cases he
      exact Or.inl ⟨by decide, rfl, not_absent_of_found hp hidx h0⟩
    · rw [not_not.mp h0] at hidx
      obtain ⟨⟨k, fs₁⟩, hk, he⟩ := bind_eq_ok.mp he
      refine Or.inr ⟨parent, k, fs₁, ⟨hp, hidx⟩, hk, ?_⟩
      dsimp only at he
      split_ifs at he with hk0
      · cases he
        exact Or.inl ⟨hk0, rfl, rfl⟩
      · obtain ⟨⟨i, fs₂⟩, hi, he⟩ := bind_eq_ok.mp he
        refine Or.inr ⟨hk0, i, fs₂, hi, ?_⟩
        dsimp only at he
        split_ifs at he with hi0
        · cases he
          exact Or.inl ⟨hi0, rfl, rfl⟩
        · obtain ⟨⟨inserted, dir⟩, hins, he⟩ := bind_eq_ok.mp he
          obtain ⟨fs₃, h₃, he⟩ := bind_eq_ok.mp he
          obtain ⟨fs₄, h₄, he⟩ := bind_eq_ok.mp he
          obtain ⟨fs₅, h₅, he⟩ := bind_eq_ok.mp he
          cases he
          exact Or.inr ⟨hi0, rfl, inserted, dir, fs₃, fs₄, hins, h₃, h₄, h₅⟩

def newFile (mode : UInt32) (inodeIdx : ChisaiSize) : FileInfo :=
  ⟨inodeSetMode inodeInit mode, inodeIdx⟩

theorem fsCreateFile_eq_ok {file file' : FileInfo}
    (he : fsCreateFile fs path mode file = .ok (r, file', fs')) :
    (r ≠ .ok ∧ file' = file ∧ fs' = fs ∧ ∀ parent, ¬ Absent fs path parent) ∨ ∃ parent i fs₁,
      Absent fs path parent ∧ fsInodeAlloc fs = .ok (i, fs₁) ∧
        ((i = 0 ∧ r = .enomem ∧ file' = file ∧ fs' = fs₁) ∨
        (i ≠ 0 ∧ r = .ok ∧ file' = newFile mode i ∧ ∃ inserted dir fs₂,
          dirInsert parent.dir parent.filePath i = .ok (inserted, dir) ∧
          fsSaveDir fs₁ dir parent.inode.directBlks[0] = .ok fs₂ ∧
          fsSaveInode fs₂ file'.inode i = .ok fs')) := by
  obtain ⟨found, hp, he⟩ := bind_eq_ok.mp he
  cases found with
  | error e =>
    cases he
    exact Or.inl ⟨fsPathToParent_error hp, rfl, rfl, not_absent_of_error hp⟩
  | ok parent =>
    obtain ⟨idx, hidx, he⟩ := bind_eq_ok.mp he
    split_ifs at he with h0
    · cases he
      exact Or.inl ⟨by decide, rfl, rfl, not_absent_of_found hp hidx h0⟩
    · rw [not_not.mp h0] at hidx
      obtain ⟨⟨i, fs₁⟩, hi, he⟩ := bind_eq_ok.mp he
      refine Or.inr ⟨parent, i, fs₁, ⟨hp, hidx⟩, hi, ?_⟩
      dsimp only at he
      split_ifs at he with hi0
      · cases he
        exact Or.inl ⟨hi0, rfl, rfl, rfl⟩
      · obtain ⟨⟨inserted, dir⟩, hins, he⟩ := bind_eq_ok.mp he
        obtain ⟨fs₂, h₂, he⟩ := bind_eq_ok.mp he
        obtain ⟨fs₃, h₃, he⟩ := bind_eq_ok.mp he
        cases he
        exact Or.inr ⟨hi0, rfl, rfl, inserted, dir, fs₂, hins, h₂, h₃⟩

def Missing (fs : Filesystem) (path : CString) : Prop :=
  ∀ parent, fsPathToParent fs path = .ok (.ok parent) →
    dirFileInodeIdx parent.dir parent.filePath = .ok 0

theorem fsRenameFile_eq_ok (he : fsRenameFile fs src dst = .ok (r, fs')) :
    (r ≠ .ok ∧ fs' = fs ∧ Missing fs src) ∨
    ∃ source idx dir fs₁, fsPathToParent fs src = .ok (.ok source) ∧
      idx ≠ 0 ∧ dirRemove source.dir source.filePath = .ok (idx, dir) ∧
      fsSaveDir fs dir source.inode.directBlks[0] = .ok fs₁ ∧
      ((r ≠ .ok ∧ fs' = fs₁) ∨ ∃ target dir', fsPathToParent fs₁ dst = .ok (.ok target) ∧
        dirInsert target.dir target.filePath idx = .ok (true, dir') ∧
        fsSaveDir fs₁ dir' target.inode.directBlks[0] = .ok fs' ∧ r = .ok) := by
  obtain ⟨found, hp, he⟩ := bind_eq_ok.mp he
  cases found with
  | error e =>
    cases he
    exact Or.inl ⟨fsPathToParent_error hp, rfl, fun source hs => by cases hs.symm.trans hp⟩
  | ok source =>
    obtain ⟨idx, hidx, he⟩ := bind_eq_ok.mp he
    dsimp only at he
    split_ifs at he with h0
    · cases he
      refine Or.inl ⟨by decide, rfl, fun source' hs => ?_⟩
      cases hs.symm.trans hp
      rw [hidx, h0]
    · obtain ⟨⟨removed, dir⟩, hrem, he⟩ := bind_eq_ok.mp he
      have hsame : removed = idx := by
        rcases dirFileInodeIdx_eq_ok hidx with ⟨hf, rfl⟩ | ⟨j, hf, rfl⟩
        · exact absurd rfl h0
        · rcases dirRemove_eq_ok hrem with ⟨hf', -⟩ | ⟨j', -, hf', rfl, -⟩
          · rw [hf] at hf'
            cases hf'
          · rw [hf] at hf'
            cases hf'
            rfl
      subst hsame
      dsimp only at he
      split_ifs at he
      · obtain ⟨fs₁, h₁, he⟩ := bind_eq_ok.mp he
        refine Or.inr ⟨source, removed, dir, fs₁, hp, h0, hrem, h₁, ?_⟩
        obtain ⟨found, hp₂, he⟩ := bind_eq_ok.mp he
        cases found with
        | error e =>
          cases he
          exact Or.inl ⟨fsPathToParent_error hp₂, rfl⟩
        | ok target =>
          obtain ⟨⟨inserted, dir'⟩, hins, he⟩ := bind_eq_ok.mp he
          cases inserted with
          | false =>
            cases he
            exact Or.inl ⟨by decide, rfl⟩
          | true =>
            obtain ⟨fs₂, h₂, he⟩ := bind_eq_ok.mp he
            cases he
            exact Or.inr ⟨target, dir', hp₂, hins, h₂, rfl⟩

theorem fsRemoveFile_eq_ok (he : fsRemoveFile fs path = .ok (r, fs')) :
    (r ≠ .ok ∧ fs' = fs) ∨ ∃ parent idx dir x fs₁ fs₂,
      fsPathToParent fs path = .ok (.ok parent) ∧
      dirRemove parent.dir parent.filePath = .ok (idx, dir) ∧
      fsFindInode fs idx = .ok (some x) ∧ fsDataRelease fs x.directBlks[0] = .ok fs₁ ∧
      fsInodeRelease fs₁ idx = .ok fs₂ ∧
      fsSaveDir fs₂ dir parent.inode.directBlks[0] = .ok fs' ∧ r = .ok := by
  obtain ⟨found, hp, he⟩ := bind_eq_ok.mp he
  cases found with
  | error e =>
    cases he
    exact Or.inl ⟨fsPathToParent_error hp, rfl⟩
  | ok parent =>
    obtain ⟨⟨idx, dir⟩, hrem, he⟩ := bind_eq_ok.mp he
    obtain ⟨x, hx, he⟩ := bind_eq_ok.mp he
    cases x with
    | none => cases he
    | some x =>
      obtain ⟨fs₁, h₁, he⟩ := bind_eq_ok.mp he
      obtain ⟨fs₂, h₂, he⟩ := bind_eq_ok.mp he
      obtain ⟨fs₃, h₃, he⟩ := bind_eq_ok.mp he
      cases he
      exact Or.inr ⟨parent, idx, dir, x, fs₁, fs₂, hp, hrem, hx, h₁, h₂, h₃, rfl⟩

end Steps

section Effects

variable {geo : Geometry} {fs fs' : Filesystem} {path src dst : CString} {mode : UInt32}
  {r : ChisaiError}

/-- A failed `fs_mkdir` can leave a data block marked; a successful one adds a directory,
although its entry is missing when the parent is full. -/
theorem fsMkdir_volume (h : Mounted geo fs) (he : fsMkdir fs path mode = .ok (r, fs')) :
    Mounted geo fs' ∧ ((r ≠ .ok ∧ (volume geo fs' = volume geo fs ∨
        ∃ k, k ∉ (volume geo fs).dataUsed ∧ volume geo fs' = (volume geo fs).useData k)) ∨
      (r = .ok ∧ ∃ parent p k i inserted dir, Absent fs path parent ∧
        parent.At (volume geo fs) p ∧ geo.InRange k ∧ k ∉ (volume geo fs).dataUsed ∧
        geo.InRange i ∧ i ∉ (volume geo fs).inodeUsed ∧
        dirInsert parent.dir parent.filePath i = .ok (inserted, dir) ∧
        volume geo fs' = (((((volume geo fs).useData k).useInode i).setDir
          parent.inode.directBlks[0] dir).setInode i (newDirInode mode k)).setDir k dirInit)) := by
  rcases fsMkdir_eq_ok he with ⟨hr, rfl, -⟩ | ⟨parent, k, fs₁, habs, hk, hcase⟩
  · exact ⟨h, Or.inl ⟨hr, Or.inl rfl⟩⟩
  obtain ⟨p, hat, -⟩ := fsPathToParent_eq_ok h habs.1
  obtain ⟨h₁, -, hv₁⟩ := fsDataAlloc_spec h hk
  rcases hcase with ⟨rfl, rfl, rfl⟩ | ⟨hk0, i, fs₂, hi, hcase⟩
  · rcases hv₁ with ⟨-, hv₁⟩ | ⟨hr, -, -⟩
    · exact ⟨h₁, Or.inl ⟨by decide, Or.inl hv₁⟩⟩
    · exact absurd rfl hr.1
  rcases hv₁ with ⟨h0, -⟩ | ⟨hkr, hkn, hv₁⟩
  · exact absurd h0 hk0
  obtain ⟨h₂, -, hv₂⟩ := fsInodeAlloc_spec h₁ hi
  rw [hv₁] at hv₂
  rcases hcase with ⟨rfl, rfl, rfl⟩ | ⟨hi0, rfl, inserted, dir, fs₃, fs₄, hins, h₃, h₄, h₅⟩
  · rcases hv₂ with ⟨-, hv₂⟩ | ⟨hr, -, -⟩
    · exact ⟨h₂, Or.inl ⟨by decide, Or.inr ⟨k, hkn, hv₂⟩⟩⟩
    · exact absurd rfl hr.1
  rcases hv₂ with ⟨h0, -⟩ | ⟨hir, hin, hv₂⟩
  · exact absurd h0 hi0
  obtain ⟨hm₃, -, -, hv₃⟩ := fsSaveDir_spec h₂ h₃
  obtain ⟨hm₄, -, -, hv₄⟩ := fsSaveInode_spec hm₃ h₄
  obtain ⟨hm₅, -, -, hv₅⟩ := fsSaveDir_spec hm₄ h₅
  refine ⟨hm₅, Or.inr ⟨rfl, parent, p, k, i, inserted, dir, habs, hat, hkr, hkn, hir, hin, hins, ?_⟩⟩
  rw [hv₅, hv₄, hv₃, hv₂]

theorem fsCreateFile_volume (h : Mounted geo fs) {file file' : FileInfo}
    (he : fsCreateFile fs path mode file = .ok (r, file', fs')) :
    Mounted geo fs' ∧ ((r ≠ .ok ∧ file' = file ∧ volume geo fs' = volume geo fs) ∨
      (r = .ok ∧ ∃ parent p i inserted dir, Absent fs path parent ∧
        parent.At (volume geo fs) p ∧ geo.InRange i ∧ i ∉ (volume geo fs).inodeUsed ∧
        file' = newFile mode i ∧
        dirInsert parent.dir parent.filePath i = .ok (inserted, dir) ∧
        volume geo fs' = (((volume geo fs).useInode i).setDir
          parent.inode.directBlks[0] dir).setInode i file'.inode)) := by
  rcases fsCreateFile_eq_ok he with ⟨hr, hfile, rfl, -⟩ | ⟨parent, i, fs₁, habs, hi, hcase⟩
  · exact ⟨h, Or.inl ⟨hr, hfile, rfl⟩⟩
  obtain ⟨p, hat, -⟩ := fsPathToParent_eq_ok h habs.1
  obtain ⟨h₁, -, hv₁⟩ := fsInodeAlloc_spec h hi
  rcases hcase with ⟨rfl, rfl, hfile, rfl⟩ | ⟨hi0, rfl, hfile, inserted, dir, fs₂, hins, h₂, h₃⟩
  · rcases hv₁ with ⟨-, hv₁⟩ | ⟨hr, -, -⟩
    · exact ⟨h₁, Or.inl ⟨by decide, hfile, hv₁⟩⟩
    · exact absurd rfl hr.1
  rcases hv₁ with ⟨h0, -⟩ | ⟨hir, hin, hv₁⟩
  · exact absurd h0 hi0
  obtain ⟨hm₂, -, -, hv₂⟩ := fsSaveDir_spec h₁ h₂
  obtain ⟨hm₃, -, -, hv₃⟩ := fsSaveInode_spec hm₂ h₃
  refine ⟨hm₃, Or.inr ⟨rfl, parent, p, i, inserted, dir, habs, hat, hir, hin, hfile, hins, ?_⟩⟩
  rw [hv₃, hv₂, hv₁]

theorem fsRenameFile_volume (h : Mounted geo fs) (he : fsRenameFile fs src dst = .ok (r, fs')) :
    Mounted geo fs' ∧ ((r ≠ .ok ∧ volume geo fs' = volume geo fs) ∨
      ∃ source p j hl fs₁, fsPathToParent fs src = .ok (.ok source) ∧
        source.At (volume geo fs) p ∧ dirFind source.dir source.filePath = .ok (some j) ∧
        fsSaveDir fs (source.dir.without j hl) source.inode.directBlks[0] = .ok fs₁ ∧
        Mounted geo fs₁ ∧ volume geo fs₁ = (volume geo fs).setDir source.inode.directBlks[0]
          (source.dir.without j hl) ∧
        ((r ≠ .ok ∧ fs' = fs₁) ∨ (r = .ok ∧ ∃ target p₂ dir',
          fsPathToParent fs₁ dst = .ok (.ok target) ∧ target.At (volume geo fs₁) p₂ ∧
          dirInsert target.dir target.filePath (source.dir.idxAt j) = .ok (true, dir') ∧
          volume geo fs' =
            (volume geo fs₁).setDir target.inode.directBlks[0] dir'))) := by
  rcases fsRenameFile_eq_ok he with
    ⟨hr, rfl, -⟩ | ⟨source, idx, dir, fs₁, hp, h0, hrem, h₁, hcase⟩
  · exact ⟨h, Or.inl ⟨hr, rfl⟩⟩
  obtain ⟨p, hat, -⟩ := fsPathToParent_eq_ok h hp
  obtain ⟨hm₁, -, -, hv₁⟩ := fsSaveDir_spec h h₁
  rcases dirRemove_eq_ok hrem with ⟨-, rfl, -⟩ | ⟨j, hl, hj, rfl, rfl⟩
  · exact absurd rfl h0
  rcases hcase with ⟨hr, rfl⟩ | ⟨target, dir', hp₂, hins, h₂, rfl⟩
  · exact ⟨hm₁, Or.inr ⟨source, p, j, hl, fs', hp, hat, hj, h₁, hm₁, hv₁, Or.inl ⟨hr, rfl⟩⟩⟩
  · obtain ⟨p₂, hat₂, -⟩ := fsPathToParent_eq_ok hm₁ hp₂
    obtain ⟨hm₂, -, -, hv₂⟩ := fsSaveDir_spec hm₁ h₂
    exact ⟨hm₂, Or.inr ⟨source, p, j, hl, fs₁, hp, hat, hj, h₁, hm₁, hv₁,
      Or.inr ⟨rfl, target, p₂, dir', hp₂, hat₂, hins, hv₂⟩⟩⟩

theorem fsRemoveFile_volume (h : Mounted geo fs) (he : fsRemoveFile fs path = .ok (r, fs')) :
    Mounted geo fs' ∧ ((r ≠ .ok ∧ volume geo fs' = volume geo fs) ∨
      (r = .ok ∧ ∃ parent p j hl, fsPathToParent fs path = .ok (.ok parent) ∧
        parent.At (volume geo fs) p ∧ dirFind parent.dir parent.filePath = .ok (some j) ∧
        parent.dir.idxAt j ∈ (volume geo fs).inodeUsed ∧
        volume geo fs' = (((volume geo fs).freeData
          ((volume geo fs).inode (parent.dir.idxAt j)).directBlks[0]).freeInode
            (parent.dir.idxAt j)).setDir parent.inode.directBlks[0]
              (parent.dir.without j hl))) := by
  rcases fsRemoveFile_eq_ok he with ⟨hr, rfl⟩ |
    ⟨parent, idx, dir, x, fs₁, fs₂, hp, hrem, hx, h₁, h₂, h₃, rfl⟩
  · exact ⟨h, Or.inl ⟨hr, rfl⟩⟩
  obtain ⟨p, hat, -⟩ := fsPathToParent_eq_ok h hp
  rcases fsFindInode_eq_ok h hx with ⟨hu, hx⟩ | ⟨-, hx⟩
  · cases hx
    obtain ⟨hm₁, -, hv₁⟩ := fsDataRelease_spec h h₁
    obtain ⟨hm₂, -, hv₂⟩ := fsInodeRelease_spec hm₁ h₂
    obtain ⟨hm₃, -, -, hv₃⟩ := fsSaveDir_spec hm₂ h₃
    rcases dirRemove_eq_ok hrem with ⟨-, rfl, -⟩ | ⟨j, hl, hj, rfl, rfl⟩
    · exact absurd rfl (h.inodeUsed_inRange hu).1
    refine ⟨hm₃, Or.inr ⟨rfl, parent, p, j, hl, hp, hat, hj, hu, ?_⟩⟩
    rw [hv₃, hv₂, hv₁]
  · cases hx

end Effects

end ChisaiFs
