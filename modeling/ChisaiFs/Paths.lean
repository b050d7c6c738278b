import ChisaiFs.FsSpec

/-! Directory lookups and path walks, read against the volume. -/

namespace ChisaiFs
open Cells Outcome

section Directories

variable {dir dir' : Dir} {name : CString} {idx : ChisaiSize}

theorem dirFindFrom_eq_some {i n : ℕ} {j : Fin chisaiFilePerDir}
    (h : dirFindFrom dir name i n = .ok (some j)) : i ≤ j ∧ j < i + n := by
  induction n generalizing i with
  | zero => cases h
  | succ n ih =>
    unfold dirFindFrom at h
    split_ifs at h with hi
    obtain ⟨eq, -, h⟩ := bind_eq_ok.mp h
    cases eq with
    | true =>
      cases h
      exact ⟨le_refl i, by dsimp only; omega⟩
    | false =>
      have hj := ih h
      omega

theorem dirFind_lt {j : Fin chisaiFilePerDir} (h : dirFind dir name = .ok (some j)) :
    j < dir.size.toNat := by
  have hj := dirFindFrom_eq_some h
  omega

def Dir.idxAt (dir : Dir) (j : Fin chisaiFilePerDir) : ChisaiSize := (getElem dir.node j j.isLt).idx

theorem dirFileInodeIdx_eq_ok (h : dirFileInodeIdx dir name = .ok idx) :
    (dirFind dir name = .ok none ∧ idx = 0) ∨
      ∃ j : Fin chisaiFilePerDir, dirFind dir name = .ok (some j) ∧ idx = dir.idxAt j := by
  obtain ⟨r, hr, h⟩ := bind_eq_ok.mp h
  cases r with
  | none =>
    cases h
    exact Or.inl ⟨hr, rfl⟩
  | some j =>
    cases h
    exact Or.inr ⟨j, hr, rfl⟩

def Dir.without (dir : Dir) (j : Fin chisaiFilePerDir) (h : (dir.size - 1).toNat < chisaiFilePerDir) :
    Dir :=
  { dir with
    node := dir.node.set j (getElem dir.node (dir.size - 1).toNat h) j.isLt
    size := dir.size - 1 }

theorem dirRemove_eq_ok (h : dirRemove dir name = .ok (idx, dir')) :
    (dirFind dir name = .ok none ∧ idx = 0 ∧ dir' = dir) ∨
      ∃ (j : Fin chisaiFilePerDir) (hl : (dir.size - 1).toNat < chisaiFilePerDir),
        dirFind dir name = .ok (some j) ∧ idx = dir.idxAt j ∧ dir' = dir.without j hl := by
  obtain ⟨r, hr, h⟩ := bind_eq_ok.mp h
  cases r with
  | none =>
    cases h
    exact Or.inl ⟨hr, rfl, rfl⟩
  | some j =>
    dsimp only at h
    split_ifs at h with hl
    cases h
    exact Or.inr ⟨j, hl, hr, rfl, rfl⟩

def Dir.with (dir : Dir) (node : DirNode) (h : dir.size.toNat < chisaiFilePerDir) : Dir :=
  { dir with node := dir.node.set dir.size.toNat node, size := dir.size + 1 }

theorem size_with_toNat {node : DirNode} (hl : dir.size.toNat < chisaiFilePerDir) :
    (dir.with node hl).size.toNat = dir.size.toNat + 1 := by
  have hd : chisaiFilePerDir = 15 := rfl
  have hlt : dir.size.toNat + (0 + 1) < 2 ^ 32 := by omega
  exact add_one_toNat hlt

theorem dirInsert_eq_ok {inserted : Bool} (h : dirInsert dir name idx = .ok (inserted, dir')) :
    (inserted = false ∧ dir' = dir ∧ chisaiFilePerDir ≤ dir.size.toNat) ∨
      ∃ (node : DirNode) (hl : dir.size.toNat < chisaiFilePerDir),
        inserted = true ∧ node.idx = idx ∧ dir' = dir.with node hl := by
  unfold dirInsert at h
  split_ifs at h with hl
  · obtain ⟨node, -, h⟩ := bind_eq_ok.mp h
    cases h
    exact Or.inr ⟨{ node with idx := idx }, hl, rfl, rfl, rfl⟩
  · cases h
    exact Or.inl ⟨rfl, rfl, not_lt.mp hl⟩

end Directories

section Walks

variable {geo : Geometry} {fs : Filesystem}

theorem fsWalk_eq_some (h : Mounted geo fs) {tokens : List CString} {i j : ChisaiSize}
    {x y : Inode} (hi : i ∈ (volume geo fs).inodeUsed ∧ x = (volume geo fs).inode i)
    (he : fsWalk fs tokens i x = .ok (some (j, y))) :
    j ∈ (volume geo fs).inodeUsed ∧ y = (volume geo fs).inode j := by
  induction tokens generalizing i x with
  | nil =>
    cases he
    exact hi
  | cons token rest ih =>
    obtain ⟨found, -, he⟩ := bind_eq_ok.mp he
    cases found with
    | none => cases he
    | some dir =>
      obtain ⟨idx, -, he⟩ := bind_eq_ok.mp he
      split_ifs at he
      · cases he
      · obtain ⟨r, hr, he⟩ := bind_eq_ok.mp he
        rcases fsFindInode_eq_ok h hr with ⟨hu, rfl⟩ | ⟨-, rfl⟩
        · exact ih ⟨hu, rfl⟩ he
        · cases he

theorem fsPathToInode_eq_some (h : Mounted geo fs) {path : CString} {j : ChisaiSize} {y : Inode}
    (he : fsPathToInode fs path = .ok (some (j, y))) :
    j ∈ (volume geo fs).inodeUsed ∧ y = (volume geo fs).inode j := by
  obtain ⟨r, hr, he⟩ := bind_eq_ok.mp he
  rcases fsFindInode_eq_ok h hr with ⟨hu, rfl⟩ | ⟨-, rfl⟩
  · exact fsWalk_eq_some h ⟨hu, rfl⟩ he
  · cases he

/-- The inode and directory that `fs_path_to_parent` delivers are those of inode `p`. -/
structure Parent.At (v : Volume) (p : ChisaiSize) (parent : Parent) : Prop where
  used : p ∈ v.inodeUsed
  inode : parent.inode = v.inode p
  marked : parent.inode.directBlks[0] ∈ v.dataUsed
  dir : parent.dir = v.dir parent.inode.directBlks[0]

theorem fsGetDirOf_eq_ok (h : Mounted geo fs) {path : CString} {x : Inode} {dir : Dir}
    (he : fsGetDirOf fs path = .ok (.ok (x, dir))) :
    ∃ p ∈ (volume geo fs).inodeUsed, x = (volume geo fs).inode p ∧
      x.directBlks[0] ∈ (volume geo fs).dataUsed ∧ dir = (volume geo fs).dir x.directBlks[0] := by
  obtain ⟨w, hw, he⟩ := bind_eq_ok.mp he
  cases w with
  | none => cases he
  | some node =>
    obtain ⟨p, y⟩ := node
    obtain ⟨hu, hy⟩ := fsPathToInode_eq_some h hw
    obtain ⟨d, hd, he⟩ := bind_eq_ok.mp he
    rcases fsFindDir_eq_ok h hd with ⟨hm, rfl⟩ | ⟨-, rfl⟩
    · cases he
      exact ⟨p, hu, hy, hm, rfl⟩
    · cases he

theorem fsPathToParent_of_split {path parentPath filePath : CString}
    (hs : strrchrSlash path = some (parentPath, filePath)) :
    fsPathToParent fs path =
      if chisaiFileLen ≤ filePath.length then .error .outOfRange
      else fsGetDirOf fs parentPath >>= fun r =>
        match r with
        | .error e => pure (.error e)
        | .ok (inode, dir) => pure (.ok ⟨inode, dir, filePath⟩) := by
  unfold fsPathToParent
  rw [hs]
  dsimp only
  by_cases hlen : chisaiFileLen ≤ filePath.length
  · have hlt : filePath.length + 1 > chisaiFileLen := by omega
    simp only [hlen, hlt, ↓reduceIte, bind, Except.bind]
  · have hlt : ¬ filePath.length + 1 > chisaiFileLen := by omega
    have hle : ¬ filePath.length > chisaiFileLen := by omega
    cases fsGetDirOf fs parentPath with
    | error e => simp [hlen, hlt, hle]
    | ok r => cases r <;> simp [hlen, hlt, hle]

theorem fsPathToParent_eq_ok (h : Mounted geo fs) {path : CString} {parent : Parent}
    (he : fsPathToParent fs path = .ok (.ok parent)) :
    ∃ p, parent.At (volume geo fs) p ∧ parent.filePath.length < chisaiFileLen := by
  cases hs : strrchrSlash path with
  | none =>
    rw [fsPathToParent, hs] at he
    cases he
  | some split =>
    obtain ⟨parentPath, filePath⟩ := split
    rw [fsPathToParent_of_split hs] at he
    split_ifs at he with hlen
    obtain ⟨r, hr, he⟩ := bind_eq_ok.mp he
    cases r with
    | error e => cases he
    | ok found =>
      cases he
      obtain ⟨p, hu, hx, hm, hd⟩ := fsGetDirOf_eq_ok h hr
      exact ⟨p, ⟨hu, hx, hm, hd⟩, not_le.mp hlen⟩

theorem fsPathToParent_error {path : CString} {e : ChisaiError}
    (he : fsPathToParent fs path = .ok (.error e)) : e ≠ .ok := by
  cases hs : strrchrSlash path with
  | none =>
    rw [fsPathToParent, hs] at he
    cases he
  | some split =>
    obtain ⟨parentPath, filePath⟩ := split
    rw [fsPathToParent_of_split hs] at he
    split_ifs at he
    obtain ⟨r, hr, he⟩ := bind_eq_ok.mp he
    cases r with
    | ok found => cases he
    | error e' =>
      cases he
      obtain ⟨w, -, hr⟩ := bind_eq_ok.mp hr
      cases w with
      | none =>
        cases hr
        decide
      | some node =>
        obtain ⟨d, -, hr⟩ := bind_eq_ok.mp hr
        cases d with
        | none =>
          cases hr
          decide
        | some dir => cases hr

end Walks

end ChisaiFs
