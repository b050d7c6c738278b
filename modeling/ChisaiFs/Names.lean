import ChisaiFs.Service
import ChisaiFs.Rename
import ChisaiFs.Removal
import ChisaiFs.Library.PathMaps

/-! What the file system is for: a map from paths to files. Every operation that comes with the
checks of the kernel does to the tree on the device what it should do to that map, and returns the
code for it. -/

namespace ChisaiFs
open Outcome Simulation SwapRemoval Walks

/-- The code of an operation with the state after it. What a write returns is a length. -/
def Op.call (fs : Filesystem) : Op → Exec (ChisaiError × Filesystem)
  | .mkdir path mode => fsMkdir fs path mode
  | .create path mode => (fun r => (r.1, r.2.2)) <$> fsCreateFile fs path mode ⟨inodeInit, noInode⟩
  | .write file buf off => (fun r => (.ok, r.2.2)) <$> fsWriteFile fs file buf off
  | .truncate file size => (fun r => (r.1, r.2.2)) <$> fsTruncateFile fs file size
  | .rename src dst => fsRenameFile fs src dst
  | .remove path => fsRemoveFile fs path

theorem Op.call_step (fs : Filesystem) (op : Op) : Prod.snd <$> op.call fs = op.step fs := by
  cases op with
  | mkdir | rename | remove => rfl
  | create | write | truncate => exact (comp_map _ _ _).symm

theorem Op.step_of_call {fs fs' : Filesystem} {op : Op} {r : ChisaiError}
    (he : op.call fs = .ok (r, fs')) : op.step fs = .ok fs' := by
  rw [← op.call_step, he]
  rfl

/-- The path has a last name, and it is looked for in a directory. -/
def Vetted (fs : Filesystem) (path : CString) : Prop :=
  Proper path ∧ ThroughDirs fs (strtokSlash path)

/-- There is no data or an empty directory behind the inode. -/
def Leaf (fs : Filesystem) (info : FileInfo) : Prop :=
  sIsreg info.inode.mode ∨
    Finds (fsFindDir fs (getElem info.inode.directBlks 0 directBlksNum_pos)) fun dir => dir.entries = []

/-- An operation with the checks of the kernel, on directories that are not full. -/
def Op.Tidy (fs : Filesystem) : Op → Prop
  | .mkdir path _ => Vetted fs path ∧ ParentHasRoom fs path
  | .create path mode => Vetted fs path ∧ ParentHasRoom fs path ∧ sIsreg mode
  | .write file buf off => FreshFile fs file ∧
      off + buf.length ≤ directBlksNum * fs.sb.blockSize.toNat
  | .truncate file _ => FreshFile fs file
  | .rename src dst => Vetted fs src ∧ Vetted fs dst ∧ fsPathIndex fs dst = .ok none ∧
      ¬ strtokSlash src <+: strtokSlash dst ∧
      (∀ s ∈ strrchrSlash dst, s.2.length < chisaiFileLen) ∧
      (ParentHasRoom fs dst ∨ (strtokSlash dst).dropLast = (strtokSlash src).dropLast)
  | .remove path => Vetted fs path ∧ LeadsTo fs path (Leaf fs)

instance Vetted.decidable (fs : Filesystem) (path : CString) : Decidable (Vetted fs path) :=
  inferInstanceAs (Decidable (_ ∧ _))

instance Leaf.decidable (fs : Filesystem) : DecidablePred (Leaf fs) :=
  fun _ => inferInstanceAs (Decidable (_ ∨ _))

instance Op.decidableTidy (fs : Filesystem) : (op : Op) → Decidable (op.Tidy fs)
  | .mkdir path _ => inferInstanceAs (Decidable (Vetted fs path ∧ ParentHasRoom fs path))
  | .create path mode =>
    inferInstanceAs (Decidable (Vetted fs path ∧ ParentHasRoom fs path ∧ sIsreg mode))
  | .write file buf off => inferInstanceAs (Decidable (FreshFile fs file ∧
      off + buf.length ≤ directBlksNum * fs.sb.blockSize.toNat))
  | .truncate file _ => inferInstanceAs (Decidable (FreshFile fs file))
  | .rename src dst => inferInstanceAs (Decidable (Vetted fs src ∧ Vetted fs dst ∧
      fsPathIndex fs dst = .ok none ∧ ¬ strtokSlash src <+: strtokSlash dst ∧
      (∀ s ∈ strrchrSlash dst, s.2.length < chisaiFileLen) ∧
      (ParentHasRoom fs dst ∨ (strtokSlash dst).dropLast = (strtokSlash src).dropLast)))
  | .remove path => inferInstanceAs (Decidable (Vetted fs path ∧ LeadsTo fs path (Leaf fs)))

/-- Which inode each list of names leads to. -/
abbrev Names := List CString → Option ChisaiSize

inductive Names.Step (m : Names) : Op → ChisaiError → Names → Prop
  | made {op : Op} {path : CString} {mode : UInt32} {i : ChisaiSize}
      (hop : op = .mkdir path mode ∨ op = .create path mode) (habs : m (strtokSlash path) = none)
      (hparent : m (strtokSlash path).dropLast ≠ none) (hnew : ¬ Covers m i) :
      Step m op .ok (put m (strtokSlash path) i)
  | taken {op : Op} {path : CString} {mode : UInt32}
      (hop : op = .mkdir path mode ∨ op = .create path mode) (hpath : m (strtokSlash path) ≠ none) :
      Step m op .eexist m
  | full {op : Op} {path : CString} {mode : UInt32}
      (hop : op = .mkdir path mode ∨ op = .create path mode) (habs : m (strtokSlash path) = none) :
      Step m op .enomem m
  | moved {src dst : CString} (hsrc : m (strtokSlash src) ≠ none)
      (hdst : m (strtokSlash dst) = none) (hparent : m (strtokSlash dst).dropLast ≠ none)
      (hapart : ¬ strtokSlash src <+: strtokSlash dst) :
      Step m (.rename src dst) .ok (move m (strtokSlash src) (strtokSlash dst))
  | missing {src dst : CString} (hsrc : m (strtokSlash src) = none) :
      Step m (.rename src dst) .enoent m
  | removed {path : CString} (hpath : m (strtokSlash path) ≠ none)
      (hleaf : ∀ x xs, m (strtokSlash path ++ x :: xs) = none) :
      Step m (.remove path) .ok (drop m (strtokSlash path))
  | wrote {file : FileInfo} {buf : List UInt8} {off : ℕ} : Step m (.write file buf off) .ok m
  | truncated {file : FileInfo} {size : ℕ} : Step m (.truncate file size) .ok m

noncomputable def names (geo : Geometry) (fs : Filesystem) : Names := (volume geo fs).dirs.resolve

section Lookups

variable {geo : Geometry} {fs fs' : Filesystem} {path q c : CString} {p i : ChisaiSize} {dir : Dir}
  {r : ChisaiError}

structure Looked (geo : Geometry) (fs : Filesystem) (path q c : CString) (p : ChisaiSize)
    (dir : Dir) : Prop where
  split : path = q ++ slash :: c ∧ slash ∉ c ∧ c ≠ []
  noNul : 0 ∉ q ++ slash :: c
  tokens : strtokSlash path = strtokSlash q ++ [c]
  through : (volume geo fs).dirs.Through (strtokSlash q ++ [c])
  parent : (volume geo fs).dirs.resolve (strtokSlash q) = some p
  dir_eq : (volume geo fs).dirs p = some dir

theorem Vetted.looked (h : Orderly geo fs) (hp : Vetted fs path) :
    ∃ q c p dir, Looked geo fs path q c p dir := by
  obtain ⟨⟨hnul, ⟨q, c⟩, hs, hne⟩, ht⟩ := hp
  obtain ⟨rfl, hc⟩ := strrchrSlash_eq_some.mp hs
  have hth := h.through (fun e he => (properName_of_token hnul he).noNul) ht
  have htok : strtokSlash (q ++ slash :: c) = strtokSlash q ++ [c] := by
    rw [strtokSlash_append, strtokSlash_name hc hne]
  rw [htok] at hth
  obtain ⟨p, dir, hp, hdir⟩ := hth _ _ (List.prefix_refl _)
  exact ⟨q, c, p, dir, ⟨rfl, hc, hne⟩, hnul, htok, hth, hp, hdir⟩

theorem Looked.names_eq (h : Looked geo fs path q c p dir) :
    names geo fs (strtokSlash path) = dir.entries.dlookup c := by
  have hp := h.parent
  unfold names DirTree.resolve at *
  rw [h.tokens, walk_concat, hp, Option.bind_some, DirTree.child_of h.dir_eq]

theorem Looked.names_parent (h : Looked geo fs path q c p dir) :
    names geo fs (strtokSlash path).dropLast = some p := by
  rw [h.tokens, List.dropLast_concat]
  exact h.parent

theorem Looked.index (h : Looked geo fs path q c p dir) (ho : Orderly geo fs) :
    fsPathIndex fs path = .ok (names geo fs (strtokSlash path)) := by
  obtain ⟨rfl, -⟩ := h.split
  have hst : (volume geo fs).dirs.Straight (strtokSlash (q ++ slash :: c)) := by
    rw [h.tokens]
    exact h.through.straight
  exact fsPathIndex_eq ho.shows h.noNul hst

theorem Looked.parent_eq (h : Looked geo fs path q c p dir) (ho : Orderly geo fs)
    {found : Except ChisaiError Parent} (he : fsPathToParent fs path = .ok found) :
    found = .ok ⟨(volume geo fs).inode p, dir, c⟩ ∧ c.length < chisaiFileLen := by
  obtain ⟨rfl, hc, -⟩ := h.split
  have hsplit : strrchrSlash (q ++ slash :: c) = some (q, c) := strrchrSlash_eq_some.mpr ⟨rfl, hc⟩
  have hlen : c.length < chisaiFileLen := by
    rw [fsPathToParent_of_split hsplit] at he
    split_ifs at he with hlen
    exact not_le.mp hlen
  have hsub : strtokSlash q <+: strtokSlash q ++ [c] := List.prefix_append _ _
  have hp := ho.parent_of_resolve h.noNul hc hlen (h.through.sub hsub).straight h.parent h.dir_eq
  exact ⟨Except.ok.inj (he.symm.trans hp), hlen⟩

theorem Looked.proper (h : Looked geo fs path q c p dir) : Proper path := by
  obtain ⟨rfl, hc, hne⟩ := h.split
  exact proper_of h.noNul hc hne

theorem Looked.parentIsDir (h : Looked geo fs path q c p dir) (ho : Orderly geo fs) :
    ParentIsDir fs path := by
  intro parent hp
  obtain ⟨he, -⟩ := h.parent_eq ho hp
  cases he
  exact (Volume.dirs_eq_some.mp h.dir_eq).1.2

theorem Looked.index_in_dir (h : Looked geo fs path q c p dir) (ho : Orderly geo fs) :
    dirFileInodeIdx dir c = .ok ((names geo fs (strtokSlash path)).getD 0) := by
  rw [h.names_eq]
  exact dirFileInodeIdx_spec (ho.named p dir h.dir_eq).ended fun h0 => h.noNul (by simp [h0])

theorem names_used (ho : Orderly geo fs) {xs : List CString} (hi : names geo fs xs = some i) :
    i ∈ (volume geo fs).inodeUsed :=
  ho.shows.resolve_used hi

theorem Looked.index_ne (h : Looked geo fs path q c p dir) (ho : Orderly geo fs) {idx : ChisaiSize}
    (hi : dirFileInodeIdx dir c = .ok idx) : idx ≠ 0 ↔ names geo fs (strtokSlash path) ≠ none := by
  rw [h.index_in_dir ho] at hi
  cases hi
  cases hm : names geo fs (strtokSlash path) with
  | none => exact iff_of_false (fun hc => hc rfl) fun hc => hc rfl
  | some i => exact iff_of_true (ho.mounted.inodeUsed_inRange (names_used ho hm)).1 (by simp)

end Lookups

section Steps

variable {geo : Geometry} {fs fs' : Filesystem} {path src dst q c : CString} {p i : ChisaiSize}
  {dir dir' : Dir} {mode : UInt32} {r : ChisaiError} {parent : Parent} {idx : ChisaiSize}

def Inventory (geo : Geometry) (fs : Filesystem) : Prop :=
  ∀ i, i ∈ (volume geo fs).inodeUsed ↔ i = badblkInode ∨ Covers (names geo fs) i

/-- The operation on the map, and no inode without a path. -/
structure Refines (geo : Geometry) (fs : Filesystem) (op : Op) (r : ChisaiError)
    (fs' : Filesystem) : Prop where
  step : (names geo fs).Step op r (names geo fs')
  inventory : Inventory geo fs → Inventory geo fs'

theorem names_congr (h : (volume geo fs').dirs = (volume geo fs).dirs) :
    names geo fs' = names geo fs := by
  rw [names, h]
  rfl

theorem Inventory.congr (h : Inventory geo fs) (hn : names geo fs' = names geo fs)
    (hu : (volume geo fs').inodeUsed = (volume geo fs).inodeUsed) : Inventory geo fs' := by
  intro i
  rw [hn, hu]
  exact h i

theorem Looked.names_put (h : Looked geo fs path q c p dir) (ho : Orderly geo fs)
    (habs : names geo fs (strtokSlash path) = none) (hfresh : i ∉ (volume geo fs).inodeUsed)
    (hchild : (volume geo fs').dirs.child = redirect (volume geo fs).dirs.child p c (some i)) :
    names geo fs' = put (names geo fs) (strtokSlash path) i := by
  have hused := (Volume.dirs_eq_some.mp h.dir_eq).1.1
  have hnone : (volume geo fs).dirs.child p c = none := by
    rw [DirTree.child_of h.dir_eq, ← h.names_eq, habs]
  have hleaf : ∀ x, (volume geo fs).dirs.child i x = none :=
    DirTree.child_of_none (Volume.dirs_of_unused hfresh)
  have hput := ho.wellformed.rooted.walk_put h.parent hnone hleaf
    (ne_of_mem_of_not_mem hused hfresh).symm
  rw [← hchild] at hput
  rw [h.tokens]
  exact hput

theorem not_covers_of_unused (ho : Orderly geo fs) (hfresh : i ∉ (volume geo fs).inodeUsed) :
    ¬ Covers (names geo fs) i :=
  fun ⟨_, hi⟩ => hfresh (names_used ho hi)

theorem Inventory.put (h : Inventory geo fs) (habs : names geo fs (strtokSlash path) = none)
    (hn : names geo fs' = put (names geo fs) (strtokSlash path) i)
    (hu : (volume geo fs').inodeUsed = insert i (volume geo fs).inodeUsed) : Inventory geo fs' := by
  intro j
  rw [hu, hn, covers_put habs, Set.mem_insert_iff, h j]
  exact or_left_comm

/-- What a creation answers when the name has index `idx`. -/
def CreationCode (idx : ChisaiSize) (r : ChisaiError) : Prop :=
  (idx ≠ 0 ∧ r = .eexist) ∨ (idx = 0 ∧ (r = .ok ∨ r = .enomem))

theorem creationCode_of (hp : fsPathToParent fs path = .ok (.ok parent))
    (hi : dirFileInodeIdx parent.dir parent.filePath = .ok idx) (htaken : idx ≠ 0 → r = .eexist)
    (hcase : (∀ parent', ¬ Absent fs path parent') ∨
      ∃ parent', Absent fs path parent' ∧ (r = .ok ∨ r = .enomem)) : CreationCode idx r := by
  rcases hcase with habs | ⟨parent', habs, hr⟩
  · by_cases h0 : idx = 0
    · exact absurd ⟨hp, h0 ▸ hi⟩ (habs parent)
    · exact Or.inl ⟨h0, htaken h0⟩
  · cases hp.symm.trans habs.1
    cases hi.symm.trans habs.2
    exact Or.inr ⟨rfl, hr⟩

theorem fsMkdir_code (hp : fsPathToParent fs path = .ok (.ok parent))
    (hi : dirFileInodeIdx parent.dir parent.filePath = .ok idx)
    (he : fsMkdir fs path mode = .ok (r, fs')) : CreationCode idx r := by
  refine creationCode_of hp hi (fun h0 => ?_) ?_
  · unfold fsMkdir at he
    rw [hp, ok_bind] at he
    dsimp only at he
    rw [hi, ok_bind, if_pos h0] at he
    cases he
    rfl
  · rcases fsMkdir_eq_ok he with ⟨-, -, habs⟩ | ⟨parent', k, fs₁, habs, -, hcase⟩
    · exact Or.inl habs
    · refine Or.inr ⟨parent', habs, ?_⟩
      rcases hcase with ⟨-, rfl, -⟩ | ⟨-, i, fs₂, -, ⟨-, rfl, -⟩ | ⟨-, rfl, -⟩⟩
      · exact Or.inr rfl
      · exact Or.inr rfl
      · exact Or.inl rfl

theorem fsCreateFile_code {file file' : FileInfo} (hp : fsPathToParent fs path = .ok (.ok parent))
    (hi : dirFileInodeIdx parent.dir parent.filePath = .ok idx)
    (he : fsCreateFile fs path mode file = .ok (r, file', fs')) : CreationCode idx r := by
  refine creationCode_of hp hi (fun h0 => ?_) ?_
  · unfold fsCreateFile at he
    rw [hp, ok_bind] at he
    dsimp only at he
    rw [hi, ok_bind, if_pos h0] at he
    cases he
    rfl
  · rcases fsCreateFile_eq_ok he with ⟨-, -, -, habs⟩ | ⟨parent', i, fs₁, habs, -, hcase⟩
    · exact Or.inl habs
    · refine Or.inr ⟨parent', habs, ?_⟩
      rcases hcase with ⟨-, rfl, -⟩ | ⟨-, rfl, -⟩
      · exact Or.inr rfl
      · exact Or.inl rfl

theorem Looked.refused {op : Op} (h : Looked geo fs path q c p dir) (ho : Orderly geo fs)
    (hop : op = .mkdir path mode ∨ op = .create path mode) (hi : dirFileInodeIdx dir c = .ok idx)
    (hr : CreationCode idx r) (hne : r ≠ .ok)
    (hn : names geo fs' = names geo fs)
    (hu : (volume geo fs').inodeUsed = (volume geo fs).inodeUsed) : Refines geo fs op r fs' := by
  refine ⟨?_, fun hinv => hinv.congr hn hu⟩
  rw [hn]
  have hidx := h.index_ne ho hi
  rcases hr with ⟨h0, rfl⟩ | ⟨h0, hr⟩
  · exact .taken hop (hidx.mp h0)
  · rw [hr.resolve_left hne]
    exact .full hop (not_not.mp fun hc => hidx.mpr hc h0)

theorem fsMkdir_refines (ho : Orderly geo fs) (hvet : Vetted fs path) (hroom : ParentHasRoom fs path)
    (he : fsMkdir fs path mode = .ok (r, fs')) : Refines geo fs (.mkdir path mode) r fs' := by
  obtain ⟨q, c, p, dir, hl⟩ := hvet.looked ho
  obtain ⟨found, hp, -⟩ := bind_eq_ok.mp he
  obtain ⟨rfl, -⟩ := hl.parent_eq ho hp
  have hi := hl.index_in_dir ho
  have hcode := fsMkdir_code hp hi he
  obtain ⟨-, hvol⟩ := fsMkdir_volume ho.mounted he
  rcases fsMkdir_dirs ho (hl.parentIsDir ho) he with
    ⟨hr, hd⟩ | ⟨rfl, parent, p', i, inserted, dir', hmade⟩
  · refine hl.refused ho (Or.inl rfl) hi hcode hr (names_congr hd) ?_
    rcases hvol with ⟨-, hv | ⟨k, -, hv⟩⟩ | ⟨hok, -⟩
    · rw [hv]
    · rw [hv]
      rfl
    · exact absurd hok hr
  · cases hp.symm.trans hmade.absent.1
    cases hmade.at_.unique ho rfl (Volume.dirs_eq_some.mp hl.dir_eq).1.1
    have habs : names geo fs (strtokSlash path) = none :=
      not_not.mp fun hc => (hl.index_ne ho hmade.absent.2).mpr hc rfl
    have hkeys : c ∉ dir.entries.keys := List.dlookup_eq_none.mp (hl.names_eq.symm.trans habs)
    obtain ⟨rfl, hc, hne⟩ := hl.split
    have hgain := ho.gains hl.proper hroom hp hl.dir_eq hmade.insert
    have hout : Function.update (volume geo fs).dirs p (some dir') i = none := by
      rw [Function.update_of_ne, Volume.dirs_of_unused hmade.fresh]
      rintro rfl
      exact hmade.fresh hmade.at_.used
    have hchild : (volume geo fs').dirs.child =
        redirect (volume geo fs).dirs.child p c (some i) := by
      rw [hmade.dirs, DirTree.child_update_empty (DirTree.child_of_none hout) fun d hd => ?_,
        hgain.child hkeys hl.dir_eq]
      split_ifs at hd
      exact (Option.some.inj hd).symm
    have hn := hl.names_put ho habs hmade.fresh hchild
    refine ⟨?_, fun hinv => hinv.put habs hn ?_⟩
    · rw [hn]
      refine .made (Or.inl rfl) habs ?_ (not_covers_of_unused ho hmade.fresh)
      rw [hl.names_parent]
      exact Option.some_ne_none p
    · rcases hvol with ⟨hr, -⟩ | ⟨-, _, _, _, i', _, _, -, -, -, -, -, -, -, hv⟩
      · exact absurd rfl hr
      · have hu : (volume geo fs').inodeUsed = insert i' (volume geo fs).inodeUsed := by
          rw [hv]
          rfl
        have hii : i = i' := by
          have hi := hmade.used
          rw [hu] at hi
          exact hi.resolve_right hmade.fresh
        rw [hu, hii]

theorem fsCreateFile_puts (ho : Orderly geo fs) (hvet : Vetted fs path)
    (hroom : ParentHasRoom fs path) (hmode : sIsreg mode) {file file' : FileInfo}
    (he : fsCreateFile fs path mode file = .ok (.ok, file', fs')) :
    names geo fs (strtokSlash path) = none ∧ file'.idx ∉ (volume geo fs).inodeUsed ∧
      names geo fs' = put (names geo fs) (strtokSlash path) file'.idx := by
  obtain ⟨q, c, p, dir, hl⟩ := hvet.looked ho
  obtain ⟨found, hp, -⟩ := bind_eq_ok.mp he
  obtain ⟨rfl, -⟩ := hl.parent_eq ho hp
  rcases (fsCreateFile_volume ho.mounted he).2 with
    ⟨hr, -⟩ | ⟨-, parent, p', i, inserted, dir', habs', hat, -, hfresh, rfl, hins, hv⟩
  · exact absurd rfl hr
  cases hp.symm.trans habs'.1
  obtain ⟨hp', -⟩ := Volume.dirs_eq_some.mp hl.dir_eq
  cases hat.unique ho rfl hp'.1
  have habs : names geo fs (strtokSlash path) = none :=
    not_not.mp fun hc => (hl.index_ne ho habs'.2).mpr hc rfl
  have hkeys : c ∉ dir.entries.keys := List.dlookup_eq_none.mp (hl.names_eq.symm.trans habs)
  obtain ⟨rfl, hc, hne⟩ := hl.split
  have hgain := ho.gains hl.proper hroom hp hl.dir_eq hins
  rw [hat.dir_eq.2] at hv
  have hdirs : (volume geo fs').dirs = Function.update (volume geo fs).dirs p (some dir') := by
    rw [hv]
    exact ho.wellformed.dirs_newFile hfresh hp' (not_sIsdir_of_sIsreg hmode)
  have hchild : (volume geo fs').dirs.child = redirect (volume geo fs).dirs.child p c (some i) := by
    rw [hdirs, hgain.child hkeys hl.dir_eq]
  exact ⟨habs, hfresh, hl.names_put ho habs hfresh hchild⟩

theorem fsCreateFile_refines (ho : Orderly geo fs) (hvet : Vetted fs path)
    (hroom : ParentHasRoom fs path) (hmode : sIsreg mode) {file' : FileInfo}
    (he : fsCreateFile fs path mode ⟨inodeInit, noInode⟩ = .ok (r, file', fs')) :
    Refines geo fs (.create path mode) r fs' := by
  obtain ⟨q, c, p, dir, hl⟩ := hvet.looked ho
  by_cases hr : r = .ok
  · obtain rfl := hr
    obtain ⟨habs, hfresh, hn⟩ := fsCreateFile_puts ho hvet hroom hmode he
    obtain ⟨-, -, hu, -⟩ := fsCreateFile_inodes ho.mounted he
    refine ⟨?_, fun hinv => hinv.put habs hn hu⟩
    rw [hn]
    refine .made (Or.inr rfl) habs ?_ (not_covers_of_unused ho hfresh)
    rw [hl.names_parent]
    exact Option.some_ne_none p
  · obtain ⟨found, hp, -⟩ := bind_eq_ok.mp he
    obtain ⟨rfl, -⟩ := hl.parent_eq ho hp
    obtain ⟨-, -, hv⟩ := (fsCreateFile_volume ho.mounted he).2.resolve_right fun hc => hr hc.1
    exact hl.refused ho (Or.inr rfl) (hl.index_in_dir ho)
      (fsCreateFile_code hp (hl.index_in_dir ho) he) hr (names_congr (by rw [hv])) (by rw [hv])

theorem Leaf.child (ho : Orderly geo fs) {info : FileInfo}
    (hinfo : (volume geo fs).inode info.idx = info.inode) (hleaf : Leaf fs info) (x : CString) :
    (volume geo fs).dirs.child info.idx x = none := by
  cases hdir : (volume geo fs).dirs info.idx with
  | none => exact DirTree.child_of_none hdir x
  | some d =>
    obtain ⟨hd, rfl⟩ := Volume.dirs_eq_some.mp hdir
    rcases hleaf with hreg | ⟨d, hd', hempty⟩
    · rw [← hinfo] at hreg
      exact absurd hd.2 (not_sIsdir_of_sIsreg hreg)
    · rw [← hinfo] at hd'
      obtain ⟨-, rfl⟩ := (fsFindDir_iff ho.mounted).mp hd'
      rw [DirTree.child_of hdir]
      change ((volume geo fs).dir (((volume geo fs).inode info.idx).blk 0)).entries.dlookup x = none
      rw [← Inode.directBlks_zero, hempty]
      rfl

theorem Looked.metadata (h : Looked geo fs path q c p dir) (ho : Orderly geo fs)
    (hi : names geo fs (strtokSlash path) = some i) :
    fsGetMetadata fs path = .ok (.ok ⟨(volume geo fs).inode i, i⟩) := by
  obtain ⟨rfl, -⟩ := h.split
  have hnul : ∀ e ∈ strtokSlash (q ++ slash :: c), 0 ∉ e :=
    fun e he => (properName_of_token h.noNul he).noNul
  have hst : (volume geo fs).dirs.Straight (strtokSlash (q ++ slash :: c)) := by
    rw [h.tokens]
    exact h.through.straight
  have hres : (volume geo fs).dirs.resolve (strtokSlash (q ++ slash :: c)) = some i := hi
  unfold fsGetMetadata
  rw [fsPathToInode_eq, ho.shows.fsLookup_eq hnul hst, hres]
  rfl

theorem names_treeMap (ho : Orderly geo fs) : TreeMap (names geo fs) := ho.wellformed.rooted.treeMap

theorem Looked.found_of_remove (h : Looked geo fs path q c p dir) (ho : Orderly geo fs)
    (he : fsRemoveFile fs path = .ok (r, fs')) : ∃ i, names geo fs (strtokSlash path) = some i := by
  obtain ⟨found, hp, -⟩ := bind_eq_ok.mp he
  obtain ⟨rfl, -⟩ := h.parent_eq ho hp
  apply Option.ne_none_iff_exists'.mp
  obtain ⟨-, ⟨hr, -⟩ | ⟨-, parent, p', j, hlast, hp', -, hj, hu, -⟩⟩ :=
    fsRemoveFile_volume ho.mounted he
  · unfold fsRemoveFile at he
    rw [hp, ok_bind] at he
    obtain ⟨_, -, he⟩ := bind_eq_ok.mp he
    obtain ⟨x, -, he⟩ := bind_eq_ok.mp he
    cases x with
    | none => cases he
    | some x =>
      obtain ⟨_, -, he⟩ := bind_eq_ok.mp he
      obtain ⟨_, -, he⟩ := bind_eq_ok.mp he
      obtain ⟨_, -, he⟩ := bind_eq_ok.mp he
      cases he
      exact absurd rfl hr
  · cases hp.symm.trans hp'
    have hidx : dirFileInodeIdx dir c = .ok (dir.idxAt j) := by
      rw [dirFileInodeIdx, hj]
      rfl
    exact (h.index_ne ho hidx).mp (ho.mounted.inodeUsed_inRange hu).1

theorem fsRemoveFile_refines (ho : Orderly geo fs) (hd : DistinctNames fs) (hvet : Vetted fs path)
    (hleaf : LeadsTo fs path (Leaf fs)) (he : fsRemoveFile fs path = .ok (r, fs')) :
    Refines geo fs (.remove path) r fs' := by
  obtain ⟨q, c, p, dir, hl⟩ := hvet.looked ho
  obtain ⟨i, hi⟩ := hl.found_of_remove ho he
  have hinfo : Leaf fs ⟨(volume geo fs).inode i, i⟩ := (hleaf.apply (hl.metadata ho hi)).apply rfl
  have hnone : ∀ x, (volume geo fs).dirs.child i x = none := fun x => hinfo.child ho rfl x
  have hres := hi
  rw [hl.tokens] at hres
  obtain ⟨hsplit, hc, hne⟩ := hl.split
  obtain ⟨fs'', p', dir₁, dir', he', hdet⟩ := ho.detaches hl.noNul hc hne hl.through hres
  rw [← hsplit] at he'
  cases he.symm.trans he'
  have hcut := hdet.cut ho hd hnone
  have hn : names geo fs' = drop (names geo fs) (strtokSlash path) := by
    have hdrop := ho.wellformed.rooted.walk_drop (c := c) hdet.parent.1
    rw [← hcut] at hdrop
    rw [hl.tokens]
    exact hdrop
  have hbelow : ∀ x xs, names geo fs (strtokSlash path ++ x :: xs) = none := by
    intro x xs
    have hi' := hi
    unfold names DirTree.resolve at hi' ⊢
    rw [walk_append, hi', Option.bind_some, walk_cons, hnone, Option.bind_none]
  refine ⟨?_, fun hinv j => ?_⟩
  · rw [hn]
    exact .removed (by rw [hi]; exact Option.some_ne_none i) hbelow
  · rw [hn, hdet.inodes, (names_treeMap ho).covers_drop hi hbelow]
    have hbad : i ≠ badblkInode := by
      obtain ⟨s, href, -⟩ := ho.wellformed.refers_of_child hdet.child
      exact (ho.wellformed.refUsed _ _ href).2.1
    rw [Set.mem_sdiff, Set.mem_singleton_iff, hinv j]
    constructor
    · rintro ⟨hj | hj, hji⟩
      · exact Or.inl hj
      · exact Or.inr ⟨hji, hj⟩
    · rintro (rfl | ⟨hji, hj⟩)
      · exact ⟨Or.inl rfl, hbad.symm⟩
      · exact ⟨Or.inr hj, hji⟩

theorem fsPathIndex_tokens {path' : CString} (h : strtokSlash path' = strtokSlash path) :
    fsPathIndex fs path' = fsPathIndex fs path := by
  unfold fsPathIndex
  rw [fsPathToInode_eq, fsPathToInode_eq, h]

theorem Grows.inodeUsed_subset (h : Mounted geo fs) (hs : Grows geo fs fs') :
    (volume geo fs).inodeUsed ⊆ (volume geo fs').inodeUsed := by
  refine (chain_invariant (fun s => (volume geo fs).inodeUsed ⊆ (volume geo s).inodeUsed)
    (fun _ _ h hs => hs.mounted h) ?_ h subset_rfl hs).2
  intro s t hm hi hs
  cases hs with
  | fill hs => exact hi.trans (Fills.inodes hm (.single hs)).2.ge
  | inodeAlloc he =>
    rcases (fsInodeAlloc_spec hm he).2.2 with ⟨-, hv⟩ | ⟨-, -, hv⟩
    · rwa [hv]
    · rw [hv]
      exact hi.trans (Set.subset_insert _ _)
  | saveInode he =>
    rw [(fsSaveInode_spec hm he).2.2.2]
    exact hi

theorem Looked.movable (h : Looked geo fs src q c p dir) (ho : Orderly geo fs)
    (ht : (Op.rename src dst).Tidy fs) {q' d : CString} {p₂ : ChisaiSize} {dirq : Dir}
    (h' : Looked geo fs dst q' d p₂ dirq) (hi : names geo fs (strtokSlash src) = some i) :
    ∃ p' p₂' dir' dirq', Movable geo fs q c q' d p' i p₂' dir' dirq' := by
  obtain ⟨hvet, hvet', hto, hapart, hlen, hroom⟩ := ht
  have hfrom := h.index ho
  rw [hi] at hfrom
  obtain ⟨rfl, hc, hne⟩ := h.split
  obtain ⟨rfl, hc', hne'⟩ := h'.split
  have hname : d.length < chisaiFileLen := hlen _ (strrchrSlash_eq_some.mpr ⟨rfl, hc'⟩)
  refine Movable.of_paths ho h.noNul hc hne hfrom hvet.2 h'.noNul hc' hne' hname hto hvet'.2 hapart ?_
  refine hroom.imp_right fun hsame => fsPathIndex_tokens ?_
  rwa [h.tokens, h'.tokens, List.dropLast_concat, List.dropLast_concat] at hsame

theorem fsRenameFile_refines (ho : Orderly geo fs) (hd : DistinctNames fs)
    (ht : (Op.rename src dst).Tidy fs) (he : fsRenameFile fs src dst = .ok (r, fs')) :
    Refines geo fs (.rename src dst) r fs' := by
  obtain ⟨hvet, hvet', hto, hapart, hlen, hroom⟩ := ht
  obtain ⟨q, c, p, dir, hl⟩ := hvet.looked ho
  obtain ⟨q', d, p₂, dirq, hl'⟩ := hvet'.looked ho
  have hnone : names geo fs (strtokSlash dst) = none :=
    Except.ok.inj ((hl'.index ho).symm.trans hto)
  obtain ⟨found, hp, -⟩ := bind_eq_ok.mp he
  obtain ⟨rfl, -⟩ := hl.parent_eq ho hp
  cases hi : names geo fs (strtokSlash src) with
  | none =>
    have hidx : dirFileInodeIdx dir c = .ok 0 := by
      rw [hl.index_in_dir ho, hi]
      rfl
    unfold fsRenameFile at he
    simp only [hp, hidx, ok_bind, ↓reduceIte] at he
    cases he
    exact ⟨.missing hi, id⟩
  | some i =>
    obtain ⟨p', p₂', dir', dirq', hm⟩ := hl.movable ho ⟨hvet, hvet', hto, hapart, hlen, hroom⟩ hl' hi
    obtain ⟨rfl, -⟩ := hl.split
    obtain ⟨rfl, -⟩ := hl'.split
    obtain ⟨fs'', he', -, hchild, -⟩ := hm.renames ho hd
    cases he.symm.trans he'
    have hn : names geo fs' =
        move (names geo fs) (strtokSlash (q ++ slash :: c)) (strtokSlash (q' ++ slash :: d)) := by
      have hmove := ho.wellformed.rooted.walk_moves hm.parent.1
        ((DirTree.child_of hm.parent.2).trans hm.entry) hm.parent'.1 hm.apart
      rw [← hchild] at hmove
      rw [hl.tokens, hl'.tokens]
      exact hmove
    refine ⟨?_, fun hinv j => ?_⟩
    · rw [hn]
      refine .moved (by rw [hi]; exact Option.some_ne_none i) hnone ?_ hapart
      rw [hl'.names_parent]
      exact Option.some_ne_none p₂
    · rw [hn, ((fsRenameFile_fills he).inodes ho.mounted).2, (names_treeMap ho).covers_move hnone]
      exact hinv j

theorem Op.Tidy.target (ht : (Op.rename src dst).Tidy fs) (ho : Orderly geo fs)
    (hd : DistinctNames fs) {fs₁ : Filesystem} (hu : unlinkedSource fs src = .ok (some fs₁)) :
    Orderly geo fs₁ ∧ ∃ p dir c, fsPathToParent fs₁ dst = .ok (.ok ⟨(volume geo fs₁).inode p, dir, c⟩) ∧
      (volume geo fs₁).dirs p = some dir ∧ c ∉ dir.entries.keys ∧ 0 ∉ c := by
  obtain ⟨q, c, p, dir, hl⟩ := ht.1.looked ho
  obtain ⟨q', d, p₂, dirq, hl'⟩ := ht.2.1.looked ho
  obtain ⟨source, idx, dir₀, hp, h0, hrem, hsave⟩ := unlinkedSource_eq_ok hu
  obtain ⟨he, -⟩ := hl.parent_eq ho hp
  cases he
  obtain ⟨i, hi⟩ := Option.ne_none_iff_exists'.mp
    ((hl.index_ne ho (dirFileInodeIdx_of_dirRemove hrem)).mp h0)
  obtain ⟨p', p₂', dir', dirq', hm⟩ := hl.movable ho ht hl' hi
  obtain ⟨fs₂, dir₁, dirq₁, -, -, hrem', hsave', hun, hres, hdirq, habs, -⟩ := hm.unlinks ho hd
  cases hl.parent.symm.trans hm.parent.1
  cases hl.dir_eq.symm.trans hm.parent.2
  cases hrem.symm.trans hrem'
  cases hsave.symm.trans hsave'
  have hsub : strtokSlash q' <+: strtokSlash q' ++ [d] := List.prefix_append _ _
  have hstraight := hun.straight ho hd hm.through'
  have hp₁ := hun.orderly.parent_of_resolve hm.dst.1 hm.dst.2.1 hm.dst.2.2.2
    (fun pre x j hpre => hstraight pre x j (hpre.trans hsub)) hres hdirq
  obtain ⟨rfl, -⟩ := hl'.split
  exact ⟨hun.orderly, p₂', dirq₁, d, hp₁, hdirq, habs, fun h0 => hm.dst.1 (by simp [h0])⟩

theorem Op.Tidy.not_clashes (ht : (Op.rename src dst).Tidy fs) (ho : Orderly geo fs)
    (hd : DistinctNames fs) : ¬ ChisaiFs.Clashes fs src dst := by
  rintro ⟨fs₁, hu, found, hfound, htaken⟩
  obtain ⟨h₁, p, dir, c, hp, hdir, habs, hnul⟩ := ht.target ho hd hu
  cases hfound.symm.trans hp
  rcases dirFind_spec (h₁.named _ _ hdir).ended hnul with ⟨hf, -⟩ | ⟨j, l₁, l₂, -, hsplit, -⟩
  · exact htaken hf
  · rw [hsplit] at habs
    exact habs (by simp [List.keys])

theorem Op.Tidy.lawful {op : Op} (ht : op.Tidy fs) (ho : Orderly geo fs) (hd : DistinctNames fs) :
    op.Lawful fs ∧ op.Named ∧ ¬ op.Clashes fs := by
  cases op with
  | mkdir path mode =>
    obtain ⟨q, c, p, dir, hl⟩ := ht.1.looked ho
    exact ⟨hl.parentIsDir ho, ht.1.1, id⟩
  | create path mode =>
    obtain ⟨q, c, p, dir, hl⟩ := ht.1.looked ho
    exact ⟨⟨hl.parentIsDir ho, ht.2.2⟩, ht.1.1, id⟩
  | write file buf off => exact ⟨ht, trivial, id⟩
  | truncate file size => exact ⟨ht, trivial, id⟩
  | rename src dst =>
    obtain ⟨q, c, p, dir, hl⟩ := ht.1.looked ho
    obtain ⟨q', d, p₂, dirq, hl'⟩ := ht.2.1.looked ho
    exact ⟨⟨hl.parentIsDir ho, hl'.parentIsDir ho⟩, ⟨ht.1.1, ht.2.1.1⟩, ht.not_clashes ho hd⟩
  | remove path =>
    obtain ⟨q, c, p, dir, hl⟩ := ht.1.looked ho
    exact ⟨hl.parentIsDir ho, ht.1.1, id⟩

theorem Op.call_refines {op : Op} (ho : Orderly geo fs) (hd : DistinctNames fs) (ht : op.Tidy fs)
    (he : op.call fs = .ok (r, fs')) : Refines geo fs op r fs' := by
  cases op with
  | mkdir path mode => exact fsMkdir_refines ho ht.1 ht.2 he
  | create path mode =>
    obtain ⟨⟨_, file, _⟩, hcall, hpair⟩ := map_eq_ok.mp he
    cases hpair
    exact fsCreateFile_refines ho ht.1 ht.2.1 ht.2.2 hcall
  | write file buf off =>
    obtain ⟨⟨ret, file', _⟩, hcall, hpair⟩ := map_eq_ok.mp he
    cases hpair
    obtain ⟨hf, hrange⟩ := ht
    have hmod := Nat.mod_le off geo.span
    rw [ho.mounted.blockSize] at hrange
    have hn := names_congr (fsWriteFile_dirs ho hf (by omega) hcall)
    obtain ⟨-, -, hu, -⟩ := fsWriteFile_inodes ho.mounted hcall
    exact ⟨by rw [hn]; exact .wrote, fun hinv => hinv.congr hn hu⟩
  | truncate file size =>
    obtain ⟨⟨_, file', _⟩, hcall, hpair⟩ := map_eq_ok.mp he
    cases hpair
    have hn := names_congr (fsTruncateFile_dirs ho ht hcall)
    obtain ⟨-, rfl, v, inode, hsteps, -, hv⟩ := fsTruncateFile_eq_ok ho.mounted hcall
    refine ⟨by rw [hn]; exact .truncated, fun hinv => hinv.congr hn ?_⟩
    rw [hv, Volume.setInode_inodeUsed]
    exact (shrink_inodes hsteps).2
  | rename src dst => exact fsRenameFile_refines ho hd ht he
  | remove path => exact fsRemoveFile_refines ho hd ht.1 ht.2 he

end Steps

section Runs

variable {geo : Geometry} {fs₀ fs fs' : Filesystem} {l : List (Op × ChisaiError)} {op : Op}
  {r : ChisaiError}

def TidyStep (fs : Filesystem) (op : Op) (r : ChisaiError) (fs' : Filesystem) : Prop :=
  op.Tidy fs ∧ op.call fs = .ok (r, fs')

structure InOrder (geo : Geometry) (fs : Filesystem) : Prop where
  orderly : Orderly geo fs
  distinct : DistinctNames fs
  inventory : Inventory geo fs

theorem InOrder.step (h : InOrder geo fs) (hs : TidyStep fs op r fs') : InOrder geo fs' := by
  obtain ⟨ht, he⟩ := hs
  obtain ⟨hl, hn, hc⟩ := ht.lawful h.orderly h.distinct
  have hstep : op.step fs = .ok fs' := Op.step_of_call he
  have ho := h.orderly.step hl hn hstep
  refine ⟨ho, ?_, (Op.call_refines h.orderly h.distinct ht he).inventory h.inventory⟩
  exact ho.distinctNames.mpr
    (Op.step_distinct h.orderly hl hn hc hstep (h.orderly.distinctNames.mp h.distinct))

def Names.empty : Names := fun xs => if xs = [] then some rootInode else none

/-- Nothing is on the volume but a new root. -/
structure Blank (geo : Geometry) (fs : Filesystem) : Prop where
  mounted : Mounted geo fs
  wellformed : (volume geo fs).Wellformed
  withRoot : ∃ d : Device, volume geo fs = (d.bare geo).withRoot

namespace Blank

theorem used_iff (h : Blank geo fs) {i : ChisaiSize} :
    i ∈ (volume geo fs).inodeUsed ↔ i = rootInode ∨ i = badblkInode := by
  obtain ⟨d, hv⟩ := h.withRoot
  rw [hv]
  constructor
  · rintro (hi | hi | hi)
    · exact Or.inl hi
    · exact Or.inr hi
    · exact absurd hi (Set.notMem_empty i)
  · rintro (hi | hi)
    · exact Or.inl hi
    · exact Or.inr (Or.inl hi)

theorem not_regular (h : Blank geo fs) {i : ChisaiSize} (hu : i ∈ (volume geo fs).inodeUsed) :
    ¬ sIsreg ((volume geo fs).inode i).mode := by
  rcases h.used_iff.mp hu with rfl | rfl
  · rw [h.wellformed.root]
    decide
  · rw [h.wellformed.bad]
    decide

theorem dirs (h : Blank geo fs) : (volume geo fs).dirs.Every fun dir => dir = dirInit := by
  intro i dir hdir
  obtain ⟨⟨hu, hmode⟩, rfl⟩ := Volume.dirs_eq_some.mp hdir
  clear hdir
  rcases h.used_iff.mp hu with rfl | rfl
  · obtain ⟨d, hv⟩ := h.withRoot
    rw [Volume.dirOf, h.wellformed.root, rootInodeRec_blk, if_pos rfl, hv]
    exact withRoot_dir _
  · rw [h.wellformed.bad] at hmode
    exact absurd hmode (by decide)

theorem names_eq (h : Blank geo fs) : names geo fs = Names.empty := by
  funext xs
  cases xs with
  | nil => rfl
  | cons x xs =>
    have hroot : (volume geo fs).dirs.child rootInode x = none := by
      cases hdir : (volume geo fs).dirs rootInode with
      | none => exact DirTree.child_of_none hdir x
      | some dir =>
        rw [DirTree.child_of hdir, h.dirs _ _ hdir]
        rfl
    unfold names DirTree.resolve
    rw [walk_cons, hroot]
    rfl

theorem inOrder (h : Blank geo fs) : InOrder geo fs := by
  have ho : Orderly geo fs := by
    refine ⟨h.mounted, h.wellformed, fun i dir hdir => ?_⟩
    rw [h.dirs i dir hdir]
    exact dirInit_named
  refine ⟨ho, ho.distinctNames.mpr fun i dir hdir => ?_, fun i => ?_⟩
  · rw [h.dirs i dir hdir]
    exact List.nodupKeys_nil
  · rw [h.names_eq, h.used_iff]
    constructor
    · rintro (rfl | rfl)
      · exact Or.inr ⟨[], rfl⟩
      · exact Or.inl rfl
    · rintro (rfl | ⟨xs, hxs⟩)
      · exact Or.inr rfl
      · unfold Names.empty at hxs
        split_ifs at hxs
        exact Or.inl (Option.some.inj hxs).symm

end Blank

theorem freshMount_blank (h : freshMount geo = .ok fs) : Blank geo fs := by
  obtain ⟨hm, -, hw⟩ := freshMount_spec h
  obtain ⟨d, hd, he⟩ := bind_eq_ok.mp h
  obtain ⟨-, -, hv, -⟩ := fsInit_formatted (freshDisk_formatted hd) he
  exact ⟨hm, hw, d, hv⟩

theorem freshMount_inOrder (h : freshMount geo = .ok fs) : InOrder geo fs :=
  (freshMount_blank h).inOrder

theorem TidyStep.inOrder (hmount : freshMount geo = .ok fs₀) (hrun : Traces TidyStep fs₀ l fs) :
    InOrder geo fs :=
  hrun.invariant (InOrder geo) (fun _ _ _ _ h hs => h.step hs) (freshMount_inOrder hmount)

/-- A run of tidy operations is a run of the map from paths to files, with the same codes, and
what a path leads to on the device is what it leads to in the map. -/
theorem tidy_run_refines (hmount : freshMount geo = .ok fs₀) (hrun : Traces TidyStep fs₀ l fs) :
    ∃ m, Traces Names.Step Names.empty l m ∧ ∀ path, 0 ∉ path →
      ThroughDirs fs (strtokSlash path) → fsPathIndex fs path = .ok (m (strtokSlash path)) := by
  refine ⟨names geo fs, ?_, fun path hpath ht => ?_⟩
  · rw [← (freshMount_blank hmount).names_eq]
    exact hrun.refines (InOrder geo) (fun s op r t h hs => h.step hs)
      (fun s op r t h hs => (Op.call_refines h.orderly h.distinct hs.1 hs.2).step)
      (freshMount_inOrder hmount)
  · have ho := (TidyStep.inOrder hmount hrun).orderly
    have hth := ho.through (fun e he => (properName_of_token hpath he).noNul) ht
    exact fsPathIndex_eq ho.shows hpath hth.straight

theorem exists_path_of_names (ho : Orderly geo fs) {xs : List CString} {i : ChisaiSize}
    (hi : names geo fs xs = some i) : ∃ path, 0 ∉ path ∧ strtokSlash path = xs ∧
      (volume geo fs).dirs.Through xs := by
  induction xs using List.reverseRecOn generalizing i with
  | nil =>
    refine ⟨[slash], by decide, by decide, fun pre c hpre => ?_⟩
    have hlen := hpre.length_le
    simp at hlen
  | append_singleton xs x ih =>
    obtain ⟨n, hn, hchild⟩ := walk_concat_eq_some.mp hi
    obtain ⟨dir, hdir, hlook⟩ := Option.bind_eq_some_iff.mp hchild
    obtain ⟨path, hpath, htok, hth⟩ := ih hn
    obtain ⟨⟨hne, hslash, hnul⟩, -⟩ := (ho.named n dir hdir).length_of_found hlook
    refine ⟨path ++ slash :: x, ?_, ?_, hth.concat hn hdir x⟩
    · rw [List.mem_append, List.mem_cons]
      rintro (h0 | h0 | h0)
      · exact hpath h0
      · exact absurd h0 (by decide)
      · exact hnul h0
    · rw [strtokSlash_append, strtokSlash_name hslash hne, htok]

theorem reached_iff (ho : Orderly geo fs) {i : ChisaiSize} :
    Reached fs i ↔ Covers (names geo fs) i := by
  constructor
  · intro hi
    obtain ⟨path, -, -, hres⟩ := ho.exists_path hi
    exact ⟨_, hres⟩
  · rintro ⟨xs, hxs⟩
    obtain ⟨path, hpath, rfl, hth⟩ := exists_path_of_names ho hxs
    exact ho.reached hpath hth hxs

/-- In tidy runs no inode is lost and none has two paths. -/
theorem tidy_run_inodes (hmount : freshMount geo = .ok fs₀) (hrun : Traces TidyStep fs₀ l fs)
    (i : ChisaiSize) :
    (blkgrpsInodeExist fs.blkGrps i = .ok true ↔ i = badblkInode ∨ Reached fs i) ∧
      ∀ path path', 0 ∉ path → 0 ∉ path' → ThroughDirs fs (strtokSlash path) →
        ThroughDirs fs (strtokSlash path') → fsPathIndex fs path = .ok (some i) →
        fsPathIndex fs path' = .ok (some i) → strtokSlash path = strtokSlash path' := by
  obtain ⟨ho, -, hinv⟩ := TidyStep.inOrder hmount hrun
  constructor
  · rw [reached_iff ho, ← hinv i]
    constructor
    · intro he
      exact (blkgrpsInodeExist_eq_ok ho.mounted he).mp rfl
    · exact blkgrpsInodeExist_of_used ho.mounted
  · intro path path' hpath hpath' ht ht' hi hi'
    have hth := ho.through (fun e he => (properName_of_token hpath he).noNul) ht
    have hth' := ho.through (fun e he => (properName_of_token hpath' he).noNul) ht'
    rw [fsPathIndex_eq ho.shows hpath hth.straight] at hi
    rw [fsPathIndex_eq ho.shows hpath' hth'.straight] at hi'
    exact ho.wellformed.rooted.walk_inj (Except.ok.inj hi) (Except.ok.inj hi')

/-- Two directories, a file that is renamed into one, a name that is taken and a remove. -/
def tidyOps : List Op :=
  [.mkdir [47, 100] 0o755, .mkdir [47, 101] 0o755, .create [47, 97] 0o100644,
    .create [47, 97] 0o100644, .rename [47, 97] [47, 100, 47, 98], .remove [47, 101],
    .rename [47, 100] [47, 99]]

theorem exists_tidy : ∃ fs₀ l fs, freshMount smallDisk = .ok fs₀ ∧ Traces TidyStep fs₀ l fs ∧
    l.map Prod.snd = [.ok, .ok, .ok, .eexist, .ok, .ok, .ok] ∧
    ThroughDirs fs (strtokSlash [47, 99, 47, 98]) ∧
    fsPathIndex fs [47, 99, 47, 98] = .ok (some 5) := by
  have hrun : Yields (freshMount smallDisk) fun fs₀ =>
      ((runTraced Op.call (fun fs op => op.Tidy fs) [] fs₀ tidyOps).any fun r =>
        decide (r.1.map Prod.snd = [.ok, .ok, .ok, .eexist, .ok, .ok, .ok] ∧
          ThroughDirs r.2 (strtokSlash [47, 99, 47, 98]) ∧
          fsPathIndex r.2 [47, 99, 47, 98] = .ok (some 5))) = true := by
    decide +kernel
  obtain ⟨fs₀, hmount, hrun⟩ := hrun
  obtain ⟨⟨l, fs⟩, hr, hp⟩ := (Option.any_eq_true _ _).mp hrun
  obtain ⟨hcodes, ht, hi⟩ := of_decide_eq_true hp
  exact ⟨fs₀, l, fs, hmount, traces_of_runTraced .nil hr, hcodes, ht, hi⟩

theorem tidy_run_refines_tidyOps : ∃ fs₀ l fs m, freshMount smallDisk = .ok fs₀ ∧
    Traces TidyStep fs₀ l fs ∧ l.map Prod.snd = [.ok, .ok, .ok, .eexist, .ok, .ok, .ok] ∧
    Traces Names.Step Names.empty l m ∧ fsPathIndex fs [47, 99, 47, 98] = .ok (some 5) ∧
    m [[99], [98]] = some 5 := by
  obtain ⟨fs₀, l, fs, hmount, hrun, hcodes, ht, hi⟩ := exists_tidy
  obtain ⟨m, hm, hlook⟩ := tidy_run_refines hmount hrun
  have hsome := (hlook _ (by decide) ht).symm.trans hi
  exact ⟨fs₀, l, fs, m, hmount, hrun, hcodes, hm, hi, Except.ok.inj hsome⟩

theorem tidy_run_inodes_tidyOps : ∃ fs₀ l fs, freshMount smallDisk = .ok fs₀ ∧
    Traces TidyStep fs₀ l fs ∧
    (blkgrpsInodeExist fs.blkGrps 5 = .ok true ↔ (5 : ChisaiSize) = badblkInode ∨ Reached fs 5) ∧
    ∀ path, 0 ∉ path → ThroughDirs fs (strtokSlash path) → fsPathIndex fs path = .ok (some 5) →
      strtokSlash path = [[99], [98]] := by
  obtain ⟨fs₀, l, fs, hmount, hrun, -, ht, hi⟩ := exists_tidy
  obtain ⟨hused, hunique⟩ := tidy_run_inodes hmount hrun 5
  refine ⟨fs₀, l, fs, hmount, hrun, hused, fun path hpath hthru hlook => ?_⟩
  exact hunique path [47, 99, 47, 98] hpath (by decide) hthru ht hlook hi

end Runs

end ChisaiFs
