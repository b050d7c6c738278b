import ChisaiFs.Frame
import ChisaiFs.Resolution

/-! Runs whose paths are C strings with a final name. What each operation makes of the
directory tree, and the names in it: they stay terminated, but a rename can enter a name
twice. -/

namespace ChisaiFs
open Outcome SwapRemoval Walks

/-- A C string with a slash and a name behind it. -/
def Proper (path : CString) : Prop := 0 ∉ path ∧ ∃ s ∈ strrchrSlash path, s.2 ≠ []

def Op.Named : Op → Prop
  | .mkdir path _ => Proper path
  | .create path _ => Proper path
  | .write .. => True
  | .truncate .. => True
  | .rename src dst => Proper src ∧ Proper dst
  | .remove path => Proper path

instance (path : CString) : Decidable (Proper path) := inferInstanceAs (Decidable (_ ∧ _))

instance : (op : Op) → Decidable op.Named
  | .mkdir path _ => inferInstanceAs (Decidable (Proper path))
  | .create path _ => inferInstanceAs (Decidable (Proper path))
  | .write .. => isTrue trivial
  | .truncate .. => isTrue trivial
  | .rename src dst => inferInstanceAs (Decidable (Proper src ∧ Proper dst))
  | .remove path => inferInstanceAs (Decidable (Proper path))

def NamedReachable (geo : Geometry) (fs : Filesystem) : Prop :=
  ∃ fs₀, freshMount geo = .ok fs₀ ∧
    Reaches Op.step (fun s op => op.Lawful s ∧ op.Named) fs₀ fs

def DirTree.Every (t : DirTree) (P : Dir → Prop) : Prop := ∀ i dir, t i = some dir → P dir

theorem DirTree.Every.update {t : DirTree} {P : Dir → Prop} (h : t.Every P) {o : Option Dir}
    (ho : ∀ dir, o = some dir → P dir) (p : ChisaiSize) :
    DirTree.Every (Function.update t p o) P := by
  intro i dir hdir
  by_cases hi : i = p
  · subst hi
    rw [Function.update_self] at hdir
    exact ho dir hdir
  · rw [Function.update_of_ne hi] at hdir
    exact h i dir hdir

/-- The parent that the path leads to, if any, has room for another entry. -/
def ParentHasRoom (fs : Filesystem) (path : CString) : Prop :=
  ∀ parent, fsPathToParent fs path = .ok (.ok parent) →
    parent.dir.size.toNat < chisaiFilePerDir

instance (fs : Filesystem) (path : CString) : Decidable (ParentHasRoom fs path) :=
  match h : fsPathToParent fs path with
  | .ok (.ok parent) =>
    decidable_of_iff (parent.dir.size.toNat < chisaiFilePerDir)
      ⟨fun hd p hp => by rw [h] at hp; cases hp; exact hd, fun hd => hd parent h⟩
  | .ok (.error _) => isTrue fun p hp => by rw [h] at hp; cases hp
  | .error _ => isTrue fun p hp => by rw [h] at hp; cases hp

section Effects

variable {geo : Geometry} {fs fs₁ fs' : Filesystem} {path src dst : CString} {mode : UInt32}
  {r : ChisaiError} {parent : Parent} {p : ChisaiSize}

theorem fsPathToParent_split (h0 : 0 ∉ path) (he : fsPathToParent fs path = .ok (.ok parent)) :
    ∃ q, strrchrSlash path = some (q, parent.filePath) ∧ slash ∉ parent.filePath ∧
      0 ∉ parent.filePath ∧ parent.filePath.length < chisaiFileLen := by
  cases hs : strrchrSlash path with
  | none =>
    unfold fsPathToParent at he
    rw [hs] at he
    cases he
  | some s =>
    obtain ⟨q, c⟩ := s
    rw [fsPathToParent_of_split hs] at he
    split_ifs at he with hlen
    obtain ⟨found, -, he⟩ := bind_eq_ok.mp he
    cases found with
    | error e => cases he
    | ok found =>
      cases he
      obtain ⟨rfl, hc⟩ := strrchrSlash_eq_some.mp hs
      exact ⟨q, rfl, hc, fun h => h0 (by simp [h]), not_le.mp hlen⟩

theorem fsPathToParent_name (hp : Proper path)
    (he : fsPathToParent fs path = .ok (.ok parent)) : ∃ q,
      strrchrSlash path = some (q, parent.filePath) ∧ ProperName parent.filePath ∧
        parent.filePath.length < chisaiFileLen := by
  obtain ⟨h0, s, hs, hne⟩ := hp
  obtain ⟨q, hq, hc, hnul, hlen⟩ := fsPathToParent_split h0 he
  cases hs.symm.trans hq
  exact ⟨q, hq, ⟨hne, hc, hnul⟩, hlen⟩

theorem Orderly.parentDir (h : Orderly geo fs) (hat : parent.At (volume geo fs) p)
    (hd : sIsdir parent.inode.mode) : (volume geo fs).IsDir p ∧
      (volume geo fs).dirs p = some parent.dir ∧ parent.dir.Named := by
  have hp : (volume geo fs).IsDir p := ⟨hat.used, hat.inode ▸ hd⟩
  have hdir : (volume geo fs).dirs p = some parent.dir := by
    rw [hat.dir_eq.1]
    exact Volume.dirs_of_isDir hp
  exact ⟨hp, hdir, h.named p _ hdir⟩

theorem Orderly.absent (h : Orderly geo fs) {dir : Dir} {c : CString}
    (hdir : (volume geo fs).dirs p = some dir) (hc : 0 ∉ c)
    (h0 : dirFileInodeIdx dir c = .ok 0) : c ∉ dir.entries.keys := by
  rw [dirFileInodeIdx_spec (h.named p dir hdir).ended hc] at h0
  intro hmem
  obtain ⟨i, hi⟩ := Option.isSome_iff_exists.mp (List.dlookup_isSome.mpr hmem)
  have hu := h.shows.used p c i ((DirTree.child_of hdir).trans hi)
  rw [hi] at h0
  exact (h.mounted.inodeUsed_inRange hu).1 (Except.ok.inj h0)

theorem Dir.Named.insert {dir dir' : Dir} {c : CString} {i : ChisaiSize} {inserted : Bool}
    (h : dir.Named) (hc : ProperName c) (hlen : c.length < chisaiFileLen)
    (hins : dirInsert dir c i = .ok (inserted, dir')) :
    (inserted = false ∧ dir' = dir ∧ chisaiFilePerDir ≤ dir.size.toNat) ∨
      (inserted = true ∧ dir.Gains c i dir') := by
  rcases dirInsert_spec (i := i) h hc hlen with ⟨he, hfull⟩ | ⟨dir₁, he, hgain⟩
  · cases hins.symm.trans he
    exact Or.inl ⟨rfl, rfl, hfull⟩
  · cases hins.symm.trans he
    exact Or.inr ⟨rfl, hgain⟩

theorem Dir.Named.of_insert {dir dir' : Dir} {c : CString} {i : ChisaiSize} {inserted : Bool}
    (h : dir.Named) (hc : ProperName c) (hlen : c.length < chisaiFileLen)
    (hins : dirInsert dir c i = .ok (inserted, dir')) : dir'.Named := by
  rcases h.insert hc hlen hins with ⟨-, rfl, -⟩ | ⟨-, hgain⟩
  · exact h
  · exact hgain.named

/-- A directory that `fs_mkdir` made, with its entry in the parent unless that was full. -/
structure MadeDir (geo : Geometry) (fs fs' : Filesystem) (path : CString) (mode : UInt32)
    (parent : Parent) (p i : ChisaiSize) (inserted : Bool) (dir : Dir) : Prop where
  absent : Absent fs path parent
  at_ : parent.At (volume geo fs) p
  fresh : i ∉ (volume geo fs).inodeUsed
  used : i ∈ (volume geo fs').inodeUsed
  newMode : ((volume geo fs').inode i).mode = sIfdir ||| mode
  insert : dirInsert parent.dir parent.filePath i = .ok (inserted, dir)
  empty : fsFindDir fs' ((volume geo fs').inode i).directBlks[0] = .ok (some dirInit)
  dirs : (volume geo fs').dirs = Function.update (Function.update (volume geo fs).dirs p (some dir)) i
    (if sIsdir (sIfdir ||| mode) then some dirInit else none)

theorem fsMkdir_dirs (h : Orderly geo fs) (hl : ParentIsDir fs path)
    (he : fsMkdir fs path mode = .ok (r, fs')) :
    (r ≠ .ok ∧ (volume geo fs').dirs = (volume geo fs).dirs) ∨
      (r = .ok ∧ ∃ parent p i inserted dir,
        MadeDir geo fs fs' path mode parent p i inserted dir) := by
  obtain ⟨hm', hcase⟩ := fsMkdir_volume h.mounted he
  rcases hcase with ⟨hr, hv | ⟨k, -, hv⟩⟩ |
    ⟨hr, parent, p, k, i, inserted, dir, habs, hat, -, hkn, -, hin, hins, hv⟩
  · exact Or.inl ⟨hr, by rw [hv]⟩
  · exact Or.inl ⟨hr, by rw [hv, Volume.dirs_useData]⟩
  · obtain ⟨hp, -⟩ := h.parentDir hat (hl parent habs.1)
    have hmode : (newDirInode mode k).mode = sIfdir ||| mode := rfl
    have hblk : (newDirInode mode k).blk 0 = k := (newDirInode_blk mode k 0).trans (if_pos rfl)
    rw [hat.dir_eq.2] at hv
    have hinode : (volume geo fs').inode i = newDirInode mode k := by
      rw [hv]
      exact Volume.setInode_inode_same _
    refine Or.inr ⟨hr, parent, p, i, inserted, dir, habs, hat, hin, ?_, ?_, hins, ?_, ?_⟩
    · rw [hv]
      exact Or.inl rfl
    · rw [hinode, hmode]
    · rw [hinode]
      refine (fsFindDir_iff hm').mpr ⟨?_, ?_⟩
      · rw [hv]
        exact Or.inl hblk
      · rw [hv, Inode.directBlks_zero, hblk]
        exact Volume.setDir_dir_same dirInit
    · rw [hv, h.wellformed.dirs_newDir hin hkn hp hblk, hmode]

theorem fsCreateFile_dirs (h : Orderly geo fs) (hl : ParentIsDir fs path) (hmode : ¬ sIsdir mode)
    {file file' : FileInfo} (he : fsCreateFile fs path mode file = .ok (r, file', fs')) :
    (r ≠ .ok ∧ (volume geo fs').dirs = (volume geo fs).dirs) ∨
      (r = .ok ∧ ∃ parent p inserted dir, Absent fs path parent ∧
        parent.At (volume geo fs) p ∧ file'.idx ∉ (volume geo fs).inodeUsed ∧
        dirInsert parent.dir parent.filePath file'.idx = .ok (inserted, dir) ∧
        (volume geo fs').dirs = Function.update (volume geo fs).dirs p (some dir)) := by
  obtain ⟨-, hcase⟩ := fsCreateFile_volume h.mounted he
  rcases hcase with ⟨hr, -, hv⟩ | ⟨hr, parent, p, i, inserted, dir, habs, hat, -, hin, rfl, hins, hv⟩
  · exact Or.inl ⟨hr, by rw [hv]⟩
  · obtain ⟨hp, -⟩ := h.parentDir hat (hl parent habs.1)
    rw [hat.dir_eq.2] at hv
    refine Or.inr ⟨hr, parent, p, inserted, dir, habs, hat, hin, hins, ?_⟩
    rw [hv]
    exact h.wellformed.dirs_newFile hin hp hmode

/-- The tree without the source entry of a rename. -/
structure Unlinked (geo : Geometry) (fs fs₁ : Filesystem) (src : CString) (source : Parent)
    (p i : ChisaiSize) (dir : Dir) : Prop where
  found : fsPathToParent fs src = .ok (.ok source)
  at_ : source.At (volume geo fs) p
  isDir : (volume geo fs).dirs p = some source.dir
  loses : source.dir.Loses source.filePath i dir
  orderly : Orderly geo fs₁
  inodes : (volume geo fs₁).inode = (volume geo fs).inode ∧
    (volume geo fs₁).inodeUsed = (volume geo fs).inodeUsed
  dirs : (volume geo fs₁).dirs = Function.update (volume geo fs).dirs p (some dir)
  free : ∀ a, ¬ (volume geo fs₁).Refers a i

theorem fsSaveDir_unlinks (h : Orderly geo fs) (hl : ParentIsDir fs src) (hs : Proper src)
    {source : Parent} {i : ChisaiSize} {dir : Dir}
    (hp : fsPathToParent fs src = .ok (.ok source)) (h0 : i ≠ 0)
    (hrem : dirRemove source.dir source.filePath = .ok (i, dir))
    (hsave : fsSaveDir fs dir source.inode.directBlks[0] = .ok fs₁) :
    ∃ p, Unlinked geo fs fs₁ src source p i dir := by
  obtain ⟨p, hat, -⟩ := fsPathToParent_eq_ok h.mounted hp
  obtain ⟨hpd, hdir, hnamed⟩ := h.parentDir hat (hl source hp)
  obtain ⟨q, -, hc, -⟩ := fsPathToParent_name hs hp
  obtain ⟨hm₁, -, -, hv₁⟩ := fsSaveDir_spec h.mounted hsave
  rcases dirRemove_eq_ok hrem with ⟨-, rfl, -⟩ | ⟨j, hlast, hj, rfl, rfl⟩
  · exact absurd rfl h0
  have hlt := dirFind_lt hj
  have hloses := hnamed.loses hc.noNul hj hlast
  obtain ⟨hsd, hsb⟩ := hat.dir_eq
  rw [hsb] at hv₁
  have hdirs := h.wellformed.dirs_setDir hpd (source.dir.without j hlast)
  have hunlink : ((volume geo fs).setDir (((volume geo fs).inode p).blk 0)
      (source.dir.without j hlast)).Wellformed ∧
      ∀ a, ¬ ((volume geo fs).setDir (((volume geo fs).inode p).blk 0)
        (source.dir.without j hlast)).Refers a (source.dir.idxAt j) := by
    generalize source.dir = dir at hsd hlt hlast
    subst hsd
    exact h.wellformed.unlink hpd hlt hlast
  rw [← hv₁] at hdirs hunlink
  refine ⟨p, hp, hat, hdir, hloses, ⟨hm₁, hunlink.1, ?_⟩, ⟨?_, ?_⟩, hdirs, hunlink.2⟩
  · rw [hdirs]
    refine DirTree.Every.update (P := Dir.Named) h.named (fun d hd => ?_) p
    cases hd
    exact hloses.named
  · rw [hv₁]
    rfl
  · rw [hv₁]
    rfl

/-- What a rename that goes on from there enters in the target's parent. -/
structure Relinked (geo : Geometry) (fs₁ fs' : Filesystem) (dst : CString) (target : Parent)
    (p i : ChisaiSize) (dir : Dir) : Prop where
  found : fsPathToParent fs₁ dst = .ok (.ok target)
  at_ : target.At (volume geo fs₁) p
  insert : dirInsert target.dir target.filePath i = .ok (true, dir)
  stored : volume geo fs' = (volume geo fs₁).setDir (((volume geo fs₁).inode p).blk 0) dir

theorem fsRenameFile_relinks (h : Orderly geo fs) (hl : ParentIsDir fs src) (hs : Proper src)
    (he : fsRenameFile fs src dst = .ok (r, fs')) :
    (r ≠ .ok ∧ fs' = fs) ∨ ∃ fs₁ source p i dir, unlinkedSource fs src = .ok (some fs₁) ∧
      Unlinked geo fs fs₁ src source p i dir ∧ ((r ≠ .ok ∧ fs' = fs₁) ∨
        (r = .ok ∧ ∃ target p₂ dir₂, Relinked geo fs₁ fs' dst target p₂ i dir₂)) := by
  rcases fsRenameFile_eq_ok he with
    ⟨hr, hfs, -⟩ | ⟨source, i, dir, fs₁, hp, h0, hrem, hsave, hcase⟩
  · exact Or.inl ⟨hr, hfs⟩
  have hu : unlinkedSource fs src = .ok (some fs₁) := by
    simp only [unlinkedSource, hp, hrem, h0, hsave, ok_bind, ↓reduceIte]
    rfl
  obtain ⟨p, hun⟩ := fsSaveDir_unlinks h hl hs hp h0 hrem hsave
  refine Or.inr ⟨fs₁, source, p, i, dir, hu, hun, ?_⟩
  rcases hcase with hfail | ⟨target, dir₂, ht, hins, hsave₂, hr⟩
  · exact Or.inl hfail
  · obtain ⟨p₂, hat, -⟩ := fsPathToParent_eq_ok hun.orderly.mounted ht
    obtain ⟨-, -, -, hv⟩ := fsSaveDir_spec hun.orderly.mounted hsave₂
    exact Or.inr ⟨hr, target, p₂, dir₂, ht, hat, hins, hat.dir_eq.2 ▸ hv⟩

theorem Relinked.cases {target : Parent} {i : ChisaiSize} {dir : Dir} (h : Orderly geo fs₁)
    (hd : Proper dst) (hr : Relinked geo fs₁ fs' dst target p i dir) :
    ((volume geo fs₁).IsDir p ∧ (volume geo fs₁).dirs p = some target.dir ∧
      target.dir.Gains target.filePath i dir ∧
      (volume geo fs').dirs = Function.update (volume geo fs₁).dirs p (some dir)) ∨
    (¬ (volume geo fs₁).IsDir p ∧ (volume geo fs').dirs = (volume geo fs₁).dirs) := by
  by_cases hp : (volume geo fs₁).IsDir p
  · left
    obtain ⟨-, hdir, hnamed⟩ := h.parentDir hr.at_ (hr.at_.inode ▸ hp.2)
    obtain ⟨q, -, hc, hlen⟩ := fsPathToParent_name hd hr.found
    have hgain := (hnamed.insert hc hlen hr.insert).resolve_left fun hc => Bool.noConfusion hc.1
    refine ⟨hp, hdir, hgain.2, ?_⟩
    rw [hr.stored]
    exact h.wellformed.dirs_setDir hp dir
  · right
    have ho : (volume geo fs₁).Owns (p, 0) (((volume geo fs₁).inode p).blk 0) :=
      ⟨hr.at_.used, rfl, hr.at_.blk_ne h.mounted⟩
    refine ⟨hp, ?_⟩
    rw [hr.stored]
    exact Volume.dirs_congr (fun j => Iff.rfl) fun j hj =>
      Volume.setDir_dir_of_ne dir (h.wellformed.dir_ne_of_owns ho hp j hj)

/-- The tree without a removed entry and without the directory that it may have named. -/
structure Removed (geo : Geometry) (fs fs' : Filesystem) (path : CString) (parent : Parent)
    (p i : ChisaiSize) (dir : Dir) : Prop where
  found : fsPathToParent fs path = .ok (.ok parent)
  at_ : parent.At (volume geo fs) p
  isDir : (volume geo fs).dirs p = some parent.dir
  loses : parent.dir.Loses parent.filePath i dir
  dirs : (volume geo fs').dirs =
    Function.update (Function.update (volume geo fs).dirs p (some dir)) i none

theorem fsRemoveFile_dirs (h : Orderly geo fs) (hl : ParentIsDir fs path) (hp : Proper path)
    (he : fsRemoveFile fs path = .ok (r, fs')) :
    (r ≠ .ok ∧ (volume geo fs').dirs = (volume geo fs).dirs) ∨
      (r = .ok ∧ ∃ parent p i dir, Removed geo fs fs' path parent p i dir) := by
  obtain ⟨-, hcase⟩ := fsRemoveFile_volume h.mounted he
  rcases hcase with ⟨hr, hv⟩ | ⟨hr, parent, p, j, hlast, hfound, hat, hj, -, hv⟩
  · exact Or.inl ⟨hr, by rw [hv]⟩
  · obtain ⟨hpd, hdir, hnamed⟩ := h.parentDir hat (hl parent hfound)
    obtain ⟨q, -, hc, -⟩ := fsPathToParent_name hp hfound
    rw [hat.dir_eq.2] at hv
    refine Or.inr ⟨hr, parent, p, _, _, hfound, hat, hdir, hnamed.loses hc.noNul hj hlast, ?_⟩
    rw [hv]
    exact h.wellformed.dirs_remove hpd _

section Parents

variable {q c : CString} {i p₂ : ChisaiSize} {dir : Dir}

theorem Orderly.parent_resolves (h : Orderly geo fs) (hpath : 0 ∉ path)
    (hs : strrchrSlash path = some (q, c)) (hq : (volume geo fs).dirs.Straight (strtokSlash q))
    (hf : fsPathToParent fs path = .ok (.ok parent)) :
    ∃ p, (volume geo fs).dirs.resolve (strtokSlash q) = some p ∧
      parent.inode = (volume geo fs).inode p ∧ p ∈ (volume geo fs).inodeUsed ∧
        parent.filePath = c := by
  obtain ⟨rfl, hc⟩ := strrchrSlash_eq_some.mp hs
  have hq0 : ∀ d ∈ strtokSlash q, 0 ∉ d := fun d hd =>
    (properName_of_token (fun h0 => hpath (by simp [h0])) hd).noNul
  rw [fsPathToParent_of_split hs] at hf
  split_ifs at hf with hlen
  obtain ⟨found, hget, hf⟩ := bind_eq_ok.mp hf
  cases found with
  | error e => cases hf
  | ok found =>
    obtain ⟨x, d⟩ := found
    cases hf
    unfold fsGetDirOf at hget
    rw [fsPathToInode_eq, h.shows.fsLookup_eq hq0 hq, ok_bind] at hget
    cases hr : (volume geo fs).dirs.resolve (strtokSlash q) with
    | none =>
      rw [hr] at hget
      cases hget
    | some p =>
      rw [hr, Option.map_some] at hget
      obtain ⟨found, -, hget⟩ := bind_eq_ok.mp hget
      cases found with
      | none => cases hget
      | some d' =>
        cases hget
        exact ⟨p, rfl, rfl, h.shows.resolve_used hr, rfl⟩

theorem Parent.At.unique (h : Orderly geo fs) (hat : parent.At (volume geo fs) p)
    (hi : parent.inode = (volume geo fs).inode p₂) (hu : p₂ ∈ (volume geo fs).inodeUsed) :
    p = p₂ := by
  have hk := hat.blk_ne h.mounted
  have ho : (volume geo fs).Owns (p, 0) (((volume geo fs).inode p).blk 0) := ⟨hat.used, rfl, hk⟩
  have ho₂ : (volume geo fs).Owns (p₂, 0) (((volume geo fs).inode p).blk 0) :=
    ⟨hu, by rw [← hi, hat.inode], hk⟩
  exact congrArg Prod.fst (h.wellformed.excl ho ho₂)

theorem Orderly.parent_of_resolve (h : Orderly geo fs) (hpath : 0 ∉ q ++ slash :: c)
    (hc : slash ∉ c) (hlen : c.length < chisaiFileLen)
    (hs : (volume geo fs).dirs.Straight (strtokSlash q))
    (hr : (volume geo fs).dirs.resolve (strtokSlash q) = some p)
    (hd : (volume geo fs).dirs p = some dir) :
    fsPathToParent fs (q ++ slash :: c) = .ok (.ok ⟨(volume geo fs).inode p, dir, c⟩) := by
  have hq : ∀ d ∈ strtokSlash q, 0 ∉ d := fun d hd =>
    (properName_of_token (fun h0 => hpath (by simp [h0])) hd).noNul
  have hl : fsLookup fs (strtokSlash q) = .ok (some (p, (volume geo fs).inode p)) := by
    rw [h.shows.fsLookup_eq hq hs, hr]
    rfl
  exact fsPathToParent_of_lookup hc hlen hl (h.shows.load p dir hd)

theorem proper_of (hpath : 0 ∉ q ++ slash :: c) (hc : slash ∉ c) (hne : c ≠ []) :
    Proper (q ++ slash :: c) :=
  ⟨hpath, (q, c), strrchrSlash_eq_some.mpr ⟨rfl, hc⟩, hne⟩

theorem parentIsDir_of {parent : Parent} {path : CString} (hd : (volume geo fs).dirs p = some dir)
    (hp : fsPathToParent fs path = .ok (.ok parent))
    (hx : parent.inode = (volume geo fs).inode p) : ParentIsDir fs path := by
  intro parent' hp'
  cases hp.symm.trans hp'
  rw [hx]
  exact (Volume.dirs_eq_some.mp hd).1.2

theorem Orderly.block_inRange (h : Orderly geo fs) (hd : (volume geo fs).dirs p = some dir) :
    geo.InRange ((volume geo fs).inode p).directBlks[0] := by
  obtain ⟨hp, -⟩ := Volume.dirs_eq_some.mp hd
  exact h.mounted.dataUsed_inRange (h.wellformed.marked (p, 0) _ ⟨hp.1, rfl, h.wellformed.dirBlock p hp⟩)

theorem Dir.Named.length_of_found (h : dir.Named) (hl : dir.entries.dlookup c = some i) :
    ProperName c ∧ c.length < chisaiFileLen := by
  obtain ⟨node, hnode, he⟩ := List.mem_map.mp (List.of_mem_dlookup hl)
  obtain ⟨hterm, hname⟩ := h.node node hnode
  cases he
  exact ⟨hname, DirNode.text_length hterm⟩

end Parents

theorem fsWriteFile_dirs (h : Orderly geo fs) {file file' : FileInfo} {buf : List UInt8} {off : ℕ}
    {ret : ℤ} (hf : FreshFile fs file)
    (hc : off % geo.span + buf.length ≤ directBlksNum * geo.blkSize)
    (he : fsWriteFile fs file buf off = .ok (ret, file', fs')) :
    (volume geo fs').dirs = (volume geo fs).dirs := by
  obtain ⟨-, c, hsteps, -, -, -, rfl, hv⟩ := fsWriteFile_confined h.mounted rfl hc he
  have hfirst := hf.carries h.mounted h.wellformed
  have hinode : (volume geo fs).setInode file.idx file.inode = volume geo fs := by
    rw [← ((FreshFile.iff h.mounted).mp hf).2.1]
    exact Volume.setInode_self
  have hrun : Volume.Carries file.idx c.vol c.inode ∧
      (c.vol.setInode file.idx c.inode).dirs = (volume geo fs).dirs := by
    clear hv he
    induction hsteps with
    | refl => exact ⟨hfirst, by rw [hinode]⟩
    | tail _ hs ih => exact ⟨ih.1.step hs, (ih.1.dirs_step hs).trans ih.2⟩
  rw [hv]
  exact (hrun.1.dirs_store _).trans hrun.2

theorem fsTruncateFile_dirs (h : Orderly geo fs) {file file' : FileInfo} {size : ℕ}
    (hf : FreshFile fs file) (he : fsTruncateFile fs file size = .ok (r, file', fs')) :
    (volume geo fs').dirs = (volume geo fs).dirs := by
  obtain ⟨-, -, v, inode, hsteps, rfl, hv⟩ := fsTruncateFile_eq_ok h.mounted he
  have hfirst := hf.carries h.mounted h.wellformed
  have hinode : (volume geo fs).setInode file.idx file.inode = volume geo fs := by
    rw [← ((FreshFile.iff h.mounted).mp hf).2.1]
    exact Volume.setInode_self
  have hrun : ∀ c, Relation.ReflTransGen Shrink (volume geo fs, file.inode) c →
      Volume.Carries file.idx c.1 c.2 ∧
        (c.1.setInode file.idx c.2).dirs = (volume geo fs).dirs := by
    intro c hc
    induction hc with
    | refl => exact ⟨hfirst, by rw [hinode]⟩
    | tail _ hs ih => exact ⟨ih.1.shrink hs, (ih.1.dirs_shrink hs).trans ih.2⟩
  obtain ⟨hc, hd⟩ := hrun _ hsteps
  rw [hv]
  exact (hc.dirs_store _).trans hd

end Effects

section Runs

variable {geo : Geometry} {fs fs' : Filesystem} {op : Op}

/-- What an operation that returns has done to the directories. -/
inductive Op.DidDirs (geo : Geometry) (fs fs' : Filesystem) : Op → Prop
  | same {op : Op} (hd : (volume geo fs').dirs = (volume geo fs).dirs) : DidDirs geo fs fs' op
  | entered {op : Op} {parent : Parent} {p i : ChisaiSize} {inserted : Bool} {dir : Dir}
      {made : Option Dir} (hdir : (volume geo fs).dirs p = some parent.dir)
      (hc : ProperName parent.filePath) (hlen : parent.filePath.length < chisaiFileLen)
      (h0 : dirFileInodeIdx parent.dir parent.filePath = .ok 0)
      (hi : i ∉ (volume geo fs).inodeUsed)
      (hins : dirInsert parent.dir parent.filePath i = .ok (inserted, dir))
      (hmade : ∀ d, made = some d → d = dirInit)
      (hd : (volume geo fs').dirs =
        Function.update (Function.update (volume geo fs).dirs p (some dir)) i made) :
      DidDirs geo fs fs' op
  | unlinked {src dst : CString} {fs₁ : Filesystem} {source : Parent} {p i : ChisaiSize} {dir : Dir}
      (hun : Unlinked geo fs fs₁ src source p i dir)
      (hd : (volume geo fs').dirs = (volume geo fs₁).dirs) : DidDirs geo fs fs' (.rename src dst)
  | relinked {src dst : CString} {fs₁ : Filesystem} {source target : Parent} {p q i : ChisaiSize}
      {dir dir' : Dir} (hu : unlinkedSource fs src = .ok (some fs₁))
      (hun : Unlinked geo fs fs₁ src source p i dir)
      (hfound : fsPathToParent fs₁ dst = .ok (.ok target))
      (hdir : (volume geo fs₁).dirs q = some target.dir) (hc : ProperName target.filePath)
      (hgain : target.dir.Gains target.filePath i dir')
      (hd : (volume geo fs').dirs = Function.update (volume geo fs₁).dirs q (some dir')) :
      DidDirs geo fs fs' (.rename src dst)
  | removed {path : CString} {parent : Parent} {p i : ChisaiSize} {dir : Dir}
      (hrm : Removed geo fs fs' path parent p i dir) : DidDirs geo fs fs' (.remove path)

theorem Op.did_dirs (h : Orderly geo fs) (hl : op.Lawful fs) (hn : op.Named)
    (hs : op.step fs = .ok fs') : op.DidDirs geo fs fs' := by
  cases op with
  | mkdir path mode =>
    obtain ⟨⟨r, _⟩, he, rfl⟩ := map_eq_ok.mp hs
    rcases fsMkdir_dirs h hl he with ⟨-, hd⟩ | ⟨-, parent, p, i, inserted, dir, hmade⟩
    · exact .same hd
    · obtain ⟨-, hdir, -⟩ := h.parentDir hmade.at_ (hl parent hmade.absent.1)
      obtain ⟨-, -, hc, hlen⟩ := fsPathToParent_name hn hmade.absent.1
      refine .entered hdir hc hlen hmade.absent.2 hmade.fresh hmade.insert (fun d hd => ?_) hmade.dirs
      split_ifs at hd
      exact (Option.some.inj hd).symm
  | create path mode =>
    obtain ⟨⟨r, file, _⟩, he, rfl⟩ := map_eq_ok.mp hs
    rcases fsCreateFile_dirs h hl.1 (not_sIsdir_of_sIsreg hl.2) he with
      ⟨-, hd⟩ | ⟨-, parent, p, inserted, dir, habs, hat, hi, hins, hd⟩
    · exact .same hd
    · obtain ⟨hp, hdir, -⟩ := h.parentDir hat (hl.1 parent habs.1)
      obtain ⟨-, -, hc, hlen⟩ := fsPathToParent_name hn habs.1
      -- The new inode is no directory.
      have hmade : ∀ d, (none : Option Dir) = some d → d = dirInit := fun d hd => by cases hd
      refine .entered hdir hc hlen habs.2 hi hins hmade ?_
      have hne : file.idx ≠ p := fun he => hi (he ▸ hp.1)
      have hnone : Function.update (volume geo fs).dirs p (some dir) file.idx = none := by
        rw [Function.update_of_ne hne, Volume.dirs_of_unused hi]
      rw [hd, ← hnone, Function.update_eq_self]
  | write file buf off =>
    obtain ⟨⟨ret, file', _⟩, he, rfl⟩ := map_eq_ok.mp hs
    have hrange := hl.2
    have hmod := Nat.mod_le off geo.span
    rw [h.mounted.blockSize] at hrange
    exact .same (fsWriteFile_dirs h hl.1 (by omega) he)
  | truncate file size =>
    obtain ⟨⟨r, file', _⟩, he, rfl⟩ := map_eq_ok.mp hs
    exact .same (fsTruncateFile_dirs h hl he)
  | rename src dst =>
    obtain ⟨⟨r, _⟩, he, rfl⟩ := map_eq_ok.mp hs
    rcases fsRenameFile_relinks h hl.1 hn.1 he with
      ⟨-, rfl⟩ | ⟨fs₁, source, p, i, dir, hu, hun, ⟨-, rfl⟩ | ⟨-, target, q, dir', hlink⟩⟩
    · exact .same rfl
    · exact .unlinked hun rfl
    · rcases hlink.cases hun.orderly hn.2 with ⟨-, hdir, hgain, hd⟩ | ⟨-, hd⟩
      · obtain ⟨-, -, hc, -⟩ := fsPathToParent_name hn.2 hlink.found
        exact .relinked hu hun hlink.found hdir hc hgain hd
      · exact .unlinked hun hd
  | remove path =>
    obtain ⟨⟨r, _⟩, he, rfl⟩ := map_eq_ok.mp hs
    rcases fsRemoveFile_dirs h hl hn he with ⟨-, hd⟩ | ⟨-, parent, p, i, dir, hrm⟩
    · exact .same hd
    · exact .removed hrm

theorem Op.step_every (h : Orderly geo fs) (hl : op.Lawful fs) (hn : op.Named)
    (hs : op.step fs = .ok fs') {P : Dir → Prop} (hold : (volume geo fs).dirs.Every P)
    (hnew : P dirInit)
    (hins : ∀ dir c i inserted dir', P dir → dir.Named → ProperName c → c.length < chisaiFileLen →
      c ∉ dir.entries.keys → dirInsert dir c i = .ok (inserted, dir') → P dir')
    (hre : ∀ src dst fs₁ target i dir', op = .rename src dst →
      unlinkedSource fs src = .ok (some fs₁) → fsPathToParent fs₁ dst = .ok (.ok target) →
      P target.dir → target.dir.Named → ProperName target.filePath →
      target.dir.Gains target.filePath i dir' → P dir')
    (hrem : ∀ dir c i dir', P dir → dir.Named → dir.Loses c i dir' → P dir') :
    (volume geo fs').dirs.Every P := by
  have hsome : ∀ {dir : Dir}, P dir → ∀ d, some dir = some d → P d := fun hd d he =>
    Option.some.inj he ▸ hd
  have hunlinked : ∀ {fs₁ src source p i dir}, Unlinked geo fs fs₁ src source p i dir →
      (volume geo fs₁).dirs.Every P := by
    intro fs₁ src source p i dir hun
    have hp := hrem _ _ _ _ (hold p _ hun.isDir) (h.named p _ hun.isDir) hun.loses
    rw [hun.dirs]
    exact hold.update (hsome hp) p
  cases op.did_dirs h hl hn hs with
  | same hd => rwa [hd]
  | @entered _ parent p i _ _ _ hdir hc hlen h0 _ hinsert hmade hd =>
    have hp := hins _ _ _ _ _ (hold p _ hdir) (h.named p _ hdir) hc hlen
      (h.absent hdir hc.noNul h0) hinsert
    rw [hd]
    exact (hold.update (hsome hp) p).update (fun d hm => hmade d hm ▸ hnew) i
  | unlinked hun hd =>
    rw [hd]
    exact hunlinked hun
  | @relinked src dst fs₁ _ target _ q _ _ _ hu hun hfound hdir hc hgain hd =>
    have hp := hre src dst fs₁ target _ _ rfl hu hfound (hunlinked hun q _ hdir)
      (hun.orderly.named q _ hdir) hc hgain
    rw [hd]
    exact (hunlinked hun).update (hsome hp) q
  | @removed _ _ p i _ hrm =>
    have hp := hrem _ _ _ _ (hold p _ hrm.isDir) (h.named p _ hrm.isDir) hrm.loses
    rw [hrm.dirs]
    exact (hold.update (hsome hp) p).update (fun d hd => by cases hd) i

theorem dirInit_named : dirInit.Named := by
  refine ⟨by decide, fun node hnode => ?_⟩
  have hnil : dirInit.nodes = [] := rfl
  rw [hnil] at hnode
  cases hnode

theorem Orderly.step (h : Orderly geo fs) (hl : op.Lawful fs) (hn : op.Named)
    (hs : op.step fs = .ok fs') : Orderly geo fs' := by
  obtain ⟨hm, hw⟩ := Op.step_wellformed h.mounted h.wellformed hl hs
  refine ⟨hm, hw, Op.step_every h hl hn hs h.named dirInit_named ?_ ?_ ?_⟩
  · exact fun dir c i inserted dir' _ hnamed hc hlen _ hins => hnamed.of_insert hc hlen hins
  · exact fun src dst fs₁ target i dir' _ _ _ _ _ _ hgain => hgain.named
  · exact fun dir c i dir' _ _ hloses => hloses.named

theorem freshMount_dirs (h : freshMount geo = .ok fs) :
    (volume geo fs).dirs.Every fun dir => dir = dirInit := by
  obtain ⟨hm, -, hw⟩ := freshMount_spec h
  obtain ⟨d, hd, he⟩ := bind_eq_ok.mp h
  obtain ⟨-, -, hv, -⟩ := fsInit_formatted (freshDisk_formatted hd) he
  intro i dir hdir
  obtain ⟨⟨hu, hmode⟩, rfl⟩ := Volume.dirs_eq_some.mp hdir
  clear hdir
  have hroot : i = rootInode := by
    rw [hv] at hu
    rcases hu with rfl | rfl | hu
    · rfl
    · rw [hw.bad] at hmode
      exact absurd hmode (by decide)
    · exact absurd hu (Set.notMem_empty i)
  rw [Volume.dirOf, hroot, hw.root, rootInodeRec_blk, if_pos rfl, hv]
  exact withRoot_dir _

theorem freshMount_orderly (h : freshMount geo = .ok fs) : Orderly geo fs := by
  obtain ⟨hm, -, hw⟩ := freshMount_spec h
  refine ⟨hm, hw, fun i dir hi => ?_⟩
  rw [freshMount_dirs h i dir hi]
  exact dirInit_named

theorem NamedReachable.orderly (h : NamedReachable geo fs) : Orderly geo fs := by
  obtain ⟨fs₀, hmount, hrun⟩ := h
  exact hrun.invariant (Orderly geo) (fun s op t h hl hs => h.step hl.1 hl.2 hs)
    (freshMount_orderly hmount)

theorem exists_named (ops : List Op) {p : Filesystem → Prop} [DecidablePred p]
    (h : Yields (freshMount smallDisk) fun fs =>
      ((runAllowed Op.step (fun s op => op.Lawful s ∧ op.Named) fs ops).any fun s =>
        decide (p s)) = true) :
    ∃ fs, NamedReachable smallDisk fs ∧ p fs := by
  obtain ⟨fs₀, fs, hmount, hrun, hp⟩ := exists_run id ops h
  exact ⟨fs, ⟨fs₀, hmount, hrun⟩, hp⟩

end Runs

end ChisaiFs
