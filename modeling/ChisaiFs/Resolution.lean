import ChisaiFs.Tree
import ChisaiFs.Runs

/-! The two path resolvers of the code, read as walks in the directory tree. Neither checks
that what it passes through is a directory; they agree on the paths on which the kernel has. -/

namespace ChisaiFs
open Outcome SwapRemoval Walks

/-- `fs_path_to_inode` on the components of a path. -/
def fsLookup (fs : Filesystem) (path : List CString) : Exec (Option (ChisaiSize × Inode)) := do
  match ← fsFindInode fs rootInode with
  | none => return none
  | some inode => fsWalk fs path rootInode inode

/-- The index that `fs_path_to_inode` returns, without the inode. -/
def fsPathIndex (fs : Filesystem) (path : CString) : Exec (Option ChisaiSize) :=
  Option.map Prod.fst <$> fsPathToInode fs path

def LeadsToDir (fs : Filesystem) (path : List CString) : Prop :=
  Finds (fsLookup fs path) fun r => sIsdir r.2.mode

def ThroughDirs (fs : Filesystem) (path : List CString) : Prop :=
  ∀ pre ∈ path.inits, pre ≠ path → LeadsToDir fs pre

instance (fs : Filesystem) (path : List CString) : Decidable (LeadsToDir fs path) :=
  inferInstanceAs (Decidable (Finds _ _))

instance (fs : Filesystem) (path : List CString) : Decidable (ThroughDirs fs path) :=
  inferInstanceAs (Decidable (∀ _ ∈ _, _))

theorem fsPathToInode_eq {fs : Filesystem} (p : CString) :
    fsPathToInode fs p = fsLookup fs (strtokSlash p) := rfl

section Prefixes

variable {α : Type*} {pre path : List α} {c : α}

theorem prefix_of_concat (h : pre ++ [c] <+: path) : pre <+: path ∧ pre ≠ path := by
  refine ⟨(List.prefix_append pre [c]).trans h, fun he => ?_⟩
  have hlen := h.length_le
  rw [he, List.length_append, List.length_singleton] at hlen
  omega

theorem exists_next (h : pre <+: path) (hne : pre ≠ path) : ∃ c, pre ++ [c] <+: path := by
  obtain ⟨rest, rfl⟩ := h
  cases rest with
  | nil => exact absurd (List.append_nil pre).symm hne
  | cons c rest => exact ⟨c, rest, by simp⟩

end Prefixes

section LastStep

variable {geo : Geometry} {fs fs' : Filesystem} {xs ys : List CString} {q c path : CString}
  {i p : ChisaiSize} {x : Inode} {mode : UInt32} {r : ChisaiError} {parent : Parent}

theorem fsWalk_append : fsWalk fs (xs ++ ys) i x =
    fsWalk fs xs i x >>= fun r => r.elim (.ok none) fun r => fsWalk fs ys r.1 r.2 := by
  induction xs generalizing i x with
  | nil => rfl
  | cons token xs ih =>
    rw [List.cons_append, fsWalk, fsWalk, bind_assoc]
    congr
    funext found
    cases found with
    | none => rfl
    | some dir =>
      dsimp only
      rw [bind_assoc]
      congr
      funext j
      by_cases hj : j = 0
      · simp only [hj, ↓reduceIte]
        rfl
      · simp only [hj, ↓reduceIte]
        rw [bind_assoc]
        congr
        funext found
        cases found with
        | none => rfl
        | some inode => exact ih

theorem fsLookup_append : fsLookup fs (xs ++ ys) =
    fsLookup fs xs >>= fun r => r.elim (.ok none) fun r => fsWalk fs ys r.1 r.2 := by
  unfold fsLookup
  rw [bind_assoc]
  congr
  funext found
  cases found with
  | none => rfl
  | some inode => exact fsWalk_append

theorem LeadsToDir.exists (hm : Mounted geo fs) (hw : (volume geo fs).Wellformed)
    (h : LeadsToDir fs xs) : ∃ p, (volume geo fs).IsDir p ∧
      fsLookup fs xs = .ok (some (p, (volume geo fs).inode p)) ∧
      fsFindDir fs ((volume geo fs).inode p).directBlks[0] =
        .ok (some ((volume geo fs).dirOf p)) := by
  obtain ⟨⟨p, x⟩, hl, hd⟩ := h
  have hwalk := hl
  rw [fsLookup, fsFindInode_of_used hm hw.rootUsed, ok_bind] at hwalk
  obtain ⟨hp, rfl⟩ := fsWalk_eq_some hm ⟨hw.rootUsed, rfl⟩ hwalk
  have hdir : (volume geo fs).IsDir p := ⟨hp, hd⟩
  have hblk := hw.marked (p, 0) _ ⟨hp, rfl, hw.dirBlock p hdir⟩
  exact ⟨p, hdir, hl, fsFindDir_of_used hm hblk⟩

theorem fsPathToParent_of_lookup {dir : Dir} (hc : slash ∉ c) (hlen : c.length < chisaiFileLen)
    (hl : fsLookup fs (strtokSlash q) = .ok (some (p, x)))
    (hd : fsFindDir fs x.directBlks[0] = .ok (some dir)) :
    fsPathToParent fs (q ++ slash :: c) = .ok (.ok ⟨x, dir, c⟩) := by
  have hget : fsGetDirOf fs q = .ok (.ok (x, dir)) := by
    unfold fsGetDirOf
    rw [fsPathToInode_eq, hl, ok_bind]
    dsimp only
    rw [hd]
    rfl
  rw [fsPathToParent_of_split (strrchrSlash_eq_some.mpr ⟨rfl, hc⟩), if_neg (not_le.mpr hlen), hget]
  rfl

theorem Volume.Wellformed.used_of_found {v : Volume} (hw : v.Wellformed) (hp : v.IsDir p)
    (hi : dirFileInodeIdx (v.dirOf p) c = .ok i) (h0 : i ≠ 0) : i ∈ v.inodeUsed := by
  rcases dirFileInodeIdx_eq_ok hi with ⟨-, rfl⟩ | ⟨j, hj, rfl⟩
  · exact absurd rfl h0
  · exact (hw.refUsed (p, j) _ ⟨hp, dirFind_lt hj, rfl⟩).1

theorem fsWalk_name (hm : Mounted geo fs) (hw : (volume geo fs).Wellformed)
    (hp : (volume geo fs).IsDir p)
    (hd : fsFindDir fs ((volume geo fs).inode p).directBlks[0] =
      .ok (some ((volume geo fs).dirOf p))) :
    fsWalk fs [c] p ((volume geo fs).inode p) =
      (fun i => if i = 0 then none else some (i, (volume geo fs).inode i)) <$>
        dirFileInodeIdx ((volume geo fs).dirOf p) c := by
  unfold fsWalk
  rw [hd, ok_bind]
  dsimp only
  cases hi : dirFileInodeIdx ((volume geo fs).dirOf p) c with
  | error e => rfl
  | ok i =>
    by_cases h0 : i = 0
    · subst h0
      rfl
    · simp only [ok_bind, h0, ↓reduceIte, fsFindInode_of_used hm (hw.used_of_found hp hi h0)]
      exact congrArg Except.ok (if_neg h0).symm

theorem fsMkdir_eexist (hp : fsPathToParent fs path = .ok (.ok parent))
    (he : fsMkdir fs path mode = .ok (r, fs')) :
    ∃ i, dirFileInodeIdx parent.dir parent.filePath = .ok i ∧ (r = .eexist ↔ i ≠ 0) := by
  unfold fsMkdir at he
  rw [hp, ok_bind] at he
  obtain ⟨i, hi, he⟩ := bind_eq_ok.mp he
  refine ⟨i, hi, ?_⟩
  split_ifs at he with h0
  · cases he
    simp [h0]
  · have hr : r ≠ .eexist := by
      obtain ⟨⟨k, fs₁⟩, -, he⟩ := bind_eq_ok.mp he
      dsimp only at he
      split_ifs at he
      · cases he
        decide
      · obtain ⟨⟨j, fs₂⟩, -, he⟩ := bind_eq_ok.mp he
        dsimp only at he
        split_ifs at he
        · cases he
          decide
        · obtain ⟨_, -, he⟩ := bind_eq_ok.mp he
          obtain ⟨_, -, he⟩ := bind_eq_ok.mp he
          obtain ⟨_, -, he⟩ := bind_eq_ok.mp he
          obtain ⟨_, -, he⟩ := bind_eq_ok.mp he
          cases he
          decide
    simp [hr, not_not.mp h0]

theorem fsCreateFile_eexist (hp : fsPathToParent fs path = .ok (.ok parent)) {file file' : FileInfo}
    (he : fsCreateFile fs path mode file = .ok (r, file', fs')) :
    ∃ i, dirFileInodeIdx parent.dir parent.filePath = .ok i ∧ (r = .eexist ↔ i ≠ 0) := by
  unfold fsCreateFile at he
  rw [hp, ok_bind] at he
  obtain ⟨i, hi, he⟩ := bind_eq_ok.mp he
  refine ⟨i, hi, ?_⟩
  split_ifs at he with h0
  · cases he
    simp [h0]
  · have hr : r ≠ .eexist := by
      obtain ⟨⟨j, fs₁⟩, -, he⟩ := bind_eq_ok.mp he
      dsimp only at he
      split_ifs at he
      · cases he
        decide
      · obtain ⟨_, -, he⟩ := bind_eq_ok.mp he
        obtain ⟨_, -, he⟩ := bind_eq_ok.mp he
        obtain ⟨_, -, he⟩ := bind_eq_ok.mp he
        cases he
        decide
    simp [hr, not_not.mp h0]

theorem fsGetMetadata_iff : (∃ info, fsGetMetadata fs path = .ok (.ok info)) ↔
    ∃ r, fsPathToInode fs path = .ok (some r) := by
  constructor
  · rintro ⟨info, he⟩
    obtain ⟨found, hf, he⟩ := bind_eq_ok.mp he
    cases found with
    | none => cases he
    | some r => exact ⟨r, hf⟩
  · rintro ⟨⟨i, x⟩, hf⟩
    exact ⟨⟨x, i⟩, by rw [fsGetMetadata, hf]; rfl⟩

/-- `fs_path_to_inode` and `fs_path_to_parent` agree on every name in a directory, and the
creating operations find a name taken exactly where `fs_get_metadata` finds it. -/
theorem resolvers_agree (h : Reachable geo fs) (hne : c ≠ []) (hc : slash ∉ c)
    (hlen : c.length < chisaiFileLen) (hq : LeadsToDir fs (strtokSlash q)) :
    (∀ i, i ≠ 0 → (fsPathIndex fs (q ++ slash :: c) = .ok (some i) ↔
      ∃ parent, fsPathToParent fs (q ++ slash :: c) = .ok (.ok parent) ∧
        dirFileInodeIdx parent.dir parent.filePath = .ok i)) ∧
    (∃ p x dir, fsPathToInode fs q = .ok (some (p, x)) ∧
      fsPathToInode fs (q ++ slash :: c) = fsWalk fs [c] p x ∧
      fsFindDir fs x.directBlks[0] = .ok (some dir) ∧
      fsPathToParent fs (q ++ slash :: c) = .ok (.ok ⟨x, dir, c⟩)) ∧
    (∀ mode r fs', fsMkdir fs (q ++ slash :: c) mode = .ok (r, fs') →
      (r = .eexist ↔ ∃ info, fsGetMetadata fs (q ++ slash :: c) = .ok (.ok info))) ∧
    ∀ mode file r file' fs', fsCreateFile fs (q ++ slash :: c) mode file = .ok (r, file', fs') →
      (r = .eexist ↔ ∃ info, fsGetMetadata fs (q ++ slash :: c) = .ok (.ok info)) := by
  obtain ⟨hm, hw⟩ := h.wellformed
  obtain ⟨p, hp, hl, hd⟩ := hq.exists hm hw
  have hparent := fsPathToParent_of_lookup hc hlen hl hd
  have hlast : fsPathToInode fs (q ++ slash :: c) = fsWalk fs [c] p ((volume geo fs).inode p) := by
    rw [fsPathToInode_eq, strtokSlash_append, strtokSlash_name hc hne, fsLookup_append, hl]
    rfl
  have hname := hlast.trans (fsWalk_name (c := c) hm hw hp hd)
  have hmeta : ∀ i, dirFileInodeIdx ((volume geo fs).dirOf p) c = .ok i →
      (i ≠ 0 ↔ ∃ info, fsGetMetadata fs (q ++ slash :: c) = .ok (.ok info)) := by
    intro i hi
    rw [fsGetMetadata_iff, hname, hi]
    by_cases h0 : i = 0
    · simp [h0, Functor.map, Except.map]
    · simp [h0, Functor.map, Except.map]
  refine ⟨fun i h0 => ?_, ⟨p, _, _, hl, hlast, hd, hparent⟩, fun mode r fs' he => ?_,
    fun mode file r file' fs' he => ?_⟩
  · rw [fsPathIndex, hname, hparent]
    constructor
    · intro hi
      obtain ⟨found, hf, hi⟩ := map_eq_ok.mp hi
      obtain ⟨j, hj, rfl⟩ := map_eq_ok.mp hf
      split_ifs at hi with hj0
      · cases hi
      · cases hi
        exact ⟨_, rfl, hj⟩
    · rintro ⟨parent, hpar, hi⟩
      cases hpar
      rw [hi]
      simp [Functor.map, Except.map, h0]
  · obtain ⟨i, hi, hr⟩ := fsMkdir_eexist hparent he
    exact hr.trans (hmeta i hi)
  · obtain ⟨i, hi, hr⟩ := fsCreateFile_eexist hparent he
    exact hr.trans (hmeta i hi)

/-- The file of `oneFile` in its directory. -/
theorem resolvers_agree_oneFile :
    ∃ fs, Reachable smallDisk fs ∧ (fsPathIndex fs ([47, 100] ++ slash :: [102]) = .ok (some 4) ↔
      ∃ parent, fsPathToParent fs ([47, 100] ++ slash :: [102]) = .ok (.ok parent) ∧
        dirFileInodeIdx parent.dir parent.filePath = .ok 4) := by
  have hrun : ∃ fs, Reachable smallDisk fs ∧ LeadsToDir fs (strtokSlash [47, 100]) := by
    apply exists_reachable oneFile
    decide +kernel
  obtain ⟨fs, h, hq⟩ := hrun
  exact ⟨fs, h, (resolvers_agree h (by decide) (by decide) (by decide) hq).1 4 (by decide)⟩

end LastStep

/-- A mounted file system whose volume is well formed and whose directories have names. -/
structure Orderly (geo : Geometry) (fs : Filesystem) : Prop where
  mounted : Mounted geo fs
  wellformed : (volume geo fs).Wellformed
  named : ∀ i dir, (volume geo fs).dirs i = some dir → dir.Named

/-- The directories of the tree are those that the code loads. -/
structure Shows (geo : Geometry) (fs : Filesystem) (t : DirTree) : Prop where
  mounted : Mounted geo fs
  rootUsed : rootInode ∈ (volume geo fs).inodeUsed
  load : ∀ i dir, t i = some dir →
    fsFindDir fs ((volume geo fs).inode i).directBlks[0] = .ok (some dir)
  named : ∀ i dir, t i = some dir → dir.Named
  used : ∀ i c j, t.child i c = some j → j ∈ (volume geo fs).inodeUsed

section Lookups

variable {geo : Geometry} {fs fs' : Filesystem} {t t' : DirTree} {path : List CString}
  {i : ChisaiSize} {dir : Dir}

theorem Orderly.shows (h : Orderly geo fs) : Shows geo fs (volume geo fs).dirs where
  mounted := h.mounted
  rootUsed := h.wellformed.rootUsed
  load i dir hdir := by
    obtain ⟨hi, rfl⟩ := Volume.dirs_eq_some.mp hdir
    have hblk := h.wellformed.dirBlock i hi
    exact fsFindDir_of_used h.mounted (h.wellformed.marked (i, 0) _ ⟨hi.1, rfl, hblk⟩)
  named := h.named
  used i c j hc := (h.wellformed.child_used hc).1

theorem Shows.fsWalk_eq (h : Shows geo fs t) (hi : i ∈ (volume geo fs).inodeUsed)
    (hc : ∀ c ∈ path, 0 ∉ c)
    (hs : ∀ pre c j, pre ++ [c] <+: path → walk t.child i pre = some j → ∃ dir, t j = some dir) :
    fsWalk fs path i ((volume geo fs).inode i) =
      .ok ((walk t.child i path).map fun j => (j, (volume geo fs).inode j)) := by
  induction path generalizing i with
  | nil => rfl
  | cons c rest ih =>
    obtain ⟨dir, hdir⟩ := hs [] c i ⟨rest, rfl⟩ rfl
    have hidx := dirFileInodeIdx_spec (h.named i dir hdir).ended (hc c List.mem_cons_self)
    have hchild : t.child i c = dir.entries.dlookup c := by
      rw [DirTree.child, hdir, Option.bind_some]
    unfold fsWalk
    rw [h.load i dir hdir, ok_bind]
    dsimp only
    rw [hidx, ok_bind, walk_cons, hchild]
    cases hlook : dir.entries.dlookup c with
    | none => rfl
    | some j =>
      have hj := h.used i c j (hchild.trans hlook)
      have hj0 := (h.mounted.inodeUsed_inRange hj).1
      simp only [Option.getD_some, hj0, ↓reduceIte, fsFindInode_of_used h.mounted hj, ok_bind]
      refine ih hj (fun d hd => hc d (List.mem_cons_of_mem c hd)) fun pre d k hpre hk => ?_
      refine hs (c :: pre) d k ?_ ?_
      · rw [List.cons_append]
        exact List.cons_prefix_cons.mpr ⟨rfl, hpre⟩
      · rw [walk_cons, hchild, hlook]
        exact hk

theorem Shows.fsLookup_eq (h : Shows geo fs t) (hc : ∀ c ∈ path, 0 ∉ c) (hs : t.Straight path) :
    fsLookup fs path =
      .ok ((t.resolve path).map fun j => (j, (volume geo fs).inode j)) := by
  unfold fsLookup
  rw [fsFindInode_of_used h.mounted h.rootUsed, ok_bind]
  exact h.fsWalk_eq h.rootUsed hc hs

theorem fsPathIndex_eq (h : Shows geo fs t) {path : CString} (hpath : 0 ∉ path)
    (hs : t.Straight (strtokSlash path)) :
    fsPathIndex fs path = .ok (t.resolve (strtokSlash path)) := by
  have hc : ∀ c ∈ strtokSlash path, 0 ∉ c := fun c hc => (properName_of_token hpath hc).noNul
  rw [fsPathIndex, fsPathToInode_eq, h.fsLookup_eq hc hs]
  cases t.resolve (strtokSlash path) <;> rfl

/-- Every proper prefix of the path leads to a directory of the tree. -/
def DirTree.Through (t : DirTree) (path : List CString) : Prop :=
  ∀ pre c, pre ++ [c] <+: path → ∃ i dir, t.resolve pre = some i ∧ t i = some dir

theorem DirTree.Through.straight (h : t.Through path) : t.Straight path := by
  intro pre c i hpre hi
  obtain ⟨j, dir, hj, hdir⟩ := h pre c hpre
  cases hi.symm.trans hj
  exact ⟨dir, hdir⟩

theorem DirTree.Through.sub (h : t.Through path) {pre : List CString} (hpre : pre <+: path) :
    t.Through pre := fun xs c hxs => h xs c (hxs.trans hpre)

theorem DirTree.Through.concat (h : t.Through path) (hi : t.resolve path = some i)
    (hd : t i = some dir) (c : CString) : t.Through (path ++ [c]) := by
  intro pre y hpre
  rcases List.prefix_concat_iff.mp hpre with he | hsub
  · obtain ⟨rfl, -⟩ := List.append_inj' he rfl
    exact ⟨i, dir, hi, hd⟩
  · exact h pre y hsub

theorem Shows.resolve_used (h : Shows geo fs t) (hi : t.resolve path = some i) :
    i ∈ (volume geo fs).inodeUsed := by
  cases path using List.reverseRecOn with
  | nil =>
    cases hi
    exact h.rootUsed
  | append_singleton pre c =>
    obtain ⟨j, -, hj⟩ := walk_concat_eq_some.mp hi
    exact h.used j c i hj

theorem Orderly.through (h : Orderly geo fs) (hc : ∀ c ∈ path, 0 ∉ c) (hp : ThroughDirs fs path) :
    (volume geo fs).dirs.Through path := by
  intro pre
  induction hn : pre.length using Nat.strong_induction_on generalizing pre with
  | _ n ih =>
    intro c hpre
    obtain ⟨hsub, hne⟩ := prefix_of_concat hpre
    have hs : (volume geo fs).dirs.Straight pre := by
      intro xs d i hxs hi
      have hlen := hxs.length_le
      rw [List.length_append, List.length_singleton] at hlen
      obtain ⟨j, dir, hj, hdir⟩ := ih xs.length (by omega) xs rfl d (hxs.trans hsub)
      cases hi.symm.trans hj
      exact ⟨dir, hdir⟩
    obtain ⟨⟨i, x⟩, hl, hd⟩ := hp pre ((List.mem_inits _ _).mpr hsub) hne
    rw [h.shows.fsLookup_eq (fun d hd => hc d (hsub.subset hd)) hs] at hl
    obtain ⟨j, hj, he⟩ := Option.map_eq_some_iff.mp (Except.ok.inj hl)
    cases he
    exact ⟨i, _, hj, Volume.dirs_of_isDir ⟨h.shows.resolve_used hj, hd⟩⟩

theorem Orderly.throughDirs (h : Orderly geo fs) (hc : ∀ c ∈ path, 0 ∉ c)
    (hp : (volume geo fs).dirs.Through path) : ThroughDirs fs path := by
  intro pre hpre hne
  rw [List.mem_inits] at hpre
  obtain ⟨x, hx⟩ := exists_next hpre hne
  obtain ⟨i, dir, hi, hdir⟩ := hp pre x hx
  refine ⟨(i, (volume geo fs).inode i), ?_, (Volume.dirs_eq_some.mp hdir).1.2⟩
  rw [h.shows.fsLookup_eq (fun d hd => hc d (hpre.subset hd)) (hp.sub hpre).straight, hi]
  rfl

theorem Shows.fsPathIndex_congr (h : Shows geo fs t) (h' : Shows geo fs' t') {path : CString}
    (hpath : 0 ∉ path) (ht : t.Through (strtokSlash path))
    (hres : ∀ pre, pre <+: strtokSlash path → t'.resolve pre = t.resolve pre)
    (hdir : ∀ pre c i, pre ++ [c] <+: strtokSlash path → t.resolve pre = some i →
      ∃ dir, t' i = some dir) : fsPathIndex fs' path = fsPathIndex fs path := by
  have hs' : t'.Straight (strtokSlash path) := by
    intro pre c i hpre hi
    rw [hres pre (prefix_of_concat hpre).1] at hi
    exact hdir pre c i hpre hi
  rw [fsPathIndex_eq h hpath ht.straight, fsPathIndex_eq h' hpath hs',
    hres _ (List.prefix_refl _)]

end Lookups

end ChisaiFs
