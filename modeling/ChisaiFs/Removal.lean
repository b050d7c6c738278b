import ChisaiFs.Creation

/-! Removing. One entry goes, with the inode that it names and the first block of that inode.
What lies below a removed directory is not found again. -/

namespace ChisaiFs
open Outcome SwapRemoval Walks

/-- Only the path stops leading anywhere, and only its inode and the first block are freed. -/
structure RemovesPath (geo : Geometry) (fs fs' : Filesystem) (path : CString) (x : Inode)
    (i : ChisaiSize) : Prop where
  gone : fsPathIndex fs' path = .ok none
  freed : blkgrpsInodeExist fs'.blkGrps i = .ok false
  inodeBits : ∀ j, geo.InRange j → j ≠ i →
    blkgrpsInodeExist fs'.blkGrps j = blkgrpsInodeExist fs.blkGrps j
  dataBits : ∀ k, geo.InRange k → k ≠ getElem x.directBlks 0 directBlksNum_pos →
    blkgrpsDataExist fs'.blkGrps k = blkgrpsDataExist fs.blkGrps k
  others : ∀ p, 0 ∉ p → strtokSlash p ≠ strtokSlash path → ThroughDirs fs (strtokSlash p) →
    fsPathIndex fs' p = fsPathIndex fs p

def Reached (fs : Filesystem) (i : ChisaiSize) : Prop :=
  ∃ path, 0 ∉ path ∧ ThroughDirs fs (strtokSlash path) ∧ fsPathIndex fs path = .ok (some i)

/-- The last entry, moved into the place of the removed one, hides no entry of its own name. -/
def Dir.HidesNothing (dir : Dir) (c : CString) : Prop :=
  Unshadowing c (dir.entries.takeWhile (·.1 ≠ c)) (dir.entries.dropWhile (·.1 ≠ c)).tail

section Detachment

variable {geo : Geometry} {fs fs' : Filesystem} {q c path : CString} {p i j k n : ChisaiSize}
  {dir dir' d : Dir} {x : CString} {xs : List CString}

theorem blkgrpsInodeExist_congr (h : Mounted geo fs) (h' : Mounted geo fs') (hi : geo.InRange i)
    (hiff : i ∈ (volume geo fs').inodeUsed ↔ i ∈ (volume geo fs).inodeUsed) :
    blkgrpsInodeExist fs'.blkGrps i = blkgrpsInodeExist fs.blkGrps i := by
  by_cases hu : i ∈ (volume geo fs).inodeUsed
  · rw [blkgrpsInodeExist_of_used h hu, blkgrpsInodeExist_of_used h' (hiff.mpr hu)]
  · rw [blkgrpsInodeExist_of_unused h hi hu,
      blkgrpsInodeExist_of_unused h' hi fun hu' => hu (hiff.mp hu')]

theorem blkgrpsDataExist_congr (h : Mounted geo fs) (h' : Mounted geo fs') (hk : geo.InRange k)
    (hiff : k ∈ (volume geo fs').dataUsed ↔ k ∈ (volume geo fs).dataUsed) :
    blkgrpsDataExist fs'.blkGrps k = blkgrpsDataExist fs.blkGrps k := by
  obtain ⟨r, hr⟩ := blkgrpsDataExist_of_inRange h hk
  obtain ⟨r', hr'⟩ := blkgrpsDataExist_of_inRange h' hk
  rw [hr, hr']
  have hsame := (blkgrpsDataExist_eq_ok h' hr').trans (hiff.trans (blkgrpsDataExist_eq_ok h hr).symm)
  exact congrArg Except.ok (Bool.eq_iff_iff.mpr hsame)

structure Detached (geo : Geometry) (fs fs' : Filesystem) (q c : CString) (p i : ChisaiSize)
    (dir dir' : Dir) : Prop where
  orderly : Orderly geo fs'
  parent : (volume geo fs).dirs.resolve (strtokSlash q) = some p ∧ (volume geo fs).dirs p = some dir
  found : fsPathToParent fs (q ++ slash :: c) = .ok (.ok ⟨(volume geo fs).inode p, dir, c⟩)
  loses : dir.Loses c i dir'
  dirs : (volume geo fs').dirs =
    Function.update (Function.update (volume geo fs).dirs p (some dir')) i none
  inodes : (volume geo fs').inodeUsed = (volume geo fs).inodeUsed \ {i}
  blocks : (volume geo fs').dataUsed =
    (volume geo fs).dataUsed \ {((volume geo fs).inode i).directBlks[0]}

theorem Orderly.detaches (h : Orderly geo fs) (hpath : 0 ∉ q ++ slash :: c) (hc : slash ∉ c)
    (hne : c ≠ []) (ht : (volume geo fs).dirs.Through (strtokSlash q ++ [c]))
    (hi : (volume geo fs).dirs.resolve (strtokSlash q ++ [c]) = some i) :
    ∃ fs' p dir dir', fsRemoveFile fs (q ++ slash :: c) = .ok (.ok, fs') ∧
      Detached geo fs fs' q c p i dir dir' := by
  obtain ⟨p, hp, hchild⟩ := walk_concat_eq_some.mp hi
  obtain ⟨dir, hdir, hentry⟩ := Option.bind_eq_some_iff.mp hchild
  have hnamed := h.named p dir hdir
  obtain ⟨hname, hlen⟩ := hnamed.length_of_found hentry
  obtain ⟨dir', hrem, hloses⟩ : ∃ dir', dirRemove dir c = .ok (i, dir') ∧ dir.Loses c i dir' := by
    rcases dirRemove_spec hnamed hname.noNul with ⟨-, hkeys⟩ | ⟨j, dir', hrem, hloses⟩
    · cases (List.dlookup_eq_none.mpr hkeys).symm.trans hentry
    · cases hloses.found.symm.trans hentry
      exact ⟨dir', hrem, hloses⟩
  have hq := (ht.sub (List.prefix_append (strtokSlash q) [c])).straight
  have hfound := h.parent_of_resolve hpath hc hlen hq hp hdir
  have hu := h.shows.used p c i hchild
  have hk : ((volume geo fs).inode i).directBlks[0] ≠ 0 →
      geo.InRange ((volume geo fs).inode i).directBlks[0] := fun h0 =>
    h.mounted.dataUsed_inRange (h.wellformed.marked (i, 0) _ ⟨hu, rfl, h0⟩)
  obtain ⟨fs₁, h₁⟩ := fsDataRelease_ok h.mounted hk
  obtain ⟨hm₁, -, hv₁⟩ := fsDataRelease_spec h.mounted h₁
  obtain ⟨fs₂, h₂⟩ := fsInodeRelease_ok hm₁ (h.mounted.inodeUsed_inRange hu)
  obtain ⟨hm₂, -, hv₂⟩ := fsInodeRelease_spec hm₁ h₂
  obtain ⟨fs', h₃⟩ := fsSaveDir_ok hm₂ dir' (h.block_inRange hdir)
  obtain ⟨-, -, -, hv₃⟩ := fsSaveDir_spec hm₂ h₃
  have he : fsRemoveFile fs (q ++ slash :: c) = .ok (.ok, fs') := by
    unfold fsRemoveFile
    simp only [hfound, hrem, fsFindInode_of_used h.mounted hu, h₁, h₂, h₃, ok_bind]
    rfl
  have hstep : (Op.remove (q ++ slash :: c)).step fs = .ok fs' := map_eq_ok.mpr ⟨_, he, rfl⟩
  have hl : (Op.remove (q ++ slash :: c)).Lawful fs := parentIsDir_of hdir hfound rfl
  have hproper : (Op.remove (q ++ slash :: c)).Named := proper_of hpath hc hne
  rw [hv₂, hv₁] at hv₃
  refine ⟨fs', p, dir, dir', he, h.step hl hproper hstep, ⟨hp, hdir⟩, hfound, hloses, ?_, ?_, ?_⟩
  · rw [hv₃]
    exact h.wellformed.dirs_remove (Volume.dirs_eq_some.mp hdir).1 _
  · rw [hv₃]
    rfl
  · rw [hv₃]
    rfl

theorem Detached.child (h : Detached geo fs fs' q c p i dir dir') :
    (volume geo fs).dirs.child p c = some i :=
  (DirTree.child_of h.parent.2).trans h.loses.found

theorem Detached.resolve (h : Detached geo fs fs' q c p i dir dir') :
    (volume geo fs).dirs.resolve (strtokSlash q ++ [c]) = some i :=
  walk_concat_eq_some.mpr ⟨p, h.parent.1, h.child⟩

theorem Detached.ne (h : Detached geo fs fs' q c p i dir dir') (ho : Orderly geo fs) : i ≠ p := by
  rintro rfl
  have hlen := congrArg List.length (ho.wellformed.rooted.walk_inj h.parent.1 h.resolve)
  simp at hlen

theorem Detached.entry (h : Detached geo fs fs' q c p i dir dir')
    (hn : (volume geo fs').dirs n = some d) :
    n ≠ i ∧ ∃ d₀, (volume geo fs).dirs n = some d₀ ∧ d.entries ⊆ d₀.entries := by
  rw [h.dirs] at hn
  have hni : n ≠ i := by
    rintro rfl
    rw [Function.update_self] at hn
    cases hn
  rw [Function.update_of_ne hni] at hn
  refine ⟨hni, ?_⟩
  by_cases hnp : n = p
  · subst hnp
    rw [Function.update_self] at hn
    cases hn
    refine ⟨dir, h.parent.2, fun e he => ?_⟩
    obtain ⟨l₁, l₂, hsplit, -, hentries⟩ := h.loses.split
    rw [hentries, ((lastFirst_perm l₂).append_left l₁).mem_iff] at he
    rw [hsplit, List.mem_append, List.mem_cons]
    exact (List.mem_append.mp he).imp_right Or.inr
  · rw [Function.update_of_ne hnp] at hn
    exact ⟨d, hn, List.Subset.refl _⟩

theorem Detached.exists_dir (h : Detached geo fs fs' q c p i dir dir')
    (hn : (volume geo fs).dirs n = some d) (hni : n ≠ i) :
    ∃ d', (volume geo fs').dirs n = some d' := by
  rw [h.dirs, Function.update_of_ne hni]
  exact DirTree.exists_update hn

theorem Detached.cut (h : Detached geo fs fs' q c p i dir dir') (ho : Orderly geo fs)
    (hnames : DistinctNames fs) (hleaf : ∀ x, (volume geo fs).dirs.child i x = none) :
    (volume geo fs').dirs.child = redirect (volume geo fs).dirs.child p c none := by
  have hnodup := ho.distinctNames.mp hnames p dir h.parent.2
  have hloses := h.loses.child hnodup h.parent.2
  rw [h.dirs, DirTree.child_update_empty (fun x => ?_) (fun d hd => by cases hd), hloses]
  rw [hloses, redirect_of_ne fun he => h.ne ho he.1]
  exact hleaf x

theorem Detached.removesPath (h : Detached geo fs fs' q c p i dir dir') (ho : Orderly geo fs)
    (hpath : 0 ∉ q ++ slash :: c) (hc : slash ∉ c) (hne : c ≠ []) (hnames : DistinctNames fs)
    (ht : (volume geo fs).dirs.Through (strtokSlash q ++ [c]))
    (hleaf : ∀ x, (volume geo fs).dirs.child i x = none) :
    RemovesPath geo fs fs' (q ++ slash :: c) ((volume geo fs).inode i) i := by
  have htok : strtokSlash (q ++ slash :: c) = strtokSlash q ++ [c] := by
    rw [strtokSlash_append, strtokSlash_name hc hne]
  have hcut := h.cut ho hnames hleaf
  have hroot := ho.wellformed.rooted
  have hm := ho.mounted
  have hm' := h.orderly.mounted
  have hgone : (volume geo fs').dirs.resolve (strtokSlash q ++ [c]) = none := by
    unfold DirTree.resolve
    rw [hcut]
    exact hroot.walk_cut h.parent.1
  -- a path still leads through directories as far as it leads
  have hstraight : ∀ xs, (volume geo fs).dirs.Through xs → (volume geo fs').dirs.Straight xs := by
    intro xs hxs pre x j hpre hj
    obtain ⟨k, d, hk, hd⟩ := hxs pre x hpre
    have hold := hj
    unfold DirTree.resolve at hold
    rw [hcut] at hold
    cases (walk_of_cut hold).symm.trans hk
    refine h.exists_dir hd ?_
    rintro rfl
    rw [hroot.walk_inj hk h.resolve, hgone] at hj
    cases hj
  have hi : i ∈ (volume geo fs).inodeUsed := ho.shows.resolve_used h.resolve
  refine ⟨?_, ?_, fun j hj hji => ?_, fun k hk hkx => ?_, fun path hpath' hother hthru => ?_⟩
  · rw [fsPathIndex_eq h.orderly.shows hpath (by rw [htok]; exact hstraight _ ht), htok, hgone]
  · refine blkgrpsInodeExist_of_unused hm' (hm.inodeUsed_inRange hi) fun hc => ?_
    rw [h.inodes] at hc
    exact hc.2 rfl
  · refine blkgrpsInodeExist_congr hm hm' hj ?_
    rw [h.inodes]
    exact and_iff_left hji
  · refine blkgrpsDataExist_congr hm hm' hk ?_
    rw [h.blocks]
    exact and_iff_left hkx
  · have hth := ho.through (fun e he => (properName_of_token hpath' he).noNul) hthru
    rw [fsPathIndex_eq h.orderly.shows hpath' (hstraight _ hth),
      fsPathIndex_eq ho.shows hpath' hth.straight]
    congr 1
    by_cases hsub : strtokSlash q ++ [c] <+: strtokSlash path
    · obtain ⟨rest, hrest⟩ := hsub
      cases rest with
      | nil =>
        rw [List.append_nil] at hrest
        exact absurd (htok ▸ hrest.symm) hother
      | cons x rest =>
        have hres := h.resolve
        rw [← hrest]
        unfold DirTree.resolve at hgone hres ⊢
        generalize strtokSlash q ++ [c] = ys at hgone hres ⊢
        rw [walk_append, walk_append, hgone, hres, Option.bind_none, Option.bind_some, walk_cons,
          hleaf x, Option.bind_none]
    · unfold DirTree.resolve
      rw [hcut]
      exact hroot.walk_redirect h.parent.1 hsub

theorem Orderly.leaf (h : Orderly geo fs)
    (hx : sIsreg ((volume geo fs).inode i).mode ∨ ∃ dir, DirectoryAt fs i dir ∧ dir.entries = []) :
    (volume geo fs).dirs.child i x = none := by
  rcases hx with hreg | ⟨dir, hdir, hempty⟩
  · apply DirTree.child_of_none
    exact Volume.dirs_of_not_isDir fun hd => not_sIsdir_of_sIsreg hreg hd.2
  · rw [DirTree.child_of (h.directoryAt.mp hdir), hempty]
    rfl

end Detachment

section Removals

variable {geo : Geometry} {fs : Filesystem} {q c : CString} {i : ChisaiSize} {x : Inode}

/-- Removing a regular file or an empty directory succeeds and removes one path. -/
theorem removal_removes_path (h : NamedReachable geo fs) (hnames : DistinctNames fs)
    (hpath : 0 ∉ q ++ slash :: c) (hc : slash ∉ c) (hne : c ≠ [])
    (ht : ThroughDirs fs (strtokSlash (q ++ slash :: c)))
    (hfound : fsGetMetadata fs (q ++ slash :: c) = .ok (.ok ⟨x, i⟩))
    (hx : sIsreg x.mode ∨ ∃ dir, DirectoryAt fs i dir ∧ dir.entries = []) :
    ∃ fs', fsRemoveFile fs (q ++ slash :: c) = .ok (.ok, fs') ∧
      RemovesPath geo fs fs' (q ++ slash :: c) x i := by
  have ho := h.orderly
  have htok : strtokSlash (q ++ slash :: c) = strtokSlash q ++ [c] := by
    rw [strtokSlash_append, strtokSlash_name hc hne]
  have hnul : ∀ e ∈ strtokSlash (q ++ slash :: c), 0 ∉ e :=
    fun e he => (properName_of_token hpath he).noNul
  have hth := ho.through hnul ht
  unfold fsGetMetadata at hfound
  rw [fsPathToInode_eq, ho.shows.fsLookup_eq hnul hth.straight, htok, ok_bind] at hfound
  cases hres : (volume geo fs).dirs.resolve (strtokSlash q ++ [c]) with
  | none =>
    rw [hres] at hfound
    cases hfound
  | some j =>
    rw [hres] at hfound
    cases hfound
    rw [htok] at hth
    obtain ⟨fs', p, dir, dir', he, hd⟩ := ho.detaches hpath hc hne hth hres
    have hleaf := fun d => ho.leaf (x := d) hx
    exact ⟨fs', he, hd.removesPath ho hpath hc hne hnames hth hleaf⟩

/-- Removing the file `/a` of `fileAndDir`. -/
theorem removal_removes_path_fileAndDir :
    ∃ fs fs' x i, NamedReachable smallDisk fs ∧ DistinctNames fs ∧
      fsGetMetadata fs ([] ++ slash :: [97]) = .ok (.ok ⟨x, i⟩) ∧
      fsRemoveFile fs ([] ++ slash :: [97]) = .ok (.ok, fs') ∧
      RemovesPath smallDisk fs fs' ([] ++ slash :: [97]) x i := by
  have hrun : ∃ fs, UniqueReachable smallDisk fs ∧
      ThroughDirs fs (strtokSlash ([] ++ slash :: [97])) ∧
      Yields (fsGetMetadata fs ([] ++ slash :: [97])) fun r =>
        Yields r fun file => sIsreg file.inode.mode := by
    apply exists_unique fileAndDir
    decide +kernel
  obtain ⟨fs, h, ht, r, hr, ⟨x, i⟩, rfl, hreg⟩ := hrun
  obtain ⟨fs', he, hremoves⟩ := removal_removes_path h.named h.distinct (by decide) (by decide)
    (by decide) ht hr (Or.inl hreg)
  exact ⟨fs, fs', x, i, h.named, h.distinct, hr, he, hremoves⟩

section Reachability

variable {fs' : Filesystem} {path x : CString} {p j n : ChisaiSize} {dir dir' d : Dir}

theorem Dir.hidesNothing_iff {l₁ l₂ : List Entry} (hsplit : dir.entries = l₁ ++ ⟨c, i⟩ :: l₂)
    (hc : c ∉ l₁.keys) : dir.HidesNothing c ↔ Unshadowing c l₁ l₂ := by
  have hall : ∀ e ∈ l₁, decide (e.1 ≠ c) = true := by
    intro e he
    rw [decide_eq_true_eq]
    rintro rfl
    exact hc (List.mem_map_of_mem he)
  unfold Dir.HidesNothing
  rw [hsplit, List.takeWhile_append_of_pos hall, List.dropWhile_append_of_pos hall,
    List.takeWhile_cons_of_neg (by simp), List.dropWhile_cons_of_neg (by simp), List.append_nil,
    List.tail_cons]

theorem Orderly.exists_path (h : Orderly geo fs) (hj : Reached fs j) : ∃ path, 0 ∉ path ∧
    (volume geo fs).dirs.Through (strtokSlash path) ∧
      (volume geo fs).dirs.resolve (strtokSlash path) = some j := by
  obtain ⟨path, hpath, ht, hj⟩ := hj
  have hth := h.through (fun e he => (properName_of_token hpath he).noNul) ht
  rw [fsPathIndex_eq h.shows hpath hth.straight] at hj
  exact ⟨path, hpath, hth, Except.ok.inj hj⟩

theorem Orderly.reached (h : Orderly geo fs) (hpath : 0 ∉ path)
    (ht : (volume geo fs).dirs.Through (strtokSlash path))
    (hj : (volume geo fs).dirs.resolve (strtokSlash path) = some j) : Reached fs j := by
  refine ⟨path, hpath, h.throughDirs (fun e he => (properName_of_token hpath he).noNul) ht, ?_⟩
  rw [fsPathIndex_eq h.shows hpath ht.straight, hj]

theorem Detached.other (h : Detached geo fs fs' q c p i dir dir') (ho : Orderly geo fs)
    (hn : (volume geo fs).dirs.child n x = some j) (hne : ¬ (n = p ∧ x = c)) : j ≠ i := by
  rintro rfl
  exact hne (ho.wellformed.rooted.excl hn h.child)

theorem Detached.reached (h : Detached geo fs fs' q c p i dir dir') (ho : Orderly geo fs)
    (hleaf : ∀ x, (volume geo fs).dirs.child i x = none) (hhide : dir.HidesNothing c) (hji : j ≠ i)
    (hr : Reached fs j) : Reached fs' j := by
  obtain ⟨path, hpath, ht, hres⟩ := ho.exists_path hr
  have hroot := ho.wellformed.rooted
  have hnot : ¬ strtokSlash q ++ [c] <+: strtokSlash path := by
    rintro ⟨rest, hrest⟩
    have hold := h.resolve
    rw [← hrest] at hres
    unfold DirTree.resolve at hold hres
    generalize strtokSlash q ++ [c] = ys at hold hres
    rw [walk_append, hold, Option.bind_some] at hres
    cases rest with
    | nil => exact hji (Option.some.inj hres).symm
    | cons x rest =>
      rw [walk_cons, hleaf x] at hres
      cases hres
  have hwalk : ∀ pre, pre <+: strtokSlash path →
      (volume geo fs').dirs.resolve pre = (volume geo fs).dirs.resolve pre := by
    intro pre hpre
    apply walk_congr
    intro ys x m hys hm
    have hmi : m ≠ i := by
      rintro rfl
      rw [hroot.walk_inj hm h.resolve] at hys
      exact hnot (((List.prefix_append _ _).trans hys).trans hpre)
    by_cases hmp : m = p
    · subst hmp
      have hxc : x ≠ c := by
        rintro rfl
        rw [hroot.walk_inj hm h.parent.1] at hys
        exact hnot (hys.trans hpre)
      obtain ⟨l₁, l₂, hsplit, hkeys, hentries⟩ := h.loses.split
      have hsame := ((Dir.hidesNothing_iff hsplit hkeys).mp hhide).dlookup (b := i) hxc
      have hnew : (volume geo fs').dirs m = some dir' := by
        rw [h.dirs, Function.update_of_ne hmi, Function.update_self]
      rw [DirTree.child_of hnew, DirTree.child_of h.parent.2, hentries, hsame, hsplit]
    · unfold DirTree.child
      rw [h.dirs, Function.update_of_ne hmi, Function.update_of_ne hmp]
  refine h.orderly.reached hpath (fun pre x hpre => ?_) ?_
  · obtain ⟨k, e, hk, he⟩ := ht pre x hpre
    rw [hwalk pre (prefix_of_concat hpre).1]
    have hki : k ≠ i := by
      rintro rfl
      rw [hroot.walk_inj hk h.resolve] at hpre
      exact hnot ((List.prefix_append _ _).trans hpre)
    obtain ⟨e', he'⟩ := h.exists_dir he hki
    exact ⟨k, e', hk, he'⟩
  · rw [hwalk _ (List.prefix_refl _), hres]

end Reachability

end Removals

end ChisaiFs
