import ChisaiFs.Naming

/-! Names that occur once in their directory. Making an entry checks for its name; renaming
does not, so a rename onto an existing name is what breaks the uniqueness. -/

namespace ChisaiFs
open Outcome SwapRemoval Walks

/-- Inode `i` is an allocated directory and `dir` is stored in its first block. -/
def DirectoryAt (fs : Filesystem) (i : ChisaiSize) (dir : Dir) : Prop :=
  Finds (fsFindInode fs i) fun x =>
    sIsdir x.mode ∧ fsFindDir fs (getElem x.directBlks 0 directBlksNum_pos) = .ok (some dir)

instance (fs : Filesystem) (i : ChisaiSize) (dir : Dir) : Decidable (DirectoryAt fs i dir) :=
  inferInstanceAs (Decidable (Finds _ _))

def Dir.Distinct (dir : Dir) : Prop := (dir.nodes.map DirNode.text).Nodup

def DistinctNames (fs : Filesystem) : Prop := ∀ i dir, DirectoryAt fs i dir → dir.Distinct

instance (dir : Dir) : Decidable dir.Distinct := inferInstanceAs (Decidable (List.Nodup _))

/-- The target's parent has an entry of the target's name. -/
def Taken : Except ChisaiError Parent → Prop
  | .ok target => dirFind target.dir target.filePath ≠ .ok none
  | .error _ => False

instance : DecidablePred Taken
  | .ok _ => inferInstanceAs (Decidable (_ ≠ _))
  | .error _ => isFalse id

/-- The rename takes the source entry out and then enters a name that is still there. -/
def Clashes (fs : Filesystem) (src dst : CString) : Prop :=
  Finds (unlinkedSource fs src) fun fs => Yields (fsPathToParent fs dst) Taken

def Op.Clashes (fs : Filesystem) : Op → Prop
  | .rename src dst => ChisaiFs.Clashes fs src dst
  | _ => False

instance (fs : Filesystem) (src dst : CString) : Decidable (Clashes fs src dst) :=
  inferInstanceAs (Decidable (Finds _ _))

instance (fs : Filesystem) : (op : Op) → Decidable (op.Clashes fs)
  | .rename src dst => inferInstanceAs (Decidable (Clashes fs src dst))
  | .mkdir .. => isFalse id
  | .create .. => isFalse id
  | .write .. => isFalse id
  | .truncate .. => isFalse id
  | .remove .. => isFalse id

def UniqueReachable (geo : Geometry) (fs : Filesystem) : Prop :=
  ∃ fs₀, freshMount geo = .ok fs₀ ∧
    Reaches Op.step (fun s op => op.Lawful s ∧ op.Named ∧ ¬ op.Clashes s) fs₀ fs

section Runs

variable {geo : Geometry} {fs fs' : Filesystem} {dir : Dir} {i : ChisaiSize} {op : Op}

theorem Dir.distinct_iff : dir.Distinct ↔ dir.entries.NodupKeys := by
  unfold Dir.Distinct List.NodupKeys List.keys Dir.entries
  rw [List.map_map]
  rfl

theorem directoryAt_iff (hm : Mounted geo fs) (hw : (volume geo fs).Wellformed) :
    DirectoryAt fs i dir ↔ (volume geo fs).dirs i = some dir := by
  constructor
  · rintro ⟨x, hx, hd, hdir⟩
    obtain ⟨hi, rfl⟩ := (fsFindInode_iff hm).mp hx
    obtain ⟨-, rfl⟩ := (fsFindDir_iff hm).mp hdir
    exact Volume.dirs_of_isDir ⟨hi, hd⟩
  · intro hdir
    obtain ⟨hi, rfl⟩ := Volume.dirs_eq_some.mp hdir
    have hblk := hw.marked (i, 0) _ ⟨hi.1, rfl, hw.dirBlock i hi⟩
    exact ⟨_, fsFindInode_of_used hm hi.1, hi.2, fsFindDir_of_used hm hblk⟩

theorem Orderly.directoryAt (h : Orderly geo fs) :
    DirectoryAt fs i dir ↔ (volume geo fs).dirs i = some dir :=
  directoryAt_iff h.mounted h.wellformed

theorem Orderly.distinctNames (h : Orderly geo fs) :
    DistinctNames fs ↔ (volume geo fs).dirs.Every fun dir => dir.entries.NodupKeys := by
  constructor
  · intro hd i dir hdir
    exact Dir.distinct_iff.mp (hd i dir (h.directoryAt.mpr hdir))
  · intro hd i dir hdir
    exact Dir.distinct_iff.mpr (hd i dir (h.directoryAt.mp hdir))

theorem Op.step_distinct (h : Orderly geo fs) (hl : op.Lawful fs) (hn : op.Named)
    (hc : ¬ op.Clashes fs) (hs : op.step fs = .ok fs')
    (hd : (volume geo fs).dirs.Every fun dir => dir.entries.NodupKeys) :
    (volume geo fs').dirs.Every fun dir => dir.entries.NodupKeys := by
  refine Op.step_every h hl hn hs hd ?_ ?_ ?_ ?_
  · exact List.nodupKeys_nil
  · intro dir c i inserted dir' hnodup hnamed hname hlen habs hins
    rcases hnamed.insert hname hlen hins with ⟨-, rfl, -⟩ | ⟨-, hgain⟩
    · exact hnodup
    · exact hgain.nodupKeys hnodup habs
  · rintro src dst fs₁ target i dir' rfl hu ht hnodup hnamed hname hgain
    apply hgain.nodupKeys hnodup
    rcases dirFind_spec hnamed.ended hname.noNul with ⟨-, hkeys⟩ | ⟨j, -, -, hf, -⟩
    · exact hkeys
    · refine absurd ⟨fs₁, hu, .ok target, ht, fun hnone => ?_⟩ hc
      rw [hf] at hnone
      cases hnone
  · exact fun dir c i dir' hnodup _ hloses => hloses.nodupKeys hnodup

theorem UniqueReachable.named (h : UniqueReachable geo fs) : NamedReachable geo fs := by
  obtain ⟨fs₀, hmount, hrun⟩ := h
  exact ⟨fs₀, hmount, hrun.mono fun _ _ hl => ⟨hl.1, hl.2.1⟩⟩

theorem UniqueReachable.distinct (h : UniqueReachable geo fs) : DistinctNames fs := by
  have horderly := h.named.orderly
  obtain ⟨fs₀, hmount, hrun⟩ := h
  rw [horderly.distinctNames]
  have hinv := hrun.invariant
    (fun s => Orderly geo s ∧ (volume geo s).dirs.Every fun dir => dir.entries.NodupKeys)
    (fun s op t h hl hs =>
      ⟨h.1.step hl.1 hl.2.1 hs, Op.step_distinct h.1 hl.1 hl.2.1 hl.2.2 hs h.2⟩)
    ⟨freshMount_orderly hmount, fun i dir hdir => ?_⟩
  · exact hinv.2
  · rw [freshMount_dirs hmount i dir hdir]
    exact List.nodupKeys_nil

theorem exists_unique (ops : List Op) {p : Filesystem → Prop} [DecidablePred p]
    (h : Yields (freshMount smallDisk) fun fs =>
      ((runAllowed Op.step (fun s op => op.Lawful s ∧ op.Named ∧ ¬ op.Clashes s) fs ops).any
        fun s => decide (p s)) = true) :
    ∃ fs, UniqueReachable smallDisk fs ∧ p fs := by
  obtain ⟨fs₀, fs, hmount, hrun, hp⟩ := exists_run id ops h
  exact ⟨fs, ⟨fs₀, hmount, hrun⟩, hp⟩

end Runs

section Renamed

variable {geo : Geometry} {fs fs₁ fs' : Filesystem} {t : DirTree} {path src dst q c : CString}
  {parent source target : Parent} {p p₂ i : ChisaiSize} {dir dir₂ : Dir}

theorem Unlinked.straight (h : Orderly geo fs) (hd : DistinctNames fs)
    (hu : Unlinked geo fs fs₁ src source p i dir) {path : List CString}
    (hp : (volume geo fs).dirs.Through path) : (volume geo fs₁).dirs.Straight path := by
  intro pre x j hpre hj
  have hchild := hu.loses.child (h.distinctNames.mp hd p _ hu.isDir) hu.isDir
  rw [hu.dirs] at hj ⊢
  unfold DirTree.resolve at hj
  rw [hchild] at hj
  obtain ⟨k, d, hk, hdir⟩ := hp pre x hpre
  cases (walk_of_cut hj).symm.trans hk
  exact DirTree.exists_update hdir

theorem Relinked.resolves (h : Orderly geo fs₁) (hpath : 0 ∉ dst)
    (hs : strrchrSlash dst = some (q, c)) (hq : (volume geo fs₁).dirs.Straight (strtokSlash q ++ [c]))
    (hr : Relinked geo fs₁ fs' dst target p₂ i dir₂) :
    (volume geo fs₁).dirs.resolve (strtokSlash q) = some p₂ ∧ target.filePath = c ∧
      (volume geo fs₁).IsDir p₂ := by
  have hsub : strtokSlash q <+: strtokSlash q ++ [c] := List.prefix_append _ _
  obtain ⟨p, hp, hinode, hused, hc⟩ :=
    h.parent_resolves hpath hs (fun pre x j hpre => hq pre x j (hpre.trans hsub)) hr.found
  cases hr.at_.unique h hinode hused
  obtain ⟨d, hd⟩ := hq _ _ _ (List.prefix_refl _) hp
  exact ⟨hp, hc, (Volume.dirs_eq_some.mp hd).1⟩

theorem resolve_new {t' : DirTree} (h : Rooted t.child rootInode)
    (hp : t.resolve (strtokSlash q) = some p) (hnew : t'.child = redirect t.child p c (some i))
    (hkeep : ∀ j e, t j = some e → ∃ e', t' j = some e')
    (hs : t.Straight (strtokSlash q ++ [c])) :
    t'.resolve (strtokSlash q ++ [c]) = some i ∧ t'.Straight (strtokSlash q ++ [c]) := by
  have hpre : ∀ pre x, pre ++ [x] <+: strtokSlash q ++ [c] →
      ¬ strtokSlash q ++ [c] <+: pre := by
    intro pre x hpre hc
    have h₁ := hpre.length_le
    have h₂ := hc.length_le
    rw [List.length_append, List.length_singleton] at h₁
    omega
  constructor
  · unfold DirTree.resolve
    rw [hnew, h.walk_through hp]
    rfl
  · intro pre x j hx hj
    unfold DirTree.resolve at hj
    rw [hnew, h.walk_redirect hp (hpre pre x hx)] at hj
    obtain ⟨d, hd⟩ := hs pre x j hx hj
    exact hkeep j d hd

end Renamed

section Uniqueness

variable {geo : Geometry} {fs : Filesystem}

/-- In runs whose renames find no entry of the target's name, names are unique, and a renamed
inode is found under its new name. -/
theorem names_unique (h : UniqueReachable geo fs) :
    DistinctNames fs ∧
    (∀ i dir c j, DirectoryAt fs i dir → 0 ∉ c → dirFileInodeIdx dir c = .ok j → j ≠ 0 →
      ∀ node ∈ dir.nodes, node.text = c → node.idx = j) ∧
    ∀ src dst fs', (Op.rename src dst).Lawful fs → (Op.rename src dst).Named →
      ¬ Clashes fs src dst → ThroughDirs fs (strtokSlash dst) →
      fsRenameFile fs src dst = .ok (.ok, fs') →
      ∃ source i, fsPathToParent fs src = .ok (.ok source) ∧
        dirFileInodeIdx source.dir source.filePath = .ok i ∧ fsPathIndex fs' dst = .ok (some i) := by
  have horderly := h.named.orderly
  have hdistinct := h.distinct
  refine ⟨hdistinct, fun i dir c j hdir hc hj h0 node hnode htext => ?_,
    fun src dst fs' hl hn hclash hthrough he => ?_⟩
  · have hnodup := Dir.distinct_iff.mp (hdistinct i dir hdir)
    rw [dirFileInodeIdx_spec (horderly.named i dir (horderly.directoryAt.mp hdir)).ended hc] at hj
    have hmem : (⟨c, node.idx⟩ : Entry) ∈ dir.entries := by
      rw [← htext]
      exact List.mem_map_of_mem hnode
    rw [(List.mem_dlookup_iff hnodup).mpr hmem] at hj
    exact Except.ok.inj hj
  · have hstep : (Op.rename src dst).step fs = .ok fs' := map_eq_ok.mpr ⟨_, he, rfl⟩
    obtain ⟨h0, ⟨q, c⟩, hs, hne⟩ := hn.2
    have htok := strtokSlash_of_split hs hne
    rcases fsRenameFile_relinks horderly hl.1 hn.1 he with
      ⟨hr, -⟩ | ⟨fs₁, source, p, i, dir, hu, hun, ⟨hr, -⟩ | ⟨-, target, p₂, dir₂, hlink⟩⟩
    · exact absurd rfl hr
    · exact absurd rfl hr
    have hthru := horderly.through (fun d hd => (properName_of_token h0 hd).noNul) hthrough
    have hstraight := hun.straight horderly hdistinct hthru
    rw [htok] at hstraight
    obtain ⟨hp₂, rfl, hdir₂⟩ := hlink.resolves hun.orderly h0 hs hstraight
    obtain ⟨-, hd₂, hgain, hdirs⟩ := (hlink.cases hun.orderly hn.2).resolve_right fun hc => hc.1 hdir₂
    have hname := (properName_of_token (t := target.filePath) h0 (by rw [htok]; simp)).noNul
    have habs : target.filePath ∉ target.dir.entries.keys := by
      rcases dirFind_spec (hun.orderly.named _ _ hd₂).ended hname with ⟨-, hkeys⟩ | ⟨j, -, -, hf, -⟩
      · exact hkeys
      · refine absurd ⟨fs₁, hu, .ok target, hlink.found, fun hnone => ?_⟩ hclash
        rw [hf] at hnone
        cases hnone
    obtain ⟨hres, hst⟩ := resolve_new hun.orderly.wellformed.rooted hp₂ (hgain.child habs hd₂)
      (fun j e hj => DirTree.exists_update hj) hstraight
    have hshow := (horderly.step hl hn hstep).shows
    refine ⟨source, i, hun.found, ?_, ?_⟩
    · have hsrc := fsPathToParent_name hn.1 hun.found
      obtain ⟨-, -, hc, -⟩ := hsrc
      rw [dirFileInodeIdx_spec (horderly.named _ _ hun.isDir).ended hc.noNul, hun.loses.found]
      rfl
    · rw [hdirs] at hshow
      rw [fsPathIndex_eq hshow h0 (by rw [htok]; exact hst), htok, hres]

/-- Directory `/d`, inode 4, beside the file `/a`, inode 3. -/
def fileAndDir : List Op := [.create [47, 97] 0o100644, .mkdir [47, 100] 0o755]

/-- Renaming `/a` to `/d/b`. -/
theorem names_unique_fileAndDir :
    ∃ fs fs', UniqueReachable smallDisk fs ∧ DistinctNames fs ∧
      fsRenameFile fs [47, 97] [47, 100, 47, 98] = .ok (.ok, fs') ∧
      ∃ source i, fsPathToParent fs [47, 97] = .ok (.ok source) ∧
        dirFileInodeIdx source.dir source.filePath = .ok i ∧
        fsPathIndex fs' [47, 100, 47, 98] = .ok (some i) := by
  have hrun : ∃ fs, UniqueReachable smallDisk fs ∧
      (Op.rename [47, 97] [47, 100, 47, 98]).Lawful fs ∧
      (Op.rename [47, 97] [47, 100, 47, 98]).Named ∧ ¬ Clashes fs [47, 97] [47, 100, 47, 98] ∧
      ThroughDirs fs (strtokSlash [47, 100, 47, 98]) ∧
      Yields (fsRenameFile fs [47, 97] [47, 100, 47, 98]) fun r => r.1 = .ok := by
    apply exists_unique fileAndDir
    decide +kernel
  obtain ⟨fs, h, hl, hn, hc, ht, ⟨r, fs'⟩, he, rfl⟩ := hrun
  exact ⟨fs, fs', h, (names_unique h).1, he, (names_unique h).2.2 _ _ fs' hl hn hc ht he⟩

/-- With two files, renaming one onto the other leaves both entries in the root, and the name
leads to the file that had it. -/
theorem rename_shadows :
    ∃ fs fs', NamedReachable smallDisk fs ∧ (Op.rename [47, 97] [47, 98]).Lawful fs ∧
      (Op.rename [47, 97] [47, 98]).Named ∧ fsPathIndex fs [47, 97] = .ok (some 3) ∧
      fsRenameFile fs [47, 97] [47, 98] = .ok (.ok, fs') ∧
      fsPathIndex fs' [47, 98] = .ok (some 4) ∧ ¬ DistinctNames fs' := by
  have hrun : ∃ fs, NamedReachable smallDisk fs ∧ (Op.rename [47, 97] [47, 98]).Lawful fs ∧
      (Op.rename [47, 97] [47, 98]).Named ∧ fsPathIndex fs [47, 97] = .ok (some 3) ∧
      Yields (fsRenameFile fs [47, 97] [47, 98]) fun r => r.1 = .ok ∧
        fsPathIndex r.2 [47, 98] = .ok (some 4) ∧
        Finds (fsFindInode r.2 2) fun x => sIsdir x.mode ∧
          Finds (fsFindDir r.2 (getElem x.directBlks 0 directBlksNum_pos)) fun dir =>
            ¬ dir.Distinct := by
    apply exists_named [.create [47, 97] 0o100644, .create [47, 98] 0o100644]
    decide +kernel
  obtain ⟨fs, h, hl, hn, ha, ⟨r, fs'⟩, he, rfl, hb, x, hx, hd, dir, hdir, hdup⟩ := hrun
  exact ⟨fs, fs', h, hl, hn, ha, he, hb, fun hdist => hdup (hdist 2 dir ⟨x, hx, hd, hdir⟩)⟩

end Uniqueness

end ChisaiFs
