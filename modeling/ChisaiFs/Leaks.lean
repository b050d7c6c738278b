import ChisaiFs.Leaked
import ChisaiFs.Names

/-! Blocks that are marked without a user, and inodes without an entry. No operation finds its way
back to them, so what is lost once stays lost for the rest of the run. -/

namespace ChisaiFs
open Outcome SwapRemoval Ownership

/-- Marked in the bitmap of its group, and no inode maps it. -/
def LeakedBlock (fs : Filesystem) (k : ChisaiSize) : Prop :=
  blkgrpsDataExist fs.blkGrps k = .ok true ∧ ∀ i n, ¬ MapsBlock fs i n k

/-- Marked in the bitmap of its group, and no directory has an entry for it. -/
def LostInode (fs : Filesystem) (i : ChisaiSize) : Prop :=
  blkgrpsInodeExist fs.blkGrps i = .ok true ∧ ∀ p s, ¬ HasEntry fs p s i

/-- The states that lawful operations with proper names lead to. -/
abbrev Later (fs fs' : Filesystem) : Prop :=
  Reaches Op.step (fun s op => op.Lawful s ∧ op.Named) fs fs'

def DirTree.Enters (t : DirTree) (p i : ChisaiSize) : Prop :=
  ∃ dir, t p = some dir ∧ ∃ c, (⟨c, i⟩ : Entry) ∈ dir.entries

namespace Volume

def lost (v : Volume) : Set ChisaiSize := stray v.inodeUsed v.dirs.Enters

end Volume

section Views

variable {geo : Geometry} {fs : Filesystem} {p i k : ChisaiSize} {dir : Dir}

theorem Dir.exists_entry (h : dir.size.toNat ≤ chisaiFilePerDir) :
    (∃ c, (⟨c, i⟩ : Entry) ∈ dir.entries) ↔
      ∃ s : Fin chisaiFilePerDir, s < dir.size.toNat ∧ dir.idxAt s = i := by
  have hget : ∀ s (hs : s < dir.nodes.length) (hf : s < chisaiFilePerDir),
      dir.nodes[s].idx = dir.idxAt ⟨s, hf⟩ := by
    intro s hs hf
    simp [Dir.nodes, Dir.idxAt]
  have hlen := Dir.nodes_length h
  constructor
  · rintro ⟨c, he⟩
    obtain ⟨node, hnode, he⟩ := List.mem_map.mp he
    obtain ⟨s, hs, rfl⟩ := List.getElem_of_mem hnode
    have hidx : dir.nodes[s].idx = i := (Sigma.mk.inj he).2.eq
    exact ⟨⟨s, by omega⟩, show s < _ by omega, (hget s hs (by omega)).symm.trans hidx⟩
  · rintro ⟨⟨s, hf⟩, hs, rfl⟩
    change s < dir.size.toNat at hs
    rw [← hlen] at hs
    refine ⟨dir.nodes[s].text, List.mem_map.mpr ⟨_, List.getElem_mem hs, ?_⟩⟩
    rw [← hget s hs hf]
    rfl

theorem Orderly.enters_iff (h : Orderly geo fs) :
    (volume geo fs).dirs.Enters p i ↔ ∃ s, HasEntry fs p s i := by
  constructor
  · rintro ⟨dir, hdir, he⟩
    obtain ⟨hp, rfl⟩ := Volume.dirs_eq_some.mp hdir
    obtain ⟨s, hs, hi⟩ := (Dir.exists_entry (h.wellformed.dirSize p hp)).mp he
    have hk := h.wellformed.marked (p, 0) _ ⟨hp.1, rfl, h.wellformed.dirBlock p hp⟩
    exact ⟨s, _, (fsFindInode_iff h.mounted).mpr ⟨hp.1, rfl⟩, hp.2, _,
      (fsFindDir_iff h.mounted).mpr ⟨hk, rfl⟩, hs, hi⟩
  · rintro ⟨s, he⟩
    obtain ⟨hp, hs, hi⟩ := he.refers h.mounted
    exact ⟨_, Volume.dirs_of_isDir hp, (Dir.exists_entry (h.wellformed.dirSize p hp)).mpr ⟨s, hs, hi⟩⟩

theorem exists_mapsBlock (h : Mounted geo fs) {a : ChisaiSize × ℕ}
    (ho : (volume geo fs).Owns a k) : ∃ i n, MapsBlock fs i n k := by
  obtain ⟨hu, hk, h0⟩ := ho
  have hn : a.2 < directBlksNum := Inode.lt_of_blk_ne (hk.trans_ne h0)
  exact ⟨a.1, ⟨a.2, hn⟩, _, (fsFindInode_iff h).mpr ⟨hu, rfl⟩, (Inode.blk_of_lt hn).symm.trans hk, h0⟩

theorem Mounted.leakedBlock_iff (h : Mounted geo fs) :
    LeakedBlock fs k ↔ k ∈ (volume geo fs).leaked := by
  constructor
  · rintro ⟨hk, hfree⟩
    refine ⟨(blkgrpsDataExist_eq_ok h hk).mp rfl, fun a ha => ?_⟩
    obtain ⟨i, n, hmap⟩ := exists_mapsBlock h ha
    exact hfree i n hmap
  · rintro ⟨hk, hfree⟩
    exact ⟨blkgrpsDataExist_of_used h hk, fun i n hmap => hfree _ (hmap.owns h)⟩

theorem Orderly.lostInode_iff (h : Orderly geo fs) :
    LostInode fs i ↔ i ∈ (volume geo fs).lost := by
  constructor
  · rintro ⟨hi, hfree⟩
    refine ⟨(blkgrpsInodeExist_eq_ok h.mounted hi).mp rfl, fun p hp => ?_⟩
    obtain ⟨s, hs⟩ := h.enters_iff.mp hp
    exact hfree p s hs
  · rintro ⟨hi, hfree⟩
    exact ⟨blkgrpsInodeExist_of_used h.mounted hi, fun p s he => hfree p (h.enters_iff.mpr ⟨s, he⟩)⟩

end Views

section Entries

variable {t : DirTree} {p q i j : ChisaiSize} {o : Option Dir} {dir dir' : Dir} {c : CString}

theorem DirTree.Enters.of_update (h : DirTree.Enters (Function.update t p o) q i) :
    (q ≠ p ∧ t.Enters q i) ∨
      (q = p ∧ ∃ dir, o = some dir ∧ ∃ c, (⟨c, i⟩ : Entry) ∈ dir.entries) := by
  obtain ⟨dir, hdir, hc⟩ := h
  by_cases hq : q = p
  · subst hq
    rw [Function.update_self] at hdir
    exact Or.inr ⟨rfl, dir, hdir, hc⟩
  · rw [Function.update_of_ne hq] at hdir
    exact Or.inl ⟨hq, dir, hdir, hc⟩

theorem Dir.Gains.mem (h : dir.Gains c i dir') {s : CString}
    (he : (⟨s, j⟩ : Entry) ∈ dir'.entries) : (⟨s, j⟩ : Entry) ∈ dir.entries ∨ j = i := by
  rw [h.entries, List.mem_append, List.mem_singleton] at he
  refine he.imp_right fun he => ?_
  cases he
  rfl

theorem Dir.Loses.mem (h : dir.Loses c i dir') {e : Entry} (he : e ∈ dir'.entries) :
    e ∈ dir.entries := by
  obtain ⟨l₁, l₂, hsplit, -, hentries⟩ := h.split
  rw [hentries, ((lastFirst_perm l₂).append_left l₁).mem_iff] at he
  rw [hsplit, List.mem_append, List.mem_cons]
  exact (List.mem_append.mp he).imp_right Or.inr

theorem Dir.Loses.gone (h : dir.Loses c i dir') : (⟨c, i⟩ : Entry) ∈ dir.entries := by
  obtain ⟨l₁, l₂, hsplit, -⟩ := h.split
  rw [hsplit]
  exact List.mem_append_right l₁ List.mem_cons_self

theorem Dir.Named.mem_of_insert (h : dir.Named) (hc : ProperName c) (hlen : c.length < chisaiFileLen)
    {inserted : Bool} (hins : dirInsert dir c i = .ok (inserted, dir')) {s : CString}
    (he : (⟨s, j⟩ : Entry) ∈ dir'.entries) : (⟨s, j⟩ : Entry) ∈ dir.entries ∨ j = i := by
  rcases h.insert hc hlen hins with ⟨-, rfl, -⟩ | ⟨-, hgain⟩
  · exact Or.inl he
  · exact hgain.mem he

end Entries

section Operations

variable {geo : Geometry} {fs fs' : Filesystem} {path src dst : CString} {mode : UInt32}
  {r : ChisaiError} {i : ChisaiSize}

theorem fsRemoveFile_releases (h : Orderly geo fs) (hl : ParentIsDir fs path) (hp : Proper path)
    (he : fsRemoveFile fs path = .ok (.ok, fs')) :
    ∃ parent p i dir, Removed geo fs fs' path parent p i dir ∧
      (volume geo fs').inodeUsed = (volume geo fs).inodeUsed \ {i} ∧
      (volume geo fs').dataUsed = (volume geo fs).dataUsed \ {((volume geo fs).inode i).blk 0} ∧
      (volume geo fs').inode = (volume geo fs).inode := by
  rcases fsRemoveFile_dirs h hl hp he with ⟨hr, -⟩ | ⟨-, parent, p, i, dir, hrm⟩
  · exact absurd rfl hr
  rcases (fsRemoveFile_volume h.mounted he).2 with
    ⟨hr, -⟩ | ⟨-, parent', p', j, hlast, hfound, -, hj, -, hv⟩
  · exact absurd rfl hr
  cases hrm.found.symm.trans hfound
  obtain ⟨q, -, hc, -⟩ := fsPathToParent_name hp hfound
  have hloses := (h.named p _ hrm.isDir).loses hc.noNul hj hlast
  have hidx : parent.dir.idxAt j = i := Option.some.inj (hloses.found.symm.trans hrm.loses.found)
  rw [hidx] at hv
  exact ⟨parent, p, i, dir, hrm, by rw [hv]; rfl, by rw [hv]; rfl, by rw [hv]; rfl⟩

theorem Removed.enters {parent : Parent} {p q j : ChisaiSize} {dir : Dir}
    (h : Removed geo fs fs' path parent p i dir) (hq : (volume geo fs').dirs.Enters q j) :
    q ≠ i ∧ (volume geo fs).dirs.Enters q j := by
  rw [h.dirs] at hq
  rcases hq.of_update with ⟨hi, hq⟩ | ⟨-, d, hd, -⟩
  · refine ⟨hi, ?_⟩
    rcases hq.of_update with ⟨-, hq⟩ | ⟨rfl, d, hd, s, he⟩
    · exact hq
    · cases hd
      exact ⟨_, h.isDir, s, h.loses.mem he⟩
  · cases hd

theorem Unlinked.enters {fs₁ : Filesystem} {source : Parent} {p q j : ChisaiSize} {dir : Dir}
    (h : Unlinked geo fs fs₁ src source p i dir) (hq : (volume geo fs₁).dirs.Enters q j) :
    (volume geo fs).dirs.Enters q j := by
  rw [h.dirs] at hq
  rcases hq.of_update with ⟨-, hq⟩ | ⟨rfl, d, hd, s, he⟩
  · exact hq
  · cases hd
    exact ⟨_, h.isDir, s, h.loses.mem he⟩

theorem Op.step_enters (h : Orderly geo fs) {op : Op} (hl : op.Lawful fs) (hn : op.Named)
    (hs : op.step fs = .ok fs') {p : ChisaiSize} (hp : (volume geo fs').dirs.Enters p i) :
    (∃ q, (volume geo fs).dirs.Enters q i) ∨ i ∉ (volume geo fs).inodeUsed := by
  cases op.did_dirs h hl hn hs with
  | same hd => exact Or.inl ⟨p, hd ▸ hp⟩
  | @entered _ _ p' _ _ _ _ hdir hc hlen _ hi hins hmade hd =>
    rw [hd] at hp
    rcases hp.of_update with ⟨-, hp⟩ | ⟨-, d, hm, s, he⟩
    · rcases hp.of_update with ⟨-, hp⟩ | ⟨-, d, hd, s, he⟩
      · exact Or.inl ⟨p, hp⟩
      · cases hd
        rcases (h.named p' _ hdir).mem_of_insert hc hlen hins he with he | rfl
        · exact Or.inl ⟨p', _, hdir, s, he⟩
        · exact Or.inr hi
    · rw [hmade d hm] at he
      cases he
  | unlinked hun hd => exact Or.inl ⟨p, hun.enters (hd ▸ hp)⟩
  | @relinked _ _ _ _ _ p₁ q _ _ _ _ hun _ hdir _ hgain hd =>
    rw [hd] at hp
    rcases hp.of_update with ⟨-, hp⟩ | ⟨-, d, hd, s, he⟩
    · exact Or.inl ⟨p, hun.enters hp⟩
    · cases hd
      rcases hgain.mem he with he | rfl
      · exact Or.inl ⟨q, hun.enters ⟨_, hdir, s, he⟩⟩
      · exact Or.inl ⟨p₁, _, hun.isDir, _, hun.loses.gone⟩
  | removed hrm => exact Or.inl ⟨p, (hrm.enters hp).2⟩

theorem Op.step_released (h : Orderly geo fs) {op : Op} (hl : op.Lawful fs) (hn : op.Named)
    (hs : op.step fs = .ok fs') (hi : i ∈ (volume geo fs).inodeUsed)
    (hi' : i ∉ (volume geo fs').inodeUsed) : ∃ p, (volume geo fs).dirs.Enters p i := by
  cases op.did h.mounted hs with
  | nothing hv | marked _ hv | unlinked _ hv | moved _ _ hv => exact absurd (hv ▸ hi) hi'
  | made _ _ _ _ hv | created _ _ hv => exact absurd (hv ▸ Or.inr hi) hi'
  | wrote he =>
    obtain ⟨-, -, hused, -⟩ := fsWriteFile_inodes h.mounted he
    exact absurd (hused ▸ hi) hi'
  | @cut _ _ _ v _ _ hsteps _ hv =>
    have hused : v.inodeUsed = (volume geo fs).inodeUsed := (shrink_inodes hsteps).2
    rw [hv, Volume.setInode_inodeUsed, hused] at hi'
    exact absurd hi hi'
  | @removed path =>
    obtain ⟨⟨r, _⟩, he, rfl⟩ := map_eq_ok.mp hs
    rcases (fsRemoveFile_volume h.mounted he).2 with ⟨-, hv⟩ | ⟨hr, -⟩
    · exact absurd (hv ▸ hi) hi'
    · obtain rfl : r = .ok := hr
      obtain ⟨parent, p, j, dir, hrm, hused, -⟩ := fsRemoveFile_releases h hl hn he
      rw [hused] at hi'
      have hij : i = j := not_not.mp fun hne => hi' ⟨hi, hne⟩
      exact ⟨p, _, hrm.isDir, _, hij ▸ hrm.loses.gone⟩

theorem Op.step_lost (h : Orderly geo fs) {op : Op} (hl : op.Lawful fs) (hn : op.Named)
    (hs : op.step fs = .ok fs') : (volume geo fs).lost ⊆ (volume geo fs').lost :=
  stray_subset (fun _ hi hi' => op.step_released h hl hn hs hi hi')
    fun _ _ hp => op.step_enters h hl hn hs hp

end Operations

section Results

variable {geo : Geometry} {fs fs₁ fs' : Filesystem} {path src dst : CString} {mode : UInt32}
  {r : ChisaiError} {op : Op} {i k : ChisaiSize}

theorem Later.orderly (hrun : Later fs fs') (h : Orderly geo fs) : Orderly geo fs' :=
  hrun.invariant (Orderly geo) (fun _ _ _ h hl hs => h.step hl.1 hl.2 hs) h

theorem Later.leaked (hrun : Later fs fs') (h : Orderly geo fs) (hk : LeakedBlock fs k) :
    LeakedBlock fs' k := by
  have hinv := hrun.invariant (fun s => Orderly geo s ∧ k ∈ (volume geo s).leaked)
    (fun s op t hi hl hs => ⟨hi.1.step hl.1 hl.2 hs,
      op.step_leaked hi.1.mounted hi.1.wellformed hl.1 hs hi.2⟩) ⟨h, h.mounted.leakedBlock_iff.mp hk⟩
  exact hinv.1.mounted.leakedBlock_iff.mpr hinv.2

theorem Later.lost (hrun : Later fs fs') (h : Orderly geo fs) (hi : LostInode fs i) :
    LostInode fs' i := by
  have hinv := hrun.invariant (fun s => Orderly geo s ∧ i ∈ (volume geo s).lost)
    (fun s op t hi hl hs => ⟨hi.1.step hl.1 hl.2 hs, op.step_lost hi.1 hl.1 hl.2 hs hi.2⟩)
    ⟨h, h.lostInode_iff.mp hi⟩
  exact hinv.1.lostInode_iff.mpr hinv.2

/-- A block that no inode maps although it is marked is not given out, released or mapped again,
and an inode without an entry does not get one. -/
theorem leaks_permanent (h : NamedReachable geo fs) (hrun : Later fs fs') :
    (∀ k, LeakedBlock fs k → LeakedBlock fs' k) ∧ ∀ i, LostInode fs i → LostInode fs' i :=
  ⟨fun _ hk => hrun.leaked h.orderly hk, fun _ hi => hrun.lost h.orderly hi⟩

theorem Orderly.enters_used (h : Orderly geo fs) {p : ChisaiSize}
    (hp : (volume geo fs).dirs.Enters p i) : i ∈ (volume geo fs).inodeUsed := by
  obtain ⟨s, hs⟩ := h.enters_iff.mp hp
  exact (h.wellformed.refUsed _ _ (hs.refers h.mounted)).1

theorem Orderly.enters_unique (h : Orderly geo fs) {p q : ChisaiSize}
    (hp : (volume geo fs).dirs.Enters p i) (hq : (volume geo fs).dirs.Enters q i) : p = q := by
  obtain ⟨s, hs⟩ := h.enters_iff.mp hp
  obtain ⟨t, ht⟩ := h.enters_iff.mp hq
  exact congrArg Prod.fst (h.wellformed.refUnique (hs.refers h.mounted) (ht.refers h.mounted))

theorem fsNamedInode_of_loses (h : Orderly geo fs) (hp : Proper path) {parent : Parent}
    {p : ChisaiSize} {dir : Dir} (hfound : fsPathToParent fs path = .ok (.ok parent))
    (hdir : (volume geo fs).dirs p = some parent.dir)
    (hloses : parent.dir.Loses parent.filePath i dir) : fsNamedInode fs path = .ok (.ok i) := by
  obtain ⟨-, -, hc, -⟩ := fsPathToParent_name hp hfound
  unfold fsNamedInode
  rw [hfound, ok_bind]
  dsimp only
  rw [dirFileInodeIdx_spec (h.named p _ hdir).ended hc.noNul, hloses.found]
  rfl

/-- The file `/f`, inode 3, over two blocks, and the empty directory `/d`. -/
def overTwoBlocks : List Op :=
  [.create [47, 102] 0o100644, .write (newFile 0o100644 3) (List.replicate 513 1) 0,
    .mkdir [47, 100] 0o755]

theorem fsRemoveFile_leaves (ho : Orderly geo fs) (hl : ParentIsDir fs path) (hp : Proper path)
    (he : fsRemoveFile fs path = .ok (.ok, fs₁)) (hi : fsNamedInode fs path = .ok (.ok i)) :
    Orderly geo fs₁ ∧
    (∀ k, blkgrpsDataExist fs₁.blkGrps k = .ok true ↔
      blkgrpsDataExist fs.blkGrps k = .ok true ∧ ¬ MapsBlock fs i 0 k) ∧
    (∀ n k, n ≠ 0 → MapsBlock fs i n k → LeakedBlock fs₁ k) ∧
      ∀ s j, j ≠ i → HasEntry fs i s j → LostInode fs₁ j := by
  have hlaw : (Op.remove path).Lawful fs := hl
  have ho₁ : Orderly geo fs₁ := ho.step hlaw hp (map_eq_ok.mpr ⟨_, he, rfl⟩)
  obtain ⟨parent', p, i', dir, hrm, hinodes, hblocks, hsame⟩ := fsRemoveFile_releases ho hl hp he
  have hnamed := fsNamedInode_of_loses ho hp hrm.found hrm.isDir hrm.loses
  rw [hnamed] at hi
  obtain rfl : i = i' := (Except.ok.inj (Except.ok.inj hi)).symm
  have hused : i ∈ (volume geo fs).inodeUsed := ho.enters_used ⟨_, hrm.isDir, _, hrm.loses.gone⟩
  refine ⟨ho₁, fun k => ?_, fun n k hn hmap => ?_, fun s j hj hentry => ?_⟩
  · have hmarked : ∀ {fs : Filesystem} (hm : Mounted geo fs),
        blkgrpsDataExist fs.blkGrps k = .ok true ↔ k ∈ (volume geo fs).dataUsed :=
      fun hm => ⟨fun h => (blkgrpsDataExist_eq_ok hm h).mp rfl, blkgrpsDataExist_of_used hm⟩
    rw [hmarked ho₁.mounted, hmarked ho.mounted, hblocks]
    constructor
    · rintro ⟨hk, hne⟩
      exact ⟨hk, fun hmap => hne (hmap.owns ho.mounted).2.1.symm⟩
    · rintro ⟨hk, hmap⟩
      refine ⟨hk, fun heq => hmap ?_⟩
      obtain rfl := Set.mem_singleton_iff.mp heq
      have h0 : ((volume geo fs).inode i).blk 0 ≠ 0 := by
        intro h0
        have hexist := blkgrpsDataExist_of_used ho.mounted hk
        rw [h0] at hexist
        cases hexist
      exact ⟨_, (fsFindInode_iff ho.mounted).mpr ⟨hused, rfl⟩,
        (Inode.blk_of_lt directBlksNum_pos).symm, h0⟩
  · have hown := hmap.owns ho.mounted
    have hne : k ≠ ((volume geo fs).inode i).blk 0 := by
      intro heq
      have hown₀ : (volume geo fs).Owns (i, 0) k := ⟨hown.1, heq.symm, hown.2.2⟩
      exact hn (Fin.ext (congrArg Prod.snd (ho.wellformed.excl hown hown₀)))
    refine ho₁.mounted.leakedBlock_iff.mpr ⟨?_, fun a ha => ?_⟩
    · rw [hblocks]
      exact ⟨ho.wellformed.marked _ _ hown, hne⟩
    · obtain ⟨hu, hblk, h0⟩ := ha
      rw [hinodes] at hu
      rw [hsame] at hblk
      have hown' : (volume geo fs).Owns a k := ⟨hu.1, hblk, h0⟩
      have heq : a = (i, n.val) := ho.wellformed.excl hown' hown
      exact hu.2 (congrArg Prod.fst heq)
  · have hin := ho.enters_iff.mpr ⟨s, hentry⟩
    refine ho₁.lostInode_iff.mpr ⟨?_, fun t ht => ?_⟩
    · rw [hinodes]
      exact ⟨ho.enters_used hin, hj⟩
    · obtain ⟨hti, ht⟩ := hrm.enters ht
      exact hti (ho.enters_unique ht hin)

/-- After the removal of `/f` block 3 is leaked, and making a directory does not give it out. -/
theorem leaks_permanent_overTwoBlocks :
    ∃ fs fs₁ fs', NamedReachable smallDisk fs ∧ fsRemoveFile fs [47, 102] = .ok (.ok, fs₁) ∧
      LeakedBlock fs₁ 3 ∧ (Op.mkdir [47, 101] 0o755).step fs₁ = .ok fs' ∧ LeakedBlock fs' 3 := by
  have hrun : ∃ fs, NamedReachable smallDisk fs ∧ (ParentIsDir fs [47, 102] ∧
      fsNamedInode fs [47, 102] = .ok (.ok 3) ∧ MapsBlock fs 3 1 3 ∧
      Yields (fsRemoveFile fs [47, 102]) fun r => r.1 = .ok ∧
        (Op.mkdir [47, 101] 0o755).Lawful r.2 ∧
        Yields ((Op.mkdir [47, 101] 0o755).step r.2) fun _ => True) := by
    apply exists_named overTwoBlocks
    decide +kernel
  obtain ⟨fs, h, hl, hi, hmap, ⟨r, fs₁⟩, he, rfl, hlaw, fs', hstep, -⟩ := hrun
  obtain ⟨-, -, hleaked, -⟩ := fsRemoveFile_leaves h.orderly hl (by decide) he hi
  have hk := hleaked 1 3 (by decide) hmap
  have hnamed : NamedReachable smallDisk fs₁ := by
    obtain ⟨fs₀, hmount, hrun⟩ := h
    exact ⟨fs₀, hmount, .tail (.remove [47, 102]) hrun ⟨hl, by decide⟩ (map_eq_ok.mpr ⟨_, he, rfl⟩)⟩
  exact ⟨fs, fs₁, fs', h, he, hk, hstep,
    (leaks_permanent hnamed (.tail _ .refl ⟨hlaw, by decide⟩ hstep)).1 3 hk⟩

/-- A removal releases the first block of the inode and no other, and no inode below it. Every
other block of the inode and everything that a removed directory listed is lost for the rest of the
run. -/
theorem removal_leaks (h : NamedReachable geo fs) (hl : ParentIsDir fs path) (hp : Proper path)
    (he : fsRemoveFile fs path = .ok (.ok, fs₁)) (hi : fsNamedInode fs path = .ok (.ok i))
    (hrun : Later fs₁ fs') :
    (∀ k, blkgrpsDataExist fs₁.blkGrps k = .ok true ↔
      blkgrpsDataExist fs.blkGrps k = .ok true ∧ ¬ MapsBlock fs i 0 k) ∧
    (∀ n k, n ≠ 0 → MapsBlock fs i n k → LeakedBlock fs' k) ∧
      ∀ s j, j ≠ i → HasEntry fs i s j → LostInode fs' j := by
  obtain ⟨ho₁, hfree, hleaked, hlost⟩ := fsRemoveFile_leaves h.orderly hl hp he hi
  exact ⟨hfree, fun n k hn hmap => hrun.leaked ho₁ (hleaked n k hn hmap),
    fun s j hj hentry => hrun.lost ho₁ (hlost s j hj hentry)⟩

/-- Removing `/f`, whose blocks are 2 and 3. -/
theorem removal_leaks_overTwoBlocks :
    ∃ fs fs', NamedReachable smallDisk fs ∧ fsRemoveFile fs [47, 102] = .ok (.ok, fs') ∧
      MapsBlock fs 3 0 2 ∧ MapsBlock fs 3 1 3 ∧ blkgrpsDataExist fs'.blkGrps 2 ≠ .ok true ∧
      LeakedBlock fs' 3 := by
  have hrun : ∃ fs, NamedReachable smallDisk fs ∧ (ParentIsDir fs [47, 102] ∧
      (Yields (fsRemoveFile fs [47, 102]) fun r => r.1 = .ok) ∧
      fsNamedInode fs [47, 102] = .ok (.ok 3) ∧ MapsBlock fs 3 0 2 ∧ MapsBlock fs 3 1 3) := by
    apply exists_named overTwoBlocks
    decide +kernel
  obtain ⟨fs, h, hl, ⟨⟨r, fs'⟩, he, rfl⟩, hi, hfirst, hsecond⟩ := hrun
  obtain ⟨hfree, hleaked, -⟩ := removal_leaks h hl (by decide) he hi .refl
  exact ⟨fs, fs', h, he, hfirst, hsecond, fun hk => ((hfree 2).mp hk).2 hfirst,
    hleaked 1 3 (by decide) hsecond⟩

/-- A rename that fails after it has found the source takes the only entry of the inode away, and
the inode is lost for the rest of the run. -/
theorem failed_rename_permanent (h : NamedReachable geo fs) (hl : (Op.rename src dst).Lawful fs)
    (hp : (Op.rename src dst).Named) (he : fsRenameFile fs src dst = .ok (r, fs₁)) (hr : r ≠ .ok)
    (hi : fsNamedInode fs src = .ok (.ok i)) (h0 : i ≠ 0) (hrun : Later fs₁ fs') : LostInode fs' i := by
  have ho := h.orderly
  have ho₁ : Orderly geo fs₁ := ho.step hl hp (map_eq_ok.mpr ⟨_, he, rfl⟩)
  rcases fsRenameFile_eq_ok he with
    ⟨-, -, hm⟩ | ⟨source', j, dir, fs₂, hp', hj, hrem, hsave, ⟨-, rfl⟩ | ⟨-, -, -, -, -, hok⟩⟩
  · obtain ⟨found, hfound, hi⟩ := bind_eq_ok.mp hi
    cases found with
    | error e => cases hi
    | ok source =>
      dsimp only at hi
      rw [hm source hfound] at hi
      exact absurd (Except.ok.inj (Except.ok.inj hi)).symm h0
  · obtain ⟨p, hun⟩ := fsSaveDir_unlinks ho hl.1 hp.1 hp' hj hrem hsave
    rw [fsNamedInode_of_loses ho hp.1 hp' hun.isDir hun.loses] at hi
    obtain rfl : j = i := Except.ok.inj (Except.ok.inj hi)
    refine hrun.lost ho₁ (ho₁.lostInode_iff.mpr ⟨?_, fun q hq => ?_⟩)
    · rw [hun.inodes.2]
      exact ho.enters_used ⟨_, hun.isDir, _, hun.loses.gone⟩
    · obtain ⟨s, hs⟩ := ho₁.enters_iff.mp hq
      exact hun.free _ (hs.refers ho₁.mounted)
  · exact absurd hok hr

/-- Renaming `/f` to `/x/f` where there is no `/x`. -/
theorem failed_rename_permanent_overTwoBlocks :
    ∃ fs fs' r, NamedReachable smallDisk fs ∧
      fsRenameFile fs [47, 102] [47, 120, 47, 102] = .ok (r, fs') ∧ LostInode fs' 3 := by
  have hrun : ∃ fs, NamedReachable smallDisk fs ∧
      ((Op.rename [47, 102] [47, 120, 47, 102]).Lawful fs ∧
      (Yields (fsRenameFile fs [47, 102] [47, 120, 47, 102]) fun r => r.1 ≠ .ok) ∧
      fsNamedInode fs [47, 102] = .ok (.ok 3)) := by
    apply exists_named overTwoBlocks
    decide +kernel
  obtain ⟨fs, h, hl, ⟨⟨r, fs'⟩, he, hr⟩, hi⟩ := hrun
  exact ⟨fs, fs', r, h, he, failed_rename_permanent h hl (by decide) he hr hi (by decide) .refl⟩

theorem Orderly.enters_of_full (h : Orderly geo fs) (hl : op.Lawful fs) (hn : op.Named)
    (hop : op = .mkdir path mode ∨ op = .create path mode) (hs : op.step fs = .ok fs₁)
    (hfull : ¬ ParentHasRoom fs path) {p : ChisaiSize} (hp : (volume geo fs₁).dirs.Enters p i) :
    (volume geo fs).dirs.Enters p i := by
  have hsame : ∀ {parent : Parent} {q j : ChisaiSize} {inserted : Bool} {dir : Dir},
      fsPathToParent fs path = .ok (.ok parent) → (volume geo fs).dirs q = some parent.dir →
      Proper path → dirInsert parent.dir parent.filePath j = .ok (inserted, dir) →
      dir = parent.dir := by
    intro parent q j inserted dir hf hdir hproper hins
    obtain ⟨-, -, hc, hlen⟩ := fsPathToParent_name hproper hf
    rcases (h.named q _ hdir).insert hc hlen hins with ⟨-, hd, -⟩ | ⟨-, hgain⟩
    · exact hd
    · refine absurd (fun parent' hf' => ?_) hfull
      cases hf.symm.trans hf'
      exact hgain.room
  rcases hop with rfl | rfl
  · obtain ⟨⟨r, _⟩, he, rfl⟩ := map_eq_ok.mp hs
    rcases fsMkdir_dirs h hl he with ⟨-, hd⟩ | ⟨-, parent, q, j, inserted, dir, hmade⟩
    · exact hd ▸ hp
    obtain ⟨-, hdir, -⟩ := h.parentDir hmade.at_ (hl parent hmade.absent.1)
    rw [hmade.dirs, hsame hmade.absent.1 hdir hn hmade.insert] at hp
    rcases hp.of_update with ⟨-, hp⟩ | ⟨-, d, hd, s, he⟩
    · rcases hp.of_update with ⟨-, hp⟩ | ⟨rfl, d, hd, s, he⟩
      · exact hp
      · cases hd
        exact ⟨_, hdir, s, he⟩
    · split_ifs at hd
      cases hd
      cases he
  · obtain ⟨⟨r, file, _⟩, he, rfl⟩ := map_eq_ok.mp hs
    rcases fsCreateFile_dirs h hl.1 (not_sIsdir_of_sIsreg hl.2) he with
      ⟨-, hd⟩ | ⟨-, parent, q, inserted, dir, habs, hat, -, hins, hdirs⟩
    · exact hd ▸ hp
    obtain ⟨-, hdir, -⟩ := h.parentDir hat (hl.1 parent habs.1)
    rw [hdirs, hsame habs.1 hdir hn hins] at hp
    rcases hp.of_update with ⟨-, hp⟩ | ⟨rfl, d, hd, s, he⟩
    · exact hp
    · cases hd
      exact ⟨_, hdir, s, he⟩

theorem Op.call_marks (ho : Orderly geo fs) (hop : op = .mkdir path mode ∨ op = .create path mode)
    (he : op.call fs = .ok (.ok, fs₁)) : ∃ i, geo.InRange i ∧ i ∉ (volume geo fs).inodeUsed ∧
      (volume geo fs₁).inodeUsed = insert i (volume geo fs).inodeUsed := by
  rcases hop with rfl | rfl
  · rcases (fsMkdir_volume ho.mounted he).2 with
      ⟨hr, -⟩ | ⟨-, parent, p, k, i, inserted, dir, -, -, -, -, hir, hi, -, hv⟩
    · exact absurd rfl hr
    · exact ⟨i, hir, hi, by rw [hv]; rfl⟩
  · obtain ⟨⟨r, file, _⟩, hcreate, hres⟩ := map_eq_ok.mp he
    cases hres
    rcases (fsCreateFile_volume ho.mounted hcreate).2 with
      ⟨hr, -⟩ | ⟨-, parent, p, i, inserted, dir, -, -, hir, hi, -, -, hv⟩
    · exact absurd rfl hr
    · exact ⟨i, hir, hi, by rw [hv]; rfl⟩

/-- A creation that fails does not release the block that it has marked, and one that returns OK in
a full directory marks an inode for which there is no entry. Both are lost for the rest of the
run. -/
theorem creation_leaks (h : NamedReachable geo fs) (hl : op.Lawful fs) (hn : op.Named)
    (hop : op = .mkdir path mode ∨ op = .create path mode) (he : op.call fs = .ok (r, fs₁))
    (hrun : Later fs₁ fs') :
    (r ≠ .ok → ∀ k, blkgrpsDataExist fs.blkGrps k = .ok false →
      blkgrpsDataExist fs₁.blkGrps k = .ok true → LeakedBlock fs' k) ∧
    (r = .ok → ¬ ParentHasRoom fs path → ∃ i, blkgrpsInodeExist fs.blkGrps i = .ok false ∧
      (∀ j, blkgrpsInodeExist fs₁.blkGrps j = .ok true ↔
        blkgrpsInodeExist fs.blkGrps j = .ok true ∨ j = i) ∧ LostInode fs' i) := by
  have ho := h.orderly
  have hs : op.step fs = .ok fs₁ := Op.step_of_call he
  have ho₁ := ho.step hl hn hs
  constructor
  · intro hr k hk hk'
    refine hrun.leaked ho₁ (ho₁.mounted.leakedBlock_iff.mpr
      ⟨(blkgrpsDataExist_eq_ok ho₁.mounted hk').mp rfl, fun a ha => ?_⟩)
    have hfree : k ∉ (volume geo fs).dataUsed := fun hu =>
      Bool.noConfusion ((blkgrpsDataExist_eq_ok ho.mounted hk).mpr hu)
    -- A failed creation leaves the inodes as they are.
    have howns : (volume geo fs).Owns a k := by
      rcases hop with rfl | rfl
      · rcases (fsMkdir_volume ho.mounted he).2 with ⟨-, hv | ⟨m, -, hv⟩⟩ | ⟨hok, -⟩
        · exact hv ▸ ha
        · rw [hv] at ha
          exact ha
        · exact absurd hok hr
      · obtain ⟨⟨r', file, _⟩, hcreate, hres⟩ := map_eq_ok.mp he
        cases hres
        rcases (fsCreateFile_volume ho.mounted hcreate).2 with ⟨-, -, hv⟩ | ⟨hok, -⟩
        · exact hv ▸ ha
        · exact absurd hok hr
    exact hfree (ho.wellformed.marked _ _ howns)
  · rintro rfl hfull
    obtain ⟨i, hir, hi, hinodes⟩ := Op.call_marks ho hop he
    have hexist : ∀ {fs : Filesystem} (hm : Mounted geo fs) (j : ChisaiSize),
        blkgrpsInodeExist fs.blkGrps j = .ok true ↔ j ∈ (volume geo fs).inodeUsed :=
      fun hm j => ⟨fun h => (blkgrpsInodeExist_eq_ok hm h).mp rfl, blkgrpsInodeExist_of_used hm⟩
    refine ⟨i, ?_, fun j => ?_, hrun.lost ho₁ (ho₁.lostInode_iff.mpr ⟨?_, fun p hp => ?_⟩)⟩
    · obtain ⟨found, hfound⟩ := blkgrpsInodeExist_of_inRange ho.mounted hir
      cases found with
      | false => exact hfound
      | true => exact absurd ((hexist ho.mounted i).mp hfound) hi
    · rw [hexist ho₁.mounted, hexist ho.mounted, hinodes, Set.mem_insert_iff, or_comm]
    · rw [hinodes]
      exact Set.mem_insert i _
    · exact hi (ho.enters_used (ho.enters_of_full hl hn hop hs hfull hp))

/-- Creating `/p` in `fullRoot`. -/
theorem creation_leaks_fullRoot :
    ∃ fs fs' i, NamedReachable smallDisk fs ∧
      (Op.create [47, 112] 0o100644).call fs = .ok (.ok, fs') ∧
      blkgrpsInodeExist fs.blkGrps i = .ok false ∧ LostInode fs' i := by
  have hrun : ∃ fs, NamedReachable smallDisk fs ∧ ((Op.create [47, 112] 0o100644).Lawful fs ∧
      ¬ ParentHasRoom fs [47, 112] ∧
      Yields ((Op.create [47, 112] 0o100644).call fs) fun r => r.1 = .ok) := by
    apply exists_named fullRoot
    decide +kernel
  obtain ⟨fs, h, hl, hfull, ⟨r, fs'⟩, he, rfl⟩ := hrun
  obtain ⟨i, hi, -, hlost⟩ := (creation_leaks h hl (by decide) (Or.inr rfl) he .refl).2 rfl hfull
  exact ⟨fs, fs', i, h, he, hi, hlost⟩

end Results

end ChisaiFs
