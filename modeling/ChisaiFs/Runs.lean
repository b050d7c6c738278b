import ChisaiFs.Mounting

/-! Runs of the six mutating operations on a freshly mounted device. In every state reached
no data block is shared and no inode has two directory entries. -/

namespace ChisaiFs
open Cells Outcome Relator

inductive Op
  | mkdir (path : CString) (mode : UInt32)
  | create (path : CString) (mode : UInt32)
  | write (file : FileInfo) (buf : List UInt8) (off : ℕ)
  | truncate (file : FileInfo) (size : ℕ)
  | rename (src dst : CString)
  | remove (path : CString)

def Op.step (fs : Filesystem) : Op → Exec Filesystem
  | .mkdir path mode => Prod.snd <$> fsMkdir fs path mode
  | .create path mode => (fun r => r.2.2) <$> fsCreateFile fs path mode ⟨inodeInit, noInode⟩
  | .write file buf off => (fun r => r.2.2) <$> fsWriteFile fs file buf off
  | .truncate file size => (fun r => r.2.2) <$> fsTruncateFile fs file size
  | .rename src dst => Prod.snd <$> fsRenameFile fs src dst
  | .remove path => Prod.snd <$> fsRemoveFile fs path

/-- The parent that the path leads to, if any, is a directory. -/
def ParentIsDir (fs : Filesystem) (path : CString) : Prop :=
  ∀ parent, fsPathToParent fs path = .ok (.ok parent) → sIsdir parent.inode.mode

/-- The handle of a regular file, as just loaded from the device. -/
def FreshFile (fs : Filesystem) (file : FileInfo) : Prop :=
  fsFindInode fs file.idx = .ok (some file.inode) ∧ sIsreg file.inode.mode

/-- What the kernel has checked before each call, and the limits of the direct blocks. -/
def Op.Lawful (fs : Filesystem) : Op → Prop
  | .mkdir path _ => ParentIsDir fs path
  | .create path mode => ParentIsDir fs path ∧ sIsreg mode
  | .write file buf off => FreshFile fs file ∧
      off + buf.length ≤ directBlksNum * fs.sb.blockSize.toNat
  | .truncate file _ => FreshFile fs file
  | .rename src dst => ParentIsDir fs src ∧ ParentIsDir fs dst
  | .remove path => ParentIsDir fs path

instance (fs : Filesystem) (path : CString) : Decidable (ParentIsDir fs path) :=
  match h : fsPathToParent fs path with
  | .ok (.ok parent) =>
    decidable_of_iff (sIsdir parent.inode.mode)
      ⟨fun hd p hp => by rw [h] at hp; cases hp; exact hd, fun hd => hd parent h⟩
  | .ok (.error _) => isTrue fun p hp => by rw [h] at hp; cases hp
  | .error _ => isTrue fun p hp => by rw [h] at hp; cases hp

instance (fs : Filesystem) (file : FileInfo) : Decidable (FreshFile fs file) :=
  inferInstanceAs (Decidable (_ ∧ _))

instance (fs : Filesystem) : (op : Op) → Decidable (op.Lawful fs)
  | .mkdir path _ => inferInstanceAs (Decidable (ParentIsDir fs path))
  | .create path mode => inferInstanceAs (Decidable (ParentIsDir fs path ∧ sIsreg mode))
  | .write file buf off => inferInstanceAs (Decidable (FreshFile fs file ∧
      off + buf.length ≤ directBlksNum * fs.sb.blockSize.toNat))
  | .truncate file _ => inferInstanceAs (Decidable (FreshFile fs file))
  | .rename src dst => inferInstanceAs (Decidable (ParentIsDir fs src ∧ ParentIsDir fs dst))
  | .remove path => inferInstanceAs (Decidable (ParentIsDir fs path))

section Steps

variable {geo : Geometry} {fs fs' : Filesystem} {path src dst : CString} {mode : UInt32}
  {r : ChisaiError}

theorem Parent.At.blk_ne (hm : Mounted geo fs) {parent : Parent} {p : ChisaiSize}
    (h : parent.At (volume geo fs) p) : ((volume geo fs).inode p).blk 0 ≠ 0 := by
  have hr := (hm.dataUsed_inRange h.marked).1
  rw [h.inode] at hr
  exact hr

theorem Parent.At.dir_eq {v : Volume} {parent : Parent} {p : ChisaiSize} (h : parent.At v p) :
    parent.dir = v.dirOf p ∧ parent.inode.directBlks[0] = (v.inode p).blk 0 := by
  rw [h.dir, h.inode]
  exact ⟨rfl, rfl⟩

theorem newDirInode_blk (mode : UInt32) (k : ChisaiSize) (n : ℕ) :
    (newDirInode mode k).blk n = if n = 0 then k else 0 := by
  rw [newDirInode, blk_inodeAddBlock]
  exact if_congr Iff.rfl rfl (inodeInit_blk n)

theorem fsMkdir_wellformed (hm : Mounted geo fs) (h : (volume geo fs).Wellformed)
    (he : fsMkdir fs path mode = .ok (r, fs')) :
    Mounted geo fs' ∧ (volume geo fs').Wellformed := by
  obtain ⟨hm', hcase⟩ := fsMkdir_volume hm he
  refine ⟨hm', ?_⟩
  rcases hcase with ⟨-, hv | ⟨k, -, hv⟩⟩ |
    ⟨-, parent, p, k, i, inserted, dir, -, hat, hkr, hkn, hir, hin, hins, hv⟩
  · exact hv ▸ h
  · exact hv ▸ h.useData k
  · rw [hat.dir_eq.1] at hins
    rw [hat.dir_eq.2] at hv
    rw [hv]
    exact h.newDir hin hkn hkr.1 (newDirInode_blk mode k) hat.used (hat.blk_ne hm)
      (hat.dir_eq.2 ▸ hat.marked) hins

theorem fsCreateFile_wellformed (hm : Mounted geo fs) (h : (volume geo fs).Wellformed)
    (hmode : sIsreg mode) {file file' : FileInfo}
    (he : fsCreateFile fs path mode file = .ok (r, file', fs')) :
    Mounted geo fs' ∧ (volume geo fs').Wellformed := by
  obtain ⟨hm', hcase⟩ := fsCreateFile_volume hm he
  refine ⟨hm', ?_⟩
  rcases hcase with ⟨-, -, hv⟩ | ⟨-, parent, p, i, inserted, dir, -, hat, hir, hin, rfl, hins, hv⟩
  · exact hv ▸ h
  · rw [hat.dir_eq.1] at hins
    rw [hat.dir_eq.2] at hv
    rw [hv]
    exact h.newFile (x := inodeSetMode inodeInit mode) hin inodeInit_blk hmode hat.used
      (hat.blk_ne hm) hins

theorem fsRenameFile_wellformed (hm : Mounted geo fs) (h : (volume geo fs).Wellformed)
    (hsrc : ParentIsDir fs src) (he : fsRenameFile fs src dst = .ok (r, fs')) :
    Mounted geo fs' ∧ (volume geo fs').Wellformed := by
  obtain ⟨hm', hcase⟩ := fsRenameFile_volume hm he
  refine ⟨hm', ?_⟩
  rcases hcase with ⟨-, hv⟩ | ⟨source, p, j, hl, fs₁, hp, hat, hj, -, hm₁, hv₁, hcase⟩
  · exact hv ▸ h
  have hdir : (volume geo fs).IsDir p := ⟨hat.used, hat.inode ▸ hsrc source hp⟩
  have hlt := dirFind_lt hj
  obtain ⟨hsd, hsb⟩ := hat.dir_eq
  have hunlink : (volume geo fs₁).Wellformed ∧
      ∀ a, ¬ (volume geo fs₁).Refers a (source.dir.idxAt j) := by
    rw [hv₁, hsb]
    generalize source.dir = dir at hsd hlt hl
    subst hsd
    exact h.unlink hdir hlt hl
  rcases hcase with ⟨-, rfl⟩ | ⟨-, target, p₂, dir', -, hat₂, hins, hv⟩
  · exact hunlink.1
  · have href : (volume geo fs).Refers (p, j) (source.dir.idxAt j) := by
      rw [hsd] at hlt ⊢
      exact ⟨hdir, hlt, rfl⟩
    obtain ⟨hu, hbad, hroot⟩ := h.refUsed _ _ href
    rw [hat₂.dir_eq.1] at hins
    rw [hat₂.dir_eq.2] at hv
    rw [hv]
    refine hunlink.1.enter hat₂.used (hat₂.blk_ne hm₁) hins ?_ hbad hroot hunlink.2
    rw [hv₁]
    exact hu

theorem fsRemoveFile_wellformed (hm : Mounted geo fs) (h : (volume geo fs).Wellformed)
    (hpath : ParentIsDir fs path) (he : fsRemoveFile fs path = .ok (r, fs')) :
    Mounted geo fs' ∧ (volume geo fs').Wellformed := by
  obtain ⟨hm', hcase⟩ := fsRemoveFile_volume hm he
  refine ⟨hm', ?_⟩
  rcases hcase with ⟨-, hv⟩ | ⟨-, parent, p, j, hl, hp, hat, hj, hu, hv⟩
  · exact hv ▸ h
  have hdir : (volume geo fs).IsDir p := ⟨hat.used, hat.inode ▸ hpath parent hp⟩
  have hlt := dirFind_lt hj
  obtain ⟨hpd, hpb⟩ := hat.dir_eq
  rw [hpb] at hv
  generalize parent.dir = dir at hpd hlt hl hu hv
  subst hpd
  rw [hv]
  exact h.removeEntry hdir hlt hl rfl

theorem FreshFile.iff (h : Mounted geo fs) : FreshFile fs file ↔
    file.idx ∈ (volume geo fs).inodeUsed ∧ (volume geo fs).inode file.idx = file.inode ∧
      sIsreg file.inode.mode := by
  rw [FreshFile, fsFindInode_iff h, and_assoc]

theorem FreshFile.owns (hm : Mounted geo fs) (hf : FreshFile fs file) {n : ℕ}
    (hn : file.inode.blk n ≠ 0) : (volume geo fs).Owns (file.idx, n) (file.inode.blk n) := by
  obtain ⟨hused, hinode, -⟩ := (FreshFile.iff hm).mp hf
  exact ⟨hused, by rw [hinode], hn⟩

theorem FreshFile.carries (hm : Mounted geo fs) (h : (volume geo fs).Wellformed) {file : FileInfo}
    (hf : FreshFile fs file) : Volume.Carries file.idx (volume geo fs) file.inode := by
  obtain ⟨hfind, hreg⟩ := hf
  rcases fsFindInode_eq_ok hm hfind with ⟨hu, he⟩ | ⟨-, he⟩
  · refine ⟨?_, hu, hreg⟩
    rw [Option.some.inj he, Volume.setInode_self]
    exact h
  · cases he

theorem fsWriteFile_wellformed (hm : Mounted geo fs) (h : (volume geo fs).Wellformed)
    {file file' : FileInfo} {buf : List UInt8} {off : ℕ} {ret : ℤ} (hf : FreshFile fs file)
    (hrange : off % geo.span + buf.length ≤ directBlksNum * geo.blkSize)
    (he : fsWriteFile fs file buf off = .ok (ret, file', fs')) :
    Mounted geo fs' ∧ (volume geo fs').Wellformed := by
  obtain ⟨hm', c, hsteps, -, -, -, rfl, hv⟩ := fsWriteFile_confined hm rfl hrange he
  have hc : Volume.Carries file.idx c.vol c.inode := by
    clear hv he
    induction hsteps with
    | refl => exact hf.carries hm h
    | tail _ hs ih => exact ih.step hs
  exact ⟨hm', hv ▸ hc.store _⟩

theorem fsTruncateFile_wellformed (hm : Mounted geo fs) (h : (volume geo fs).Wellformed)
    {file file' : FileInfo} {size : ℕ} (hf : FreshFile fs file)
    (he : fsTruncateFile fs file size = .ok (r, file', fs')) :
    Mounted geo fs' ∧ (volume geo fs').Wellformed := by
  obtain ⟨hm', -, v, inode, hsteps, rfl, hv⟩ := fsTruncateFile_eq_ok hm he
  have hc : ∀ c, Relation.ReflTransGen Shrink (volume geo fs, file.inode) c →
      Volume.Carries file.idx c.1 c.2 := by
    intro c hc
    induction hc with
    | refl => exact hf.carries hm h
    | tail _ hs ih => exact ih.shrink hs
  exact ⟨hm', hv ▸ (hc _ hsteps).store _⟩

theorem Op.step_wellformed (hm : Mounted geo fs) (h : (volume geo fs).Wellformed) {op : Op}
    (hl : op.Lawful fs) (hs : op.step fs = .ok fs') :
    Mounted geo fs' ∧ (volume geo fs').Wellformed := by
  cases op with
  | mkdir path mode =>
    obtain ⟨⟨r, _⟩, he, rfl⟩ := map_eq_ok.mp hs
    exact fsMkdir_wellformed hm h he
  | create path mode =>
    obtain ⟨⟨r, file, _⟩, he, rfl⟩ := map_eq_ok.mp hs
    exact fsCreateFile_wellformed hm h hl.2 he
  | write file buf off =>
    obtain ⟨⟨ret, file', _⟩, he, rfl⟩ := map_eq_ok.mp hs
    have hrange := hl.2
    have hmod := Nat.mod_le off geo.span
    rw [hm.blockSize] at hrange
    exact fsWriteFile_wellformed hm h hl.1 (by omega) he
  | truncate file size =>
    obtain ⟨⟨r, file', _⟩, he, rfl⟩ := map_eq_ok.mp hs
    exact fsTruncateFile_wellformed hm h hl he
  | rename src dst =>
    obtain ⟨⟨r, _⟩, he, rfl⟩ := map_eq_ok.mp hs
    exact fsRenameFile_wellformed hm h hl.1 he
  | remove path =>
    obtain ⟨⟨r, _⟩, he, rfl⟩ := map_eq_ok.mp hs
    exact fsRemoveFile_wellformed hm h hl he

end Steps

def Reachable (geo : Geometry) (fs : Filesystem) : Prop :=
  ∃ fs₀, freshMount geo = .ok fs₀ ∧ Reaches Op.step (fun s op => op.Lawful s) fs₀ fs

def MapsBlock (fs : Filesystem) (i : ChisaiSize) (n : Fin directBlksNum) (k : ChisaiSize) : Prop :=
  Finds (fsFindInode fs i) fun x => x.directBlks[n] = k ∧ k ≠ 0

def HasEntry (fs : Filesystem) (i : ChisaiSize) (s : Fin chisaiFilePerDir) (r : ChisaiSize) :
    Prop :=
  Finds (fsFindInode fs i) fun x => sIsdir x.mode ∧
    Finds (fsFindDir fs (getElem x.directBlks 0 directBlksNum_pos)) fun dir =>
      s < dir.size.toNat ∧ dir.idxAt s = r

instance (fs : Filesystem) (i : ChisaiSize) (n : Fin directBlksNum) (k : ChisaiSize) :
    Decidable (MapsBlock fs i n k) := inferInstanceAs (Decidable (Finds _ _))

instance (fs : Filesystem) (i : ChisaiSize) (s : Fin chisaiFilePerDir) (r : ChisaiSize) :
    Decidable (HasEntry fs i s r) := inferInstanceAs (Decidable (Finds _ _))

section Laws

variable {geo : Geometry} {fs : Filesystem}

theorem Reachable.wellformed (h : Reachable geo fs) :
    Mounted geo fs ∧ (volume geo fs).Wellformed := by
  obtain ⟨fs₀, hmount, hrun⟩ := h
  obtain ⟨hm, -, hw⟩ := freshMount_spec hmount
  exact hrun.invariant (fun s => Mounted geo s ∧ (volume geo s).Wellformed)
    (fun s op t h hl hs => Op.step_wellformed h.1 h.2 hl hs) ⟨hm, hw⟩

theorem MapsBlock.owns (hm : Mounted geo fs) {i k : ChisaiSize} {n : Fin directBlksNum}
    (h : MapsBlock fs i n k) : (volume geo fs).Owns (i, n) k := by
  obtain ⟨x, hx, hk, h0⟩ := h
  obtain ⟨hi, rfl⟩ := (fsFindInode_iff hm).mp hx
  exact ⟨hi, (Inode.blk_of_lt n.isLt).trans hk, h0⟩

theorem HasEntry.refers (hm : Mounted geo fs) {i r : ChisaiSize} {s : Fin chisaiFilePerDir}
    (h : HasEntry fs i s r) : (volume geo fs).Refers (i, s) r := by
  obtain ⟨x, hx, hd, dir, hdir, hs, hr⟩ := h
  obtain ⟨hi, rfl⟩ := (fsFindInode_iff hm).mp hx
  obtain ⟨-, rfl⟩ := (fsFindDir_iff hm).mp hdir
  exact ⟨⟨hi, hd⟩, hs, hr⟩

theorem exists_reachable (ops : List Op) {p : Filesystem → Prop} [DecidablePred p]
    (h : Yields (freshMount smallDisk) fun fs =>
      ((runAllowed Op.step (fun s op => op.Lawful s) fs ops).any fun s => decide (p s)) = true) :
    ∃ fs, Reachable smallDisk fs ∧ p fs := by
  obtain ⟨fs₀, fs, hmount, hrun, hp⟩ := exists_run id ops h
  exact ⟨fs, ⟨fs₀, hmount, hrun⟩, hp⟩

/-- Directory `/d`, inode 3, with the file `/d/f`, inode 4, of three bytes. -/
def oneFile : List Op :=
  [.mkdir [47, 100] 0o755, .create [47, 100, 47, 102] 0o100644,
    .write (newFile 0o100644 4) [1, 2, 3] 0]

theorem oneFile_reachable :
    ∃ fs, Reachable smallDisk fs ∧ MapsBlock fs 4 0 3 ∧ HasEntry fs 3 0 4 := by
  apply exists_reachable oneFile
  decide +kernel

/-- In every reachable state the mapped blocks are in range, marked and not shared. -/
theorem data_blocks_owned (h : Reachable geo fs) :
    (∀ i n k, MapsBlock fs i n k →
      k.toNat ≤ geo.groups * (8 * geo.blkSize) ∧ blkgrpsDataExist fs.blkGrps k = .ok true) ∧
    ∀ i j n m k, MapsBlock fs i n k → MapsBlock fs j m k → i = j ∧ n = m := by
  obtain ⟨hm, hw⟩ := h.wellformed
  refine ⟨fun i n k hk => ?_, fun i j n m k hi hj => ?_⟩
  · have hu := hw.marked _ _ (hk.owns hm)
    obtain ⟨h0, hr⟩ := hm.dataUsed_inRange hu
    rw [sub_one_toNat h0] at hr
    change k.toNat - 1 < geo.groups * (8 * geo.blkSize) at hr
    exact ⟨by omega, blkgrpsDataExist_of_used hm hu⟩
  · have he := hw.excl (hi.owns hm) (hj.owns hm)
    exact ⟨congrArg Prod.fst he, Fin.ext (congrArg Prod.snd he)⟩

theorem data_blocks_owned_oneFile :
    ∃ fs, Reachable smallDisk fs ∧ MapsBlock fs 4 0 3 ∧
      blkgrpsDataExist fs.blkGrps 3 = .ok true := by
  obtain ⟨fs, h, hmap, -⟩ := oneFile_reachable
  exact ⟨fs, h, hmap, ((data_blocks_owned h).1 4 0 3 hmap).2⟩

/-- In every reachable state each directory holds at most 15 entries, which refer to
allocated inodes other than the reserved ones, and no inode has two entries. -/
theorem namespace_integrity (h : Reachable geo fs) :
    (∀ i x, fsFindInode fs i = .ok (some x) → sIsdir x.mode →
      ∃ dir, fsFindDir fs x.directBlks[0] = .ok (some dir) ∧
        dir.size.toNat ≤ chisaiFilePerDir) ∧
    (∀ i s r, HasEntry fs i s r → r ≠ 0 ∧ r ≠ badblkInode ∧ r ≠ rootInode ∧
      blkgrpsInodeExist fs.blkGrps r = .ok true) ∧
    ∀ i j s t r, HasEntry fs i s r → HasEntry fs j t r → i = j ∧ s = t := by
  obtain ⟨hm, hw⟩ := h.wellformed
  refine ⟨fun i x hx hd => ?_, fun i s r hr => ?_, fun i j s t r hi hj => ?_⟩
  · obtain ⟨hi, rfl⟩ := (fsFindInode_iff hm).mp hx
    have hdir : (volume geo fs).IsDir i := ⟨hi, hd⟩
    have hu := hw.marked (i, 0) _ ⟨hi, rfl, hw.dirBlock i hdir⟩
    exact ⟨_, fsFindDir_of_used hm hu, hw.dirSize i hdir⟩
  · obtain ⟨hu, hbad, hroot⟩ := hw.refUsed _ _ (hr.refers hm)
    exact ⟨(hm.inodeUsed_inRange hu).1, hbad, hroot, blkgrpsInodeExist_of_used hm hu⟩
  · have he := hw.refUnique (hi.refers hm) (hj.refers hm)
    exact ⟨congrArg Prod.fst he, congrArg Prod.snd he⟩

theorem namespace_integrity_oneFile :
    ∃ fs, Reachable smallDisk fs ∧ HasEntry fs 3 0 4 ∧
      blkgrpsInodeExist fs.blkGrps 4 = .ok true := by
  obtain ⟨fs, h, -, hentry⟩ := oneFile_reachable
  exact ⟨fs, h, hentry, ((namespace_integrity h).2.1 3 0 4 hentry).2.2.2⟩

end Laws

end ChisaiFs
