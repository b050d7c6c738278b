import ChisaiFs.Effects
import ChisaiFs.Library.ClearCount

/-! The free counters of the superblock against the bitmaps. Allocations keep both in step;
a release does if the bit of its index was set. -/

namespace ChisaiFs
open Cells Outcome ClearCount

def clearBits (geo : Geometry) (ms : List GroupMap) : ℕ :=
  clearCount (ms.length * geo.perGroup) (bitAt geo.perGroup ms)

structure Counted (geo : Geometry) (fs : Filesystem) : Prop where
  blocks : fs.sb.freeBlocks.toNat = clearBits geo fs.blkGrps.data
  inodes : fs.sb.freeInodes.toNat = clearBits geo fs.blkGrps.inode

section Bits

variable {geo : Geometry} {ms ms' : List GroupMap} {k : ChisaiSize} {c : UInt32}

theorem counter_alloc (h : AllocSpec geo.blkSize 0 ms k ms') (hc : c.toNat = clearBits geo ms) :
    (c - if k = 0 then 0 else 1).toNat = clearBits geo ms' := by
  rcases h.cases with ⟨rfl, rfl, -⟩ | ⟨p, hp, hidx, hclear, hbits⟩
  · rw [if_pos rfl, UInt32.sub_zero]
    exact hc
  · have hk : k ≠ 0 := by
      rintro rfl
      rw [UInt32.toNat_zero] at hidx
      omega
    have hset : clearBits geo ms' + 1 = clearBits geo ms := by
      unfold clearBits
      rw [h.length]
      exact clearCount_set hp hclear hbits
    have hc0 : c ≠ 0 := by
      rintro rfl
      rw [UInt32.toNat_zero] at hc
      omega
    rw [if_neg hk, sub_one_toNat hc0]
    omega

theorem counter_release (hlen : ms.length = geo.groups) (hk : k ∈ usedSet geo.perGroup ms)
    (h : (k = 0 ∧ ms' = ms) ∨ (k ≠ 0 ∧ ReleaseSpec geo.blkSize ms k ms'))
    (hc : c.toNat = clearBits geo ms) : (c + 1).toNat = clearBits geo ms' := by
  rcases h with ⟨rfl, -⟩ | ⟨-, hs⟩
  · exact absurd hk (zero_not_used hlen)
  · have hreset : clearBits geo ms' = clearBits geo ms + 1 := by
      unfold clearBits
      rw [hs.length]
      exact clearCount_reset hs.lt hk hs.bits
    have hle := clearCount_le (ms'.length * geo.perGroup) (bitAt geo.perGroup ms')
    have htotal := geo.total_lt
    change clearBits geo ms' ≤ _ at hle
    rw [hs.length, hlen] at hle
    have hlt : c.toNat + (0 + 1) < 2 ^ 32 := by omega
    rw [add_one_toNat hlt]
    omega

end Bits

section Steps

variable {geo : Geometry} {fs fs' : Filesystem} {k : ChisaiSize}

theorem Grow.counted (h : Mounted geo fs) (hc : Counted geo fs) (hs : Grow geo fs fs') :
    Counted geo fs' := by
  cases hs with
  | fill hs =>
    cases hs with
    | alloc he =>
      obtain ⟨ms', hs, rfl⟩ := fsDataAlloc_eq_ok h he
      exact ⟨counter_alloc hs hc.blocks, hc.inodes⟩
    | store hfit hd => exact ⟨hc.blocks, hc.inodes⟩
  | inodeAlloc he =>
    obtain ⟨ms', hs, rfl⟩ := fsInodeAlloc_eq_ok h he
    exact ⟨hc.blocks, counter_alloc hs hc.inodes⟩
  | saveInode he =>
    obtain ⟨-, hsb, hg, -⟩ := fsSaveInode_spec h he
    exact ⟨by rw [hsb, hg]; exact hc.blocks, by rw [hsb, hg]; exact hc.inodes⟩

theorem Grows.counted (h : Mounted geo fs) (hc : Counted geo fs) (hs : Grows geo fs fs') :
    Mounted geo fs' ∧ Counted geo fs' :=
  chain_invariant (Counted geo) (fun _ _ h hs => hs.mounted h) (fun _ _ h hc hs => hs.counted h hc)
    h hc hs

theorem fsDataRelease_counted (h : Mounted geo fs) (hc : Counted geo fs)
    (hk : k ∈ (volume geo fs).dataUsed) (he : fsDataRelease fs k = .ok fs') : Counted geo fs' := by
  obtain ⟨ms', hs, rfl⟩ := fsDataRelease_eq_ok h he
  exact ⟨counter_release h.groups.data_length hk hs hc.blocks, hc.inodes⟩

theorem fsInodeRelease_counted (h : Mounted geo fs) (hc : Counted geo fs)
    (hk : k ∈ (volume geo fs).inodeUsed) (he : fsInodeRelease fs k = .ok fs') :
    Counted geo fs' := by
  obtain ⟨ms', hs, rfl⟩ := fsInodeRelease_eq_ok h he
  exact ⟨hc.blocks, counter_release h.groups.inode_length hk hs hc.inodes⟩

theorem fsTruncateLoop_counted {newBlkcnt n : ℕ} {inode inode' : Inode} (h : Mounted geo fs)
    (hc : Counted geo fs)
    (hmarked : ∀ j < n, inode.blk (newBlkcnt + j) ∈ (volume geo fs).dataUsed)
    (hne : ∀ i < n, ∀ j < n, inode.blk (newBlkcnt + i) = inode.blk (newBlkcnt + j) → i = j)
    (he : fsTruncateLoop newBlkcnt n fs inode = .ok (fs', inode')) :
    Mounted geo fs' ∧ Counted geo fs' := by
  induction n generalizing fs inode with
  | zero =>
    cases he
    exact ⟨h, hc⟩
  | succ n ih =>
    unfold fsTruncateLoop at he
    split_ifs at he with hn
    obtain ⟨_, -, he⟩ := bind_eq_ok.mp he
    obtain ⟨fs₁, hrel, he⟩ := bind_eq_ok.mp he
    obtain ⟨h₁, -, hv₁⟩ := fsDataRelease_spec h hrel
    have hlast : inode.directBlks[newBlkcnt + n] = inode.blk (newBlkcnt + n) :=
      (Inode.blk_of_lt hn).symm
    have hc₁ := fsDataRelease_counted h hc (hlast ▸ hmarked n (Nat.lt_succ_self n)) hrel
    rw [← Inode.setBlk_of_lt hn] at he
    have hkeep : ∀ j < n, (inode.setBlk (newBlkcnt + n) 0).blk (newBlkcnt + j) =
        inode.blk (newBlkcnt + j) := fun j hj => Inode.blk_setBlk_of_ne (by omega)
    refine ih h₁ hc₁ (fun j hj => ?_) (fun i hi j hj hij => ?_) he
    · rw [hkeep j hj, hv₁, hlast]
      refine ⟨hmarked j (by omega), fun hmem => ?_⟩
      have := hne j (by omega) n (by omega) hmem
      omega
    · rw [hkeep i hi, hkeep j hj] at hij
      exact hne i (by omega) j (by omega) hij

end Steps

/-- Every index the operation releases is marked, and it releases none twice. -/
def Op.ReleasesMarked (fs : Filesystem) : Op → Prop
  | .truncate file size => ∀ m n, size / fs.sb.blockSize.toNat ≤ m →
      size / fs.sb.blockSize.toNat ≤ n → m < (inodeGetBlkcnt file.inode).toInt →
      n < (inodeGetBlkcnt file.inode).toInt →
      blkgrpsDataExist fs.blkGrps (file.inode.blk m) = .ok true ∧
        (file.inode.blk m = file.inode.blk n → m = n)
  | .remove path => ∀ parent idx x, fsPathToParent fs path = .ok (.ok parent) →
      dirFileInodeIdx parent.dir parent.filePath = .ok idx →
      fsFindInode fs idx = .ok (some x) →
      blkgrpsDataExist fs.blkGrps (getElem x.directBlks 0 directBlksNum_pos) = .ok true
  | _ => True

instance (fs : Filesystem) : (op : Op) → Decidable (op.ReleasesMarked fs)
  | .mkdir _ _ => isTrue trivial
  | .create _ _ => isTrue trivial
  | .write _ _ _ => isTrue trivial
  | .rename _ _ => isTrue trivial
  | .truncate file size =>
    decidable_of_iff
      ((∀ m < (inodeGetBlkcnt file.inode).toInt.toNat, size / fs.sb.blockSize.toNat ≤ m →
          blkgrpsDataExist fs.blkGrps (file.inode.blk m) = .ok true) ∧
        ∀ m < (inodeGetBlkcnt file.inode).toInt.toNat, size / fs.sb.blockSize.toNat ≤ m →
          ∀ n < (inodeGetBlkcnt file.inode).toInt.toNat, size / fs.sb.blockSize.toNat ≤ n →
          file.inode.blk m = file.inode.blk n → m = n)
      ⟨fun h m n hm hn hm' hn' => ⟨h.1 m (by omega) hm, h.2 m (by omega) hm n (by omega) hn⟩,
        fun h => ⟨fun m hm hm' => (h m m hm' hm' (by omega) (by omega)).1,
          fun m hm hm' n hn hn' => (h m n hm' hn' (by omega) (by omega)).2⟩⟩
  | .remove path =>
    match hp : fsPathToParent fs path with
    | .error _ => isTrue fun _ _ _ h => by rw [hp] at h; cases h
    | .ok (.error _) => isTrue fun _ _ _ h => by rw [hp] at h; cases h
    | .ok (.ok parent) =>
      match hi : dirFileInodeIdx parent.dir parent.filePath with
      | .error _ => isTrue fun _ _ _ h h' => by rw [hp] at h; cases h; rw [hi] at h'; cases h'
      | .ok idx =>
        match hx : fsFindInode fs idx with
        | .error _ => isTrue fun _ _ _ h h' h'' => by
          rw [hp] at h; cases h; rw [hi] at h'; cases h'; rw [hx] at h''; cases h''
        | .ok none => isTrue fun _ _ _ h h' h'' => by
          rw [hp] at h; cases h; rw [hi] at h'; cases h'; rw [hx] at h''; cases h''
        | .ok (some x) =>
          decidable_of_iff
            (blkgrpsDataExist fs.blkGrps (getElem x.directBlks 0 directBlksNum_pos) = .ok true)
            ⟨fun hd _ _ _ h h' h'' => by
              rw [hp] at h; cases h; rw [hi] at h'; cases h'; rw [hx] at h''; cases h''; exact hd,
              fun h => h parent idx x hp hi hx⟩

section Operations

variable {geo : Geometry} {fs fs' fs₀ : Filesystem} {r : ChisaiError}

theorem fsTruncateFile_counted {file file' : FileInfo} {size : ℕ} (h : Mounted geo fs)
    (hc : Counted geo fs) (hrel : (Op.truncate file size).ReleasesMarked fs)
    (he : fsTruncateFile fs file size = .ok (r, file', fs')) :
    Mounted geo fs' ∧ Counted geo fs' := by
  obtain ⟨_, -, he⟩ := bind_eq_ok.mp he
  obtain ⟨⟨fs₁, inode⟩, hloop, he⟩ := bind_eq_ok.mp he
  obtain ⟨fs₂, hsave, he⟩ := bind_eq_ok.mp he
  rw [pure_eq_ok, Prod.mk.injEq, Prod.mk.injEq] at he
  obtain ⟨-, -, rfl⟩ := he
  have hcounted : Mounted geo fs₁ ∧ Counted geo fs₁ := by
    refine fsTruncateLoop_counted h hc (fun j hj => ?_) (fun i hi j hj hij => ?_) hloop
    · have hm := (hrel (size / fs.sb.blockSize.toNat + j) (size / fs.sb.blockSize.toNat + j)
        (by omega) (by omega) (by omega) (by omega)).1
      exact (blkgrpsDataExist_eq_ok h hm).mp rfl
    · have := (hrel (size / fs.sb.blockSize.toNat + i) (size / fs.sb.blockSize.toNat + j)
        (by omega) (by omega) (by omega) (by omega)).2 hij
      omega
  exact ⟨(fsSaveInode_spec hcounted.1 hsave).1,
    Grow.counted hcounted.1 hcounted.2 (.saveInode hsave)⟩

theorem fsRemoveFile_counted {path : CString} (h : Mounted geo fs) (hc : Counted geo fs)
    (hrel : (Op.remove path).ReleasesMarked fs) (he : fsRemoveFile fs path = .ok (r, fs')) :
    Mounted geo fs' ∧ Counted geo fs' := by
  rcases fsRemoveFile_eq_ok he with ⟨-, rfl⟩ |
    ⟨parent, idx, dir, x, fs₁, fs₂, hp, hrem, hx, h₁, h₂, h₃, -⟩
  · exact ⟨h, hc⟩
  have hidx : dirFileInodeIdx parent.dir parent.filePath = .ok idx := by
    rcases dirRemove_eq_ok hrem with ⟨hf, rfl, -⟩ | ⟨j, -, hf, rfl, -⟩
    all_goals
      rw [dirFileInodeIdx, hf]
      rfl
  have hmarked := (blkgrpsDataExist_eq_ok h (hrel parent idx x hp hidx hx)).mp rfl
  obtain ⟨hm₁, -, hv₁⟩ := fsDataRelease_spec h h₁
  have hc₁ := fsDataRelease_counted h hc hmarked h₁
  have hused : idx ∈ (volume geo fs₁).inodeUsed := by
    rw [hv₁]
    exact ((fsFindInode_iff h).mp hx).1
  have hm₂ := (fsInodeRelease_spec hm₁ h₂).1
  have hc₂ := fsInodeRelease_counted hm₁ hc₁ hused h₂
  exact ⟨(fsSaveDir_spec hm₂ h₃).1, Grow.counted hm₂ hc₂ (.fill (fsSaveDir_fill h₃))⟩

theorem Op.step_counted (h : Mounted geo fs) (hc : Counted geo fs) {op : Op}
    (hrel : op.ReleasesMarked fs) (hs : op.step fs = .ok fs') :
    Mounted geo fs' ∧ Counted geo fs' := by
  cases op with
  | mkdir path mode =>
    obtain ⟨⟨r, _⟩, he, rfl⟩ := map_eq_ok.mp hs
    exact Grows.counted h hc (fsMkdir_grows he)
  | create path mode =>
    obtain ⟨⟨r, file, _⟩, he, rfl⟩ := map_eq_ok.mp hs
    exact Grows.counted h hc (fsCreateFile_grows he)
  | write file buf off =>
    obtain ⟨⟨ret, file', _⟩, he, rfl⟩ := map_eq_ok.mp hs
    obtain ⟨fs₁, hfills, -, hsave⟩ := fsWriteFile_effect h he
    exact Grows.counted h hc (hfills.grows.tail (.saveInode hsave))
  | truncate file size =>
    obtain ⟨⟨r, file', _⟩, he, rfl⟩ := map_eq_ok.mp hs
    exact fsTruncateFile_counted h hc hrel he
  | rename src dst =>
    obtain ⟨⟨r, _⟩, he, rfl⟩ := map_eq_ok.mp hs
    exact Grows.counted h hc (fsRenameFile_fills he).grows
  | remove path =>
    obtain ⟨⟨r, _⟩, he, rfl⟩ := map_eq_ok.mp hs
    exact fsRemoveFile_counted h hc hrel he

theorem clearBits_of_empty {ms : List GroupMap} (hlen : ms.length = geo.groups)
    (hempty : usedSet geo.perGroup ms = ∅) : clearBits geo ms = geo.groups * geo.perGroup := by
  rw [← hlen]
  refine clearCount_of_clear fun p hp => ?_
  have htotal := geo.total_lt
  rw [hlen] at hp
  have hk : (UInt32.ofNat (p + 1) - 1).toNat = p := by
    have hlt : p + 1 < 2 ^ 32 := by omega
    have hne : UInt32.ofNat (p + 1) ≠ 0 := by
      intro h0
      have h := congrArg UInt32.toNat h0
      rw [toNat_ofNat_of_lt hlt, UInt32.toNat_zero] at h
      omega
    rw [sub_one_toNat hne, toNat_ofNat_of_lt hlt]
    omega
  have hnot : UInt32.ofNat (p + 1) ∉ usedSet geo.perGroup ms := by
    rw [hempty]
    exact Set.notMem_empty _
  change ¬ bitAt geo.perGroup ms (UInt32.ofNat (p + 1) - 1).toNat = true at hnot
  rwa [hk, Bool.not_eq_true] at hnot

theorem freshMount_counted (hmount : freshMount geo = .ok fs) :
    Mounted geo fs ∧ Counted geo fs := by
  obtain ⟨d, hd, hinit⟩ := bind_eq_ok.mp hmount
  obtain ⟨grps, -, -, hm, hv, -, hcreate⟩ := fsInit_creates (freshDisk_formatted hd) hinit
  obtain ⟨fs₁, fs₂, fs₃, fs₄, h₁, h₂, h₃, h₄, h₅⟩ := fsCreateRoot_eq_ok hcreate
  have htotal : (UInt32.ofNat (geo.groups * geo.perGroup)).toNat = geo.groups * geo.perGroup :=
    toNat_ofNat_of_lt geo.total_lt
  have hc : Counted geo (loaded (unmounted d) geo.superblock grps) := by
    constructor
    · rw [clearBits_of_empty hm.groups.data_length (congrArg Volume.dataUsed hv)]
      exact htotal
    · rw [clearBits_of_empty hm.groups.inode_length (congrArg Volume.inodeUsed hv)]
      exact htotal
  exact Grows.counted hm hc ((((Relation.ReflTransGen.single (.fill (.alloc h₁))).tail
    (.fill (fsSaveDir_fill h₂))).tail (.inodeAlloc h₃)).tail (.inodeAlloc h₄) |>.tail
      (.saveInode h₅))

/-- In every state of a run that releases marked indexes only, the counters agree with the
bitmaps. -/
theorem counters_agree (hmount : freshMount geo = .ok fs₀)
    (hrun : Reaches Op.step (fun s op => op.ReleasesMarked s) fs₀ fs) : Counted geo fs :=
  (hrun.invariant (fun s => Mounted geo s ∧ Counted geo s)
    (fun _ _ _ h hl hs => Op.step_counted h.1 h.2 hl hs) (freshMount_counted hmount)).2

/-- A file that is written, cut to nothing, written again and removed. -/
def rewrittenFile : List Op :=
  [.create [47, 102] 0o100644, .write (newFile 0o100644 3) [1] 0,
    .truncate ⟨inodeSetSize ((newFile 0o100644 3).inode.setBlk 0 2) 1, 3⟩ 0,
    .write ⟨inodeSetSize (newFile 0o100644 3).inode 0, 3⟩ [1] 0, .remove [47, 102]]

theorem counters_agree_rewrittenFile :
    ∃ fs, fs.sb.freeBlocks = 4095 ∧ Counted smallDisk fs := by
  have hrun : ∃ fs₀ fs, freshMount smallDisk = .ok fs₀ ∧
      Reaches Op.step (fun s op => op.ReleasesMarked s) fs₀ fs ∧ fs.sb.freeBlocks = 4095 := by
    apply exists_run id rewrittenFile
    decide +kernel
  obtain ⟨fs₀, fs, hmount, hrun, hfree⟩ := hrun
  exact ⟨fs, hfree, counters_agree hmount hrun⟩

/-- Removing a file that was never written counts a block as free that it never had. -/
theorem remove_counts_empty_file :
    ∃ fs, Reachable smallDisk fs ∧ fs.sb.freeBlocks = 4096 ∧ ¬ Counted smallDisk fs := by
  have hrun : ∃ fs, Reachable smallDisk fs ∧
      (fs.sb.freeBlocks = 4096 ∧ blkgrpsDataExist fs.blkGrps 1 = .ok true) := by
    apply exists_reachable [.create [47, 102] 0o100644, .remove [47, 102]]
    decide +kernel
  obtain ⟨fs, hreach, hfree, hex⟩ := hrun
  obtain ⟨hm, -⟩ := hreach.wellformed
  refine ⟨fs, hreach, hfree, fun hc => ?_⟩
  have hmarked : (1 : ChisaiSize) ∈ (volume smallDisk fs).dataUsed :=
    (blkgrpsDataExist_eq_ok hm hex).mp rfl
  have hlen : fs.blkGrps.data.length * smallDisk.perGroup = 4096 := by
    rw [hm.groups.data_length]
    rfl
  have hlt : clearBits smallDisk fs.blkGrps.data < 4096 := by
    refine lt_of_lt_of_eq ?_ hlen
    exact clearCount_lt (p := 0) (by omega) hmarked
  have hcount := hc.blocks
  have h4096 : (4096 : UInt32).toNat = 4096 := rfl
  rw [hfree, h4096] at hcount
  omega

end Operations

end ChisaiFs
