import ChisaiFs.Runs

/-! What the operations can do to the device and the bitmaps at all, whatever their arguments:
allocate, release, store one inode or store within one data block. -/

namespace ChisaiFs
open Cells Outcome

inductive Fill (geo : Geometry) : Filesystem → Filesystem → Prop
  | alloc {fs fs' : Filesystem} {k : ChisaiSize} (he : fsDataAlloc fs = .ok (k, fs')) :
      Fill geo fs fs'
  | store {fs : Filesystem} {k : ChisaiSize} {off : ℕ} {bs : List UInt8} {d : Device}
      (hfit : off + bs.length ≤ geo.blkSize)
      (hd : deviceDataSave fs.d (off + fsDataToOffset fs k) bs = .ok d) :
      Fill geo fs { fs with d := d }

inductive Grow (geo : Geometry) : Filesystem → Filesystem → Prop
  | fill {fs fs' : Filesystem} (h : Fill geo fs fs') : Grow geo fs fs'
  | inodeAlloc {fs fs' : Filesystem} {i : ChisaiSize} (he : fsInodeAlloc fs = .ok (i, fs')) :
      Grow geo fs fs'
  | saveInode {fs fs' : Filesystem} {x : Inode} {i : ChisaiSize}
      (he : fsSaveInode fs x i = .ok fs') : Grow geo fs fs'

abbrev Fills (geo : Geometry) := Relation.ReflTransGen (Fill geo)
abbrev Grows (geo : Geometry) := Relation.ReflTransGen (Grow geo)

section Chains

variable {geo : Geometry} {fs fs' : Filesystem}

theorem Fill.mounted (h : Mounted geo fs) (hs : Fill geo fs fs') : Mounted geo fs' := by
  cases hs with
  | alloc he => exact (fsDataAlloc_spec h he).1
  | store hfit hd => exact (deviceDataSave_block h hfit hd).1

theorem Grow.mounted (h : Mounted geo fs) (hs : Grow geo fs fs') : Mounted geo fs' := by
  cases hs with
  | fill hs => exact hs.mounted h
  | inodeAlloc he => exact (fsInodeAlloc_spec h he).1
  | saveInode he => exact (fsSaveInode_spec h he).1

theorem chain_invariant {R : Filesystem → Filesystem → Prop} (inv : Filesystem → Prop)
    (hm : ∀ s t, Mounted geo s → R s t → Mounted geo t)
    (hstep : ∀ s t, Mounted geo s → inv s → R s t → inv t) (h : Mounted geo fs) (hi : inv fs)
    (hs : Relation.ReflTransGen R fs fs') : Mounted geo fs' ∧ inv fs' := by
  induction hs with
  | refl => exact ⟨h, hi⟩
  | tail _ hs ih => exact ⟨hm _ _ ih.1 hs, hstep _ _ ih.1 ih.2 hs⟩

theorem Fills.mounted (h : Mounted geo fs) (hs : Fills geo fs fs') : Mounted geo fs' :=
  (chain_invariant (fun _ => True) (fun _ _ h hs => hs.mounted h) (fun _ _ _ _ _ => trivial)
    h trivial hs).1

theorem Grows.mounted (h : Mounted geo fs) (hs : Grows geo fs fs') : Mounted geo fs' :=
  (chain_invariant (fun _ => True) (fun _ _ h hs => hs.mounted h) (fun _ _ _ _ _ => trivial)
    h trivial hs).1

theorem Fills.grows (hs : Fills geo fs fs') : Grows geo fs fs' := by
  induction hs with
  | refl => exact .refl
  | tail _ hs ih => exact ih.tail (.fill hs)

theorem fsSaveDir_fill {dir : Dir} {k : ChisaiSize} (he : fsSaveDir fs dir k = .ok fs') :
    Fill geo fs fs' := by
  obtain ⟨d, hd, he⟩ := bind_eq_ok.mp he
  cases he
  have hfit : 0 + (dirCodec.enc dir).length ≤ geo.blkSize := by
    rw [dirCodec.length_enc, Nat.zero_add]
    exact dir_fits geo
  exact .store (k := k) hfit (by rw [Nat.zero_add]; exact hd)

end Chains

section Names

variable {geo : Geometry} {fs fs' : Filesystem} {path src dst : CString} {mode : UInt32}
  {r : ChisaiError}

theorem fsMkdir_grows (he : fsMkdir fs path mode = .ok (r, fs')) : Grows geo fs fs' := by
  rcases fsMkdir_eq_ok he with ⟨-, rfl, -⟩ | ⟨parent, k, fs₁, -, hk, hcase⟩
  · exact .refl
  have h₁ : Grows geo fs fs₁ := .single (.fill (.alloc hk))
  rcases hcase with ⟨-, -, rfl⟩ | ⟨-, i, fs₂, hi, hcase⟩
  · exact h₁
  have h₂ : Grows geo fs fs₂ := h₁.tail (.inodeAlloc hi)
  rcases hcase with ⟨-, -, rfl⟩ | ⟨-, -, inserted, dir, fs₃, fs₄, -, h₃, h₄, h₅⟩
  · exact h₂
  exact ((h₂.tail (.fill (fsSaveDir_fill h₃))).tail (.saveInode h₄)).tail
    (.fill (fsSaveDir_fill h₅))

theorem fsCreateFile_grows {file file' : FileInfo}
    (he : fsCreateFile fs path mode file = .ok (r, file', fs')) : Grows geo fs fs' := by
  rcases fsCreateFile_eq_ok he with ⟨-, -, rfl, -⟩ | ⟨parent, i, fs₁, -, hi, hcase⟩
  · exact .refl
  have h₁ : Grows geo fs fs₁ := .single (.inodeAlloc hi)
  rcases hcase with ⟨-, -, -, rfl⟩ | ⟨-, -, -, inserted, dir, fs₂, -, h₂, h₃⟩
  · exact h₁
  exact (h₁.tail (.fill (fsSaveDir_fill h₂))).tail (.saveInode h₃)

theorem fsRenameFile_fills (he : fsRenameFile fs src dst = .ok (r, fs')) : Fills geo fs fs' := by
  rcases fsRenameFile_eq_ok he with ⟨-, rfl, -⟩ | ⟨source, idx, dir, fs₁, -, -, -, h₁, hcase⟩
  · exact .refl
  have h₁ : Fills geo fs fs₁ := .single (fsSaveDir_fill h₁)
  rcases hcase with ⟨-, rfl⟩ | ⟨target, dir', -, -, h₂, -⟩
  · exact h₁
  · exact h₁.tail (fsSaveDir_fill h₂)

end Names

section Writes

variable {geo : Geometry} {fs fs' : Filesystem} {inode inode' : Inode} {r : ChisaiError}
  {blkIdx : ChisaiSize}

theorem Mounted.offInblk_lt (h : Mounted geo fs) (off : ℕ) :
    offInblk off fs.sb.blockSize.toNat < geo.blkSize := by
  rw [h.offInblk_eq]
  exact Nat.mod_lt _ geo.blkSize_pos

theorem fsClearBlk_fills {dataIdx : ChisaiSize} {n i : ℕ} {d d' : Device}
    (hn : (i + n) * 4 ≤ geo.blkSize) (he : fsClearBlk fs dataIdx i n d = .ok d') :
    Fills geo { fs with d := d } { fs with d := d' } := by
  induction n generalizing i d with
  | zero =>
    cases he
    exact .refl
  | succ n ih =>
    obtain ⟨d₁, hd, he⟩ := bind_eq_ok.mp he
    have hlen : (Words.u32.enc 0).length = 4 := Words.u32.length_enc 0
    have hstore : Fill geo { fs with d := d } { fs with d := d₁ } :=
      @Fill.store geo { fs with d := d } dataIdx (i * 4) _ _ (by omega) hd
    exact .head hstore (ih (by omega) he)

theorem indirOff_fits (h : Mounted geo fs) {blkNum : UInt32}
    (hdirect : ¬ blkNum.toNat < directBlksNum)
    (hindirect : blkNum < UInt32.ofNat directBlksNum + fs.sb.blockSize / 4) :
    (blkNum - UInt32.ofNat directBlksNum).toNat * 4 + 4 ≤ geo.blkSize := by
  have hlt := geo.blkSize_lt
  have hper : (fs.sb.blockSize / 4).toNat = geo.blkSize / 4 := by
    rw [UInt32.toNat_div, h.blockSize]
    rfl
  have hd : (UInt32.ofNat directBlksNum).toNat = 12 := rfl
  have hge : 12 ≤ blkNum.toNat := not_lt.mp hdirect
  have hbound : blkNum.toNat < 12 + geo.blkSize / 4 := by
    have hb := UInt32.lt_iff_toNat_lt.mp hindirect
    rw [UInt32.toNat_add, hd, hper] at hb
    omega
  rw [UInt32.toNat_sub_of_le _ _ (UInt32.le_iff_toNat_le.mpr (by omega)), hd]
  omega

theorem fsAllocBlk_fills (h : Mounted geo fs) {off : ℕ}
    (he : fsAllocBlk fs inode off = .ok (r, blkIdx, inode', fs')) : Fills geo fs fs' := by
  obtain ⟨⟨k, fs₁⟩, hk, he⟩ := bind_eq_ok.mp he
  have h₁ : Fills geo fs fs₁ := .single (.alloc hk)
  have hblk := h.blockSize
  dsimp only at he
  by_cases hk0 : k = 0
  · rw [if_pos hk0] at he
    cases he
    exact h₁
  rw [if_neg hk0] at he
  by_cases hdirect : (UInt32.ofNat (off / fs.sb.blockSize.toNat)).toNat < directBlksNum
  · rw [dif_pos hdirect] at he
    cases he
    exact h₁
  rw [dif_neg hdirect] at he
  by_cases hindirect : UInt32.ofNat (off / fs.sb.blockSize.toNat) <
      UInt32.ofNat directBlksNum + fs.sb.blockSize / 4
  · rw [if_pos hindirect] at he
    have hentry : ∀ {fs₂ : Filesystem} {inode₂ : Inode} {k₂ : ChisaiSize} {d : Device},
        Fills geo fs fs₂ → deviceDataSave fs₂.d
          ((UInt32.ofNat (off / fs.sb.blockSize.toNat) - UInt32.ofNat directBlksNum).toNat * 4 +
            fsDataToOffset fs₂ inode₂.indirectBlk) (Words.u32.enc k₂) = .ok d →
        Fills geo fs { fs₂ with d := d } := by
      intro fs₂ inode₂ k₂ d h₂ hd
      have hfit := indirOff_fits h hdirect hindirect
      have hlen : (Words.u32.enc k₂).length = 4 := Words.u32.length_enc k₂
      exact h₂.tail (.store (by rw [hlen]; exact hfit) hd)
    split_ifs at he with h0
    · obtain ⟨d₁, hclear, he⟩ := bind_eq_ok.mp he
      obtain ⟨⟨k₂, fs₃⟩, hk₂, he⟩ := bind_eq_ok.mp he
      obtain ⟨_, hpure, he⟩ := bind_eq_ok.mp he
      obtain ⟨d, hd, he⟩ := bind_eq_ok.mp he
      cases hpure
      cases he
      have hper : (fs.sb.blockSize / 4).toNat = geo.blkSize / 4 := by
        rw [UInt32.toNat_div, hblk]
        rfl
      have hclear : Fills geo fs₁ { fs₁ with d := d₁ } :=
        fsClearBlk_fills (by rw [hper]; omega) hclear
      exact hentry ((h₁.trans hclear).tail (.alloc hk₂)) hd
    · obtain ⟨_, hpure, he⟩ := bind_eq_ok.mp he
      obtain ⟨d, hd, he⟩ := bind_eq_ok.mp he
      cases hpure
      cases he
      exact hentry h₁ hd
  · rw [if_neg hindirect] at he
    cases he
    exact h₁

theorem WriteState.store_fills {buf : List UInt8} {s s' : WriteState} {nospace : Bool}
    (h : Mounted geo s.fs) (he : s.store buf fs inode blkIdx = .ok (s', nospace)) :
    Fill geo fs s'.fs := by
  have hlt := h.offInblk_lt s.off
  have hblk := h.blockSize
  obtain ⟨d, hd, he⟩ := bind_eq_ok.mp he
  cases he
  refine .store (k := blkIdx) ?_ hd
  rw [List.length_take]
  omega

theorem fsWriteChunk_fills {buf : List UInt8} {s s' : WriteState} {nospace : Bool}
    (h : Mounted geo s.fs) (he : fsWriteChunk buf s = .ok (s', nospace)) :
    Fills geo s.fs s'.fs := by
  obtain ⟨⟨ret, found⟩, -, he⟩ := bind_eq_ok.mp he
  dsimp only at he
  by_cases hnoent : ret = .enoent
  · rw [if_pos hnoent] at he
    obtain ⟨⟨ret, blk, inode, fs⟩, halloc, he⟩ := bind_eq_ok.mp he
    obtain ⟨_, hpure, he⟩ := bind_eq_ok.mp he
    cases hpure
    have hfs := fsAllocBlk_fills h halloc
    dsimp only at he
    split_ifs at he
    · cases he
      exact hfs
    · exact hfs.tail (s.store_fills h he)
  · rw [if_neg hnoent] at he
    obtain ⟨_, hpure, he⟩ := bind_eq_ok.mp he
    cases hpure
    dsimp only at he
    split_ifs at he
    · cases he
      exact .refl
    · cases found with
      | none => cases he
      | some blk => exact .single (s.store_fills h he)

theorem fsWriteLoop_fills {buf : List UInt8} {fuel : ℕ} {s s' : WriteState} {nospace : Bool}
    (h : Mounted geo s.fs) (he : fsWriteLoop buf fuel s = .ok (s', nospace)) :
    Fills geo s.fs s'.fs := by
  induction fuel generalizing s with
  | zero =>
    unfold fsWriteLoop at he
    split_ifs at he
    cases he
    exact .refl
  | succ fuel ih =>
    unfold fsWriteLoop at he
    split_ifs at he
    · obtain ⟨⟨s₁, full⟩, hchunk, he⟩ := bind_eq_ok.mp he
      have h₁ := fsWriteChunk_fills h hchunk
      cases full with
      | true =>
        cases he
        exact h₁
      | false => exact h₁.trans (ih (h₁.mounted h) he)
    · cases he
      exact .refl

theorem fsWriteFile_effect {file file' : FileInfo} {buf : List UInt8} {off : ℕ} {ret : ℤ}
    (h : Mounted geo fs) (he : fsWriteFile fs file buf off = .ok (ret, file', fs')) :
    ∃ fs₁, Fills geo fs fs₁ ∧ file'.idx = file.idx ∧
      fsSaveInode fs₁ file'.inode file.idx = .ok fs' := by
  obtain ⟨s, nospace, hloop, -, rfl, hsave⟩ := fsWriteFile_eq_ok he
  exact ⟨s.fs, fsWriteLoop_fills (s := ⟨fs, file.inode, none, 0, off⟩) h hloop, rfl, hsave⟩

end Writes

inductive Change (geo : Geometry) : Filesystem → Filesystem → Prop
  | grow {fs fs' : Filesystem} (h : Grow geo fs fs') : Change geo fs fs'
  | dataRelease {fs fs' : Filesystem} {k : ChisaiSize} (he : fsDataRelease fs k = .ok fs') :
      Change geo fs fs'
  | inodeRelease {fs fs' : Filesystem} {i : ChisaiSize} (he : fsInodeRelease fs i = .ok fs') :
      Change geo fs fs'

abbrev Changes (geo : Geometry) := Relation.ReflTransGen (Change geo)

section Operations

variable {geo : Geometry} {fs fs' : Filesystem}

theorem Change.mounted (h : Mounted geo fs) (hs : Change geo fs fs') : Mounted geo fs' := by
  cases hs with
  | grow hs => exact hs.mounted h
  | dataRelease he => exact (fsDataRelease_spec h he).1
  | inodeRelease he => exact (fsInodeRelease_spec h he).1

theorem Grows.changes (hs : Grows geo fs fs') : Changes geo fs fs' := by
  induction hs with
  | refl => exact .refl
  | tail _ hs ih => exact ih.tail (.grow hs)

theorem fsTruncateLoop_changes {newBlkcnt n : ℕ} {inode inode' : Inode}
    (he : fsTruncateLoop newBlkcnt n fs inode = .ok (fs', inode')) : Changes geo fs fs' := by
  induction n generalizing fs inode with
  | zero =>
    cases he
    exact .refl
  | succ n ih =>
    unfold fsTruncateLoop at he
    split_ifs at he
    obtain ⟨_, -, he⟩ := bind_eq_ok.mp he
    obtain ⟨fs₁, hrel, he⟩ := bind_eq_ok.mp he
    exact .head (.dataRelease hrel) (ih he)

theorem fsTruncateFile_changes {file file' : FileInfo} {size : ℕ} {r : ChisaiError}
    (he : fsTruncateFile fs file size = .ok (r, file', fs')) : Changes geo fs fs' := by
  obtain ⟨_, -, he⟩ := bind_eq_ok.mp he
  obtain ⟨⟨fs₁, inode⟩, hloop, he⟩ := bind_eq_ok.mp he
  obtain ⟨fs₂, hsave, he⟩ := bind_eq_ok.mp he
  rw [pure_eq_ok, Prod.mk.injEq, Prod.mk.injEq] at he
  obtain ⟨-, -, rfl⟩ := he
  exact (fsTruncateLoop_changes hloop).tail (.grow (.saveInode hsave))

theorem fsRemoveFile_changes {path : CString} {r : ChisaiError}
    (he : fsRemoveFile fs path = .ok (r, fs')) : Changes geo fs fs' := by
  rcases fsRemoveFile_eq_ok he with ⟨-, rfl⟩ | ⟨_, _, _, _, fs₁, fs₂, -, -, -, h₁, h₂, h₃, -⟩
  · exact .refl
  exact ((Relation.ReflTransGen.single (.dataRelease h₁)).tail (.inodeRelease h₂)).tail
    (.grow (.fill (fsSaveDir_fill h₃)))

theorem Op.step_changes (h : Mounted geo fs) {op : Op} (hs : op.step fs = .ok fs') :
    Changes geo fs fs' := by
  cases op with
  | mkdir path mode =>
    obtain ⟨⟨r, _⟩, he, rfl⟩ := map_eq_ok.mp hs
    exact Grows.changes (fsMkdir_grows he)
  | create path mode =>
    obtain ⟨⟨r, file, _⟩, he, rfl⟩ := map_eq_ok.mp hs
    exact Grows.changes (fsCreateFile_grows he)
  | write file buf off =>
    obtain ⟨⟨ret, file', _⟩, he, rfl⟩ := map_eq_ok.mp hs
    obtain ⟨fs₁, hfills, -, hsave⟩ := fsWriteFile_effect h he
    exact (Grows.changes hfills.grows).tail (.grow (.saveInode hsave))
  | truncate file size =>
    obtain ⟨⟨r, file', _⟩, he, rfl⟩ := map_eq_ok.mp hs
    exact fsTruncateFile_changes he
  | rename src dst =>
    obtain ⟨⟨r, _⟩, he, rfl⟩ := map_eq_ok.mp hs
    exact Grows.changes (fsRenameFile_fills he).grows
  | remove path =>
    obtain ⟨⟨r, _⟩, he, rfl⟩ := map_eq_ok.mp hs
    exact fsRemoveFile_changes he

theorem Fills.inodes (h : Mounted geo fs) (hs : Fills geo fs fs') :
    (volume geo fs').inode = (volume geo fs).inode ∧
      (volume geo fs').inodeUsed = (volume geo fs).inodeUsed := by
  refine (chain_invariant (fun s => (volume geo s).inode = (volume geo fs).inode ∧
    (volume geo s).inodeUsed = (volume geo fs).inodeUsed) (fun _ _ h hs => hs.mounted h) ?_ h
    ⟨rfl, rfl⟩ hs).2
  intro s t hm hi hs
  cases hs with
  | alloc he =>
    rcases (fsDataAlloc_spec hm he).2.2 with ⟨-, hv⟩ | ⟨-, -, hv⟩
    · rw [hv]
      exact hi
    · rw [hv]
      exact hi
  | store hfit hd =>
    rw [(deviceDataSave_block hm hfit hd).2]
    exact hi

theorem shrink_inodes {c c' : Volume × Inode} (hs : Relation.ReflTransGen Shrink c c') :
    c'.1.inode = c.1.inode ∧ c'.1.inodeUsed = c.1.inodeUsed := by
  induction hs with
  | refl => exact ⟨rfl, rfl⟩
  | tail _ hs ih =>
    cases hs
    exact ih

theorem not_sIsreg_dir (mode : UInt32) : ¬ sIsreg (sIfdir ||| mode) := by
  intro h
  have hbits : ((sIfdir ||| mode) &&& sIfmt).toNat.testBit 14 = sIfreg.toNat.testBit 14 := by
    rw [show (sIfdir ||| mode) &&& sIfmt = sIfreg from h]
  have hdir : sIfdir.toNat.testBit 14 = true := by decide
  have hfmt : sIfmt.toNat.testBit 14 = true := by decide
  have hreg : sIfreg.toNat.testBit 14 = false := by decide
  rw [UInt32.toNat_and, UInt32.toNat_or, Nat.testBit_and, Nat.testBit_or, hdir, hfmt, hreg] at hbits
  cases hbits

/-- What an operation that returns has done to the volume. -/
inductive Op.Did (geo : Geometry) (fs fs' : Filesystem) : Op → Prop
  | nothing {op : Op} (hv : volume geo fs' = volume geo fs) : Did geo fs fs' op
  | marked {path : CString} {mode : UInt32} {k : ChisaiSize} (hk : k ∉ (volume geo fs).dataUsed)
      (hv : volume geo fs' = (volume geo fs).useData k) : Did geo fs fs' (.mkdir path mode)
  | made {path : CString} {mode : UInt32} {parent : Parent} {p k i : ChisaiSize} {dir : Dir}
      (hat : parent.At (volume geo fs) p) (hr : geo.InRange k) (hk : k ∉ (volume geo fs).dataUsed)
      (hi : i ∉ (volume geo fs).inodeUsed)
      (hv : volume geo fs' = (((((volume geo fs).useData k).useInode i).setDir
        parent.inode.directBlks[0] dir).setInode i (newDirInode mode k)).setDir k dirInit) :
      Did geo fs fs' (.mkdir path mode)
  | created {path : CString} {mode : UInt32} {parent : Parent} {p i : ChisaiSize} {dir : Dir}
      (hat : parent.At (volume geo fs) p) (hi : i ∉ (volume geo fs).inodeUsed)
      (hv : volume geo fs' = (((volume geo fs).useInode i).setDir
        parent.inode.directBlks[0] dir).setInode i (newFile mode i).inode) :
      Did geo fs fs' (.create path mode)
  | wrote {file file' : FileInfo} {buf : List UInt8} {off : ℕ} {ret : ℤ}
      (he : fsWriteFile fs file buf off = .ok (ret, file', fs')) :
      Did geo fs fs' (.write file buf off)
  | cut {file file' : FileInfo} {size : ℕ} {v : Volume} {x : Inode}
      (he : fsTruncateFile fs file size = .ok (.ok, file', fs'))
      (hsteps : Relation.ReflTransGen Shrink (volume geo fs, file.inode) (v, x))
      (hfile : file' = ⟨inodeSetSize x (Int64.ofNat size), file.idx⟩)
      (hv : volume geo fs' = v.setInode file.idx file'.inode) :
      Did geo fs fs' (.truncate file size)
  | unlinked {src dst : CString} {source : Parent} {p : ChisaiSize} {dir : Dir}
      (hat : source.At (volume geo fs) p)
      (hv : volume geo fs' = (volume geo fs).setDir source.inode.directBlks[0] dir) :
      Did geo fs fs' (.rename src dst)
  | moved {src dst : CString} {source target : Parent} {p q : ChisaiSize} {dir dir' : Dir}
      (hat : source.At (volume geo fs) p)
      (hat' : target.At ((volume geo fs).setDir source.inode.directBlks[0] dir) q)
      (hv : volume geo fs' = ((volume geo fs).setDir source.inode.directBlks[0] dir).setDir
        target.inode.directBlks[0] dir') : Did geo fs fs' (.rename src dst)
  | removed {path : CString} {parent : Parent} {p i : ChisaiSize} {dir : Dir}
      (hat : parent.At (volume geo fs) p) (hi : i ∈ (volume geo fs).inodeUsed)
      (hv : volume geo fs' = (((volume geo fs).freeData
        ((volume geo fs).inode i).directBlks[0]).freeInode i).setDir
          parent.inode.directBlks[0] dir) : Did geo fs fs' (.remove path)

theorem Op.did (h : Mounted geo fs) {op : Op} (hs : op.step fs = .ok fs') : op.Did geo fs fs' := by
  cases op with
  | mkdir path mode =>
    obtain ⟨⟨r, _⟩, he, rfl⟩ := map_eq_ok.mp hs
    rcases (fsMkdir_volume h he).2 with ⟨-, hv | ⟨k, hk, hv⟩⟩ |
      ⟨-, parent, p, k, i, _, dir, -, hat, hr, hk, -, hi, -, hv⟩
    · exact .nothing hv
    · exact .marked hk hv
    · exact .made hat hr hk hi hv
  | create path mode =>
    obtain ⟨⟨r, file, _⟩, he, rfl⟩ := map_eq_ok.mp hs
    rcases (fsCreateFile_volume h he).2 with
      ⟨-, -, hv⟩ | ⟨-, parent, p, i, _, dir, -, hat, -, hi, rfl, -, hv⟩
    · exact .nothing hv
    · exact .created hat hi hv
  | write file buf off =>
    obtain ⟨⟨ret, file', _⟩, he, rfl⟩ := map_eq_ok.mp hs
    exact .wrote he
  | truncate file size =>
    obtain ⟨⟨r, file', _⟩, he, rfl⟩ := map_eq_ok.mp hs
    obtain ⟨-, rfl, v, x, hsteps, hfile, hv⟩ := fsTruncateFile_eq_ok h he
    exact .cut he hsteps hfile hv
  | rename src dst =>
    obtain ⟨⟨r, _⟩, he, rfl⟩ := map_eq_ok.mp hs
    rcases (fsRenameFile_volume h he).2 with ⟨-, hv⟩ |
      ⟨source, p, j, hl, fs₁, -, hat, -, -, -, hv₁, ⟨-, rfl⟩ | ⟨-, target, q, dir, -, hat', -, hv⟩⟩
    · exact .nothing hv
    · exact .unlinked hat hv₁
    · rw [hv₁] at hat' hv
      exact .moved hat hat' hv
  | remove path =>
    obtain ⟨⟨r, _⟩, he, rfl⟩ := map_eq_ok.mp hs
    rcases (fsRemoveFile_volume h he).2 with ⟨-, hv⟩ | ⟨-, parent, p, j, hl, -, hat, -, hi, hv⟩
    · exact .nothing hv
    · exact .removed hat hi hv

/-- How an operation that returns comes to leave a regular file with the inode it has. -/
inductive Op.Leaves (geo : Geometry) (fs fs' : Filesystem) (i : ChisaiSize) : Op → Prop
  | same {op : Op} (hu : i ∈ (volume geo fs).inodeUsed)
      (hi : (volume geo fs').inode i = (volume geo fs).inode i) : Leaves geo fs fs' i op
  | new {path : CString} {mode : UInt32}
      (hi : (volume geo fs').inode i = inodeSetMode inodeInit mode) :
      Leaves geo fs fs' i (.create path mode)
  | wrote {inode : Inode} {buf : List UInt8} {off : ℕ} {ret : ℤ} {file' : FileInfo}
      (he : fsWriteFile fs ⟨inode, i⟩ buf off = .ok (ret, file', fs'))
      (hi : (volume geo fs').inode i = file'.inode) : Leaves geo fs fs' i (.write ⟨inode, i⟩ buf off)
  | cut {inode : Inode} {size : ℕ} {r : ChisaiError} {file' : FileInfo}
      (he : fsTruncateFile fs ⟨inode, i⟩ size = .ok (r, file', fs'))
      (hi : (volume geo fs').inode i = file'.inode) : Leaves geo fs fs' i (.truncate ⟨inode, i⟩ size)

theorem Op.step_leaves (h : Mounted geo fs) {op : Op} (hs : op.step fs = .ok fs') {i : ChisaiSize}
    (hu : i ∈ (volume geo fs').inodeUsed) (hreg : sIsreg ((volume geo fs').inode i).mode) :
    op.Leaves geo fs fs' i := by
  cases op.did h hs with
  | nothing hv =>
    rw [hv] at hu
    exact .same hu (by rw [hv])
  | marked _ hv | unlinked _ hv | moved _ _ hv =>
    rw [hv] at hu
    exact .same hu (by rw [hv]; rfl)
  | @made _ mode _ _ k j _ _ _ _ _ hv =>
    by_cases hj : i = j
    · subst hj
      rw [hv] at hreg
      simp only [Volume.setDir_inode, Volume.setInode_inode_same] at hreg
      exact absurd hreg (not_sIsreg_dir mode)
    · rw [hv] at hu
      refine .same (hu.resolve_left hj) ?_
      rw [hv, Volume.setDir_inode, Volume.setInode_inode_of_ne _ hj]
      rfl
  | @created _ mode _ _ j _ _ _ hv =>
    by_cases hj : i = j
    · subst hj
      exact .new (by rw [hv, Volume.setInode_inode_same]; rfl)
    · rw [hv] at hu
      refine .same (hu.resolve_left hj) ?_
      rw [hv, Volume.setInode_inode_of_ne _ hj]
      rfl
  | @wrote file _ _ _ _ he =>
    obtain ⟨fs₁, hfills, -, hsave⟩ := fsWriteFile_effect h he
    obtain ⟨hi₁, hu₁⟩ := hfills.inodes h
    have hv := (fsSaveInode_spec (hfills.mounted h) hsave).2.2.2
    by_cases hj : i = file.idx
    · subst hj
      exact .wrote he (by rw [hv, Volume.setInode_inode_same])
    · rw [hv, Volume.setInode_inodeUsed, hu₁] at hu
      exact .same hu (by rw [hv, Volume.setInode_inode_of_ne _ hj, hi₁])
  | @cut file _ _ v x he hsteps _ hv =>
    have hkeep : v.inode = (volume geo fs).inode ∧ v.inodeUsed = (volume geo fs).inodeUsed :=
      shrink_inodes hsteps
    by_cases hj : i = file.idx
    · subst hj
      exact .cut he (by rw [hv, Volume.setInode_inode_same])
    · rw [hv, Volume.setInode_inodeUsed, hkeep.2] at hu
      exact .same hu (by rw [hv, Volume.setInode_inode_of_ne _ hj, hkeep.1])
  | removed _ _ hv =>
    rw [hv] at hu
    exact .same hu.1 (by rw [hv]; rfl)

/-- The superblock's block and the two bitmap blocks of each group. -/
def Geometry.Reserved (geo : Geometry) (p : ℕ) : Prop :=
  p < geo.blkSize ∨ ∃ j, geo.blkSize + j * geo.groupSize ≤ p ∧
    p < geo.blkSize + j * geo.groupSize + 2 * geo.blkSize

theorem not_reserved {j a n p : ℕ} (ha : geo.blkSize + j * geo.groupSize + 2 * geo.blkSize ≤ a)
    (ha' : a + n ≤ geo.blkSize + j * geo.groupSize + geo.groupSize) (hp : a ≤ p)
    (hp' : p < a + n) : ¬ geo.Reserved p := by
  rintro (hlt | ⟨i, hi, hi'⟩)
  · omega
  · by_cases he : i = j
    · subst he
      omega
    · have hg : 2 * geo.blkSize ≤ geo.groupSize := by
        have h := geo.groupSize_eq
        omega
      have hap := geo.apart_of_group_ne (m := 1) (n := 1) he hi (by omega)
        (show geo.blkSize + j * geo.groupSize ≤ p by omega) (by omega)
      omega

theorem Fill.reserved (h : Mounted geo fs) (hs : Fill geo fs fs') {p : ℕ} (hp : geo.Reserved p) :
    fs'.d.bytes p = fs.d.bytes p := by
  cases hs with
  | alloc he => rw [(fsDataAlloc_spec h he).2.1]
  | @store k off bs d hfit hd =>
    obtain ⟨-, rfl⟩ := deviceDataSave_eq_ok.mp hd
    rw [fsDataToOffset_eq h]
    refine overwrite_outside _ ?_
    by_contra hin
    have hgroup := geo.blk_in_group (k - 1).toNat
    exact not_reserved (j := (k - 1).toNat / geo.perGroup) (a := geo.blkOff (k - 1).toNat)
      (n := geo.blkSize) (by omega) (by omega) (by omega) (by omega) hp

theorem Change.reserved (h : Mounted geo fs) (hs : Change geo fs fs') {p : ℕ}
    (hp : geo.Reserved p) : fs'.d.bytes p = fs.d.bytes p := by
  cases hs with
  | grow hs =>
    cases hs with
    | fill hs => exact hs.reserved h hp
    | inodeAlloc he => rw [(fsInodeAlloc_spec h he).2.1]
    | @saveInode x i he =>
      obtain ⟨d, hd, he⟩ := bind_eq_ok.mp he
      cases he
      obtain ⟨-, rfl⟩ := deviceDataSave_eq_ok.mp hd
      rw [fsInodeToOffset_eq h]
      refine overwrite_outside _ ?_
      by_contra hin
      have hlen := inodeCodec.length_enc x
      have hw := inodeCodec_width
      have hgroup := geo.slot_in_group (i - 1).toNat
      have hg := geo.groupSize_eq
      exact not_reserved (j := (i - 1).toNat / geo.perGroup) (a := geo.slotOff (i - 1).toNat)
        (n := 128) (by omega) (by omega) (by omega) (by omega) hp
  | dataRelease he => rw [(fsDataRelease_spec h he).2.1]
  | inodeRelease he => rw [(fsInodeRelease_spec h he).2.1]

theorem run_reserved {fs₀ : Filesystem} {allowed : Filesystem → Op → Prop} (h : Mounted geo fs₀)
    (hrun : Reaches Op.step allowed fs₀ fs) :
    Mounted geo fs ∧ ∀ p, geo.Reserved p → fs.d.bytes p = fs₀.d.bytes p := by
  refine hrun.invariant (fun s => Mounted geo s ∧
    ∀ p, geo.Reserved p → s.d.bytes p = fs₀.d.bytes p) ?_ ⟨h, fun _ _ => rfl⟩
  rintro s op t ⟨hm, hsame⟩ - hs
  exact chain_invariant (fun s => ∀ p, geo.Reserved p → s.d.bytes p = fs₀.d.bytes p)
    (fun _ _ h hs => hs.mounted h) (fun s t hs hi hst p hp => (hst.reserved hs hp).trans (hi p hp))
    hm hsame (op.step_changes hm hs)

end Operations

end ChisaiFs
