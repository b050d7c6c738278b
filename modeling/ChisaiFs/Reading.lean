import ChisaiFs.BlockMap
import ChisaiFs.Runs

/-! Reading a range of a file through whatever blocks its inode maps. The length is cut to the
size of the file, whatever the offset. -/

namespace ChisaiFs
open Cells Outcome

def blkAt (fs : Filesystem) (inode : Inode) (n : ℕ) : ChisaiSize :=
  match findAt fs inode n with
  | .ok (_, some k) => k
  | _ => 0

/-- The byte of a file at a position, as its blocks hold it. -/
def storedByte (fs : Filesystem) (inode : Inode) (pos : ℕ) : UInt8 :=
  fs.d.bytes (fsDataToOffset fs (blkAt fs inode (pos / fs.sb.blockSize.toNat)) +
    pos % fs.sb.blockSize.toNat)

/-- Every block below the length is mapped to a block of the device. -/
def Stored (geo : Geometry) (fs : Filesystem) (inode : Inode) (len : ℕ) : Prop :=
  ∀ pos < len, pos / geo.blkSize < blkLimit fs ∧
    ∃ k, geo.InRange k ∧ findAt fs inode (pos / geo.blkSize) = .ok (.ok, some k)

section Loop

variable {geo : Geometry} {fs : Filesystem} {inode : Inode} {size fuel off len : ℕ}
  {buf : List UInt8} {k : ChisaiSize}

theorem blkAt_eq {r : ChisaiError} {n : ℕ} (h : findAt fs inode n = .ok (r, some k)) :
    blkAt fs inode n = k := by
  unfold blkAt
  rw [h]

theorem blkLimit_eq (h : Mounted geo fs) : blkLimit fs = directBlksNum + geo.blkSize / 4 := by
  rw [blkLimit, h.blockSize]

theorem Mounted.fsFindBlk_eq (h : Mounted geo fs) (hn : off / geo.blkSize < blkLimit fs)
    (inode : Inode) (blkIdx : Option ChisaiSize) :
    fsFindBlk fs inode off blkIdx = findAt fs inode (off / geo.blkSize) := by
  rw [← h.blockSize] at hn ⊢
  exact ChisaiFs.fsFindBlk_eq hn inode blkIdx

theorem limit_lt (h : Mounted geo fs) (hn : off / geo.blkSize < blkLimit fs) : off < 2 ^ 30 := by
  rw [blkLimit_eq h] at hn
  have hoff : off < geo.maxFileSize := (Nat.div_lt_iff_lt_mul geo.blkSize_pos).mp hn
  exact hoff.trans geo.max_lt

theorem Stored.lt (h : Mounted geo fs) (hst : Stored geo fs inode len) : len < 2 ^ 31 := by
  by_contra hge
  have hlt := limit_lt h (hst (2 ^ 30) (by omega)).1
  omega

theorem fsReadLoop_mapped (h : Mounted geo fs) (hn : off / geo.blkSize < blkLimit fs)
    (hk : findAt fs inode (off / geo.blkSize) = .ok (.ok, some k)) (hlt : buf.length < size) :
    fsReadLoop fs inode size (fuel + 1) buf off =
      deviceDataLoad fs.d (off % geo.blkSize + fsDataToOffset fs k)
          (min (size - buf.length) (geo.blkSize - off % geo.blkSize)) >>= fun bytes =>
        fsReadLoop fs inode size fuel (buf ++ bytes)
          (off + min (size - buf.length) (geo.blkSize - off % geo.blkSize)) := by
  have hoff := limit_lt h hn
  rw [fsReadLoop, if_pos hlt]
  dsimp only
  rw [h.fsFindBlk_eq hn, hk, ok_bind, h.offInblk_eq, h.blockSize]
  rfl

theorem slice_storedByte (h : Mounted geo fs)
    (hk : findAt fs inode (off / geo.blkSize) = .ok (.ok, some k)) {n : ℕ}
    (hn : n ≤ geo.blkSize - off % geo.blkSize) :
    slice fs.d.bytes (off % geo.blkSize + fsDataToOffset fs k) n =
      slice (storedByte fs inode) off n := by
  refine List.ext_getElem (by simp) fun j hj _ => ?_
  rw [slice_length] at hj
  have hj : j < geo.blkSize - off % geo.blkSize := by omega
  obtain ⟨hd, hm⟩ := pass_pos hj
  rw [getElem_slice, getElem_slice, storedByte, h.blockSize, hd, hm, blkAt_eq hk]
  congr 1
  omega

theorem storedByte_eq (h : Mounted geo fs)
    (hn : off / geo.blkSize < directBlksNum) :
    storedByte fs inode off = (volume geo fs).fileByte geo inode off := by
  have hmod := Nat.mod_lt off geo.blkSize_pos
  rw [storedByte, h.blockSize, blkAt_eq (findAt_of_lt hn), fsDataToOffset_eq h]
  exact (if_pos hmod).symm

theorem fsReadLoop_stored (h : Mounted geo fs) (hst : Stored geo fs inode len)
    (hle : buf.length ≤ size) (hfuel : size - buf.length ≤ fuel)
    (hrange : off + (size - buf.length) ≤ len) :
    fsReadLoop fs inode size fuel buf off =
      .ok (toInt size, buf ++ slice (storedByte fs inode) off (size - buf.length)) := by
  have hdone : ∀ (fuel off : ℕ) (buf : List UInt8), buf.length = size →
      fsReadLoop fs inode size fuel buf off =
        .ok (toInt size, buf ++ slice (storedByte fs inode) off (size - buf.length)) := by
    intro fuel off buf he
    rw [fsReadLoop_done (by omega), he, Nat.sub_self]
    simp [slice]
  induction fuel generalizing buf off with
  | zero => exact hdone 0 off buf (by omega)
  | succ fuel ih =>
    by_cases hlt : buf.length < size
    · obtain ⟨hn, k, hr, hk⟩ := hst off (by omega)
      have hmod := Nat.mod_lt off geo.blkSize_pos
      obtain ⟨n, hmin⟩ : ∃ n, n = min (size - buf.length) (geo.blkSize - off % geo.blkSize) :=
        ⟨_, rfl⟩
      have hload : deviceDataLoad fs.d (off % geo.blkSize + fsDataToOffset fs k) n =
          .ok (slice (storedByte fs inode) off n) := by
        have hend := geo.blk_end_le hr.2
        rw [deviceDataLoad_eq_ok, slice_storedByte h hk (by omega), fsDataToOffset_eq h, h.device]
        exact ⟨by omega, rfl⟩
      have hlen : (buf ++ slice (storedByte fs inode) off n).length = buf.length + n := by simp
      rw [fsReadLoop_mapped h hn hk hlt, ← hmin, hload, ok_bind, ih]
      · rw [hlen, List.append_assoc, ← slice_add]
        congr 4
        omega
      · omega
      · omega
      · omega
    · exact hdone (fuel + 1) off buf (by omega)

theorem fsReadLoop_code {n : ℤ} {bytes : List UInt8} (hle : buf.length ≤ size)
    (he : fsReadLoop fs inode size fuel buf off = .ok (n, bytes)) : n = toInt size ∨ n < 0 := by
  induction fuel generalizing buf off with
  | zero =>
    unfold fsReadLoop at he
    split_ifs at he with hlt
    rw [Except.ok.injEq, Prod.mk.injEq, show buf.length = size by omega] at he
    exact Or.inl he.1.symm
  | succ fuel ih =>
    unfold fsReadLoop at he
    split_ifs at he with hlt
    · obtain ⟨⟨r, found⟩, -, he⟩ := bind_eq_ok.mp he
      dsimp only at he
      split_ifs at he with hr
      · cases he
        right
        cases r with
        | ok => exact absurd rfl hr
        | _ => decide
      · cases found with
        | none => cases he
        | some k =>
          obtain ⟨bs, hload, he⟩ := bind_eq_ok.mp he
          obtain ⟨-, rfl⟩ := deviceDataLoad_eq_ok.mp hload
          refine ih ?_ he
          rw [List.length_append, slice_length]
          omega
    · rw [Except.ok.injEq, Prod.mk.injEq, show buf.length = size by omega] at he
      exact Or.inl he.1.symm

theorem fsReadLoop_covers (h : Mounted geo fs) {n : ℤ} {bytes : List UInt8}
    (he : fsReadLoop fs inode size fuel buf off = .ok (n, bytes)) (h0 : 0 ≤ n)
    (hlimit : ∀ pos, off ≤ pos → pos < off + (size - buf.length) →
      pos / geo.blkSize < blkLimit fs) {pos : ℕ} (hpos : off ≤ pos)
    (hpos' : pos < off + (size - buf.length)) :
    ∃ k, findAt fs inode (pos / geo.blkSize) = .ok (.ok, some k) := by
  induction fuel generalizing buf off with
  | zero =>
    unfold fsReadLoop at he
    split_ifs at he with hlt
    omega
  | succ fuel ih =>
    have hn := hlimit off (le_refl off) (by omega)
    have hoff := limit_lt h hn
    have hmod := Nat.mod_lt off geo.blkSize_pos
    unfold fsReadLoop at he
    rw [if_pos (by omega), h.fsFindBlk_eq hn] at he
    obtain ⟨⟨r, found⟩, hk, he⟩ := bind_eq_ok.mp he
    dsimp only at he
    split_ifs at he with hr
    · cases he
      cases r with
      | ok => exact absurd rfl hr
      | _ => exact absurd h0 (by decide)
    · cases found with
      | none => cases he
      | some k =>
        obtain ⟨bs, hload, he⟩ := bind_eq_ok.mp he
        obtain ⟨-, rfl⟩ := deviceDataLoad_eq_ok.mp hload
        rw [h.offInblk_eq, h.blockSize] at he
        by_cases hsame : pos < off + (geo.blkSize - off % geo.blkSize)
        · obtain ⟨q, rfl⟩ := Nat.exists_eq_add_of_le hpos
          rw [(pass_pos (by omega)).1, hk, not_not.mp hr]
          exact ⟨k, rfl⟩
        · refine ih he (fun p hp hp' => hlimit p (by omega) ?_) (by omega) ?_
          all_goals
            rw [List.length_append, slice_length] at *
            omega

end Loop

/-- The size of a file, as `fs_read_file` takes it. -/
def FileInfo.length (file : FileInfo) : ℕ := file.inode.size.toUInt64.toNat

/-- The read delivers what the file has of the range, and says how much that is. -/
def ReadsRange (fs : Filesystem) (file : FileInfo) (size off : ℕ) : Prop :=
  fsReadFile fs file size off = .ok ((min size (file.length - off) : ℕ),
    slice (storedByte fs file.inode) off (min size (file.length - off)))

section Eof

variable {geo : Geometry} {fs : Filesystem} {file : FileInfo} {size off : ℕ}

theorem readsRange_of_inside (h : Mounted geo fs) (hst : Stored geo fs file.inode file.length)
    (hmin : min size file.length = min size (file.length - off))
    (hend : off + min size file.length ≤ file.length ∨ min size file.length = 0) :
    ReadsRange fs file size off := by
  have hlt := hst.lt h
  unfold ReadsRange
  rw [← hmin]
  change fsReadLoop fs file.inode (min size file.length) (min size file.length) [] off = _
  rcases hend with hend | h0
  · rw [fsReadLoop_stored h hst (Nat.zero_le _) (Nat.sub_le _ _) hend,
      toInt_of_lt (show min size file.length < 2 ^ 31 by omega)]
    rfl
  · rw [h0]
    exact fsReadLoop_done (Nat.lt_irrefl 0)

/-- A read of a file whose blocks are all mapped stops at the end of the file exactly when it
starts at 0 or does not reach past the end. -/
theorem read_stops_at_eof (h : Mounted geo fs) (hst : Stored geo fs file.inode file.length) :
    ReadsRange fs file size off ↔
      off = 0 ∨ size = 0 ∨ file.length = 0 ∨ off + size ≤ file.length := by
  constructor
  · intro hread
    by_contra hcond
    have hlt := hst.lt h
    have hcode := fsReadLoop_code (Nat.zero_le _) hread
    change _ = toInt (min size file.length) ∨ _ at hcode
    rw [toInt_of_lt (show min size file.length < 2 ^ 31 by omega)] at hcode
    omega
  · intro hcond
    exact readsRange_of_inside h hst (by omega) (by omega)

end Eof

/-- The file `/f`, inode 3, of three bytes. -/
def threeBytes : List Op :=
  [.create [47, 102] 0o100644, .write (newFile 0o100644 3) [1, 2, 3] 0]

def threeBytesFile : FileInfo :=
  ⟨inodeSetSize ((newFile 0o100644 3).inode.setBlk 0 2) 3, 3⟩

theorem threeBytes_stored {fs : Filesystem} (h : Mounted smallDisk fs) :
    Stored smallDisk fs threeBytesFile.inode threeBytesFile.length := by
  intro pos hpos
  have hlen : threeBytesFile.length = 3 := by decide
  have hn : pos / smallDisk.blkSize = 0 := Nat.div_eq_of_lt (show pos < 512 by omega)
  rw [hn, blkLimit_eq h]
  refine ⟨Nat.zero_lt_of_lt (Nat.lt_add_of_pos_left (by decide)), 2, ⟨by decide, by decide⟩, ?_⟩
  rw [findAt_of_lt (by decide)]
  decide

theorem read_stops_at_eof_threeBytes :
    ∃ fs, Reachable smallDisk fs ∧ FreshFile fs threeBytesFile ∧
      ReadsRange fs threeBytesFile 2 1 := by
  have hrun : ∃ fs, Reachable smallDisk fs ∧ FreshFile fs threeBytesFile := by
    apply exists_reachable threeBytes
    decide +kernel
  obtain ⟨fs, hreach, hfresh⟩ := hrun
  have hm := hreach.wellformed.1
  refine ⟨fs, hreach, hfresh, (read_stops_at_eof hm (threeBytes_stored hm)).mpr ?_⟩
  decide

/-- Reading three bytes at offset 1 delivers one that is behind the end. -/
theorem read_past_eof :
    ∃ fs, Reachable smallDisk fs ∧ FreshFile fs threeBytesFile ∧
      Stored smallDisk fs threeBytesFile.inode threeBytesFile.length ∧
      fsReadFile fs threeBytesFile 3 1 = .ok (3, [2, 3, 0]) ∧
      ¬ ReadsRange fs threeBytesFile 3 1 := by
  have hrun : ∃ fs, Reachable smallDisk fs ∧ (FreshFile fs threeBytesFile ∧
      fsReadFile fs threeBytesFile 3 1 = .ok (3, [2, 3, 0])) := by
    apply exists_reachable threeBytes
    decide +kernel
  obtain ⟨fs, hreach, hfresh, hread⟩ := hrun
  refine ⟨fs, hreach, hfresh, threeBytes_stored hreach.wellformed.1, hread, fun hlaw => ?_⟩
  rw [ReadsRange, hread] at hlaw
  have hcode : (3 : ℤ) = (min 3 (threeBytesFile.length - 1) : ℕ) :=
    congrArg Prod.fst (Except.ok.inj hlaw)
  exact absurd hcode (by decide)

/-- The file `/f`, inode 3, of 513 bytes in two blocks. -/
def twoBlocksRun : List Op :=
  [.create [47, 102] 0o100644, .write (newFile 0o100644 3) (List.replicate 513 1) 0]

def twoBlocksFile : FileInfo :=
  ⟨inodeSetSize (((newFile 0o100644 3).inode.setBlk 0 2).setBlk 1 3) 513, 3⟩

theorem twoBlocks_stored {fs : Filesystem} (h : Mounted smallDisk fs) :
    Stored smallDisk fs twoBlocksFile.inode twoBlocksFile.length := by
  intro pos hpos
  have hlen : twoBlocksFile.length = 513 := by decide
  have hn : pos / smallDisk.blkSize = 0 ∨ pos / smallDisk.blkSize = 1 := by
    change pos / 512 = 0 ∨ pos / 512 = 1
    omega
  rw [blkLimit_eq h]
  rcases hn with hn | hn
  · rw [hn, findAt_of_lt (by decide)]
    exact ⟨by decide, 2, ⟨by decide, by decide⟩, by decide⟩
  · rw [hn, findAt_of_lt (by decide)]
    exact ⟨by decide, 3, ⟨by decide, by decide⟩, by decide⟩

end ChisaiFs
