import ChisaiFs.FsSpec

/-! Reading, writing and truncating a file within its direct blocks. The loops become chains
of steps on a volume and the inode they carry along. -/

namespace ChisaiFs
open Cells Outcome

theorem and_add_and_not {w : ℕ} (x m : BitVec w) : (x &&& m) + (x &&& ~~~m) = x := by
  rw [BitVec.add_eq_or_of_and_eq_zero]
  · ext i hi
    simp only [BitVec.getElem_or, BitVec.getElem_and, BitVec.getElem_not]
    cases x[i] <;> cases m[i] <;> rfl
  · ext i hi
    simp only [BitVec.getElem_and, BitVec.getElem_not, BitVec.getElem_zero]
    cases x[i] <;> cases m[i] <;> rfl

theorem sub_and_not (x m : UInt64) : x - (x &&& ~~~m) = x &&& m := by
  have h : (x &&& m) + (x &&& ~~~m) = x := by
    rw [← UInt64.toBitVec_inj]
    exact and_add_and_not x.toBitVec m.toBitVec
  nth_rewrite 1 [← h]
  exact UInt64.add_sub_cancel _ _

theorem offInblk_eq {off b k : ℕ} (hb : b = 2 ^ k) (hk : k ≤ 63) : offInblk off b = off % b := by
  have hbn : (UInt64.ofNat b).toNat = b := by
    rw [UInt64.toNat_ofNat', hb]
    exact Nat.mod_eq_of_lt (Nat.pow_lt_pow_right (by norm_num) (by omega))
  have hpos : 0 < b := hb ▸ Nat.two_pow_pos k
  have hm : (UInt64.ofNat b - 1).toNat = b - 1 := by
    have hlt := (UInt64.ofNat b).toNat_lt
    rw [UInt64.toNat_sub, hbn, UInt64.toNat_one]
    omega
  unfold offInblk alignDown
  dsimp only
  rw [UInt64.sub_add_cancel, sub_and_not, UInt64.toNat_and, hm, hb, Nat.and_two_pow_sub_one_eq_mod,
    UInt64.toNat_ofNat']
  exact Nat.mod_mod_of_dvd off (Nat.pow_dvd_pow 2 (by omega))

section Direct

variable {geo : Geometry} {fs fs' : Filesystem} {x : Inode} {off p : ℕ}

theorem Geometry.blkSize_lt (geo : Geometry) : geo.blkSize < 2 ^ 15 := by
  have h := geo.group_fits
  by_contra hge
  have hge := not_lt.mp hge
  have hmul : 8 * 2 ^ 15 * (128 + 2 ^ 15) ≤ 8 * geo.blkSize * (128 + geo.blkSize) :=
    Nat.mul_le_mul (by omega) (by omega)
  omega

theorem Mounted.offInblk_eq (h : Mounted geo fs) (off : ℕ) :
    offInblk off fs.sb.blockSize.toNat = off % geo.blkSize := by
  obtain ⟨k, hk⟩ := geo.pow2
  have hlt := geo.blkSize_lt
  have hk63 : k ≤ 63 := by
    by_contra hge
    have hpow : 2 ^ 15 ≤ 2 ^ k := Nat.pow_le_pow_right (by norm_num) (by omega)
    omega
  rw [h.blockSize]
  exact ChisaiFs.offInblk_eq hk hk63

theorem div_lt_direct (hoff : off < directBlksNum * geo.blkSize) :
    off / geo.blkSize < directBlksNum :=
  (Nat.div_lt_iff_lt_mul geo.blkSize_pos).mpr hoff

theorem Geometry.direct_lt (geo : Geometry) : directBlksNum * geo.blkSize < 2 ^ 19 := by
  have hlt := geo.blkSize_lt
  change 12 * geo.blkSize < 2 ^ 19
  omega

theorem direct_lt (hoff : off < directBlksNum * geo.blkSize) : off < 2 ^ 19 :=
  hoff.trans geo.direct_lt

/-- Block numbers whose block holds no byte below `n`. -/
def ceilBlk (geo : Geometry) (n : ℕ) : ℕ := (n + geo.blkSize - 1) / geo.blkSize

/-- Block numbers are 32 bits wide and come around after this many bytes. -/
def Geometry.span (geo : Geometry) : ℕ := geo.blkSize * 2 ^ 32

theorem Geometry.direct_lt_span (geo : Geometry) :
    directBlksNum * geo.blkSize + geo.blkSize < geo.span := by
  rw [span, ← Nat.succ_mul, Nat.mul_comm]
  exact Nat.mul_lt_mul_of_pos_left (by decide) geo.blkSize_pos

theorem Geometry.mod_span (geo : Geometry) (off : ℕ) :
    off % geo.span % geo.blkSize = off % geo.blkSize :=
  Nat.mod_mod_of_dvd off (Nat.dvd_mul_right geo.blkSize (2 ^ 32))

/-- The documented limit `(12 + block_size/sizeof(uint32_t)) * block_size`. -/
def Geometry.maxFileSize (geo : Geometry) : ℕ := (directBlksNum + geo.blkSize / 4) * geo.blkSize

theorem Geometry.max_lt (geo : Geometry) : geo.maxFileSize < 2 ^ 30 := by
  have hlt := geo.blkSize_lt
  have hmul : (directBlksNum + geo.blkSize / 4) * geo.blkSize ≤ (12 + 2 ^ 13) * 2 ^ 15 :=
    Nat.mul_le_mul (show 12 + geo.blkSize / 4 ≤ _ by omega) hlt.le
  unfold maxFileSize
  omega

theorem Geometry.max_lt_span (geo : Geometry) : geo.maxFileSize < geo.span := by
  have hlt := geo.blkSize_lt
  rw [maxFileSize, span, Nat.mul_comm]
  exact Nat.mul_lt_mul_of_pos_left (show 12 + geo.blkSize / 4 < 2 ^ 32 by omega) geo.blkSize_pos

theorem direct_mod (hoff : off < directBlksNum * geo.blkSize) : off % geo.span = off := by
  have hlt := geo.direct_lt_span
  exact Nat.mod_eq_of_lt (by omega)

theorem Mounted.blkNum_toNat (h : Mounted geo fs) (off : ℕ) :
    (UInt32.ofNat (off / fs.sb.blockSize.toNat)).toNat = off % geo.span / geo.blkSize := by
  rw [h.blockSize, UInt32.toNat_ofNat', Geometry.span, Nat.mod_mul_right_div_self]

theorem fsFindBlk_direct (h : Mounted geo fs) (hp : off % geo.span = p)
    (hin : p < directBlksNum * geo.blkSize) (blkIdx : Option ChisaiSize) :
    fsFindBlk fs x off blkIdx =
      .ok (if x.blk (p / geo.blkSize) = 0 then .enoent else .ok, some (x.blk (p / geo.blkSize))) := by
  have hn := div_lt_direct hin
  have hnum := h.blkNum_toNat off
  rw [hp] at hnum
  rw [Inode.blk_of_lt hn]
  unfold fsFindBlk
  simp only [hnum, hn, ↓reduceDIte]
  rfl

theorem fsAllocBlk_direct (h : Mounted geo fs) (hp : off % geo.span = p)
    (hin : p < directBlksNum * geo.blkSize) :
    fsAllocBlk fs x off = fsDataAlloc fs >>= fun r =>
      if r.1 = 0 then pure (.enomem, r.1, x, r.2)
      else pure (.ok, r.1, x.setBlk (p / geo.blkSize) r.1, r.2) := by
  have hn := div_lt_direct hin
  have hnum := h.blkNum_toNat off
  rw [hp] at hnum
  unfold fsAllocBlk
  simp only [hnum, hn, ↓reduceDIte, Inode.setBlk_of_lt hn]

end Direct

structure Cursor where
  vol : Volume
  inode : Inode
  total : ℕ

def chunk (b : ℕ) (buf : List UInt8) (start total : ℕ) : List UInt8 :=
  (buf.drop total).take (b - (start + total) % b)

/-- One pass over the file's next block: into a block it has, or into a new one. -/
inductive Cursor.Step (geo : Geometry) (buf : List UInt8) (start : ℕ) : Cursor → Cursor → Prop
  | overwrite {c : Cursor} (hlt : c.total < buf.length)
      (hk : c.inode.blk ((start + c.total) / geo.blkSize) ≠ 0) :
      Step geo buf start c
        ⟨c.vol.writeBlock (c.inode.blk ((start + c.total) / geo.blkSize))
            ((start + c.total) % geo.blkSize) (chunk geo.blkSize buf start c.total),
          c.inode, c.total + (chunk geo.blkSize buf start c.total).length⟩
  | extend {c : Cursor} {k : ChisaiSize} (hlt : c.total < buf.length)
      (hn : (start + c.total) / geo.blkSize < directBlksNum)
      (h0 : c.inode.blk ((start + c.total) / geo.blkSize) = 0) (hr : geo.InRange k)
      (hk : k ∉ c.vol.dataUsed) :
      Step geo buf start c
        ⟨(c.vol.useData k).writeBlock k ((start + c.total) % geo.blkSize)
            (chunk geo.blkSize buf start c.total),
          c.inode.setBlk ((start + c.total) / geo.blkSize) k,
          c.total + (chunk geo.blkSize buf start c.total).length⟩

def WriteState.cursor (geo : Geometry) (s : WriteState) : Cursor :=
  ⟨volume geo s.fs, s.inode, s.total⟩

section Write

variable {geo : Geometry} {buf : List UInt8} {start : ℕ} {s s' : WriteState} {nospace : Bool}

section Chunks

variable (geo buf start)

theorem chunk_length (total : ℕ) : (chunk geo.blkSize buf start total).length =
    min (geo.blkSize - (start + total) % geo.blkSize) (buf.length - total) := by
  rw [chunk, List.length_take, List.length_drop]

theorem chunk_fits (total : ℕ) :
    (start + total) % geo.blkSize + (chunk geo.blkSize buf start total).length ≤ geo.blkSize := by
  have hmod := Nat.mod_lt (start + total) geo.blkSize_pos
  rw [chunk_length]
  omega

theorem chunk_pos {total : ℕ} (h : total < buf.length) :
    0 < (chunk geo.blkSize buf start total).length := by
  have hmod := Nat.mod_lt (start + total) geo.blkSize_pos
  rw [chunk_length]
  omega

theorem chunk_le {total : ℕ} (h : total ≤ buf.length) :
    total + (chunk geo.blkSize buf start total).length ≤ buf.length := by
  rw [chunk_length]
  omega

end Chunks

theorem Cursor.Step.total_le {c c' : Cursor} (h : Cursor.Step geo buf start c c') :
    c'.total ≤ buf.length := by
  cases h with
  | overwrite hlt hk => exact chunk_le geo buf start hlt.le
  | extend hlt hn h0 hr hk => exact chunk_le geo buf start hlt.le

theorem chunk_eq (total : ℕ) : (buf.drop total).take
    (min (buf.length - total) (geo.blkSize - (start + total) % geo.blkSize)) =
      chunk geo.blkSize buf start total := by
  rw [chunk, List.take_eq_take_iff, List.length_drop]
  omega

/-- The store at the end of a pass, into block `blk` of the file whose inode is now `inode`. -/
def WriteState.store (buf : List UInt8) (s : WriteState) (fs : Filesystem) (inode : Inode)
    (blk : ChisaiSize) : Exec (WriteState × Bool) := do
  let offIn := offInblk s.off s.fs.sb.blockSize.toNat
  let wlen := min (buf.length - s.total) (s.fs.sb.blockSize.toNat - offIn)
  let d ← deviceDataSave fs.d (offIn + fsDataToOffset fs blk) ((buf.drop s.total).take wlen)
  return (⟨{ fs with d := d }, inode, some blk, s.total + wlen, s.off + wlen⟩, false)

theorem fsWriteChunk_eq (h : Mounted geo s.fs) {p : ℕ} (hp : s.off % geo.span = p)
    (hin : p < directBlksNum * geo.blkSize) :
    fsWriteChunk buf s =
      if s.inode.blk (p / geo.blkSize) = 0 then
        fsDataAlloc s.fs >>= fun r =>
          if r.1 = 0 then pure ({ s with fs := r.2, blkIdx := some r.1 }, true)
          else s.store buf r.2 (s.inode.setBlk (p / geo.blkSize) r.1) r.1
      else s.store buf s.fs s.inode (s.inode.blk (p / geo.blkSize)) := by
  unfold fsWriteChunk
  rw [fsFindBlk_direct h hp hin, fsAllocBlk_direct h hp hin]
  by_cases h0 : s.inode.blk (p / geo.blkSize) = 0
  · simp only [h0, ↓reduceIte, ok_bind]
    cases fsDataAlloc s.fs with
    | error e => rfl
    | ok r =>
      by_cases hr : r.1 = 0
      · simp only [ok_bind, hr, ↓reduceIte]
        rfl
      · simp only [ok_bind, hr, ↓reduceIte]
        rfl
  · simp only [h0, ↓reduceIte, ok_bind]
    rfl

/-- How far the write is: its offset, but for the width of block numbers. -/
def WriteState.At (geo : Geometry) (start : ℕ) (s : WriteState) : Prop :=
  s.off % geo.span = start + s.total

theorem WriteState.At.inblk (hat : s.At geo start) :
    s.off % geo.blkSize = (start + s.total) % geo.blkSize := by
  rw [← geo.mod_span, hat]

theorem WriteState.At.add (hat : s.At geo start) {n : ℕ}
    (hlt : start + s.total + n < geo.span) : (s.off + n) % geo.span = start + (s.total + n) := by
  rw [Nat.add_mod, hat, Nat.mod_eq_of_lt (show n < geo.span by omega), Nat.mod_eq_of_lt hlt,
    Nat.add_assoc]

theorem chunk_lt_span (hin : start + s.total < directBlksNum * geo.blkSize) :
    start + s.total + (chunk geo.blkSize buf start s.total).length < geo.span := by
  have hfit := chunk_fits geo buf start s.total
  have hle := geo.direct_lt_span
  omega

theorem WriteState.store_eq_ok (h : Mounted geo s.fs) (hat : s.At geo start)
    (hin : start + s.total < directBlksNum * geo.blkSize) {fs : Filesystem} (hfs : Mounted geo fs)
    {inode : Inode} {blk : ChisaiSize} (he : s.store buf fs inode blk = .ok (s', nospace)) :
    nospace = false ∧ Mounted geo s'.fs ∧ s'.At geo start ∧
      s'.cursor geo =
        ⟨(volume geo fs).writeBlock blk ((start + s.total) % geo.blkSize)
            (chunk geo.blkSize buf start s.total),
          inode, s.total + (chunk geo.blkSize buf start s.total).length⟩ := by
  have hfit := chunk_fits geo buf start s.total
  have hspan := hat.add (@chunk_lt_span geo buf start s hin)
  unfold store at he
  rw [h.offInblk_eq, h.blockSize, hat.inblk] at he
  dsimp only at he
  rw [chunk_eq] at he
  obtain ⟨d, hd, he⟩ := bind_eq_ok.mp he
  cases he
  obtain ⟨hm, hv⟩ := deviceDataSave_block hfs hfit hd
  rw [chunk_length, Nat.min_comm] at hspan
  refine ⟨rfl, hm, hspan, ?_⟩
  rw [WriteState.cursor, hv, chunk_length, Nat.min_comm]

theorem fsWriteChunk_direct (h : Mounted geo s.fs) (hat : s.At geo start)
    (hin : start + s.total < directBlksNum * geo.blkSize) (hlt : s.total < buf.length)
    (he : fsWriteChunk buf s = .ok (s', nospace)) :
    Mounted geo s'.fs ∧ s'.At geo start ∧
      ((nospace = true ∧ s'.cursor geo = s.cursor geo ∧
          s.inode.blk ((start + s.total) / geo.blkSize) = 0) ∨
        (nospace = false ∧ Cursor.Step geo buf start (s.cursor geo) (s'.cursor geo))) := by
  rw [fsWriteChunk_eq h hat hin] at he
  split_ifs at he with h0
  · obtain ⟨⟨k, fs₁⟩, hk, he⟩ := bind_eq_ok.mp he
    obtain ⟨h₁, -, hv₁⟩ := fsDataAlloc_spec h hk
    dsimp only at he
    split_ifs at he with hk0
    · cases he
      rcases hv₁ with ⟨-, hv₁⟩ | ⟨hr, -, -⟩
      · exact ⟨h₁, hat, Or.inl ⟨rfl, by simp only [WriteState.cursor, hv₁], h0⟩⟩
      · exact absurd hk0 hr.1
    · rcases hv₁ with ⟨h0', -⟩ | ⟨hr, hn, hv₁⟩
      · exact absurd h0' hk0
      obtain ⟨hns, hm, hat', hc⟩ := s.store_eq_ok h hat hin h₁ he
      refine ⟨hm, hat', Or.inr ⟨hns, ?_⟩⟩
      rw [hc, hv₁]
      exact .extend hlt (div_lt_direct hin) h0 hr hn
  · obtain ⟨hns, hm, hat', hc⟩ := s.store_eq_ok h hat hin h he
    refine ⟨hm, hat', Or.inr ⟨hns, ?_⟩⟩
    rw [hc]
    exact .overwrite hlt h0

theorem Inode.setBlk_indirectBlk (x : Inode) (n : ℕ) (k : ChisaiSize) :
    (x.setBlk n k).indirectBlk = x.indirectBlk := by
  unfold setBlk
  split_ifs <;> rfl

theorem fsWriteLoop_confined {fuel : ℕ} (h : Mounted geo s.fs) (hat : s.At geo start)
    (hrange : start + buf.length ≤ directBlksNum * geo.blkSize) (hle : s.total ≤ buf.length)
    (he : fsWriteLoop buf fuel s = .ok (s', nospace)) :
    Mounted geo s'.fs ∧
      Relation.ReflTransGen (Cursor.Step geo buf start) (s.cursor geo) (s'.cursor geo) ∧
      s'.total ≤ buf.length ∧ (s'.total < buf.length →
        nospace = true ∧ s'.inode.blk ((start + s'.total) / geo.blkSize) = 0 ∧
        start + s'.total < directBlksNum * geo.blkSize) := by
  induction fuel generalizing s with
  | zero =>
    unfold fsWriteLoop at he
    split_ifs at he with hlt
    cases he
    exact ⟨h, .refl, hle, fun hl => absurd hl hlt⟩
  | succ fuel ih =>
    unfold fsWriteLoop at he
    split_ifs at he with hlt
    · obtain ⟨⟨s₁, full⟩, hchunk, he⟩ := bind_eq_ok.mp he
      have hin : start + s.total < directBlksNum * geo.blkSize := by omega
      obtain ⟨h₁, hat₁, hcase⟩ := fsWriteChunk_direct h hat hin hlt hchunk
      rcases hcase with ⟨rfl, hcur, h0⟩ | ⟨rfl, hstep⟩
      · cases he
        have htotal : s'.total = s.total := congrArg Cursor.total hcur
        have hinode : s'.inode = s.inode := congrArg Cursor.inode hcur
        refine ⟨h₁, by rw [hcur], by omega, fun _ => ⟨rfl, ?_, by omega⟩⟩
        rw [hinode, htotal]
        exact h0
      · obtain ⟨hm, hsteps, hrest⟩ := ih h₁ hat₁ hstep.total_le he
        exact ⟨hm, .head hstep hsteps, hrest⟩
    · cases he
      exact ⟨h, .refl, hle, fun hl => absurd hl hlt⟩

/-- The size `fs_write_file` stores after `total` bytes went to `off`. -/
def writtenSize (inode : Inode) (off total : ℕ) : Int64 :=
  let oldFileSz : UInt32 := (inodeGetSize inode).toUInt64.toUInt32
  Int64.ofNat (if off < oldFileSz.toNat then total else total + oldFileSz.toNat)

theorem writtenSize_eq {x : Inode} {n : ℕ} (hsize : x.size = Int64.ofNat n) (hn : n < 2 ^ 31)
    (off total : ℕ) :
    writtenSize x off total = Int64.ofNat (if off < n then total else total + n) := by
  have hold : (inodeGetSize x).toUInt64.toUInt32.toNat = n := by
    rw [inodeGetSize, hsize, Int64.toUInt64_ofNat', UInt64.toNat_toUInt32, UInt64.toNat_ofNat']
    omega
  unfold writtenSize
  dsimp only
  rw [hold]

theorem writtenSize_append {x : Inode} {written : ℕ} (hsize : x.size = Int64.ofNat written)
    (hle : written < 2 ^ 31) (total : ℕ) :
    writtenSize x written total = Int64.ofNat (written + total) := by
  rw [writtenSize_eq hsize hle, if_neg (Nat.lt_irrefl written), Nat.add_comm]

theorem toInt_of_lt {n : ℕ} (h : n < 2 ^ 31) : toInt n = n :=
  Int.bmod_eq_of_le (by omega) (by norm_num; omega)

theorem fsWriteFile_eq_ok {fs fs' : Filesystem} {file file' : FileInfo} {ret : ℤ} {off : ℕ}
    (he : fsWriteFile fs file buf off = .ok (ret, file', fs')) :
    ∃ s nospace, fsWriteLoop buf buf.length ⟨fs, file.inode, none, 0, off⟩ = .ok (s, nospace) ∧
      ret = toInt s.total ∧
      file' = ⟨inodeSetSize s.inode (writtenSize file.inode off s.total), file.idx⟩ ∧
      fsSaveInode s.fs file'.inode file.idx = .ok fs' := by
  obtain ⟨⟨s, nospace⟩, hloop, he⟩ := bind_eq_ok.mp he
  have hend : (fsSaveInode s.fs (inodeSetSize s.inode (writtenSize file.inode off s.total))
      file.idx >>= fun fs => pure (toInt s.total,
        (⟨inodeSetSize s.inode (writtenSize file.inode off s.total), file.idx⟩ : FileInfo), fs)) =
      .ok (ret, file', fs') := by
    cases nospace with
    | true => simpa [writtenSize] using he
    | false =>
      obtain ⟨_, -, he⟩ := bind_eq_ok.mp he
      simpa [writtenSize] using he
  obtain ⟨fs₁, hsave, hresult⟩ := bind_eq_ok.mp hend
  rw [pure_eq_ok, Prod.mk.injEq, Prod.mk.injEq] at hresult
  obtain ⟨rfl, rfl, rfl⟩ := hresult
  exact ⟨s, nospace, hloop, rfl, rfl, hsave⟩

theorem fsWriteFile_confined {fs fs' : Filesystem} {file file' : FileInfo} {ret : ℤ} {off : ℕ}
    (h : Mounted geo fs) (hstart : off % geo.span = start)
    (hrange : start + buf.length ≤ directBlksNum * geo.blkSize)
    (he : fsWriteFile fs file buf off = .ok (ret, file', fs')) :
    Mounted geo fs' ∧ ∃ c, Relation.ReflTransGen (Cursor.Step geo buf start)
        ⟨volume geo fs, file.inode, 0⟩ c ∧
      c.total ≤ buf.length ∧
      (c.total < buf.length → c.inode.blk ((start + c.total) / geo.blkSize) = 0 ∧
        start + c.total < directBlksNum * geo.blkSize) ∧
      ret = toInt c.total ∧
      file' = ⟨inodeSetSize c.inode (writtenSize file.inode off c.total), file.idx⟩ ∧
      volume geo fs' = c.vol.setInode file.idx file'.inode := by
  obtain ⟨s, nospace, hloop, hret, hfile, hsave⟩ := fsWriteFile_eq_ok he
  have hat : WriteState.At geo start ⟨fs, file.inode, none, 0, off⟩ := hstart
  obtain ⟨hm, hsteps, hle, hshort⟩ := fsWriteLoop_confined h hat hrange (Nat.zero_le _) hloop
  obtain ⟨hm', -, -, hv⟩ := fsSaveInode_spec hm hsave
  exact ⟨hm', s.cursor geo, hsteps, hle, fun hl => (hshort hl).2, hret, hfile, hv⟩

theorem fsWriteFile_direct {fs fs' : Filesystem} {file file' : FileInfo} {ret : ℤ}
    (h : Mounted geo fs) (hrange : start + buf.length ≤ directBlksNum * geo.blkSize)
    (he : fsWriteFile fs file buf start = .ok (ret, file', fs')) :
    Mounted geo fs' ∧ ∃ c, Relation.ReflTransGen (Cursor.Step geo buf start)
        ⟨volume geo fs, file.inode, 0⟩ c ∧
      c.total ≤ buf.length ∧
      (c.total < buf.length → c.inode.blk ((start + c.total) / geo.blkSize) = 0) ∧
      ret = c.total ∧
      file' = ⟨inodeSetSize c.inode (writtenSize file.inode start c.total), file.idx⟩ ∧
      volume geo fs' = c.vol.setInode file.idx file'.inode := by
  have hlt := geo.direct_lt
  have hspan : start % geo.span = start := by
    have hle := geo.direct_lt_span
    exact Nat.mod_eq_of_lt (by omega)
  obtain ⟨hm, c, hsteps, hle, hshort, hret, hfile, hv⟩ :=
    fsWriteFile_confined h hspan hrange he
  exact ⟨hm, c, hsteps, hle, fun hl => (hshort hl).1,
    hret.trans (toInt_of_lt (show c.total < 2 ^ 31 by omega)), hfile, hv⟩

end Write

inductive Shrink : Volume × Inode → Volume × Inode → Prop
  | drop {v : Volume} {inode : Inode} {n : ℕ} (hk : inode.blk n ≠ 0) :
      Shrink (v, inode) (v.freeData (inode.blk n), inode.setBlk n 0)

section Truncate

variable {geo : Geometry} {fs fs' : Filesystem}

theorem fsTruncateLoop_eq_ok {newBlkcnt n : ℕ} {inode inode' : Inode} (h : Mounted geo fs)
    (he : fsTruncateLoop newBlkcnt n fs inode = .ok (fs', inode')) :
    Mounted geo fs' ∧
      Relation.ReflTransGen Shrink (volume geo fs, inode) (volume geo fs', inode') := by
  induction n generalizing fs inode with
  | zero =>
    cases he
    exact ⟨h, .refl⟩
  | succ n ih =>
    unfold fsTruncateLoop at he
    split_ifs at he with hn
    obtain ⟨_, hne, he⟩ := bind_eq_ok.mp he
    obtain ⟨fs₁, hrel, he⟩ := bind_eq_ok.mp he
    obtain ⟨h₁, -, hv₁⟩ := fsDataRelease_spec h hrel
    have hblk : inode.blk (newBlkcnt + n) = inode.directBlks[newBlkcnt + n] := Inode.blk_of_lt hn
    have hk : inode.blk (newBlkcnt + n) ≠ 0 := by
      rw [hblk]
      exact (ite_error_eq_ok.mp hne).1
    rw [← Inode.setBlk_of_lt hn] at he
    obtain ⟨hm, hsteps⟩ := ih h₁ he
    rw [hv₁, ← hblk] at hsteps
    exact ⟨hm, .head (.drop hk) hsteps⟩

theorem fsTruncateFile_eq_ok {file file' : FileInfo} {trctSize : ℕ} {r : ChisaiError}
    (h : Mounted geo fs) (he : fsTruncateFile fs file trctSize = .ok (r, file', fs')) :
    Mounted geo fs' ∧ r = .ok ∧ ∃ v inode,
      Relation.ReflTransGen Shrink (volume geo fs, file.inode) (v, inode) ∧
      file' = ⟨inodeSetSize inode (Int64.ofNat trctSize), file.idx⟩ ∧
      volume geo fs' = v.setInode file.idx file'.inode := by
  obtain ⟨_, -, he⟩ := bind_eq_ok.mp he
  obtain ⟨⟨fs₁, inode⟩, hloop, he⟩ := bind_eq_ok.mp he
  obtain ⟨h₁, hsteps⟩ := fsTruncateLoop_eq_ok h hloop
  obtain ⟨fs₂, hsave, he⟩ := bind_eq_ok.mp he
  cases he
  obtain ⟨h₂, -, -, hv₂⟩ := fsSaveInode_spec h₁ hsave
  exact ⟨h₂, rfl, _, inode, hsteps, rfl, hv₂⟩

end Truncate

def Volume.fileByte (v : Volume) (geo : Geometry) (inode : Inode) (pos : ℕ) : UInt8 :=
  v.block (inode.blk (pos / geo.blkSize)) (pos % geo.blkSize)

section Read

variable {geo : Geometry} {fs fs' : Filesystem} {inode : Inode} {size fuel off : ℕ}
  {buf : List UInt8}

theorem fsReadLoop_pass (h : Mounted geo fs) (hin : off < directBlksNum * geo.blkSize)
    (hlt : buf.length < size) :
    fsReadLoop fs inode size (fuel + 1) buf off =
      if inode.blk (off / geo.blkSize) = 0 then .ok (ChisaiError.enoent.code, buf)
      else deviceDataLoad fs.d
          (off % geo.blkSize + fsDataToOffset fs (inode.blk (off / geo.blkSize)))
          (min (size - buf.length) (geo.blkSize - off % geo.blkSize)) >>= fun bytes =>
        fsReadLoop fs inode size fuel (buf ++ bytes)
          (off + min (size - buf.length) (geo.blkSize - off % geo.blkSize)) := by
  rw [fsReadLoop, if_pos hlt]
  dsimp only
  rw [fsFindBlk_direct h (direct_mod hin) hin]
  by_cases h0 : inode.blk (off / geo.blkSize) = 0
  · simp only [h0, ↓reduceIte, ok_bind]
    rfl
  · simp only [h0, ↓reduceIte, ok_bind, h.offInblk_eq,
      ne_eq, not_true_eq_false]
    rw [h.blockSize]

theorem fsReadLoop_done (hlt : ¬ buf.length < size) :
    fsReadLoop fs inode size fuel buf off = .ok (toInt buf.length, buf) := by
  cases fuel <;> rw [fsReadLoop, if_neg hlt]

theorem pass_pos {k : ℕ} (hk : k < geo.blkSize - off % geo.blkSize) :
    (off + k) / geo.blkSize = off / geo.blkSize ∧ (off + k) % geo.blkSize = off % geo.blkSize + k := by
  have hmod := Nat.mod_lt off geo.blkSize_pos
  have hlt : off % geo.blkSize + k < geo.blkSize := by omega
  refine ⟨?_, ?_⟩
  · rw [← Nat.div_add_mod off geo.blkSize, Nat.add_assoc, Nat.mul_add_div geo.blkSize_pos,
      Nat.div_eq_of_lt hlt, Nat.add_zero, Nat.mul_add_div geo.blkSize_pos,
      Nat.div_eq_of_lt hmod, Nat.add_zero]
  · rw [Nat.add_mod, Nat.mod_eq_of_lt (show k < geo.blkSize by omega), Nat.mod_eq_of_lt hlt]

theorem slice_block_eq_fileByte (v : Volume) {n : ℕ} (hn : n ≤ geo.blkSize - off % geo.blkSize) :
    slice (v.block (inode.blk (off / geo.blkSize))) (off % geo.blkSize) n =
      slice (v.fileByte geo inode) off n := by
  refine List.ext_getElem (by simp) fun k hk _ => ?_
  rw [slice_length] at hk
  have hk : k < geo.blkSize - off % geo.blkSize := by omega
  obtain ⟨hd, hm⟩ := pass_pos hk
  simp [Volume.fileByte, hd, hm]

/-- Reads through the same inode agree on volumes that agree on the bytes they cover, which end
at the first hole. -/
theorem fsReadLoop_congr (h : Mounted geo fs) (h' : Mounted geo fs')
    (hrange : off + (size - buf.length) ≤ directBlksNum * geo.blkSize)
    (hbytes : ∀ pos, off ≤ pos → pos < off + (size - buf.length) →
      (∀ q, off ≤ q → q ≤ pos → inode.blk (q / geo.blkSize) ≠ 0) →
      (volume geo fs).fileByte geo inode pos = (volume geo fs').fileByte geo inode pos) :
    fsReadLoop fs inode size fuel buf off = fsReadLoop fs' inode size fuel buf off := by
  induction fuel generalizing buf off with
  | zero => rfl
  | succ fuel ih =>
    by_cases hlt : buf.length < size
    · have hin : off < directBlksNum * geo.blkSize := by omega
      have hmod := Nat.mod_lt off geo.blkSize_pos
      rw [fsReadLoop_pass h hin hlt, fsReadLoop_pass h' hin hlt]
      split_ifs with h0
      · rfl
      · have hblock : ∀ q, off ≤ q → q - off < geo.blkSize - off % geo.blkSize →
            inode.blk (q / geo.blkSize) ≠ 0 := by
          intro q hq hlt
          obtain ⟨k, rfl⟩ := Nat.exists_eq_add_of_le hq
          rw [(pass_pos (by omega)).1]
          exact h0
        have hload : ∀ n, n ≤ size - buf.length → n ≤ geo.blkSize - off % geo.blkSize →
            deviceDataLoad fs.d
              (off % geo.blkSize + fsDataToOffset fs (inode.blk (off / geo.blkSize))) n =
            deviceDataLoad fs'.d
              (off % geo.blkSize + fsDataToOffset fs' (inode.blk (off / geo.blkSize))) n := by
          intro n hn hn'
          have hfit : off % geo.blkSize + n ≤ geo.blkSize := by omega
          unfold deviceDataLoad
          rw [fsDataToOffset_eq h, fsDataToOffset_eq h', h.device, h'.device, Nat.add_comm (off % _),
            slice_volume_block _ hfit, slice_volume_block _ hfit, slice_block_eq_fileByte _ hn',
            slice_block_eq_fileByte _ hn']
          rw [slice_congr fun k hk => ?_]
          exact hbytes _ (by omega) (by omega) fun q hq hq' => hblock q hq (by omega)
        rw [hload _ (Nat.min_le_left _ _) (Nat.min_le_right _ _)]
        cases hl : deviceDataLoad fs'.d
            (off % geo.blkSize + fsDataToOffset fs' (inode.blk (off / geo.blkSize)))
            (min (size - buf.length) (geo.blkSize - off % geo.blkSize)) with
        | error e => rfl
        | ok bytes =>
          have hlen : bytes.length = min (size - buf.length) (geo.blkSize - off % geo.blkSize) := by
            obtain ⟨-, rfl⟩ := deviceDataLoad_eq_ok.mp hl
            exact slice_length _ _ _
          rw [← hlen]
          refine ih ?_ fun pos hpos hpos' hmapped => hbytes pos ?_ ?_ fun q hq hq' => ?_
          · rw [List.length_append]
            omega
          · omega
          · rw [List.length_append] at hpos'
            omega
          · by_cases hpass : off + bytes.length ≤ q
            · exact hmapped q hpass hq'
            · exact hblock q hq (by omega)
    · rw [fsReadLoop_done hlt, fsReadLoop_done hlt]

theorem fsReadFile_empty {i : ChisaiSize} (h0 : inode.size = 0) (size off : ℕ) :
    fsReadFile fs ⟨inode, i⟩ size off = .ok (toInt 0, []) := by
  have hz : min size inode.size.toUInt64.toNat = 0 := by
    rw [h0]
    exact Nat.min_zero size
  unfold fsReadFile
  rw [hz]
  exact fsReadLoop_done (Nat.lt_irrefl 0)

end Read

end ChisaiFs
