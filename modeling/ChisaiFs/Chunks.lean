import ChisaiFs.Reading
import ChisaiFs.Library.Recorded
import ChisaiFs.Library.Splitting

/-! The chunks in which the loops of `fs_write_file` and `fs_read_file` go through a range, each
recorded by the pass that stores or loads it. Both split the range at the borders of blocks. -/

namespace ChisaiFs
open Outcome Recorded Splitting

abbrev Chunked := Rec Chunk Fault

namespace Chunked

/-- The loop of `fs_write_file`. A pass that goes on has stored as much as `total` grew by. -/
def fsWriteLoop (buf : List UInt8) : ℕ → WriteState → Chunked (WriteState × Bool)
  | fuel, s =>
    if s.total < buf.length then
      match fuel with
      | 0 => quiet (.error .diverges)
      | fuel + 1 => do
        let (s', nospace) ← quiet (fsWriteChunk buf s)
        if nospace then return (s', true)
        else
          let blkSize := s.fs.sb.blockSize.toNat
          record ⟨s.off / blkSize, offInblk s.off blkSize, s'.total - s.total⟩ ()
          fsWriteLoop buf fuel s'
    else pure (s, false)

/-- The loop of `fs_read_file`. -/
def fsReadLoop (fs : Filesystem) (inode : Inode) (size : ℕ) :
    ℕ → List UInt8 → ℕ → Chunked (ℤ × List UInt8)
  | fuel, buf, off =>
    if buf.length < size then
      match fuel with
      | 0 => quiet (.error .diverges)
      | fuel + 1 => do
        let (ret, blkIdx) ← quiet (fsFindBlk fs inode off none)
        if ret ≠ .ok then
          return (ret.code, buf)
        else
          match blkIdx with
          | none => quiet (.error .uninitialised)
          | some blk =>
            let blkSize := fs.sb.blockSize.toNat
            let offIn := offInblk off blkSize
            let rlen := min (size - buf.length) (blkSize - offIn)
            let bytes ← quiet (deviceDataLoad fs.d (offIn + fsDataToOffset fs blk) rlen)
            record ⟨off / blkSize, offIn, rlen⟩ ()
            fsReadLoop fs inode size fuel (buf ++ bytes) (off + rlen)
    else pure (toInt buf.length, buf)

theorem fsWriteLoop_result (buf : List UInt8) (fuel : ℕ) (s : WriteState) :
    (fsWriteLoop buf fuel s).result = ChisaiFs.fsWriteLoop buf fuel s := by
  induction fuel generalizing s with
  | zero =>
    unfold fsWriteLoop ChisaiFs.fsWriteLoop
    split_ifs <;> rfl
  | succ fuel ih =>
    unfold fsWriteLoop ChisaiFs.fsWriteLoop
    split_ifs
    · simp only [result_bind, result_quiet]
      congr 1
      funext r
      obtain ⟨s₁, nospace⟩ := r
      cases nospace with
      | true => rfl
      | false => exact ih s₁
    · rfl

theorem fsReadLoop_result (fs : Filesystem) (inode : Inode) (size fuel : ℕ) (buf : List UInt8)
    (off : ℕ) :
    (fsReadLoop fs inode size fuel buf off).result =
      ChisaiFs.fsReadLoop fs inode size fuel buf off := by
  induction fuel generalizing buf off with
  | zero =>
    unfold fsReadLoop ChisaiFs.fsReadLoop
    split_ifs <;> rfl
  | succ fuel ih =>
    unfold fsReadLoop ChisaiFs.fsReadLoop
    split_ifs
    · simp only [result_bind, result_quiet]
      congr 1
      funext r
      obtain ⟨ret, found⟩ := r
      dsimp only
      split_ifs
      · rfl
      · cases found with
        | none => rfl
        | some k => simp only [result_bind, result_quiet, result_record, ok_bind, ih]
    · rfl

end Chunked

theorem exponent_le {b : UInt32} {i : ℕ} (hb : b.toNat = 2 ^ i) : i ≤ 63 := by
  have hlt := b.toNat_lt
  rw [hb] at hlt
  have hi := (Nat.pow_lt_pow_iff_right (by norm_num)).mp hlt
  omega

/-- The passes of the write loop, up to `n` of them, find or allocate their blocks and store. -/
def WriteGoesOn (buf : List UInt8) : ℕ → WriteState → Prop
  | 0, _ => True
  | n + 1, s => s.total < buf.length →
    Yields (fsWriteChunk buf s) fun r => r.2 = false ∧ WriteGoesOn buf n r.1

instance decidableWriteGoesOn (buf : List UInt8) :
    ∀ n s, Decidable (WriteGoesOn buf n s)
  | 0, _ => .isTrue trivial
  | n + 1, _ =>
    have : DecidablePred fun r : WriteState × Bool => r.2 = false ∧ WriteGoesOn buf n r.1 :=
      fun r => @instDecidableAnd _ _ _ (decidableWriteGoesOn buf n r.1)
    inferInstanceAs (Decidable (_ → _))

def FoundRange (fs : Filesystem) (inode : Inode) (off size : ℕ) : Prop :=
  ∀ p, off ≤ p → p < off + size → ∃ k, fsFindBlk fs inode p none = .ok (.ok, some k) ∧
    fsDataToOffset fs k + fs.sb.blockSize.toNat ≤ fs.d.size

section Write

variable {fs fs' : Filesystem} {inode inode' : Inode} {off i fuel size : ℕ} {r : ChisaiError}
  {k : ChisaiSize} {buf : List UInt8} {s s' : WriteState}

theorem fsAllocBlk_blockSize (he : fsAllocBlk fs inode off = .ok (r, k, inode', fs')) :
    fs'.sb.blockSize = fs.sb.blockSize := by
  obtain ⟨⟨j, fs₁⟩, hj, he⟩ := bind_eq_ok.mp he
  have hl := (fsDataAlloc_layout hj).1.blockSize
  dsimp only at he
  split_ifs at he
  · cases he
    exact hl
  · cases he
    exact hl
  · obtain ⟨d₁, -, he⟩ := bind_eq_ok.mp he
    obtain ⟨⟨k₂, fs₂⟩, hk, he⟩ := bind_eq_ok.mp he
    obtain ⟨_, hpair, he⟩ := bind_eq_ok.mp he
    obtain ⟨d, -, he⟩ := bind_eq_ok.mp he
    cases hpair
    cases he
    exact (fsDataAlloc_layout hk).1.blockSize.trans hl
  · obtain ⟨_, hpair, he⟩ := bind_eq_ok.mp he
    obtain ⟨d, -, he⟩ := bind_eq_ok.mp he
    cases hpair
    cases he
    exact hl
  · cases he
    exact hl

theorem fsWriteChunk_store (he : fsWriteChunk buf s = .ok (s', false)) :
    ∃ fs inode blk, fs.sb.blockSize = s.fs.sb.blockSize ∧
      s.store buf fs inode blk = .ok (s', false) := by
  obtain ⟨⟨ret, found⟩, -, he⟩ := bind_eq_ok.mp he
  dsimp only at he
  split_ifs at he with hnoent
  · obtain ⟨⟨ret, blk, inode, fs⟩, halloc, he⟩ := bind_eq_ok.mp he
    obtain ⟨_, hpure, he⟩ := bind_eq_ok.mp he
    cases hpure
    dsimp only at he
    split_ifs at he
    · cases he
    · exact ⟨fs, inode, blk, fsAllocBlk_blockSize halloc, he⟩
  · obtain ⟨_, hpure, he⟩ := bind_eq_ok.mp he
    cases hpure
    dsimp only at he
    split_ifs at he
    · cases he
    · cases found with
      | none => cases he
      | some blk => exact ⟨s.fs, s.inode, blk, rfl, he⟩

theorem fsWriteChunk_front (hb : s.fs.sb.blockSize.toNat = 2 ^ i)
    (he : fsWriteChunk buf s = .ok (s', false)) :
    offInblk s.off (2 ^ i) = s.off % 2 ^ i ∧
      s'.total = s.total + (frontChunk (2 ^ i) s.off (buf.length - s.total)).len ∧
      s'.off = s.off + (frontChunk (2 ^ i) s.off (buf.length - s.total)).len ∧
      s'.fs.sb.blockSize = s.fs.sb.blockSize := by
  obtain ⟨fs, inode, blk, hsize, hstore⟩ := fsWriteChunk_store he
  have hoff : offInblk s.off (2 ^ i) = s.off % 2 ^ i := offInblk_eq rfl (exponent_le hb)
  obtain ⟨d, -, hstore⟩ := bind_eq_ok.mp hstore
  rw [hb, hoff] at hstore
  cases hstore
  exact ⟨hoff, rfl, rfl, hsize⟩

theorem Chunked.fsWriteLoop_done (buf : List UInt8) (n : ℕ) (hs : buf.length ≤ s.total) :
    Chunked.fsWriteLoop buf n s = pure (s, false) := by
  unfold Chunked.fsWriteLoop
  rw [if_neg (not_lt.mpr hs)]

theorem Chunked.fsWriteLoop_pass (hb : s.fs.sb.blockSize.toNat = 2 ^ i)
    (hlt : s.total < buf.length) (he : fsWriteChunk buf s = .ok (s', false)) :
    Chunked.fsWriteLoop buf (fuel + 1) s =
      ⟨frontChunk (2 ^ i) s.off (buf.length - s.total) :: (Chunked.fsWriteLoop buf fuel s').log,
        (Chunked.fsWriteLoop buf fuel s').result⟩ := by
  obtain ⟨hoff, htotal, -, -⟩ := fsWriteChunk_front hb he
  have hchunk : (⟨s.off / 2 ^ i, offInblk s.off (2 ^ i), s'.total - s.total⟩ : Chunk) =
      frontChunk (2 ^ i) s.off (buf.length - s.total) := by
    rw [hoff, htotal, Nat.add_sub_cancel_left]
    rfl
  rw [Chunked.fsWriteLoop, if_pos hlt]
  dsimp only
  rw [he, quiet_ok_bind, if_neg Bool.false_ne_true, hb, hchunk, record_bind]

theorem Chunked.fsWriteLoop_split (hb : s.fs.sb.blockSize.toNat = 2 ^ i)
    (hle : s.total ≤ buf.length) (h : WriteGoesOn buf fuel s)
    (hfuel : chunkCount (2 ^ i) s.off (buf.length - s.total) ≤ fuel) :
    (Chunked.fsWriteLoop buf fuel s).log = split (2 ^ i) fuel s.off (buf.length - s.total) ∧
      ∃ s', (Chunked.fsWriteLoop buf fuel s).result = .ok (s', false) ∧
        s'.total = buf.length := by
  have hpos := Nat.two_pow_pos i
  induction fuel generalizing s with
  | zero =>
    have hs : buf.length ≤ s.total := by
      by_contra hlt
      rw [chunkCount_front hpos (by omega)] at hfuel
      omega
    rw [Chunked.fsWriteLoop_done buf 0 hs]
    exact ⟨rfl, s, rfl, le_antisymm hle hs⟩
  | succ fuel ih =>
    rcases hle.eq_or_lt with hs | hlt
    · rw [Chunked.fsWriteLoop_done buf _ hs.ge, split, if_pos (by omega)]
      exact ⟨rfl, s, rfl, hs⟩
    · obtain ⟨⟨s₁, _⟩, he, rfl, hrest⟩ := h hlt
      obtain ⟨-, htotal, hoff, hsize⟩ := fsWriteChunk_front hb he
      have hleft : 0 < buf.length - s.total := by omega
      have hfront := frontChunk_le (2 ^ i) s.off (buf.length - s.total)
      rw [chunkCount_front hpos hleft] at hfuel
      rw [Chunked.fsWriteLoop_pass hb hlt he, split, if_neg hleft.ne']
      have hnext : buf.length - s₁.total =
          buf.length - s.total - (frontChunk (2 ^ i) s.off (buf.length - s.total)).len := by
        omega
      obtain ⟨hlog, hend⟩ := @ih s₁ (by rw [hsize, hb]) (by omega) hrest
        (by rw [hoff, hnext]; omega)
      rw [hoff, hnext] at hlog
      exact ⟨congrArg (_ :: ·) hlog, hend⟩

end Write

section Read

variable {fs : Filesystem} {inode : Inode} {off i fuel size : ℕ} {buf : List UInt8}

theorem Chunked.fsReadLoop_done (n : ℕ) (hs : size ≤ buf.length) :
    Chunked.fsReadLoop fs inode size n buf off = pure (toInt buf.length, buf) := by
  unfold Chunked.fsReadLoop
  rw [if_neg (not_lt.mpr hs)]

theorem Chunked.fsReadLoop_pass (hb : fs.sb.blockSize.toNat = 2 ^ i) (hlt : buf.length < size)
    (h : FoundRange fs inode off (size - buf.length)) :
    ∃ bytes, bytes.length = (frontChunk (2 ^ i) off (size - buf.length)).len ∧
      Chunked.fsReadLoop fs inode size (fuel + 1) buf off =
        ⟨frontChunk (2 ^ i) off (size - buf.length) ::
            (Chunked.fsReadLoop fs inode size fuel (buf ++ bytes)
              (off + (frontChunk (2 ^ i) off (size - buf.length)).len)).log,
          (Chunked.fsReadLoop fs inode size fuel (buf ++ bytes)
            (off + (frontChunk (2 ^ i) off (size - buf.length)).len)).result⟩ := by
  obtain ⟨k, hk, hfit⟩ := h off (le_refl off) (by omega)
  have hoff : offInblk off (2 ^ i) = off % 2 ^ i := offInblk_eq rfl (exponent_le hb)
  have hinside := @frontChunk_inside (2 ^ i) off (size - buf.length) (Nat.two_pow_pos i)
  rw [hb] at hfit
  change off % 2 ^ i + min (size - buf.length) (2 ^ i - off % 2 ^ i) ≤ 2 ^ i at hinside
  obtain ⟨bytes, hload⟩ : ∃ bytes, deviceDataLoad fs.d (off % 2 ^ i + fsDataToOffset fs k)
      (min (size - buf.length) (2 ^ i - off % 2 ^ i)) = .ok bytes :=
    ⟨_, deviceDataLoad_eq_ok.mpr ⟨by omega, rfl⟩⟩
  refine ⟨bytes, ?_, ?_⟩
  · rw [← (deviceDataLoad_eq_ok.mp hload).2, Cells.slice_length]
    rfl
  · rw [Chunked.fsReadLoop, if_pos hlt]
    dsimp only
    rw [hk, quiet_ok_bind]
    dsimp only
    rw [if_neg (not_not.mpr rfl), hb, hoff, hload, quiet_ok_bind, record_bind]
    rfl

theorem Chunked.fsReadLoop_split (hb : fs.sb.blockSize.toNat = 2 ^ i) (hle : buf.length ≤ size)
    (h : FoundRange fs inode off (size - buf.length))
    (hfuel : chunkCount (2 ^ i) off (size - buf.length) ≤ fuel) :
    (Chunked.fsReadLoop fs inode size fuel buf off).log =
        split (2 ^ i) fuel off (size - buf.length) ∧
      ∃ bytes, (Chunked.fsReadLoop fs inode size fuel buf off).result = .ok (toInt size, bytes) ∧
        bytes.length = size := by
  have hpos := Nat.two_pow_pos i
  induction fuel generalizing buf off with
  | zero =>
    have hs : size ≤ buf.length := by
      by_contra hlt
      rw [chunkCount_front hpos (by omega)] at hfuel
      omega
    rw [Chunked.fsReadLoop_done 0 hs, le_antisymm hle hs]
    exact ⟨rfl, buf, rfl, le_antisymm hle hs⟩
  | succ fuel ih =>
    rcases hle.eq_or_lt with hs | hlt
    · rw [Chunked.fsReadLoop_done _ hs.ge, split, if_pos (by omega), hs]
      exact ⟨rfl, buf, rfl, hs⟩
    · have hleft : 0 < size - buf.length := by omega
      have hfront := frontChunk_le (2 ^ i) off (size - buf.length)
      obtain ⟨bytes, hlen, hpass⟩ := @Chunked.fsReadLoop_pass fs inode off i fuel size buf hb hlt h
      rw [chunkCount_front hpos hleft] at hfuel
      rw [hpass, split, if_neg hleft.ne']
      have hnext : size - (buf ++ bytes).length =
          size - buf.length - (frontChunk (2 ^ i) off (size - buf.length)).len := by
        rw [List.length_append]
        omega
      obtain ⟨hlog, hend⟩ := @ih (off + (frontChunk (2 ^ i) off (size - buf.length)).len)
        (buf ++ bytes)
        (by rw [List.length_append]; omega) (fun p hp hp' => h p (by omega) (by omega))
        (by rw [hnext]; omega)
      rw [hnext] at hlog
      exact ⟨congrArg (_ :: ·) hlog, hend⟩

theorem Stored.foundRange {geo : Geometry} {len : ℕ} (h : Mounted geo fs)
    (hst : Stored geo fs inode len) (hrange : off + size ≤ len) : FoundRange fs inode off size := by
  intro p hp hp'
  obtain ⟨hn, k, hr, hk⟩ := hst p (by omega)
  have hend := geo.blk_end_le hr.2
  refine ⟨k, (h.fsFindBlk_eq hn inode none).trans hk, ?_⟩
  rw [fsDataToOffset_eq h, h.device, h.blockSize]
  omega

end Read

section Both

variable {fs fs' : Filesystem} {inode : Inode} {file : FileInfo} {buf : List UInt8}
  {i off size : ℕ}

/-- As long as nothing fails, a write and a read of the same range, in file systems of the same
block size, go through the same chunks, which split the range, and come to their ends. -/
theorem loops_split_alike (hb : fs.sb.blockSize.toNat = 2 ^ i)
    (hb' : fs'.sb.blockSize.toNat = 2 ^ i) (hsize : buf.length = min size file.length)
    (hw : WriteGoesOn buf buf.length ⟨fs, inode, none, 0, off⟩)
    (hr : FoundRange fs' file.inode off (min size file.length)) :
    ∃ cs, Splits (2 ^ i) off (min size file.length) cs ∧
      (Chunked.fsWriteLoop buf buf.length ⟨fs, inode, none, 0, off⟩).log = cs ∧
      (Chunked.fsReadLoop fs' file.inode (min size file.length) (min size file.length) []
        off).log = cs ∧
      (∃ s, fsWriteLoop buf buf.length ⟨fs, inode, none, 0, off⟩ = .ok (s, false) ∧
        s.total = min size file.length) ∧
      ∃ bytes, fsReadFile fs' file size off = .ok (toInt (min size file.length), bytes) ∧
        bytes.length = min size file.length := by
  have hpos := Nat.two_pow_pos i
  have hcount := @chunkCount_le (2 ^ i) off (min size file.length) hpos
  obtain ⟨hwlog, hwend⟩ := Chunked.fsWriteLoop_split hb (Nat.zero_le _) hw (by
    rw [hsize]
    exact hcount)
  obtain ⟨hrlog, hrend⟩ := @Chunked.fsReadLoop_split fs' file.inode off i _ _ [] hb'
    (Nat.zero_le _) hr hcount
  rw [Chunked.fsWriteLoop_result, hsize] at hwend
  rw [Chunked.fsReadLoop_result] at hrend
  rw [hsize] at hwlog ⊢
  exact ⟨_, splits_split hpos hcount, hwlog, hrlog, hwend, hrend⟩

end Both

/-- Writing over the last three bytes of two blocks and reading them. -/
theorem loops_split_alike_twoBlocks :
    ∃ fs cs, Reachable smallDisk fs ∧ FreshFile fs twoBlocksFile ∧ Splits 512 510 3 cs ∧
      cs.length = 2 ∧
      (Chunked.fsWriteLoop [7, 8, 9] 3 ⟨fs, twoBlocksFile.inode, none, 0, 510⟩).log = cs ∧
      (Chunked.fsReadLoop fs twoBlocksFile.inode 3 3 [] 510).log = cs := by
  have hrun : ∃ fs, Reachable smallDisk fs ∧ (FreshFile fs twoBlocksFile ∧
      fs.sb.blockSize.toNat = 2 ^ 9 ∧
      WriteGoesOn [7, 8, 9] 3 ⟨fs, twoBlocksFile.inode, none, 0, 510⟩ ∧
      (Chunked.fsWriteLoop [7, 8, 9] 3 ⟨fs, twoBlocksFile.inode, none, 0, 510⟩).log.length = 2) := by
    apply exists_reachable twoBlocksRun
    decide +kernel
  obtain ⟨fs, hreach, hfresh, hb, hw, hlen⟩ := hrun
  have hm := hreach.wellformed.1
  have hr : FoundRange fs twoBlocksFile.inode 510 3 :=
    (twoBlocks_stored hm).foundRange hm (by decide)
  obtain ⟨cs, hcs, hwlog, hrlog, -⟩ := @loops_split_alike fs fs twoBlocksFile.inode
    twoBlocksFile [7, 8, 9] 9 510 3 hb hb (by decide) hw hr
  exact ⟨fs, cs, hreach, hfresh, hcs, hwlog ▸ hlen, hwlog, hrlog⟩

end ChisaiFs
