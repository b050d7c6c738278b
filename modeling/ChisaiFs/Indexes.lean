import ChisaiFs.Landed
import ChisaiFs.Reading

/-! Which indexes a read or a write passes to `fs_data_to_offset`. Those of a file with an indirect
block all name marked blocks; in a file without one the first lookup behind the direct blocks
passes index 0. -/

namespace ChisaiFs
open Cells Outcome Recorded

section Loops

variable {e : Stray} {geo : Geometry} {fs : Filesystem} {x : Inode} {off size fuel : ℕ}
  {buf : List UInt8} {file : FileInfo} {i : ChisaiSize}

theorem Traced.fsWriteFile_log (fs : Filesystem) (file : FileInfo) (buf : List UInt8) (off : ℕ)
    (p : Passed) : p ∈ (Traced.fsWriteFile e fs file buf off).log ↔
      p ∈ (Traced.fsWriteLoop e buf buf.length ⟨fs, file.inode, none, 0, off⟩).log := by
  unfold Traced.fsWriteFile
  dsimp only
  rw [mem_log_bind]
  refine or_iff_left ?_
  rintro ⟨⟨s, nospace⟩, -, hmem⟩
  cases nospace <;> simp [mem_log_bind] at hmem

theorem Traced.fsReadLoop_pass (h : Mounted geo fs)
    (hb : Volume.Bears geo i (volume geo fs) x) (hmax : off < geo.maxFileSize)
    (hr : x.Reaches (off / geo.blkSize)) (hlt : buf.length < size) :
    ((volume geo fs).mapped geo x (off / geo.blkSize) = 0 ∧
        AllReal geo (Traced.fsReadLoop e fs x size (fuel + 1) buf off).log) ∨
      ((volume geo fs).mapped geo x (off / geo.blkSize) ≠ 0 ∧ ∃ bytes : List UInt8, bytes.length =
          min (size - buf.length) (geo.blkSize - off % geo.blkSize) ∧
        (AllReal geo (Traced.fsReadLoop e fs x size (fuel + 1) buf off).log ↔
          AllReal geo
            (Traced.fsReadLoop e fs x size fuel (buf ++ bytes) (off + bytes.length)).log)) := by
  have hspan := geo.max_lt_span
  have hmod := Nat.mod_lt off geo.blkSize_pos
  have hn : off % geo.span / geo.blkSize = off / geo.blkSize := by
    rw [Nat.mod_eq_of_lt (by omega)]
  obtain ⟨log, hfind, hreal⟩ :=
    @Traced.fsFindBlk_reached e geo fs x off _ none h hn (Geometry.lt_blkLimit_iff.mpr hmax) hr
      hb.indirect_used
  generalize hm : (volume geo fs).mapped geo x (off / geo.blkSize) = k at hfind ⊢
  rw [Traced.fsReadLoop, if_pos hlt, hfind, mk_ok_bind]
  by_cases h0 : k = 0
  · left
    refine ⟨h0, List.forall_mem_append.mpr ⟨hreal, ?_⟩⟩
    simp only [lookupOf, if_pos h0]
    exact List.forall_mem_nil _
  · right
    have hused : k ∈ (volume geo fs).dataUsed := hm ▸ hb.used (hm.trans_ne h0)
    have hload := deviceDataLoad_block_ok h (h.dataUsed_inRange hused)
      (show off % geo.blkSize + min (size - buf.length) (geo.blkSize - off % geo.blkSize) ≤
        geo.blkSize by omega)
    generalize hbytes : slice ((volume geo fs).block k) (off % geo.blkSize)
      (min (size - buf.length) (geo.blkSize - off % geo.blkSize)) = bytes at hload
    have hlen : bytes.length = min (size - buf.length) (geo.blkSize - off % geo.blkSize) := by
      rw [← hbytes, slice_length]
    refine ⟨h0, bytes, hlen, ?_⟩
    simp only [lookupOf, if_neg h0, ne_eq, not_true_eq_false, ↓reduceIte]
    rw [h.offInblk_eq, h.blockSize, Traced.fsDataToOffset, record_bind,
      Traced.deviceDataLoad_of_ok hload, rec_pure_bind, hlen, AllReal, List.forall_mem_append]
    exact (and_iff_right hreal).trans (List.forall_mem_cons.trans (and_iff_right (h.real hused)))

theorem Traced.fsReadLoop_stray (h : Mounted geo fs) (hformat : geo.AsFormatted)
    (hmax : off < geo.maxFileSize) (hnot : ¬ x.Reaches (off / geo.blkSize))
    (hlt : buf.length < size) :
    ¬ AllReal geo (Traced.fsReadLoop e fs x size (fuel + 1) buf off).log := by
  have hspan := geo.max_lt_span
  have hn : off % geo.span / geo.blkSize = off / geo.blkSize := by
    rw [Nat.mod_eq_of_lt (by omega)]
  obtain ⟨hdirect, h0⟩ := not_or.mp hnot
  intro hreal
  refine not_real_zero fs.blkGrps (hreal _ ?_)
  rw [Traced.fsReadLoop, if_pos hlt, Traced.fsFindBlk_stray h hformat hn hdirect
    (Geometry.lt_blkLimit_iff.mpr hmax) (not_not.mp h0)]
  exact mem_log_bind.mpr (Or.inl (List.mem_singleton.mpr rfl))

/-- A read passes real indexes only, as long as it ends within the direct blocks or stops at a
hole there, or the file has an indirect block. -/
theorem fsReadLoop_real_iff (h : Mounted geo fs) (hformat : geo.AsFormatted)
    (hb : Volume.Bears geo i (volume geo fs) x) (hfuel : size - buf.length ≤ fuel)
    (hmax : off + (size - buf.length) ≤ geo.maxFileSize) :
    AllReal geo (Traced.fsReadLoop e fs x size fuel buf off).log ↔
      x.indirectBlk ≠ 0 ∨ size ≤ buf.length ∨
        off + (size - buf.length) ≤ directBlksNum * geo.blkSize ∨
        0 < (volume geo fs).holes geo x (off / geo.blkSize) directBlksNum := by
  have hdone : ∀ fuel buf off, ¬ buf.length < size →
      AllReal geo (Traced.fsReadLoop e fs x size fuel buf off).log := by
    intro fuel buf off hlt
    cases fuel <;> rw [Traced.fsReadLoop, if_neg hlt] <;> exact List.forall_mem_nil _
  induction fuel generalizing buf off with
  | zero => exact iff_of_true (hdone 0 buf off (by omega)) (Or.inr (Or.inl (by omega)))
  | succ fuel ih =>
    by_cases hlt : buf.length < size
    swap
    · exact iff_of_true (hdone _ _ _ hlt) (Or.inr (Or.inl (by omega)))
    have hmod := Nat.mod_lt off geo.blkSize_pos
    by_cases hr : x.Reaches (off / geo.blkSize)
    · rcases @Traced.fsReadLoop_pass e geo fs x off size fuel buf i h hb (by omega) hr hlt with
        ⟨h0, hreal⟩ | ⟨h0, bytes, hlen, hiff⟩
      · refine iff_of_true hreal (hr.symm.imp_right fun hn => Or.inr (Or.inr ?_))
        rw [Volume.holes_succ hn, if_pos h0]
        omega
      · have hnext := @ih (off + bytes.length) (buf ++ bytes)
          (by rw [List.length_append]; omega) (by rw [List.length_append]; omega)
        rw [List.length_append] at hnext
        refine hiff.trans (hnext.trans ?_)
        by_cases hi : x.indirectBlk = 0
        swap
        · exact iff_of_true (Or.inl hi) (Or.inl hi)
        have hn := hr.resolve_right (not_not.mpr hi)
        have hsep := Geometry.group_sep hn geo.blkSize
        have hdiv := Nat.div_add_mod off geo.blkSize
        rw [Nat.mul_comm] at hdiv
        refine or_congr Iff.rfl ?_
        rw [Volume.holes_succ hn, if_neg h0, Nat.zero_add]
        by_cases hend : size - buf.length ≤ geo.blkSize - off % geo.blkSize
        · exact iff_of_true (Or.inl (by omega)) (Or.inr (Or.inl (by omega)))
        · have hat : off + bytes.length = (off / geo.blkSize + 1) * geo.blkSize := by
            rw [Nat.succ_mul]
            omega
          rw [hat, Nat.mul_div_cancel _ geo.blkSize_pos, ← hat]
          omega
    · obtain ⟨hn, hi⟩ := not_or.mp hr
      have hge := (Nat.le_div_iff_mul_le geo.blkSize_pos).mp (not_lt.mp hn)
      refine iff_of_false (Traced.fsReadLoop_stray h hformat (by omega) hr hlt) ?_
      rintro (hne | hfull | hdirect | hholes)
      · exact hi hne
      · omega
      · omega
      · rw [Volume.holes_of_le (not_lt.mp hn)] at hholes
        omega

end Loops

/-- The file has an indirect block, or the write stores nothing, or ends within the direct blocks,
or has no room for the holes that it meets there. -/
def WriteStaysMapped (geo : Geometry) (fs : Filesystem) (file : FileInfo) (len off : ℕ) : Prop :=
  file.inode.indirectBlk ≠ 0 ∨ len = 0 ∨ off + len ≤ directBlksNum * geo.blkSize ∨
    off < directBlksNum * geo.blkSize ∧
      fs.room < (volume geo fs).holes geo file.inode (off / geo.blkSize) directBlksNum

/-- The file has an indirect block, or the read delivers nothing, or ends within the direct blocks,
or meets a hole there. -/
def ReadStaysMapped (geo : Geometry) (fs : Filesystem) (file : FileInfo) (size off : ℕ) : Prop :=
  file.inode.indirectBlk ≠ 0 ∨ min size file.length = 0 ∨
    off + min size file.length ≤ directBlksNum * geo.blkSize ∨
    0 < (volume geo fs).holes geo file.inode (off / geo.blkSize) directBlksNum

section Indexes

variable {e : Stray} {geo : Geometry} {fs : Filesystem} {off size : ℕ} {buf : List UInt8}
  {file : FileInfo}

theorem writes_real (hformat : geo.AsFormatted) (h : Mounted geo fs)
    (hb : Volume.Bears geo file.idx (volume geo fs) file.inode)
    (hmax : off + buf.length ≤ geo.maxFileSize) :
    AllReal geo (Traced.fsWriteFile e fs file buf off).log ↔
      WriteStaysMapped geo fs file buf.length off := by
  have hspan := geo.max_lt_span
  have hmod : off % geo.span = off := Nat.mod_eq_of_lt (by omega)
  have hlog : AllReal geo (Traced.fsWriteFile e fs file buf off).log ↔ AllReal geo
      (Traced.fsWriteLoop e buf buf.length ⟨fs, file.inode, none, 0, off⟩).log :=
    forall_congr' fun p => imp_congr_left (Traced.fsWriteFile_log fs file buf off p)
  have hrun := (hb.underway h buf off).run (e := e) hformat (Nat.sub_le _ _)
  have hiff := hrun.real_iff (by change off % geo.span + (buf.length - 0) ≤ _; omega)
  rw [hlog, hiff]
  unfold WriteStaysMapped WriteState.StaysReached WriteState.num
  dsimp only
  rw [hmod, Nat.sub_zero, eq_comm (a := (0 : ℕ))]

theorem reads_real (hformat : geo.AsFormatted) (h : Mounted geo fs)
    (hb : Volume.Bears geo file.idx (volume geo fs) file.inode)
    (hmax : off + size ≤ geo.maxFileSize) :
    AllReal geo (Traced.fsReadFile e fs file size off).log ↔
      ReadStaysMapped geo fs file size off := by
  change AllReal geo (Traced.fsReadLoop e fs file.inode (min size file.length)
    (min size file.length) [] off).log ↔ _
  rw [fsReadLoop_real_iff h hformat hb (Nat.sub_le _ _)
    (by rw [List.length_nil]; omega), List.length_nil, Nat.sub_zero, Nat.le_zero]
  rfl

/-- Within the documented limit a write and a read of a file pass indexes of marked blocks only
exactly when the file has an indirect block or they do not get behind the direct blocks. -/
theorem indexes_real (hformat : geo.AsFormatted) (h : ReachableMax geo fs)
    (hf : FreshFile fs file) (e : Stray) :
    (∀ buf off, off + buf.length ≤ geo.maxFileSize →
      (AllReal geo (Traced.fsWriteFile e fs file buf off).log ↔
        WriteStaysMapped geo fs file buf.length off)) ∧
    ∀ size off, off + size ≤ geo.maxFileSize →
      (AllReal geo (Traced.fsReadFile e fs file size off).log ↔
        ReadStaysMapped geo fs file size off) := by
  obtain ⟨hm, hd⟩ := h.landing.deep hformat
  have hb := hf.bears hm hd
  exact ⟨fun _ _ hmax => writes_real hformat hm hb hmax,
    fun _ _ hmax => reads_real hformat hm hb hmax⟩

/-- A file with an indirect block: a write and a read across the border of the direct blocks. -/
theorem indexes_real_sparse :
    ∃ fs, ReachableMax smallDisk fs ∧ FreshFile fs sparseFile ∧
      AllReal smallDisk (Traced.fsWriteFile .refuse fs sparseFile [4, 5] 6143).log ∧
      AllReal smallDisk (Traced.fsReadFile .refuse fs sparseFile 3 6143).log := by
  have hrun : ∃ fs, ReachableMax smallDisk fs ∧ FreshFile fs sparseFile := by
    apply exists_reachableMax sparse
    decide +kernel
  obtain ⟨fs, hreach, hfresh⟩ := hrun
  obtain ⟨hwrite, hread⟩ := indexes_real (by decide) hreach hfresh .refuse
  exact ⟨fs, hreach, hfresh, (hwrite _ _ (by decide)).mpr (Or.inl (by decide)),
    (hread _ _ (by decide)).mpr (Or.inl (by decide))⟩

/-- One byte behind the direct blocks of a file without an indirect block: the lookup passes
index 0. -/
theorem index_zero_passed :
    ∃ fs, ReachableMax smallDisk fs ∧ FreshFile fs threeBytesFile ∧
      6144 + [(9 : UInt8)].length ≤ smallDisk.maxFileSize ∧ ∀ e : Stray,
        (∃ p ∈ (Traced.fsWriteFile e fs threeBytesFile [9] 6144).log, p.idx = 0) ∧
        ¬ AllReal smallDisk (Traced.fsWriteFile e fs threeBytesFile [9] 6144).log := by
  have hrun : ∃ fs, Reachable smallDisk fs ∧ FreshFile fs threeBytesFile := by
    apply exists_reachable threeBytes
    decide +kernel
  obtain ⟨fs, hreach, hfresh⟩ := hrun
  obtain ⟨hm, hd⟩ := hreach.max.landing.deep (by decide)
  have hmem : ∀ e : Stray, ⟨fs.blkGrps, 0⟩ ∈
      (Traced.fsWriteFile e fs threeBytesFile [9] 6144).log := by
    intro e
    rw [Traced.fsWriteFile_log]
    exact ((hfresh.bears hm hd).underway hm [9] 6144).stray_log (by decide)
      (show (0 : ℕ) < [(9 : UInt8)].length by decide)
      (show 6144 % smallDisk.span < smallDisk.maxFileSize by decide)
      (show ¬ threeBytesFile.inode.Reaches (6144 % smallDisk.span / smallDisk.blkSize) by decide)
  exact ⟨fs, hreach.max, hfresh, by decide, fun e =>
    ⟨⟨_, hmem e, rfl⟩, fun hreal => not_real_zero _ (hreal _ (hmem e))⟩⟩

end Indexes

end ChisaiFs
