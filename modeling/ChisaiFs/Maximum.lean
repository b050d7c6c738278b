import ChisaiFs.Landed
import ChisaiFs.Reading
import ChisaiFs.Leaked

/-! The size of a file after a write. No file grows over the size that `README` allows, and one
that is larger than its direct blocks has an indirect block. -/

namespace ChisaiFs
open Cells Outcome Recorded

/-- The size of a file is within the limit, and its indirect block is there if its direct blocks do
not do. -/
def Inode.Fits (geo : Geometry) (x : Inode) : Prop :=
  ∃ n ≤ geo.maxFileSize, x.size = Int64.ofNat n ∧
    (directBlksNum * geo.blkSize < n → x.indirectBlk ≠ 0)

def SizesFit (geo : Geometry) (fs : Filesystem) : Prop :=
  ∀ i ∈ (volume geo fs).inodeUsed, sIsreg ((volume geo fs).inode i).mode →
    ((volume geo fs).inode i).Fits geo

section Sizes

variable {e : Stray} {geo : Geometry} {fs fs' : Filesystem} {file file' : FileInfo}
  {buf : List UInt8} {off : ℕ} {ret : ℤ} {u : WriteState}

theorem Inode.Fits.length (h : file.inode.Fits geo) :
    file.length ≤ geo.maxFileSize ∧ file.inode.size = Int64.ofNat file.length ∧
      (directBlksNum * geo.blkSize < file.length → file.inode.indirectBlk ≠ 0) := by
  obtain ⟨n, hle, hsize, hdeep⟩ := h
  have hlt := geo.max_lt
  have hlen : file.length = n := by
    rw [FileInfo.length, hsize, Int64.toUInt64_ofNat', UInt64.toNat_ofNat',
      Nat.mod_eq_of_lt (by omega)]
  rw [hlen]
  exact ⟨hle, hsize, hdeep⟩

theorem SizesFit.fits (hs : SizesFit geo fs) (h : Mounted geo fs) (hf : FreshFile fs file) :
    file.inode.Fits geo := by
  obtain ⟨hused, hinode, hreg⟩ := (FreshFile.iff h).mp hf
  rw [← hinode]
  exact hs _ hused (by rw [hinode]; exact hreg)

/-- A write that gets behind the direct blocks leaves an indirect block. -/
theorem Landed.indirectBlk_of_lt (h : Landed geo fs file buf off ret file' fs' u)
    (hmax : off + u.total ≤ geo.maxFileSize) (hpos : 0 < u.total)
    (hlt : directBlksNum * geo.blkSize < off + u.total) : file'.inode.indirectBlk ≠ 0 := by
  have hspan := geo.max_lt_span
  have hmod : off % geo.span = off := Nat.mod_eq_of_lt (by omega)
  have hcov := h.passes.covered (q := max off (directBlksNum * geo.blkSize)) rfl
    (by change off % geo.span + _ ≤ _; omega) (by change off % geo.span ≤ _; omega)
    (by change _ < off % geo.span + _; omega)
  have hge : ¬ max off (directBlksNum * geo.blkSize) / geo.blkSize < directBlksNum := by
    rw [Nat.div_lt_iff_lt_mul geo.blkSize_pos]
    omega
  rw [h.indirectBlk]
  rw [Volume.mapped_of_ge hge] at hcov
  exact fun h0 => hcov (Volume.behind_zero h0 _)

theorem Landed.size (h : Landed geo fs file buf off ret file' fs' u)
    (hfits : file.inode.Fits geo) : file'.inode.size =
      Int64.ofNat (if off < file.length then u.total else u.total + file.length) := by
  obtain ⟨hlen, hsize, -⟩ := hfits.length
  have hlt := geo.max_lt
  rw [h.info]
  exact writtenSize_eq hsize (by omega) off u.total

theorem Landed.fits (h : Landed geo fs file buf off ret file' fs' u) (hfits : file.inode.Fits geo)
    (hstop : u.total = 0 ∨ off + u.total ≤ geo.maxFileSize) : file'.inode.Fits geo := by
  obtain ⟨hlen, -, hdeep⟩ := hfits.length
  refine ⟨_, ?_, h.size hfits, fun hlt => ?_⟩
  · split_ifs <;> omega
  · by_cases hbig : directBlksNum * geo.blkSize < file.length
    · have h0 := hdeep hbig
      rw [h.indirectBlk, h.passes.below.indirectBlk h0]
      exact h0
    · split_ifs at hlt <;> exact h.indirectBlk_of_lt (by omega) (by omega) (by omega)

theorem SizesFit.step (hformat : geo.AsFormatted) (h : Mounted geo fs)
    (hd : (volume geo fs).Deep geo) (hs : SizesFit geo fs) {op : Op} (hl : op.Landing e geo fs)
    (hmax : op.WithinMax geo) (hstep : op.stepOn e fs = .ok fs') : SizesFit geo fs' := by
  intro i hu hreg
  have hlt := geo.max_lt
  rcases hl.cases hstep with ⟨hlaw, hstep, hw⟩ | ⟨file, buf, off, ret, file', rfl, hf, hlands, he⟩
  · cases Op.step_leaves h hstep hu hreg with
    | same hu hi =>
      rw [hi] at hreg ⊢
      exact hs i hu hreg
    | new hi =>
      rw [hi]
      exact ⟨0, Nat.zero_le _, rfl, fun hlt => absurd hlt (Nat.not_lt_zero _)⟩
    | wrote he hi => exact absurd rfl (hw _ _ _)
    | @cut inode size r file' he hi =>
      obtain ⟨hlen, hsize, hdeep⟩ := (hs.fits h hlaw).length
      obtain ⟨-, -, v, x, hsteps, rfl, -⟩ := fsTruncateFile_eq_ok h he
      obtain ⟨_, hassert, -⟩ := bind_eq_ok.mp he
      have hle := (ite_error_eq_ok.mp hassert).1
      rw [hsize, Int64.toInt_ofNat_of_lt (by omega)] at hle
      have hle := Nat.cast_le.mp hle
      refine ⟨size, hle.trans hlen, by rw [hi]; rfl, fun hlt => ?_⟩
      rw [hi]
      exact (shrink_indirectBlk hsteps).trans_ne (hdeep (hlt.trans_le hle))
  · obtain ⟨u, hu'⟩ := Traced.fsWriteFile_landed hformat h (hf.bears h hd) hlands he
    obtain ⟨hinode, hused⟩ := hu'.inode
    rw [hinode] at hreg ⊢
    rw [hused] at hu
    by_cases hi : i = file.idx
    · subst hi
      rw [Function.update_self]
      have htotal := hu'.total_le
      have hmax : off + buf.length ≤ geo.maxFileSize := hmax
      exact hu'.fits (hs.fits h hf) (Or.inr (by omega))
    · rw [Function.update_of_ne hi] at hreg ⊢
      exact hs i hu hreg

theorem ReachableMax.sizes (hformat : geo.AsFormatted) (h : ReachableMax geo fs) :
    SizesFit geo fs := by
  obtain ⟨fs₀, hmount, hrun⟩ := h
  have hstart := freshMount_deep hmount
  refine (hrun.invariant (fun s => (Mounted geo s ∧ (volume geo s).Deep geo) ∧ SizesFit geo s) ?_
    ⟨hstart, fun i hu hreg => absurd hreg (freshMount_not_regular hmount hu)⟩).2
  exact fun s op t h hl hs => ⟨Op.stepOn_deep hformat h.1.1 h.1.2 hl.1 hs,
    h.2.step hformat h.1.1 h.1.2 hl.1 hl.2 hs⟩

end Sizes

/-- Both sizes, of the handle and on the device, after a write stored `total` bytes at `off`. -/
def SizeLaw (fs' : Filesystem) (file' : FileInfo) (old off total : ℕ) : Prop :=
  file'.inode.size = Int64.ofNat (if total = 0 then old else max old (off + total)) ∧
    Finds (fsFindInode fs' file'.idx) fun x =>
      x.size = Int64.ofNat (if total = 0 then old else max old (off + total))

/-- The write starts at the end of the file, or covers all of it and has room for its holes, or
starts behind the end and stores nothing. -/
def KeepsMax (e : Stray) (geo : Geometry) (fs : Filesystem) (file : FileInfo) (len off : ℕ) :
    Prop :=
  off = file.length ∨
    (off = 0 ∧ 0 < file.length ∧ file.length ≤ len ∧
      (volume geo fs).holes geo file.inode 0 (ceilBlk geo file.length) ≤ fs.room) ∨
    (file.length < off ∧
      (len = 0 ∨ Yields (Traced.fsFindBlk e fs file.inode off none).result
        (fun r => r.1 = .enoent) ∧ fs.room = 0))

instance (e : Stray) (geo : Geometry) (fs : Filesystem) (file : FileInfo) (len off : ℕ) :
    Decidable (KeepsMax e geo fs file len off) := inferInstanceAs (Decidable (_ ∨ _ ∧ _ ∨ _ ∧ _))

section Law

variable {e : Stray} {geo : Geometry} {fs fs' : Filesystem} {file file' : FileInfo}
  {buf : List UInt8} {off total : ℕ} {ret : ℤ}

/-- The sizes after a write that returned, whatever the operating system has done. -/
theorem Traced.fsWriteFile_sizes (h : Mounted geo fs) (hf : FreshFile fs file)
    (hsize : file.inode.size = Int64.ofNat file.length) (hlen : file.length < 2 ^ 31)
    (he : (Traced.fsWriteFile e fs file buf off).result = .ok (ret, file', fs')) :
    ∃ s nospace, (Traced.fsWriteLoop e buf buf.length ⟨fs, file.inode, none, 0, off⟩).result =
        .ok (s, nospace) ∧ ret = toInt s.total ∧ s.total ≤ buf.length ∧
      file'.inode.size =
        Int64.ofNat (if off < file.length then s.total else s.total + file.length) ∧
      fsFindInode fs' file'.idx = .ok (some file'.inode) := by
  obtain ⟨s, nospace, hloop, hret, hfile, hsave⟩ := Traced.fsWriteFile_eq_ok he
  obtain ⟨hintact, -, hle, -⟩ := @Traced.fsWriteLoop_intact e geo _ _ _ _ _ h (Nat.zero_le _) hloop
  obtain ⟨hm', -, -, hv⟩ := fsSaveInode_spec hintact.mounted hsave
  refine ⟨s, nospace, hloop, hret, hle, ?_, ?_⟩
  · rw [hfile]
    exact writtenSize_eq hsize hlen off s.total
  · rw [show file'.idx = file.idx by rw [hfile], fsFindInode_iff hm', hv]
    refine ⟨?_, Volume.setInode_inode_same _⟩
    have hused : (volume geo s.fs).inodeUsed = (volume geo fs).inodeUsed := by
      simp only [volume, hintact.inode]
    rw [Volume.setInode_inodeUsed, hused]
    exact ((FreshFile.iff h).mp hf).1

theorem sizeLaw_iff (hlen : file.length < 2 ^ 31) (ht : off + total < 2 ^ 31)
    (hsize : file'.inode.size =
      Int64.ofNat (if off < file.length then total else total + file.length))
    (hfind : fsFindInode fs' file'.idx = .ok (some file'.inode)) :
    SizeLaw fs' file' file.length off total ↔
      (if off < file.length then total else total + file.length) =
        if total = 0 then file.length else max file.length (off + total) := by
  have hinj : ∀ a b : ℕ, a < 2 ^ 32 → b < 2 ^ 32 → (Int64.ofNat a = Int64.ofNat b ↔ a = b) := by
    intro a b ha hb
    refine ⟨fun he => ?_, fun he => he ▸ rfl⟩
    have hint := congrArg Int64.toInt he
    rwa [Int64.toInt_ofNat_of_lt (by omega), Int64.toInt_ofNat_of_lt (by omega),
      Nat.cast_inj] at hint
  unfold SizeLaw
  rw [hsize, hinj _ _ (by split_ifs <;> omega) (by split_ifs <;> omega)]
  exact ⟨fun hl => hl.1, fun he => ⟨he, _, hfind, hsize.trans (congrArg Int64.ofNat he)⟩⟩

/-- Within the documented limit a write that returns leaves the larger of the old size and its
end, or the old size if it stored nothing, exactly when `KeepsMax` holds. -/
theorem size_after_write (hformat : geo.AsFormatted) (h : ReachableMax geo fs)
    (hf : FreshFile fs file) (hmax : off + buf.length ≤ geo.maxFileSize)
    (he : (Traced.fsWriteFile e fs file buf off).result = .ok (ret, file', fs')) :
    SizeLaw fs' file' file.length off ret.toNat ↔ KeepsMax e geo fs file buf.length off := by
  obtain ⟨hm, hd⟩ := h.landing.deep hformat
  obtain ⟨hlen, hsize, hdeep⟩ := ((h.sizes hformat).fits hm hf).length
  have hlt := geo.max_lt
  have hspan := geo.max_lt_span
  have hmod : off % geo.span = off := Nat.mod_eq_of_lt (by omega)
  obtain ⟨s, nospace, hloop, hret, htotal, hnew, hfind⟩ :=
    Traced.fsWriteFile_sizes hm hf hsize (by omega) he
  have hnat : ret.toNat = s.total := by
    rw [hret, toInt_of_lt (by omega)]
    rfl
  rw [hnat, sizeLaw_iff (by omega) (by omega) hnew hfind]
  unfold KeepsMax
  rcases lt_trichotomy off file.length with hbefore | hat | hbehind
  · rw [if_pos hbefore]
    by_cases h0 : off = 0 ∧ file.length ≤ buf.length
    swap
    · split_ifs <;> omega
    obtain ⟨rfl, hcover⟩ := h0
    have hrun := ((hf.bears hm hd).underway hm buf 0).run (e := e) hformat
      (Nat.sub_le _ _)
    have hiff := hrun.reach_iff (q := file.length) rfl (by change 0 % geo.span < _; omega) hlen
      (by change _ ≤ 0 % geo.span + _; omega)
      ((le_or_gt file.length _).imp_right fun hgt => Or.inl (hdeep hgt)) hloop
    have hdemand : (volume geo fs).demand geo file.inode 0 (ceilBlk geo file.length) =
        (volume geo fs).holes geo file.inode 0 (ceilBlk geo file.length) := by
      rw [Volume.demand, if_neg, Nat.add_zero]
      rintro ⟨hi, -, hc⟩
      exact hdeep (by_contra fun hle => absurd (ceilBlk_le (not_lt.mp hle)) (by omega)) hi
    dsimp only [WriteState.num] at hiff
    rw [hmod, Nat.zero_add, Nat.zero_div, hdemand] at hiff
    split_ifs <;> omega
  · rw [if_neg (by omega)]
    split_ifs <;> omega
  · rw [if_neg (by omega)]
    by_cases hempty : buf.length = 0
    · split_ifs <;> omega
    · obtain ⟨n, hn⟩ := Nat.exists_eq_succ_of_ne_zero hempty
      rw [hn] at hloop
      have hiff := @Traced.fsWriteLoop_nothing e geo _ _ _ _ _ hm
        (by change 0 < buf.length; omega) hloop
      dsimp only at hiff
      rw [← hiff]
      split_ifs <;> omega

/-- Appending to a file with an indirect block until behind its direct blocks. -/
theorem size_after_write_sparse :
    ∃ fs ret file' fs', ReachableMax smallDisk fs ∧
      (Traced.fsWriteFile .refuse fs sparseFile (List.replicate 6656 7) 4).result =
        .ok (ret, file', fs') ∧ ret = 6656 ∧
      SizeLaw fs' file' sparseFile.length 4 ret.toNat := by
  have hrun : ∃ fs, ReachableMax smallDisk fs ∧ (FreshFile fs sparseFile ∧
      Yields (Traced.fsWriteFile .refuse fs sparseFile (List.replicate 6656 7) 4).result
        fun r => r.1 = 6656) := by
    apply exists_reachableMax sparse
    decide +kernel
  obtain ⟨fs, hreach, hfresh, ⟨ret, file', fs'⟩, he, hret⟩ := hrun
  refine ⟨fs, ret, file', fs', hreach, he, hret, ?_⟩
  refine (size_after_write (by decide) hreach hfresh ?_ he).mpr (Or.inl (by decide))
  rw [List.length_replicate]
  decide

/-- Overwriting one byte in the middle cuts the file to that length. -/
theorem overwrite_cuts_file :
    ∃ fs ret file' fs', ReachableMax smallDisk fs ∧ FreshFile fs threeBytesFile ∧
      fsWriteFile fs threeBytesFile [9] 1 = .ok (ret, file', fs') ∧
      (∀ e, (Traced.fsWriteFile e fs threeBytesFile [9] 1).result = .ok (ret, file', fs')) ∧
      ret = 1 ∧ file'.inode.size = 1 ∧ ¬ SizeLaw fs' file' threeBytesFile.length 1 ret.toNat := by
  have hrun : ∃ fs, Reachable smallDisk fs ∧ (FreshFile fs threeBytesFile ∧
      Yields (fsWriteFile fs threeBytesFile [9] 1) fun r => r.1 = 1 ∧ r.2.1.inode.size = 1) := by
    apply exists_reachable threeBytes
    decide +kernel
  obtain ⟨fs, hreach, hfresh, ⟨ret, file', fs'⟩, he, hret, hsize⟩ := hrun
  refine ⟨fs, ret, file', fs', hreach.max, hfresh, he,
    fun e => (Traced.fsWriteFile_unless fs _ _ _).eq_ok he, hret, hsize, fun hlaw => ?_⟩
  have hlaw := hlaw.1
  dsimp only at hret hsize
  rw [hsize, hret] at hlaw
  exact absurd hlaw (by decide)

end Law

end ChisaiFs
