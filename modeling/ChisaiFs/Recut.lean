import ChisaiFs.Service
import ChisaiFs.Truncation

/-! A truncation stores a block count that reaches one block too far, and the next truncation
goes through the blocks from there. Until the file is written to, no further truncation of it
returns. -/

namespace ChisaiFs
open Outcome Simulation

structure Inode.Spent (x : Inode) (n : ℕ) : Prop where
  size : x.size.toInt = n
  blkcnt : x.blkcnt.toInt = n / 512 + 1
  last : x.blk (n / 512) = 0

/-- The stored count is that of the size, or there are no blocks. -/
def Inode.Counts (x : Inode) : Prop := x.blkcnt = x.size / 512 + 1 ∨ ∀ n, x.blk n = 0

def Op.Passes (fs : Filesystem) (i : ChisaiSize) : Op → Prop
  | .write file _ _ => file.idx ≠ i
  | .remove path => Ensures (fsNamedInode fs path) fun r => Ensures r fun named => named ≠ i
  | _ => True

instance Op.decidablePasses (fs : Filesystem) (i : ChisaiSize) :
    (op : Op) → Decidable (op.Passes fs i)
  | .write file _ _ => inferInstanceAs (Decidable (file.idx ≠ i))
  | .remove path => inferInstanceAs (Decidable (Ensures (fsNamedInode fs path) fun r =>
      Ensures r fun named => named ≠ i))
  | .mkdir .. | .create .. | .truncate .. | .rename .. => isTrue trivial

section Inodes

variable {geo : Geometry} {fs fs' : Filesystem} {file file' : FileInfo} {x : Inode} {n size : ℕ}
  {r : ChisaiError} {i : ChisaiSize} {op : Op}

theorem toInt_blkcnt {a : Int64} (h : 0 ≤ a.toInt) : (a / 512 + 1).toInt = a.toInt / 512 + 1 := by
  have hlt := a.toInt_lt
  have hdiv : (a / 512).toInt = a.toInt / 512 := by
    rw [Int64.toInt_div_of_ne_right _ _ (by decide), show (512 : Int64).toInt = 512 from rfl,
      Int.tdiv_eq_ediv_of_nonneg h]
  rw [Int64.toInt_add, hdiv, show (1 : Int64).toInt = 1 from rfl]
  apply Int.bmod_eq_of_le <;> omega

theorem fsTruncateFile_spends (hm : Mounted geo fs) (hc : file.inode.Counts)
    (he : fsTruncateFile fs file n = .ok (r, file', fs')) : file'.inode.Spent n := by
  obtain ⟨hle, -, fs₁, x, hrel, rfl, -, -⟩ := fsTruncateFile_released hm he
  have hlt := file.inode.size.toInt_lt
  have hsize : (Int64.ofNat n).toInt = n := Int64.toInt_ofNat_of_lt (by omega)
  refine ⟨hsize, ?_, ?_⟩
  · change (Int64.ofNat n / 512 + 1).toInt = _
    rw [toInt_blkcnt (by omega), hsize]
  · change x.blk (n / 512) = 0
    rw [hrel.blk]
    split_ifs with hin
    · rfl
    rcases hc with hcount | hnone
    · have hfrom : n / geo.blkSize ≤ n / 512 := Nat.div_le_div_left geo.min_size (by decide)
      refine absurd ⟨hfrom, ?_⟩ hin
      unfold trctCount trctFrom
      rw [hcount, toInt_blkcnt (by omega)]
      omega
    · exact hnone _

theorem Inode.Spent.stuck (hx : file.inode.Spent n) (hm : Mounted geo fs) (size : ℕ) :
    ¬ ∃ b, fsTruncateFile fs file size = .ok b := by
  rintro ⟨⟨r, file', fs'⟩, he⟩
  obtain ⟨hle, -, fs₁, y, hrel, -⟩ := fsTruncateFile_released hm he
  have hsize := hx.size
  have hfrom : size / geo.blkSize ≤ n / 512 :=
    (Nat.div_le_div_right (by omega)).trans (Nat.div_le_div_left geo.min_size (by decide))
  have hcount : n / 512 - trctFrom geo size < trctCount geo file.inode size := by
    unfold trctCount trctFrom
    rw [hx.blkcnt]
    omega
  have hmapped := hrel.mapped _ hcount
  unfold trctFrom at hmapped
  rw [Nat.add_sub_cancel' hfrom] at hmapped
  exact hmapped hx.last

theorem Op.Passes.spares (hp : op.Passes fs i) (hm : Mounted geo fs) (hl : op.Lawful fs)
    (hi : i ∈ (volume geo fs).inodeUsed) (hx : ((volume geo fs).inode i).Spent n)
    (hs : op.step fs = .ok fs') : Spared geo fs fs' i := by
  cases op with
  | mkdir path mode =>
    obtain ⟨⟨r, _⟩, he, rfl⟩ := map_eq_ok.mp hs
    exact fsMkdir_spares hm hi he
  | create path mode =>
    obtain ⟨⟨r, file, _⟩, he, rfl⟩ := map_eq_ok.mp hs
    exact fsCreateFile_spares hm hi he
  | write file buf off =>
    obtain ⟨⟨ret, file', _⟩, he, rfl⟩ := map_eq_ok.mp hs
    obtain ⟨-, hidx, hu, hinode⟩ := fsWriteFile_inodes hm he
    have hne : i ≠ file'.idx := fun hc => hp (hidx.symm.trans hc.symm)
    rw [Spared, hu, hinode]
    exact ⟨hi, Function.update_of_ne hne ..⟩
  | truncate file size =>
    obtain ⟨⟨r, file', _⟩, he, rfl⟩ := map_eq_ok.mp hs
    by_cases hne : i = file.idx
    · -- This truncation would have to return.
      obtain ⟨-, hinode, -⟩ := (FreshFile.iff hm).mp hl
      rw [hne, hinode] at hx
      exact absurd ⟨_, he⟩ (hx.stuck hm size)
    · obtain ⟨-, -, v, x, hsteps, rfl, hv⟩ := fsTruncateFile_eq_ok hm he
      obtain ⟨hinode, hu⟩ := shrink_inodes hsteps
      rw [Spared, hv, Volume.setInode_inodeUsed, Volume.setInode_inode_of_ne _ hne]
      exact ⟨hu ▸ hi, congrFun hinode i⟩
  | rename src dst =>
    obtain ⟨⟨r, _⟩, he, rfl⟩ := map_eq_ok.mp hs
    exact fsRenameFile_spares hm hi he
  | remove path =>
    obtain ⟨⟨r, _⟩, he, rfl⟩ := map_eq_ok.mp hs
    exact fsRemoveFile_spares hm hi hp he

end Inodes

section Runs

variable {geo : Geometry} {fs fs₁ fs' : Filesystem} {file file' again : FileInfo} {n : ℕ}
  {r : ChisaiError}

theorem Reachable.counts (h : Reachable geo fs) : Mounted geo fs ∧
    ∀ i ∈ (volume geo fs).inodeUsed, sIsreg ((volume geo fs).inode i).mode →
      ((volume geo fs).inode i).Counts := by
  obtain ⟨fs₀, hmount, hrun⟩ := h
  suffices hinv : (Mounted geo fs ∧ (volume geo fs).Wellformed) ∧
      ∀ i ∈ (volume geo fs).inodeUsed, sIsreg ((volume geo fs).inode i).mode →
        ((volume geo fs).inode i).Counts from ⟨hinv.1.1, hinv.2⟩
  refine hrun.invariant (fun s => (Mounted geo s ∧ (volume geo s).Wellformed) ∧
    ∀ i ∈ (volume geo s).inodeUsed, sIsreg ((volume geo s).inode i).mode →
      ((volume geo s).inode i).Counts) ?_
    ⟨⟨(freshMount_spec hmount).1, (freshMount_spec hmount).2.2⟩,
      fun i hi hreg => absurd hreg (freshMount_not_regular hmount hi)⟩
  rintro s op t ⟨⟨hm, hw⟩, hc⟩ hl hs
  refine ⟨Op.step_wellformed hm hw hl hs, fun i hi hreg => ?_⟩
  cases Op.step_leaves hm hs hi hreg with
  | same hu hx =>
    rw [hx] at hreg ⊢
    exact hc i hu hreg
  | new hx =>
    rw [hx]
    exact Or.inr inodeInit_blk
  | wrote he hx =>
    obtain ⟨s', nospace, -, -, hfile, -⟩ := fsWriteFile_eq_ok he
    rw [hx, hfile]
    exact Or.inl rfl
  | cut he hx =>
    obtain ⟨-, -, v, x, -, hfile, -⟩ := fsTruncateFile_eq_ok hm he
    rw [hx, hfile]
    exact Or.inl rfl

/-- A file that has been truncated cannot be truncated again before it is written to: the code
fails, for every new size and after any number of other operations. -/
theorem truncate_only_once (h : Reachable geo fs) (hf : FreshFile fs file)
    (he : fsTruncateFile fs file n = .ok (r, file', fs₁))
    (hrun : Reaches Op.step (fun s op => op.Lawful s ∧ op.Passes s file.idx) fs₁ fs')
    (hagain : FreshFile fs' again) (hidx : again.idx = file.idx) (size : ℕ) :
    ¬ ∃ b, fsTruncateFile fs' again size = .ok b := by
  obtain ⟨hm, hc⟩ := h.counts
  obtain ⟨hu, hinode, hreg⟩ := (FreshFile.iff hm).mp hf
  have hspent := fsTruncateFile_spends hm (hinode ▸ hc file.idx hu (hinode ▸ hreg)) he
  obtain ⟨hm₁, -, v, x, hsteps, hfile, hv⟩ := fsTruncateFile_eq_ok hm he
  have hinv := hrun.invariant (fun s => (Mounted geo s ∧ (volume geo s).Wellformed) ∧
    file.idx ∈ (volume geo s).inodeUsed ∧ ((volume geo s).inode file.idx).Spent n) ?_ ⟨?_, ?_, ?_⟩
  · obtain ⟨⟨hm', -⟩, -, hx⟩ := hinv
    obtain ⟨-, hinode', -⟩ := (FreshFile.iff hm').mp hagain
    rw [← hidx, hinode'] at hx
    exact hx.stuck hm' size
  · rintro s op t ⟨⟨hm, hw⟩, hi, hx⟩ ⟨hl, hp⟩ hs
    obtain ⟨hi', hsame⟩ := hp.spares hm hl hi hx hs
    exact ⟨Op.step_wellformed hm hw hl hs, hi', hsame ▸ hx⟩
  · exact fsTruncateFile_wellformed hm h.wellformed.2 hf he
  · rw [hv, Volume.setInode_inodeUsed, (shrink_inodes hsteps).2]
    exact hu
  · rw [hv, Volume.setInode_inode_same]
    exact hspent

/-- The file of `threeBytes` is cut to nothing and a directory is made. -/
theorem truncate_only_once_threeBytes :
    ∃ fs again, Reachable smallDisk fs ∧ FreshFile fs again ∧ again.idx = threeBytesFile.idx ∧
      ∀ size, ¬ ∃ b, fsTruncateFile fs again size = .ok b := by
  have hrun : ∃ fs, Reachable smallDisk fs ∧ FreshFile fs threeBytesFile ∧
      Yields (fsTruncateFile fs threeBytesFile 0) fun cut =>
        ((runAllowed Op.step (fun s op => op.Lawful s ∧ op.Passes s threeBytesFile.idx) cut.2.2
          [.mkdir [47, 100] 0o755]).any fun s => decide (FreshFile s cut.2.1)) = true := by
    apply exists_reachable threeBytes
    decide +kernel
  obtain ⟨fs, hreach, hf, ⟨r, file', fs₁⟩, he, hrest⟩ := hrun
  obtain ⟨fs', hrest, hagain⟩ := (Option.any_eq_true _ _).mp hrest
  have hlater := reaches_of_runAllowed .refl hrest
  have hreach' : Reachable smallDisk fs' := by
    obtain ⟨fs₀, hmount, hrun⟩ := hreach
    have hcut := hrun.tail (Op.truncate threeBytesFile 0) hf (map_eq_ok.mpr ⟨_, he, rfl⟩)
    exact ⟨fs₀, hmount, hcut.trans (hlater.mono fun _ _ h => h.1)⟩
  obtain ⟨-, -, v, x, -, hfile, -⟩ := fsTruncateFile_eq_ok hreach.wellformed.1 he
  exact ⟨fs', file', hreach', of_decide_eq_true hagain, by rw [hfile],
    fun size => truncate_only_once hreach hf he hlater (of_decide_eq_true hagain)
      (by rw [hfile]) size⟩

end Runs

end ChisaiFs
