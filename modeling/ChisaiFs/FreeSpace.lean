import ChisaiFs.Limit
import ChisaiFs.Twins

/-! Whether bytes of free space show in what the calls return. A data block is not cleared when
it is allocated, so a read can deliver what an earlier owner of the block has left there. -/

namespace ChisaiFs
open Cells Outcome Lockstep

/-- The calls that release nothing. -/
inductive Query
  | mkdir (path : CString) (mode : UInt32)
  | create (path : CString) (mode : UInt32) (file : FileInfo)
  | write (file : FileInfo) (buf : List UInt8) (off : ℕ)
  | read (file : FileInfo) (size off : ℕ)
  | metadata (path : CString)

inductive Answer
  | code (r : ChisaiError)
  | created (r : ChisaiError) (file : FileInfo)
  | wrote (n : ℤ) (file : FileInfo)
  | bytes (n : ℤ) (buf : List UInt8)
  | metadata (found : Except ChisaiError FileInfo)
  deriving DecidableEq

def Query.run (fs : Filesystem) : Query → Exec (Answer × Filesystem)
  | .mkdir path mode => (fun r => (.code r.1, r.2)) <$> fsMkdir fs path mode
  | .create path mode file =>
      (fun r => (.created r.1 r.2.1, r.2.2)) <$> fsCreateFile fs path mode file
  | .write file buf off => (fun r => (.wrote r.1 r.2.1, r.2.2)) <$> fsWriteFile fs file buf off
  | .read file size off => (fun r => (.bytes r.1 r.2, fs)) <$> fsReadFile fs file size off
  | .metadata path => (fun r => (.metadata r, fs)) <$> fsGetMetadata fs path

/-- The second state differs from the first in bytes of data blocks that are marked free. -/
structure DiffersInFree (fs fs' : Filesystem) : Prop where
  rest : fs' = { fs with d := fs'.d }
  size : fs'.d.size = fs.d.size
  bytes : ∀ p, fs'.d.bytes p ≠ fs.d.bytes p → ∃ k j, k ≠ 0 ∧
    blkgrpsDataExist fs.blkGrps k = .ok false ∧ j < fs.sb.blockSize.toNat ∧
    p = fsDataToOffset fs k + j

/-- What the kernel has checked before a call, and the range of the direct blocks. -/
def Query.Checked (fs : Filesystem) : Query → Prop
  | .mkdir path _ => PassesDirs fs (lookedUp path)
  | .create path _ _ => PassesDirs fs (lookedUp path)
  | .write file buf off => ¬ sIsdir file.inode.mode ∧
      off + buf.length ≤ directBlksNum * fs.sb.blockSize.toNat
  | .read _ size off => off + size ≤ directBlksNum * fs.sb.blockSize.toNat
  | .metadata path => PassesDirs fs (strtokSlash path)

/-- The ranges that the writes have stored, each as the handle after the write maps it. -/
def Query.note (log : List Extent) : Query → Answer → List Extent
  | .write _ _ off, .wrote n file => ⟨file.inode, off, n.toNat⟩ :: log
  | _, _ => log

/-- The block was in use at the start, or the byte has been stored since. -/
def KnownByte (fs₀ : Filesystem) (log : List Extent) (c : ChisaiSize × ℕ) : Prop :=
  blkgrpsDataExist fs₀.blkGrps c.1 = .ok true ∨ ∃ e ∈ log, e.Holds fs₀.sb.blockSize.toNat c

def Query.Covered (fs₀ : Filesystem) (log : List Extent) : Query → Prop
  | .read file size off => Extent.Covered fs₀.sb.blockSize.toNat
      ⟨file.inode, off, min size file.inode.size.toUInt64.toNat⟩ (KnownByte fs₀ log)
  | _ => True

def Query.Guard (fs₀ : Filesystem) (log : List Extent) (fs : Filesystem) (q : Query) : Prop :=
  q.Checked fs ∧ q.Covered fs₀ log

instance (fs : Filesystem) : (q : Query) → Decidable (q.Checked fs)
  | .mkdir path _ => inferInstanceAs (Decidable (PassesDirs fs (lookedUp path)))
  | .create path _ _ => inferInstanceAs (Decidable (PassesDirs fs (lookedUp path)))
  | .write file buf off => inferInstanceAs (Decidable (¬ sIsdir file.inode.mode ∧
      off + buf.length ≤ directBlksNum * fs.sb.blockSize.toNat))
  | .read _ size off => inferInstanceAs (Decidable (off + size ≤ _))
  | .metadata path => inferInstanceAs (Decidable (PassesDirs fs (strtokSlash path)))

instance (fs₀ : Filesystem) (log : List Extent) : DecidablePred (KnownByte fs₀ log) :=
  fun _ => inferInstanceAs (Decidable (_ ∨ ∃ e ∈ log, _))

instance (fs₀ : Filesystem) (log : List Extent) : (q : Query) → Decidable (q.Covered fs₀ log)
  | .mkdir _ _ => isTrue trivial
  | .create _ _ _ => isTrue trivial
  | .write _ _ _ => isTrue trivial
  | .read file size off => inferInstanceAs (Decidable (Extent.Covered fs₀.sb.blockSize.toNat
      ⟨file.inode, off, min size file.inode.size.toUInt64.toNat⟩ (KnownByte fs₀ log)))
  | .metadata _ => isTrue trivial

instance (fs₀ : Filesystem) (log : List Extent) (fs : Filesystem) (q : Query) :
    Decidable (q.Guard fs₀ log fs) := inferInstanceAs (Decidable (_ ∧ _))

section Steps

variable {geo : Geometry} {fs fs' fs₀ : Filesystem} {log : List Extent} {q : Query}

/-- The two runs agree on the known bytes and on the directories. -/
def Together (geo : Geometry) (fs₀ : Filesystem) (log : List Extent) (fs fs' : Filesystem) : Prop :=
  Twins geo ({c | KnownByte fs₀ log c} ∪ (volume geo fs).dirBytes) fs fs'

theorem KnownByte.cons {e : Extent} (hm : Mounted geo fs₀) : {c | KnownByte fs₀ (e :: log) c} =
    {c | KnownByte fs₀ log c} ∪ e.bytes geo.blkSize := by
  ext c
  change _ ∨ (∃ d ∈ e :: log, _) ↔ (_ ∨ _) ∨ e.Holds geo.blkSize c
  rw [hm.blockSize, List.exists_mem_cons_iff, or_comm (a := e.Holds _ _), or_assoc]

theorem Query.run_together (hm : Mounted geo fs₀) (h : Together geo fs₀ log fs fs')
    (hq : q.Guard fs₀ log fs) :
    Alike (fun p p' => p'.1 = p.1 ∧ Together geo fs₀ (q.note log p.1) p.2 p'.2) (q.run fs)
      (q.run fs') := by
  have hblk : fs.sb.blockSize.toNat = geo.blkSize := h.mounted.blockSize
  have hdirs : (volume geo fs).dirBytes ⊆ {c | KnownByte fs₀ log c} ∪ (volume geo fs).dirBytes :=
    Set.subset_union_right
  have hkeep : ∀ s, {c | KnownByte fs₀ log c} ∪ (volume geo s).dirBytes ⊆
      {c | KnownByte fs₀ log c} ∪ (volume geo fs).dirBytes ∪ (volume geo s).dirBytes :=
    fun s => Set.union_subset_union_left _ Set.subset_union_left
  obtain ⟨hchecked, hcovered⟩ := hq
  cases q with
  | mkdir path mode =>
    refine (Twins.fsMkdir h hdirs hchecked).map ?_
    rintro ⟨r, s⟩ ⟨r', s'⟩ ⟨hr, hs⟩
    exact ⟨congrArg Answer.code hr, hs.mono (hkeep s)⟩
  | create path mode file =>
    refine (Twins.fsCreateFile h hdirs hchecked file).map ?_
    rintro ⟨r, made, s⟩ ⟨r', made', s'⟩ ⟨hr, hs⟩
    obtain ⟨rfl, rfl⟩ := Prod.mk.inj hr
    exact ⟨rfl, hs.mono (hkeep s)⟩
  | write file buf off =>
    obtain ⟨hmode, hrange⟩ := hchecked
    rw [hblk] at hrange
    have hwrite := Twins.fsWriteFile h file hrange
    refine (hwrite.mono ?_).map fun p p' hp => hp
    rintro ⟨n, made, s⟩ ⟨n', made', s'⟩ he - ⟨hr, hs⟩
    obtain ⟨rfl, rfl⟩ := Prod.mk.inj hr
    refine ⟨rfl, hs.mono ?_⟩
    have hsub := fsWriteFile_dirBytes h.mounted hrange hmode he
    change {c | KnownByte fs₀ (_ :: log) c} ∪ _ ⊆ _
    rw [KnownByte.cons hm]
    rintro c ((hc | hc) | hc)
    · exact Or.inl (Or.inl hc)
    · exact Or.inr hc
    · exact Or.inl (Or.inr (hsub hc))
  | read file size off =>
    have hread : fsReadFile fs' file size off = fsReadFile fs file size off := by
      refine Twins.fsReadFile_eq h (hblk ▸ hchecked) fun d hd hmapped => Or.inl ?_
      have hbyte := hcovered d hd
      rw [hm.blockSize] at hbyte
      exact hbyte hmapped
    refine Alike.map (Alike.of_eq (R := Eq) hread fun _ _ => rfl) fun r r' hr => ?_
    exact ⟨by rw [hr], h⟩
  | metadata path =>
    have hfound := Twins.fsGetMetadata_eq h hdirs hchecked
    refine Alike.map (Alike.of_eq (R := Eq) hfound fun _ _ => rfl) fun r r' hr => ?_
    exact ⟨by rw [hr], h⟩

theorem DiffersInFree.together (hm : Mounted geo fs) (hw : (volume geo fs).Wellformed)
    (h : DiffersInFree fs fs') : Together geo fs [] fs fs' := by
  have hslot : ∀ (i : ChisaiSize), ∀ d < inodeCodec.width,
      fs'.d.bytes (geo.slotOff (i - 1).toNat + d) = fs.d.bytes (geo.slotOff (i - 1).toNat + d) := by
    intro i d hd
    by_contra hne
    obtain ⟨k, j, -, -, hj, hp⟩ := h.bytes _ hne
    rw [fsDataToOffset_eq hm] at hp
    rw [hm.blockSize] at hj
    have hdis := geo.slot_blk_disjoint (i - 1).toNat (k - 1).toNat
    have hwidth := inodeCodec_width
    omega
  have hused : ∀ k ∈ (volume geo fs).dataUsed, ∀ j,
      (volume geo fs').block k j = (volume geo fs).block k j := by
    intro k hk j
    simp only [volume]
    split_ifs with hj
    · by_contra hne
      obtain ⟨l, m, -, hfree, hm', hp⟩ := h.bytes _ hne
      rw [fsDataToOffset_eq hm] at hp
      rw [hm.blockSize] at hm'
      obtain ⟨rfl, -⟩ := geo.blk_inj hj hm' hp
      rw [blkgrpsDataExist_of_used hm hk] at hfree
      cases hfree
    · rfl
  refine ⟨hm, h.rest, h.size, ?_, ?_⟩
  · funext i
    exact congrArg inodeCodec.dec (slice_congr fun d hd => hslot i d hd)
  · rintro ⟨k, j⟩ (hc | ⟨i, hi, h0, rfl, -⟩)
    · obtain hused' | ⟨e, he, -⟩ := hc
      · exact hused k ((blkgrpsDataExist_eq_ok hm hused').mp rfl) j
      · exact absurd he List.not_mem_nil
    · exact hused _ (hw.marked (i, 0) _ ⟨hi.1, rfl, h0⟩) j

/-- From two states that differ in free space only, calls whose reads deliver known bytes answer
alike, one after the other. -/
theorem free_space_unseen (h : Reachable geo fs) (hd : DiffersInFree fs fs') {qs : List Query}
    (hq : Guarded Query.run (Query.Guard fs) Query.note [] fs qs) :
    outputs Query.run fs' qs = outputs Query.run fs qs := by
  obtain ⟨hm, hw⟩ := h.wellformed
  exact outputs_eq (R := Together geo fs) (fun log s s' q hs hg => q.run_together hm hs hg)
    (hd.together hm hw) hq

end Steps

/-- The state with one byte of a data block set to zero. -/
def zeroByte (fs : Filesystem) (k : ChisaiSize) (j : ℕ) : Filesystem :=
  { fs with d := { fs.d with bytes := Function.update fs.d.bytes (fsDataToOffset fs k + j) 0 } }

theorem zeroByte_differsInFree {fs : Filesystem} {k : ChisaiSize} {j : ℕ} (hk : k ≠ 0)
    (hfree : blkgrpsDataExist fs.blkGrps k = .ok false) (hj : j < fs.sb.blockSize.toNat) :
    DiffersInFree fs (zeroByte fs k j) where
  rest := rfl
  size := rfl
  bytes p hp := by
    have he : p = fsDataToOffset fs k + j := by
      by_contra hne
      exact hp (Function.update_of_ne hne ..)
    exact ⟨k, j, hk, hfree, hj, he⟩

/-- The file `/b` with the byte 7 in block 2 is gone, and there is an empty file `/c`, inode 4. -/
def removedFile : List Op :=
  [.create [47, 98] 0o100644, .write (newFile 0o100644 3) [7] 0, .remove [47, 98],
    .create [47, 99] 0o100644]

/-- The handle of `/c` with one byte at offset 5, in block 3. -/
def oneBlock : FileInfo := ⟨inodeSetSize ((newFile 0o100644 4).inode.setBlk 0 3) 1, 4⟩

/-- The handle of `/c` after one more byte at offset 517, in block 2. -/
def twoBlocks : FileInfo := ⟨inodeSetSize (oneBlock.inode.setBlk 1 2) 2, 4⟩

/-- The two writes, and a read of one byte at the offset. -/
def writesAndRead (off : ℕ) : List Query :=
  [.write (newFile 0o100644 4) [1] 5, .write oneBlock [1] 517, .read twoBlocks 1 off]

/-- Reading what has been stored. -/
theorem free_space_unseen_removedFile :
    ∃ fs, Reachable smallDisk fs ∧ DiffersInFree fs (zeroByte fs 2 0) ∧
      outputs Query.run (zeroByte fs 2 0) (writesAndRead 517) =
        outputs Query.run fs (writesAndRead 517) := by
  have hrun : ∃ fs, Reachable smallDisk fs ∧ (blkgrpsDataExist fs.blkGrps 2 = .ok false ∧
      0 < fs.sb.blockSize.toNat ∧
      Guarded Query.run (Query.Guard fs) Query.note [] fs (writesAndRead 517)) := by
    apply exists_reachable removedFile
    decide +kernel
  obtain ⟨fs, h, hfree, hpos, hq⟩ := hrun
  have hd := zeroByte_differsInFree (by decide) hfree hpos
  exact ⟨fs, h, hd, free_space_unseen h hd hq⟩

/-- In front of what has been stored, the new file shows the byte of the removed one. -/
theorem removed_byte_shows :
    ∃ fs, Reachable smallDisk fs ∧ FreshFile fs (newFile 0o100644 4) ∧
      DiffersInFree fs (zeroByte fs 2 0) ∧
      Guarded Query.run (fun _ => Query.Checked) Query.note [] fs (writesAndRead 512) ∧
      outputs Query.run fs (writesAndRead 512) =
        [.ok (.wrote 1 oneBlock), .ok (.wrote 1 twoBlocks), .ok (.bytes 1 [7])] ∧
      outputs Query.run (zeroByte fs 2 0) (writesAndRead 512) ≠
        outputs Query.run fs (writesAndRead 512) := by
  have hrun : ∃ fs, Reachable smallDisk fs ∧ (FreshFile fs (newFile 0o100644 4) ∧
      blkgrpsDataExist fs.blkGrps 2 = .ok false ∧ 0 < fs.sb.blockSize.toNat ∧
      Guarded Query.run (fun _ => Query.Checked) Query.note [] fs (writesAndRead 512) ∧
      outputs Query.run fs (writesAndRead 512) =
        [.ok (.wrote 1 oneBlock), .ok (.wrote 1 twoBlocks), .ok (.bytes 1 [7])] ∧
      outputs Query.run (zeroByte fs 2 0) (writesAndRead 512) ≠
        outputs Query.run fs (writesAndRead 512)) := by
    apply exists_reachable removedFile
    decide +kernel
  obtain ⟨fs, h, hfresh, hfree, hpos, hchecked, hout, hne⟩ := hrun
  exact ⟨fs, h, hfresh, zeroByte_differsInFree (by decide) hfree hpos, hchecked, hout, hne⟩

end ChisaiFs
