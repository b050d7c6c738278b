import ChisaiFs.Effects

/-! Blocks that are marked and that no inode maps directly. The operations neither give them out
nor store in them. -/

namespace ChisaiFs
open Outcome Ownership

namespace Volume

def leaked (v : Volume) : Set ChisaiSize := stray v.dataUsed v.Owns

section Blocks

variable {v w : Volume} {i k : ChisaiSize} {x : Inode}

theorem leaked_of_same (hu : w.dataUsed = v.dataUsed) (ho : ∀ a k, w.Owns a k → v.Owns a k) :
    v.leaked ⊆ w.leaked :=
  stray_subset (fun _ hk hn => absurd (hu ▸ hk) hn) fun a k ha => Or.inl ⟨a, ho a k ha⟩

theorem leaked_subset (hu : v.dataUsed ⊆ w.dataUsed)
    (hi : ∀ j, j ≠ i → (j ∈ w.inodeUsed → j ∈ v.inodeUsed) ∧ w.inode j = v.inode j)
    (hx : ∀ n, w.Owns (i, n) k → (∃ a, v.Owns a k) ∨ k ∉ v.dataUsed) (hk : k ∈ v.leaked) :
    k ∈ w.leaked := by
  refine ⟨hu hk.1, ?_⟩
  rintro ⟨j, n⟩ ha
  by_cases hj : j = i
  · subst hj
    rcases hx n ha with ⟨a, ha⟩ | hn
    · exact hk.2 a ha
    · exact hn hk.1
  · obtain ⟨hused, hinode⟩ := hi j hj
    exact hk.2 (j, n) ⟨hused ha.1, hinode ▸ ha.2.1, ha.2.2⟩

theorem Carries.leaked_map {n : ℕ} (h : Carries i v x) (hn : n < directBlksNum)
    (hk : k ∉ v.dataUsed) :
    (v.setInode i x).leaked ⊆ ((v.useData k).setInode i (x.setBlk n k)).leaked := by
  intro m hm
  refine leaked_subset (v := v.setInode i x) (i := i) (Set.subset_insert k _)
    (fun j hj => ⟨id, ?_⟩) ?_ hm
  · rw [setInode_inode_of_ne x hj]
    exact setInode_inode_of_ne _ hj
  · rintro l ⟨-, hblk, hm0⟩
    rw [setInode_inode_same] at hblk
    by_cases hc : l = n
    · rw [hc, Inode.blk_setBlk_same hn] at hblk
      exact Or.inr (hblk ▸ hk)
    · rw [Inode.blk_setBlk_of_ne hc] at hblk
      exact Or.inl ⟨(i, l), h.2.1, by rw [setInode_inode_same, hblk], hm0⟩

theorem Carries.leaked_step {geo : Geometry} {buf : List UInt8} {start : ℕ} {c c' : Cursor}
    (h : Carries i c.vol c.inode) (hs : Cursor.Step geo buf start c c') :
    (c.vol.setInode i c.inode).leaked ⊆ (c'.vol.setInode i c'.inode).leaked := by
  cases hs with
  | overwrite => exact fun _ hk => hk
  | extend hlt hn h0 hr hk => exact h.leaked_map hn hk

theorem Carries.leaked_shrink {c c' : Volume × Inode} (h : Carries i c.1 c.2) (hs : Shrink c c') :
    (c.1.setInode i c.2).leaked ⊆ (c'.1.setInode i c'.2).leaked := by
  obtain ⟨-, hi, -⟩ := h
  cases hs with
  | @drop v x n hk =>
    have hsame := setInode_inode_same (v := v) (i := i) x
    refine stray_subset (fun m hm hn => ?_) ?_
    · have he : m = x.blk n := not_not.mp fun hne => hn ⟨hm, hne⟩
      exact ⟨(i, n), hi, by rw [hsame, he], he ▸ hk⟩
    · rintro ⟨j, l⟩ m ⟨hj, hm, h0⟩
      refine Or.inl ⟨(j, l), hj, ?_, h0⟩
      by_cases he : j = i
      · subst he
        rw [setInode_inode_same] at hm ⊢
        by_cases hl : l = n
        · rw [hl, Inode.blk_setBlk_same (Inode.lt_of_blk_ne hk)] at hm
          exact absurd hm.symm h0
        · rwa [Inode.blk_setBlk_of_ne hl] at hm
      · rwa [setInode_inode_of_ne _ he] at hm ⊢

theorem leaked_store (size : Int64) :
    (v.setInode i x).leaked ⊆ (v.setInode i (inodeSetSize x size)).leaked := by
  refine leaked_of_same rfl ?_
  rintro ⟨j, n⟩ k ⟨hj, hk, h0⟩
  refine ⟨hj, ?_, h0⟩
  by_cases he : j = i
  · subst he
    rw [setInode_inode_same] at hk ⊢
    exact hk
  · rwa [setInode_inode_of_ne _ he] at hk ⊢

end Blocks

end Volume

section Operations

variable {geo : Geometry} {fs fs' : Filesystem} {path src dst : CString} {mode : UInt32}
  {r : ChisaiError}

theorem FreshFile.leaked_write (hm : Mounted geo fs) (hw : (volume geo fs).Wellformed)
    {file file' : FileInfo} {buf : List UInt8} {off : ℕ} {ret : ℤ} (hf : FreshFile fs file)
    (hc : off % geo.span + buf.length ≤ directBlksNum * geo.blkSize)
    (he : fsWriteFile fs file buf off = .ok (ret, file', fs')) :
    (volume geo fs).leaked ⊆ (volume geo fs').leaked := by
  obtain ⟨-, c, hsteps, -, -, -, rfl, hv⟩ := fsWriteFile_confined hm rfl hc he
  have hinode : (volume geo fs).setInode file.idx file.inode = volume geo fs := by
    rw [← ((FreshFile.iff hm).mp hf).2.1]
    exact Volume.setInode_self
  have hrun : Volume.Carries file.idx c.vol c.inode ∧
      (volume geo fs).leaked ⊆ (c.vol.setInode file.idx c.inode).leaked := by
    clear hv he
    induction hsteps with
    | refl => exact ⟨hf.carries hm hw, by rw [hinode]⟩
    | tail _ hs ih => exact ⟨ih.1.step hs, ih.2.trans (ih.1.leaked_step hs)⟩
  rw [hv]
  exact hrun.2.trans (Volume.leaked_store _)

theorem FreshFile.leaked_truncate (hm : Mounted geo fs) (hw : (volume geo fs).Wellformed)
    {file file' : FileInfo} {size : ℕ} (hf : FreshFile fs file)
    (he : fsTruncateFile fs file size = .ok (r, file', fs')) :
    (volume geo fs).leaked ⊆ (volume geo fs').leaked := by
  obtain ⟨-, -, v, inode, hsteps, rfl, hv⟩ := fsTruncateFile_eq_ok hm he
  have hinode : (volume geo fs).setInode file.idx file.inode = volume geo fs := by
    rw [← ((FreshFile.iff hm).mp hf).2.1]
    exact Volume.setInode_self
  have hrun : ∀ c, Relation.ReflTransGen Shrink (volume geo fs, file.inode) c →
      Volume.Carries file.idx c.1 c.2 ∧
        (volume geo fs).leaked ⊆ (c.1.setInode file.idx c.2).leaked := by
    intro c hc
    induction hc with
    | refl => exact ⟨hf.carries hm hw, by rw [hinode]⟩
    | tail _ hs ih => exact ⟨ih.1.shrink hs, ih.2.trans (ih.1.leaked_shrink hs)⟩
  rw [hv]
  exact (hrun _ hsteps).2.trans (Volume.leaked_store _)

theorem Op.step_leaked (hm : Mounted geo fs) (hw : (volume geo fs).Wellformed) {op : Op}
    (hl : op.Lawful fs) (hs : op.step fs = .ok fs') :
    (volume geo fs).leaked ⊆ (volume geo fs').leaked := by
  cases op.did hm hs with
  | nothing hv => rw [hv]
  | marked _ hv =>
    rw [hv]
    exact stray_subset (fun m hm' hn => absurd (Set.mem_insert_of_mem _ hm') hn)
      fun a m ha => Or.inl ⟨a, ha⟩
  | @made _ _ _ _ k i _ _ _ hk _ hv =>
    rw [hv]
    intro m hm'
    refine Volume.leaked_subset (i := i) (Set.subset_insert k _) (fun j hj => ⟨?_, ?_⟩) ?_ hm'
    · exact fun hu => hu.resolve_left hj
    · rw [Volume.setDir_inode, Volume.setInode_inode_of_ne _ hj]
      rfl
    · rintro n ⟨-, hblk, h0⟩
      rw [Volume.setDir_inode, Volume.setInode_inode_same, newDirInode_blk] at hblk
      split_ifs at hblk
      · exact Or.inr (hblk ▸ hk)
      · exact absurd hblk.symm h0
  | @created _ _ _ _ i _ _ _ hv =>
    rw [hv]
    intro m hm'
    refine Volume.leaked_subset (v := volume geo fs) (i := i) subset_rfl
      (fun j hj => ⟨?_, ?_⟩) ?_ hm'
    · exact fun hu => hu.resolve_left hj
    · exact Volume.setInode_inode_of_ne _ hj
    · rintro n ⟨-, hblk, h0⟩
      rw [Volume.setInode_inode_same] at hblk
      exact absurd (hblk.symm.trans (inodeInit_blk n)) h0
  | @wrote file file' buf off ret he =>
    have hrange := hl.2
    have hmod := Nat.mod_le off geo.span
    rw [hm.blockSize] at hrange
    exact hl.1.leaked_write hm hw ((Nat.add_le_add_right hmod _).trans hrange) he
  | cut he => exact FreshFile.leaked_truncate hm hw hl he
  | unlinked _ hv | moved _ _ hv =>
    rw [hv]
    exact Volume.leaked_of_same rfl fun _ _ ha => ha
  | @removed _ _ _ i _ _ hi hv =>
    rw [hv]
    refine stray_subset (fun m hm' hn => ?_) fun a m ha => Or.inl ⟨a, ha.1.1, ha.2⟩
    -- The first block is released, and the removed inode had it.
    have hblk : m = ((volume geo fs).inode i).directBlks[0] :=
      not_not.mp fun hne => hn ⟨hm', hne⟩
    exact ⟨(i, 0), hi, hblk.symm, (hm.dataUsed_inRange hm').1⟩

theorem shrink_block {c c' : Volume × Inode} (hs : Relation.ReflTransGen Shrink c c') :
    c'.1.block = c.1.block := by
  induction hs with
  | refl => rfl
  | tail _ hs ih =>
    cases hs with
    | drop hk => exact ih

theorem shrink_indirectBlk {c c' : Volume × Inode} (hs : Relation.ReflTransGen Shrink c c') :
    c'.2.indirectBlk = c.2.indirectBlk := by
  induction hs with
  | refl => rfl
  | tail _ hs ih =>
    cases hs with
    | drop hk => exact (Inode.setBlk_indirectBlk _ _ _).trans ih

theorem Parent.At.owns {v : Volume} {parent : Parent} {p : ChisaiSize} (h : parent.At v p)
    (h0 : parent.inode.directBlks[0] ≠ 0) : v.Owns (p, 0) parent.inode.directBlks[0] :=
  ⟨h.used, by rw [h.inode]; rfl, h0⟩

/-- Nothing but a write stores in a block that no inode maps directly. -/
theorem Op.step_block (hm : Mounted geo fs) {op : Op} (hw : ∀ file buf off, op ≠ .write file buf off)
    (hs : op.step fs = .ok fs') {k : ChisaiSize} (hk : k ∈ (volume geo fs).leaked) :
    (volume geo fs').block k = (volume geo fs).block k := by
  have hne : ∀ {m : ChisaiSize}, m ∉ (volume geo fs).dataUsed → k ≠ m :=
    fun hm => ne_of_mem_of_not_mem hk.1 hm
  have hparent : ∀ {parent : Parent} {p : ChisaiSize}, parent.At (volume geo fs) p →
      k ≠ parent.inode.directBlks[0] := by
    rintro parent p hat rfl
    exact hk.2 _ (hat.owns (hm.dataUsed_inRange hat.marked).1)
  cases op.did hm hs with
  | nothing hv => rw [hv]
  | marked _ hv =>
    rw [hv]
    rfl
  | made hat _ hn _ hv =>
    rw [hv, Volume.setDir_block_of_ne _ (hne hn), Volume.setInode_block,
      Volume.setDir_block_of_ne _ (hparent hat)]
    rfl
  | created hat _ hv =>
    rw [hv, Volume.setInode_block, Volume.setDir_block_of_ne _ (hparent hat)]
    rfl
  | wrote => exact absurd rfl (hw _ _ _)
  | cut _ hsteps _ hv =>
    rw [hv, Volume.setInode_block]
    exact congrFun (shrink_block hsteps) k
  | unlinked hat hv => rw [hv, Volume.setDir_block_of_ne _ (hparent hat)]
  | @moved _ _ _ target _ _ _ _ hat hat' hv =>
    have hto : k ≠ target.inode.directBlks[0] := by
      rintro rfl
      exact hk.2 _ (hat'.owns (hm.dataUsed_inRange hat'.marked).1)
    rw [hv, Volume.setDir_block_of_ne _ hto, Volume.setDir_block_of_ne _ (hparent hat)]
  | removed hat _ hv =>
    rw [hv, Volume.setDir_block_of_ne _ (hparent hat)]
    rfl

end Operations

end ChisaiFs
