import ChisaiFs.Mounting

/-! The map from block numbers to blocks, of which the first 12 are in the inode and the rest
in the entries of the indirect block. An allocation changes it at its own number only. -/

namespace ChisaiFs
open Outcome Words

/-- The block numbers that an inode with an indirect block can map. -/
def blkLimit (fs : Filesystem) : ℕ := directBlksNum + fs.sb.blockSize.toNat / 4

def lookupOf (k : ChisaiSize) : ChisaiError × Option ChisaiSize :=
  (if k = 0 then .enoent else .ok, some k)

def loadEntry (fs : Filesystem) (k : ChisaiSize) (e : ℕ) : Exec (List UInt8) :=
  deviceDataLoad fs.d (e * 4 + fsDataToOffset fs k) 4

def findAt (fs : Filesystem) (inode : Inode) (n : ℕ) : Exec (ChisaiError × Option ChisaiSize) :=
  if n < directBlksNum then .ok (lookupOf (inode.blk n))
  else do
    let buf ← loadEntry fs inode.indirectBlk (n - directBlksNum)
    return lookupOf (u32.dec buf)

section Numbers

variable {fs : Filesystem} {off : ℕ}

theorem perBlock_toNat (fs : Filesystem) : (fs.sb.blockSize / 4).toNat = fs.sb.blockSize.toNat / 4 := by
  rw [UInt32.toNat_div]
  rfl

theorem blkNum_toNat (h : off / fs.sb.blockSize.toNat < blkLimit fs) :
    (UInt32.ofNat (off / fs.sb.blockSize.toNat)).toNat = off / fs.sb.blockSize.toNat := by
  have hlt := fs.sb.blockSize.toNat_lt
  change _ < 12 + fs.sb.blockSize.toNat / 4 at h
  rw [UInt32.toNat_ofNat', Nat.mod_eq_of_lt (by omega)]

theorem blkNum_lt (h : off / fs.sb.blockSize.toNat < blkLimit fs) :
    UInt32.ofNat (off / fs.sb.blockSize.toNat) <
      UInt32.ofNat directBlksNum + fs.sb.blockSize / 4 := by
  have hlt := fs.sb.blockSize.toNat_lt
  have hd : (UInt32.ofNat directBlksNum).toNat = 12 := rfl
  change _ < 12 + fs.sb.blockSize.toNat / 4 at h
  rw [UInt32.lt_iff_toNat_lt, UInt32.toNat_add, hd, perBlock_toNat, blkNum_toNat h,
    Nat.mod_eq_of_lt (by omega)]
  exact h

theorem indirOff_toNat (h : off / fs.sb.blockSize.toNat < blkLimit fs)
    (hn : ¬ off / fs.sb.blockSize.toNat < directBlksNum) :
    (UInt32.ofNat (off / fs.sb.blockSize.toNat) - UInt32.ofNat directBlksNum).toNat =
      off / fs.sb.blockSize.toNat - directBlksNum := by
  have hd : (UInt32.ofNat directBlksNum).toNat = directBlksNum := rfl
  have hle : UInt32.ofNat directBlksNum ≤ UInt32.ofNat (off / fs.sb.blockSize.toNat) := by
    rw [UInt32.le_iff_toNat_le, blkNum_toNat h, hd]
    exact not_lt.mp hn
  rw [UInt32.toNat_sub_of_le _ _ hle, blkNum_toNat h, hd]

theorem fsFindBlk_eq (h : off / fs.sb.blockSize.toNat < blkLimit fs) (inode : Inode)
    (blkIdx : Option ChisaiSize) :
    fsFindBlk fs inode off blkIdx = findAt fs inode (off / fs.sb.blockSize.toNat) := by
  have hnum := blkNum_toNat h
  unfold fsFindBlk findAt
  by_cases hn : off / fs.sb.blockSize.toNat < directBlksNum
  · simp only [hnum, hn, ↓reduceDIte, ↓reduceIte, lookupOf, Inode.blk_of_lt hn]
    rfl
  · simp only [hnum, hn, ↓reduceDIte, ↓reduceIte, blkNum_lt h, indirOff_toNat h hn]
    rfl

end Numbers

section Entries

variable {fs fs' : Filesystem} {k : ChisaiSize} {e i n : ℕ} {d d' : Device}

structure SameLayout (fs fs' : Filesystem) : Prop where
  blockSize : fs'.sb.blockSize = fs.sb.blockSize
  perGroup : fs'.sb.dataBlockPerGroups = fs.sb.dataBlockPerGroups
  groupSize : fs'.blkgrpSize = fs.blkgrpSize

theorem SameLayout.offset (h : SameLayout fs fs') (k : ChisaiSize) :
    fsDataToOffset fs' k = fsDataToOffset fs k := by
  unfold fsDataToOffset
  rw [h.blockSize, h.perGroup, h.groupSize]

theorem fsDataAlloc_layout (he : fsDataAlloc fs = .ok (k, fs')) :
    SameLayout fs fs' ∧ fs'.d = fs.d := by
  obtain ⟨⟨idx, grps⟩, -, he⟩ := bind_eq_ok.mp he
  dsimp only at he
  split_ifs at he
  · cases he
    exact ⟨⟨rfl, rfl, rfl⟩, rfl⟩
  · cases he
    exact ⟨⟨rfl, rfl, rfl⟩, rfl⟩

theorem loadEntry_congr (h : SameLayout fs fs') (hd : fs'.d = fs.d) :
    loadEntry fs' k e = loadEntry fs k e := by
  unfold loadEntry
  rw [hd, h.offset]

theorem loadEntry_store {x : ChisaiSize}
    (hd : deviceDataSave fs.d (i * 4 + fsDataToOffset fs k) (u32.enc x) = .ok d) :
    loadEntry { fs with d := d } k e = if e = i then .ok (u32.enc x) else loadEntry fs k e := by
  have hlen : (u32.enc x).length = 4 := u32.length_enc x
  split_ifs with he
  · subst he
    have hsame := deviceDataLoad_save_same hd
    rwa [hlen] at hsame
  · change deviceDataLoad d (e * 4 + fsDataToOffset fs k) 4 = _
    exact deviceDataLoad_save_apart hd (by omega)

theorem fsClearBlk_entry (hc : fsClearBlk fs k i n d = .ok d') (hi : i ≤ e) (he : e < i + n) :
    loadEntry { fs with d := d' } k e = .ok (u32.enc 0) := by
  have hkeep : ∀ {n i : ℕ} {d d' : Device}, fsClearBlk fs k i n d = .ok d' → e < i →
      loadEntry { fs with d := d' } k e = loadEntry { fs with d := d } k e := by
    intro n
    induction n with
    | zero =>
      intro i d d' hc _
      cases hc
      rfl
    | succ n ih =>
      intro i d d' hc hlt
      obtain ⟨d₁, hd, hc⟩ := bind_eq_ok.mp hc
      rw [ih hc (by omega)]
      have hstore := @loadEntry_store { fs with d := d } k e i d₁ 0 hd
      rwa [if_neg (by omega)] at hstore
  induction n generalizing i d with
  | zero => omega
  | succ n ih =>
    obtain ⟨d₁, hd, hc⟩ := bind_eq_ok.mp hc
    by_cases hfirst : e = i
    · have hstore := @loadEntry_store { fs with d := d } k e i d₁ 0 hd
      rw [if_pos hfirst] at hstore
      rw [hkeep hc (by omega)]
      exact hstore
    · exact ih hc (by omega) (by omega)

end Entries

/-- The three ways in which `fs_alloc_blk` maps block number `n` to `k`: in the inode, in the
indirect block, or in an indirect block that it makes. -/
inductive Mapped (fs : Filesystem) (inode : Inode) (n : ℕ) (k : ChisaiSize) :
    Inode → Filesystem → Prop
  | direct {fs' : Filesystem} (hn : n < directBlksNum) (hk : fsDataAlloc fs = .ok (k, fs')) :
      Mapped fs inode n k (inode.setBlk n k) fs'
  | indirect {fs₁ : Filesystem} {d : Device} (hn : ¬ n < directBlksNum)
      (h0 : inode.indirectBlk ≠ 0) (hk : fsDataAlloc fs = .ok (k, fs₁))
      (hd : deviceDataSave fs₁.d ((n - directBlksNum) * 4 +
        fsDataToOffset fs₁ inode.indirectBlk) (u32.enc k) = .ok d) :
      Mapped fs inode n k inode { fs₁ with d := d }
  | created {j : ChisaiSize} {fs₁ fs₂ : Filesystem} {d₁ d : Device} (hn : ¬ n < directBlksNum)
      (h0 : inode.indirectBlk = 0) (hj : fsDataAlloc fs = .ok (j, fs₁)) (hj0 : j ≠ 0)
      (hclear : fsClearBlk fs₁ j 0 (fs.sb.blockSize.toNat / 4) fs₁.d = .ok d₁)
      (hk : fsDataAlloc { fs₁ with d := d₁ } = .ok (k, fs₂))
      (hd : deviceDataSave fs₂.d ((n - directBlksNum) * 4 + fsDataToOffset fs₂ j)
        (u32.enc k) = .ok d) :
      Mapped fs inode n k { inode with indirectBlk := j } { fs₂ with d := d }

section Alloc

variable {fs fs' : Filesystem} {inode inode' : Inode} {off n m : ℕ} {k : ChisaiSize}

theorem fsAllocBlk_mapped (hn : off / fs.sb.blockSize.toNat < blkLimit fs)
    (he : fsAllocBlk fs inode off = .ok (.ok, k, inode', fs')) :
    Mapped fs inode (off / fs.sb.blockSize.toNat) k inode' fs' := by
  obtain ⟨⟨j, fs₁⟩, hj, he⟩ := bind_eq_ok.mp he
  have hnum := blkNum_toNat hn
  have hlt := blkNum_lt hn
  by_cases hj0 : j = 0
  · simp only [hj0, ↓reduceIte] at he
    cases he
  by_cases hdirect : off / fs.sb.blockSize.toNat < directBlksNum
  · simp only [hj0, ↓reduceIte, hnum, hdirect, ↓reduceDIte] at he
    cases he
    rw [← Inode.setBlk_of_lt hdirect]
    exact .direct hdirect hj
  · have hindir := indirOff_toNat hn hdirect
    simp only [hj0, ↓reduceIte, hnum, hdirect, ↓reduceDIte, hlt, hindir] at he
    by_cases h0 : inode.indirectBlk = 0
    · simp only [h0, ↓reduceIte] at he
      obtain ⟨d₁, hclear, he⟩ := bind_eq_ok.mp he
      obtain ⟨⟨k₂, fs₂⟩, hk, he⟩ := bind_eq_ok.mp he
      obtain ⟨_, hpair, he⟩ := bind_eq_ok.mp he
      obtain ⟨d, hd, he⟩ := bind_eq_ok.mp he
      cases hpair
      cases he
      rw [perBlock_toNat] at hclear
      exact .created hdirect h0 hj hj0 hclear hk hd
    · simp only [h0, ↓reduceIte] at he
      obtain ⟨⟨k₂, inode₂, fs₂⟩, hpair, he⟩ := bind_eq_ok.mp he
      obtain ⟨d, hd, he⟩ := bind_eq_ok.mp he
      cases hpair
      cases he
      exact .indirect hdirect h0 hj hd

theorem findAt_of_lt (hn : n < directBlksNum) : findAt fs inode n = .ok (lookupOf (inode.blk n)) :=
  if_pos hn

theorem findAt_of_ge (hn : ¬ n < directBlksNum) :
    findAt fs inode n = loadEntry fs inode.indirectBlk (n - directBlksNum) >>= fun buf =>
      pure (lookupOf (u32.dec buf)) := if_neg hn

theorem Mapped.layout (h : Mapped fs inode n k inode' fs') : SameLayout fs fs' := by
  cases h with
  | direct hn hk => exact (fsDataAlloc_layout hk).1
  | indirect hn h0 hk hd =>
    have hl := (fsDataAlloc_layout hk).1
    exact ⟨hl.blockSize, hl.perGroup, hl.groupSize⟩
  | created hn h0 hj hj0 hclear hk hd =>
    have hl₁ := (fsDataAlloc_layout hj).1
    have hl₂ := (fsDataAlloc_layout hk).1
    exact ⟨hl₂.blockSize.trans hl₁.blockSize, hl₂.perGroup.trans hl₁.perGroup,
      hl₂.groupSize.trans hl₁.groupSize⟩

theorem Mapped.find_same (h : Mapped fs inode n k inode' fs') :
    findAt fs' inode' n = .ok (lookupOf k) := by
  cases h with
  | direct hn hk => rw [findAt_of_lt hn, Inode.blk_setBlk_same hn]
  | indirect hn h0 hk hd =>
    rw [findAt_of_ge hn, loadEntry_store hd, if_pos rfl, ok_bind, u32.dec_enc]
    rfl
  | created hn h0 hj hj0 hclear hk hd =>
    rw [findAt_of_ge hn]
    dsimp only
    rw [loadEntry_store hd, if_pos rfl, ok_bind, u32.dec_enc]
    rfl

theorem Mapped.find_direct (h : Mapped fs inode n k inode' fs') (hm : m < directBlksNum)
    (hne : m ≠ n) : findAt fs' inode' m = findAt fs inode m := by
  rw [findAt_of_lt hm, findAt_of_lt hm]
  cases h with
  | direct hn hk => rw [Inode.blk_setBlk_of_ne hne]
  | indirect hn h0 hk hd => rfl
  | created hn h0 hj hj0 hclear hk hd => rfl

theorem Mapped.find_indirect (h : Mapped fs inode n k inode' fs') (hm : ¬ m < directBlksNum)
    (hne : m ≠ n) (h0 : n < directBlksNum ∨ inode.indirectBlk ≠ 0) :
    findAt fs' inode' m = findAt fs inode m := by
  rw [findAt_of_ge hm, findAt_of_ge hm]
  cases h with
  | direct hn hk =>
    obtain ⟨hl, hd⟩ := fsDataAlloc_layout hk
    rw [Inode.setBlk_of_lt hn, loadEntry_congr hl hd]
  | indirect hn _ hk hd =>
    obtain ⟨hl, hdev⟩ := fsDataAlloc_layout hk
    rw [loadEntry_store hd, if_neg (by omega), loadEntry_congr hl hdev]
  | created hn h0' hj hj0 hclear hk hd => exact absurd h0' (h0.resolve_left hn)

theorem Mapped.find_created (h : Mapped fs inode n k inode' fs') (hm : ¬ m < directBlksNum)
    (hlt : m < blkLimit fs) (hne : m ≠ n) (hn : ¬ n < directBlksNum)
    (h0 : inode.indirectBlk = 0) : findAt fs' inode' m = .ok (.enoent, some 0) := by
  rw [findAt_of_ge hm]
  cases h with
  | direct hn' hk => exact absurd hn' hn
  | indirect _ h0' hk hd => exact absurd h0 h0'
  | @created j fs₁ fs₂ d₁ d _ _ hj hj0 hclear hk hd =>
    obtain ⟨hl, hdev⟩ := fsDataAlloc_layout hk
    have hentry : m - directBlksNum < 0 + fs.sb.blockSize.toNat / 4 := by
      change m < 12 + fs.sb.blockSize.toNat / 4 at hlt
      change m - 12 < _
      change ¬ m < 12 at hm
      omega
    dsimp only
    rw [loadEntry_store hd, if_neg (by omega), loadEntry_congr hl hdev,
      fsClearBlk_entry hclear (Nat.zero_le _) hentry, ok_bind, u32.dec_enc]
    rfl

/-- Allocation on the map from block numbers to blocks. Of the indexes that the allocator
returns nothing matters but that the last one is not 0. -/
theorem block_map_alloc (hn : off / fs.sb.blockSize.toNat < blkLimit fs)
    (he : fsAllocBlk fs inode off = .ok (.ok, k, inode', fs')) (hk : k ≠ 0) (off' : ℕ)
    (blkIdx : Option ChisaiSize) (hn' : off' / fs.sb.blockSize.toNat < blkLimit fs) :
    fsFindBlk fs' inode' off' blkIdx =
      if off' / fs.sb.blockSize.toNat = off / fs.sb.blockSize.toNat then .ok (.ok, some k)
      else if directBlksNum ≤ off' / fs.sb.blockSize.toNat ∧
          directBlksNum ≤ off / fs.sb.blockSize.toNat ∧ inode.indirectBlk = 0 then
        .ok (.enoent, some 0)
      else fsFindBlk fs inode off' blkIdx := by
  have hmap := fsAllocBlk_mapped hn he
  have hsize := hmap.layout.blockSize
  have hlimit : blkLimit fs' = blkLimit fs := by rw [blkLimit, hsize, blkLimit]
  have hfind : fsFindBlk fs' inode' off' blkIdx =
      findAt fs' inode' (off' / fs'.sb.blockSize.toNat) :=
    fsFindBlk_eq (by rw [hsize, hlimit]; exact hn') inode' blkIdx
  rw [hfind, fsFindBlk_eq hn', hsize]
  split_ifs with hsame hcreated
  · rw [hsame, hmap.find_same, lookupOf, if_neg hk]
  · exact hmap.find_created (not_lt.mpr hcreated.1) hn' hsame (not_lt.mpr hcreated.2.1)
      hcreated.2.2
  · by_cases hdirect : off' / fs.sb.blockSize.toNat < directBlksNum
    · exact hmap.find_direct hdirect hsame
    · refine hmap.find_indirect hdirect hsame ?_
      by_contra hboth
      obtain ⟨hge, h0⟩ := not_or.mp hboth
      exact hcreated ⟨not_lt.mp hdirect, not_lt.mp hge, not_not.mp h0⟩

/-- The first block behind the direct ones: a new indirect block with one entry. -/
theorem block_map_alloc_firstIndirect :
    ∃ fs k inode' fs', freshMount smallDisk = .ok fs ∧
      fsAllocBlk fs inodeInit 6144 = .ok (.ok, k, inode', fs') ∧
      fsFindBlk fs' inode' 6144 none = .ok (.ok, some k) ∧
      fsFindBlk fs' inode' 6656 none = .ok (.enoent, some 0) ∧
      fsFindBlk fs' inode' 0 none = .ok (.enoent, some 0) := by
  have hrun : Yields (freshMount smallDisk) fun fs => fs.sb.blockSize = 512 ∧
      Yields (fsAllocBlk fs inodeInit 6144) fun r => r.1 = .ok ∧ r.2.1 ≠ 0 := by
    decide +kernel
  obtain ⟨fs, hmount, hsize, ⟨r, k, inode', fs'⟩, halloc, rfl, hk⟩ := hrun
  have hlimit : ∀ off, off < 140 * 512 → off / fs.sb.blockSize.toNat < blkLimit fs := by
    intro off hoff
    rw [blkLimit, hsize]
    change off / 512 < 140
    omega
  have hmap := fun off' hn' =>
    block_map_alloc (hlimit 6144 (by decide)) halloc hk off' none (hlimit off' hn')
  refine ⟨fs, k, inode', fs', hmount, halloc, ?_, ?_, ?_⟩
  · rw [hmap 6144 (by decide), if_pos rfl]
  · rw [hmap 6656 (by decide), hsize, if_neg (by decide), if_pos (by decide)]
  · rw [hmap 0 (by decide), hsize, if_neg (by decide), if_neg (by decide),
      fsFindBlk_eq (hlimit 0 (by decide)), hsize]
    rfl

end Alloc

end ChisaiFs
