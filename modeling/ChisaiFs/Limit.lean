import ChisaiFs.Landed

/-! Writes whose range reaches behind the documented file size. What such a write changes on the
device if it returns, and when it returns. -/

namespace ChisaiFs
open Cells Outcome Recorded

section Bytes

variable {geo : Geometry} {fs fs' : Filesystem} {k l : ChisaiSize} {i j p : ℕ}

theorem Geometry.blk_inj (geo : Geometry) (hi : i < geo.blkSize) (hj : j < geo.blkSize)
    (h : geo.blkOff (k - 1).toNat + i = geo.blkOff (l - 1).toNat + j) : k = l ∧ i = j := by
  have hkl : k = l := by
    by_contra hne
    have hd := geo.blk_blk_disjoint (sub_one_injective hne)
    omega
  subst hkl
  exact ⟨rfl, by omega⟩

theorem volume_block_of_lt (fs : Filesystem) (k : ChisaiSize) (hj : j < geo.blkSize) :
    (volume geo fs).block k j = fs.d.bytes (geo.blkOff (k - 1).toNat + j) :=
  if_pos hj

theorem fsSaveInode_changed {x : Inode} {m : ChisaiSize} (he : fsSaveInode fs x m = .ok fs')
    (hne : fs'.d.bytes p ≠ fs.d.bytes p) :
    fsInodeToOffset fs m ≤ p ∧ p < fsInodeToOffset fs m + inodeSize.toNat := by
  obtain ⟨d, hd, he⟩ := bind_eq_ok.mp he
  cases he
  obtain ⟨-, rfl⟩ := deviceDataSave_eq_ok.mp hd
  have hlen : (inodeCodec.enc x).length = 88 := inodeCodec.length_enc x
  have h128 : inodeSize.toNat = 128 := rfl
  by_contra hout
  refine hne (overwrite_outside _ ?_)
  omega

theorem Fills.changed (h : Mounted geo fs) (hs : Fills geo fs fs')
    (hne : fs'.d.bytes p ≠ fs.d.bytes p) :
    ∃ (k : ChisaiSize) (j : ℕ), j < geo.blkSize ∧ p = geo.blkOff (k - 1).toNat + j := by
  by_contra hout
  refine hne (chain_invariant (fun s => s.d.bytes p = fs.d.bytes p)
    (fun _ _ h hs => hs.mounted h) ?_ h rfl hs).2
  intro s t hm hi hst
  rw [← hi]
  cases hst with
  | alloc he => rw [(fsDataAlloc_spec hm he).2.1]
  | @store k off bs d hfit hd =>
    obtain ⟨-, rfl⟩ := deviceDataSave_eq_ok.mp hd
    rw [fsDataToOffset_eq hm]
    refine overwrite_outside _ ?_
    by_contra hin
    exact hout ⟨k, p - geo.blkOff (k - 1).toNat, by omega, by omega⟩

end Bytes

/-- A byte of the file: in its inode slot, in its indirect block, or at a position from `off`
on, before `stop`, in one of its blocks. -/
def OwnByte (geo : Geometry) (fs : Filesystem) (file : FileInfo) (off stop p : ℕ) : Prop :=
  (fsInodeToOffset fs file.idx ≤ p ∧ p < fsInodeToOffset fs file.idx + inodeSize.toNat) ∨
    (file.inode.indirectBlk ≠ 0 ∧ fsDataToOffset fs file.inode.indirectBlk ≤ p ∧
      p < fsDataToOffset fs file.inode.indirectBlk + geo.blkSize) ∨
    ∃ pos k, off ≤ pos ∧ pos < stop ∧
      fsFindBlk fs file.inode pos none = .ok (.ok, some k) ∧
      p = fsDataToOffset fs k + pos % geo.blkSize

/-- Every stored byte of every regular file is where it was, but for those of file `i` from
`off` on, before `stop`. -/
def StoredKept (geo : Geometry) (fs fs' : Filesystem) (i : ChisaiSize) (off stop : ℕ) : Prop :=
  ∀ m x, fsFindInode fs m = .ok (some x) → sIsreg x.mode → ∀ pos k, pos < geo.maxFileSize →
    fsFindBlk fs x pos none = .ok (.ok, some k) → ¬ (m = i ∧ off ≤ pos ∧ pos < stop) →
    ∃ y, fsFindInode fs' m = .ok (some y) ∧ fsFindBlk fs' y pos none = .ok (.ok, some k) ∧
      fs'.d.bytes (fsDataToOffset fs' k + pos % geo.blkSize) =
        fs.d.bytes (fsDataToOffset fs k + pos % geo.blkSize)

/-- The write reports an error or no more than fits below the limit, and changes nothing but the
file's own bytes there. -/
def StopsAtLimit (e : Stray) (geo : Geometry) (fs : Filesystem) (file : FileInfo)
    (buf : List UInt8) (off : ℕ) : Prop :=
  ∃ ret file' fs', (Traced.fsWriteFile e fs file buf off).result = .ok (ret, file', fs') ∧
    (ret < 0 ∨ ret ≤ (geo.maxFileSize - off : ℕ)) ∧ fs'.d.size = fs.d.size ∧
    (∀ p, fs'.d.bytes p ≠ fs.d.bytes p →
      OwnByte geo fs' file' off (min (off + buf.length) geo.maxFileSize) p) ∧
    StoredKept geo fs fs' file.idx off (min (off + buf.length) geo.maxFileSize)

/-- The write stores nothing, or the allocator is not stuck and runs out of blocks: before the
write gets to the limit, or, for an offset whose block number comes around to one of the file, at
once. -/
def RunsShort (geo : Geometry) (fs : Filesystem) (file : FileInfo) (len off : ℕ) : Prop :=
  len = 0 ∨ fs.DataPrimed ∧
    ((off < geo.maxFileSize ∧
        fs.room < (volume geo fs).demand geo file.inode (off / geo.blkSize) geo.blkLimit) ∨
      (geo.maxFileSize ≤ off ∧ off % geo.span < geo.maxFileSize ∧
        (volume geo fs).mapped geo file.inode (off % geo.span / geo.blkSize) = 0 ∧ fs.room = 0))

instance (geo : Geometry) (fs : Filesystem) (file : FileInfo) (len off : ℕ) :
    Decidable (RunsShort geo fs file len off) :=
  inferInstanceAs (Decidable (_ ∨ _ ∧ (_ ∧ _ ∨ _ ∧ _ ∧ _ ∧ _)))

section Changes

variable {geo : Geometry} {fs fs' : Filesystem} {file file' : FileInfo} {buf : List UInt8}
  {off n j p : ℕ} {ret : ℤ} {u : WriteState} {i k : ChisaiSize}

/-- The bytes of data blocks that a write below the limit changes. -/
theorem Landed.changed (h : Landed geo fs file buf off ret file' fs' u)
    (hstop : u.total = 0 ∨ off + u.total ≤ geo.maxFileSize)
    (hne : (volume geo fs').block k j ≠ (volume geo fs).block k j) :
    (k = file'.inode.indirectBlk ∧ k ≠ 0) ∨ ∃ q, off ≤ q ∧ q < off + u.total ∧
      q % geo.blkSize = j ∧ (volume geo fs').mapped geo file'.inode (q / geo.blkSize) = k ∧
      k ≠ 0 := by
  rw [h.saved.2, Volume.setInode_block] at hne
  rcases hstop with h0 | hmax
  · rw [h.passes.eq_of_total h0] at hne
    exact absurd rfl hne
  · have hspan := geo.max_lt_span
    have hmod : off % geo.span = off := Nat.mod_eq_of_lt (by omega)
    rw [h.indirectBlk]
    refine (h.passes.changed rfl (by dsimp only; omega) hne).imp_right ?_
    dsimp only
    rw [hmod]
    rintro ⟨q, hq, hq', hj, hk, h0⟩
    exact ⟨q, hq, hq', hj, (h.mapped _).trans hk, h0⟩

theorem Landed.self (h : Landed geo fs file buf off ret file' fs' u) :
    file.idx ∈ (volume geo fs').inodeUsed ∧ sIsreg ((volume geo fs').inode file.idx).mode ∧
      (volume geo fs').inode file.idx = file'.inode := by
  obtain ⟨-, hu, hreg⟩ := h.underway.bears
  have hself : (volume geo fs').inode file.idx = file'.inode := by
    rw [h.saved.2, Volume.setInode_inode_same]
  refine ⟨by rw [h.saved.2]; exact hu, ?_, hself⟩
  rw [hself, h.info]
  exact hreg

theorem Landed.holds (h : Landed geo fs file buf off ret file' fs' u)
    (hstop : u.total = 0 ∨ off + u.total ≤ geo.maxFileSize)
    (hcopy : (volume geo fs).Holds geo (file.idx, n) k →
      (volume geo fs).mapped geo file.inode n = k)
    (hk : (volume geo fs).Holds geo (i, n) k) : (volume geo fs').Holds geo (i, n) k := by
  obtain ⟨hinode, hused⟩ := h.inode
  have hself := h.self
  by_cases hi : i = file.idx
  · subst hi
    have hmap := hcopy hk
    refine ⟨hself.1, hself.2.1, ?_, hk.2.2.2⟩
    rw [hself.2.2, h.kept (hmap.trans_ne hk.2.2.2), hmap]
  · obtain ⟨hu, hreg, hmap, h0⟩ := hk
    have hsame : (volume geo fs').inode i = (volume geo fs).inode i := by
      rw [hinode, Function.update_of_ne hi]
    refine ⟨by rw [hused]; exact hu, by rw [hsame]; exact hreg, ?_, h0⟩
    rw [hsame, ← hmap]
    refine Volume.mapped_congr fun hind => funext fun j => ?_
    by_contra hne
    have hother : (volume geo fs').Behind geo (i, none) ((volume geo fs).inode i).indirectBlk :=
      ⟨by rw [hused]; exact hu, by rw [hsame]; exact hreg, by rw [hsame]; rfl, hind⟩
    rcases h.changed hstop hne with ⟨hl, -⟩ | ⟨q, -, -, -, hq, hq0⟩
    · have hown : (volume geo fs').Behind geo (file.idx, none) file'.inode.indirectBlk :=
        ⟨hself.1, hself.2.1, by rw [hself.2.2]; rfl, hl ▸ hind⟩
      exact hi (congrArg Prod.fst (h.deep.behindUnique (hl ▸ hother) hown))
    · exact h.deep.not_indirect (i := file.idx) (n := q / geo.blkSize)
        ⟨hself.1, hself.2.1, by rw [hself.2.2]; exact hq, hq0⟩ hother

theorem Mounted.holds_iff (h : Mounted geo fs) (hformat : geo.AsFormatted)
    (hd : (volume geo fs).Deep geo) (hu : i ∈ (volume geo fs).inodeUsed)
    (hreg : sIsreg ((volume geo fs).inode i).mode) (hp : p < geo.maxFileSize) :
    fsFindBlk fs ((volume geo fs).inode i) p none = .ok (.ok, some k) ↔
      (volume geo fs).Holds geo (i, p / geo.blkSize) k := by
  rw [fsFindBlk_iff h hformat (fun h0 => (hd.behindLeaked (i, none) _ ⟨hu, hreg, rfl, h0⟩).1) hp]
  exact ⟨fun hk => ⟨hu, hreg, hk⟩, fun hk => hk.2.2⟩

theorem Landed.confined (h : Landed geo fs file buf off ret file' fs' u)
    (hformat : geo.AsFormatted) (hm : Mounted geo fs) (hd : (volume geo fs).Deep geo)
    (hf : FreshFile fs file) (hstop : u.total = 0 ∨ off + u.total ≤ geo.maxFileSize) :
    fs'.d.size = fs.d.size ∧
      (∀ p, fs'.d.bytes p ≠ fs.d.bytes p →
        OwnByte geo fs' file' off (min (off + buf.length) geo.maxFileSize) p) ∧
      StoredKept geo fs fs' file.idx off (min (off + buf.length) geo.maxFileSize) := by
  obtain ⟨hm', hv⟩ := h.saved
  have hself := h.self
  have htotal := h.total_le
  have hidx : file'.idx = file.idx := by rw [h.info]
  refine ⟨hm'.device.trans hm.device.symm, fun p hne => ?_, ?_⟩
  · by_cases hlast : fs'.d.bytes p = u.fs.d.bytes p
    · obtain ⟨k, j, hj, rfl⟩ := h.passes.fills.changed hm (hlast ▸ hne)
      rw [← volume_block_of_lt fs' k hj, ← volume_block_of_lt fs k hj] at hne
      rcases h.changed hstop hne with ⟨rfl, h0⟩ | ⟨q, hq, hq', hj, hk, h0⟩
      · refine Or.inr (Or.inl ⟨h0, ?_⟩)
        rw [fsDataToOffset_eq hm']
        omega
      · refine Or.inr (Or.inr ⟨q, k, hq, by omega, ?_, ?_⟩)
        · rw [← hself.2.2, hm'.holds_iff hformat h.deep hself.1 hself.2.1 (by omega)]
          exact ⟨hself.1, hself.2.1, by rw [hself.2.2]; exact hk, h0⟩
        · rw [fsDataToOffset_eq hm', hj]
    · left
      rw [hidx, fsInodeToOffset_eq hm', ← fsInodeToOffset_eq h.underway.mounted]
      exact fsSaveInode_changed h.save hlast
  · intro i x hx hreg p k hp hk hother
    obtain ⟨hu, rfl⟩ := (fsFindInode_iff hm).mp hx
    have hmod := Nat.mod_lt p geo.blkSize_pos
    rw [hm.holds_iff hformat hd hu hreg hp] at hk
    have hkeep := h.holds hstop (fun hc => by
      rw [← ((FreshFile.iff hm).mp hf).2.1]
      exact hc.2.2.1) hk
    refine ⟨_, fsFindInode_of_used hm' hkeep.1,
      (hm'.holds_iff hformat h.deep hkeep.1 hkeep.2.1 hp).mpr hkeep, ?_⟩
    rw [fsDataToOffset_eq hm', fsDataToOffset_eq hm, ← volume_block_of_lt fs' k hmod,
      ← volume_block_of_lt fs k hmod]
    by_contra hne
    rcases h.changed hstop hne with ⟨hl, h0⟩ | ⟨q, hq, hq', hj, hqk, h0⟩
    · refine h.deep.not_indirect hkeep (j := file.idx) ⟨hself.1, hself.2.1, ?_, h0⟩
      rw [hself.2.2]
      exact hl.symm
    · obtain ⟨hi, hdiv⟩ := Prod.mk.inj (h.deep.holds_unique hkeep
        (show (volume geo fs').Holds geo (file.idx, q / geo.blkSize) k from
          ⟨hself.1, hself.2.1, by rw [hself.2.2]; exact hqk, h0⟩))
      have hqp : q = p := by
        rw [← Nat.div_add_mod q geo.blkSize, ← hdiv, hj, Nat.div_add_mod]
      exact hother ⟨hi, by omega, by omega⟩

end Changes

section Limit

variable {e : Stray} {geo : Geometry} {fs fs' : Filesystem} {file file' : FileInfo}
  {buf : List UInt8} {off : ℕ} {ret : ℤ} {u : WriteState}

theorem Landed.reach_limit (h : Landed geo fs file buf off ret file' fs' u)
    (hlt : off < geo.maxFileSize) (hpast : geo.maxFileSize < off + buf.length) :
    geo.maxFileSize ≤ off + u.total ↔
      (volume geo fs).demand geo file.inode (off / geo.blkSize) geo.blkLimit ≤ fs.room := by
  have hspan := geo.max_lt_span
  have hmod : off % geo.span = off := Nat.mod_eq_of_lt (by omega)
  have hiff := h.passes.reach_iff rfl (by dsimp only; omega) (le_refl geo.maxFileSize)
    (by dsimp only; omega) fun hlt => ⟨(h.short hlt).2.1, (h.short hlt).2.2.1⟩
  dsimp only at hiff
  rwa [hmod, show ceilBlk geo geo.maxFileSize = geo.blkLimit from ceilBlk_mul _] at hiff

theorem Landed.stops (h : Landed geo fs file buf off ret file' fs' u)
    (hpast : geo.maxFileSize < off + buf.length) (hs : RunsShort geo fs file buf.length off) :
    u.total = 0 ∨ off + u.total ≤ geo.maxFileSize := by
  have htotal := h.total_le
  rcases hs with hempty | ⟨-, ⟨hlt, hroom⟩ | ⟨hge, hlim, h0, hroom⟩⟩
  · omega
  · rw [← not_le, ← h.reach_limit hlt hpast] at hroom
    omega
  · left
    by_contra hpos
    have hone := h.passes.demand_le (q := off % geo.span + 1) rfl (Nat.lt_add_one _)
      (by dsimp only; omega) hlim (by dsimp only; omega)
    have hdemand := Volume.demand_pos (div_lt_ceilBlk (Nat.lt_add_one (off % geo.span))) h0
    dsimp only at hone
    omega

theorem Landed.runsShort (h : Landed geo fs file buf off ret file' fs' u)
    (hpast : geo.maxFileSize < off + buf.length) (ht : u.total ≤ geo.maxFileSize - off)
    (hpos : 0 < buf.length) : RunsShort geo fs file buf.length off := by
  have hspan := geo.max_lt_span
  obtain ⟨hlim, h0, hroom, hprimed⟩ := h.short (by omega)
  refine Or.inr ⟨h.passes.primed.mp hprimed, ?_⟩
  by_cases hlt : off < geo.maxFileSize
  · left
    have hmod : off % geo.span = off := Nat.mod_eq_of_lt (by omega)
    have hat := h.passes.pos rfl (by dsimp only; omega)
    dsimp only at hat
    refine ⟨hlt, not_le.mp fun hdemand => ?_⟩
    rw [← h.reach_limit hlt hpast] at hdemand
    omega
  · right
    rw [h.passes.eq_of_total (show u.total = 0 by omega)] at hlim h0 hroom
    exact ⟨not_lt.mp hlt, hlim, h0, hroom⟩

theorem RunsShort.returns (hs : RunsShort geo fs file buf.length off) (hformat : geo.AsFormatted)
    (h : Mounted geo fs) (hb : Volume.Bears geo file.idx (volume geo fs) file.inode)
    (hl : Lands e geo fs file.inode buf.length off) :
    ∃ ret file' fs', (Traced.fsWriteFile e fs file buf off).result = .ok (ret, file', fs') := by
  have hspan := geo.max_lt_span
  have hr : geo.InRange file.idx := h.inodeUsed_inRange hb.2.1
  have hloop : ∃ t ns, (Traced.fsWriteLoop e buf buf.length ⟨fs, file.inode, none, 0, off⟩).result =
      .ok (t, ns) := by
    rcases hs with hempty | ⟨hprimed, hat⟩
    · rw [List.length_eq_zero_iff] at hempty
      subst hempty
      exact ⟨_, _, rfl⟩
    · refine ((hb.underway h buf off).run hformat (Nat.sub_le _ _)).returns hl.calm hprimed (Or.inl ?_)
      rcases hat with ⟨hlt, -⟩ | ⟨-, hlim, -⟩
      · exact (Nat.mod_le _ _).trans_lt hlt
      · exact hlim
  obtain ⟨t, ns, hloop⟩ := hloop
  exact ⟨_, Traced.fsWriteFile_of_loop h hr hloop⟩

/-- A write that reaches behind the limit and keeps to the device keeps to the limit exactly when
it runs short of blocks, or has nothing to store. -/
theorem past_limit_iff (hformat : geo.AsFormatted) (h : ReachableLanding geo fs)
    (hf : FreshFile fs file) (hpast : geo.maxFileSize < off + buf.length)
    (hl : Lands e geo fs file.inode buf.length off) :
    (RunsShort geo fs file buf.length off → StopsAtLimit e geo fs file buf off) ∧
      (buf.length < 2 ^ 31 → StopsAtLimit e geo fs file buf off →
        RunsShort geo fs file buf.length off) := by
  obtain ⟨hm, hd⟩ := h.deep hformat
  have hb := hf.bears hm hd
  have hmax := geo.max_lt
  refine ⟨fun hs => ?_, fun hlen => ?_⟩
  · obtain ⟨ret, file', fs', he⟩ := hs.returns hformat hm hb hl
    obtain ⟨u, hu⟩ := Traced.fsWriteFile_landed hformat hm hb hl he
    have hstop := hu.stops hpast hs
    refine ⟨ret, file', fs', he, Or.inr ?_, hu.confined hformat hm hd hf hstop⟩
    rw [hu.ret, toInt_of_lt (by omega), Nat.cast_le]
    omega
  · rintro ⟨ret, file', fs', he, hret, -⟩
    by_cases hempty : buf.length = 0
    · exact Or.inl hempty
    obtain ⟨u, hu⟩ := Traced.fsWriteFile_landed hformat hm hb hl he
    have htotal := hu.total_le
    rw [hu.ret, toInt_of_lt (by omega)] at hret
    exact hu.runsShort hpast (by omega) (by omega)

/-- Two bytes that reach behind the limit of a file with an indirect block. -/
theorem past_limit_sparse :
    ∃ fs, ReachableLanding smallDisk fs ∧ FreshFile fs sparseFile ∧
      ¬ StopsAtLimit .refuse smallDisk fs sparseFile [4, 5] 71679 := by
  have hrun : ∃ fs, ReachableMax smallDisk fs ∧ (FreshFile fs sparseFile ∧
      ¬ RunsShort smallDisk fs sparseFile 2 71679) := by
    apply exists_reachableMax sparse
    decide +kernel
  obtain ⟨fs, hreach, hfresh, hshort⟩ := hrun
  have hl : Lands .refuse smallDisk fs sparseFile.inode 2 71679 :=
    fun h0 => absurd h0 (by decide)
  exact ⟨fs, hreach.landing, hfresh, fun hs => hshort
    ((past_limit_iff (by decide) hreach.landing hfresh (by decide) hl).2 (by decide) hs)⟩

/-- An offset of 2^32 blocks comes around to the first byte of the file. -/
theorem wrapped_offset_stores :
    ∃ fs ret file' fs', ReachableLanding smallDisk fs ∧ FreshFile fs threeBytesFile ∧
      smallDisk.maxFileSize < 2199023255552 ∧ ret = 1 ∧
      (fsReadFile fs threeBytesFile 3 0).map Prod.snd = .ok [1, 2, 3] ∧
      (fsReadFile fs' file' 3 0).map Prod.snd = .ok [9, 2, 3] ∧ ∀ e : Stray,
        (Traced.fsWriteFile e fs threeBytesFile [9] 2199023255552).result =
          .ok (ret, file', fs') ∧
        ¬ StopsAtLimit e smallDisk fs threeBytesFile [9] 2199023255552 := by
  have hrun : ∃ fs, Reachable smallDisk fs ∧ (FreshFile fs threeBytesFile ∧
      (fsReadFile fs threeBytesFile 3 0).map Prod.snd = .ok [1, 2, 3] ∧
      Yields (fsWriteFile fs threeBytesFile [9] 2199023255552) fun r => r.1 = 1 ∧
        (fsReadFile r.2.2 r.2.1 3 0).map Prod.snd = .ok [9, 2, 3]) := by
    apply exists_reachable threeBytes
    decide +kernel
  obtain ⟨fs, hreach, hfresh, hbefore, ⟨ret, file', fs'⟩, he, hret, hafter⟩ := hrun
  refine ⟨fs, ret, file', fs', hreach.max.landing, hfresh, by decide, hret, hbefore, hafter,
    fun e => ?_⟩
  have he := (Traced.fsWriteFile_unless (e := e) fs _ _ _).eq_ok he
  refine ⟨he, ?_⟩
  rintro ⟨ret', file'', fs'', he', hle, -⟩
  rw [he] at he'
  cases he'
  dsimp only at hret
  rw [hret] at hle
  exact absurd hle (by decide)

end Limit

end ChisaiFs
