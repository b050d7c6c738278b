import ChisaiFs.Effects
import ChisaiFs.Reading

/-! Truncation of a file that grew at its end only. The blocks such a file maps are its first
ones, and `fs_truncate_file` releases from block number `n / block_size` on. -/

namespace ChisaiFs
open Cells Outcome

/-- What the loop has done to `n` blocks from number `lo` on when it returns. -/
structure Released (geo : Geometry) (lo n : ℕ) (fs : Filesystem) (inode : Inode)
    (fs' : Filesystem) (inode' : Inode) : Prop where
  mounted : Mounted geo fs'
  mapped : ∀ j < n, inode.blk (lo + j) ≠ 0
  vol : volume geo fs' = { volume geo fs with
    dataUsed := (volume geo fs).dataUsed \ {k | ∃ j < n, inode.blk (lo + j) = k} }
  free : fs'.sb.freeBlocks = fs.sb.freeBlocks + UInt32.ofNat n
  blk : ∀ m, inode'.blk m = if lo ≤ m ∧ m < lo + n then 0 else inode.blk m
  mode : inode'.mode = inode.mode

section Loop

variable {geo : Geometry} {fs fs' : Filesystem} {inode inode' : Inode} {lo n : ℕ}

theorem Released.none (h : Mounted geo fs) : Released geo lo 0 fs inode fs inode where
  mounted := h
  mapped := fun j hj => absurd hj (Nat.not_lt_zero j)
  vol := by simp
  free := by simp
  blk := fun m => by rw [if_neg (by omega)]
  mode := rfl

theorem Released.cons {fs₁ : Filesystem} (h : Mounted geo fs) (hn : lo + n < directBlksNum)
    (h0 : inode.blk (lo + n) ≠ 0) (hrel : fsDataRelease fs (inode.blk (lo + n)) = .ok fs₁)
    (hrest : Released geo lo n fs₁ (inode.setBlk (lo + n) 0) fs' inode') :
    Released geo lo (n + 1) fs inode fs' inode' := by
  have hkeep : ∀ j < n, (inode.setBlk (lo + n) 0).blk (lo + j) = inode.blk (lo + j) :=
    fun j hj => Inode.blk_setBlk_of_ne (by omega)
  refine ⟨hrest.mounted, fun j hj => ?_, ?_, ?_, fun m => ?_, ?_⟩
  · by_cases hlast : j = n
    · rw [hlast]
      exact h0
    · rw [← hkeep j (by omega)]
      exact hrest.mapped j (by omega)
  · rw [hrest.vol, (fsDataRelease_spec h hrel).2.2]
    refine Volume.ext rfl rfl rfl ?_
    ext k
    simp only [Volume.freeData_dataUsed, Set.mem_sdiff, Set.mem_singleton_iff, Set.mem_ofPred_eq,
      not_exists, not_and, and_assoc]
    refine and_congr Iff.rfl ⟨fun hk j hj => ?_, fun hk => ⟨fun he => ?_, fun j hj => ?_⟩⟩
    · by_cases hlast : j = n
      · rw [hlast]
        exact fun he => hk.1 he.symm
      · rw [← hkeep j (by omega)]
        exact hk.2 j (by omega)
    · exact hk n (Nat.lt_succ_self n) he.symm
    · rw [hkeep j hj]
      exact hk j (by omega)
  · obtain ⟨ms', -, rfl⟩ := fsDataRelease_eq_ok h hrel
    have hone : UInt32.ofNat (n + 1) = 1 + UInt32.ofNat n := by
      rw [Nat.add_comm, UInt32.ofNat_add]
      rfl
    rw [hrest.free, hone, UInt32.add_assoc]
  · rw [hrest.blk]
    by_cases hm : m = lo + n
    · subst hm
      rw [if_neg (by omega), Inode.blk_setBlk_same hn, if_pos (by omega)]
    · rw [Inode.blk_setBlk_of_ne hm]
      exact if_congr (by omega) rfl rfl
  · rw [hrest.mode, Inode.setBlk_mode]

theorem fsTruncateLoop_released (h : Mounted geo fs)
    (he : fsTruncateLoop lo n fs inode = .ok (fs', inode')) :
    Released geo lo n fs inode fs' inode' := by
  induction n generalizing fs inode with
  | zero =>
    cases he
    exact .none h
  | succ n ih =>
    unfold fsTruncateLoop at he
    split_ifs at he with hn
    obtain ⟨_, hne, he⟩ := bind_eq_ok.mp he
    obtain ⟨fs₁, hrel, he⟩ := bind_eq_ok.mp he
    have hblk : inode.blk (lo + n) = inode.directBlks[lo + n] := Inode.blk_of_lt hn
    rw [← Inode.setBlk_of_lt hn] at he
    rw [← hblk] at hrel
    refine .cons h hn ?_ hrel (ih (fsDataRelease_spec h hrel).1 he)
    rw [hblk]
    exact (ite_error_eq_ok.mp hne).1

theorem fsTruncateLoop_total (h : Mounted geo fs)
    (hblk : ∀ j < n, geo.InRange (inode.blk (lo + j))) :
    ∃ r, fsTruncateLoop lo n fs inode = .ok r := by
  induction n generalizing fs inode with
  | zero => exact ⟨_, rfl⟩
  | succ n ih =>
    have hr := hblk n (Nat.lt_succ_self n)
    have hn := Inode.lt_of_blk_ne hr.1
    obtain ⟨fs₁, hrel⟩ := fsDataRelease_ok h fun _ => hr
    have hblk' : inode.blk (lo + n) = inode.directBlks[lo + n] := Inode.blk_of_lt hn
    obtain ⟨r, hrest⟩ : ∃ r, fsTruncateLoop lo n fs₁ (inode.setBlk (lo + n) 0) = .ok r := by
      refine ih (fsDataRelease_spec h hrel).1 fun j hj => ?_
      rw [Inode.blk_setBlk_of_ne (by omega)]
      exact hblk j (by omega)
    rw [Inode.setBlk_of_lt hn] at hrest
    rw [hblk'] at hrel
    rw [fsTruncateLoop, dif_pos hn, assertThat, if_pos (hblk' ▸ hr.1), ok_bind, hrel, ok_bind]
    exact ⟨r, hrest⟩

def trctFrom (geo : Geometry) (size : ℕ) : ℕ := size / geo.blkSize

def trctCount (geo : Geometry) (inode : Inode) (size : ℕ) : ℕ :=
  (inode.blkcnt.toInt - trctFrom geo size).toNat

theorem fsTruncateFile_released (h : Mounted geo fs) {file file' : FileInfo} {size : ℕ}
    {r : ChisaiError} (he : fsTruncateFile fs file size = .ok (r, file', fs')) :
    (size : ℤ) ≤ file.inode.size.toInt ∧ Mounted geo fs' ∧ ∃ fs₁ x,
      Released geo (trctFrom geo size) (trctCount geo file.inode size) fs file.inode fs₁ x ∧
      file' = ⟨inodeSetSize x (Int64.ofNat size), file.idx⟩ ∧ fs'.sb = fs₁.sb ∧
      volume geo fs' = (volume geo fs₁).setInode file.idx file'.inode := by
  obtain ⟨_, hsize, he⟩ := bind_eq_ok.mp he
  obtain ⟨⟨fs₁, x⟩, hloop, he⟩ := bind_eq_ok.mp he
  obtain ⟨fs₂, hsave, he⟩ := bind_eq_ok.mp he
  rw [pure_eq_ok, Prod.mk.injEq, Prod.mk.injEq] at he
  obtain ⟨-, rfl, rfl⟩ := he
  rw [h.blockSize] at hloop
  have hrel := fsTruncateLoop_released h hloop
  obtain ⟨hm, hsb, -, hv⟩ := fsSaveInode_spec hrel.mounted hsave
  exact ⟨(ite_error_eq_ok.mp hsize).1, hm, fs₁, x, hrel, rfl, hsb, hv⟩

theorem fsTruncateFile_total (h : Mounted geo fs) {file : FileInfo} {size : ℕ}
    (hsize : (size : ℤ) ≤ file.inode.size.toInt) (hi : geo.InRange file.idx)
    (hblk : ∀ j < trctCount geo file.inode size,
      geo.InRange (file.inode.blk (trctFrom geo size + j))) :
    ∃ r file' fs', fsTruncateFile fs file size = .ok (r, file', fs') := by
  obtain ⟨⟨fs₁, x⟩, hloop⟩ := fsTruncateLoop_total h hblk
  have hm := (fsTruncateLoop_released h hloop).mounted
  obtain ⟨fs₂, hsave⟩ := fsSaveInode_ok hm (inodeSetSize x (Int64.ofNat size)) hi
  refine ⟨.ok, ⟨inodeSetSize x (Int64.ofNat size), file.idx⟩, fs₂, ?_⟩
  unfold trctFrom trctCount trctFrom at hloop
  rw [← h.blockSize] at hloop
  unfold fsTruncateFile inodeGetBlkcnt
  rw [assertThat, if_pos hsize, ok_bind]
  dsimp only
  rw [hloop, ok_bind]
  dsimp only
  rw [hsave]
  rfl

end Loop

/-- The first `m` blocks are mapped, and they reach as far as `p` up to a missing last one. -/
structure Filled (geo : Geometry) (inode : Inode) (p m : ℕ) : Prop where
  blks : ∀ n, inode.blk n ≠ 0 ↔ n < m
  low : p < m * geo.blkSize + geo.blkSize
  high : m * geo.blkSize < p + geo.blkSize

/-- The inode of a file of `s` bytes that grew at its end and was cut. -/
structure Grown (geo : Geometry) (inode : Inode) (s m : ℕ) : Prop extends
    Filled geo inode s m where
  size : inode.size = Int64.ofNat s
  le : s ≤ directBlksNum * geo.blkSize
  cnt : inode.blkcnt = Int64.ofNat (s / 512 + 1) ∨ (s = 0 ∧ inode.blkcnt = 0)

section Growing

variable {geo : Geometry} {inode x : Inode} {p s m n : ℕ} {buf : List UInt8}

theorem Filled.bounds (h : Filled geo inode p m) :
    p / geo.blkSize ≤ m ∧ m ≤ p / geo.blkSize + 1 := by
  have hdiv := Nat.div_add_mod p geo.blkSize
  have hmod := Nat.mod_lt p geo.blkSize_pos
  have hlow := h.low
  have hhigh := h.high
  constructor
  · by_contra hlt
    have hmul := Nat.mul_le_mul_left geo.blkSize (show m + 1 ≤ p / geo.blkSize by omega)
    rw [Nat.mul_add, Nat.mul_one, Nat.mul_comm geo.blkSize m] at hmul
    omega
  · by_contra hlt
    have hmul := Nat.mul_le_mul_left geo.blkSize (show p / geo.blkSize + 1 + 1 ≤ m by omega)
    rw [Nat.mul_add, Nat.mul_add, Nat.mul_one, Nat.mul_comm geo.blkSize m] at hmul
    omega

theorem Filled.setSize (h : Filled geo inode p m) (size : Int64) :
    Filled geo (inodeSetSize inode size) p m :=
  ⟨fun n => h.blks n, h.low, h.high⟩

theorem Filled.step {start : ℕ} {c c' : Cursor} (hs : Cursor.Step geo buf start c c')
    (h : Filled geo c.inode (start + c.total) m) :
    ∃ m', Filled geo c'.inode (start + c'.total) m' := by
  have hlen := chunk_length geo buf start c.total
  have hdiv := Nat.div_add_mod (start + c.total) geo.blkSize
  have hmod := Nat.mod_lt (start + c.total) geo.blkSize_pos
  obtain ⟨hge, hle⟩ := h.bounds
  have hmul : ((start + c.total) / geo.blkSize + 1) * geo.blkSize =
      geo.blkSize * ((start + c.total) / geo.blkSize) + geo.blkSize := by ring
  cases hs with
  | overwrite hlt hk =>
    have hm : m = (start + c.total) / geo.blkSize + 1 := by
      have := (h.blks _).mp hk
      omega
    refine ⟨m, h.blks, ?_, ?_⟩
    all_goals
      dsimp only
      rw [hm, hmul]
      omega
  | @extend k hlt hn h0 hr hk =>
    have hm : m = (start + c.total) / geo.blkSize := by
      have := mt (h.blks _).mpr (not_not.mpr h0)
      omega
    refine ⟨m + 1, fun n => ?_, ?_, ?_⟩
    · by_cases hnm : n = (start + c.total) / geo.blkSize
      · subst hnm
        rw [Inode.blk_setBlk_same hn]
        exact iff_of_true hr.1 (by omega)
      · rw [Inode.blk_setBlk_of_ne hnm, h.blks]
        omega
    all_goals
      dsimp only
      rw [hm, hmul]
      omega

theorem inodeSetSize_blkcnt (hs : s < 2 ^ 31) :
    (inodeSetSize inode (Int64.ofNat s)).blkcnt = Int64.ofNat (s / 512 + 1) := by
  rw [Int64.ofNat_add, Int64.ofNat_div (by omega) (by decide)]
  rfl

theorem Grown.lt (h : Grown geo inode s m) : s < 2 ^ 31 := by
  have hd := geo.direct_lt
  have hle := h.le
  omega

theorem Grown.length (h : Grown geo inode s m) : inode.size.toUInt64.toNat = s := by
  have hs := h.lt
  rw [h.size, Int64.toUInt64_ofNat', UInt64.toNat_ofNat', Nat.mod_eq_of_lt (by omega)]

theorem Grown.toInt (h : Grown geo inode s m) : inode.size.toInt = s := by
  have hs := h.lt
  rw [h.size, Int64.toInt_ofNat_of_lt (by omega)]

theorem Filled.grown (h : Filled geo inode s m) (hle : s ≤ directBlksNum * geo.blkSize) :
    Grown geo (inodeSetSize inode (Int64.ofNat s)) s m := by
  have hd := geo.direct_lt
  exact ⟨h.setSize _, rfl, hle, Or.inl (inodeSetSize_blkcnt (by omega))⟩

theorem grown_new (mode : UInt32) : Grown geo (inodeSetMode inodeInit mode) 0 0 := by
  have hb := geo.blkSize_pos
  refine ⟨⟨fun n => ?_, by omega, by omega⟩, rfl, Nat.zero_le _, Or.inr ⟨rfl, rfl⟩⟩
  exact iff_of_false (not_not.mpr (inodeInit_blk n)) (Nat.not_lt_zero n)

theorem Grown.append {fs fs' : Filesystem} {i : ChisaiSize} {ret : ℤ} {file' : FileInfo}
    (h : Grown geo inode s m) (hm : Mounted geo fs)
    (hrange : s + buf.length ≤ directBlksNum * geo.blkSize)
    (he : fsWriteFile fs ⟨inode, i⟩ buf s = .ok (ret, file', fs')) :
    ∃ s' m', Grown geo file'.inode s' m' := by
  obtain ⟨-, c, hsteps, hle, -, -, rfl, -⟩ := fsWriteFile_direct hm hrange he
  have hfilled : ∀ c, Relation.ReflTransGen (Cursor.Step geo buf s) ⟨volume geo fs, inode, 0⟩ c →
      ∃ m', Filled geo c.inode (s + c.total) m' := by
    intro c hc
    induction hc with
    | refl => exact ⟨m, h.toFilled⟩
    | tail _ hs ih =>
      obtain ⟨m', hf⟩ := ih
      exact hf.step hs
  obtain ⟨m', hf⟩ := hfilled c hsteps
  refine ⟨s + c.total, m', ?_⟩
  dsimp only
  rw [writtenSize_append h.size h.lt]
  exact hf.grown (by omega)

theorem Grown.blkcnt (h : Grown geo inode s m) :
    inode.blkcnt.toInt = s / 512 + 1 ∨ (s = 0 ∧ inode.blkcnt = 0) := by
  have hlt := h.lt
  refine h.cnt.imp_left fun hc => ?_
  rw [hc, Int64.toInt_ofNat_of_lt (by omega)]
  rfl

theorem Grown.trct (h : Grown geo inode s m) (hn : n ≤ s)
    (hmapped : ∀ j < trctCount geo inode n, inode.blk (trctFrom geo n + j) ≠ 0) :
    trctFrom geo n + trctCount geo inode n = m ∧
      ((s = 0 ∧ inode.blkcnt = 0) ∨ (m = s / 512 + 1 ∧ trctFrom geo n < m)) := by
  have hb := geo.min_size
  obtain ⟨hge, hle⟩ := h.bounds
  have hdiv : s / geo.blkSize ≤ s / 512 := Nat.div_le_div_left hb (by decide)
  have hnd : n / geo.blkSize ≤ s / geo.blkSize := Nat.div_le_div_right hn
  rcases h.blkcnt with hc | ⟨rfl, hc⟩
  · have hcount : trctCount geo inode n = s / 512 + 1 - n / geo.blkSize := by
      rw [trctCount, hc, trctFrom]
      omega
    have hlast := (h.blks _).mp (hmapped (s / 512 - n / geo.blkSize) (by omega))
    rw [hcount]
    unfold trctFrom at hlast ⊢
    omega
  · have hhigh := h.high
    have hm0 : m = 0 := by
      by_contra hne
      have := Nat.le_mul_of_pos_left geo.blkSize (Nat.pos_of_ne_zero hne)
      omega
    have hfrom : trctFrom geo n = 0 := by
      rw [trctFrom, show n = 0 by omega, Nat.zero_div]
    rw [trctCount, hc, hfrom, hm0]
    exact ⟨rfl, Or.inl ⟨rfl, rfl⟩⟩

theorem Grown.cut {fs fs' : Filesystem} {i : ChisaiSize} {r : ChisaiError} {file' : FileInfo}
    (h : Grown geo inode s m) (hm : Mounted geo fs)
    (he : fsTruncateFile fs ⟨inode, i⟩ n = .ok (r, file', fs')) :
    ∃ s' m', Grown geo file'.inode s' m' := by
  obtain ⟨hsize, -, fs₁, x, hrel, rfl, -, -⟩ := fsTruncateFile_released hm he
  have hsize : n ≤ s := by
    have := h.toInt
    dsimp only at hsize
    omega
  have hle := h.le
  have hdiv := Nat.div_add_mod n geo.blkSize
  have hmod := Nat.mod_lt n geo.blkSize_pos
  have hmul : n / geo.blkSize * geo.blkSize = geo.blkSize * (n / geo.blkSize) := Nat.mul_comm _ _
  have hend := (h.trct hsize hrel.mapped).1
  refine ⟨n, n / geo.blkSize, Filled.grown ⟨fun k => ?_, by omega, by omega⟩ (by omega)⟩
  rw [hrel.blk]
  dsimp only
  rw [hend]
  unfold trctFrom at hend ⊢
  split_ifs with hk
  · exact iff_of_false (not_not.mpr rfl) (by omega)
  · rw [h.blks]
    omega

end Growing

def Op.AppendsTo (i : ChisaiSize) : Op → Prop
  | .write file _ off => file.idx = i → off = file.length
  | _ => True

instance (i : ChisaiSize) : (op : Op) → Decidable (op.AppendsTo i)
  | .write file _ off => inferInstanceAs (Decidable (file.idx = i → off = file.length))
  | .mkdir _ _ => isTrue trivial
  | .create _ _ => isTrue trivial
  | .truncate _ _ => isTrue trivial
  | .rename _ _ => isTrue trivial
  | .remove _ => isTrue trivial

/-- The states of lawful runs in which inode `i` is written at its end only. -/
def GrowsAtEnd (geo : Geometry) (i : ChisaiSize) (fs : Filesystem) : Prop :=
  ∃ fs₀, freshMount geo = .ok fs₀ ∧
    Reaches Op.step (fun s op => op.Lawful s ∧ op.AppendsTo i) fs₀ fs

section Runs

variable {geo : Geometry} {fs fs' : Filesystem} {i : ChisaiSize} {file : FileInfo} {m : ℕ}

def GrownAt (geo : Geometry) (i : ChisaiSize) (v : Volume) : Prop :=
  i ∈ v.inodeUsed → sIsreg (v.inode i).mode → ∃ s m, Grown geo (v.inode i) s m

theorem Op.step_grown (h : Mounted geo fs) (hg : GrownAt geo i (volume geo fs)) {op : Op}
    (hl : op.Lawful fs) (ha : op.AppendsTo i) (hs : op.step fs = .ok fs') :
    GrownAt geo i (volume geo fs') := by
  intro hu hreg
  cases Op.step_leaves h hs hu hreg with
  | same hu hi =>
    rw [hi] at hreg ⊢
    exact hg hu hreg
  | @new path mode hi =>
    rw [hi]
    exact ⟨0, 0, grown_new mode⟩
  | @wrote inode buf off ret file' he hi =>
    obtain ⟨hused, hinode, hmode⟩ := (FreshFile.iff h).mp hl.1
    obtain ⟨s, m, hgrown⟩ := hg hused (by rw [hinode]; exact hmode)
    rw [hinode] at hgrown
    have hoff : off = s := (ha rfl).trans hgrown.length
    have hrange := hl.2
    rw [hoff, h.blockSize] at hrange
    rw [hoff] at he
    rw [hi]
    exact hgrown.append h hrange he
  | @cut inode size r file' he hi =>
    obtain ⟨hused, hinode, hmode⟩ := (FreshFile.iff h).mp hl
    obtain ⟨s, m, hgrown⟩ := hg hused (by rw [hinode]; exact hmode)
    rw [hinode] at hgrown
    rw [hi]
    exact hgrown.cut h he

theorem GrowsAtEnd.spec (hrun : GrowsAtEnd geo i fs) :
    Mounted geo fs ∧ (volume geo fs).Wellformed ∧ GrownAt geo i (volume geo fs) := by
  obtain ⟨fs₀, hmount, hrun⟩ := hrun
  obtain ⟨hm, -, hw⟩ := freshMount_spec hmount
  have hstart : GrownAt geo i (volume geo fs₀) :=
    fun hu hreg => absurd hreg (freshMount_not_regular hmount hu)
  refine hrun.invariant (fun s => Mounted geo s ∧ (volume geo s).Wellformed ∧
    GrownAt geo i (volume geo s)) ?_ ⟨hm, hw, hstart⟩
  rintro s op t ⟨hm, hw, hg⟩ ⟨hl, ha⟩ hs
  obtain ⟨hm', hw'⟩ := Op.step_wellformed hm hw hl hs
  exact ⟨hm', hw', Op.step_grown hm hg hl ha hs⟩

theorem GrowsAtEnd.grown (hrun : GrowsAtEnd geo file.idx fs) (hf : FreshFile fs file) :
    Volume.Carries file.idx (volume geo fs) file.inode ∧
      ∃ m, Grown geo file.inode file.length m := by
  obtain ⟨hm, hw, hg⟩ := hrun.spec
  obtain ⟨hused, hinode, hmode⟩ := (FreshFile.iff hm).mp hf
  obtain ⟨s, m, hgrown⟩ := hg hused (by rw [hinode]; exact hmode)
  rw [hinode] at hgrown
  refine ⟨hf.carries hm hw, m, ?_⟩
  rw [FileInfo.length, hgrown.length]
  exact hgrown

/-- The truncation returns, and what it releases are the mapped blocks from `ceilBlk` on, each
with one step of the free counter. -/
def ReleasesTail (geo : Geometry) (fs : Filesystem) (file : FileInfo) (n : ℕ) : Prop :=
  ∃ r file' fs', fsTruncateFile fs file n = .ok (r, file', fs') ∧
    (volume geo fs').dataUsed = (volume geo fs).dataUsed \
      {k | ∃ m, ceilBlk geo n ≤ m ∧ file.inode.blk m = k ∧ k ≠ 0} ∧
    (volume geo fs').inodeUsed = (volume geo fs).inodeUsed ∧
    fs'.sb.freeBlocks = fs.sb.freeBlocks + UInt32.ofNat
      ((Finset.range directBlksNum).filter fun m =>
        ceilBlk geo n ≤ m ∧ file.inode.blk m ≠ 0).card

theorem ceilBlk_of_dvd {n : ℕ} (h : geo.blkSize ∣ n) : ceilBlk geo n = n / geo.blkSize := by
  have hb := geo.blkSize_pos
  obtain ⟨q, rfl⟩ := h
  rw [ceilBlk, Nat.mul_div_cancel_left q hb, Nat.add_sub_assoc hb, Nat.mul_add_div hb,
    Nat.div_eq_of_lt (by omega), Nat.add_zero]

theorem lt_ceilBlk {n : ℕ} (h : ¬ geo.blkSize ∣ n) : n / geo.blkSize < ceilBlk geo n := by
  have hb := geo.blkSize_pos
  have hdiv := Nat.div_add_mod n geo.blkSize
  have hmod : 0 < n % geo.blkSize := Nat.pos_of_ne_zero fun h0 => h (Nat.dvd_of_mod_eq_zero h0)
  rw [ceilBlk, Nat.lt_iff_add_one_le, Nat.le_div_iff_mul_le hb, Nat.add_mul, Nat.one_mul,
    Nat.mul_comm]
  omega

theorem Grown.tail_card {s m : ℕ} {inode : Inode} (h : Grown geo inode s m) (lo : ℕ) :
    ((Finset.range directBlksNum).filter fun l => lo ≤ l ∧ inode.blk l ≠ 0).card = m - lo := by
  have hm : m ≤ directBlksNum := by
    by_contra hlt
    have := Inode.lt_of_blk_ne ((h.blks directBlksNum).mpr (by omega))
    omega
  have hico : (Finset.range directBlksNum).filter (fun l => lo ≤ l ∧ inode.blk l ≠ 0) =
      Finset.Ico lo m := by
    ext l
    rw [Finset.mem_filter, Finset.mem_range, Finset.mem_Ico, h.blks]
    omega
  rw [hico, Nat.card_Ico]

theorem Grown.trct_mapped {s m n j : ℕ} {inode : Inode} (h : Grown geo inode s m)
    (hcnt : inode.blkcnt = 0 ∨ inode.blk (s / 512) ≠ 0) (hj : j < trctCount geo inode n) :
    inode.blk (trctFrom geo n + j) ≠ 0 := by
  refine (h.blks _).mpr ?_
  have hzero : inode.blkcnt ≠ 0 := by
    intro h0
    rw [trctCount, h0] at hj
    change j < ((0 : ℤ) - _).toNat at hj
    omega
  have hlast := (h.blks _).mp (hcnt.resolve_left hzero)
  rcases h.blkcnt with hc | ⟨-, hc⟩
  · rw [trctCount, hc] at hj
    omega
  · exact absurd hc hzero

theorem Released.tail {fs₁ : Filesystem} {inode x : Inode} {s m n : ℕ}
    (hg : Grown geo inode s m)
    (hrel : Released geo (trctFrom geo n) (trctCount geo inode n) fs inode fs₁ x)
    (hend : trctFrom geo n + trctCount geo inode n = m) :
    {k | ∃ j < trctCount geo inode n, inode.blk (trctFrom geo n + j) = k} =
      {k | ∃ l, trctFrom geo n ≤ l ∧ inode.blk l = k ∧ k ≠ 0} := by
  ext k
  constructor
  · rintro ⟨j, hj, rfl⟩
    exact ⟨_, Nat.le_add_right _ j, rfl, hrel.mapped j hj⟩
  · rintro ⟨l, hl, rfl, h0⟩
    have hlm := (hg.blks l).mp h0
    exact ⟨l - trctFrom geo n, by omega, by rw [Nat.add_sub_cancel' hl]⟩

theorem ReleasesTail.dvd (hrun : GrowsAtEnd geo file.idx fs) (hf : FreshFile fs file) {n : ℕ}
    (hn : n ≤ file.length) (h : ReleasesTail geo fs file n) :
    geo.blkSize ∣ n ∧ (file.inode.blkcnt = 0 ∨ file.inode.blk (file.length / 512) ≠ 0) := by
  obtain ⟨hm, hw, -⟩ := hrun.spec
  obtain ⟨-, m, hg⟩ := hrun.grown hf
  obtain ⟨r, file', fs', he, hused, -, -⟩ := h
  obtain ⟨-, -, fs₁, x, hrel, -, -, hv⟩ := fsTruncateFile_released hm he
  obtain ⟨hend, ⟨hs, h0⟩ | ⟨hlast, hpos⟩⟩ := hg.trct hn hrel.mapped
  · rw [show n = 0 by omega]
    exact ⟨Nat.dvd_zero _, Or.inl h0⟩
  · refine ⟨?_, Or.inr ((hg.blks _).mpr (by omega))⟩
    by_contra hdvd
    -- the block that `n` lies in is released, but it is not behind `n`
    have hown := hf.owns hm ((hg.blks _).mpr hpos)
    have hgone : file.inode.blk (trctFrom geo n) ∉ (volume geo fs').dataUsed := by
      rw [hv, Volume.setInode_dataUsed, hrel.vol]
      exact fun hmem => hmem.2 ⟨0, by omega, rfl⟩
    rw [hused] at hgone
    obtain ⟨k, hk, he, -⟩ := not_not.mp (not_and.mp hgone (hw.marked _ _ hown))
    have hsame := congrArg Prod.snd (hw.excl (he ▸ hf.owns hm (he ▸ hown.2.2)) hown)
    have hlt := lt_ceilBlk hdvd
    change k = n / geo.blkSize at hsame
    omega

/-- A truncation releases exactly the blocks behind the new size if and only if the new size
is a multiple of the block size and the file was never written or its size does not end in a
missing block. -/
theorem truncate_releases (hrun : GrowsAtEnd geo file.idx fs) (hf : FreshFile fs file) {n : ℕ}
    (hn : n ≤ file.length) : ReleasesTail geo fs file n ↔
      geo.blkSize ∣ n ∧ (file.inode.blkcnt = 0 ∨ file.inode.blk (file.length / 512) ≠ 0) := by
  refine ⟨ReleasesTail.dvd hrun hf hn, ?_⟩
  rintro ⟨hdvd, hcnt⟩
  obtain ⟨hm, hw, -⟩ := hrun.spec
  obtain ⟨-, m, hg⟩ := hrun.grown hf
  have hused := ((FreshFile.iff hm).mp hf).1
  have hblk : ∀ j < trctCount geo file.inode n,
      geo.InRange (file.inode.blk (trctFrom geo n + j)) := fun j hj =>
    hm.dataUsed_inRange (hw.marked _ _ (hf.owns hm (hg.trct_mapped hcnt hj)))
  obtain ⟨r, file', fs', he⟩ := fsTruncateFile_total hm (by rw [hg.toInt]; exact_mod_cast hn)
    (hm.inodeUsed_inRange hused) hblk
  obtain ⟨-, -, fs₁, x, hrel, -, hsb, hv⟩ := fsTruncateFile_released hm he
  have hend := (hg.trct hn hrel.mapped).1
  have hceil : ceilBlk geo n = trctFrom geo n := ceilBlk_of_dvd hdvd
  refine ⟨r, file', fs', he, ?_, ?_, ?_⟩
  · rw [hv, Volume.setInode_dataUsed, hrel.vol, hceil, hrel.tail hg hend]
  · rw [hv, Volume.setInode_inodeUsed, hrel.vol]
  · rw [hsb, hrel.free, hceil, hg.tail_card]
    congr 2
    omega

theorem threeBytes_grows {p : Filesystem → Prop} [DecidablePred p]
    (h : Yields (freshMount smallDisk) fun fs =>
      ((runAllowed Op.step (fun s op => op.Lawful s ∧ op.AppendsTo 3) (id fs) threeBytes).any
        fun s => decide (FreshFile s threeBytesFile ∧ p s)) = true) :
    ∃ fs, GrowsAtEnd smallDisk 3 fs ∧ FreshFile fs threeBytesFile ∧
      Stored smallDisk fs threeBytesFile.inode threeBytesFile.length ∧ p fs := by
  obtain ⟨fs₀, fs, hmount, hrun, hf, hp⟩ := exists_run id threeBytes h
  have hgrows : GrowsAtEnd smallDisk 3 fs := ⟨fs₀, hmount, hrun⟩
  exact ⟨fs, hgrows, hf, threeBytes_stored hgrows.spec.1, hp⟩

theorem truncate_releases_threeBytes :
    ∃ fs, GrowsAtEnd smallDisk 3 fs ∧ ReleasesTail smallDisk fs threeBytesFile 0 := by
  have hrun : ∃ fs, GrowsAtEnd smallDisk 3 fs ∧ FreshFile fs threeBytesFile ∧
      Stored smallDisk fs threeBytesFile.inode threeBytesFile.length ∧ True := by
    apply threeBytes_grows
    decide +kernel
  obtain ⟨fs, hgrows, hf, -, -⟩ := hrun
  exact ⟨fs, hgrows, (truncate_releases hgrows hf (Nat.zero_le _)).mpr (by decide)⟩

/-- A file that is cut to nothing cannot be cut to nothing again. -/
theorem truncate_twice_fails :
    ∃ fs file, GrowsAtEnd smallDisk 3 fs ∧ file.idx = 3 ∧ FreshFile fs file ∧ file.length = 0 ∧
      fsTruncateFile fs file 0 = .error .assertFailed ∧ ¬ ReleasesTail smallDisk fs file 0 := by
  have hrun : ∃ fs₀ fs, freshMount smallDisk = .ok fs₀ ∧
      Reaches Op.step (fun s op => op.Lawful s ∧ op.AppendsTo 3) fs₀ fs ∧
      (FreshFile fs ⟨inodeSetSize (newFile 0o100644 3).inode 0, 3⟩ ∧
        (fun _ => ()) <$> fsTruncateFile fs ⟨inodeSetSize (newFile 0o100644 3).inode 0, 3⟩ 0 =
          .error .assertFailed) := by
    apply exists_run id (threeBytes ++ [.truncate threeBytesFile 0])
    decide +kernel
  obtain ⟨fs₀, fs, hmount, hrun, hf, hcut⟩ := hrun
  have hfail : fsTruncateFile fs ⟨inodeSetSize (newFile 0o100644 3).inode 0, 3⟩ 0 =
      .error .assertFailed := by
    cases hr : fsTruncateFile fs ⟨inodeSetSize (newFile 0o100644 3).inode 0, 3⟩ 0 with
    | ok r =>
      rw [hr] at hcut
      cases hcut
    | error e =>
      rw [hr] at hcut
      cases hcut
      rfl
  refine ⟨fs, _, ⟨fs₀, hmount, hrun⟩, rfl, hf, by decide, hfail, ?_⟩
  rintro ⟨r, file', fs', he, -⟩
  rw [hfail] at he
  cases he

/-- The new size is in the handle and on the device, and the bytes below it read as before. -/
def KeepsBytes (fs : Filesystem) (file : FileInfo) (fs' : Filesystem) (file' : FileInfo)
    (n : ℕ) : Prop :=
  file'.inode.size.toInt = n ∧
    (∃ x, fsFindInode fs' file.idx = .ok (some x) ∧ x.size.toInt = n) ∧
    fsReadFile fs' file' n 0 = fsReadFile fs file n 0

theorem blk_of_find {inode : Inode} {n : ℕ} {k : ChisaiSize} (hn : n < directBlksNum)
    (hk : findAt fs inode n = .ok (.ok, some k)) : inode.blk n = k ∧ k ≠ 0 := by
  rw [findAt_of_lt hn, lookupOf, Except.ok.injEq, Prod.mk.injEq, Option.some.injEq] at hk
  obtain ⟨hr, rfl⟩ := hk
  refine ⟨rfl, fun h0 => ?_⟩
  rw [if_pos h0] at hr
  cases hr

theorem Grown.direct (hg : Grown geo file.inode file.length m) {pos : ℕ}
    (hpos : pos < file.length) : pos / geo.blkSize < directBlksNum := by
  have hle := hg.le
  exact div_lt_direct (by omega)

theorem Stored.mapped (hst : Stored geo fs file.inode file.length)
    (hg : Grown geo file.inode file.length m) {pos : ℕ} (hpos : pos < file.length) :
    file.inode.blk (pos / geo.blkSize) ≠ 0 := by
  obtain ⟨-, k, -, hfind⟩ := hst pos hpos
  obtain ⟨hblk, h0⟩ := blk_of_find (hg.direct hpos) hfind
  exact hblk ▸ h0

theorem length_inodeSetSize {x : Inode} {n : ℕ} (hn : n < 2 ^ 31) :
    (⟨inodeSetSize x (Int64.ofNat n), i⟩ : FileInfo).length = n := by
  change (Int64.ofNat n).toUInt64.toNat = n
  rw [Int64.toUInt64_ofNat', UInt64.toNat_ofNat', Nat.mod_eq_of_lt (by omega)]

/-- The read of `n` bytes touches the block that `n` lies in, and the truncation has taken
that block out. -/
theorem read_misses_cut {fs₁ : Filesystem} {x : Inode} {n : ℕ} {data : List UInt8}
    (hm' : Mounted geo fs') (hg : Grown geo file.inode file.length m)
    (hst : Stored geo fs file.inode file.length) (hn : n ≤ file.length)
    (hrel : Released geo (trctFrom geo n) (trctCount geo file.inode n) fs file.inode fs₁ x)
    (hdvd : ¬ geo.blkSize ∣ n) :
    fsReadFile fs' ⟨inodeSetSize x (Int64.ofNat n), i⟩ n 0 ≠ .ok ((n : ℤ), data) := by
  intro hread
  have hlt := hg.lt
  have hend := (hg.trct hn hrel.mapped).1
  have hdiv := Nat.div_mul_le_self n geo.blkSize
  have hmod : n / geo.blkSize * geo.blkSize ≠ n := fun h => hdvd (Dvd.intro_left _ h)
  unfold fsReadFile at hread
  rw [show min n (inodeSetSize x (Int64.ofNat n)).size.toUInt64.toNat = n by
    change min n (FileInfo.length ⟨inodeSetSize x (Int64.ofNat n), i⟩) = n
    rw [length_inodeSetSize (by omega), Nat.min_self]] at hread
  have hcovers : ∀ pos < n, ∃ k, findAt fs' (inodeSetSize x (Int64.ofNat n))
      (pos / geo.blkSize) = .ok (.ok, some k) := fun pos hpos =>
    fsReadLoop_covers hm' hread (by omega)
      (fun pos _ hpos => by
        rw [blkLimit_eq hm']
        exact Nat.lt_add_right _ (hg.direct (by omega)))
      (Nat.zero_le _) (by rw [List.length_nil]; omega)
  obtain ⟨k, hk⟩ := hcovers (n / geo.blkSize * geo.blkSize) (by omega)
  have hlast := hg.direct (show n / geo.blkSize * geo.blkSize < file.length by omega)
  have hmapped := hst.mapped hg (show n / geo.blkSize * geo.blkSize < file.length by omega)
  rw [Nat.mul_div_cancel _ geo.blkSize_pos] at hk hlast hmapped
  have hm : n / geo.blkSize < m := (hg.blks _).mp hmapped
  obtain ⟨hblk, h0⟩ := blk_of_find hlast hk
  rw [Inode.blk_inodeSetSize, hrel.blk, if_pos ⟨le_refl _, hend ▸ hm⟩] at hblk
  exact h0 hblk.symm

theorem cut_reads_same {fs₁ : Filesystem} {x : Inode} {n : ℕ} (hm : Mounted geo fs)
    (hm' : Mounted geo fs') (hg : Grown geo file.inode file.length m)
    (hst : Stored geo fs file.inode file.length) (hn : n ≤ file.length)
    (hrel : Released geo (trctFrom geo n) (trctCount geo file.inode n) fs file.inode fs₁ x)
    (hblock : (volume geo fs').block = (volume geo fs).block) (hdvd : geo.blkSize ∣ n) :
    fsReadFile fs' ⟨inodeSetSize x (Int64.ofNat n), i⟩ n 0 =
      .ok ((n : ℤ), slice (storedByte fs file.inode) 0 n) := by
  have hlt := hg.lt
  have hlen : (⟨inodeSetSize x (Int64.ofNat n), i⟩ : FileInfo).length = n :=
    length_inodeSetSize (by omega)
  have hkeep : ∀ pos < n, x.blk (pos / geo.blkSize) = file.inode.blk (pos / geo.blkSize) := by
    intro pos hpos
    have hlo : pos / geo.blkSize < trctFrom geo n := Nat.div_lt_div_of_lt_of_dvd hdvd hpos
    rw [hrel.blk, if_neg (by omega)]
  have hst' : Stored geo fs' (inodeSetSize x (Int64.ofNat n)) n := by
    intro pos hpos
    obtain ⟨-, k, hr, hk⟩ := hst pos (by omega)
    have hdir := hg.direct (show pos < file.length by omega)
    obtain ⟨hblk, h0⟩ := blk_of_find hdir hk
    rw [blkLimit_eq hm', findAt_of_lt hdir, Inode.blk_inodeSetSize, hkeep pos hpos, hblk,
      lookupOf, if_neg h0]
    exact ⟨Nat.lt_add_right _ hdir, k, hr, rfl⟩
  have hafter : ReadsRange fs' ⟨inodeSetSize x (Int64.ofNat n), i⟩ n 0 :=
    readsRange_of_inside hm' (by rw [hlen]; exact hst') (by omega) (Or.inl (by omega))
  rw [ReadsRange, hlen, Nat.sub_zero, Nat.min_self] at hafter
  rw [hafter]
  congr 2
  refine slice_congr fun pos hpos => ?_
  have hdir := hg.direct (show pos < file.length by omega)
  rw [Nat.zero_add, storedByte_eq hm' hdir, storedByte_eq hm hdir, Volume.fileByte,
    Volume.fileByte, Inode.blk_inodeSetSize, hkeep pos hpos, hblock]

/-- A truncation that returns keeps the bytes below the new size if and only if the new size
is a multiple of the block size. -/
theorem truncate_keeps_bytes (hrun : GrowsAtEnd geo file.idx fs) (hf : FreshFile fs file)
    (hst : Stored geo fs file.inode file.length) {n : ℕ} (hn : n ≤ file.length) {r : ChisaiError}
    {file' : FileInfo} (he : fsTruncateFile fs file n = .ok (r, file', fs')) :
    KeepsBytes fs file fs' file' n ↔ geo.blkSize ∣ n := by
  obtain ⟨hm, hw, -⟩ := hrun.spec
  obtain ⟨-, m, hg⟩ := hrun.grown hf
  obtain ⟨-, hm', fs₁, x, hrel, rfl, -, hv⟩ := fsTruncateFile_released hm he
  have hlt := hg.lt
  have hsize : (Int64.ofNat n).toInt = n := Int64.toInt_ofNat_of_lt (by omega)
  have hstored : ∃ y, fsFindInode fs' file.idx = .ok (some y) ∧ y.size.toInt = n := by
    refine ⟨inodeSetSize x (Int64.ofNat n), (fsFindInode_iff hm').mpr ⟨?_, ?_⟩, hsize⟩
    · rw [hv, Volume.setInode_inodeUsed, hrel.vol]
      exact ((FreshFile.iff hm).mp hf).1
    · rw [hv, Volume.setInode_inode_same]
  have hbefore : fsReadFile fs file n 0 = .ok ((n : ℤ), slice (storedByte fs file.inode) 0 n) := by
    have h : ReadsRange fs file n 0 := readsRange_of_inside hm hst (by omega) (Or.inl (by omega))
    rwa [ReadsRange, Nat.sub_zero, Nat.min_eq_left hn] at h
  constructor
  · rintro ⟨-, -, hread⟩
    by_contra hdvd
    exact read_misses_cut hm' hg hst hn hrel hdvd (hread.trans hbefore)
  · intro hdvd
    refine ⟨hsize, hstored, ?_⟩
    rw [hbefore]
    refine cut_reads_same hm hm' hg hst hn hrel ?_ hdvd
    rw [hv, Volume.setInode_block, hrel.vol]

/-- Cutting a file of two blocks to one. -/
theorem truncate_keeps_bytes_twoBlocks :
    ∃ fs file' fs', GrowsAtEnd smallDisk 3 fs ∧
      fsTruncateFile fs twoBlocksFile 512 = .ok (.ok, file', fs') ∧
      KeepsBytes fs twoBlocksFile fs' file' 512 := by
  have hrun : ∃ fs₀ fs, freshMount smallDisk = .ok fs₀ ∧
      Reaches Op.step (fun s op => op.Lawful s ∧ op.AppendsTo 3) fs₀ fs ∧
      (FreshFile fs twoBlocksFile ∧
        Yields (fsTruncateFile fs twoBlocksFile 512) fun r => r.1 = .ok) := by
    apply exists_run id twoBlocksRun
    decide +kernel
  obtain ⟨fs₀, fs, hmount, hsteps, hf, ⟨r, file', fs'⟩, he, rfl⟩ := hrun
  have hgrows : GrowsAtEnd smallDisk 3 fs := ⟨fs₀, hmount, hsteps⟩
  exact ⟨fs, file', fs', hgrows, he,
    (truncate_keeps_bytes hgrows hf (twoBlocks_stored hgrows.spec.1) (by decide) he).mpr
      (dvd_refl 512)⟩

/-- Cutting a file of three bytes to one releases the block that the byte is in. -/
theorem truncate_loses_byte :
    ∃ fs file' fs', GrowsAtEnd smallDisk 3 fs ∧ FreshFile fs threeBytesFile ∧
      fsTruncateFile fs threeBytesFile 1 = .ok (.ok, file', fs') ∧
      fsReadFile fs threeBytesFile 1 0 = .ok (1, [1]) ∧
      fsReadFile fs' file' 1 0 = .ok (ChisaiError.enoent.code, []) ∧
      ¬ KeepsBytes fs threeBytesFile fs' file' 1 := by
  have hrun : ∃ fs, GrowsAtEnd smallDisk 3 fs ∧ FreshFile fs threeBytesFile ∧
      Stored smallDisk fs threeBytesFile.inode threeBytesFile.length ∧
      (fsReadFile fs threeBytesFile 1 0 = .ok (1, [1]) ∧
        Yields (fsTruncateFile fs threeBytesFile 1) fun r => r.1 = .ok ∧
          fsReadFile r.2.2 r.2.1 1 0 = .ok (ChisaiError.enoent.code, [])) := by
    apply threeBytes_grows
    decide +kernel
  obtain ⟨fs, hgrows, hf, -, hbefore, ⟨r, file', fs'⟩, he, rfl, hafter⟩ := hrun
  refine ⟨fs, file', fs', hgrows, hf, he, hbefore, hafter, ?_⟩
  rintro ⟨-, -, hread⟩
  rw [hbefore, hafter] at hread
  cases hread

end Runs

end ChisaiFs
