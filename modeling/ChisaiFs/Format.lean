import ChisaiFs.Mounting

/-! Formatting a device: the group count that `chisai_format` stores, and what a mount finds after
it. -/

namespace ChisaiFs
open Cells Outcome

/-- `chisai_format` with the sector size and the sector count that the two `ioctl`s return. -/
def chisaiFormat (blkSize : UInt32) (blkCnt : UInt64) (d : Device) : Exec Device := do
  let diskSize : UInt64 := blkCnt * blkSize.toUInt64
  let blkGroupSize : UInt64 := UInt64.ofNat (blkgrpBytes blkSize)
  if diskSize < blkSize.toUInt64 + blkGroupSize then .error .die
  -- the division stops the process
  if blkGroupSize = 0 then .error .die
  let groups : UInt32 := ((diskSize - blkSize.toUInt64) / blkGroupSize).toUInt32
  let sb ← superblockInit blkSize groups
  superblockSave sb d

def groupBytes (b : ℕ) : ℕ := 2 * b + 8 * b * (128 + b)

/-- The stored superblock promises at least one group, no byte behind the end of a device of
`size` bytes, and counts that are exact. -/
structure Promises (b size : ℕ) (sb : Superblock) : Prop where
  groups : 1 ≤ sb.groups.toNat
  inside : b + sb.groups.toNat * groupBytes b ≤ size
  blocksCnt : sb.blocksCnt.toNat = sb.groups.toNat * (8 * b)
  inodesCnt : sb.inodesCnt.toNat = sb.groups.toNat * (8 * b)
  freeBlocks : sb.freeBlocks.toNat = sb.groups.toNat * (8 * b)
  freeInodes : sb.freeInodes.toNat = sb.groups.toNat * (8 * b)

/-- The device is so large that its size in bytes or its group count is cut. -/
def SizeCut (b size : ℕ) : Prop :=
  2 ^ 64 ≤ size / 512 * b ∨ 2 ^ 32 ≤ (size / 512 * b - b) / (groupBytes b % 2 ^ 32)

/-- Sectors of 512 bytes and less than 2^20 groups. -/
def FormatSound (b size : ℕ) : Prop := b = 512 ∧ size < 512 + 2 ^ 20 * groupBytes 512

section Format

variable {b g : UInt32} {cnt : UInt64} {d d' : Device} {sb : Superblock} {n size : ℕ}

theorem blkgrpBytes_mod (b : UInt32) : blkgrpBytes b = groupBytes b.toNat % 2 ^ 32 := by
  have h2 : (2 : UInt32).toNat = 2 := rfl
  have h8 : byteBits.toNat = 8 := rfl
  have h128 : inodeSize.toNat = 128 := rfl
  unfold blkgrpBytes groupBytes
  rw [UInt32.toNat_add, UInt32.toNat_mul, UInt32.toNat_mul, UInt32.toNat_mul, UInt32.toNat_add,
    h2, h8, h128, Nat.mul_comm b.toNat 8, ← Nat.mul_mod, ← Nat.add_mod]

theorem superblockInit_eq_ok (h : superblockInit b g = .ok sb) :
    sb = ⟨magic, b, b * byteBits * g, b * byteBits * g, b * byteBits * g, b * byteBits * g, g,
      b * byteBits⟩ := by
  obtain ⟨_, -, h⟩ := bind_eq_ok.mp h
  cases h
  rfl

theorem superblockLoad_save {sb₀ : Superblock} (hs : superblockSave sb₀ d = .ok d')
    (hl : superblockLoad d' = .ok sb) : sb = sb₀ := by
  obtain ⟨buf, hbuf, hl⟩ := bind_eq_ok.mp hl
  cases hl
  obtain ⟨-, rfl⟩ := deviceDataSave_eq_ok.mp hs
  obtain ⟨-, rfl⟩ := deviceDataLoad_eq_ok.mp hbuf
  rw [← superblockCodec.length_enc sb₀, slice_overwrite_self, superblockCodec.dec_enc]

theorem toNat_groupBytes (b : UInt32) :
    (UInt64.ofNat (blkgrpBytes b)).toNat = groupBytes b.toNat % 2 ^ 32 := by
  have hmod : groupBytes b.toNat % 2 ^ 32 < 2 ^ 32 := Nat.mod_lt _ (by decide)
  rw [UInt64.toNat_ofNat', blkgrpBytes_mod]
  exact Nat.mod_eq_of_lt (by omega)

/-- The devices that are not rejected. -/
def Accepted (b : ℕ) (cnt : ℕ) : Prop :=
  b + groupBytes b % 2 ^ 32 ≤ cnt * b % 2 ^ 64 ∧ 0 < groupBytes b % 2 ^ 32

theorem accepted_of_chisaiFormat (he : chisaiFormat b cnt d = .ok d') :
    Accepted b.toNat cnt.toNat := by
  have hlt := b.toNat_lt
  have hmod : groupBytes b.toNat % 2 ^ 32 < 2 ^ 32 := Nat.mod_lt _ (by decide)
  unfold chisaiFormat at he
  dsimp only at he
  split_ifs at he with hsmall hzero hzero
  · cases he
  · cases he
  · cases he
  constructor
  · rw [UInt64.lt_iff_toNat_lt, UInt64.toNat_add, UInt64.toNat_mul, toNat_groupBytes,
      UInt32.toNat_toUInt64, Nat.mod_eq_of_lt (by omega : b.toNat + _ < 2 ^ 64)] at hsmall
    exact not_lt.mp hsmall
  · by_contra h0
    apply hzero
    rw [← UInt64.toNat_inj, toNat_groupBytes]
    exact Nat.le_zero.mp (not_lt.mp h0)

theorem chisaiFormat_accepted (d : Device) (h : Accepted b.toNat cnt.toNat) :
    ∃ g : UInt32, g.toNat =
        (cnt.toNat * b.toNat % 2 ^ 64 - b.toNat) / (groupBytes b.toNat % 2 ^ 32) % 2 ^ 32 ∧
      chisaiFormat b cnt d = superblockInit b g >>= fun sb => superblockSave sb d := by
  obtain ⟨hge, hpos⟩ := h
  have hlt := b.toNat_lt
  have hmod : groupBytes b.toNat % 2 ^ 32 < 2 ^ 32 := Nat.mod_lt _ (by decide)
  have hmul : (cnt * b.toUInt64).toNat = cnt.toNat * b.toNat % 2 ^ 64 := by
    rw [UInt64.toNat_mul, UInt32.toNat_toUInt64]
  have hsmall : ¬ cnt * b.toUInt64 < b.toUInt64 + UInt64.ofNat (blkgrpBytes b) := by
    rw [UInt64.lt_iff_toNat_lt, UInt64.toNat_add, hmul, toNat_groupBytes, UInt32.toNat_toUInt64,
      Nat.mod_eq_of_lt (by omega : b.toNat + _ < 2 ^ 64)]
    exact not_lt.mpr hge
  have hzero : UInt64.ofNat (blkgrpBytes b) ≠ 0 := by
    intro h0
    have hnat := congrArg UInt64.toNat h0
    rw [toNat_groupBytes] at hnat
    exact absurd hnat (Nat.ne_of_gt hpos)
  refine ⟨((cnt * b.toUInt64 - b.toUInt64) / UInt64.ofNat (blkgrpBytes b)).toUInt32, ?_, ?_⟩
  · have hle : b.toUInt64 ≤ cnt * b.toUInt64 := by
      rw [UInt64.le_iff_toNat_le, hmul, UInt32.toNat_toUInt64]
      omega
    rw [UInt64.toNat_toUInt32, UInt64.toNat_div, UInt64.toNat_sub_of_le _ _ hle, hmul,
      toNat_groupBytes, UInt32.toNat_toUInt64]
  · unfold chisaiFormat
    dsimp only
    rw [if_neg hsmall, if_neg hzero]

theorem chisaiFormat_eq_ok (he : chisaiFormat b cnt d = .ok d') :
    Accepted b.toNat cnt.toNat ∧ ∃ g sb, g.toNat =
        (cnt.toNat * b.toNat % 2 ^ 64 - b.toNat) / (groupBytes b.toNat % 2 ^ 32) % 2 ^ 32 ∧
      superblockInit b g = .ok sb ∧ superblockSave sb d = .ok d' := by
  have hacc := accepted_of_chisaiFormat he
  obtain ⟨g, hg, heq⟩ := chisaiFormat_accepted d hacc
  rw [heq] at he
  obtain ⟨sb, hsb, hsave⟩ := bind_eq_ok.mp he
  exact ⟨hacc, g, sb, hg, hsb, hsave⟩

theorem promises_iff (hsb : superblockInit b g = .ok sb) :
    Promises b.toNat size sb ↔ 1 ≤ g.toNat ∧ b.toNat + g.toNat * groupBytes b.toNat ≤ size ∧
      g.toNat * (8 * b.toNat) < 2 ^ 32 := by
  have hcount : (b * byteBits * g).toNat = g.toNat * (8 * b.toNat) % 2 ^ 32 := by
    have h8 : byteBits.toNat = 8 := rfl
    rw [UInt32.toNat_mul, UInt32.toNat_mul, h8, Nat.mod_mul_mod, Nat.mul_comm, Nat.mul_comm b.toNat]
  rw [superblockInit_eq_ok hsb]
  constructor
  · rintro ⟨hg, hin, hblocks, -⟩
    refine ⟨hg, hin, ?_⟩
    dsimp only at hblocks
    rw [← hblocks, hcount]
    exact Nat.mod_lt _ (by decide)
  · rintro ⟨hg, hin, hfits⟩
    rw [Nat.mod_eq_of_lt hfits] at hcount
    exact ⟨hg, hin, hcount, hcount, hcount, hcount⟩

theorem blkSize_eq_of_fits {b : ℕ} (hb : b = 512 ∨ 1024 ≤ b) (hpos : 0 < groupBytes b % 2 ^ 32)
    (hn : 1 ≤ (size / 512 * b - b) / (groupBytes b % 2 ^ 32))
    (hin : b + (size / 512 * b - b) / (groupBytes b % 2 ^ 32) * groupBytes b ≤ size) : b = 512 := by
  refine hb.resolve_right fun hge => ?_
  have hmod := Nat.mod_le (groupBytes b) (2 ^ 32)
  have hdiv := @Nat.lt_div_mul_add (size / 512 * b - b) _ hpos
  have hone := Nat.mul_le_mul_right (groupBytes b) hn
  have hdouble := Nat.mul_le_mul_left (size / 512) hge
  have hle := Nat.mul_le_mul_left ((size / 512 * b - b) / (groupBytes b % 2 ^ 32)) hmod
  omega

theorem FormatSound.count {b : ℕ} (h : FormatSound b size)
    (hge : b + groupBytes b % 2 ^ 32 ≤ size / 512 * b % 2 ^ 64) :
    let n := (size / 512 * b % 2 ^ 64 - b) / (groupBytes b % 2 ^ 32) % 2 ^ 32
    1 ≤ n ∧ b + n * groupBytes b ≤ size ∧ n * (8 * b) < 2 ^ 32 := by
  obtain ⟨rfl, hsize⟩ := h
  have hg : groupBytes 512 = 2622464 := rfl
  have hmod : groupBytes 512 % 2 ^ 32 = 2622464 := rfl
  rw [hmod] at hge ⊢
  rw [hg]
  dsimp only
  omega

theorem formatSound_of_count {b : ℕ} (hb : b = 512 ∨ 1024 ≤ b) (hpos : 0 < groupBytes b % 2 ^ 32)
    (hcut : ¬ SizeCut b size)
    (hn : let n := (size / 512 * b % 2 ^ 64 - b) / (groupBytes b % 2 ^ 32) % 2 ^ 32
      1 ≤ n ∧ b + n * groupBytes b ≤ size ∧ n * (8 * b) < 2 ^ 32) : FormatSound b size := by
  obtain ⟨hsize, hcount⟩ := not_or.mp hcut
  rw [Nat.mod_eq_of_lt (not_le.mp hsize)] at hn
  dsimp only at hn
  rw [Nat.mod_eq_of_lt (not_le.mp hcount)] at hn
  obtain ⟨hn, hin, hlt⟩ := hn
  have h512 := blkSize_eq_of_fits hb hpos hn hin
  subst h512
  have hg : groupBytes 512 = 2622464 := rfl
  have hmod : groupBytes 512 % 2 ^ 32 = 2622464 := rfl
  rw [hmod] at hlt
  refine ⟨rfl, ?_⟩
  rw [hg]
  omega

/-- For every power of two from 512 on as sector size and every device that is not rejected: with
sectors of 512 bytes and less than 2^20 groups the stored superblock keeps its promises, and where
neither the size nor the group count is cut it does so on no other device. -/
theorem format_promises (hpow : ∃ k, b.toNat = 2 ^ k) (hmin : 512 ≤ b.toNat)
    (hcnt : cnt.toNat = d.size / 512) (he : chisaiFormat b cnt d = .ok d')
    (hl : superblockLoad d' = .ok sb) :
    (FormatSound b.toNat d.size → Promises b.toNat d.size sb) ∧
      (¬ SizeCut b.toNat d.size → (Promises b.toNat d.size sb ↔ FormatSound b.toNat d.size)) := by
  have hb : b.toNat = 512 ∨ 1024 ≤ b.toNat := by
    obtain ⟨k, hk⟩ := hpow
    rw [hk] at hmin ⊢
    have h9 : 9 ≤ k := (Nat.pow_le_pow_iff_right (by decide : 1 < 2)).mp hmin
    rcases h9.eq_or_lt with rfl | hlt
    · exact Or.inl rfl
    · exact Or.inr (Nat.pow_le_pow_right (by decide : 0 < 2) hlt)
  obtain ⟨⟨hge, hpos⟩, g, sb₀, hg, hsb, hsave⟩ := chisaiFormat_eq_ok he
  rw [hcnt] at hge hg
  rw [superblockLoad_save hsave hl, promises_iff hsb, hg]
  refine ⟨fun h => h.count hge, fun hcut => ⟨fun hn => ?_, fun h => h.count hge⟩⟩
  exact formatSound_of_count hb hpos hcut hn

/-- The smallest device with one group. -/
theorem format_promises_smallDisk :
    ∃ d' sb, chisaiFormat 512 5123 ⟨smallDisk.size, fun _ => 255⟩ = .ok d' ∧
      superblockLoad d' = .ok sb ∧ Promises 512 smallDisk.size sb := by
  have hrun : Yields (chisaiFormat 512 5123 ⟨smallDisk.size, fun _ => 255⟩) fun d' =>
      Yields (superblockLoad d') fun _ => True := by
    decide +kernel
  obtain ⟨d', he, sb, hl, -⟩ := hrun
  have hpromises := @format_promises 512 5123 _ d' sb ⟨9, rfl⟩ (by decide) rfl he hl
  exact ⟨d', sb, he, hl, hpromises.1 ⟨rfl, by decide⟩⟩

/-- A device of 4225 sectors of 4096 bytes gets a group of eight times its size. -/
theorem format_overcommits :
    ∃ d' sb, chisaiFormat 4096 33800 ⟨17305600, fun _ => 0⟩ = .ok d' ∧
      superblockLoad d' = .ok sb ∧ sb.groups = 1 ∧ ¬ Promises 4096 17305600 sb := by
  have hrun : Yields (chisaiFormat 4096 33800 ⟨17305600, fun _ => 0⟩) fun d' =>
      Yields (superblockLoad d') fun sb => sb.groups = 1 := by
    decide +kernel
  obtain ⟨d', he, sb, hl, hg⟩ := hrun
  refine ⟨d', sb, he, hl, hg, fun hp => ?_⟩
  have hin := hp.inside
  rw [hg] at hin
  exact absurd hin (by decide)

end Format

end ChisaiFs
