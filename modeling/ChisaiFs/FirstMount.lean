import ChisaiFs.Format
import ChisaiFs.Remount
import ChisaiFs.Counters

/-! The first mount after a format. The format writes the superblock only, so the bitmaps of the
first mount are what the device held before, or, for groups behind its end, what the operating
system leaves in their place. -/

namespace ChisaiFs
open Cells Outcome Placement

namespace Stray

/-- `bitvec_init` and the read of a bitmap: short at the end of the device, left to the operating
system behind it. -/
def bitmap (e : Stray) (d : Device) (off blkSize : ℕ) : Exec (List UInt8) :=
  if off ≤ d.size then
    let got := slice d.bytes off (min blkSize (d.size - off))
    .ok (got ++ (bitvecInit blkSize).inner.drop got.length)
  else do
    let bytes ← e.load 0 off
    return slice bytes 0 blkSize

def blkgrpsLoadFrom (e : Stray) (d : Device) (blkSize blkgrpSize : ℕ) :
    ℕ → ℕ → Exec (List GroupMap × List GroupMap)
  | _, 0 => .ok ([], [])
  | i, n + 1 => do
    let off := blkSize + blkgrpSize * i
    let data ← e.bitmap d off blkSize
    let inode ← e.bitmap d (off + blkSize) blkSize
    let (ds, is) ← e.blkgrpsLoadFrom d blkSize blkgrpSize (i + 1) n
    return (blkgrpUpdateNext ⟨⟨data⟩, 0⟩ :: ds, blkgrpUpdateNext ⟨⟨inode⟩, 0⟩ :: is)

def blkgrpsLoad (e : Stray) (d : Device) (blkSize groups : UInt32) : Exec BlockGroups :=
  if groups = 0 then .error .outOfRange
  else do
    let (data, inode) ← e.blkgrpsLoadFrom d blkSize.toNat (blkgrpBytes blkSize) 0 groups.toNat
    return ⟨groups, blkSize * byteBits, blkgrpBytes blkSize, data, inode⟩

/-- `fs_init`. Only the bitmaps can be behind the end of a device that holds a group. -/
def fsInit (e : Stray) (fs : Filesystem) : Exec Filesystem := do
  let sb ← superblockLoad fs.d
  let blkSize := sb.blockSize
  assertThat (fs.blkgrpSize = 0)
  let blkGrps ← e.blkgrpsLoad fs.d blkSize sb.groups
  if sb.magic ≠ magic then .error .die
  let fs : Filesystem :=
    { sb := sb, blkGrps := blkGrps, d := fs.d, blkgrpSize := blkgrpBytes blkSize }
  let fs ← if ← blkgrpsInodeExist fs.blkGrps rootInode then .ok fs else fsCreateRoot fs
  assertThat (inodeCodec.width ≤ inodeSize.toNat)
  assertThat (dirCodec.width ≤ blkSize.toNat)
  return fs

/-- The block at `off` reads as zeros: its bytes are, as far as they are on the device, or, if it
begins behind the end, those that the operating system delivers. -/
def ReadsZero (e : Stray) (d : Device) (off blkSize : ℕ) : Prop :=
  if off ≤ d.size then ∀ p < blkSize, off + p < d.size → d.bytes (off + p) = 0
  else Yields (e.load 0 off) fun bytes => ∀ p < blkSize, bytes p = 0

end Stray

def GroupMap.Searched (m : GroupMap) : Prop := m.next = UInt32.ofNat (bitvecFindFirstSet m.bitmap)

section First

variable {geo : Geometry} {fs : Filesystem} {b k : ℕ} {m : GroupMap} {ms : List GroupMap}

theorem GroupMap.Searched.next_eq (hs : m.Searched) (hsize : m.bitmap.size = b) (hk : k < 8 * b)
    (hclear : m.bitmap.bit k = false) (hset : ∀ j < k, m.bitmap.bit j = true) :
    m.next = UInt32.ofNat (k + 1) := by
  have hspec := bitvecFindFirstSet_spec m.bitmap
  rw [hsize] at hspec
  rcases hspec with ⟨-, hall⟩ | ⟨k', -, he, hclear', hset'⟩
  · rw [hall k hk] at hclear
    cases hclear
  · have hkk : k' = k := by
      rcases Nat.lt_trichotomy k' k with hlt | heq | hlt
      · rw [hset k' hlt] at hclear'
        cases hclear'
      · exact heq
      · rw [hset' k hlt] at hclear
        cases hclear
    rw [hs, he, hkk]

theorem blkgrpsAllocFrom_first {n : UInt32} (hm : m.Ok b) (hb : 8 * b < 2 ^ 32) (hs : m.Searched)
    (hk : k < 8 * b) (hclear : m.bitmap.bit k = false) (hset : ∀ j < k, m.bitmap.bit j = true) :
    ∃ m', blkgrpsAllocFrom n 0 (m :: ms) = .ok (UInt32.ofNat (k + 1), m' :: ms) ∧ m'.Ok b ∧
      m'.Searched ∧ ∀ j, m'.bitmap.bit j = (j == k || m.bitmap.bit j) := by
  have hnext := hs.next_eq hm.size hk hclear hset
  have hnat : m.next.toNat = k + 1 := by
    rw [hnext, toNat_ofNat_of_lt (by omega)]
  have hne : m.next ≠ 0 := by
    intro h0
    rw [h0, UInt32.toNat_zero] at hnat
    omega
  have hfull : ¬ m.Full := by
    intro hfull
    rw [(full_iff hm.size hb).mp hfull k hk] at hclear
    cases hclear
  obtain ⟨m', he, hm', -, hbits⟩ := blkgrpAlloc_of_next hm hb hne
  obtain ⟨bitmap, hbitmap, hupdate⟩ := bind_eq_ok.mp he
  rw [pure_eq_ok, Prod.mk.injEq] at hupdate
  refine ⟨m', ?_, hm', ?_, ?_⟩
  · rw [blkgrpsAllocFrom_free hfull, he, ok_bind, ← hnext]
    simp only [UInt32.zero_mul, UInt32.zero_add]
    rfl
  · rw [← hupdate.2]
    rfl
  · intro j
    rw [hbits, hnat, Nat.add_sub_cancel]

theorem fsDataAlloc_first (h : Mounted geo fs) (hg : fs.blkGrps.data = m :: ms) (hs : m.Searched)
    (hclear : m.bitmap.bit 0 = false) :
    ∃ fs', fsDataAlloc fs = .ok (1, fs') ∧ fs'.blkGrps.inode = fs.blkGrps.inode := by
  have hm : m.Ok geo.blkSize := h.groups.data m (hg ▸ List.mem_cons_self)
  have hpos := geo.perGroup_pos
  obtain ⟨m', he, -⟩ := @blkgrpsAllocFrom_first _ 0 m ms fs.blkGrps.blkInodeNum hm geo.perGroup_lt
    hs hpos hclear fun j hj => absurd hj (Nat.not_lt_zero j)
  rw [fsDataAlloc, blkgrpsDataAlloc, hg, he]
  exact ⟨_, rfl, rfl⟩

theorem fsInodeAlloc_first (h : Mounted geo fs) (hg : fs.blkGrps.inode = m :: ms) (hs : m.Searched)
    (hk : k < geo.perGroup) (hclear : m.bitmap.bit k = false)
    (hset : ∀ j < k, m.bitmap.bit j = true) :
    ∃ fs' m', fsInodeAlloc fs = .ok (UInt32.ofNat (k + 1), fs') ∧
      fs'.blkGrps.inode = m' :: ms ∧ m'.Searched ∧
      ∀ j, m'.bitmap.bit j = (j == k || m.bitmap.bit j) := by
  have hm : m.Ok geo.blkSize := h.groups.inode m (hg ▸ List.mem_cons_self)
  have hlt := geo.perGroup_lt
  obtain ⟨m', he, -, hs', hbits⟩ := @blkgrpsAllocFrom_first _ k m ms fs.blkGrps.blkInodeNum hm hlt
    hs hk hclear hset
  have hne : UInt32.ofNat (k + 1) ≠ 0 := by
    intro h0
    have hnat := congrArg UInt32.toNat h0
    rw [toNat_ofNat_of_lt (by omega), UInt32.toNat_zero] at hnat
    omega
  rw [fsInodeAlloc, blkgrpsInodeAlloc, hg, he]
  refine ⟨{ fs with
      blkGrps := { fs.blkGrps with inode := m' :: ms }
      sb := { fs.sb with freeInodes := fs.sb.freeInodes - 1 } }, m', ?_, rfl, hs', hbits⟩
  simp only [ok_bind, pure, Except.pure, hne, if_false]

theorem fsCreateRoot_first (h : Mounted geo fs) {ms' : List GroupMap} {m' : GroupMap}
    (hdata : fs.blkGrps.data = m' :: ms') (hs' : m'.Searched)
    (hclear' : m'.bitmap.bit 0 = false) (hinode : fs.blkGrps.inode = m :: ms) (hs : m.Searched)
    (hclear : ∀ j, m.bitmap.bit j = false) : ∃ fs', fsCreateRoot fs = .ok fs' := by
  have hmin := geo.min_size
  have hper : geo.perGroup = 8 * geo.blkSize := rfl
  obtain ⟨fs₁, h₁, hg₁⟩ := fsDataAlloc_first h hdata hs' hclear'
  obtain ⟨hm₁, -, hcase⟩ := fsDataAlloc_spec h h₁
  have hblk : geo.InRange 1 := (hcase.resolve_left fun hc => absurd hc.1 (by decide)).1
  obtain ⟨fs₂, h₂⟩ := fsSaveDir_ok hm₁ dirInit hblk
  obtain ⟨hm₂, -, hg₂, -⟩ := fsSaveDir_spec hm₁ h₂
  obtain ⟨fs₃, m₃, h₃, hg₃, hs₃, hbits₃⟩ := @fsInodeAlloc_first geo fs₂ 0 m ms hm₂
    (by rw [hg₂, hg₁, hinode]) hs (by omega) (hclear 0) fun j hj => absurd hj (Nat.not_lt_zero j)
  have hm₃ := (fsInodeAlloc_spec hm₂ h₃).1
  obtain ⟨fs₄, m₄, h₄, -⟩ := @fsInodeAlloc_first geo fs₃ 1 m₃ ms hm₃ hg₃ hs₃ (by omega)
    (by rw [hbits₃, hclear]; rfl) fun j hj => by rw [Nat.lt_one_iff.mp hj, hbits₃]; rfl
  obtain ⟨hm₄, -, hcase⟩ := fsInodeAlloc_spec hm₃ h₄
  have hroot : geo.InRange rootInode := (hcase.resolve_left fun hc => absurd hc.1 (by decide)).1
  obtain ⟨fs₅, h₅⟩ := fsSaveInode_ok hm₄ rootInodeRec hroot
  have h₃ : fsInodeAlloc fs₂ = .ok (badblkInode, fs₃) := h₃
  have h₄ : fsInodeAlloc fs₃ = .ok (rootInode, fs₄) := h₄
  refine ⟨fs₅, ?_⟩
  unfold fsCreateRoot
  simp only [h₁, h₂, h₃, h₄, ok_bind, assertThat, ↓reduceIte]
  exact h₅

end First

def setBits (n : ℕ) (ms : List GroupMap) : ℕ :=
  ((Finset.range (ms.length * n)).filter fun p => bitAt n ms p = true).card

section Counts

variable {geo : Geometry} {fs fs' : Filesystem} {ms ms' : List GroupMap} {k : ChisaiSize}

theorem setBits_eq_zero {n : ℕ} :
    setBits n ms = 0 ↔ ∀ p < ms.length * n, bitAt n ms p = false := by
  rw [setBits, Finset.card_eq_zero, Finset.filter_eq_empty_iff]
  simp only [Finset.mem_range, Bool.not_eq_true]

theorem setBits_of_zeros {n : ℕ} (h : ∀ m ∈ ms, ∀ x ∈ m.bitmap.inner, x = 0) :
    setBits n ms = 0 := by
  rw [setBits_eq_zero]
  intro p _
  unfold bitAt
  cases hm : ms[p / n]? with
  | none => rfl
  | some m => exact bit_of_zeros (h m (List.mem_of_getElem? hm)) _

theorem setBits_alloc (h : AllocSpec geo.blkSize 0 ms k ms') (hk : k ≠ 0) :
    setBits geo.perGroup ms' = setBits geo.perGroup ms + 1 := by
  rcases h.cases with ⟨h0, -⟩ | ⟨p, hp, -, hclear, hbits⟩
  · exact absurd h0 hk
  · have hclear : bitAt geo.perGroup ms p = false := hclear
    have hbits : ∀ q, bitAt geo.perGroup ms' q = (q == p || bitAt geo.perGroup ms q) := hbits
    have hinsert : (Finset.range (ms'.length * geo.perGroup)).filter
        (fun q => bitAt geo.perGroup ms' q = true) =
          insert p ((Finset.range (ms.length * geo.perGroup)).filter
            fun q => bitAt geo.perGroup ms q = true) := by
      ext q
      rw [h.length, Finset.mem_insert, Finset.mem_filter, Finset.mem_filter, Finset.mem_range,
        hbits, Bool.or_eq_true, beq_iff_eq]
      constructor
      · rintro ⟨hq, rfl | hset⟩
        · exact Or.inl rfl
        · exact Or.inr ⟨hq, hset⟩
      · rintro (rfl | ⟨hq, hset⟩)
        · exact ⟨hp, Or.inl rfl⟩
        · exact ⟨hq, Or.inr hset⟩
    rw [setBits, hinsert, Finset.card_insert_of_notMem, setBits]
    rw [Finset.mem_filter, hclear]
    simp

theorem fsCreateRoot_setBits (h : Mounted geo fs) (he : fsCreateRoot fs = .ok fs') :
    setBits geo.perGroup fs'.blkGrps.data = setBits geo.perGroup fs.blkGrps.data + 1 ∧
      setBits geo.perGroup fs'.blkGrps.inode = setBits geo.perGroup fs.blkGrps.inode + 2 := by
  obtain ⟨fs₁, fs₂, fs₃, fs₄, h₁, h₂, h₃, h₄, h₅⟩ := fsCreateRoot_eq_ok he
  have hm₁ := (fsDataAlloc_spec h h₁).1
  obtain ⟨hm₂, -, hg₂, -⟩ := fsSaveDir_spec hm₁ h₂
  have hm₃ := (fsInodeAlloc_spec hm₂ h₃).1
  have hm₄ := (fsInodeAlloc_spec hm₃ h₄).1
  obtain ⟨-, -, hg₅, -⟩ := fsSaveInode_spec hm₄ h₅
  obtain ⟨ds, hd, rfl⟩ := fsDataAlloc_eq_ok h h₁
  obtain ⟨is, hi, rfl⟩ := fsInodeAlloc_eq_ok hm₂ h₃
  obtain ⟨is', hi', rfl⟩ := fsInodeAlloc_eq_ok hm₃ h₄
  rw [hg₂] at hi
  rw [hg₅]
  dsimp only at hi hi' ⊢
  rw [hg₂]
  exact ⟨setBits_alloc hd (by decide), by
    rw [setBits_alloc hi' (by decide), setBits_alloc hi (by decide)]⟩

end Counts

section Groups

variable {geo : Geometry} {d d₁ : Device} {fs : Filesystem} {grps : BlockGroups}

theorem blkgrpsLoadFrom_ok {b size i n : ℕ} (hfit : b + size * (i + n) ≤ d.size)
    (hgroup : 2 * b ≤ size) : ∃ r, blkgrpsLoadFrom d b size i n = .ok r := by
  induction n generalizing i with
  | zero => exact ⟨_, rfl⟩
  | succ n ih =>
    have hnext : size * (i + (n + 1)) = size * i + size + size * n := by ring
    have hrest : size * (i + 1 + n) = size * i + size + size * n := by ring
    obtain ⟨r, hr⟩ := @ih (i + 1) (by omega)
    have hdata : b + size * i + b ≤ d.size := by omega
    have hinode : b + size * i + b + b ≤ d.size := by omega
    unfold blkgrpsLoadFrom
    dsimp only
    rw [deviceDataLoad_eq_ok.mpr ⟨hdata, rfl⟩, deviceDataLoad_eq_ok.mpr ⟨hinode, rfl⟩, hr]
    exact ⟨_, rfl⟩

theorem blkgrpsLoad_ok (hgroups : 1 ≤ geo.groups) (hsize : d.size = geo.size) :
    ∃ grps, blkgrpsLoad d (UInt32.ofNat geo.blkSize) (UInt32.ofNat geo.groups) = .ok grps := by
  have harea := geo.area_fits
  have hg := geo.groupSize_eq
  have hfit : geo.blkSize + geo.groupSize * (0 + geo.groups) ≤ d.size := by
    rw [Nat.zero_add, Nat.mul_comm, hsize]
    exact harea
  obtain ⟨r, hr⟩ := blkgrpsLoadFrom_ok hfit (by omega)
  have hne : UInt32.ofNat geo.groups ≠ 0 := by
    intro h0
    have hnat := congrArg UInt32.toNat h0
    rw [geo.groups_toNat, UInt32.toNat_zero] at hnat
    omega
  unfold blkgrpsLoad
  rw [if_neg hne, geo.blkSize_toNat, geo.groups_toNat, blkgrpBytes_geometry, hr]
  exact ⟨_, rfl⟩

theorem byte_eq_zero (x : UInt8) : (∀ p < 8, x.toNat.testBit p = false) → x = 0 := by
  revert x
  apply forall_byte
  decide +kernel

theorem zeros_of_setBits {f : ℕ → ℕ} {g : ℕ}
    (h : setBits geo.perGroup ((List.range' 0 g).map fun j => loadedMap d (f j) geo.blkSize) = 0)
    {j q : ℕ}
    (hj : j < g) (hq : q < geo.blkSize) : d.bytes (f j + q) = 0 := by
  rw [setBits_eq_zero] at h
  refine byte_eq_zero _ fun p hp => ?_
  have hlt : 8 * q + p < geo.perGroup := by
    unfold Geometry.perGroup
    omega
  have hin : j * geo.perGroup + (8 * q + p) < g * geo.perGroup := by
    have hsep := Geometry.group_sep hj geo.perGroup
    omega
  have hbit := h (j * geo.perGroup + (8 * q + p)) (by simpa using hin)
  have hdiv : (j * geo.perGroup + (8 * q + p)) / geo.perGroup = j := by
    rw [Nat.mul_comm, Nat.mul_add_div geo.perGroup_pos, Nat.div_eq_of_lt hlt, Nat.add_zero]
  have hmod : (j * geo.perGroup + (8 * q + p)) % geo.perGroup = 8 * q + p := by
    rw [Nat.mul_comm, Nat.mul_add_mod, Nat.mod_eq_of_lt hlt]
  have hbyte : (8 * q + p) / 8 = q ∧ (8 * q + p) % 8 = p := by omega
  rw [bitAt, hdiv, hmod] at hbit
  simpa [hj, loadedMap, blkgrpUpdateNext, Bitvec.bit, hbyte, hq, slice] using hbit

end Groups

/-- The device with `n` bytes, which has the bytes of `f` from byte `m` on. -/
def Device.recast (d : Device) (m n : ℕ) (f : ℕ → UInt8) : Device :=
  ⟨n, fun p => if p < m then d.bytes p else f p⟩

def Filesystem.recast (fs : Filesystem) (m n : ℕ) (f : ℕ → UInt8) : Filesystem :=
  { fs with d := fs.d.recast m n f }

section Recast

variable {fs fs' : Filesystem} {d d' : Device} {k : ChisaiSize} {b m n off len : ℕ} {buf : List UInt8}
  {f : ℕ → UInt8}

theorem deviceDataLoad_recast (hd : off + len ≤ d.size) (hm : off + len ≤ m) (hn : m ≤ n) :
    deviceDataLoad (d.recast m n f) off len = deviceDataLoad d off len := by
  rw [deviceDataLoad_eq_ok.mpr ⟨hd, rfl⟩]
  refine deviceDataLoad_eq_ok.mpr ⟨hm.trans hn, slice_congr fun k hk => ?_⟩
  exact if_pos (by omega)

theorem deviceDataSave_recast (he : deviceDataSave d off buf = .ok d')
    (hm : off + buf.length ≤ m) (hn : m ≤ n) :
    deviceDataSave (d.recast m n f) off buf = .ok (d'.recast m n f) := by
  obtain ⟨-, rfl⟩ := deviceDataSave_eq_ok.mp he
  refine deviceDataSave_eq_ok.mpr ⟨hm.trans hn, congrArg (Device.mk n) (funext fun p => ?_)⟩
  unfold overwrite
  by_cases hp : p < m
  · simp only [hp, ↓reduceIte, Device.recast]
  · have hout : ¬ (off ≤ p ∧ p < off + buf.length) := by omega
    simp only [hp, ↓reduceIte, Device.recast]
    split_ifs <;> first | rfl | omega

theorem Placed.congr (h : Placed b fs) (hb : fs'.sb.blockSize = fs.sb.blockSize)
    (hp : fs'.sb.dataBlockPerGroups = fs.sb.dataBlockPerGroups)
    (hg : fs'.blkgrpSize = fs.blkgrpSize) : Placed b fs' :=
  ⟨hb ▸ h.blockSize, hp ▸ h.perGroup, hg ▸ h.groupSize, h.pos, h.fits⟩

theorem fsDataAlloc_recast (he : fsDataAlloc fs = .ok (k, fs')) :
    fsDataAlloc (fs.recast m n f) = .ok (k, fs'.recast m n f) ∧ (Placed b fs → Placed b fs') := by
  obtain ⟨⟨idx, grps⟩, ha, he⟩ := bind_eq_ok.mp he
  have ha' : blkgrpsDataAlloc (fs.recast m n f).blkGrps = .ok (idx, grps) := ha
  rw [fsDataAlloc, ha', ok_bind]
  dsimp only at he ⊢
  split_ifs at he ⊢
  all_goals
    cases he
    exact ⟨rfl, fun h => h.congr rfl rfl rfl⟩

theorem fsInodeAlloc_recast (he : fsInodeAlloc fs = .ok (k, fs')) :
    fsInodeAlloc (fs.recast m n f) = .ok (k, fs'.recast m n f) ∧ (Placed b fs → Placed b fs') := by
  obtain ⟨⟨idx, grps⟩, ha, he⟩ := bind_eq_ok.mp he
  have ha' : blkgrpsInodeAlloc (fs.recast m n f).blkGrps = .ok (idx, grps) := ha
  rw [fsInodeAlloc, ha', ok_bind]
  dsimp only at he ⊢
  split_ifs at he ⊢
  all_goals
    cases he
    exact ⟨rfl, fun h => h.congr rfl rfl rfl⟩

theorem fsSaveDir_recast {dir : Dir} (he : fsSaveDir fs dir k = .ok fs')
    (hm : fsDataToOffset fs k + dirCodec.width ≤ m) (hn : m ≤ n) :
    fsSaveDir (fs.recast m n f) dir k = .ok (fs'.recast m n f) ∧ (Placed b fs → Placed b fs') := by
  obtain ⟨d, hd, he⟩ := bind_eq_ok.mp he
  cases he
  rw [← dirCodec.length_enc dir] at hm
  have hd' : deviceDataSave (fs.recast m n f).d (fsDataToOffset (fs.recast m n f) k)
      (dirCodec.enc dir) = .ok (d.recast m n f) := deviceDataSave_recast hd hm hn
  refine ⟨?_, fun h => h.congr rfl rfl rfl⟩
  unfold fsSaveDir dirSave
  rw [hd']
  rfl

theorem fsSaveInode_recast {x : Inode} (he : fsSaveInode fs x k = .ok fs')
    (hm : fsInodeToOffset fs k + inodeCodec.width ≤ m) (hn : m ≤ n) :
    fsSaveInode (fs.recast m n f) x k = .ok (fs'.recast m n f) := by
  obtain ⟨d, hd, he⟩ := bind_eq_ok.mp he
  cases he
  rw [← inodeCodec.length_enc x] at hm
  have hd' : deviceDataSave (fs.recast m n f).d (fsInodeToOffset (fs.recast m n f) k)
      (inodeCodec.enc x) = .ok (d.recast m n f) := deviceDataSave_recast hd hm hn
  unfold fsSaveInode inodeSave
  rw [hd']
  rfl

theorem Placed.root_le (h : Placed b fs) (hmin : 512 ≤ b) :
    fsDataToOffset fs 1 + dirCodec.width ≤ b + groupBytes b ∧
      fsInodeToOffset fs rootInode + inodeCodec.width ≤ b + groupBytes b := by
  have hdir : dirCodec.width ≤ 512 := by decide
  have hinode : inodeCodec.width ≤ 128 := by decide
  have h1 : (1 - 1 : ChisaiSize).toNat = 0 := rfl
  have h2 : (rootInode - 1 : ChisaiSize).toNat = 1 := rfl
  have htotal : total (groupAreas b) = groupBytes b := total_groupAreas
  rw [h.fsDataToOffset_eq, h.fsInodeToOffset_eq, h1, h2]
  have hblk := @Cell.Valid.end_le (groupAreas b) b (blkCell b 0) 1 (blkCell_valid h.pos)
    (by rw [blkCell, Nat.zero_div]; exact Nat.one_pos)
  have hslot := @Cell.Valid.end_le (groupAreas b) b (slotCell b 1) 1 (slotCell_valid h.pos)
    (by rw [slotCell, Nat.div_eq_of_lt (by omega)]; exact Nat.one_pos)
  have hw : (blkCell b 0).width (groupAreas b) = b := rfl
  have hw' : (slotCell b 1).width (groupAreas b) = 128 := rfl
  rw [htotal, hw] at hblk
  rw [htotal, hw'] at hslot
  omega

theorem fsCreateRoot_recast (hp : Placed b fs) (hmin : 512 ≤ b) (hm : b + groupBytes b ≤ m)
    (hn : m ≤ n) (he : fsCreateRoot fs = .ok fs') :
    fsCreateRoot (fs.recast m n f) = .ok (fs'.recast m n f) := by
  obtain ⟨fs₁, fs₂, fs₃, fs₄, h₁, h₂, h₃, h₄, h₅⟩ := fsCreateRoot_eq_ok he
  obtain ⟨hr₁, hp₁⟩ := @fsDataAlloc_recast fs fs₁ 1 b m n f h₁
  have hp₁ := hp₁ hp
  obtain ⟨hr₂, hp₂⟩ := @fsSaveDir_recast fs₁ fs₂ 1 b m n f dirInit h₂
    ((hp₁.root_le hmin).1.trans hm) hn
  obtain ⟨hr₃, hp₃⟩ := @fsInodeAlloc_recast fs₂ fs₃ badblkInode b m n f h₃
  obtain ⟨hr₄, hp₄⟩ := @fsInodeAlloc_recast fs₃ fs₄ rootInode b m n f h₄
  have hp₄ := hp₄ (hp₃ (hp₂ hp₁))
  have hr₅ := @fsSaveInode_recast fs₄ fs' rootInode m n f _ h₅ ((hp₄.root_le hmin).2.trans hm) hn
  unfold fsCreateRoot
  simp only [hr₁, hr₂, hr₃, hr₄, ok_bind, assertThat, ↓reduceIte]
  exact hr₅

end Recast

/-- The path `/` is inode 2, an empty directory in block 1; one data bit and two inode bits are
set, and the counters are the totals less one and two. -/
structure Empty (fs : Filesystem) : Prop where
  root : ∃ x dir, fsPathToInode fs [slash] = .ok (some (rootInode, x)) ∧ sIsdir x.mode ∧
    x.directBlks[0] = 1 ∧ fsFindDir fs 1 = .ok (some dir) ∧ dir.size = 0
  data : setBits fs.sb.dataBlockPerGroups.toNat fs.blkGrps.data = 1
  inode : setBits fs.sb.dataBlockPerGroups.toNat fs.blkGrps.inode = 2
  freeBlocks : fs.sb.freeBlocks.toNat = fs.sb.blocksCnt.toNat - 1
  freeInodes : fs.sb.freeInodes.toNat = fs.sb.inodesCnt.toNat - 2

def Geometry.BitmapAt (geo : Geometry) (off : ℕ) : Prop :=
  ∃ j < geo.groups, off = geo.blkSize + geo.groupSize * j ∨
    off = geo.blkSize + geo.groupSize * j + geo.blkSize

/-- The device of a geometry that has the bitmaps `m` and is `d` elsewhere. -/
def Device.holding (geo : Geometry) (d : Device) (m : ℕ → List UInt8) : Device where
  size := geo.size
  bytes p :=
    let j := (p - geo.blkSize) / geo.groupSize
    let r := (p - geo.blkSize) % geo.groupSize
    if p < geo.blkSize then d.bytes p
    else if r < geo.blkSize then (m (geo.blkSize + geo.groupSize * j)).getD r 0
    else if r < 2 * geo.blkSize then
      (m (geo.blkSize + geo.groupSize * j + geo.blkSize)).getD (r - geo.blkSize) 0
    else d.bytes p

section Bitmaps

variable {e : Stray} {geo : Geometry} {d : Device} {m : ℕ → List UInt8} {v : List UInt8}
  {off b p i n : ℕ}

theorem Stray.bitmap_size (h : e.bitmap d off b = .ok v) : v.length = b := by
  unfold bitmap at h
  split_ifs at h
  · cases h
    simp [bitvecInit]
  · obtain ⟨bytes, -, he⟩ := bind_eq_ok.mp h
    cases he
    exact slice_length _ _ _

/-- What is on the device is read from there. -/
theorem Stray.bitmap_getD (h : e.bitmap d off b = .ok v) (hp : p < b) (hd : off + p < d.size) :
    v.getD p 0 = d.bytes (off + p) := by
  unfold bitmap at h
  rw [if_pos (by omega)] at h
  cases h
  have hlt : p < (slice d.bytes off (min b (d.size - off))).length := by
    rw [slice_length]
    omega
  rw [List.getD_append _ _ _ _ hlt, List.getD_eq_getElem _ _ hlt, getElem_slice]

theorem Stray.readsZero_iff :
    e.ReadsZero d off b ↔ Yields (e.bitmap d off b) fun v => ∀ p < b, v.getD p 0 = 0 := by
  unfold ReadsZero
  split_ifs with hoff
  · constructor
    · intro hz
      obtain ⟨v, hv⟩ : ∃ v, e.bitmap d off b = .ok v := ⟨_, if_pos hoff⟩
      refine ⟨v, hv, fun p hp => ?_⟩
      by_cases hd : off + p < d.size
      · rw [bitmap_getD hv hp hd]
        exact hz p hp hd
      · rw [bitmap, if_pos hoff] at hv
        cases hv
        rw [List.getD_append_right _ _ _ _ (by rw [slice_length]; omega), List.getD_eq_getElem?_getD,
          List.getElem?_drop, bitvecInit, List.getElem?_replicate]
        split_ifs <;> rfl
    · rintro ⟨v, hv, hz⟩ p hp hd
      rw [← bitmap_getD hv hp hd]
      exact hz p hp
  · unfold bitmap
    rw [if_neg hoff]
    constructor
    · rintro ⟨bytes, hload, hz⟩
      refine ⟨slice bytes 0 b, by rw [hload]; rfl, fun p hp => ?_⟩
      rw [List.getD_eq_getElem _ _ (by rwa [slice_length]), getElem_slice, Nat.zero_add]
      exact hz p hp
    · rintro ⟨v, hv, hz⟩
      obtain ⟨bytes, hload, hv⟩ := bind_eq_ok.mp hv
      cases hv
      refine ⟨bytes, hload, fun p hp => ?_⟩
      have hp' := hz p hp
      rwa [List.getD_eq_getElem _ _ (by rwa [slice_length]), getElem_slice, Nat.zero_add] at hp'

theorem Stray.readsZero_congr {d' : Device} (e : Stray) (hs : d'.size = d.size)
    (hd : ∀ p, off ≤ p → d'.bytes p = d.bytes p) : e.ReadsZero d' off b ↔ e.ReadsZero d off b := by
  unfold ReadsZero
  rw [hs]
  split_ifs
  · exact forall₂_congr fun p _ => by rw [hd _ (Nat.le_add_right off p)]
  · exact Iff.rfl

theorem Stray.ReadsZero.bitmap (h : e.ReadsZero d off b) :
    e.bitmap d off b = .ok (bitvecInit b).inner := by
  obtain ⟨v, hv, hz⟩ := readsZero_iff.mp h
  have hlen := bitmap_size hv
  rw [hv]
  refine congrArg Except.ok (List.ext_getElem (by rw [hlen]; exact List.length_replicate.symm) ?_)
  intro p hp hp'
  have hp0 := hz p (hlen ▸ hp)
  rw [List.getD_eq_getElem _ _ hp] at hp0
  simpa only [bitvecInit, List.getElem_replicate] using hp0

theorem Device.holding_bytes {j r : ℕ} (hr : r < geo.groupSize) :
    (d.holding geo m).bytes (geo.blkSize + geo.groupSize * j + r) =
      if r < geo.blkSize then (m (geo.blkSize + geo.groupSize * j)).getD r 0
      else if r < 2 * geo.blkSize then
        (m (geo.blkSize + geo.groupSize * j + geo.blkSize)).getD (r - geo.blkSize) 0
      else d.bytes (geo.blkSize + geo.groupSize * j + r) := by
  have hpos : 0 < geo.groupSize := by omega
  have hsub : geo.blkSize + geo.groupSize * j + r - geo.blkSize = geo.groupSize * j + r := by omega
  unfold holding
  dsimp only
  rw [hsub, Nat.mul_add_div hpos, Nat.div_eq_of_lt hr, Nat.mul_add_mod, Nat.mod_eq_of_lt hr,
    Nat.add_zero, if_neg (by omega)]

theorem Device.holding_slice (hoff : geo.BitmapAt off) (hlen : (m off).length = geo.blkSize) :
    deviceDataLoad (d.holding geo m) off geo.blkSize = .ok (m off) := by
  obtain ⟨j, hj, hoff⟩ := hoff
  have hg := geo.groupSize_eq
  have harea := geo.area_fits
  have hsep := Geometry.group_sep hj geo.groupSize
  change geo.blkSize + geo.groups * geo.groupSize ≤ geo.size at harea
  rw [Nat.mul_comm] at hsep
  refine deviceDataLoad_eq_ok.mpr ⟨?_, ?_⟩
  · change off + geo.blkSize ≤ geo.size
    rw [Nat.mul_comm geo.groupSize] at hoff
    rw [Nat.mul_comm] at hsep
    omega
  · refine List.ext_getElem (by rw [slice_length, hlen]) fun p hp hp' => ?_
    have hlt : p < geo.blkSize := by rwa [hlen] at hp'
    rw [getElem_slice, ← List.getD_eq_getElem _ 0]
    rcases hoff with rfl | rfl
    · rw [Device.holding_bytes (by omega), if_pos hlt]
    · rw [Nat.add_assoc (_ + _), Device.holding_bytes (by omega), if_neg (by omega),
        if_pos (by omega), Nat.add_sub_cancel_left]

theorem Stray.blkgrpsLoadFrom_holding (hin : i + n ≤ geo.groups)
    (h : ∀ off, geo.BitmapAt off → e.bitmap d off geo.blkSize = .ok (m off)) :
    e.blkgrpsLoadFrom d geo.blkSize geo.groupSize i n =
      ChisaiFs.blkgrpsLoadFrom (d.holding geo m) geo.blkSize geo.groupSize i n := by
  induction n generalizing i with
  | zero => rfl
  | succ n ih =>
    have hdata : geo.BitmapAt (geo.blkSize + geo.groupSize * i) := ⟨i, by omega, Or.inl rfl⟩
    have hinode : geo.BitmapAt (geo.blkSize + geo.groupSize * i + geo.blkSize) :=
      ⟨i, by omega, Or.inr rfl⟩
    unfold blkgrpsLoadFrom ChisaiFs.blkgrpsLoadFrom
    dsimp only
    rw [h _ hdata, h _ hinode, Device.holding_slice hdata (bitmap_size (h _ hdata)),
      Device.holding_slice hinode (bitmap_size (h _ hinode)), ih (by omega)]

theorem Stray.blkgrpsLoad_holding
    (h : ∀ off, geo.BitmapAt off → e.bitmap d off geo.blkSize = .ok (m off)) :
    e.blkgrpsLoad d (UInt32.ofNat geo.blkSize) (UInt32.ofNat geo.groups) =
      ChisaiFs.blkgrpsLoad (d.holding geo m) (UInt32.ofNat geo.blkSize)
        (UInt32.ofNat geo.groups) := by
  unfold blkgrpsLoad ChisaiFs.blkgrpsLoad
  rw [geo.blkSize_toNat, geo.groups_toNat, blkgrpBytes_geometry,
    blkgrpsLoadFrom_holding (Nat.zero_add _).le h]

theorem Stray.bitmap_of_load {size : ℕ} {r : List GroupMap × List GroupMap}
    (he : e.blkgrpsLoadFrom d b size i n = .ok r) {j : ℕ} (hj : i ≤ j) (hj' : j < i + n) :
    (∃ v, e.bitmap d (b + size * j) b = .ok v) ∧ ∃ v, e.bitmap d (b + size * j + b) b = .ok v := by
  induction n generalizing i r with
  | zero => omega
  | succ n ih =>
    unfold blkgrpsLoadFrom at he
    obtain ⟨data, hdata, he⟩ := bind_eq_ok.mp he
    obtain ⟨inode, hinode, he⟩ := bind_eq_ok.mp he
    obtain ⟨r, hr, -⟩ := bind_eq_ok.mp he
    rcases hj.eq_or_lt with rfl | hlt
    · exact ⟨⟨data, hdata⟩, inode, hinode⟩
    · exact ih hr hlt (by omega)

theorem Stray.blkgrpsLoad_reads {grps : BlockGroups}
    (he : e.blkgrpsLoad d (UInt32.ofNat geo.blkSize) (UInt32.ofNat geo.groups) = .ok grps) :
    ∃ m : ℕ → List UInt8, ∀ off, geo.BitmapAt off → e.bitmap d off geo.blkSize = .ok (m off) := by
  unfold blkgrpsLoad at he
  split_ifs at he
  rw [geo.blkSize_toNat, geo.groups_toNat, blkgrpBytes_geometry] at he
  obtain ⟨r, hr, -⟩ := bind_eq_ok.mp he
  refine ⟨fun off => match e.bitmap d off geo.blkSize with
    | .ok v => v
    | .error _ => [], ?_⟩
  rintro off ⟨j, hj, hoff⟩
  obtain ⟨hdata, hinode⟩ := bitmap_of_load hr (Nat.zero_le j) (by rwa [Nat.zero_add])
  have hread : ∃ v, e.bitmap d off geo.blkSize = .ok v := by
    rcases hoff with rfl | rfl
    · exact hdata
    · exact hinode
  obtain ⟨v, hv⟩ := hread
  simp only [hv]

theorem Stray.bitmap_unless (e : Stray) (d : Device) (off b : ℕ) :
    Unless .outsideDevice (deviceDataLoad d off b) (e.bitmap d off b) := by
  unfold deviceDataLoad bitmap
  by_cases hfit : off + b ≤ d.size
  · right
    have hmin : min b (d.size - off) = b := by omega
    simp [hfit, hmin, bitvecInit, show off ≤ d.size by omega]
  · exact Or.inl (if_neg hfit)

theorem Stray.blkgrpsLoadFrom_unless (e : Stray) (d : Device) (b size i n : ℕ) :
    Unless .outsideDevice (ChisaiFs.blkgrpsLoadFrom d b size i n)
      (e.blkgrpsLoadFrom d b size i n) := by
  induction n generalizing i with
  | zero => exact .refl _
  | succ n ih =>
    unfold ChisaiFs.blkgrpsLoadFrom blkgrpsLoadFrom
    exact (e.bitmap_unless _ _ _).bind fun _ => (e.bitmap_unless _ _ _).bind fun _ =>
      (ih (i + 1)).bind fun _ => .refl _

/-- The mount is the one of the source: where every bitmap is on the device it does the same. -/
theorem Stray.fsInit_unless (e : Stray) (fs : Filesystem) :
    Unless .outsideDevice (ChisaiFs.fsInit fs) (e.fsInit fs) := by
  unfold ChisaiFs.fsInit fsInit
  refine (Unless.refl _).bind fun sb => (Unless.refl _).bind fun _ => Unless.bind ?_ fun grps =>
    .refl _
  unfold ChisaiFs.blkgrpsLoad blkgrpsLoad
  split_ifs
  · exact .refl _
  · exact (e.blkgrpsLoadFrom_unless _ _ _ _ _).bind fun _ => .refl _

end Bitmaps

section Mount

variable {e : Stray} {geo : Geometry} {d : Device} {fs fs' : Filesystem} {b m n : ℕ}
  {f : ℕ → UInt8}

theorem Empty.recast (h : Empty fs) (hp : Placed b fs) (hmin : 512 ≤ b)
    (hd : b + groupBytes b ≤ fs.d.size) (hm : b + groupBytes b ≤ m) (hn : m ≤ n) :
    Empty (fs.recast m n f) := by
  obtain ⟨hblk, hslot⟩ := hp.root_le hmin
  have hinode : fsFindInode (fs.recast m n f) rootInode = fsFindInode fs rootInode := by
    have hload := @deviceDataLoad_recast fs.d m n _ _ f (hslot.trans hd) (hslot.trans hm) hn
    unfold fsFindInode inodeLoad
    rw [show (fs.recast m n f).d = fs.d.recast m n f from rfl,
      show fsInodeToOffset (fs.recast m n f) rootInode = fsInodeToOffset fs rootInode from rfl,
      hload]
    rfl
  have hdir : fsFindDir (fs.recast m n f) 1 = fsFindDir fs 1 := by
    have hload := @deviceDataLoad_recast fs.d m n _ _ f (hblk.trans hd) (hblk.trans hm) hn
    unfold fsFindDir dirLoad
    rw [show (fs.recast m n f).d = fs.d.recast m n f from rfl,
      show fsDataToOffset (fs.recast m n f) 1 = fsDataToOffset fs 1 from rfl, hload]
    rfl
  refine ⟨?_, h.data, h.inode, h.freeBlocks, h.freeInodes⟩
  rw [hdir]
  have hpath : fsPathToInode (fs.recast m n f) [slash] = fsPathToInode fs [slash] := by
    have htok : strtokSlash [slash] = [] := rfl
    unfold fsPathToInode
    rw [hinode, htok]
    rfl
  rw [hpath]
  exact h.root

theorem Stray.fsInit_eq_ok (he : e.fsInit fs = .ok fs') :
    ∃ sb grps, superblockLoad fs.d = .ok sb ∧
      e.blkgrpsLoad fs.d sb.blockSize sb.groups = .ok grps ∧
      ((blkgrpsInodeExist grps rootInode = .ok true ∧ fs' = loaded fs sb grps) ∨
        (blkgrpsInodeExist grps rootInode = .ok false ∧
          fsCreateRoot (loaded fs sb grps) = .ok fs')) := by
  obtain ⟨sb, hsb, he⟩ := bind_eq_ok.mp he
  obtain ⟨_, -, he⟩ := bind_eq_ok.mp he
  obtain ⟨grps, hgrps, he⟩ := bind_eq_ok.mp he
  refine ⟨sb, grps, hsb, hgrps, ?_⟩
  dsimp only at he
  split_ifs at he
  · cases he
  · obtain ⟨exist, hex, he⟩ := bind_eq_ok.mp he
    cases exist with
    | true =>
      left
      obtain ⟨fs₁, h₁, he⟩ := bind_eq_ok.mp he
      obtain ⟨_, -, he⟩ := bind_eq_ok.mp he
      obtain ⟨_, -, he⟩ := bind_eq_ok.mp he
      cases h₁
      cases he
      exact ⟨hex, rfl⟩
    | false =>
      right
      obtain ⟨fs₁, h₁, he⟩ := bind_eq_ok.mp he
      obtain ⟨_, -, he⟩ := bind_eq_ok.mp he
      obtain ⟨_, -, he⟩ := bind_eq_ok.mp he
      cases he
      exact ⟨hex, h₁⟩

theorem Stray.fsInit_of_created {sb : Superblock} {grps : BlockGroups}
    (hsb : superblockLoad fs.d = .ok sb) (hz : fs.blkgrpSize = 0) (hmagic : sb.magic = magic)
    (hgrps : e.blkgrpsLoad fs.d sb.blockSize sb.groups = .ok grps)
    (hex : blkgrpsInodeExist grps rootInode = .ok false)
    (hcreate : fsCreateRoot (loaded fs sb grps) = .ok fs')
    (hdir : dirCodec.width ≤ sb.blockSize.toNat) : e.fsInit fs = .ok fs' := by
  have hinode : inodeCodec.width ≤ inodeSize.toNat := by decide
  unfold loaded at hcreate
  unfold fsInit
  simp only [hsb, hz, hmagic, hgrps, hex, hcreate, hdir, hinode, ok_bind, assertThat, ↓reduceIte,
    ne_eq, not_true_eq_false, Bool.false_eq_true]
  rfl

theorem total_ge (hgroups : 1 ≤ geo.groups) : 4096 ≤ geo.groups * geo.perGroup := by
  have hmin := geo.min_size
  have hle := Nat.mul_le_mul_right geo.perGroup hgroups
  unfold Geometry.perGroup at hle ⊢
  omega

theorem first_fits (hgroups : 1 ≤ geo.groups) :
    geo.blkSize + groupBytes geo.blkSize ≤ geo.size := by
  have hle := Nat.mul_le_mul_right (groupBytes geo.blkSize) hgroups
  have harea := geo.area_fits
  unfold groupBytes at hle ⊢
  omega

theorem fsInit_of_formatted (hgroups : 1 ≤ geo.groups) (h : Formatted geo d) :
    ∃ fs, fsInit (unmounted d) = .ok fs := by
  have hmin := geo.min_size
  have htotal := total_ge hgroups
  obtain ⟨grps, hl⟩ := blkgrpsLoad_ok hgroups h.size
  obtain ⟨hok, -, -, hnone⟩ := blkgrpsLoad_formatted h hl
  obtain ⟨hdata, hinode⟩ := blkgrpsLoad_maps hl
  have hm := mounted_loaded h.size hok
  have hrange : geo.InRange rootInode := ⟨by decide, lt_of_lt_of_le (by decide) htotal⟩
  obtain ⟨r, hr⟩ := blkgrpsInodeExist_of_inRange hm hrange
  have hexist : blkgrpsInodeExist grps rootInode = .ok false := by
    cases r with
    | false => exact hr
    | true =>
      have hroot : rootInode ∈ usedSet geo.perGroup grps.inode :=
        (blkgrpsInodeExist_eq_ok hm hr).mp rfl
      rw [hnone] at hroot
      exact absurd hroot (Set.notMem_empty rootInode)
  obtain ⟨n, hn⟩ := Nat.exists_eq_succ_of_ne_zero (Nat.ne_of_gt hgroups)
  have hclear : ∀ off, off = 0 ∨ off = geo.blkSize → ∀ k,
      (loadedMap d (geo.blkSize + geo.groupSize * 0 + off) geo.blkSize).bitmap.bit k = false :=
    fun off hoff => bit_of_zeros (loadedMap_zeros h hgroups hoff)
  rw [hn, List.range'_succ, List.map_cons] at hdata hinode
  obtain ⟨fs, hcreate⟩ := fsCreateRoot_first hm hdata rfl (hclear 0 (Or.inl rfl) 0) hinode rfl
    (hclear _ (Or.inr rfl))
  refine ⟨fs, fsInit_of_created (superblockLoad_formatted h) rfl rfl hl hexist hcreate ?_⟩
  rw [show geo.superblock.blockSize = UInt32.ofNat geo.blkSize from rfl, geo.blkSize_toNat]
  exact dir_fits geo

theorem Empty.of_formatted (hgroups : 1 ≤ geo.groups) (h : Formatted geo d)
    (he : fsInit (unmounted d) = .ok fs) : Empty fs := by
  obtain ⟨grps, hl, -, hmounted, -, -, hcreate⟩ := fsInit_creates h he
  obtain ⟨hm, -, hv, hs⟩ := fsInit_formatted h he
  obtain ⟨hdata, hinode⟩ := fsCreateRoot_setBits hmounted hcreate
  obtain ⟨hd, hi⟩ := blkgrpsLoad_zeros h hl
  have htotal := total_ge hgroups
  have hcount : (UInt32.ofNat (geo.groups * geo.perGroup)).toNat = geo.groups * geo.perGroup :=
    toNat_ofNat_of_lt geo.total_lt
  have hne : UInt32.ofNat (geo.groups * geo.perGroup) ≠ 0 := by
    intro h0
    rw [h0, UInt32.toNat_zero] at hcount
    omega
  have hone := sub_one_toNat hne
  refine ⟨⟨rootInodeRec, dirInit, ?_, by decide, by decide, ?_, rfl⟩, ?_, ?_, ?_, ?_⟩
  · rw [(onlyRoot_of_fsInit h he).paths]
    rfl
  · refine (fsFindDir_iff hm).mpr ⟨?_, ?_⟩
    · rw [hv]
      exact Or.inl rfl
    · rw [hv]
      exact withRoot_dir _
  · rw [hm.perGroup, hdata, loaded, setBits_of_zeros hd]
  · rw [hm.perGroup, hinode, loaded, setBits_of_zeros hi]
  · rw [hs]
    exact hone
  · have hne' : UInt32.ofNat (geo.groups * geo.perGroup) - 1 ≠ 0 := by
      intro h0
      rw [h0, UInt32.toNat_zero] at hone
      omega
    rw [hs]
    change (UInt32.ofNat (geo.groups * geo.perGroup) - 1 - 1).toNat =
      (UInt32.ofNat (geo.groups * geo.perGroup)).toNat - 2
    rw [sub_one_toNat hne', hone]
    omega

theorem setBits_loaded {e : Stray} (hgroups : 1 ≤ geo.groups)
    {grps : BlockGroups}
    (hgrps : e.blkgrpsLoad d (UInt32.ofNat geo.blkSize) (UInt32.ofNat geo.groups) = .ok grps)
    (hcase : (blkgrpsInodeExist grps rootInode = .ok true ∧
        fs = loaded (unmounted d) geo.superblock grps) ∨
      (blkgrpsInodeExist grps rootInode = .ok false ∧
        fsCreateRoot (loaded (unmounted d) geo.superblock grps) = .ok fs))
    (hempty : Empty fs) :
    setBits geo.perGroup grps.data = 0 ∧ setBits geo.perGroup grps.inode = 0 := by
  have hmin := geo.min_size
  have htotal := total_ge hgroups
  obtain ⟨m, hreads⟩ := Stray.blkgrpsLoad_reads hgrps
  rw [Stray.blkgrpsLoad_holding hreads] at hgrps
  obtain ⟨hok, hprimed⟩ := blkgrpsLoad_geometry hgrps
  have hm : Mounted geo ((loaded (unmounted d) geo.superblock grps).recast
      (geo.blkSize + groupBytes geo.blkSize) geo.size d.bytes) :=
    @mounted_loaded geo (d.recast (geo.blkSize + groupBytes geo.blkSize) geo.size d.bytes) rfl grps
      hok
  have hp : Placed geo.blkSize (loaded (unmounted d) geo.superblock grps) :=
    hm.placed.congr rfl rfl rfl
  rcases hcase with ⟨-, rfl⟩ | ⟨-, hcreate⟩
  · have hfree := hempty.freeBlocks
    have hcount : (UInt32.ofNat (geo.groups * geo.perGroup)).toNat =
        (UInt32.ofNat (geo.groups * geo.perGroup)).toNat - 1 := hfree
    rw [toNat_ofNat_of_lt geo.total_lt] at hcount
    omega
  · have hbig := fsCreateRoot_recast (f := d.bytes) hp hmin (le_refl _) (first_fits hgroups) hcreate
    obtain ⟨hset, hset'⟩ := fsCreateRoot_setBits hm hbig
    have hper : fs.sb.dataBlockPerGroups.toNat = geo.perGroup :=
      (fsCreateRoot_volume hm hprimed hbig).1.perGroup
    have hone := hempty.data
    have htwo := hempty.inode
    rw [hper] at hone htwo
    exact ⟨Nat.succ.inj (hset.symm.trans hone),
      Nat.succ.inj (Nat.succ.inj (hset'.symm.trans htwo))⟩

theorem readsZero_of_setBits {e : Stray} {grps : BlockGroups}
    (hgrps : e.blkgrpsLoad d (UInt32.ofNat geo.blkSize) (UInt32.ofNat geo.groups) = .ok grps)
    (hzero : setBits geo.perGroup grps.data = 0) (hzero' : setBits geo.perGroup grps.inode = 0)
    {j : ℕ} (hj : j < geo.groups) :
    e.ReadsZero d (geo.blkSize + geo.groupSize * j) geo.blkSize ∧
      e.ReadsZero d (geo.blkSize + geo.groupSize * j + geo.blkSize) geo.blkSize := by
  have hg := geo.groupSize_eq
  obtain ⟨m, hreads⟩ := Stray.blkgrpsLoad_reads hgrps
  rw [Stray.blkgrpsLoad_holding hreads] at hgrps
  obtain ⟨hdata, hinode⟩ := blkgrpsLoad_maps hgrps
  rw [hdata] at hzero
  rw [hinode] at hzero'
  constructor
  · refine Stray.readsZero_iff.mpr ⟨_, hreads _ ⟨j, hj, Or.inl rfl⟩, fun p hp => ?_⟩
    have hz := zeros_of_setBits hzero hj hp
    rwa [Device.holding_bytes (by omega), if_pos hp] at hz
  · refine Stray.readsZero_iff.mpr ⟨_, hreads _ ⟨j, hj, Or.inr rfl⟩, fun p hp => ?_⟩
    have hz := zeros_of_setBits hzero' hj hp
    rwa [Nat.add_assoc (_ + _), Device.holding_bytes (by omega), if_neg (by omega),
      if_pos (by omega), Nat.add_sub_cancel_left] at hz

/-- The device with all bitmaps clear. -/
def Device.cleared (geo : Geometry) (d : Device) : Device :=
  d.holding geo fun _ => (bitvecInit geo.blkSize).inner

theorem Device.cleared_low {p : ℕ} (hp : p < geo.blkSize) : (d.cleared geo).bytes p = d.bytes p :=
  if_pos hp

theorem Device.cleared_bytes {j r : ℕ} (hr : r < geo.groupSize) :
    (d.cleared geo).bytes (geo.blkSize + geo.groupSize * j + r) =
      if r < 2 * geo.blkSize then 0 else d.bytes (geo.blkSize + geo.groupSize * j + r) := by
  have hz : ∀ p, (bitvecInit geo.blkSize).inner.getD p 0 = 0 := by
    intro p
    rw [List.getD_eq_getElem?_getD, bitvecInit, List.getElem?_replicate]
    split_ifs <;> rfl
  rw [cleared, holding_bytes hr, hz, hz]
  split_ifs <;> first | rfl | omega

theorem formatted_cleared
    (hsuper : slice d.bytes 0 superblockCodec.width = superblockCodec.enc geo.superblock) :
    Formatted geo (d.cleared geo) := by
  have hmin := geo.min_size
  have hg := geo.groupSize_eq
  have hw := superblockCodec_width
  refine ⟨rfl, ?_, fun j hj p hp => ?_⟩
  · rw [← hsuper]
    exact slice_congr fun k hk => Device.cleared_low (by omega)
  · rw [Nat.mul_comm, Device.cleared_bytes (by omega), if_pos hp]

/-- A device whose first bitmaps are clear has the same bytes in its first group. -/
theorem Device.cleared_recast {e : Stray} (hfirst : geo.blkSize + groupBytes geo.blkSize ≤ d.size)
    (hdata : e.ReadsZero d geo.blkSize geo.blkSize)
    (hinode : e.ReadsZero d (geo.blkSize + geo.blkSize) geo.blkSize) :
    (d.cleared geo).recast (geo.blkSize + groupBytes geo.blkSize) d.size d.bytes = d := by
  have hg := geo.groupSize_eq
  have hgb : groupBytes geo.blkSize = geo.groupSize := rfl
  rw [Stray.ReadsZero, if_pos (by omega)] at hdata hinode
  refine congrArg (Device.mk d.size) (funext fun p => ?_)
  split_ifs with hp
  · by_cases hlt : p < geo.blkSize
    · exact cleared_low hlt
    · obtain ⟨r, rfl⟩ := Nat.exists_eq_add_of_le (not_lt.mp hlt)
      have hbytes := @cleared_bytes geo d 0 r (by omega)
      rw [Nat.mul_zero, Nat.add_zero] at hbytes
      rw [hbytes]
      split_ifs with hr
      · by_cases hr' : r < geo.blkSize
        · exact (hdata r hr' (by omega)).symm
        · have hz := hinode (r - geo.blkSize) (by omega) (by omega)
          rw [← hz]
          exact congrArg d.bytes (by omega)
      · rfl
  · rfl

/-- With the superblock of a geometry on it, on a device that holds its first group, the first
mount gives an empty file system exactly when the bitmap blocks of all groups read as zeros. -/
theorem mount_empty_iff (e : Stray) (hgroups : 1 ≤ geo.groups)
    (hsuper : slice d.bytes 0 superblockCodec.width = superblockCodec.enc geo.superblock)
    (hfirst : geo.blkSize + groupBytes geo.blkSize ≤ d.size) :
    (∃ fs, e.fsInit (unmounted d) = .ok fs ∧ Empty fs) ↔
      ∀ j < geo.groups, e.ReadsZero d (geo.blkSize + geo.groupSize * j) geo.blkSize ∧
        e.ReadsZero d (geo.blkSize + geo.groupSize * j + geo.blkSize) geo.blkSize := by
  have hmin := geo.min_size
  have hw := superblockCodec_width
  constructor
  · rintro ⟨fs, hinit, hempty⟩ j hj
    obtain ⟨sb, grps, hsb, hgrps, hcase⟩ := Stray.fsInit_eq_ok hinit
    obtain ⟨buf, hbuf, hsb⟩ := bind_eq_ok.mp hsb
    cases hsb
    obtain ⟨-, rfl⟩ := deviceDataLoad_eq_ok.mp hbuf
    rw [show (unmounted d).d = d from rfl, hsuper, superblockCodec.dec_enc] at hgrps hcase
    have hgrps : e.blkgrpsLoad d (UInt32.ofNat geo.blkSize) (UInt32.ofNat geo.groups) =
      .ok grps := hgrps
    obtain ⟨hzero, hzero'⟩ := setBits_loaded hgroups hgrps hcase hempty
    exact readsZero_of_setBits hgrps hzero hzero' hj
  · intro hzero
    have hfmt := formatted_cleared hsuper
    have hreads : ∀ off, geo.BitmapAt off →
        e.bitmap d off geo.blkSize = .ok (bitvecInit geo.blkSize).inner := by
      rintro off ⟨j, hj, rfl | rfl⟩
      · exact (hzero j hj).1.bitmap
      · exact (hzero j hj).2.bitmap
    obtain ⟨fs, hinit⟩ := fsInit_of_formatted hgroups hfmt
    obtain ⟨grps, hgrps, -, hm, -, hexist, hcreate⟩ := fsInit_creates hfmt hinit
    have hload : e.blkgrpsLoad d (UInt32.ofNat geo.blkSize) (UInt32.ofNat geo.groups) = .ok grps :=
      (Stray.blkgrpsLoad_holding hreads).trans hgrps
    have hsame : (d.cleared geo).recast (geo.blkSize + groupBytes geo.blkSize) d.size d.bytes =
        d := by
      obtain ⟨hdata, hinode⟩ := hzero 0 hgroups
      exact Device.cleared_recast hfirst hdata hinode
    have hstart : (loaded (unmounted (d.cleared geo)) geo.superblock grps).recast
        (geo.blkSize + groupBytes geo.blkSize) d.size d.bytes =
          loaded (unmounted d) geo.superblock grps :=
      congrArg (fun d => loaded (unmounted d) geo.superblock grps) hsame
    have hcreate' := @fsCreateRoot_recast _ _ _ (geo.blkSize + groupBytes geo.blkSize) d.size
      d.bytes hm.placed hmin (le_refl _) hfirst hcreate
    rw [hstart] at hcreate'
    have hmount := (fsCreateRoot_volume hm (blkgrpsLoad_geometry hgrps).2 hcreate).1
    have hsb : superblockLoad d = .ok geo.superblock := by
      rw [superblockLoad, deviceDataLoad_eq_ok.mpr ⟨by rw [hw]; exact le_trans (by omega) hfirst,
        hsuper⟩, ok_bind, superblockCodec.dec_enc]
      rfl
    have hdir : dirCodec.width ≤ geo.superblock.blockSize.toNat := by
      rw [show geo.superblock.blockSize = UInt32.ofNat geo.blkSize from rfl, geo.blkSize_toNat]
      exact dir_fits geo
    refine ⟨_, Stray.fsInit_of_created hsb rfl rfl hload hexist hcreate' hdir, ?_⟩
    exact (Empty.of_formatted hgroups hfmt hinit).recast hmount.placed hmin
      (by rw [hmount.device]; exact first_fits hgroups) (le_refl _) hfirst

end Mount

/-- The number of groups that the format gives to a device of `size` bytes. -/
def groupCount (b size : ℕ) : ℕ := (size / 512 * b - b) / groupBytes b

section Format

variable {b : UInt32} {cnt : UInt64} {d : Device}

theorem accepted_of_group (hpow : ∃ k, b.toNat = 2 ^ k) (hmin : 512 ≤ b.toNat)
    (hgroup : groupBytes b.toNat < 2 ^ 32) (hsize : d.size / 512 * b.toNat < 2 ^ 64)
    (hbig : b.toNat + groupBytes b.toNat ≤ d.size) :
    Accepted b.toNat (d.size / 512) ∧ 1 ≤ groupCount b.toNat d.size := by
  obtain ⟨k, hk⟩ := hpow
  have h9 : 9 ≤ k := by
    rw [hk] at hmin
    exact (Nat.pow_le_pow_iff_right (by decide : 1 < 2)).mp hmin
  have hdvd : 512 ∣ b.toNat + groupBytes b.toNat := by
    have hb : 512 ∣ b.toNat := by
      rw [hk]
      exact pow_dvd_pow 2 h9
    unfold groupBytes
    exact Nat.dvd_add hb (Nat.dvd_add (hb.mul_left 2) ((hb.mul_left 8).mul_right _))
  have hge : b.toNat + groupBytes b.toNat ≤ d.size / 512 * b.toNat := by
    have hdiv := Nat.div_le_div_right (c := 512) hbig
    have hmul := Nat.mul_le_mul hdiv hmin
    rwa [Nat.div_mul_cancel hdvd] at hmul
  have hpos : 0 < groupBytes b.toNat := by
    unfold groupBytes
    omega
  refine ⟨⟨?_, ?_⟩, (Nat.one_le_div_iff hpos).mpr (by omega)⟩
  · rw [Nat.mod_eq_of_lt hgroup, Nat.mod_eq_of_lt hsize]
    exact hge
  · rwa [Nat.mod_eq_of_lt hgroup]

/-- A format and the first mount give an empty file system exactly when the bitmap blocks of all
groups read as zeros before. -/
theorem format_mounts_empty (e : Stray) (hpow : ∃ k, b.toNat = 2 ^ k) (hmin : 512 ≤ b.toNat)
    (hcnt : cnt.toNat = d.size / 512) (hgroup : groupBytes b.toNat < 2 ^ 32)
    (hsize : d.size / 512 * b.toNat < 2 ^ 64)
    (hidx : groupCount b.toNat d.size * (8 * b.toNat) < 2 ^ 32)
    (hbig : b.toNat + groupBytes b.toNat ≤ d.size) :
    (∃ d₁ fs, chisaiFormat b cnt d = .ok d₁ ∧ e.fsInit (unmounted d₁) = .ok fs ∧ Empty fs) ↔
      ∀ j < groupCount b.toNat d.size,
        e.ReadsZero d (b.toNat + groupBytes b.toNat * j) b.toNat ∧
          e.ReadsZero d (b.toNat + groupBytes b.toNat * j + b.toNat) b.toNat := by
  obtain ⟨hacc, hone⟩ := accepted_of_group hpow hmin hgroup hsize hbig
  let geo : Geometry :=
    { blkSize := b.toNat
      groups := groupCount b.toNat d.size
      size := b.toNat + groupCount b.toNat d.size * groupBytes b.toNat
      pow2 := hpow
      min_size := hmin
      group_fits := hgroup
      index_fits := hidx
      area_fits := le_refl _ }
  rw [← hcnt] at hacc
  obtain ⟨g, hg, hformat⟩ := chisaiFormat_accepted d hacc
  have hcount : g = UInt32.ofNat geo.groups := by
    have hlt := geo.groups_toNat
    rw [← UInt32.toNat_inj, hlt, hg, hcnt, Nat.mod_eq_of_lt hsize, Nat.mod_eq_of_lt hgroup]
    refine Nat.mod_eq_of_lt ?_
    have hle := Nat.le_mul_of_pos_right (groupCount b.toNat d.size)
      (show 0 < 8 * b.toNat by omega)
    exact lt_of_le_of_lt hle hidx
  have hb : b = UInt32.ofNat geo.blkSize := (UInt32.ofNat_toNat).symm
  have hw := superblockCodec_width
  have hlen := superblockCodec.length_enc geo.superblock
  have hsave : deviceDataSave d 0 (superblockCodec.enc geo.superblock) =
      .ok { d with bytes := overwrite d.bytes 0 (superblockCodec.enc geo.superblock) } :=
    deviceDataSave_eq_ok.mpr ⟨by omega, rfl⟩
  have heq : chisaiFormat b cnt d =
      .ok { d with bytes := overwrite d.bytes 0 (superblockCodec.enc geo.superblock) } := by
    rw [hformat, hcount, hb, superblockInit_geometry, ok_bind, superblockSave]
    exact hsave
  have hsuper : slice (overwrite d.bytes 0 (superblockCodec.enc geo.superblock)) 0
      superblockCodec.width = superblockCodec.enc geo.superblock := by
    rw [← hlen]
    exact slice_overwrite_self _ _ _
  have hmount := @mount_empty_iff geo
    { d with bytes := overwrite d.bytes 0 (superblockCodec.enc geo.superblock) } e hone hsuper hbig
  have hreads : ∀ j, (e.ReadsZero
        { d with bytes := overwrite d.bytes 0 (superblockCodec.enc geo.superblock) }
        (geo.blkSize + geo.groupSize * j) geo.blkSize ↔
          e.ReadsZero d (b.toNat + groupBytes b.toNat * j) b.toNat) ∧
      (e.ReadsZero { d with bytes := overwrite d.bytes 0 (superblockCodec.enc geo.superblock) }
        (geo.blkSize + geo.groupSize * j + geo.blkSize) geo.blkSize ↔
          e.ReadsZero d (b.toNat + groupBytes b.toNat * j + b.toNat) b.toNat) := by
    intro j
    have hmin : 512 ≤ geo.blkSize := hmin
    constructor
    · exact Stray.readsZero_congr e rfl fun p hp => overwrite_outside _ (by omega)
    · exact Stray.readsZero_congr e rfl fun p hp => overwrite_outside _ (by omega)
  constructor
  · rintro ⟨d₁, fs, hd₁, hinit, hempty⟩ j hj
    rw [heq] at hd₁
    cases hd₁
    obtain ⟨hdata, hinode⟩ := hmount.mp ⟨fs, hinit, hempty⟩ j hj
    exact ⟨(hreads j).1.mp hdata, (hreads j).2.mp hinode⟩
  · intro hzero
    obtain ⟨fs, hinit, hempty⟩ := hmount.mpr fun j hj =>
      ⟨(hreads j).1.mpr (hzero j hj).1, (hreads j).2.mpr (hzero j hj).2⟩
    exact ⟨_, fs, heq, hinit, hempty⟩

/-- Sectors of 1024 bytes and one group, of which the format counts two: the second begins where
the device ends, and only the two bitmaps of the first are clear. -/
theorem format_mounts_empty_twoGroups :
    ∃ d₁ fs, chisaiFormat 1024 18438
        ⟨9440256, fun p => if 1024 ≤ p ∧ p < 3072 then 0 else 255⟩ = .ok d₁ ∧
      Stray.fsInit ⟨fun _ _ => .ok fun _ => 0, fun _ _ _ _ => .error .outsideDevice⟩
        (unmounted d₁) = .ok fs ∧ Empty fs := by
  refine (@format_mounts_empty 1024 18438
    ⟨9440256, fun p => if 1024 ≤ p ∧ p < 3072 then 0 else 255⟩ _ ⟨10, rfl⟩ (by decide) rfl
    (by decide) (by decide) (by decide) (by decide)).mpr ?_
  intro j hj
  have hcount : groupCount 1024 9440256 = 2 := by decide
  have hj : j < 2 := lt_of_lt_of_eq hj hcount
  have hbytes : groupBytes 1024 = 9439232 := by decide
  change Stray.ReadsZero _ _ (1024 + groupBytes 1024 * j) 1024 ∧
    Stray.ReadsZero _ _ (1024 + groupBytes 1024 * j + 1024) 1024
  rw [hbytes]
  unfold Stray.ReadsZero
  dsimp only
  rcases Nat.lt_or_ge j 1 with h0 | h1
  · rw [Nat.lt_one_iff.mp h0, if_pos (by decide), if_pos (by decide)]
    exact ⟨fun p hp _ => if_pos (by omega), fun p hp _ => if_pos (by omega)⟩
  · rw [show j = 1 by omega, if_pos (by decide), if_neg (by decide)]
    exact ⟨fun p _ hp => by omega, _, rfl, fun _ _ => rfl⟩

/-- Old bytes in the bitmap blocks: all blocks and inodes are taken, no root is created and none
is counted. -/
theorem old_bitmaps_survive_format :
    ∃ d₁ fs, chisaiFormat 512 5123 ⟨smallDisk.size, fun _ => 255⟩ = .ok d₁ ∧
      (∀ e : Stray, e.fsInit (unmounted d₁) = .ok fs) ∧ fs.sb.freeBlocks = 4096 ∧
      blkgrpsDataExist fs.blkGrps 4096 = .ok true ∧
      ∀ e : Stray, ¬ ∃ d₁ fs, chisaiFormat 512 5123 ⟨smallDisk.size, fun _ => 255⟩ = .ok d₁ ∧
        e.fsInit (unmounted d₁) = .ok fs ∧ Empty fs := by
  have hrun : Yields (chisaiFormat 512 5123 ⟨smallDisk.size, fun _ => 255⟩) fun d₁ =>
      Yields (fsInit (unmounted d₁)) fun fs => fs.sb.freeBlocks = 4096 ∧
        fs.sb.blocksCnt = 4096 ∧ blkgrpsDataExist fs.blkGrps 4096 = .ok true := by
    decide +kernel
  obtain ⟨d₁, he, fs, hinit, hfree, hcount, hexist⟩ := hrun
  have hinit : ∀ e : Stray, e.fsInit (unmounted d₁) = .ok fs :=
    fun e => (e.fsInit_unless _).eq_ok hinit
  refine ⟨d₁, fs, he, hinit, hfree, hexist, ?_⟩
  rintro e ⟨d₂, fs', he', hinit', hempty⟩
  rw [he] at he'
  cases he'
  rw [hinit e] at hinit'
  cases hinit'
  have hblocks := hempty.freeBlocks
  rw [hfree, hcount] at hblocks
  exact absurd hblocks (by decide)

end Format

end ChisaiFs
