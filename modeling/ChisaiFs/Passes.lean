import ChisaiFs.BlockMap
import ChisaiFs.Dereference
import ChisaiFs.Indirect
import ChisaiFs.Room

/-! One pass of a read or a write over the next block of its file: the lookup, the allocation and
the store, with the indexes that they pass. Only the lookup of a number behind the direct blocks in
a file without an indirect block leaves the device. -/

namespace ChisaiFs
open Cells Words Outcome Recorded

/-- The index names a data block of the device that is marked at that moment. -/
def Passed.Real (geo : Geometry) (p : Passed) : Prop :=
  p.idx ≠ 0 ∧ p.idx.toNat ≤ geo.groups * (8 * geo.blkSize) ∧
    blkgrpsDataExist p.blkGrps p.idx = .ok true

instance (geo : Geometry) (p : Passed) : Decidable (p.Real geo) :=
  inferInstanceAs (Decidable (_ ∧ _ ∧ _))

def AllReal (geo : Geometry) (log : List Passed) : Prop := ∀ p ∈ log, p.Real geo

instance (geo : Geometry) (log : List Passed) : Decidable (AllReal geo log) :=
  inferInstanceAs (Decidable (∀ p ∈ log, p.Real geo))

/-- What the source asks the device for at block number `n` of a file without an indirect block. -/
def Geometry.strayOff (geo : Geometry) (n : ℕ) : ℕ :=
  (n - directBlksNum) * 4 + geo.blkOff 4294967295

/-- A lookup that leaves the device finds an entry of zero. -/
def Stray.Blank (e : Stray) (pos offset : ℕ) : Prop :=
  Yields (e.load pos offset) fun bytes => u32.dec (slice bytes 0 4) = 0

instance (e : Stray) (pos offset : ℕ) : Decidable (e.Blank pos offset) :=
  inferInstanceAs (Decidable (Yields _ _))

/-- Block number `n` has its place in the map of the file already. -/
def Inode.Reaches (x : Inode) (n : ℕ) : Prop := n < directBlksNum ∨ x.indirectBlk ≠ 0

instance (x : Inode) (n : ℕ) : Decidable (x.Reaches n) := inferInstanceAs (Decidable (_ ∨ _))

/-- The blocks that a pass takes from the allocator to map block number `n`. -/
def Inode.cost (x : Inode) (n : ℕ) : ℕ := if x.Reaches n then 1 else 2

section Numbers

variable {geo : Geometry} {fs : Filesystem} {off n : ℕ} {k : ChisaiSize}

theorem Mounted.real (h : Mounted geo fs) (hk : k ∈ (volume geo fs).dataUsed) :
    Passed.Real geo ⟨fs.blkGrps, k⟩ := by
  obtain ⟨h0, hr⟩ := h.dataUsed_inRange hk
  have hpos := toNat_pos h0
  rw [sub_one_toNat h0] at hr
  change k.toNat - 1 < geo.groups * (8 * geo.blkSize) at hr
  exact ⟨h0, by dsimp only; omega, blkgrpsDataExist_of_used h hk⟩

theorem not_real_zero (grps : BlockGroups) : ¬ Passed.Real geo ⟨grps, 0⟩ := fun h => h.1 rfl

theorem Mounted.blkNum_lt_iff (h : Mounted geo fs) (hn : off % geo.span / geo.blkSize = n) :
    UInt32.ofNat (off / fs.sb.blockSize.toNat) <
      UInt32.ofNat directBlksNum + fs.sb.blockSize / 4 ↔ n < geo.blkLimit := by
  have hblk := geo.blkSize_lt
  have hd : (UInt32.ofNat directBlksNum).toNat = directBlksNum := rfl
  have h12 : directBlksNum = 12 := rfl
  have hper : (fs.sb.blockSize / 4).toNat = geo.blkSize / 4 := by
    rw [UInt32.toNat_div, h.blockSize]
    rfl
  rw [UInt32.lt_iff_toNat_lt, h.blkNum_toNat off, hn, UInt32.toNat_add, hd, hper,
    Nat.mod_eq_of_lt (by omega)]
  rfl

theorem Mounted.indirOff_toNat (h : Mounted geo fs) (hn : off % geo.span / geo.blkSize = n)
    (hge : ¬ n < directBlksNum) :
    (UInt32.ofNat (off / fs.sb.blockSize.toNat) - UInt32.ofNat directBlksNum).toNat =
      n - directBlksNum := by
  have hnum := h.blkNum_toNat off
  have hd : (UInt32.ofNat directBlksNum).toNat = directBlksNum := rfl
  rw [UInt32.toNat_sub_of_le _ _ (by rw [UInt32.le_iff_toNat_le, hnum, hn, hd]; omega), hnum, hn, hd]

theorem Geometry.entry_fits (geo : Geometry) (hge : ¬ n < directBlksNum) (hlt : n < geo.blkLimit) :
    (n - directBlksNum) * 4 + 4 ≤ geo.blkSize := by
  unfold Geometry.blkLimit at hlt
  omega

end Numbers

namespace Traced

variable {e : Stray} {geo : Geometry} {fs : Filesystem} {x : Inode} {off n : ℕ}
  {blkIdx : Option ChisaiSize}

theorem fsFindBlk_direct (h : Mounted geo fs) (hn : off % geo.span / geo.blkSize = n)
    (hlt : n < directBlksNum) : fsFindBlk e fs x off blkIdx = pure (lookupOf (x.blk n)) := by
  have hnum := h.blkNum_toNat off
  rw [hn] at hnum
  rw [Inode.blk_of_lt hlt]
  unfold fsFindBlk lookupOf
  simp only [hnum, hlt, ↓reduceDIte]

theorem deviceDataLoad_of_ok {d : Device} {offset size : ℕ} {buf : List UInt8}
    (he : ChisaiFs.deviceDataLoad d offset size = .ok buf) :
    deviceDataLoad e off d offset size = pure buf := by
  obtain ⟨hfit, rfl⟩ := deviceDataLoad_eq_ok.mp he
  exact if_pos hfit

theorem deviceDataSave_of_ok {d d' : Device} {offset : ℕ} {buf : List UInt8}
    (he : ChisaiFs.deviceDataSave d offset buf = .ok d') :
    deviceDataSave e off d offset buf = pure d' := by
  obtain ⟨hfit, rfl⟩ := deviceDataSave_eq_ok.mp he
  exact if_pos hfit

/-- A lookup in the indirect block. -/
theorem fsFindBlk_entry (h : Mounted geo fs) (hn : off % geo.span / geo.blkSize = n)
    (hge : ¬ n < directBlksNum) (hlt : n < geo.blkLimit) (hr : geo.InRange x.indirectBlk) :
    fsFindBlk e fs x off blkIdx = ⟨[⟨fs.blkGrps, x.indirectBlk⟩],
      .ok (lookupOf ((volume geo fs).entry x.indirectBlk (n - directBlksNum)))⟩ := by
  have hnum := h.blkNum_toNat off
  rw [hn] at hnum
  have hload := deviceDataLoad_block_ok h hr (geo.entry_fits hge hlt)
  unfold fsFindBlk
  simp only [hnum, hge, ↓reduceDIte, (h.blkNum_lt_iff hn).mpr hlt, ↓reduceIte,
    h.indirOff_toNat hn hge]
  rw [fsDataToOffset, record_bind, deviceDataLoad_of_ok hload, rec_pure_bind]
  rfl

/-- Without an indirect block the lookup goes to index 0, which is behind the device as it is
formatted. -/
theorem fsFindBlk_stray (h : Mounted geo fs) (hformat : geo.AsFormatted)
    (hn : off % geo.span / geo.blkSize = n) (hge : ¬ n < directBlksNum) (hlt : n < geo.blkLimit)
    (h0 : x.indirectBlk = 0) :
    fsFindBlk e fs x off blkIdx = ⟨[⟨fs.blkGrps, 0⟩], e.load off (geo.strayOff n) >>= fun bytes =>
      pure (lookupOf (u32.dec (slice bytes 0 4)))⟩ := by
  have hnum := h.blkNum_toNat off
  rw [hn] at hnum
  have hsize := hformat.size_le
  have hout : ¬ (n - directBlksNum) * 4 + geo.blkOff 4294967295 + 4 ≤ fs.d.size := by
    rw [h.device]
    omega
  unfold fsFindBlk
  simp only [hnum, hge, ↓reduceDIte, (h.blkNum_lt_iff hn).mpr hlt, ↓reduceIte,
    h.indirOff_toNat hn hge, deviceDataLoad, h0, fsDataToOffset, record_bind,
    fsDataToOffset_eq h, zero_sub_one_toNat, if_neg hout, Geometry.strayOff]
  cases e.load off ((n - directBlksNum) * 4 + geo.blkOff 4294967295) <;> rfl

theorem fsFindBlk_past (h : Mounted geo fs) (hn : off % geo.span / geo.blkSize = n)
    (hge : geo.blkLimit ≤ n) : fsFindBlk e fs x off blkIdx = pure (.corrupt, blkIdx) := by
  have hnum := h.blkNum_toNat off
  rw [hn] at hnum
  have h12 : ¬ n < directBlksNum := by
    unfold Geometry.blkLimit at hge
    omega
  unfold fsFindBlk
  simp only [hnum, h12, ↓reduceDIte, mt (h.blkNum_lt_iff hn).mp (not_lt.mpr hge), ↓reduceIte]

theorem fsFindBlk_reached (h : Mounted geo fs) (hn : off % geo.span / geo.blkSize = n)
    (hlim : n < geo.blkLimit) (hr : x.Reaches n)
    (hused : x.indirectBlk ≠ 0 → x.indirectBlk ∈ (volume geo fs).dataUsed) :
    ∃ log, fsFindBlk e fs x off blkIdx =
        ⟨log, .ok (lookupOf ((volume geo fs).mapped geo x n))⟩ ∧ AllReal geo log := by
  by_cases hdirect : n < directBlksNum
  · rw [Volume.mapped_of_lt hdirect, fsFindBlk_direct h hn hdirect]
    exact ⟨[], rfl, List.forall_mem_nil _⟩
  · have h0 := hr.resolve_left hdirect
    have hlt : n - directBlksNum < geo.blkSize / 4 := by
      unfold Geometry.blkLimit at hlim
      omega
    rw [Volume.mapped_of_ge hdirect, Volume.behind_some h0 hlt,
      fsFindBlk_entry h hn hdirect hlim (h.dataUsed_inRange (hused h0))]
    exact ⟨_, rfl, List.forall_mem_singleton.mpr (h.real (hused h0))⟩

end Traced

section Blocks

variable {e : Stray} {geo : Geometry} {fs : Filesystem} {x : Inode} {off n i : ℕ} {j : ChisaiSize}
  {d : Device}

theorem Volume.writeBlock_append {v : Volume} (k : ChisaiSize) (off : ℕ) (xs ys : List UInt8) :
    (v.writeBlock k off xs).writeBlock k (off + xs.length) ys = v.writeBlock k off (xs ++ ys) := by
  unfold writeBlock
  dsimp only
  rw [Function.update_self, Function.update_idem, overwrite_append]

theorem Traced.fsClearBlk_block (h : Mounted geo { fs with d := d }) (hr : geo.InRange j)
    (hfit : (i + n) * 4 ≤ geo.blkSize) : ∃ d' log,
      Traced.fsClearBlk e fs off j i n d = ⟨log, .ok d'⟩ ∧ (∀ p ∈ log, p = ⟨fs.blkGrps, j⟩) ∧
      ChisaiFs.fsClearBlk fs j i n d = .ok d' ∧ Mounted geo { fs with d := d' } ∧
      volume geo { fs with d := d' } =
        (volume geo { fs with d := d }).writeBlock j (i * 4) (List.replicate (n * 4) 0) := by
  induction n generalizing i d with
  | zero =>
    refine ⟨d, [], rfl, List.forall_mem_nil _, rfl, h, ?_⟩
    rw [Nat.zero_mul, List.replicate_zero, Volume.writeBlock, overwrite_nil, Function.update_eq_self]
  | succ n ih =>
    have hzero : u32.enc 0 = List.replicate 4 0 := by decide
    have hlen : (u32.enc 0).length = 4 := u32.length_enc 0
    obtain ⟨d₁, hd⟩ :=
      @deviceDataSave_block_ok _ _ h _ (i * 4) (u32.enc 0) hr (by omega)
    have hd : ChisaiFs.deviceDataSave d (i * 4 + ChisaiFs.fsDataToOffset fs j) (u32.enc 0) =
        .ok d₁ := hd
    obtain ⟨h₁, hv₁⟩ := deviceDataSave_block h (by omega) hd
    obtain ⟨d', log, hrec, hlog, hbase, h', hv'⟩ := ih h₁ (i := i + 1) (by omega)
    refine ⟨d', ⟨fs.blkGrps, j⟩ :: log, ?_, List.forall_mem_cons.mpr ⟨rfl, hlog⟩, ?_, h', ?_⟩
    · rw [Traced.fsClearBlk, Traced.fsDataToOffset, record_bind, Traced.deviceDataSave_of_ok hd,
        rec_pure_bind, hrec]
    · rw [ChisaiFs.fsClearBlk, hd, ok_bind, hbase]
    · have hnext : (i + 1) * 4 = i * 4 + (List.replicate 4 (0 : UInt8)).length := by
        rw [List.length_replicate]
        omega
      rw [hv', hv₁, hzero, hnext, Volume.writeBlock_append, ← List.replicate_add,
        show 4 + n * 4 = (n + 1) * 4 by omega]

/-- What allocating block number `n` of a file comes to. -/
inductive BlkAllocates (geo : Geometry) (n : ℕ) (fs : Filesystem) (x : Inode) :
    Traced (ChisaiError × ChisaiSize × Inode × Filesystem) → Prop
  | block {log : List Passed} {k : ChisaiSize} {y : Inode} {fs' : Filesystem}
      (hreal : AllReal geo log) (hfills : Fills geo fs fs') (hr : geo.InRange k)
      (hmaps : Volume.Maps geo n k (volume geo fs) x (volume geo fs') y)
      (hused : k ∈ (volume geo fs').dataUsed)
      (hroom : fs.room = fs'.room + x.cost n) (hprimed : fs'.DataPrimed ↔ fs.DataPrimed) :
      BlkAllocates geo n fs x ⟨log, .ok (.ok, k, y, fs')⟩
  | full (hroom : fs.room = 0) (hprimed : fs.DataPrimed) :
      BlkAllocates geo n fs x (pure (.enomem, 0, x, fs))
  | stuck (hroom : fs.room = 0) (hprimed : ¬ fs.DataPrimed) :
      BlkAllocates geo n fs x (quiet (.error .outOfRange))

/-- The store of an entry in the indirect block. -/
theorem Mounted.storeEntry (h : Mounted geo fs) (hj : j ∈ (volume geo fs).dataUsed)
    (hge : ¬ n < directBlksNum) (hlt : n < geo.blkLimit) (k : ChisaiSize) :
    ∃ d, deviceDataSave fs.d ((n - directBlksNum) * 4 + fsDataToOffset fs j) (u32.enc k) = .ok d ∧
      Fill geo fs { fs with d := d } ∧ Mounted geo { fs with d := d } ∧
      volume geo { fs with d := d } =
        (volume geo fs).writeBlock j ((n - directBlksNum) * 4) (u32.enc k) := by
  have hfit : (n - directBlksNum) * 4 + (u32.enc k).length ≤ geo.blkSize := by
    rw [u32.length_enc]
    exact geo.entry_fits hge hlt
  obtain ⟨d, hd⟩ := deviceDataSave_block_ok h (h.dataUsed_inRange hj) hfit
  exact ⟨d, hd, .store hfit hd, deviceDataSave_block h hfit hd⟩

section Allocating

variable {fs₁ : Filesystem} {m : ChisaiSize}

theorem Traced.fsAllocBlk_direct (h : Mounted geo fs) (hn : off % geo.span / geo.blkSize = n)
    (hdirect : n < directBlksNum) (hres : fsDataAlloc fs = .ok (m, fs₁)) (hm : m ≠ 0) :
    BlkAllocates geo n fs x (Traced.fsAllocBlk e fs x off) := by
  have hnum := h.blkNum_toNat off
  rw [hn] at hnum
  have halloc := fsDataAlloc_room h
  rw [hres] at halloc
  cases halloc with
  | full => exact absurd rfl hm
  | block h₁ _ hr hk hv₁ hroom₁ hprimed₁ =>
    have hcost : x.cost n = 1 := if_pos (Or.inl hdirect)
    unfold Traced.fsAllocBlk
    rw [hres, quiet_ok_bind]
    simp only [hm, ↓reduceIte, hnum, hdirect, ↓reduceDIte]
    refine .block (show AllReal geo [] from List.forall_mem_nil _) (.single (.alloc hres)) hr ?_ ?_
      (by rw [hcost, hroom₁]) hprimed₁
    · rw [hv₁, ← Inode.setBlk_of_lt hdirect]
      exact .direct hdirect hk
    · rw [hv₁]
      exact Set.mem_insert m _

theorem Traced.fsAllocBlk_entry (h : Mounted geo fs) (hn : off % geo.span / geo.blkSize = n)
    (hlim : n < geo.blkLimit) (hdirect : ¬ n < directBlksNum) (h0 : x.indirectBlk ≠ 0)
    (hused : x.indirectBlk ∈ (volume geo fs).dataUsed) (hres : fsDataAlloc fs = .ok (m, fs₁))
    (hm : m ≠ 0) : BlkAllocates geo n fs x (Traced.fsAllocBlk e fs x off) := by
  have hnum := h.blkNum_toNat off
  rw [hn] at hnum
  have halloc := fsDataAlloc_room h
  rw [hres] at halloc
  cases halloc with
  | full => exact absurd rfl hm
  | block h₁ _ hr hk hv₁ hroom₁ hprimed₁ =>
    have hcost : x.cost n = 1 := if_pos (Or.inr h0)
    have hjused : x.indirectBlk ∈ (volume geo fs₁).dataUsed := by
      rw [hv₁]
      exact Set.mem_insert_of_mem m hused
    obtain ⟨d₂, hd₂, hfill₂, h₂, hv₂⟩ := h₁.storeEntry hjused hdirect hlim m
    unfold Traced.fsAllocBlk
    rw [hres, quiet_ok_bind]
    simp only [hm, ↓reduceIte, hnum, hdirect, ↓reduceDIte, (h.blkNum_lt_iff hn).mpr hlim,
      h.indirOff_toNat hn hdirect, h0, rec_pure_bind]
    rw [Traced.fsDataToOffset, record_bind, Traced.deviceDataSave_of_ok hd₂, rec_pure_bind]
    refine .block (List.forall_mem_singleton.mpr (h₁.real hjused))
      ((Relation.ReflTransGen.single (.alloc hres)).tail hfill₂) hr ?_ ?_
      (by rw [hcost, hroom₁]; rfl) hprimed₁
    · rw [hv₂, hv₁]
      exact .entry hdirect hlim h0 hk
    · rw [hv₂, Volume.writeBlock_dataUsed, hv₁]
      exact Set.mem_insert m _

/-- The first block becomes the indirect block, and block number `n` is entered there. -/
theorem Traced.fsAllocBlk_created (h : Mounted geo fs) (hn : off % geo.span / geo.blkSize = n)
    (hlim : n < geo.blkLimit) (hdirect : ¬ n < directBlksNum) (h0 : x.indirectBlk = 0)
    (hone : fs.room ≠ 1) (hres : fsDataAlloc fs = .ok (j, fs₁)) (hj : j ≠ 0) :
    BlkAllocates geo n fs x (Traced.fsAllocBlk e fs x off) := by
  have hnum := h.blkNum_toNat off
  rw [hn] at hnum
  have halloc := fsDataAlloc_room h
  rw [hres] at halloc
  cases halloc with
  | full => exact absurd rfl hj
  | block h₁ _ hr hk hv₁ hroom₁ hprimed₁ =>
    have hjused : j ∈ (volume geo fs₁).dataUsed := by
      rw [hv₁]
      exact Set.mem_insert j _
    have hcost : x.cost n = 2 := if_neg (not_or.mpr ⟨hdirect, not_not.mpr h0⟩)
    have hper : (fs.sb.blockSize / 4).toNat = geo.blkSize / 4 := by
      rw [UInt32.toNat_div, h.blockSize]
      rfl
    obtain ⟨d₂, log₂, hclear, hlog₂, hbase, h₂, hv₂⟩ :=
      @Traced.fsClearBlk_block e geo fs₁ off (geo.blkSize / 4) 0 j fs₁.d h₁ hr (by omega)
    unfold Traced.fsAllocBlk
    rw [hres, quiet_ok_bind]
    simp only [hj, ↓reduceIte, hnum, hdirect, ↓reduceDIte, (h.blkNum_lt_iff hn).mpr hlim,
      h.indirOff_toNat hn hdirect, h0]
    rw [hper, hclear, mk_ok_bind]
    have halloc₂ := fsDataAlloc_room h₂
    generalize hres₂ : fsDataAlloc { fs₁ with d := d₂ } = r₂ at halloc₂ ⊢
    cases halloc₂ with
    | full hroom₃ =>
      have hroom₃ : fs₁.room = 0 := hroom₃
      omega
    | stuck hroom₃ =>
      have hroom₃ : fs₁.room = 0 := hroom₃
      omega
    | @block m fs₃ h₃ hd₃ hr₃ hm hv₃ hroom₃ hprimed₃ =>
      have hroom₃ : fs₁.room = fs₃.room + 1 := hroom₃
      have hjused₃ : j ∈ (volume geo fs₃).dataUsed := by
        rw [hv₃, hv₂]
        exact Set.mem_insert_of_mem m hjused
      obtain ⟨d₄, hd₄, hfill₄, h₄, hv₄⟩ := h₃.storeEntry hjused₃ hdirect hlim m
      simp only [quiet_ok_bind, rec_pure_bind]
      rw [Traced.fsDataToOffset, record_bind, Traced.deviceDataSave_of_ok hd₄, rec_pure_bind]
      refine .block ?_ ?_ hr₃ ?_ ?_ (by rw [hcost, hroom₁, hroom₃]; rfl) (hprimed₃.trans hprimed₁)
      · refine List.forall_mem_append.mpr ⟨fun p hp => ?_, List.forall_mem_singleton.mpr ?_⟩
        · rw [hlog₂ p hp]
          exact h₁.real hjused
        · exact h₃.real hjused₃
      · have hclears : Fills geo fs₁ { fs₁ with d := d₂ } :=
          fsClearBlk_fills (d := fs₁.d) (by omega) hbase
        exact ((Relation.ReflTransGen.head (.alloc hres) hclears).tail (.alloc hres₂)).tail hfill₄
      · rw [hv₄, hv₃, hv₂]
        change Volume.Maps geo n m _ x ((((volume geo fs₁).writeBlock j (0 * 4) _).useData
          m).writeBlock j _ _) _
        rw [hv₁, Nat.zero_mul]
        rw [hv₂, Volume.writeBlock_dataUsed] at hm
        change m ∉ (volume geo fs₁).dataUsed at hm
        rw [hv₁] at hm
        exact .created hdirect hlim h0 hr.1 hk hm
      · rw [hv₄, Volume.writeBlock_dataUsed, hv₃]
        exact Set.mem_insert m _

theorem Traced.fsAllocBlk_allocates (h : Mounted geo fs) (hn : off % geo.span / geo.blkSize = n)
    (hlim : n < geo.blkLimit)
    (hused : x.indirectBlk ≠ 0 → x.indirectBlk ∈ (volume geo fs).dataUsed)
    (hcalm : x.Reaches n ∨ fs.room ≠ 1) :
    BlkAllocates geo n fs x (Traced.fsAllocBlk e fs x off) := by
  have halloc := fsDataAlloc_room h
  generalize hres : fsDataAlloc fs = r at halloc
  cases halloc with
  | block _ _ hr =>
    by_cases hdirect : n < directBlksNum
    · exact Traced.fsAllocBlk_direct h hn hdirect hres hr.1
    · by_cases h0 : x.indirectBlk = 0
      · have hnot : ¬ x.Reaches n := not_or.mpr ⟨hdirect, not_not.mpr h0⟩
        exact Traced.fsAllocBlk_created h hn hlim hdirect h0 (hcalm.resolve_left hnot) hres hr.1
      · exact Traced.fsAllocBlk_entry h hn hlim hdirect h0 (hused h0) hres hr.1
  | full hroom hprimed =>
    unfold Traced.fsAllocBlk
    rw [hres, quiet_ok_bind]
    exact .full hroom hprimed
  | stuck hroom hprimed =>
    unfold Traced.fsAllocBlk
    rw [hres, quiet_error_bind]
    exact .stuck hroom hprimed

end Allocating

end Blocks

/-- The bytes that the next pass stores. -/
def WriteState.piece (geo : Geometry) (buf : List UInt8) (s : WriteState) : List UInt8 :=
  (buf.drop s.total).take (geo.blkSize - s.off % geo.blkSize)

/-- The block of a pass: one that the file has at number `n`, or a new one. -/
inductive Targets (geo : Geometry) (n : ℕ) (v : Volume) (x : Inode) (k : ChisaiSize) :
    Volume → Inode → Prop
  | had (hk : v.mapped geo x n = k) (h0 : k ≠ 0) : Targets geo n v x k v x
  | new {v' : Volume} {x' : Inode} (h0 : v.mapped geo x n = 0) (hk : k ≠ 0)
      (hm : Volume.Maps geo n k v x v' x') : Targets geo n v x k v' x'

section Targets

variable {geo : Geometry} {n m : ℕ} {v v' : Volume} {x x' : Inode} {k l i : ChisaiSize} {off : ℕ}
  {bs : List UInt8}

theorem Targets.ne_zero (h : Targets geo n v x k v' x') : k ≠ 0 := by
  cases h <;> assumption

theorem Targets.bears (h : Targets geo n v x k v' x') (hb : Volume.Bears geo i v x) :
    Volume.Bears geo i v' x' := by
  cases h with
  | had => exact hb
  | new _ _ hm => exact hm.bears hb

theorem Targets.mapped_same (h : Targets geo n v x k v' x') : v'.mapped geo x' n = k := by
  cases h with
  | had hk => exact hk
  | new _ _ hm => exact hm.mapped_same

theorem Targets.mapped_of_ne (h : Targets geo n v x k v' x') (hne : m ≠ n) :
    v'.mapped geo x' m = v.mapped geo x m := by
  cases h with
  | had => rfl
  | new _ _ hm => exact hm.mapped_of_ne hne

theorem Targets.inode (h : Targets geo n v x k v' x') :
    v'.inode = v.inode ∧ v'.inodeUsed = v.inodeUsed := by
  cases h with
  | had => exact ⟨rfl, rfl⟩
  | new _ _ hm => exact hm.inode

theorem Targets.used (h : Targets geo n v x k v' x') : v.dataUsed ⊆ v'.dataUsed := by
  cases h with
  | had => exact subset_rfl
  | new _ _ hm => exact hm.used

/-- Mapping a number changes no block but the indirect block of the file. -/
theorem Targets.block (h : Targets geo n v x k v' x') (hl : l = x'.indirectBlk → l = 0) :
    v'.block l = v.block l := by
  cases h with
  | had => rfl
  | new _ _ hm =>
    by_cases h0 : x'.indirectBlk = 0
    · rw [hm.block_direct h0]
    · exact hm.block fun he => h0 (he ▸ hl he)

theorem Targets.below (h : Targets geo n v x k v' x') : x.Below x' := by
  cases h with
  | had => exact .refl x
  | new h0 _ hm =>
    cases hm with
    | direct hn hk =>
      refine ⟨Inode.setBlk_mode.symm, fun m hm => Inode.blk_setBlk_of_ne ?_,
        fun _ => Inode.setBlk_indirectBlk x n k⟩
      rintro rfl
      rw [Volume.mapped_of_lt hn] at h0
      exact hm h0
    | entry hn hlt h0 hk => exact .refl x
    | created hn hlt h0 hj0 hj hk => exact ⟨rfl, fun _ _ => rfl, fun hi => absurd h0 hi⟩

theorem Targets.indirectBlk_fresh (h : Targets geo n v x k v' x') (h0 : x.indirectBlk = 0) :
    x'.indirectBlk = 0 ∨ x'.indirectBlk ∉ v.dataUsed := by
  cases h with
  | had => exact Or.inl h0
  | new _ _ hm => exact (hm.indirectBlk.2.1 h0).symm

theorem Targets.reaches (h : Targets geo n v x k v' x') : x'.Reaches n := by
  by_cases hn : n < directBlksNum
  · exact Or.inl hn
  right
  cases h with
  | had hk h0 =>
    rw [Volume.mapped_of_ge hn] at hk
    exact Volume.indirectBlk_ne_of_behind (hk.trans_ne h0)
  | new _ _ hm => exact hm.indirectBlk.2.2 hn

theorem Targets.kept (h : Targets geo n v x k v' x') (h0 : v.mapped geo x n ≠ 0) :
    k = v.mapped geo x n := by
  cases h with
  | had hk => exact hk.symm
  | new hz => exact absurd hz h0

theorem Targets.indirectBlk_direct (h : Targets geo n v x k v' x') (hn : n < directBlksNum) :
    x'.indirectBlk = x.indirectBlk := by
  cases h with
  | had => rfl
  | new _ _ hm =>
    cases hm with
    | direct => exact Inode.setBlk_indirectBlk x n k
    | entry hge => exact absurd hn hge
    | created hge => exact absurd hn hge

theorem Targets.fresh (h : Targets geo n v x k v' x') (h0 : v.mapped geo x n = 0) :
    k ∉ v.dataUsed := by
  cases h with
  | had hk hk0 => exact absurd (hk.symm.trans h0) hk0
  | new _ _ hm => exact hm.fresh

theorem Targets.mapped_stored (h : Targets geo n v x k v' x') (hb : Volume.Bears geo i v x) :
    (v'.writeBlock k off bs).mapped geo x' m = v'.mapped geo x' m := by
  have hsame := h.mapped_same
  rw [← hsame]
  exact (h.bears hb).mapped_own (hsame.trans_ne h.ne_zero)

end Targets

/-- A write in its loop, between two passes. The block index that the next pass starts with is the
one of a data block of the file. -/
structure Underway (geo : Geometry) (i : ChisaiSize) (buf : List UInt8) (s : WriteState) : Prop where
  mounted : Mounted geo s.fs
  bears : Volume.Bears geo i (volume geo s.fs) s.inode
  total_le : s.total ≤ buf.length
  last : ∀ k, s.blkIdx = some k → k ≠ 0 ∧ ∃ m, (volume geo s.fs).mapped geo s.inode m = k

/-- A pass that stored its bytes in the block at number `n` of the file. -/
structure Stores (geo : Geometry) (i : ChisaiSize) (buf : List UInt8) (n : ℕ) (s s' : WriteState) :
    Prop where
  underway : Underway geo i buf s'
  total : s'.total = s.total + (s.piece geo buf).length
  off : s'.off = s.off + (s.piece geo buf).length
  fills : Fills geo s.fs s'.fs
  primed : s'.fs.DataPrimed ↔ s.fs.DataPrimed
  room : s.fs.room = s'.fs.room +
    if (volume geo s.fs).mapped geo s.inode n = 0 then s.inode.cost n else 0
  target : ∃ k v, Targets geo n (volume geo s.fs) s.inode k v s'.inode ∧ s'.blkIdx = some k ∧
    volume geo s'.fs = v.writeBlock k (s.off % geo.blkSize) (s.piece geo buf)

inductive WritePass (geo : Geometry) (i : ChisaiSize) (buf : List UInt8) (n : ℕ) (s : WriteState) :
    Traced (WriteState × Bool) → Prop
  | stored {s' : WriteState} {log : List Passed} (hreal : AllReal geo log ↔ s.inode.Reaches n)
      (hs : Stores geo i buf n s s') : WritePass geo i buf n s ⟨log, .ok (s', false)⟩
  | full {s' : WriteState} {log : List Passed} (hreal : AllReal geo log ↔ s.inode.Reaches n)
      (h0 : (volume geo s.fs).mapped geo s.inode n = 0) (hroom : s.fs.room = 0)
      (hprimed : s.fs.DataPrimed) (htotal : s'.total = s.total) (hfs : s'.fs = s.fs)
      (hinode : s'.inode = s.inode) : WritePass geo i buf n s ⟨log, .ok (s', true)⟩
  | stuck {log : List Passed} (hreal : AllReal geo log ↔ s.inode.Reaches n)
      (h0 : (volume geo s.fs).mapped geo s.inode n = 0) (hroom : s.fs.room = 0)
      (hprimed : ¬ s.fs.DataPrimed) : WritePass geo i buf n s ⟨log, .error .outOfRange⟩

def Traced.store (e : Stray) (buf : List UInt8) (s : WriteState) (fs : Filesystem) (inode : Inode)
    (blk : ChisaiSize) : Traced (WriteState × Bool) := do
  let offIn := offInblk s.off s.fs.sb.blockSize.toNat
  let wlen := min (buf.length - s.total) (s.fs.sb.blockSize.toNat - offIn)
  let offset ← fsDataToOffset fs blk
  let d ← deviceDataSave e s.off fs.d (offIn + offset) ((buf.drop s.total).take wlen)
  return (⟨{ fs with d := d }, inode, some blk, s.total + wlen, s.off + wlen⟩, false)

section Pass

variable {e : Stray} {geo : Geometry} {i k : ChisaiSize} {buf : List UInt8} {n m : ℕ}
  {s s' : WriteState} {fs : Filesystem} {inode : Inode} {log : List Passed}

theorem WriteState.piece_length (geo : Geometry) (buf : List UInt8) (s : WriteState) :
    (s.piece geo buf).length = min (geo.blkSize - s.off % geo.blkSize) (buf.length - s.total) := by
  rw [piece, List.length_take, List.length_drop]

theorem WriteState.piece_fits (geo : Geometry) (buf : List UInt8) (s : WriteState) :
    s.off % geo.blkSize + (s.piece geo buf).length ≤ geo.blkSize := by
  have hmod := Nat.mod_lt s.off geo.blkSize_pos
  rw [piece_length]
  omega

theorem WriteState.piece_pos (geo : Geometry) (h : s.total < buf.length) :
    0 < (s.piece geo buf).length := by
  have hmod := Nat.mod_lt s.off geo.blkSize_pos
  rw [piece_length]
  omega

def WriteState.stored (geo : Geometry) (buf : List UInt8) (s : WriteState) (fs : Filesystem)
    (inode : Inode) (k : ChisaiSize) : WriteState :=
  ⟨fs, inode, some k, s.total + (s.piece geo buf).length, s.off + (s.piece geo buf).length⟩

/-- A store in a block of the device passes the index of that block. -/
theorem Traced.store_block (hs : Mounted geo s.fs) (h : Mounted geo fs) (hk : geo.InRange k) :
    ∃ d, Traced.store e buf s fs inode k =
        ⟨[⟨fs.blkGrps, k⟩], .ok (s.stored geo buf { fs with d := d } inode k, false)⟩ ∧
      Mounted geo { fs with d := d } ∧ Fill geo fs { fs with d := d } ∧
      volume geo { fs with d := d } =
        (volume geo fs).writeBlock k (s.off % geo.blkSize) (s.piece geo buf) := by
  have hfit := s.piece_fits geo buf
  have hlen := s.piece_length geo buf
  have hpiece : (buf.drop s.total).take
      (min (buf.length - s.total) (geo.blkSize - s.off % geo.blkSize)) = s.piece geo buf := by
    rw [WriteState.piece, List.take_eq_take_iff, List.length_drop]
    omega
  obtain ⟨d, hd⟩ := deviceDataSave_block_ok h hk hfit
  obtain ⟨hm, hv⟩ := deviceDataSave_block h hfit hd
  refine ⟨d, ?_, hm, .store hfit hd, hv⟩
  unfold Traced.store
  rw [hs.offInblk_eq, hs.blockSize]
  dsimp only
  rw [hpiece, Traced.fsDataToOffset, record_bind, Traced.deviceDataSave_of_ok hd, rec_pure_bind,
    WriteState.stored, hlen, Nat.min_comm]
  rfl

theorem Traced.fsWriteChunk_found
    (hfind : Traced.fsFindBlk e s.fs s.inode s.off s.blkIdx = ⟨log, .ok (lookupOf k)⟩) :
    Traced.fsWriteChunk e buf s = (⟨log, .ok ()⟩ : Traced Unit) >>= fun _ =>
      if k = 0 then Traced.fsAllocBlk e s.fs s.inode s.off >>= fun r =>
        if r.1 = .enomem then
          pure ({ s with fs := r.2.2.2, inode := r.2.2.1, blkIdx := some r.2.1 }, true)
        else Traced.store e buf s r.2.2.2 r.2.2.1 r.2.1
      else Traced.store e buf s s.fs s.inode k := by
  unfold Traced.fsWriteChunk lookupOf at *
  rw [hfind]
  by_cases h0 : k = 0
  · simp only [h0, ↓reduceIte]
    rfl
  · simp only [h0, ↓reduceIte]
    rfl

theorem Underway.find (hu : Underway geo i buf s) (hn : s.off % geo.span / geo.blkSize = n)
    (hlim : n < geo.blkLimit) (hcalm : s.inode.Reaches n ∨
      geo.AsFormatted ∧ e.Blank s.off (geo.strayOff n)) :
    ∃ log, Traced.fsFindBlk e s.fs s.inode s.off s.blkIdx =
        ⟨log, .ok (lookupOf ((volume geo s.fs).mapped geo s.inode n))⟩ ∧
      (AllReal geo log ↔ s.inode.Reaches n) := by
  by_cases hr : s.inode.Reaches n
  · obtain ⟨log, hfind, hreal⟩ :=
      Traced.fsFindBlk_reached (e := e) hu.mounted hn hlim hr hu.bears.indirect_used
    exact ⟨log, hfind, iff_of_true hreal hr⟩
  · obtain ⟨hdirect, h0⟩ := not_or.mp hr
    obtain ⟨hformat, bytes, hload, hzero⟩ := hcalm.resolve_left hr
    rw [Volume.mapped_of_ge hdirect, Volume.behind_zero (not_not.mp h0),
      Traced.fsFindBlk_stray hu.mounted hformat hn hdirect hlim (not_not.mp h0), hload,
      ok_bind, hzero]
    exact ⟨_, rfl, iff_of_false
      (fun hreal => not_real_zero _ (hreal _ (List.mem_singleton.mpr rfl))) hr⟩

theorem Underway.store (hu : Underway geo i buf s) (hlt : s.total < buf.length) {v : Volume}
    (h : Mounted geo fs) (hv : volume geo fs = v) (hfills : Fills geo s.fs fs)
    (hprimed : fs.DataPrimed ↔ s.fs.DataPrimed)
    (hroom : s.fs.room = fs.room +
      if (volume geo s.fs).mapped geo s.inode n = 0 then s.inode.cost n else 0)
    (hk : k ∈ v.dataUsed)
    (htarget : Targets geo n (volume geo s.fs) s.inode k v inode) :
    ∃ s', Traced.store e buf s fs inode k = ⟨[⟨fs.blkGrps, k⟩], .ok (s', false)⟩ ∧
      Passed.Real geo ⟨fs.blkGrps, k⟩ ∧ Stores geo i buf n s s' := by
  have hk : k ∈ (volume geo fs).dataUsed := hv ▸ hk
  obtain ⟨d, hstore, hm, hfill, hvol⟩ :=
    @Traced.store_block e geo k buf s fs inode hu.mounted h (h.dataUsed_inRange hk)
  have hb := htarget.bears hu.bears
  have hsame := htarget.mapped_same
  have hbears : Volume.Bears geo i (volume geo { fs with d := d }) inode := by
    rw [hvol, hv, ← hsame]
    exact hb.own (hsame.trans_ne htarget.ne_zero)
  have hle := s.piece_length geo buf
  refine ⟨_, hstore, h.real hk, ⟨⟨hm, hbears, ?_, ?_⟩, rfl, rfl, hfills.tail hfill, hprimed, hroom,
    k, v, htarget, rfl, by rw [← hv]; exact hvol⟩⟩
  · change s.total + _ ≤ _
    omega
  · rintro l hl
    cases hl
    refine ⟨htarget.ne_zero, n, ?_⟩
    change (volume geo { fs with d := d }).mapped geo inode n = k
    rw [hvol, hv, htarget.mapped_stored hu.bears, hsame]

/-- A pass over a number that the file can map stores, or finds the device full. -/
theorem Underway.pass (hu : Underway geo i buf s) (hlt : s.total < buf.length)
    (hn : s.off % geo.span / geo.blkSize = n) (hlim : n < geo.blkLimit)
    (hcalm : s.inode.Reaches n ∨
      geo.AsFormatted ∧ e.Blank s.off (geo.strayOff n) ∧ s.fs.room ≠ 1) :
    WritePass geo i buf n s (Traced.fsWriteChunk e buf s) := by
  obtain ⟨log, hfind, hreal⟩ := hu.find (e := e) hn hlim
    (hcalm.imp_right fun h => ⟨h.1, h.2.1⟩)
  rw [Traced.fsWriteChunk_found hfind, mk_ok_bind]
  by_cases h0 : (volume geo s.fs).mapped geo s.inode n = 0
  · rw [if_pos h0]
    have halloc := Traced.fsAllocBlk_allocates (e := e) hu.mounted hn hlim
      hu.bears.indirect_used (hcalm.imp_right fun h => h.2.2)
    generalize Traced.fsAllocBlk e s.fs s.inode s.off = r at halloc ⊢
    cases halloc with
    | @block log' k y fs' hreal' hfills hr hmaps hused hroom hprimed =>
      rw [mk_ok_bind]
      obtain ⟨s', hstore, hpass, hs⟩ := hu.store (e := e) (n := n) hlt (hfills.mounted hu.mounted)
        rfl hfills hprimed (by rw [if_pos h0]; exact hroom) hused (.new h0 hr.1 hmaps)
      have hne : ¬ (ChisaiError.ok = ChisaiError.enomem) := by decide
      rw [if_neg hne, hstore]
      refine .stored ?_ hs
      rw [AllReal, List.forall_mem_append]
      exact (and_iff_left (List.forall_mem_append.mpr
        ⟨hreal', List.forall_mem_singleton.mpr hpass⟩)).trans hreal
    | full hroom hprimed =>
      rw [rec_pure_bind, if_pos rfl]
      exact .full (by rw [log_pure, List.append_nil]; exact hreal) h0 hroom hprimed rfl rfl rfl
    | stuck hroom hprimed =>
      rw [quiet_error_bind]
      exact .stuck (by rw [log_quiet, List.append_nil]; exact hreal) h0 hroom hprimed
  · rw [if_neg h0]
    obtain ⟨s', hstore, hpass, hs⟩ := hu.store (e := e) (n := n) hlt hu.mounted rfl .refl Iff.rfl
      (by rw [if_neg h0, Nat.add_zero]) (hu.bears.used h0) (.had rfl h0)
    rw [hstore]
    refine .stored ?_ hs
    rw [AllReal, List.forall_mem_append]
    exact (and_iff_left (List.forall_mem_singleton.mpr hpass)).trans hreal

/-- Behind the last number a pass stores in the block of the pass before, if there was one. -/
theorem Underway.past (hu : Underway geo i buf s) (hlt : s.total < buf.length)
    (hn : s.off % geo.span / geo.blkSize = n) (hge : geo.blkLimit ≤ n) :
    (s.blkIdx = none ∧ Traced.fsWriteChunk e buf s = quiet (.error .uninitialised)) ∨
      ∃ m s' p, s.blkIdx ≠ none ∧ (volume geo s.fs).mapped geo s.inode m ≠ 0 ∧ p.Real geo ∧
        Stores geo i buf m s s' ∧ Traced.fsWriteChunk e buf s = ⟨[p], .ok (s', false)⟩ := by
  have hne : ¬ (ChisaiError.corrupt = ChisaiError.enoent) := by decide
  have hne' : ¬ (ChisaiError.corrupt = ChisaiError.enomem) := by decide
  have hchunk : Traced.fsWriteChunk e buf s = s.blkIdx.elim (quiet (.error .uninitialised))
      fun k => Traced.store e buf s s.fs s.inode k := by
    unfold Traced.fsWriteChunk
    rw [Traced.fsFindBlk_past hu.mounted hn hge]
    simp only [rec_pure_bind, hne, hne', ↓reduceIte]
    cases s.blkIdx <;> rfl
  rw [hchunk]
  cases hlast : s.blkIdx with
  | none => exact Or.inl ⟨rfl, rfl⟩
  | some k =>
    obtain ⟨h0, m, rfl⟩ := hu.last k hlast
    obtain ⟨s', hstore, hpass, hs⟩ := hu.store (e := e) (n := m) hlt hu.mounted rfl .refl Iff.rfl
      (by rw [if_neg h0, Nat.add_zero]) (hu.bears.used h0) (.had rfl h0)
    exact Or.inr ⟨m, s', _, Option.some_ne_none _, h0, hpass, hs, hstore⟩

theorem Stores.mapped_of_ne (hs : Stores geo i buf n s s') (hu : Underway geo i buf s)
    (hne : m ≠ n) : (volume geo s'.fs).mapped geo s'.inode m =
      (volume geo s.fs).mapped geo s.inode m := by
  obtain ⟨k, v, ht, -, hv⟩ := hs.target
  rw [hv, ht.mapped_stored hu.bears, ht.mapped_of_ne hne]

theorem Stores.mapped_same (hs : Stores geo i buf n s s') (hu : Underway geo i buf s) :
    (volume geo s'.fs).mapped geo s'.inode n ≠ 0 := by
  obtain ⟨k, v, ht, -, hv⟩ := hs.target
  rw [hv, ht.mapped_stored hu.bears, ht.mapped_same]
  exact ht.ne_zero

theorem Stores.mapped_kept (hs : Stores geo i buf n s s') (hu : Underway geo i buf s)
    (h0 : (volume geo s.fs).mapped geo s.inode m ≠ 0) :
    (volume geo s'.fs).mapped geo s'.inode m = (volume geo s.fs).mapped geo s.inode m := by
  by_cases hne : m = n
  · subst hne
    obtain ⟨k, v, ht, -, hv⟩ := hs.target
    rw [hv, ht.mapped_stored hu.bears, ht.mapped_same]
    exact ht.kept h0
  · exact hs.mapped_of_ne hu hne

theorem Stores.reaches (hs : Stores geo i buf n s s') (hr : s.inode.Reaches m) :
    s'.inode.Reaches m := by
  obtain ⟨k, v, ht, -⟩ := hs.target
  rcases hr with hr | hr
  · exact Or.inl hr
  · exact Or.inr ((ht.below.indirectBlk hr).trans_ne hr)

theorem Stores.blkIdx (hs : Stores geo i buf n s s') : s'.blkIdx ≠ none := by
  obtain ⟨k, v, -, hk, -⟩ := hs.target
  rw [hk]
  exact Option.some_ne_none k

end Pass

end ChisaiFs
