import ChisaiFs.AllocatorLaw
import ChisaiFs.Library.ClearCount

/-! Allocations without releases. Every cached next index is then the one that the search of
its bitmap would find, so the groups give out their clear indexes from the lowest on. -/

namespace ChisaiFs
open Outcome ClearCount

def GroupMap.Fresh (m : GroupMap) : Prop := m.next = UInt32.ofNat (bitvecFindFirstSet m.bitmap)

def AllFresh (grps : BlockGroups) : Prop := ∀ kind, ∀ m ∈ grps.maps kind, m.Fresh

/-- The indexes that a kind of bitmaps has to give out, in increasing order. -/
def freeIndexes (blkSize : ℕ) (ms : List GroupMap) : List ℕ :=
  (clears (ms.length * (8 * blkSize)) (bitAt (8 * blkSize) ms)).map (· + 1)

/-- Allocations of the listed kinds, one after the other, with what they return. -/
def blkgrpsAllocs : List MapKind → BlockGroups → Exec (List (MapKind × ChisaiSize) × BlockGroups)
  | [], grps => .ok ([], grps)
  | kind :: kinds, grps => do
    let (idx, grps) ← blkgrpsAlloc kind grps
    let (results, grps) ← blkgrpsAllocs kinds grps
    return ((kind, idx) :: results, grps)

def resultsOf (kind : MapKind) (results : List (MapKind × ChisaiSize)) : List ℕ :=
  (results.filter fun r => r.1 = kind).map fun r => r.2.toNat

/-- The first `n` elements of a list that goes on with zeros. -/
def firstOf (n : ℕ) (free : List ℕ) : List ℕ := (List.range n).map fun k => free.getD k 0

theorem firstOf_succ (n : ℕ) (free : List ℕ) :
    firstOf (n + 1) free = free.headD 0 :: firstOf n free.tail := by
  unfold firstOf
  rw [List.range_succ_eq_map, List.map_cons, List.map_map]
  cases free with
  | nil => rfl
  | cons i free => rfl

section Groups

variable {b : ℕ} {m : GroupMap} {ms ms' : List GroupMap} {n i : UInt32} {idx : ChisaiSize}

theorem GroupMap.Fresh.primed (h : m.Fresh) (hsize : m.bitmap.size = b) (hb : 8 * b < 2 ^ 32) :
    m.Primed := by
  have hm : blkgrpUpdateNext m = m := by
    unfold blkgrpUpdateNext
    rw [← h]
  rw [← hm]
  exact (updateNext_ok hsize hb).2

theorem updateNext_fresh (m : GroupMap) : (blkgrpUpdateNext m).Fresh := rfl

theorem GroupMap.Fresh.below (h : m.Fresh) (hsize : m.bitmap.size = b) (hb : 8 * b < 2 ^ 32)
    {q : ℕ} (hq : q + 1 < m.next.toNat) : m.bitmap.bit q = true := by
  rw [h] at hq
  rcases bitvecFindFirstSet_spec m.bitmap with ⟨h0, -⟩ | ⟨k, hk, hfind, -, hbelow⟩
  · rw [h0] at hq
    cases hq
  · rw [hsize] at hk
    rw [hfind, toNat_ofNat_of_lt (by omega)] at hq
    exact hbelow q (by omega)

theorem blkgrpAlloc_fresh {m' : GroupMap} (h : blkgrpAlloc m = .ok (idx, m')) : m'.Fresh := by
  obtain ⟨w, -, he⟩ := bind_eq_ok.mp h
  cases he
  exact updateNext_fresh _

theorem blkgrpsAllocFrom_least (hb : 0 < b) (hbit : 8 * b < 2 ^ 32) (hms : MapsOk b ms)
    (hfresh : ∀ m ∈ ms, m.Fresh) (he : blkgrpsAllocFrom n i ms = .ok (idx, ms')) :
    (∀ m ∈ ms', m.Fresh) ∧ ∀ p q, bitAt (8 * b) ms p = false → bitAt (8 * b) ms' p = true →
      q < p → bitAt (8 * b) ms q = true := by
  have hn : 0 < 8 * b := by omega
  induction ms generalizing i idx ms' with
  | nil =>
    cases he
    refine ⟨hfresh, fun p q hclear hset => ?_⟩
    rw [hclear] at hset
    cases hset
  | cons m ms ih =>
    obtain ⟨hm, hms⟩ := List.forall_mem_cons.mp hms
    obtain ⟨hfm, hfms⟩ := List.forall_mem_cons.mp hfresh
    by_cases hfull : m.Full
    · rw [blkgrpsAllocFrom_full hfull] at he
      obtain ⟨⟨idx', ms₁⟩, hrest, he⟩ := bind_eq_ok.mp he
      cases he
      obtain ⟨hf, hleast⟩ := ih hms hfms hrest
      refine ⟨List.forall_mem_cons.mpr ⟨hfm, hf⟩, fun p q hclear hset hq => ?_⟩
      by_cases hp : p < 8 * b
      · rw [bitAt_cons_lt hp] at hclear hset
        rw [hclear] at hset
        cases hset
      · rw [bitAt_cons_ge hn (not_lt.mp hp)] at hclear hset
        by_cases hq8 : q < 8 * b
        · rw [bitAt_cons_lt hq8]
          exact (full_iff hm.size hbit).mp hfull q hq8
        · rw [bitAt_cons_ge hn (not_lt.mp hq8)]
          exact hleast _ _ hclear hset (by omega)
    · rw [blkgrpsAllocFrom_free hfull] at he
      obtain ⟨⟨idx', m'⟩, halloc, he⟩ := bind_eq_ok.mp he
      cases he
      refine ⟨List.forall_mem_cons.mpr ⟨blkgrpAlloc_fresh halloc, hfms⟩,
        fun p q hclear hset hq => ?_⟩
      by_cases hp : p < 8 * b
      · rw [bitAt_cons_lt hp] at hclear hset
        rw [bitAt_cons_lt (hq.trans hp)]
        have hnext : m.next ≠ 0 := fun h0 => hfull (hfm.primed hm.size hbit h0)
        obtain ⟨m₁, halloc', -, -, hbits⟩ := blkgrpAlloc_of_next hm hbit hnext
        cases halloc.symm.trans halloc'
        have hpn : p = m.next.toNat - 1 := by simpa [hbits, hclear] using hset
        exact hfm.below hm.size hbit (by omega)
      · rw [bitAt_cons_ge hn (not_lt.mp hp)] at hclear hset
        rw [hclear] at hset
        cases hset

end Groups

/-- An allocation of the lowest index that is left of its kind. -/
structure Takes (b : ℕ) (kind : MapKind) (grps : BlockGroups) (idx : ChisaiSize)
    (grps' : BlockGroups) : Prop where
  idx : idx.toNat = (freeIndexes b (grps.maps kind)).headD 0
  rest : freeIndexes b (grps'.maps kind) = (freeIndexes b (grps.maps kind)).tail
  others : ∀ other, other ≠ kind → grps'.maps other = grps.maps other

section Runs

variable {b g : ℕ} {grps grps' : BlockGroups} {kinds : List MapKind}

theorem AllFresh.allPrimed (h : AllFresh grps) (hg : GroupsOk b g grps) (kind : MapKind) :
    ∀ m ∈ grps.maps kind, m.Primed := by
  intro m hm
  exact (h kind m hm).primed (hg.maps_ok kind m hm).size (hg.num ▸ grps.blkInodeNum.toNat_lt)

theorem freeIndexes_of_set {ms : List GroupMap}
    (h : ∀ p < ms.length * (8 * b), bitAt (8 * b) ms p = true) : freeIndexes b ms = [] := by
  rw [freeIndexes, clears_of_set h, List.map_nil]

theorem blkgrpsAlloc_takes (hg : GroupsOk b g grps) (hf : AllFresh grps) (kind : MapKind) :
    ∃ idx grps', blkgrpsAlloc kind grps = .ok (idx, grps') ∧ Takes b kind grps idx grps' ∧
      GroupsOk b g grps' ∧ AllFresh grps' := by
  have hms := hg.maps_ok kind
  have hbit : 8 * b < 2 ^ 32 := hg.num ▸ grps.blkInodeNum.toNat_lt
  obtain ⟨idx, ms', he, hs⟩ := (blkgrpsAllocFrom_spec hg.pos hg.num hms (hg.total kind)).1
    (firstPrimed_of_primed (hf.allPrimed hg kind))
  obtain ⟨hfresh, hleast⟩ := blkgrpsAllocFrom_least hg.pos hbit hms (hf kind) he
  refine ⟨idx, grps.withMaps kind ms', by rw [blkgrpsAlloc_eq, he]; rfl, ⟨?_, ?_, ?_⟩,
    hg.withMaps kind hs.ok (hs.length.trans (hg.maps_length kind)), ?_⟩
  · rcases hs.cases with ⟨rfl, -, hall⟩ | ⟨p, hp, hidx, hclear, hbits⟩
    · rw [freeIndexes_of_set hall]
      rfl
    · rw [freeIndexes, clears_of_least hp hclear
        (fun q hq => hleast p q hclear (by simp [hbits]) hq) hbits, hidx]
      simp
  · rw [withMaps_same]
    rcases hs.cases with ⟨-, rfl, hall⟩ | ⟨p, hp, -, hclear, hbits⟩
    · rw [freeIndexes_of_set hall]
      rfl
    · rw [freeIndexes, freeIndexes, hs.length, clears_of_least hp hclear
        (fun q hq => hleast p q hclear (by simp [hbits]) hq) hbits]
      rfl
  · exact fun other ho => withMaps_other ho ms'
  · intro other
    by_cases ho : other = kind
    · subst ho
      rw [withMaps_same]
      exact hfresh
    · rw [withMaps_other ho]
      exact hf other

theorem blkgrpsAlloc_of_full (h : ∀ kind, ∀ m ∈ grps.maps kind, m.Full) (kind : MapKind) :
    blkgrpsAlloc kind grps = .ok (0, grps) := by
  have hall : ∀ (n i : UInt32) (ms : List GroupMap), (∀ m ∈ ms, m.Full) →
      blkgrpsAllocFrom n i ms = .ok (0, ms) := by
    intro n i ms hms
    induction ms generalizing i with
    | nil => rfl
    | cons m ms ih =>
      obtain ⟨hm, hms⟩ := List.forall_mem_cons.mp hms
      rw [blkgrpsAllocFrom_full hm, ih _ hms]
      rfl
  rw [blkgrpsAlloc_eq, hall _ _ _ (h kind)]
  cases kind <;> rfl

theorem blkgrpsAllocs_takes (inv : BlockGroups → Prop)
    (hstep : ∀ grps, inv grps → ∀ kind, ∃ idx grps', blkgrpsAlloc kind grps = .ok (idx, grps') ∧
      Takes b kind grps idx grps' ∧ inv grps') (h : inv grps) :
    ∃ results final, blkgrpsAllocs kinds grps = .ok (results, final) ∧
      results.map Prod.fst = kinds ∧ ∀ kind, resultsOf kind results =
        firstOf (kinds.count kind) (freeIndexes b (grps.maps kind)) := by
  induction kinds generalizing grps with
  | nil => exact ⟨[], grps, rfl, rfl, fun _ => rfl⟩
  | cons kind kinds ih =>
    obtain ⟨idx, grps', he, ht, h'⟩ := hstep grps h kind
    obtain ⟨results, final, hrest, hkinds, hresults⟩ := ih h'
    refine ⟨(kind, idx) :: results, final, ?_, ?_, fun other => ?_⟩
    · rw [blkgrpsAllocs, he, ok_bind]
      dsimp only
      rw [hrest]
      rfl
    · rw [List.map_cons, hkinds]
    · by_cases ho : kind = other
      · subst ho
        have hcons : resultsOf kind ((kind, idx) :: results) =
            idx.toNat :: resultsOf kind results := by
          simp [resultsOf]
        rw [hcons, hresults, List.count_cons_self, firstOf_succ, ht.idx, ht.rest]
      · have hcons : resultsOf other ((kind, idx) :: results) = resultsOf other results := by
          simp [resultsOf, ho]
        rw [hcons, hresults, List.count_cons_of_ne ho, ht.others other (Ne.symm ho)]

end Runs

section Loaded

variable {d : Device} {blkSize groups : UInt32} {loaded : BlockGroups}

theorem loaded_maps (h : blkgrpsLoad d blkSize groups = .ok loaded) (kind : MapKind) :
    ∃ off : ℕ → ℕ, loaded.maps kind =
      (List.range' 0 groups.toNat).map fun j => loadedMap d (off j) blkSize.toNat := by
  unfold blkgrpsLoad at h
  split_ifs at h
  obtain ⟨⟨data, inode⟩, hload, he⟩ := bind_eq_ok.mp h
  cases he
  obtain ⟨hdata, hinode⟩ := blkgrpsLoadFrom_eq_ok hload
  cases kind with
  | data => exact ⟨_, hdata⟩
  | inode => exact ⟨_, hinode⟩

theorem blkgrpsLoad_fresh (h : blkgrpsLoad d blkSize groups = .ok loaded) : AllFresh loaded := by
  intro kind m hm
  obtain ⟨off, hmaps⟩ := loaded_maps h kind
  rw [hmaps] at hm
  obtain ⟨j, -, rfl⟩ := List.mem_map.mp hm
  exact updateNext_fresh _

theorem blkgrpsLoad_length (h : blkgrpsLoad d blkSize groups = .ok loaded) (kind : MapKind) :
    (loaded.maps kind).length = groups.toNat := by
  obtain ⟨off, hmaps⟩ := loaded_maps h kind
  simp [hmaps]

theorem blkgrpsLoad_empty (h0 : blkSize.toNat = 0)
    (h : blkgrpsLoad d blkSize groups = .ok loaded) (kind : MapKind) :
    ∀ m ∈ loaded.maps kind, m.Full := by
  intro m hm
  obtain ⟨off, hmaps⟩ := loaded_maps h kind
  rw [hmaps] at hm
  obtain ⟨j, -, rfl⟩ := List.mem_map.mp hm
  have hsize : (loadedMap d (off j) blkSize.toNat).bitmap.size = 0 := by
    rw [h0]
    rfl
  exact (full_iff hsize (by norm_num)).mpr fun k hk => absurd hk (Nat.not_lt_zero k)

/-- Allocations of both kinds in any order return, for each kind, the indexes that were clear
when the groups were read, from the lowest to the highest, and then 0. -/
theorem blkgrps_enumerates (hfits : groups.toNat * (8 * blkSize.toNat) < 2 ^ 32)
    (hload : blkgrpsLoad d blkSize groups = .ok loaded) :
    (∀ kinds, ∃ results final, blkgrpsAllocs kinds loaded = .ok (results, final) ∧
      results.map Prod.fst = kinds ∧ ∀ kind, resultsOf kind results =
        firstOf (kinds.count kind) (freeIndexes blkSize.toNat (loaded.maps kind))) ∧
    ∀ kind, (freeIndexes blkSize.toNat (loaded.maps kind)).Pairwise (· < ·) ∧
      (∀ i, i ∈ freeIndexes blkSize.toNat (loaded.maps kind) ↔
        1 ≤ i ∧ i ≤ groups.toNat * (8 * blkSize.toNat) ∧
          bitAt (8 * blkSize.toNat) (loaded.maps kind) (i - 1) = false) ∧
      ((∀ p < groups.toNat * (8 * blkSize.toNat),
          bitAt (8 * blkSize.toNat) (loaded.maps kind) p = false) →
        ∀ k < groups.toNat * (8 * blkSize.toNat),
          (freeIndexes blkSize.toNat (loaded.maps kind)).getD k 0 = k + 1) := by
  constructor
  · intro kinds
    rcases Nat.eq_zero_or_pos blkSize.toNat with h0 | hpos
    · apply blkgrpsAllocs_takes (fun grps => ∀ kind, ∀ m ∈ grps.maps kind, m.Full) ?_
        (blkgrpsLoad_empty h0 hload)
      intro grps h kind
      have hnone : ∀ ms, freeIndexes blkSize.toNat ms = [] := by
        intro ms
        apply freeIndexes_of_set
        intro p hp
        simp [h0] at hp
      exact ⟨0, grps, blkgrpsAlloc_of_full h kind,
        ⟨by rw [hnone]; rfl, by rw [hnone]; rfl, fun _ _ => rfl⟩, h⟩
    · apply blkgrpsAllocs_takes
        (fun grps => GroupsOk blkSize.toNat groups.toNat grps ∧ AllFresh grps) ?_
        ⟨(blkgrpsLoad_spec hpos hfits hload).1, blkgrpsLoad_fresh hload⟩
      intro grps h kind
      exact blkgrpsAlloc_takes h.1 h.2 kind
  · intro kind
    have hlen := blkgrpsLoad_length hload kind
    refine ⟨?_, fun i => ?_, fun hall k hk => ?_⟩
    · rw [freeIndexes, List.pairwise_map]
      exact (clears_increasing _ _).imp Nat.succ_lt_succ
    · rw [freeIndexes, hlen, List.mem_map]
      constructor
      · rintro ⟨p, hp, rfl⟩
        obtain ⟨hlt, hclear⟩ := mem_clears.mp hp
        exact ⟨Nat.succ_pos p, hlt, hclear⟩
      · rintro ⟨hi, hle, hclear⟩
        exact ⟨i - 1, mem_clears.mpr ⟨by omega, hclear⟩, by omega⟩
    · rw [freeIndexes, hlen, clears_of_clear hall]
      simp [hk]

end Loaded

theorem blkgrps_enumerates_blank :
    ∃ loaded results final, blkgrpsLoad ⟨2000, fun _ => 0⟩ 512 1 = .ok loaded ∧
      blkgrpsAllocs [.data, .inode, .data] loaded = .ok (results, final) ∧
      resultsOf .data results = firstOf 2 (freeIndexes 512 (loaded.maps .data)) := by
  obtain ⟨hruns, -⟩ := blkgrps_enumerates (by decide) blankGroup_load
  obtain ⟨results, final, he, -, hresults⟩ := hruns [.data, .inode, .data]
  exact ⟨_, results, final, blankGroup_load, he, hresults .data⟩

end ChisaiFs
