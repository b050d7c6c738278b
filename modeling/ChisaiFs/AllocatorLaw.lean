import ChisaiFs.Allocator

/-! Runs of the two allocators. An allocation behaves as the bitmap promises exactly when
the first group with a clear bit has a cached next index. -/

namespace ChisaiFs
open Outcome

inductive MapKind
  | data
  | inode
  deriving DecidableEq

def BlockGroups.maps (grps : BlockGroups) : MapKind → List GroupMap
  | .data => grps.data
  | .inode => grps.inode

def blkgrpsAlloc : MapKind → BlockGroups → Exec (ChisaiSize × BlockGroups)
  | .data => blkgrpsDataAlloc
  | .inode => blkgrpsInodeAlloc

def blkgrpsKindRelease : MapKind → BlockGroups → ChisaiSize → Exec BlockGroups
  | .data => blkgrpsDataRelease
  | .inode => blkgrpsInodeRelease

def blkgrpsKindExist : MapKind → BlockGroups → ChisaiSize → Exec Bool
  | .data => blkgrpsDataExist
  | .inode => blkgrpsInodeExist

inductive BlkOp
  | alloc (kind : MapKind)
  | release (kind : MapKind) (idx : ChisaiSize)

def BlkOp.step (grps : BlockGroups) : BlkOp → Exec BlockGroups
  | .alloc kind => Prod.snd <$> blkgrpsAlloc kind grps
  | .release kind idx => blkgrpsKindRelease kind grps idx

def BlkOp.Valid (grps : BlockGroups) : BlkOp → Prop
  | .alloc _ => True
  | .release kind idx => blkgrpsKindExist kind grps idx = .ok true

def BlkOp.IntoRoom (grps : BlockGroups) : BlkOp → Prop
  | .alloc _ => True
  | .release kind idx =>
    ∀ m, (grps.maps kind)[((idx - 1) / grps.blkInodeNum).toNat]? = some m → ¬ m.Full

/-- What one allocation owes: an index whose bit was clear, with that bit and no other set,
or 0 with no bit changed; and 0 exactly when no group has a clear bit. -/
def AllocLaw (blkSize : ℕ) (kind : MapKind) (grps : BlockGroups) : Prop :=
  ∃ idx grps', blkgrpsAlloc kind grps = .ok (idx, grps') ∧
    ((∃ p < (grps.maps kind).length * (8 * blkSize), idx.toNat = p + 1 ∧
        bitAt (8 * blkSize) (grps.maps kind) p = false ∧
        (∀ q, bitAt (8 * blkSize) (grps'.maps kind) q =
          (q == p || bitAt (8 * blkSize) (grps.maps kind) q)) ∧
        ∀ other ≠ kind, grps'.maps other = grps.maps other) ∨
      (idx = 0 ∧ ∀ other q, bitAt (8 * blkSize) (grps'.maps other) q =
        bitAt (8 * blkSize) (grps.maps other) q)) ∧
    (idx = 0 ↔ ∀ p < (grps.maps kind).length * (8 * blkSize),
      bitAt (8 * blkSize) (grps.maps kind) p = true)

section Steps

variable {b g : ℕ} {grps grps' : BlockGroups}

theorem GroupsOk.maps_ok (h : GroupsOk b g grps) (kind : MapKind) : MapsOk b (grps.maps kind) := by
  cases kind with
  | data => exact h.data
  | inode => exact h.inode

theorem GroupsOk.maps_length (h : GroupsOk b g grps) (kind : MapKind) :
    (grps.maps kind).length = g := by
  cases kind with
  | data => exact h.data_length
  | inode => exact h.inode_length

theorem AllPrimed.maps (h : AllPrimed grps) (kind : MapKind) : ∀ m ∈ grps.maps kind, m.Primed := by
  cases kind with
  | data => exact h.1
  | inode => exact h.2

def BlockGroups.withMaps (grps : BlockGroups) : MapKind → List GroupMap → BlockGroups
  | .data, ms => { grps with data := ms }
  | .inode, ms => { grps with inode := ms }

@[simp] theorem withMaps_same (kind : MapKind) (ms : List GroupMap) :
    (grps.withMaps kind ms).maps kind = ms := by
  cases kind <;> rfl

theorem withMaps_other {kind other : MapKind} (h : other ≠ kind) (ms : List GroupMap) :
    (grps.withMaps kind ms).maps other = grps.maps other := by
  cases kind <;> cases other <;> first | rfl | exact absurd rfl h

theorem blkgrpsAlloc_eq (kind : MapKind) :
    blkgrpsAlloc kind grps = blkgrpsAllocFrom grps.blkInodeNum 0 (grps.maps kind) >>= fun r =>
      pure (r.1, grps.withMaps kind r.2) := by
  cases kind <;> rfl

theorem blkgrpsKindRelease_eq (kind : MapKind) (idx : ChisaiSize) :
    blkgrpsKindRelease kind grps idx = blkgrpsRelease grps.blkInodeNum (grps.maps kind) idx >>=
      fun ms => pure (grps.withMaps kind ms) := by
  cases kind <;> rfl

theorem GroupsOk.withMaps (h : GroupsOk b g grps) (kind : MapKind) {ms : List GroupMap}
    (hok : MapsOk b ms) (hlen : ms.length = g) : GroupsOk b g (grps.withMaps kind ms) := by
  cases kind with
  | data => exact ⟨h.pos, h.fits, h.num, hok, hlen, h.inode, h.inode_length⟩
  | inode => exact ⟨h.pos, h.fits, h.num, h.data, h.data_length, hok, hlen⟩

theorem AllPrimed.withMaps (h : AllPrimed grps) (kind : MapKind) {ms : List GroupMap}
    (hp : ∀ m ∈ ms, m.Primed) : AllPrimed (grps.withMaps kind ms) := by
  cases kind with
  | data => exact ⟨hp, h.2⟩
  | inode => exact ⟨h.1, hp⟩

theorem GroupsOk.total (h : GroupsOk b g grps) (kind : MapKind) :
    ((0 : UInt32).toNat + (grps.maps kind).length) * (8 * b) < 2 ^ 32 := by
  rw [h.maps_length kind, UInt32.toNat_zero, Nat.zero_add]
  exact h.fits

theorem blkgrpsAlloc_spec (h : GroupsOk b g grps) (kind : MapKind) :
    (FirstPrimed (grps.maps kind) → ∃ idx ms',
      blkgrpsAlloc kind grps = .ok (idx, grps.withMaps kind ms') ∧
      AllocSpec b 0 (grps.maps kind) idx ms') ∧
    (¬ FirstPrimed (grps.maps kind) → blkgrpsAlloc kind grps = .error .outOfRange) := by
  have hspec := blkgrpsAllocFrom_spec h.pos h.num (h.maps_ok kind) (h.total kind)
  rw [blkgrpsAlloc_eq]
  refine ⟨fun hp => ?_, fun hp => ?_⟩
  · obtain ⟨idx, ms', he, hs⟩ := hspec.1 hp
    exact ⟨idx, ms', by rw [he]; rfl, hs⟩
  · rw [hspec.2 hp]
    rfl

theorem allocLaw_of_firstPrimed (h : GroupsOk b g grps) {kind : MapKind}
    (hp : FirstPrimed (grps.maps kind)) : AllocLaw b kind grps := by
  obtain ⟨idx, ms', he, hs⟩ := (blkgrpsAlloc_spec h kind).1 hp
  refine ⟨idx, _, he, ?_, ?_⟩
  · rcases hs.cases with ⟨h0, rfl, -⟩ | ⟨p, hp, hidx, hc, hbits⟩
    · refine Or.inr ⟨h0, fun other q => ?_⟩
      by_cases ho : other = kind
      · subst ho
        rw [withMaps_same]
      · rw [withMaps_other ho]
    · refine Or.inl ⟨p, hp, by omega, hc, ?_, fun other ho => withMaps_other ho ms'⟩
      simpa using hbits
  · rcases hs.cases with ⟨h0, -, hall⟩ | ⟨p, hp, hidx, hc, -⟩
    · exact ⟨fun _ => hall, fun _ => h0⟩
    · constructor
      · rintro rfl
        rw [UInt32.toNat_zero] at hidx
        omega
      · intro hall
        rw [hall p hp] at hc
        cases hc

theorem allocLaw_iff_firstPrimed (h : GroupsOk b g grps) (kind : MapKind) :
    AllocLaw b kind grps ↔ FirstPrimed (grps.maps kind) := by
  refine ⟨fun hlaw => ?_, allocLaw_of_firstPrimed h⟩
  by_contra hp
  obtain ⟨idx, grps', he, -⟩ := hlaw
  rw [(blkgrpsAlloc_spec h kind).2 hp] at he
  cases he

theorem blkgrpsKindRelease_spec (h : GroupsOk b g grps) (kind : MapKind) {idx : ChisaiSize}
    (hr : blkgrpsKindRelease kind grps idx = .ok grps') :
    ∃ ms', grps' = grps.withMaps kind ms' ∧ ((idx = 0 ∧ ms' = grps.maps kind) ∨
      (idx ≠ 0 ∧ ReleaseSpec b (grps.maps kind) idx ms')) := by
  rw [blkgrpsKindRelease_eq] at hr
  obtain ⟨ms', hms, he⟩ := bind_eq_ok.mp hr
  cases he
  exact ⟨ms', rfl, blkgrpsRelease_spec h.pos h.num (h.maps_ok kind) hms⟩

theorem BlkOp.step_ok (h : GroupsOk b g grps) {op : BlkOp} (hs : op.step grps = .ok grps') :
    GroupsOk b g grps' := by
  cases op with
  | alloc kind =>
    have hspec := blkgrpsAlloc_spec h kind
    by_cases hp : FirstPrimed (grps.maps kind)
    · obtain ⟨idx, ms', he, hs'⟩ := hspec.1 hp
      rw [BlkOp.step, he] at hs
      cases hs
      exact h.withMaps kind hs'.ok (hs'.length.trans (h.maps_length kind))
    · rw [BlkOp.step, hspec.2 hp] at hs
      cases hs
  | release kind idx =>
    obtain ⟨ms', rfl, ⟨-, rfl⟩ | ⟨-, hs'⟩⟩ := blkgrpsKindRelease_spec h kind hs
    · exact h.withMaps kind (h.maps_ok kind) (h.maps_length kind)
    · exact h.withMaps kind hs'.ok (hs'.length.trans (h.maps_length kind))

theorem BlkOp.step_primed (h : GroupsOk b g grps) (hp : AllPrimed grps) {op : BlkOp}
    (hroom : op.IntoRoom grps) (hs : op.step grps = .ok grps') : AllPrimed grps' := by
  cases op with
  | alloc kind =>
    obtain ⟨idx, ms', he, hs'⟩ :=
      (blkgrpsAlloc_spec h kind).1 (firstPrimed_of_primed (hp.maps kind))
    rw [BlkOp.step, he] at hs
    cases hs
    exact hp.withMaps kind (hs'.primed (hp.maps kind))
  | release kind idx =>
    obtain ⟨ms', rfl, ⟨-, rfl⟩ | ⟨-, hs'⟩⟩ := blkgrpsKindRelease_spec h kind hs
    · exact hp.withMaps kind (hp.maps kind)
    · refine hp.withMaps kind (hs'.primed (hp.maps kind) ?_)
      simpa only [BlkOp.IntoRoom, UInt32.toNat_div, h.num] using hroom

end Steps

/-- Every state of every run of valid allocations and releases over loaded groups owes its
next allocation exactly when the first group with a clear bit has a cached index; and a run
whose releases all go to groups with a clear bit only reaches states that do. -/
theorem blkgrps_alloc_law {d : Device} {blkSize groups : UInt32} {loaded : BlockGroups}
    (hpos : 0 < blkSize.toNat) (hfits : groups.toNat * (8 * blkSize.toNat) < 2 ^ 32)
    (hload : blkgrpsLoad d blkSize groups = .ok loaded) :
    (∀ grps, Reaches BlkOp.step BlkOp.Valid loaded grps → ∀ kind,
      AllocLaw blkSize.toNat kind grps ↔ FirstPrimed (grps.maps kind)) ∧
    ∀ grps, Reaches BlkOp.step (fun s op => op.Valid s ∧ op.IntoRoom s) loaded grps →
      ∀ kind, AllocLaw blkSize.toNat kind grps := by
  obtain ⟨hok, hprimed⟩ := blkgrpsLoad_spec hpos hfits hload
  refine ⟨fun grps hrun kind => ?_, fun grps hrun kind => ?_⟩
  · have hg := hrun.invariant (GroupsOk blkSize.toNat groups.toNat)
      (fun _ _ _ h _ hs => BlkOp.step_ok h hs) hok
    exact allocLaw_iff_firstPrimed hg kind
  · obtain ⟨hg, hp⟩ := hrun.invariant
      (fun s => GroupsOk blkSize.toNat groups.toNat s ∧ AllPrimed s)
      (fun _ _ _ h ha hs => ⟨BlkOp.step_ok h.1 hs, BlkOp.step_primed h.1 h.2 ha.2 hs⟩)
      ⟨hok, hprimed⟩
    exact allocLaw_of_firstPrimed hg (firstPrimed_of_primed (hp.maps kind))

/-- A group of 4096 bits: the first byte, then 511 equal ones. -/
def oneGroup (first fill : UInt8) (next : ChisaiSize) : GroupMap :=
  ⟨⟨first :: List.replicate 511 fill⟩, next⟩

theorem blankGroup_load : blkgrpsLoad ⟨2000, fun _ => 0⟩ 512 1 =
    .ok ⟨1, 4096, blkgrpBytes 512, [oneGroup 0 0 1], [oneGroup 0 0 1]⟩ := by
  decide +kernel

/-- Blocks 1 to 3 are in use when the group is loaded, and block 2 is released. -/
theorem blkgrps_alloc_law_thirdBlock :
    ∃ loaded grps, blkgrpsLoad ⟨2000, fun p => if p = 512 then 7 else 0⟩ 512 1 = .ok loaded ∧
      Reaches BlkOp.step (fun s op => op.Valid s ∧ op.IntoRoom s) loaded grps ∧
      grps.data = [oneGroup 5 0 4] ∧ AllocLaw 512 .data grps := by
  have hload : blkgrpsLoad ⟨2000, fun p => if p = 512 then 7 else 0⟩ 512 1 =
      .ok ⟨1, 4096, blkgrpBytes 512, [oneGroup 7 0 4], [oneGroup 0 0 1]⟩ := by
    decide +kernel
  have hvalid : (BlkOp.release .data 2).Valid
      ⟨1, 4096, blkgrpBytes 512, [oneGroup 7 0 4], [oneGroup 0 0 1]⟩ := by
    unfold BlkOp.Valid
    decide +kernel
  have hroom : (BlkOp.release .data 2).IntoRoom
      ⟨1, 4096, blkgrpBytes 512, [oneGroup 7 0 4], [oneGroup 0 0 1]⟩ := by
    rintro m hm hfull
    cases hm
    exact absurd hfull (by decide +kernel)
  have hstep : (BlkOp.release .data 2).step
      ⟨1, 4096, blkgrpBytes 512, [oneGroup 7 0 4], [oneGroup 0 0 1]⟩ =
      .ok ⟨1, 4096, blkgrpBytes 512, [oneGroup 5 0 4], [oneGroup 0 0 1]⟩ := by
    decide +kernel
  have hrun : Reaches BlkOp.step (fun s op => op.Valid s ∧ op.IntoRoom s) _ _ :=
    .tail (.release .data 2) .refl ⟨hvalid, hroom⟩ hstep
  exact ⟨_, _, hload, hrun, rfl, (blkgrps_alloc_law (by decide) (by decide) hload).2 _ hrun .data⟩

/-- Releasing index 1 of a full group leaves its cached index at 0, so the next allocation
sets a bit outside the bitmap although bit 0 is clear. -/
theorem blkgrps_alloc_after_full_release :
    ∃ loaded released, blkgrpsLoad ⟨2000, fun _ => 255⟩ 512 1 = .ok loaded ∧
      Reaches BlkOp.step BlkOp.Valid loaded released ∧
      bitAt 4096 released.data 0 = false ∧
      blkgrpsDataAlloc released = .error .outOfRange ∧ ¬ AllocLaw 512 .data released := by
  have hload : blkgrpsLoad ⟨2000, fun _ => 255⟩ 512 1 =
      .ok ⟨1, 4096, blkgrpBytes 512, [oneGroup 255 255 0], [oneGroup 255 255 0]⟩ := by
    decide +kernel
  have hvalid : (BlkOp.release .data 1).Valid
      ⟨1, 4096, blkgrpBytes 512, [oneGroup 255 255 0], [oneGroup 255 255 0]⟩ := by
    unfold BlkOp.Valid
    decide +kernel
  have hstep : (BlkOp.release .data 1).step
      ⟨1, 4096, blkgrpBytes 512, [oneGroup 255 255 0], [oneGroup 255 255 0]⟩ =
      .ok ⟨1, 4096, blkgrpBytes 512, [oneGroup 254 255 0], [oneGroup 255 255 0]⟩ := by
    decide +kernel
  have halloc : blkgrpsDataAlloc
      ⟨1, 4096, blkgrpBytes 512, [oneGroup 254 255 0], [oneGroup 255 255 0]⟩ =
      .error .outOfRange := by
    decide +kernel
  refine ⟨_, _, hload, .tail _ .refl hvalid hstep, by decide +kernel, halloc, ?_⟩
  rintro ⟨idx, grps', he, -⟩
  rw [show blkgrpsAlloc .data = blkgrpsDataAlloc from rfl, halloc] at he
  cases he

end ChisaiFs
