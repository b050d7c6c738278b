import ChisaiFs.Chain
import ChisaiFs.Straying

/-! The loop of a write as a chain of passes. It ends with the buffer, with the room, or where it
leaves the device: at the lookup behind the direct blocks of a file without an indirect block. -/

namespace ChisaiFs
open Cells Words Outcome Recorded

/-- A write keeps to the device: if it gets behind the direct blocks of a file without an indirect
block, the lookup there finds no entry, and the room has not just one block left for the two that
it takes then. -/
def Lands (e : Stray) (geo : Geometry) (fs : Filesystem) (x : Inode) (len off : ℕ) : Prop :=
  x.indirectBlk = 0 → off % geo.span < geo.maxFileSize →
    directBlksNum * geo.blkSize < off % geo.span + len →
    (volume geo fs).holes geo x (off % geo.span / geo.blkSize) directBlksNum ≤ fs.room →
    e.Blank (off + (directBlksNum * geo.blkSize - off % geo.span))
        (geo.strayOff (max (off % geo.span / geo.blkSize) directBlksNum)) ∧
      fs.room ≠ (volume geo fs).holes geo x (off % geo.span / geo.blkSize) directBlksNum + 1

instance (e : Stray) (geo : Geometry) (fs : Filesystem) (x : Inode) (len off : ℕ) :
    Decidable (Lands e geo fs x len off) :=
  inferInstanceAs (Decidable (_ → _ → _ → _ → _ ∧ _))

def WriteState.Calm (e : Stray) (geo : Geometry) (buf : List UInt8) (s : WriteState) : Prop :=
  s.inode.indirectBlk ≠ 0 ∨ (s.blkIdx = none ∧ geo.maxFileSize ≤ s.off % geo.span) ∨
    (s.off % geo.span < geo.maxFileSize ∧
      Lands e geo s.fs s.inode (buf.length - s.total) s.off)

abbrev WriteState.num (geo : Geometry) (s : WriteState) : ℕ := s.off % geo.span / geo.blkSize

/-- How the loop of a write goes on from a state. -/
inductive WriteRun (e : Stray) (geo : Geometry) (i : ChisaiSize) (buf : List UInt8) :
    WriteState → Traced (WriteState × Bool) → Prop
  | done {s : WriteState} (hu : Underway geo i buf s) (ht : s.total = buf.length) :
      WriteRun e geo i buf s (pure (s, false))
  | pass {s s' : WriteState} {log : List Passed} {r : Traced (WriteState × Bool)}
      (hp : Pass geo i buf s s')
      (hreal : AllReal geo log ↔ s.inode.Reaches (s.num geo) ∨ geo.maxFileSize ≤ s.off % geo.span)
      (rest : WriteRun e geo i buf s' r) :
      WriteRun e geo i buf s ((⟨log, .ok ()⟩ : Traced Unit) >>= fun _ => r)
  | full {s s' : WriteState} {log : List Passed} (hu : Underway geo i buf s)
      (hlt : s.total < buf.length) (hlim : s.off % geo.span < geo.maxFileSize)
      (hreal : AllReal geo log ↔ s.inode.Reaches (s.num geo))
      (h0 : (volume geo s.fs).mapped geo s.inode (s.num geo) = 0) (hroom : s.fs.room = 0)
      (hprimed : s.fs.DataPrimed) (htotal : s'.total = s.total) (hfs : s'.fs = s.fs)
      (hinode : s'.inode = s.inode) : WriteRun e geo i buf s ⟨log, .ok (s', true)⟩
  | stuck {s : WriteState} {log : List Passed} (hu : Underway geo i buf s)
      (hlt : s.total < buf.length) (hlim : s.off % geo.span < geo.maxFileSize)
      (hreal : AllReal geo log ↔ s.inode.Reaches (s.num geo))
      (h0 : (volume geo s.fs).mapped geo s.inode (s.num geo) = 0) (hroom : s.fs.room = 0)
      (hprimed : ¬ s.fs.DataPrimed) : WriteRun e geo i buf s ⟨log, .error .outOfRange⟩
  | unset {s : WriteState} (hu : Underway geo i buf s) (hlt : s.total < buf.length)
      (hge : geo.maxFileSize ≤ s.off % geo.span) (hnone : s.blkIdx = none) :
      WriteRun e geo i buf s (quiet (.error .uninitialised))
  | stray {s : WriteState} {fuel : ℕ} (hu : Underway geo i buf s) (hlt : s.total < buf.length)
      (hlim : s.off % geo.span < geo.maxFileSize) (hnot : ¬ s.inode.Reaches (s.num geo))
      (hmem : ⟨s.fs.blkGrps, 0⟩ ∈ (Traced.fsWriteLoop e buf fuel s).log)
      (hcalm : ¬ (e.Blank s.off (geo.strayOff (s.num geo)) ∧ s.fs.room ≠ 1)) :
      WriteRun e geo i buf s (Traced.fsWriteLoop e buf fuel s)

section Calm

variable {e : Stray} {geo : Geometry} {i : ChisaiSize} {buf : List UInt8} {s t : WriteState}

theorem WriteState.not_reaches (h : ¬ s.inode.Reaches (s.num geo)) :
    directBlksNum * geo.blkSize ≤ s.off % geo.span ∧ s.inode.indirectBlk = 0 := by
  obtain ⟨hn, hi⟩ := not_or.mp h
  exact ⟨(Nat.le_div_iff_mul_le geo.blkSize_pos).mp (not_lt.mp hn), not_not.mp hi⟩

/-- At the lookup that leaves the device. -/
theorem WriteState.Calm.stray (hc : s.Calm e geo buf) (hlt : s.total < buf.length)
    (hlim : s.off % geo.span < geo.maxFileSize) (hnot : ¬ s.inode.Reaches (s.num geo)) :
    e.Blank s.off (geo.strayOff (s.num geo)) ∧ s.fs.room ≠ 1 := by
  obtain ⟨hge, hi⟩ := WriteState.not_reaches hnot
  rcases hc with hne | ⟨-, hmax⟩ | ⟨-, hlands⟩
  · exact absurd hi hne
  · omega
  · have hnum : directBlksNum ≤ s.num geo := not_lt.mp (not_or.mp hnot).1
    have hzero := @Volume.holes_of_le geo (volume geo s.fs) s.inode _ _ hnum
    obtain ⟨hblank, hroom⟩ := hlands hi hlim (by omega) (by rw [hzero]; exact Nat.zero_le _)
    rw [Nat.sub_eq_zero_of_le hge, Nat.add_zero, Nat.max_eq_left hnum] at hblank
    rw [hzero] at hroom
    exact ⟨hblank, hroom⟩

theorem Pass.calm (hp : Pass geo i buf s t) (hc : s.Calm e geo buf) : t.Calm e geo buf := by
  obtain ⟨htotal, hoff⟩ := hp.total
  by_cases hi : t.inode.indirectBlk = 0
  swap
  · exact Or.inl hi
  obtain ⟨n, hs⟩ := hp.stores
  have hi₀ : s.inode.indirectBlk = 0 := by
    by_contra hne
    exact hne ((hs.below.indirectBlk hne).symm.trans hi)
  rcases hc with hne | ⟨hnone, hge⟩ | ⟨hlim, hlands⟩
  · exact absurd hi₀ hne
  · cases hp with
    | mid _ _ hlim => omega
    | past _ _ _ hlast => exact absurd hnone hlast
  · -- the pass was over a direct block, and the rest of the write is still in front of it
    have hs := hp.mid_stores hlim
    have hdirect : s.off % geo.span / geo.blkSize < directBlksNum := by
      by_contra hge
      exact (hs.reaches_self.resolve_left hge) hi
    have hmax := geo.direct_lt_max
    obtain ⟨-, hpos, hle, hnext⟩ := hp.direct hdirect
    refine Or.inr (Or.inr ⟨by have hblk := geo.blkSize_pos; omega, ?_⟩)
    intro _ _ hlt hholes
    obtain ⟨hnum, hroom⟩ := hnext (by omega)
    rw [hnum] at hholes ⊢
    obtain ⟨hblank, hne⟩ := hlands hi₀ hlim (by omega) (by omega)
    rw [Nat.max_eq_right hdirect.le] at hblank
    rw [Nat.max_eq_right (Nat.succ_le_of_lt hdirect)]
    refine ⟨?_, by omega⟩
    have hat : t.off + (directBlksNum * geo.blkSize - t.off % geo.span) =
        s.off + (directBlksNum * geo.blkSize - s.off % geo.span) := by omega
    rw [hat]
    exact hblank

theorem Passes.calm (h : Passes geo i buf s t) (hc : s.Calm e geo buf) : t.Calm e geo buf := by
  induction h with
  | refl => exact hc
  | tail _ hp ih => exact hp.calm ih

end Calm

section Runs

variable {e : Stray} {geo : Geometry} {i : ChisaiSize} {buf : List UInt8} {s t u : WriteState}
  {r : Traced (WriteState × Bool)} {ns : Bool} {fuel q : ℕ}

theorem Underway.stray_log (hformat : geo.AsFormatted) (hu : Underway geo i buf s)
    (hlt : s.total < buf.length) (hlim : s.off % geo.span < geo.maxFileSize)
    (hnot : ¬ s.inode.Reaches (s.num geo)) :
    ⟨s.fs.blkGrps, 0⟩ ∈ (Traced.fsWriteLoop e buf (fuel + 1) s).log := by
  obtain ⟨hn, hi⟩ := not_or.mp hnot
  have hfind := @Traced.fsFindBlk_stray e geo s.fs s.inode s.off _ s.blkIdx hu.mounted hformat rfl hn
    (Geometry.lt_blkLimit_iff.mpr hlim) (not_not.mp hi)
  rw [Traced.fsWriteLoop, if_pos hlt]
  refine mem_log_bind.mpr (Or.inl ?_)
  unfold Traced.fsWriteChunk
  refine mem_log_bind.mpr (Or.inl ?_)
  rw [hfind]
  exact List.mem_singleton.mpr rfl

theorem Underway.run (hformat : geo.AsFormatted) (hu : Underway geo i buf s)
    (hfuel : buf.length - s.total ≤ fuel) :
    WriteRun e geo i buf s (Traced.fsWriteLoop e buf fuel s) := by
  induction fuel generalizing s with
  | zero =>
    have hle := hu.total_le
    rw [Traced.fsWriteLoop, if_neg (by omega)]
    exact .done hu (by omega)
  | succ fuel ih =>
    have hle := hu.total_le
    by_cases hlt : s.total < buf.length
    swap
    · rw [Traced.fsWriteLoop, if_neg hlt]
      exact .done hu (by omega)
    have hnext : ∀ t, Pass geo i buf s t →
        WriteRun e geo i buf t (Traced.fsWriteLoop e buf fuel t) := by
      intro t hp
      have htotal := hp.total.1
      have hpiece := s.piece_pos geo hlt
      exact ih hp.underway.2 (by omega)
    by_cases hlim : s.off % geo.span < geo.maxFileSize
    · by_cases hcalm : s.inode.Reaches (s.num geo) ∨
          e.Blank s.off (geo.strayOff (s.num geo)) ∧ s.fs.room ≠ 1
      · have hpass := hu.pass (e := e) hlt rfl (Geometry.lt_blkLimit_iff.mpr hlim)
          (hcalm.imp_right fun h => ⟨hformat, h⟩)
        rw [Traced.fsWriteLoop, if_pos hlt]
        generalize Traced.fsWriteChunk e buf s = r at hpass ⊢
        cases hpass with
        | @stored s' log hreal hs =>
          have hp : Pass geo i buf s s' := .mid hu hlt hlim hs
          exact .pass hp (hreal.trans (or_iff_left (not_le.mpr hlim)).symm) (hnext s' hp)
        | @full s' log hreal h0 hroom hprimed htotal hfs hinode =>
          change WriteRun e geo i buf s ⟨log ++ [], .ok (s', true)⟩
          rw [List.append_nil]
          exact .full hu hlt hlim hreal h0 hroom hprimed htotal hfs hinode
        | stuck hreal h0 hroom hprimed =>
          rw [mk_error_bind]
          exact .stuck hu hlt hlim hreal h0 hroom hprimed
      · obtain ⟨hnot, hcalm⟩ := not_or.mp hcalm
        exact .stray hu hlt hlim hnot (hu.stray_log hformat hlt hlim hnot) hcalm
    · have hge := not_lt.mp hlim
      rw [Traced.fsWriteLoop, if_pos hlt]
      rcases hu.past (e := e) hlt rfl (not_lt.mp (mt Geometry.lt_blkLimit_iff.mp hlim)) with
        ⟨hnone, hchunk⟩ | ⟨m, s', p, hlast, h0, hreal, hs, hchunk⟩
      · rw [hchunk, quiet_error_bind]
        exact .unset hu hlt hge hnone
      · have hp : Pass geo i buf s s' := .past hu hlt hge hlast h0 hs
        rw [hchunk]
        exact .pass hp (iff_of_true (List.forall_mem_singleton.mpr hreal) (Or.inr hge))
          (hnext s' hp)

/-- The state `u` in which a write ended with `t`: at the end of its buffer, or without room. -/
structure Ended (geo : Geometry) (i : ChisaiSize) (buf : List UInt8) (u t : WriteState)
    (nospace : Bool) : Prop where
  underway : Underway geo i buf u
  total : t.total = u.total
  fs : t.fs = u.fs
  inode : t.inode = u.inode
  cases : (nospace = false ∧ u.total = buf.length) ∨
    (nospace = true ∧ u.total < buf.length ∧ u.off % geo.span < geo.maxFileSize ∧
      (volume geo u.fs).mapped geo u.inode (u.num geo) = 0 ∧ u.fs.room = 0 ∧ u.fs.DataPrimed)

/-- The state `u` in which a write that returned `t` left the device. -/
structure Strayed (e : Stray) (geo : Geometry) (buf : List UInt8) (u : WriteState)
    (r : Exec (WriteState × Bool)) : Prop where
  lt : u.total < buf.length
  lim : u.off % geo.span < geo.maxFileSize
  unreached : ¬ u.inode.Reaches (u.num geo)
  calm : ¬ (e.Blank u.off (geo.strayOff (u.num geo)) ∧ u.fs.room ≠ 1)
  loop : ∃ fuel, (Traced.fsWriteLoop e buf fuel u).result = r

theorem WriteRun.underway (h : WriteRun e geo i buf s r) : Underway geo i buf s := by
  cases h with
  | pass hp => exact hp.underway.1
  | _ => assumption

/-- A write that returns ends after some passes, unless it strays. -/
theorem WriteRun.passes (h : WriteRun e geo i buf s r) (hr : r.result = .ok (t, ns)) :
    ∃ u, Passes geo i buf s u ∧
      (Ended geo i buf u t ns ∨ Strayed e geo buf u (.ok (t, ns))) := by
  induction h with
  | done hu ht =>
    cases hr
    exact ⟨_, .refl, Or.inl ⟨hu, rfl, rfl, rfl, Or.inl ⟨rfl, ht⟩⟩⟩
  | pass hp _ _ ih =>
    obtain ⟨u, hrun, hend⟩ := ih hr
    exact ⟨u, .head hp hrun, hend⟩
  | @full s s' log hu hlt hlim _ h0 hroom hprimed htotal hfs hinode =>
    cases hr
    exact ⟨s, .refl, Or.inl ⟨hu, htotal, hfs, hinode,
      Or.inr ⟨rfl, hlt, hlim, h0, hroom, hprimed⟩⟩⟩
  | stuck => cases hr
  | unset => cases hr
  | @stray s fuel hu hlt hlim hnot _ hcalm =>
    exact ⟨s, .refl, Or.inr ⟨hlt, hlim, hnot, hcalm, fuel, hr⟩⟩

theorem WriteRun.ended (h : WriteRun e geo i buf s r) (hc : s.Calm e geo buf)
    (hr : r.result = .ok (t, ns)) : ∃ u, Passes geo i buf s u ∧ Ended geo i buf u t ns := by
  obtain ⟨u, hrun, hend | hstray⟩ := h.passes hr
  · exact ⟨u, hrun, hend⟩
  · exact absurd ((hrun.calm hc).stray hstray.lt hstray.lim hstray.unreached) hstray.calm

/-- A write that keeps to the device returns, unless a bitmap is stuck or it starts behind the
limit. -/
theorem WriteRun.returns (h : WriteRun e geo i buf s r) (hc : s.Calm e geo buf)
    (hprimed : s.fs.DataPrimed) (hset : s.off % geo.span < geo.maxFileSize ∨ s.blkIdx ≠ none) :
    ∃ t ns, r.result = .ok (t, ns) := by
  induction h with
  | done => exact ⟨_, _, rfl⟩
  | pass hp _ _ ih =>
    obtain ⟨n, hs⟩ := hp.stores
    exact ih (hp.calm hc) (hs.primed.mpr hprimed) (Or.inr hs.blkIdx)
  | full => exact ⟨_, _, rfl⟩
  | stuck _ _ _ _ _ _ hstuck => exact absurd hprimed hstuck
  | unset _ _ hge hnone => exact hset.elim (fun hlt => by omega) fun hne => absurd hnone hne
  | stray _ hlt hlim hnot _ hcalm => exact absurd (hc.stray hlt hlim hnot) hcalm

theorem WriteState.num_lt_iff {s : WriteState} : s.num geo < directBlksNum ↔
    s.off % geo.span < directBlksNum * geo.blkSize :=
  Nat.div_lt_iff_lt_mul geo.blkSize_pos

/-- The passes from `s` on do not get behind the direct blocks of a file without an indirect
block. -/
def WriteState.StaysReached (geo : Geometry) (buf : List UInt8) (s : WriteState) : Prop :=
  s.inode.indirectBlk ≠ 0 ∨ s.total = buf.length ∨
    s.off % geo.span + (buf.length - s.total) ≤ directBlksNum * geo.blkSize ∨
    (s.off % geo.span < directBlksNum * geo.blkSize ∧
      s.fs.room < (volume geo s.fs).holes geo s.inode (s.num geo) directBlksNum)

theorem WriteState.staysReached_of_full (hlt : s.total < buf.length)
    (h0 : (volume geo s.fs).mapped geo s.inode (s.num geo) = 0) (hroom : s.fs.room = 0) :
    s.StaysReached geo buf ↔ s.inode.Reaches (s.num geo) := by
  rw [Inode.Reaches, WriteState.num_lt_iff]
  constructor
  · rintro (hi | hfull | hdirect | ⟨hin, -⟩)
    · exact Or.inr hi
    · omega
    · exact Or.inl (by omega)
    · exact Or.inl hin
  · rintro (hin | hi)
    · refine Or.inr (Or.inr (Or.inr ⟨hin, ?_⟩))
      rw [Volume.holes_succ (WriteState.num_lt_iff.mpr hin), if_pos h0]
      omega
    · exact Or.inl hi

theorem WriteState.not_staysReached (hlt : s.total < buf.length)
    (hnot : ¬ s.inode.Reaches (s.num geo)) : ¬ s.StaysReached geo buf := by
  obtain ⟨hge, hi⟩ := WriteState.not_reaches hnot
  rintro (hne | hfull | hdirect | ⟨hin, -⟩)
  · exact hne hi
  all_goals omega

theorem Pass.advance {s' : WriteState} (hp : Pass geo i buf s s')
    (hmax : s.off % geo.span + (buf.length - s.total) ≤ geo.maxFileSize) :
    s'.total = s.total + (s.piece geo buf).length ∧
      s'.off % geo.span = s.off % geo.span + (s.piece geo buf).length := by
  have hlt := hp.lt
  have hspan := geo.max_lt_span
  have hle := s.piece_length geo buf
  obtain ⟨htotal, hoff⟩ := hp.total
  refine ⟨htotal, ?_⟩
  rw [hoff, Geometry.mod_span_add (by omega)]

theorem Pass.staysReached_iff {s' : WriteState} (hp : Pass geo i buf s s')
    (hmax : s.off % geo.span + (buf.length - s.total) ≤ geo.maxFileSize) :
    s.StaysReached geo buf ↔ s.inode.Reaches (s.num geo) ∧ s'.StaysReached geo buf := by
  have hlt := hp.lt
  obtain ⟨htotal, hpos⟩ := hp.advance hmax
  have hle := hp.underway.2.total_le
  by_cases hn : s.num geo < directBlksNum
  · obtain ⟨hi, -, hdirect, hnext⟩ := hp.direct hn
    have hin := WriteState.num_lt_iff.mp hn
    refine Iff.trans ?_ (and_iff_right (Or.inl hn)).symm
    unfold WriteState.StaysReached
    rw [hi]
    refine or_congr Iff.rfl ?_
    by_cases hrest : s'.total < buf.length
    · obtain ⟨hnum, hroom⟩ := hnext hrest
      rw [show s'.num geo = s.num geo + 1 from hnum]
      change (volume geo s.fs).holes geo s.inode (s.num geo) directBlksNum + _ =
        (volume geo s'.fs).holes geo s'.inode (s.num geo + 1) directBlksNum + _ at hroom
      by_cases hin' : s'.off % geo.span < directBlksNum * geo.blkSize
      · omega
      · have hzero : (volume geo s'.fs).holes geo s'.inode (s.num geo + 1) directBlksNum = 0 := by
          rw [← WriteState.num_lt_iff, show s'.num geo = s.num geo + 1 from hnum] at hin'
          exact Volume.holes_of_le (not_lt.mp hin')
        omega
    · exact iff_of_true (Or.inr (Or.inl (by omega))) (Or.inl (by omega))
  · by_cases hi : s.inode.indirectBlk = 0
    · have hnot : ¬ s.inode.Reaches (s.num geo) := not_or.mpr ⟨hn, not_not.mpr hi⟩
      exact iff_of_false (WriteState.not_staysReached hlt hnot) fun h => hnot h.1
    · obtain ⟨n, hs⟩ := hp.stores
      exact iff_of_true (Or.inl hi)
        ⟨Or.inr hi, Or.inl ((hs.below.indirectBlk hi).trans_ne hi)⟩

/-- A write passes indexes of marked blocks only, as long as it does not get behind the direct
blocks of a file without an indirect block. -/
theorem WriteRun.real_iff (h : WriteRun e geo i buf s r)
    (hmax : s.off % geo.span + (buf.length - s.total) ≤ geo.maxFileSize) :
    AllReal geo r.log ↔ s.StaysReached geo buf := by
  induction h with
  | done hu ht => exact iff_of_true (List.forall_mem_nil _) (Or.inr (Or.inl ht))
  | full hu hlt hlim hreal h0 hroom =>
    exact hreal.trans (WriteState.staysReached_of_full hlt h0 hroom).symm
  | stuck hu hlt hlim hreal h0 hroom =>
    exact hreal.trans (WriteState.staysReached_of_full hlt h0 hroom).symm
  | unset hu hlt hge => omega
  | @stray s fuel hu hlt hlim hnot hmem =>
    exact iff_of_false (fun hreal => not_real_zero _ (hreal _ hmem))
      (WriteState.not_staysReached hlt hnot)
  | @pass s s' log r hp hreal _ ih =>
    have hlt := hp.lt
    obtain ⟨htotal, hpos⟩ := hp.advance hmax
    have hle := hp.underway.2.total_le
    have hsplit : AllReal geo ((⟨log, .ok ()⟩ : Traced Unit) >>= fun _ => r).log ↔
        AllReal geo log ∧ AllReal geo r.log := List.forall_mem_append
    rw [hsplit, hreal, or_iff_left (show ¬ geo.maxFileSize ≤ s.off % geo.span by omega),
      ih (by omega), hp.staysReached_iff hmax]

theorem WriteRun.reach_iff (h : WriteRun e geo i buf s r) (hz : s.total = 0)
    (hlt : s.off % geo.span < q) (hq : q ≤ geo.maxFileSize)
    (hlen : q ≤ s.off % geo.span + buf.length)
    (hsafe : q ≤ directBlksNum * geo.blkSize ∨ s.inode.indirectBlk ≠ 0 ∨ s.Calm e geo buf)
    (hr : r.result = .ok (t, ns)) :
    q ≤ s.off % geo.span + t.total ↔
      (volume geo s.fs).demand geo s.inode (s.num geo) (ceilBlk geo q) ≤ s.fs.room := by
  have hspan := geo.max_lt_span
  obtain ⟨u, hrun, hend | hstray⟩ := h.passes hr
  · rw [hend.total]
    refine hrun.reach_iff hz hlt hq hlen fun hlt => ?_
    rcases hend.cases with ⟨-, hfull⟩ | ⟨-, -, -, h0, hroom, -⟩
    · omega
    · exact ⟨h0, hroom⟩
  · obtain ⟨hge, hi⟩ := WriteState.not_reaches hstray.unreached
    have hu : Underway geo i buf u := Passes.underway hrun h.underway
    obtain ⟨fuel, hloop⟩ := hstray.loop
    have hmono := (Traced.fsWriteLoop_intact hu.mounted hu.total_le hloop).2.1
    by_cases hreach : q ≤ s.off % geo.span + u.total
    · exact iff_of_true (by omega) (hrun.demand_le hz hlt hreach hq hlen)
    · have hpos := hrun.pos hz (by omega)
      rcases hsafe with hdirect | hne | hcalm
      · omega
      · exact absurd ((hrun.below.indirectBlk hne).symm.trans hi) hne
      · exact absurd ((hrun.calm hcalm).stray hstray.lt hstray.lim hstray.unreached) hstray.calm

end Runs

end ChisaiFs
