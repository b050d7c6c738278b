import ChisaiFs.Landing
import ChisaiFs.Reading

/-! Runs whose writes may get behind the direct blocks. Each write is made with what the operating
system does at that moment, and has to keep to the device; every file then owns its blocks. -/

namespace ChisaiFs
open Cells Words Outcome Recorded

/-- The operating system that refuses what leaves the device. -/
def Stray.refuse : Stray :=
  ⟨fun _ _ => .error .outsideDevice, fun _ _ _ _ => .error .outsideDevice⟩

/-- The one that answers such lookups with zeros. -/
def Stray.zeros : Stray := ⟨fun _ _ => .ok fun _ => 0, fun _ _ _ _ => .error .outsideDevice⟩

section Lookup

variable {geo : Geometry} {fs : Filesystem} {x : Inode} {k : ChisaiSize} {off n : ℕ}
  {blkIdx : Option ChisaiSize}

theorem Traced.fsFindBlk_refuse (fs : Filesystem) (x : Inode) (off : ℕ)
    (blkIdx : Option ChisaiSize) :
    (Traced.fsFindBlk .refuse fs x off blkIdx).result = ChisaiFs.fsFindBlk fs x off blkIdx := by
  have hload : ∀ d offset size, (Traced.deviceDataLoad .refuse off d offset size).result =
      ChisaiFs.deviceDataLoad d offset size := by
    intro d offset size
    unfold Traced.deviceDataLoad ChisaiFs.deviceDataLoad
    split_ifs <;> rfl
  unfold Traced.fsFindBlk ChisaiFs.fsFindBlk
  dsimp only
  split_ifs
  · rfl
  · rfl
  · simp only [result_bind, Traced.fsDataToOffset, result_record, ok_bind, hload]
    rfl
  · rfl

theorem fsFindBlk_reached (h : Mounted geo fs) (hn : off % geo.span / geo.blkSize = n)
    (hlim : n < geo.blkLimit) (hr : x.Reaches n)
    (hused : x.indirectBlk ≠ 0 → x.indirectBlk ∈ (volume geo fs).dataUsed) :
    fsFindBlk fs x off blkIdx = .ok (lookupOf ((volume geo fs).mapped geo x n)) := by
  obtain ⟨log, hfind, -⟩ :=
    @Traced.fsFindBlk_reached .refuse geo fs x off n blkIdx h hn hlim hr hused
  rw [← Traced.fsFindBlk_refuse, hfind]

theorem lookupOf_ok (k : ChisaiSize) {j : ChisaiSize} :
    lookupOf j = (.ok, some k) ↔ j = k ∧ k ≠ 0 := by
  unfold lookupOf
  constructor
  · intro he
    obtain ⟨hcode, hk⟩ := Prod.mk.inj he
    cases hk
    exact ⟨rfl, fun h0 => by rw [if_pos h0] at hcode; cases hcode⟩
  · rintro ⟨rfl, h0⟩
    rw [if_neg h0]

/-- A lookup finds the blocks that the file has. -/
theorem fsFindBlk_iff (h : Mounted geo fs) (hformat : geo.AsFormatted)
    (hused : x.indirectBlk ≠ 0 → x.indirectBlk ∈ (volume geo fs).dataUsed)
    (hmax : off < geo.maxFileSize) : fsFindBlk fs x off none = .ok (.ok, some k) ↔
      (volume geo fs).mapped geo x (off / geo.blkSize) = k ∧ k ≠ 0 := by
  have hspan := geo.max_lt_span
  have hn : off % geo.span / geo.blkSize = off / geo.blkSize := by
    rw [Nat.mod_eq_of_lt (by omega)]
  have hlim := Geometry.lt_blkLimit_iff.mpr hmax
  by_cases hr : x.Reaches (off / geo.blkSize)
  · rw [fsFindBlk_reached h hn hlim hr hused, Except.ok.injEq, lookupOf_ok]
  · obtain ⟨hdirect, h0⟩ := not_or.mp hr
    rw [← Traced.fsFindBlk_refuse,
      Traced.fsFindBlk_stray h hformat hn hdirect hlim (not_not.mp h0), Volume.mapped_of_ge hdirect,
      Volume.behind_zero (not_not.mp h0)]
    refine iff_of_false (fun he => ?_) fun hk => hk.2 hk.1.symm
    cases he

end Lookup

/-- A write that came back and kept to the device, and the state in which its loop ended. -/
structure Landed (geo : Geometry) (fs : Filesystem) (file : FileInfo) (buf : List UInt8) (off : ℕ)
    (ret : ℤ) (file' : FileInfo) (fs' : Filesystem) (u : WriteState) : Prop where
  passes : Passes geo file.idx buf ⟨fs, file.inode, none, 0, off⟩ u
  underway : Underway geo file.idx buf u
  short : u.total < buf.length → u.off % geo.span < geo.maxFileSize ∧
    (volume geo u.fs).mapped geo u.inode (u.num geo) = 0 ∧ u.fs.room = 0 ∧ u.fs.DataPrimed
  ret : ret = toInt u.total
  info : file' = ⟨inodeSetSize u.inode (writtenSize file.inode off u.total), file.idx⟩
  save : fsSaveInode u.fs file'.inode file.idx = .ok fs'

section Landed

variable {e : Stray} {geo : Geometry} {fs fs' : Filesystem} {file file' : FileInfo} {x : Inode}
  {i : ChisaiSize} {buf : List UInt8} {off n : ℕ} {ret : ℤ} {u : WriteState}

theorem Volume.Bears.underway (hb : Volume.Bears geo i (volume geo fs) x) (h : Mounted geo fs)
    (buf : List UInt8) (off : ℕ) :
    Underway geo i buf ⟨fs, x, none, 0, off⟩ where
  mounted := h
  bears := hb
  total_le := Nat.zero_le _
  last := fun _ hk => nomatch hk

theorem Lands.calm (hl : Lands e geo fs x buf.length off) :
    WriteState.Calm e geo buf ⟨fs, x, none, 0, off⟩ := by
  rcases Nat.lt_or_ge (off % geo.span) geo.maxFileSize with hlt | hge
  · exact Or.inr (Or.inr ⟨hlt, hl⟩)
  · exact Or.inr (Or.inl ⟨rfl, hge⟩)

theorem Traced.fsWriteFile_landed (hformat : geo.AsFormatted) (h : Mounted geo fs)
    (hb : Volume.Bears geo file.idx (volume geo fs) file.inode)
    (hl : Lands e geo fs file.inode buf.length off)
    (he : (Traced.fsWriteFile e fs file buf off).result = .ok (ret, file', fs')) :
    ∃ u, Landed geo fs file buf off ret file' fs' u := by
  obtain ⟨s, ns, hloop, hret, hfile, hsave⟩ := Traced.fsWriteFile_eq_ok he
  obtain ⟨u, hrun, hend⟩ := ((hb.underway h buf off).run hformat (Nat.sub_le _ _)).ended hl.calm hloop
  rw [hend.total] at hret hfile
  rw [hend.inode] at hfile
  rw [hend.fs] at hsave
  refine ⟨u, hrun, hend.underway, fun hlt => ?_, hret, hfile, hsave⟩
  rcases hend.cases with ⟨-, hfull⟩ | ⟨-, -, hshort⟩
  · omega
  · exact hshort

theorem Landed.saved (h : Landed geo fs file buf off ret file' fs' u) :
    Mounted geo fs' ∧ volume geo fs' = (volume geo u.fs).setInode file.idx file'.inode := by
  obtain ⟨hm, -, -, hv⟩ := fsSaveInode_spec h.underway.mounted h.save
  exact ⟨hm, hv⟩

theorem Landed.mapped (h : Landed geo fs file buf off ret file' fs' u) (n : ℕ) :
    (volume geo fs').mapped geo file'.inode n = (volume geo u.fs).mapped geo u.inode n := by
  rw [h.saved.2, h.info]
  rfl

theorem Landed.indirectBlk (h : Landed geo fs file buf off ret file' fs' u) :
    file'.inode.indirectBlk = u.inode.indirectBlk := by
  rw [h.info]
  rfl

theorem Landed.deep (h : Landed geo fs file buf off ret file' fs' u) :
    (volume geo fs').Deep geo := by
  rw [h.saved.2, h.info]
  exact h.underway.bears.store _

theorem Landed.inode (h : Landed geo fs file buf off ret file' fs' u) :
    (volume geo fs').inode = Function.update (volume geo fs).inode file.idx file'.inode ∧
      (volume geo fs').inodeUsed = (volume geo fs).inodeUsed := by
  obtain ⟨hinode, hused⟩ := h.passes.inodes
  rw [h.saved.2]
  refine ⟨?_, hused⟩
  change Function.update (volume geo u.fs).inode _ _ = _
  rw [hinode]

theorem Landed.total_le (h : Landed geo fs file buf off ret file' fs' u) :
    u.total ≤ buf.length := h.underway.total_le

theorem Landed.kept (h : Landed geo fs file buf off ret file' fs' u)
    (h0 : (volume geo fs).mapped geo file.inode n ≠ 0) :
    (volume geo fs').mapped geo file'.inode n = (volume geo fs).mapped geo file.inode n := by
  rw [h.mapped]
  exact h.passes.mapped_kept h0

end Landed

/-- A step with what the operating system does at that moment. -/
def Op.stepOn (e : Stray) (fs : Filesystem) : Op → Exec Filesystem
  | .write file buf off => (Traced.fsWriteFile e fs file buf off).result.map fun r => r.2.2
  | op => op.step fs

/-- What the kernel has checked before each call; a write may start and end anywhere, but keeps
to the device. -/
def Op.Landing (e : Stray) (geo : Geometry) (fs : Filesystem) : Op → Prop
  | .write file buf off => FreshFile fs file ∧ Lands e geo fs file.inode buf.length off
  | op => op.Lawful fs

def Op.WithinMax (geo : Geometry) : Op → Prop
  | .write _ buf off => off + buf.length ≤ geo.maxFileSize
  | _ => True

instance (e : Stray) (geo : Geometry) (fs : Filesystem) : (op : Op) → Decidable (op.Landing e geo fs)
  | .mkdir path mode => inferInstanceAs (Decidable ((Op.mkdir path mode).Lawful fs))
  | .create path mode => inferInstanceAs (Decidable ((Op.create path mode).Lawful fs))
  | .write file buf off => inferInstanceAs (Decidable (FreshFile fs file ∧
      Lands e geo fs file.inode buf.length off))
  | .truncate file size => inferInstanceAs (Decidable ((Op.truncate file size).Lawful fs))
  | .rename src dst => inferInstanceAs (Decidable ((Op.rename src dst).Lawful fs))
  | .remove path => inferInstanceAs (Decidable ((Op.remove path).Lawful fs))

instance (geo : Geometry) : (op : Op) → Decidable (op.WithinMax geo)
  | .write _ buf off => inferInstanceAs (Decidable (off + buf.length ≤ geo.maxFileSize))
  | .mkdir _ _ => isTrue trivial
  | .create _ _ => isTrue trivial
  | .truncate _ _ => isTrue trivial
  | .rename _ _ => isTrue trivial
  | .remove _ => isTrue trivial

def ReachableLanding (geo : Geometry) (fs : Filesystem) : Prop :=
  ∃ fs₀, freshMount geo = .ok fs₀ ∧
    Reaches (fun s (i : Stray × Op) => i.2.stepOn i.1 s) (fun s i => i.2.Landing i.1 geo s) fs₀ fs

def ReachableMax (geo : Geometry) (fs : Filesystem) : Prop :=
  ∃ fs₀, freshMount geo = .ok fs₀ ∧
    Reaches (fun s (i : Stray × Op) => i.2.stepOn i.1 s)
      (fun s i => i.2.Landing i.1 geo s ∧ i.2.WithinMax geo) fs₀ fs

section Runs

variable {e : Stray} {geo : Geometry} {fs fs' : Filesystem} {file : FileInfo}

/-- A write and the other steps. -/
theorem Op.Landing.cases {op : Op} (hl : op.Landing e geo fs) (hs : op.stepOn e fs = .ok fs') :
    (op.Lawful fs ∧ op.step fs = .ok fs' ∧ ∀ file buf off, op ≠ .write file buf off) ∨
      ∃ file buf off ret file', op = .write file buf off ∧ FreshFile fs file ∧
        Lands e geo fs file.inode buf.length off ∧
        (Traced.fsWriteFile e fs file buf off).result = .ok (ret, file', fs') := by
  cases op with
  | write file buf off =>
    obtain ⟨⟨ret, file', _⟩, he, rfl⟩ := map_eq_ok.mp hs
    exact Or.inr ⟨file, buf, off, ret, file', rfl, hl.1, hl.2, he⟩
  | _ => exact Or.inl ⟨hl, hs, nofun⟩

theorem Op.stepOn_deep (hformat : geo.AsFormatted) (hm : Mounted geo fs)
    (h : (volume geo fs).Deep geo) {op : Op} (hl : op.Landing e geo fs)
    (hs : op.stepOn e fs = .ok fs') : Mounted geo fs' ∧ (volume geo fs').Deep geo := by
  rcases hl.cases hs with ⟨hlaw, hstep, hw⟩ | ⟨file, buf, off, ret, file', rfl, hf, hlands, he⟩
  · exact ⟨(Op.step_wellformed hm h.toWellformed hlaw hstep).1, Op.step_deep hm h hlaw hw hstep⟩
  · obtain ⟨u, hu⟩ := Traced.fsWriteFile_landed hformat hm (hf.bears hm h) hlands he
    exact ⟨hu.saved.1, hu.deep⟩

theorem ReachableLanding.deep (hformat : geo.AsFormatted) (h : ReachableLanding geo fs) :
    Mounted geo fs ∧ (volume geo fs).Deep geo := by
  obtain ⟨fs₀, hmount, hrun⟩ := h
  exact hrun.invariant (fun s => Mounted geo s ∧ (volume geo s).Deep geo)
    (fun s i t h hl hs => Op.stepOn_deep hformat h.1 h.2 hl hs) (freshMount_deep hmount)

theorem ReachableMax.landing (h : ReachableMax geo fs) : ReachableLanding geo fs := by
  obtain ⟨fs₀, hmount, hrun⟩ := h
  exact ⟨fs₀, hmount, hrun.mono fun _ _ hl => hl.1⟩

theorem Op.Lawful.landing {op : Op} (h : Mounted geo fs) (hl : op.Lawful fs) :
    op.Landing e geo fs ∧ op.WithinMax geo := by
  cases op with
  | write file buf off =>
    obtain ⟨hf, hin⟩ := hl
    rw [h.blockSize] at hin
    have hmax := geo.direct_lt_max
    have hle := Nat.mod_le off geo.span
    exact ⟨⟨hf, fun _ _ hlt => by omega⟩, by change off + buf.length ≤ _; omega⟩
  | _ => exact ⟨hl, trivial⟩

theorem Op.stepOn_of_step {op : Op} (hs : op.step fs = .ok fs') : op.stepOn e fs = .ok fs' := by
  cases op with
  | write file buf off =>
    obtain ⟨r, he, rfl⟩ := map_eq_ok.mp hs
    exact map_eq_ok.mpr ⟨r, (Traced.fsWriteFile_unless fs file buf off).eq_ok he, rfl⟩
  | _ => exact hs

theorem Reachable.max (h : Reachable geo fs) : ReachableMax geo fs := by
  obtain ⟨fs₀, hmount, hrun⟩ := h
  refine ⟨fs₀, hmount, ?_⟩
  have hstart := freshMount_spec hmount
  have hboth : (Mounted geo fs ∧ (volume geo fs).Wellformed) ∧
      Reaches (fun s (i : Stray × Op) => i.2.stepOn i.1 s)
        (fun s i => i.2.Landing i.1 geo s ∧ i.2.WithinMax geo) fs₀ fs := by
    induction hrun with
    | refl => exact ⟨⟨hstart.1, hstart.2.2⟩, .refl⟩
    | tail op _ hl hs ih =>
      obtain ⟨⟨hm, hw⟩, hrun⟩ := ih
      exact ⟨Op.step_wellformed hm hw hl hs,
        .tail (Stray.refuse, op) hrun (hl.landing hm) (Op.stepOn_of_step hs)⟩
  exact hboth.2

theorem exists_reachableMax (ops : List (Stray × Op)) {p : Filesystem → Prop} [DecidablePred p]
    (h : Yields (freshMount smallDisk) fun fs =>
      ((runAllowed (fun s (i : Stray × Op) => i.2.stepOn i.1 s)
        (fun s i => i.2.Landing i.1 smallDisk s ∧ i.2.WithinMax smallDisk) fs ops).any
          fun s => decide (p s)) = true) :
    ∃ fs, ReachableMax smallDisk fs ∧ p fs := by
  obtain ⟨fs₀, hmount, h⟩ := h
  obtain ⟨fs, hrun, hp⟩ := (Option.any_eq_true _ _).mp h
  exact ⟨fs, ⟨fs₀, hmount, reaches_of_runAllowed .refl hrun⟩, of_decide_eq_true hp⟩

end Runs

/-- The file of `threeBytes`, and a byte behind its direct blocks: the lookup there is answered
with zeros. -/
def sparse : List (Stray × Op) :=
  threeBytes.map (fun op => (.refuse, op)) ++ [(.zeros, .write threeBytesFile [9] 6144)]

def sparseFile : FileInfo := ⟨inodeSetSize { threeBytesFile.inode with indirectBlk := 3 } 4, 3⟩

end ChisaiFs
