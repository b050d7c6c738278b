import ChisaiFs.Coherence
import ChisaiFs.Limit
import ChisaiFs.Maximum

/-! Several handles on one file. A write stores the copy that its handle has back to the device,
so what others have written in the meantime stays only if that copy has it too. -/

namespace ChisaiFs
open Outcome Heaps Recorded

/-- The write has `n` bytes, and the blocks that the numbers in front of their end lack. -/
def Affords (geo : Geometry) (fs : Filesystem) (x : Inode) (len start n : ℕ) : Prop :=
  n ≤ len ∧ (n = 0 ∨ (volume geo fs).demand geo x (start / geo.blkSize)
    (ceilBlk geo (start + n)) ≤ fs.room)

instance (geo : Geometry) (fs : Filesystem) (x : Inode) (len start n : ℕ) :
    Decidable (Affords geo fs x len start n) := inferInstanceAs (Decidable (_ ∧ (_ ∨ _)))

/-- The copy of the handle maps what the inode on the device maps, and the size that the write
computes from it is neither below the size on the device nor below the end of the write. -/
def CopyServes (geo : Geometry) (fs : Filesystem) (file stored : FileInfo) (len off : ℕ) : Prop :=
  stored.inode.Below file.inode ∧
    if Affords geo fs file.inode len (off % geo.span) 1 then
      (off = 0 ∨ off = file.length) ∧ Affords geo fs file.inode len off (stored.length - off)
    else stored.length ≤ if off < file.length then 0 else file.length

/-- The write ends within the limit, or stops there for want of room. -/
def StaysWithin (geo : Geometry) (fs : Filesystem) (file : FileInfo) (len off : ℕ) : Prop :=
  off + len ≤ geo.maxFileSize ∨ RunsShort geo fs file len off

/-- Nothing that the file had is lost: neither a block nor a byte of its size. -/
structure Retains (old new : FileInfo) : Prop where
  below : old.inode.Below new.inode
  length : old.length ≤ new.length

theorem Retains.refl (file : FileInfo) : Retains file file := ⟨.refl _, le_refl _⟩

section Writes

variable {e : Stray} {geo : Geometry} {fs fs' : Filesystem} {file file' : FileInfo}
  {buf : List UInt8} {off n : ℕ} {ret : ℤ} {u : WriteState}

theorem Landed.within (h : Landed geo fs file buf off ret file' fs' u)
    (hw : StaysWithin geo fs file buf.length off) :
    u.total = 0 ∨ off + u.total ≤ geo.maxFileSize := by
  have htotal := h.total_le
  by_cases hmax : off + buf.length ≤ geo.maxFileSize
  · omega
  · exact h.stops (by omega) (hw.resolve_left hmax)

theorem Landed.below (h : Landed geo fs file buf off ret file' fs' u) :
    file.inode.Below file'.inode := by
  have hb := h.passes.below
  rw [h.info]
  exact ⟨hb.mode, hb.blk, hb.indirectBlk⟩

/-- How many bytes a write stores is a matter of the room. -/
theorem Landed.total_iff (h : Landed geo fs file buf off ret file' fs' u)
    (hn : off % geo.span + n ≤ geo.maxFileSize) :
    n ≤ u.total ↔ Affords geo fs file.inode buf.length (off % geo.span) n := by
  have htotal := h.total_le
  unfold Affords
  by_cases hzero : n = 0
  · subst hzero
    exact iff_of_true (Nat.zero_le _) ⟨Nat.zero_le _, Or.inl rfl⟩
  by_cases hlen : n ≤ buf.length
  · have hiff := h.passes.reach_iff (q := off % geo.span + n) rfl (by dsimp only; omega) hn
      (by dsimp only; omega) fun hlt => ⟨(h.short hlt).2.1, (h.short hlt).2.2.1⟩
    dsimp only at hiff
    rw [← hiff]
    omega
  · exact iff_of_false (by omega) fun ha => hlen ha.1

theorem Landed.stores_iff (h : Landed geo fs file buf off ret file' fs' u)
    (hstop : u.total = 0 ∨ off + u.total ≤ geo.maxFileSize) :
    0 < u.total ↔ Affords geo fs file.inode buf.length (off % geo.span) 1 := by
  have htotal := h.total_le
  by_cases hlim : off % geo.span < geo.maxFileSize
  · exact h.total_iff hlim
  · have hempty : buf.length = 0 := by
      by_contra hne
      have hle := Nat.mod_le off geo.span
      rcases Nat.eq_zero_or_pos u.total with h0 | hpos
      · have hshort := (h.short (by omega)).1
        rw [h.passes.eq_of_total h0] at hshort
        exact hlim hshort
      · omega
    exact iff_of_false (by omega) fun ha => by have hone := ha.1; omega

theorem Landed.length (h : Landed geo fs file buf off ret file' fs' u)
    (hfits : file.inode.Fits geo) (hstop : u.total = 0 ∨ off + u.total ≤ geo.maxFileSize) :
    file'.length = if off < file.length then u.total else u.total + file.length := by
  obtain ⟨hle, -⟩ := hfits.length
  have hmax := geo.max_lt
  rw [FileInfo.length, h.size hfits, Int64.toUInt64_ofNat', UInt64.toNat_ofNat']
  refine Nat.mod_eq_of_lt ?_
  split_ifs <;> omega

/-- A write loses nothing of a file, and ends within its size, exactly when its copy serves. -/
theorem Landed.retains_iff (h : Landed geo fs file buf off ret file' fs' u)
    {stored : FileInfo}
    (hstored : Volume.Bears geo file.idx (volume geo fs) stored.inode)
    (hmode : stored.inode.mode = file.inode.mode) (hfits : file.inode.Fits geo)
    (hsfits : stored.inode.Fits geo) (hstop : u.total = 0 ∨ off + u.total ≤ geo.maxFileSize) :
    (Retains stored file' ∧ (0 < u.total → off + u.total ≤ file'.length)) ↔
      CopyServes geo fs file stored buf.length off := by
  obtain ⟨hlen, -⟩ := hfits.length
  obtain ⟨hslen, -⟩ := hsfits.length
  have hspan := geo.max_lt_span
  have hbelow : stored.inode.Below file'.inode ↔ stored.inode.Below file.inode := by
    refine ⟨fun hb => ⟨hmode, fun n hn => ?_, fun hi => ?_⟩, fun hb => hb.trans h.below⟩
    · have hlt := Inode.lt_of_blk_ne hn
      by_cases h0 : file.inode.blk n = 0
      · -- a block that the write has mapped was free
        have hfresh := h.passes.fresh (m := n) ((Volume.mapped_of_lt hlt).trans h0)
        rw [← h.mapped, Volume.mapped_of_lt hlt, hb.blk n hn] at hfresh
        rcases hfresh with hz | hnew
        · exact absurd hz hn
        · exact absurd (hstored.1.marked _ _ (hstored.owns hn)) hnew
      · exact (h.below.blk n h0).symm.trans (hb.blk n hn)
    · by_cases h0 : file.inode.indirectBlk = 0
      · have hfresh := h.passes.indirectBlk_fresh h0
        rw [← h.indirectBlk, hb.indirectBlk hi] at hfresh
        rcases hfresh with hz | hnew
        · exact absurd hz hi
        · exact absurd (hstored.indirect_used hi) hnew
      · exact (h.below.indirectBlk h0).symm.trans (hb.indirectBlk hi)
  have hsize : (stored.length ≤ file'.length ∧ (0 < u.total → off + u.total ≤ file'.length)) ↔
      if Affords geo fs file.inode buf.length (off % geo.span) 1 then
        (off = 0 ∨ off = file.length) ∧
          Affords geo fs file.inode buf.length off (stored.length - off)
      else stored.length ≤ if off < file.length then 0 else file.length := by
    rw [h.length hfits hstop]
    by_cases hstores : Affords geo fs file.inode buf.length (off % geo.span) 1
    · have hpos := (h.stores_iff hstop).mpr hstores
      rw [if_pos hstores]
      by_cases hoff : off = 0 ∨ off = file.length
      · have hmod : off % geo.span = off := Nat.mod_eq_of_lt (by omega)
        have hiff := h.total_iff (n := stored.length - off) (by rw [hmod]; omega)
        rw [hmod] at hiff
        rw [← hiff]
        split_ifs <;> omega
      · refine iff_of_false ?_ fun hr => hoff hr.1
        split_ifs <;> omega
    · have hzero := (h.stores_iff hstop).not.mpr hstores
      rw [if_neg hstores]
      split_ifs <;> omega
  rw [CopyServes, ← hbelow, ← hsize]
  exact ⟨fun ⟨hg, hend⟩ => ⟨hg.below, hg.length, hend⟩,
    fun ⟨hb, hle, hend⟩ => ⟨⟨hb, hle⟩, hend⟩⟩

end Writes

/-- `chisai_fuse_read`, with what the operating system makes of accesses that leave the device. -/
def Stray.chisaiFuseRead (e : Stray) (p : Process) (path : CString) (fh size off : ℕ) :
    Exec ((ℤ × List UInt8) × ℕ × Process) :=
  onHandle p path fh (fun r => (r.code, [])) fun fs file => do
    return (← (Traced.fsReadFile e fs file size off).result, file, fs)

def Stray.chisaiFuseWrite (e : Stray) (p : Process) (path : CString) (fh : ℕ) (buf : List UInt8)
    (off : ℕ) : Exec (ℤ × ℕ × Process) :=
  onHandle p path fh ChisaiError.code fun fs file => (Traced.fsWriteFile e fs file buf off).result

def Call.stepOn (e : Stray) (s : OpenFiles) : Call → Exec OpenFiles
  | .read fd path size off => s.on fd fun p fh => e.chisaiFuseRead p path fh size off
  | .write fd path buf off => s.on fd fun p fh => e.chisaiFuseWrite p path fh buf off
  | c => c.step s

/-- The calls of such a run: only regular files are opened, each by its path, and a file is created
in a directory. -/
def Call.Shared (s : OpenFiles) : Call → Prop
  | .open path =>
    match fsGetMetadata s.proc.fs path with
    | .ok (.ok info) => sIsreg info.inode.mode
    | _ => True
  | .create path mode => (Op.create path mode).Lawful s.proc.fs
  | .truncate _ _ => False
  | c => c.PathKept s

/-- A write keeps to the device and within the limit, and goes through a handle whose copy serves
for it. -/
def Call.Serves (e : Stray) (geo : Geometry) (s : OpenFiles) : Call → Prop
  | .write fd _ buf off => ∀ file ∈ s.held fd,
      Lands e geo s.proc.fs file.inode buf.length off ∧
      StaysWithin geo s.proc.fs file buf.length off ∧
      Finds (fsFindInode s.proc.fs file.idx) fun x =>
        CopyServes geo s.proc.fs file ⟨x, file.idx⟩ buf.length off
  | _ => True

/-- The calls of a run in which each write goes through a handle that serves for it. -/
def Call.Careful (geo : Geometry) (s : OpenFiles) (i : Stray × Call) : Prop :=
  i.2.Shared s ∧ i.2.Serves i.1 geo s

abbrev CarefulRun (geo : Geometry) : OpenFiles → OpenFiles → Prop :=
  Reaches (fun s (i : Stray × Call) => i.2.stepOn i.1 s) (Call.Careful geo)

instance (x y : Inode) : Decidable (x.Below y) :=
  decidable_of_iff (x.mode = y.mode ∧ (∀ n < directBlksNum, x.blk n ≠ 0 → y.blk n = x.blk n) ∧
      (x.indirectBlk ≠ 0 → y.indirectBlk = x.indirectBlk))
    ⟨fun h => ⟨h.1, fun n hn => h.2.1 n (Inode.lt_of_blk_ne hn) hn, h.2.2⟩,
      fun h => ⟨h.mode, fun n _ => h.blk n, h.indirectBlk⟩⟩

instance (geo : Geometry) (fs : Filesystem) (file stored : FileInfo) (len off : ℕ) :
    Decidable (CopyServes geo fs file stored len off) :=
  inferInstanceAs (Decidable (_ ∧ if Affords geo fs file.inode len (off % geo.span) 1 then
      (off = 0 ∨ off = file.length) ∧ Affords geo fs file.inode len off (stored.length - off)
    else stored.length ≤ if off < file.length then 0 else file.length))

instance (geo : Geometry) (fs : Filesystem) (file : FileInfo) (len off : ℕ) :
    Decidable (StaysWithin geo fs file len off) := inferInstanceAs (Decidable (_ ∨ _))

instance (s : OpenFiles) (path : CString) : Decidable ((Call.open path).Shared s) :=
  match h : fsGetMetadata s.proc.fs path with
  | .ok (.ok info) => decidable_of_iff (sIsreg info.inode.mode) (by simp only [Call.Shared, h])
  | .ok (.error _) => isTrue (by simp only [Call.Shared, h])
  | .error _ => isTrue (by simp only [Call.Shared, h])

instance (s : OpenFiles) : (c : Call) → Decidable (c.Shared s)
  | .open _ => inferInstance
  | .truncate _ _ => inferInstanceAs (Decidable False)
  | .create path mode => inferInstanceAs (Decidable ((Op.create path mode).Lawful s.proc.fs))
  | .release fd path => inferInstanceAs (Decidable ((Call.release fd path).PathKept s))
  | .fgetattr fd path => inferInstanceAs (Decidable ((Call.fgetattr fd path).PathKept s))
  | .read fd path size off => inferInstanceAs (Decidable ((Call.read fd path size off).PathKept s))
  | .write fd path buf off => inferInstanceAs (Decidable ((Call.write fd path buf off).PathKept s))

instance (e : Stray) (geo : Geometry) (s : OpenFiles) : (c : Call) → Decidable (c.Serves e geo s)
  | .write fd _ buf off => inferInstanceAs (Decidable (∀ file ∈ s.held fd,
      Lands e geo s.proc.fs file.inode buf.length off ∧
      StaysWithin geo s.proc.fs file buf.length off ∧
      Finds (fsFindInode s.proc.fs file.idx) fun x =>
        CopyServes geo s.proc.fs file ⟨x, file.idx⟩ buf.length off))
  | .create _ _ | .open _ | .truncate _ _ | .release _ _ | .fgetattr _ _ | .read _ _ _ _ =>
    inferInstanceAs (Decidable True)

instance (geo : Geometry) (s : OpenFiles) (i : Stray × Call) : Decidable (Call.Careful geo s i) :=
  inferInstanceAs (Decidable (_ ∧ _))

/-- All copies map what the device maps, and all sizes are within the limit. -/
structure Shares (geo : Geometry) (fs : Filesystem) (held : ℕ → Option FileInfo) : Prop where
  mounted : Mounted geo fs
  deep : (volume geo fs).Deep geo
  sizes : SizesFit geo fs
  copies : ∀ fd file, held fd = some file → file.idx ∈ (volume geo fs).inodeUsed ∧
    sIsreg ((volume geo fs).inode file.idx).mode ∧
    file.inode.Below ((volume geo fs).inode file.idx) ∧ file.inode.Fits geo

structure NoneLost (geo : Geometry) (fs fs' : Filesystem) : Prop where
  holds : ∀ a k, (volume geo fs).Holds geo a k → (volume geo fs').Holds geo a k
  length : ∀ i ∈ (volume geo fs).inodeUsed, sIsreg ((volume geo fs).inode i).mode →
    i ∈ (volume geo fs').inodeUsed ∧ sIsreg ((volume geo fs').inode i).mode ∧
      (⟨(volume geo fs).inode i, i⟩ : FileInfo).length ≤
        (⟨(volume geo fs').inode i, i⟩ : FileInfo).length

section Runs

variable {e : Stray} {geo : Geometry} {fs fs' fs'' : Filesystem}
  {held held' : ℕ → Option FileInfo} {s t : OpenFiles} {file file' : FileInfo} {buf : List UInt8}
  {off fd : ℕ} {ret : ℤ} {u : WriteState} {c : Call}

/-- An append through a handle that is up to date. -/
theorem copyServes_append (len : ℕ) : CopyServes geo fs file file len file.length := by
  refine ⟨.refl _, ?_⟩
  split_ifs with hstores hlt
  · rw [Nat.sub_self]
    exact ⟨Or.inr rfl, Nat.zero_le _, Or.inl rfl⟩
  · exact absurd hlt (Nat.lt_irrefl _)
  · exact le_refl _

theorem NoneLost.refl (geo : Geometry) (fs : Filesystem) : NoneLost geo fs fs :=
  ⟨fun _ _ => id, fun _ hu hreg => ⟨hu, hreg, le_refl _⟩⟩

theorem NoneLost.trans (h : NoneLost geo fs fs') (h' : NoneLost geo fs' fs'') :
    NoneLost geo fs fs'' where
  holds a k ha := h'.holds a k (h.holds a k ha)
  length i hu hreg := by
    obtain ⟨hu', hreg', hle⟩ := h.length i hu hreg
    obtain ⟨hu'', hreg'', hle'⟩ := h'.length i hu' hreg'
    exact ⟨hu'', hreg'', hle.trans hle'⟩

theorem Shares.congr (h : Shares geo fs held) (hm : Mounted geo fs')
    (hv : volume geo fs' = volume geo fs) : Shares geo fs' held ∧ NoneLost geo fs fs' := by
  have hlost := NoneLost.refl geo fs
  exact ⟨⟨hm, by rw [hv]; exact h.deep, by unfold SizesFit; rw [hv]; exact h.sizes,
    by rw [hv]; exact h.copies⟩, by rw [hv]; exact hlost.holds, by rw [hv]; exact hlost.length⟩

theorem Shares.update (h : Shares geo fs held) (hm : Mounted geo fs')
    (hd : (volume geo fs').Deep geo) {info : FileInfo}
    (hused : (volume geo fs').inodeUsed = insert info.idx (volume geo fs).inodeUsed)
    (hinode : (volume geo fs').inode = Function.update (volume geo fs).inode info.idx info.inode)
    (hreg : sIsreg info.inode.mode) (hfits : info.inode.Fits geo)
    (hholds : ∀ a k, (volume geo fs).Holds geo a k → (volume geo fs').Holds geo a k)
    (hretains : info.idx ∈ (volume geo fs).inodeUsed →
      Retains ⟨(volume geo fs).inode info.idx, info.idx⟩ info) :
    Shares geo fs' (Function.update held fd (some info)) ∧ NoneLost geo fs fs' := by
  have hself : (volume geo fs').inode info.idx = info.inode := by
    rw [hinode, Function.update_self]
  have hother : ∀ i, i ≠ info.idx → (volume geo fs').inode i = (volume geo fs).inode i := by
    intro i hi
    rw [hinode, Function.update_of_ne hi]
  refine ⟨⟨hm, hd, fun i hi hreg' => ?_, fun fd' file hfile => ?_⟩, hholds,
    fun i hi hreg' => ⟨hused ▸ Or.inr hi, ?_⟩⟩
  · by_cases he : i = info.idx
    · rw [he, hself]
      exact hfits
    · rw [hother i he] at hreg' ⊢
      rw [hused] at hi
      exact h.sizes i (hi.resolve_left he) hreg'
  · by_cases hsame : fd' = fd
    · rw [hsame, Function.update_self] at hfile
      cases hfile
      rw [hself, hused]
      exact ⟨Or.inl rfl, hreg, .refl _, hfits⟩
    · rw [Function.update_of_ne hsame] at hfile
      obtain ⟨hu, hreg', hbelow, hfile'⟩ := h.copies fd' file hfile
      refine ⟨hused ▸ Or.inr hu, ?_⟩
      by_cases he : file.idx = info.idx
      · rw [he] at hu hbelow ⊢
        rw [hself]
        exact ⟨hreg, hbelow.trans (hretains hu).below, hfile'⟩
      · rw [hother _ he]
        exact ⟨hreg', hbelow, hfile'⟩
  · by_cases he : i = info.idx
    · subst he
      rw [hself]
      exact ⟨hreg, (hretains hi).length⟩
    · rw [hother i he]
      exact ⟨hreg', le_refl _⟩

theorem Shares.landed (hformat : geo.AsFormatted) (h : Shares geo fs held)
    (hfd : held fd = some file) (hl : Lands e geo fs file.inode buf.length off)
    (he : (Traced.fsWriteFile e fs file buf off).result = .ok (ret, file', fs')) :
    ∃ u, Landed geo fs file buf off ret file' fs' u := by
  obtain ⟨hu, hreg, hbelow, -⟩ := h.copies fd file hfd
  exact Traced.fsWriteFile_landed hformat h.mounted (h.deep.below hu hreg hbelow) hl he

theorem Shares.retains (h : Shares geo fs held) (hfd : held fd = some file)
    (hu : Landed geo fs file buf off ret file' fs' u)
    (hstop : u.total = 0 ∨ off + u.total ≤ geo.maxFileSize)
    (hc : CopyServes geo fs file ⟨(volume geo fs).inode file.idx, file.idx⟩ buf.length off) :
    Retains ⟨(volume geo fs).inode file.idx, file.idx⟩ file' ∧
      (0 < u.total → off + u.total ≤ file'.length) := by
  obtain ⟨hused, hreg, hbelow, hfits⟩ := h.copies fd file hfd
  refine (hu.retains_iff ?_ hbelow.mode.symm hfits ?_ hstop).mpr hc
  · exact h.deep.below hused hreg (.refl _)
  · exact h.sizes _ hused hreg

theorem Shares.wrote (h : Shares geo fs held) (hfd : held fd = some file)
    (hu : Landed geo fs file buf off ret file' fs' u)
    (hstop : u.total = 0 ∨ off + u.total ≤ geo.maxFileSize)
    (hc : CopyServes geo fs file ⟨(volume geo fs).inode file.idx, file.idx⟩ buf.length off) :
    Shares geo fs' (Function.update held fd (some file')) ∧ NoneLost geo fs fs' := by
  obtain ⟨hused, hreg, hbelow, hfits⟩ := h.copies fd file hfd
  obtain ⟨hinode, husedEq⟩ := hu.inode
  have hidx : file'.idx = file.idx := by rw [hu.info]
  refine h.update hu.saved.1 hu.deep ?_ (by rw [hidx]; exact hinode) ?_ (hu.fits hfits hstop) ?_
    fun _ => ?_
  · rw [husedEq, hidx, Set.insert_eq_of_mem hused]
  · rw [← hu.self.2.2]
    exact hu.self.2.1
  · rintro ⟨i, n⟩ k ha
    refine hu.holds hstop (fun hk => ?_) ha
    -- the copy has each block that the device has
    obtain ⟨-, -, hmap, h0⟩ := hk
    rw [← hmap]
    have hb := hc.1
    dsimp only at hb hmap
    unfold Volume.mapped at hmap ⊢
    split_ifs at hmap ⊢ with hn
    · exact hb.blk n (hmap.trans_ne h0)
    · exact Volume.behind_inode (hb.indirectBlk (Volume.indirectBlk_ne_of_behind (hmap.trans_ne h0))) _
  · rw [hidx]
    exact (h.retains hfd hu hstop hc).1

theorem Shares.moves (h : Shares geo fs held)
    (hreg : ∀ path info, c = .open path → fsGetMetadata fs path = .ok (.ok info) →
      sIsreg info.inode.mode)
    (hlaw : ∀ path mode, c = .create path mode → (Op.create path mode).Lawful fs)
    (hwrote : ∀ fd path buf off file ret file' fs', c = .write fd path buf off →
      held fd = some file → (Traced.fsWriteFile e fs file buf off).result = .ok (ret, file', fs') →
      Shares geo fs' (Function.update held fd (some file')) ∧ NoneLost geo fs fs')
    (hc : c.Moves fs held fs' held') : Shares geo fs' held' ∧ NoneLost geo fs fs' := by
  cases hc with
  | idle => exact ⟨h, NoneLost.refl geo fs⟩
  | failed hr he =>
    obtain ⟨hm, hcase⟩ := fsCreateFile_volume h.mounted he
    rcases hcase with ⟨-, -, hv⟩ | ⟨hok, -⟩
    · exact h.congr hm hv
    · exact absurd hok hr
  | @created path mode fd info _ hfd he =>
    obtain ⟨hm, hnew, hused, hinode⟩ := fsCreateFile_inodes h.mounted he
    have hlaw := hlaw path mode rfl
    have hs : (Op.create path mode).step fs = .ok fs' := map_eq_ok.mpr ⟨_, he, rfl⟩
    have hinfo : info.inode = inodeSetMode inodeInit mode := by
      obtain ⟨-, hcase⟩ := fsCreateFile_volume h.mounted he
      rcases hcase with ⟨hr, -⟩ | ⟨-, _, _, i, _, _, -, -, -, -, rfl, -⟩
      · exact absurd rfl hr
      · rfl
    have hnot : ∀ file buf off, Op.create path mode ≠ .write file buf off := nofun
    refine h.update hm (Op.step_deep h.mounted h.deep hlaw hnot hs) hused hinode ?_ ?_ ?_
      fun hu => absurd hu hnew
    · rw [hinfo]
      exact hlaw.2
    · rw [hinfo]
      exact ⟨0, Nat.zero_le _, rfl, fun hlt => absurd hlt (Nat.not_lt_zero _)⟩
    · rintro ⟨i, n⟩ k ⟨hu, hreg', hmap, h0⟩
      have hsame : (volume geo fs').inode i = (volume geo fs).inode i := by
        rw [hinode, Function.update_of_ne (ne_of_mem_of_not_mem hu hnew)]
      refine ⟨by rw [hused]; exact Or.inr hu, by rw [hsame]; exact hreg', ?_, h0⟩
      rw [hsame, ← hmap]
      exact Volume.mapped_congr fun hi => Op.step_block h.mounted hnot hs
        (h.deep.behindLeaked (i, none) _ ⟨hu, hreg', rfl, hi⟩)
  | opened hfd he =>
    obtain ⟨hu, hi⟩ := fsGetMetadata_used h.mounted he
    have hreg := hreg _ _ rfl he
    refine h.update h.mounted h.deep (Set.insert_eq_of_mem hu).symm ?_ hreg ?_ (fun _ _ => id)
      fun _ => ?_
    · rw [← hi, Function.update_eq_self]
    · rw [← hi]
      exact h.sizes _ hu (by rw [hi]; exact hreg)
    · rw [hi]
      exact Retains.refl _
  | wrote hfd he =>
    exact hwrote _ _ _ _ _ _ _ _ rfl hfd ((Traced.fsWriteFile_unless fs _ _ _).eq_ok he)
  | @closed fd path =>
    refine ⟨⟨h.mounted, h.deep, h.sizes, fun fd' file hfile => h.copies fd' file ?_⟩,
      NoneLost.refl geo fs⟩
    by_cases hsame : fd' = fd
    · rw [hsame, Function.update_self] at hfile
      cases hfile
    · rwa [Function.update_of_ne hsame] at hfile

theorem Call.stepOn_moves (h : s.Separate) (hdown : s.proc.reopen = false)
    (hs : c.stepOn e s = .ok t) :
    ((∃ path size, c = .truncate path size) ∧ t.proc.reopen = true) ∨
      (t.proc.reopen = false ∧ t.Separate ∧ (c.Moves s.proc.fs s.held t.proc.fs t.held ∨
        ∃ fd path buf off file ret file', c = .write fd path buf off ∧ s.held fd = some file ∧
          (Traced.fsWriteFile e s.proc.fs file buf off).result = .ok (ret, file', t.proc.fs) ∧
          t.held = Function.update s.held fd (some file'))) := by
  cases c with
  | read fd path size off =>
    obtain ⟨hdown', hsep, hmoves⟩ := h.idle (c := .read fd path size off) hdown read_idle hs
    exact Or.inr ⟨hdown', hsep, Or.inl hmoves⟩
  | write fd path buf off =>
    right
    rcases h.on hdown hs with rfl | ⟨a, file, hheld, info, hwork, hdown', hsep, hheld'⟩
    · exact ⟨hdown, h, Or.inl .idle⟩
    · exact ⟨hdown', hsep, Or.inr ⟨fd, path, buf, off, file, a, info, rfl, hheld, hwork, hheld'⟩⟩
  | _ =>
    dsimp only [Call.stepOn] at hs
    exact (Call.step_moves h hdown hs).imp_right fun ⟨hdown', hsep, hmoves⟩ =>
      ⟨hdown', hsep, Or.inl hmoves⟩

/-- The state of such a run: the flag has never been raised. -/
structure OpenFiles.Shared (geo : Geometry) (s : OpenFiles) : Prop where
  down : s.proc.reopen = false
  separate : s.Separate
  shares : Shares geo s.proc.fs s.held

theorem OpenFiles.Shared.step (hformat : geo.AsFormatted) (h : s.Shared geo)
    (hc : c.Shared s) (hserves : c.Serves e geo s) (hs : c.stepOn e s = .ok t) :
    t.Shared geo ∧ NoneLost geo s.proc.fs t.proc.fs := by
  have hwrote : ∀ fd path buf off file ret file' fs', c = .write fd path buf off →
      s.held fd = some file →
      (Traced.fsWriteFile e s.proc.fs file buf off).result = .ok (ret, file', fs') →
      Shares geo fs' (Function.update s.held fd (some file')) ∧ NoneLost geo s.proc.fs fs' := by
    rintro fd path buf off file ret file' fs' rfl hfile he
    obtain ⟨hl, hw, x, hx, hcopy⟩ := hserves file hfile
    obtain ⟨-, rfl⟩ := (fsFindInode_iff h.shares.mounted).mp hx
    obtain ⟨u, hu⟩ := h.shares.landed hformat hfile hl he
    exact h.shares.wrote hfile hu (hu.within hw) hcopy
  rcases Call.stepOn_moves h.separate h.down hs with ⟨⟨path, size, rfl⟩, -⟩ |
    ⟨hdown, hsep, hmoves | ⟨fd, path, buf, off, file, ret, file', hcall, hfile, he, hheld⟩⟩
  · exact hc.elim
  · have hreg : ∀ path info, c = .open path → fsGetMetadata s.proc.fs path = .ok (.ok info) →
        sIsreg info.inode.mode := by
      rintro path info rfl hfound
      simpa only [Call.Shared, hfound] using hc
    obtain ⟨hshares, hkept⟩ := h.shares.moves hreg
      (by rintro path mode rfl; exact hc) hwrote hmoves
    exact ⟨⟨hdown, hsep, hshares⟩, hkept⟩
  · obtain ⟨hshares, hkept⟩ := hwrote fd path buf off file ret file' _ hcall hfile he
    exact ⟨⟨hdown, hsep, hheld ▸ hshares⟩, hkept⟩

theorem OpenFiles.Shared.run (hformat : geo.AsFormatted) (h : s.Shared geo)
    (hrun : CarefulRun geo s t) : t.Shared geo ∧ NoneLost geo s.proc.fs t.proc.fs := by
  have hstart : s.Shared geo ∧ NoneLost geo s.proc.fs s.proc.fs := ⟨h, NoneLost.refl geo s.proc.fs⟩
  refine hrun.invariant (fun t => t.Shared geo ∧ NoneLost geo s.proc.fs t.proc.fs) ?_ hstart
  rintro u c u' ⟨hu, hkept⟩ ⟨hc, hserves⟩ hs
  obtain ⟨hu', hkept'⟩ := hu.step hformat hc hserves hs
  exact ⟨hu', hkept.trans hkept'⟩

theorem OpenFiles.start_shared (hformat : geo.AsFormatted) (h : ReachableMax geo fs) :
    (OpenFiles.start fs).Shared geo := by
  obtain ⟨hm, hd⟩ := h.landing.deep hformat
  exact ⟨rfl, OpenFiles.start_separate fs, hm, hd, h.sizes hformat,
    fun _ _ hfile => (nomatch hfile)⟩

/-- While each write goes through a handle whose copy serves for it, the blocks of a completed
write stay mapped and the size stays at or above its end, whatever handles write afterwards. -/
theorem no_lost_update (hformat : geo.AsFormatted) (hstart : ReachableMax geo fs)
    (hrun : CarefulRun geo (.start fs) s) {fh : ℕ} {fi : OpenFile} {p : Process}
    (hfd : s.files.get fd = some fi) (hfile : s.proc.objects.get fi.fh = some file)
    (hserves : (Call.write fd fi.path buf off).Serves e geo s)
    (he : e.chisaiFuseWrite s.proc fi.path fi.fh buf off = .ok (ret, fh, p))
    (hafter : CarefulRun geo ⟨p, s.files.store fd { fi with fh := fh }⟩ t) :
    ∃ x y, fsFindInode p.fs file.idx = .ok (some x) ∧
      fsFindInode t.proc.fs file.idx = .ok (some y) ∧
      (∀ pos, off ≤ pos → pos < off + ret.toNat → ∃ k,
        fsFindBlk p.fs x pos none = .ok (.ok, some k) ∧
        fsFindBlk t.proc.fs y pos none = .ok (.ok, some k)) ∧
      (0 < ret → off + ret.toNat ≤ y.size.toUInt64.toNat) := by
  obtain ⟨hs, -⟩ := (OpenFiles.start_shared hformat hstart).run hformat hrun
  have hheld : s.held fd = some file := (OpenFiles.held_eq hfd).trans hfile
  have hstep : (Call.write fd fi.path buf off).stepOn e s =
      .ok ⟨p, s.files.store fd { fi with fh := fh }⟩ := by
    dsimp only [Call.stepOn, OpenFiles.on]
    rw [hfd]
    dsimp only
    rw [he]
    rfl
  have hpath : (Call.write fd fi.path buf off).Shared s := by
    change (s.files.get fd).map (·.path) = some fi.path
    rw [hfd]
    rfl
  obtain ⟨hp, -⟩ := hs.step hformat hpath hserves hstep
  obtain ⟨ht, hkept⟩ := hp.run hformat hafter
  obtain ⟨-, info, fs', hwrite, rfl⟩ := onHandle_lowered hs.down hfile he
  obtain ⟨hl, hw, x, hx, hcopy⟩ := hserves file hheld
  obtain ⟨-, rfl⟩ := (fsFindInode_iff hs.shares.mounted).mp hx
  obtain ⟨u, hu⟩ := hs.shares.landed hformat hheld hl hwrite
  have hstop := hu.within hw
  have hend := (hs.shares.retains hheld hu hstop hcopy).2
  obtain ⟨hused, hreg, hself⟩ := hu.self
  have hmax := geo.max_lt
  have hspan := geo.max_lt_span
  obtain ⟨hused', hreg', hlength⟩ := hkept.length file.idx hused hreg
  dsimp only at hlength hused' hreg'
  rw [hself] at hlength
  have htotal : u.total < 2 ^ 31 := by omega
  rw [hu.ret, toInt_of_lt htotal, Int.toNat_natCast]
  have hm := hp.shares.mounted
  refine ⟨_, _, (fsFindInode_iff hm).mpr ⟨hused, rfl⟩,
    (fsFindInode_iff ht.shares.mounted).mpr ⟨hused', rfl⟩, fun pos hpos hpos' => ?_, fun hret => ?_⟩
  · have hmod : off % geo.span = off := Nat.mod_eq_of_lt (by omega)
    have hcov := hu.passes.covered (q := pos) rfl (by dsimp only; omega) (by dsimp only; omega)
      (by dsimp only; omega)
    rw [← hu.mapped] at hcov
    have hholds : (volume geo fs').Holds geo (file.idx, pos / geo.blkSize)
        ((volume geo fs').mapped geo info.inode (pos / geo.blkSize)) :=
      ⟨hused, hreg, by rw [hself], hcov⟩
    have hlim : pos < geo.maxFileSize := by omega
    exact ⟨_, (hm.holds_iff hformat hp.shares.deep hused hreg hlim).mpr hholds,
      (ht.shares.mounted.holds_iff hformat ht.shares.deep hused' hreg' hlim).mpr
        (hkept.holds _ _ hholds)⟩
  · exact (hend (by omega)).trans hlength

theorem exists_update {ι : Type} (step : OpenFiles → ι → Exec OpenFiles)
    (allowed : OpenFiles → ι → Prop) [∀ s c, Decidable (allowed s c)] (before after : List ι)
    (serves : OpenFiles → OpenFile → Prop) [∀ s fi, Decidable (serves s fi)]
    (write : Process → CString → ℕ → Exec (ℤ × ℕ × Process)) {r : ℤ}
    {q : Filesystem → Filesystem → FileInfo → Prop} [∀ a b file, Decidable (q a b file)]
    (h : Yields (freshMount smallDisk) fun fs =>
      ((runAllowed step allowed (.start fs) before).any fun s =>
        (s.files.get 0).any fun fi => (s.proc.objects.get fi.fh).any fun file =>
          decide (serves s fi ∧ Yields (write s.proc fi.path fi.fh) fun w => w.1 = r ∧
              ((runAllowed step allowed
                ⟨w.2.2, s.files.store 0 { fi with fh := w.2.1 }⟩ after).any fun t =>
                  decide (q w.2.2.fs t.proc.fs file)) = true)) = true) :
    ∃ fs s fi file fh p t, freshMount smallDisk = .ok fs ∧
      Reaches step allowed (.start fs) s ∧ s.files.get 0 = some fi ∧
      s.proc.objects.get fi.fh = some file ∧ serves s fi ∧
      write s.proc fi.path fi.fh = .ok (r, fh, p) ∧
      Reaches step allowed ⟨p, s.files.store 0 { fi with fh := fh }⟩ t ∧
      q p.fs t.proc.fs file := by
  obtain ⟨fs, hmount, h⟩ := h
  obtain ⟨s, hs, h⟩ := (Option.any_eq_true _ _).mp h
  obtain ⟨fi, hfd, h⟩ := (Option.any_eq_true _ _).mp h
  obtain ⟨file, hfile, h⟩ := (Option.any_eq_true _ _).mp h
  obtain ⟨hserves, ⟨w, fh, p⟩, hw, hret, hlast⟩ := of_decide_eq_true h
  change w = r at hret
  subst hret
  obtain ⟨t, ht, hq⟩ := (Option.any_eq_true _ _).mp hlast
  exact ⟨fs, s, fi, file, fh, p, t, hmount, reaches_of_runAllowed .refl hs, hfd, hfile, hserves,
    hw, reaches_of_runAllowed .refl ht, of_decide_eq_true hq⟩

/-- Thirteen blocks through one handle, and a byte through one that is opened afterwards. -/
theorem no_lost_update_reopened :
    ∃ (fs : Filesystem) (s : OpenFiles) (fi : OpenFile) (file : FileInfo) (fh : ℕ) (p : Process)
      (t : OpenFiles) (x y : Inode) (k : ChisaiSize), ReachableMax smallDisk fs ∧
      Stray.zeros.chisaiFuseWrite s.proc fi.path fi.fh (List.replicate 6656 7) 0 =
        .ok (6656, fh, p) ∧
      CarefulRun smallDisk ⟨p, s.files.store 0 { fi with fh := fh }⟩ t ∧
      fsFindInode p.fs file.idx = .ok (some x) ∧
      fsFindInode t.proc.fs file.idx = .ok (some y) ∧
      fsFindBlk p.fs x 6655 none = .ok (.ok, some k) ∧
      fsFindBlk t.proc.fs y 6655 none = .ok (.ok, some k) ∧ 6656 ≤ y.size.toUInt64.toNat := by
  have hrun := exists_update (fun s (i : Stray × Call) => i.2.stepOn i.1 s) (Call.Careful smallDisk)
    [(.refuse, .create [47, 97] 0o100644), (.refuse, .open [47, 97])]
    [(.refuse, .release 1 [47, 97]), (.refuse, .open [47, 97]),
      (.refuse, .write 2 [47, 97] [4] 6656), (.refuse, .read 0 [47, 97] 3 0)]
    (fun s fi => (Call.write 0 fi.path (List.replicate 6656 7) 0).Serves .zeros smallDisk s)
    (fun p path fh => Stray.zeros.chisaiFuseWrite p path fh (List.replicate 6656 7) 0)
    (r := 6656) (q := fun _ _ _ => True) (by decide +kernel)
  obtain ⟨fs, s, fi, file, fh, p, t, hmount, hrun, hfd, hfile, hserves, hw, hafter, -⟩ := hrun
  have hstart : ReachableMax smallDisk fs := ⟨fs, hmount, .refl⟩
  obtain ⟨x, y, hx, hy, hblk, hsize⟩ :=
    no_lost_update (by decide) hstart hrun hfd hfile hserves hw hafter
  obtain ⟨k, hk, hk'⟩ := hblk 6655 (by decide) (by decide)
  exact ⟨fs, s, fi, file, fh, p, t, x, y, k, hstart, hw, hafter, hx, hy, hk, hk',
    hsize (by decide)⟩

/-- Two handles of an empty file: what the first wrote is gone once the second has written. -/
theorem second_handle_loses_block :
    ∃ fs s fi file fh p t, freshMount smallDisk = .ok fs ∧
      Reaches Call.step (fun s c => c.Shared s) (.start fs) s ∧ s.files.get 0 = some fi ∧
      s.proc.objects.get fi.fh = some file ∧
      chisaiFuseWrite s.proc fi.path fi.fh [1, 2, 3] 0 = .ok (3, fh, p) ∧
      Reaches Call.step (fun s c => c.Shared s) ⟨p, s.files.store 0 { fi with fh := fh }⟩ t ∧
      (Finds (fsFindInode p.fs file.idx) fun x => x.blk 0 ≠ 0 ∧
        ¬ Finds (fsFindInode t.proc.fs file.idx) fun y => y.blk 0 = x.blk 0) ∧
      Finds (fsFindInode t.proc.fs file.idx) fun y => y.size = 1 := by
  have hrun := exists_update Call.step (fun s c => c.Shared s)
    [.create [47, 97] 0o100644, .open [47, 97]] [.write 1 [47, 97] [4] 0] (fun _ _ => True)
    (fun p path fh => chisaiFuseWrite p path fh [1, 2, 3] 0) (r := 3)
    (q := fun a b file => (Finds (fsFindInode a file.idx) fun x => x.blk 0 ≠ 0 ∧
        ¬ Finds (fsFindInode b file.idx) fun y => y.blk 0 = x.blk 0) ∧
      Finds (fsFindInode b file.idx) fun y => y.size = 1) (by decide +kernel)
  obtain ⟨fs, s, fi, file, fh, p, t, hmount, hrun, hfd, hfile, -, hw, hafter, hlost⟩ := hrun
  exact ⟨fs, s, fi, file, fh, p, t, hmount, hrun, hfd, hfile, hw, hafter, hlost⟩

end Runs

end ChisaiFs
