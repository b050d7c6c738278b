import ChisaiFs.Frame

/-! Files that only grow, each through the handle its creation returned. After any
interleaving every handle reads back what was written through it. -/

namespace ChisaiFs
open Cells Outcome

def Holds (geo : Geometry) (v : Volume) (x : Inode) (data : List UInt8) : Prop :=
  ∀ pos (h : pos < data.length),
    x.blk (pos / geo.blkSize) ≠ 0 ∧ v.fileByte geo x pos = data[pos]

section Holding

variable {geo : Geometry} {v w : Volume} {x y : Inode} {data bs : List UInt8} {k : ChisaiSize}
  {n : ℕ}

theorem holds_nil : Holds geo v x [] := fun _ h => absurd h (Nat.not_lt_zero _)

theorem Holds.congr (h : Holds geo v x data) (hblk : ∀ n, y.blk n = x.blk n)
    (hbytes : ∀ n, x.blk n ≠ 0 → w.block (x.blk n) = v.block (x.blk n)) :
    Holds geo w y data := by
  intro pos hpos
  obtain ⟨h0, hb⟩ := h pos hpos
  rw [Volume.fileByte, hblk, hbytes _ h0]
  exact ⟨h0, hb⟩

theorem Holds.setBlk (h : Holds geo v x data) (h0 : x.blk n = 0) (k : ChisaiSize) :
    Holds geo v (x.setBlk n k) data := by
  intro pos hpos
  obtain ⟨hne, hb⟩ := h pos hpos
  have hpn : pos / geo.blkSize ≠ n := by
    rintro rfl
    exact hne h0
  rw [Volume.fileByte, Inode.blk_setBlk_of_ne hpn]
  exact ⟨hne, hb⟩

theorem Holds.append (h : Holds geo v x data)
    (hk : x.blk (data.length / geo.blkSize) = k) (hk0 : k ≠ 0)
    (hfit : data.length % geo.blkSize + bs.length ≤ geo.blkSize)
    (hother : ∀ n, n ≠ data.length / geo.blkSize → x.blk n ≠ 0 → x.blk n ≠ k) :
    Holds geo (v.writeBlock k (data.length % geo.blkSize) bs) x (data ++ bs) := by
  intro pos hpos
  rw [List.length_append] at hpos
  by_cases hlt : pos < data.length
  · obtain ⟨hne, hb⟩ := h pos hlt
    refine ⟨hne, ?_⟩
    rw [List.getElem_append_left hlt, ← hb, Volume.fileByte, Volume.fileByte]
    by_cases hn : pos / geo.blkSize = data.length / geo.blkSize
    · have hmod : pos % geo.blkSize < data.length % geo.blkSize := by
        have hp := Nat.div_add_mod pos geo.blkSize
        have hd := Nat.div_add_mod data.length geo.blkSize
        rw [hn] at hp
        omega
      rw [hn, hk, Volume.writeBlock_block_same, overwrite_outside _ (Or.inl hmod)]
    · rw [Volume.writeBlock_block_of_ne _ _ (hother _ hn hne)]
  · obtain ⟨q, rfl⟩ := Nat.exists_eq_add_of_le (not_lt.mp hlt)
    have hq : q < bs.length := by omega
    have hroom : q < geo.blkSize - data.length % geo.blkSize := by omega
    obtain ⟨hdiv, hmod⟩ := pass_pos hroom
    refine ⟨by rw [hdiv, hk]; exact hk0, ?_⟩
    rw [List.getElem_append_right (not_lt.mp hlt), Volume.fileByte, hdiv, hmod, hk,
      Volume.writeBlock_block_same, overwrite_inside _ _ _ _ hq]
    congr 1
    omega

end Holding

section Passes

variable {geo : Geometry} {buf data : List UInt8} {start : ℕ} {c c' : Cursor} {i j : ChisaiSize}
  {x : Inode}

theorem take_append_chunk (total : ℕ) :
    buf.take total ++ chunk geo.blkSize buf start total =
      buf.take (total + (chunk geo.blkSize buf start total).length) := by
  rw [List.take_add]
  congr 1
  rw [chunk, List.take_eq_take_iff, List.length_take]
  omega

theorem Cursor.Step.keeps (hc : Volume.Carries i c.vol c.inode)
    (hs : Cursor.Step geo buf start c c') (hx : Bystander c.vol j x) (hne : j ≠ i) :
    Bystander c'.vol j x ∧ ∀ n, x.blk n ≠ 0 → c'.vol.block (x.blk n) = c.vol.block (x.blk n) := by
  obtain ⟨hw, hi, hreg⟩ := hc
  have howns : ∀ n, x.blk n ≠ 0 → (c.vol.setInode i c.inode).Owns (j, n) (x.blk n) := by
    refine fun n hn => ⟨hx.used, ?_, hn⟩
    rw [Volume.setInode_inode_of_ne _ hne, hx.inode]
  cases hs with
  | overwrite hlt hk =>
    refine ⟨⟨hx.used, hx.inode, hx.regular⟩, fun n hn => ?_⟩
    refine Volume.writeBlock_block_of_ne _ _ fun he => ?_
    have ho : (c.vol.setInode i c.inode).Owns (i, (start + c.total) / geo.blkSize) (x.blk n) :=
      ⟨hi, by rw [Volume.setInode_inode_same, he], hn⟩
    exact hne (congrArg Prod.fst (hw.excl (howns n hn) ho))
  | extend hlt hn h0 hr hk =>
    refine ⟨⟨hx.used, hx.inode, hx.regular⟩, fun n hn => ?_⟩
    refine Volume.writeBlock_block_of_ne _ _ ?_
    rintro rfl
    exact hk (hw.marked _ _ (howns n hn))

theorem Cursor.Step.holds (hc : Volume.Carries i c.vol c.inode)
    (hs : Cursor.Step geo buf data.length c c')
    (h : Holds geo c.vol c.inode (data ++ buf.take c.total)) :
    Holds geo c'.vol c'.inode (data ++ buf.take c'.total) := by
  obtain ⟨hw, hi, hreg⟩ := hc
  have howns : ∀ n, c.inode.blk n ≠ 0 →
      (c.vol.setInode i c.inode).Owns (i, n) (c.inode.blk n) := fun n hn =>
    ⟨hi, by rw [Volume.setInode_inode_same], hn⟩
  have hlen : c.total < buf.length → (data ++ buf.take c.total).length = data.length + c.total := by
    intro hlt
    rw [List.length_append, List.length_take, Nat.min_eq_left hlt.le]
  have hfit := chunk_fits geo buf data.length c.total
  cases hs with
  | overwrite hlt hk =>
    rw [← take_append_chunk, ← List.append_assoc, ← hlen hlt]
    rw [← hlen hlt] at hfit hk
    refine h.append rfl hk hfit fun n hn hn0 he => hn ?_
    exact congrArg Prod.snd (hw.excl (howns n hn0) (he ▸ howns _ hk))
  | @extend k hlt hn h0 hr hk =>
    rw [← take_append_chunk, ← List.append_assoc, ← hlen hlt]
    rw [← hlen hlt] at hfit h0 hn
    have hmap : Holds geo (c.vol.useData k)
        (c.inode.setBlk ((data ++ buf.take c.total).length / geo.blkSize) k)
        (data ++ buf.take c.total) := by
      refine (h.setBlk h0 k).congr (fun _ => rfl) fun _ _ => rfl
    refine hmap.append (Inode.blk_setBlk_same hn) hr.1 hfit fun n hne hn0 he => ?_
    rw [Inode.blk_setBlk_of_ne hne] at hn0 he
    exact hk (he ▸ hw.marked _ _ (howns n hn0))

end Passes

structure FileOk (geo : Geometry) (v : Volume) (file : FileInfo) (written : List UInt8) : Prop
    extends Bystander v file.idx file.inode where
  size : file.inode.size = Int64.ofNat written.length
  bound : written.length ≤ directBlksNum * geo.blkSize
  holds : Holds geo v file.inode written

section Files

variable {geo : Geometry} {v w : Volume} {fs fs' : Filesystem} {file file' : FileInfo}
  {written buf : List UInt8} {ret : ℤ}

theorem FileOk.frame (h : FileOk geo v file written)
    (hkeep : Bystander w file.idx file.inode)
    (hblock : ∀ n, file.inode.blk n ≠ 0 →
      w.block (file.inode.blk n) = v.block (file.inode.blk n)) : FileOk geo w file written :=
  ⟨hkeep, h.size, h.bound, h.holds.congr (fun _ => rfl) hblock⟩

theorem FileOk.size_toNat (h : FileOk geo v file written) :
    file.inode.size.toUInt64.toNat = written.length := by
  have hb := geo.direct_lt
  have hle := h.bound
  rw [h.size, Int64.toUInt64_ofNat', UInt64.toNat_ofNat', Nat.mod_eq_of_lt (by omega)]

theorem FileOk.carries (h : FileOk geo v file written) (hw : v.Wellformed) :
    Volume.Carries file.idx v file.inode := by
  refine ⟨?_, h.used, h.regular⟩
  rw [← h.inode, Volume.setInode_self]
  exact hw

theorem FileOk.inRange (h : FileOk geo (volume geo fs) file written) (hm : Mounted geo fs)
    (hw : (volume geo fs).Wellformed) {n : ℕ} (hn : file.inode.blk n ≠ 0) :
    geo.InRange (file.inode.blk n) :=
  hm.dataUsed_inRange (hw.marked (file.idx, n) _ ⟨h.used, by rw [h.inode], hn⟩)

theorem FileOk.append (h : FileOk geo (volume geo fs) file written) (hm : Mounted geo fs)
    (hw : (volume geo fs).Wellformed)
    (hrange : written.length + buf.length ≤ directBlksNum * geo.blkSize)
    (he : fsWriteFile fs file buf written.length = .ok (ret, file', fs')) :
    Mounted geo fs' ∧ (volume geo fs').Wellformed ∧ file'.idx = file.idx ∧
      FileOk geo (volume geo fs') file' (written ++ buf.take ret.toNat) ∧
      ∀ other data, other.idx ≠ file.idx → FileOk geo (volume geo fs) other data →
        FileOk geo (volume geo fs') other data := by
  obtain ⟨hm', c, hsteps, hle, -, rfl, rfl, hv⟩ := fsWriteFile_direct hm hrange he
  have hrun : ∀ c, Relation.ReflTransGen (Cursor.Step geo buf written.length)
        ⟨volume geo fs, file.inode, 0⟩ c →
      Volume.Carries file.idx c.vol c.inode ∧
      Holds geo c.vol c.inode (written ++ buf.take c.total) ∧
      ∀ other data, other.idx ≠ file.idx → FileOk geo (volume geo fs) other data →
        FileOk geo c.vol other data := by
    intro c hc
    induction hc with
    | refl =>
      refine ⟨h.carries hw, ?_, fun _ _ _ ho => ho⟩
      rw [List.take_zero, List.append_nil]
      exact h.holds
    | tail _ hs ih =>
      obtain ⟨hcar, hholds, hothers⟩ := ih
      refine ⟨hcar.step hs, hs.holds hcar hholds, fun other data hne ho => ?_⟩
      have hc := hothers other data hne ho
      obtain ⟨hkeep, hblock⟩ := hs.keeps hcar hc.toBystander hne
      exact hc.frame hkeep hblock
  obtain ⟨hcar, hholds, hothers⟩ := hrun c hsteps
  have hlen : (written ++ buf.take c.total).length = written.length + c.total := by
    rw [List.length_append, List.length_take, Nat.min_eq_left hle]
  have hsize := writtenSize_append h.size
    (show written.length < 2 ^ 31 by have := geo.direct_lt; omega) c.total
  rw [Int.toNat_natCast]
  refine ⟨hm', hv ▸ hcar.store _, rfl, ⟨⟨?_, ?_, hcar.2.2⟩, ?_, by omega, ?_⟩, ?_⟩
  · rw [hv]
    exact hcar.2.1
  · rw [hv, Volume.setInode_inode_same]
  · rw [hlen]
    exact hsize
  · rw [hv]
    exact hholds.congr (fun n => Inode.blk_inodeSetSize _) fun _ _ => rfl
  · intro other data hne ho
    have hc := hothers other data hne ho
    rw [hv]
    refine hc.frame ⟨hc.used, ?_, hc.regular⟩ fun _ _ => rfl
    rw [Volume.setInode_inode_of_ne _ hne]
    exact hc.inode

theorem Holds.stored {v : Volume} {inode : Inode} (hm : Mounted geo fs)
    (h : Holds geo v inode written)
    (hr : ∀ n, inode.blk n ≠ 0 → geo.InRange (inode.blk n)) :
    Stored geo fs inode written.length := by
  intro pos hpos
  have h0 := (h pos hpos).1
  have hn := Inode.lt_of_blk_ne h0
  refine ⟨?_, _, hr _ h0, ?_⟩
  · rw [blkLimit_eq hm]
    exact Nat.lt_add_right _ hn
  · rw [findAt_of_lt hn, lookupOf, if_neg h0]

theorem FileOk.length_eq (h : FileOk geo v file written) : file.length = written.length :=
  h.size_toNat

theorem FileOk.read (h : FileOk geo (volume geo fs) file written) (hm : Mounted geo fs)
    (hw : (volume geo fs).Wellformed) {size : ℕ} (hsize : written.length ≤ size) :
    fsReadFile fs file size 0 = .ok ((written.length : ℤ), written) := by
  have hst := h.holds.stored hm fun n hn => h.inRange hm hw hn
  have hbytes : slice (storedByte fs file.inode) 0 written.length = written := by
    refine (slice_eq_iff rfl).mpr fun k hk => ?_
    obtain ⟨h0, hb⟩ := h.holds k hk
    rw [Nat.zero_add, storedByte_eq hm (Inode.lt_of_blk_ne h0)]
    exact hb
  have hread : ReadsRange fs file size 0 := by
    rw [← h.length_eq] at hst hsize
    exact readsRange_of_inside hm hst (by omega) (Or.inl (by omega))
  rw [ReadsRange, h.length_eq, Nat.sub_zero, Nat.min_eq_right hsize, hbytes] at hread
  exact hread

end Files

/-- A write that can go on: allocations succeed or report that there is no space. -/
structure WriteState.Ready (geo : Geometry) (buf : List UInt8) (start : ℕ) (s : WriteState) :
    Prop where
  mounted : Mounted geo s.fs
  primed : AllPrimed s.fs.blkGrps
  off : s.off = start + s.total
  le : s.total ≤ buf.length
  blks : ∀ n, s.inode.blk n ≠ 0 → geo.InRange (s.inode.blk n)

section Progress

variable {geo : Geometry} {fs : Filesystem} {buf : List UInt8} {start : ℕ} {s : WriteState}

theorem fsDataAlloc_total (h : Mounted geo fs) (hp : AllPrimed fs.blkGrps) :
    ∃ k fs', fsDataAlloc fs = .ok (k, fs') := by
  obtain ⟨k, ms, he, -⟩ :=
    (blkgrpsAlloc_spec h.groups .data).1 (firstPrimed_of_primed (hp.maps .data))
  change blkgrpsDataAlloc fs.blkGrps = _ at he
  rw [fsDataAlloc, he, ok_bind]
  by_cases h0 : k = 0
  · exact ⟨_, _, if_pos h0⟩
  · exact ⟨_, _, if_neg h0⟩

theorem WriteState.Ready.store (h : s.Ready geo buf start) (hlt : s.total < buf.length)
    (hrange : start + buf.length ≤ directBlksNum * geo.blkSize) (hfs : Mounted geo fs)
    (hp : AllPrimed fs.blkGrps) {inode : Inode} {blk : ChisaiSize} (hblk : geo.InRange blk)
    (hblks : ∀ n, inode.blk n ≠ 0 → geo.InRange (inode.blk n)) :
    ∃ s', s.store buf fs inode blk = .ok (s', false) ∧ s'.Ready geo buf start ∧
      s.total < s'.total := by
  have hoff := h.off
  have hin : s.off < directBlksNum * geo.blkSize := by omega
  have hfit := chunk_fits geo buf start s.total
  have hpos := chunk_pos geo buf start hlt
  have hle := chunk_le geo buf start hlt.le
  obtain ⟨d, hd⟩ := deviceDataSave_block_ok hfs hblk hfit
  obtain ⟨hm, -⟩ := deviceDataSave_block hfs hfit hd
  have hlen := chunk_length geo buf start s.total
  unfold WriteState.store
  rw [h.mounted.offInblk_eq, h.mounted.blockSize, hoff]
  dsimp only
  rw [chunk_eq, hd, ok_bind]
  refine ⟨_, rfl, ⟨hm, hp, ?_, ?_, hblks⟩, ?_⟩
  all_goals dsimp only; omega

theorem WriteState.Ready.chunk (h : s.Ready geo buf start) (hlt : s.total < buf.length)
    (hrange : start + buf.length ≤ directBlksNum * geo.blkSize) :
    ∃ s' nospace, fsWriteChunk buf s = .ok (s', nospace) ∧ s'.Ready geo buf start ∧
      (nospace = false → s.total < s'.total) := by
  have hoff := h.off
  have hin : s.off < directBlksNum * geo.blkSize := by omega
  rw [fsWriteChunk_eq h.mounted (direct_mod hin) hin]
  by_cases h0 : s.inode.blk (s.off / geo.blkSize) = 0
  · obtain ⟨k, fs₁, hk⟩ := fsDataAlloc_total h.mounted h.primed
    obtain ⟨h₁, -, hcase⟩ := fsDataAlloc_spec h.mounted hk
    have hp₁ := fsDataAlloc_primed h.mounted h.primed hk
    rw [if_pos h0, hk, ok_bind]
    dsimp only
    by_cases hk0 : k = 0
    · rw [if_pos hk0]
      exact ⟨_, true, rfl, ⟨h₁, hp₁, hoff, h.le, h.blks⟩, nofun⟩
    · have hr := (hcase.resolve_left fun hc => hk0 hc.1).1
      rw [if_neg hk0]
      have hblks : ∀ n, (s.inode.setBlk (s.off / geo.blkSize) k).blk n ≠ 0 →
          geo.InRange ((s.inode.setBlk (s.off / geo.blkSize) k).blk n) := by
        intro n hn
        by_cases he : n = s.off / geo.blkSize
        · subst he
          rw [Inode.blk_setBlk_same (div_lt_direct hin)]
          exact hr
        · rw [Inode.blk_setBlk_of_ne he] at hn ⊢
          exact h.blks n hn
      obtain ⟨s', hs, hready, hgrow⟩ := h.store hlt hrange h₁ hp₁ hr hblks
      exact ⟨s', false, hs, hready, fun _ => hgrow⟩
  · rw [if_neg h0]
    obtain ⟨s', hs, hready, hgrow⟩ :=
      h.store hlt hrange h.mounted h.primed (h.blks _ h0) h.blks
    exact ⟨s', false, hs, hready, fun _ => hgrow⟩

theorem WriteState.Ready.loop {fuel : ℕ} (h : s.Ready geo buf start)
    (hrange : start + buf.length ≤ directBlksNum * geo.blkSize)
    (hfuel : buf.length - s.total ≤ fuel) :
    ∃ s' nospace, fsWriteLoop buf fuel s = .ok (s', nospace) ∧ s'.Ready geo buf start ∧
      (nospace = false → s'.total = buf.length) := by
  have hle := h.le
  induction fuel generalizing s with
  | zero =>
    rw [fsWriteLoop, if_neg (by omega)]
    exact ⟨s, false, rfl, h, fun _ => by omega⟩
  | succ fuel ih =>
    rw [fsWriteLoop]
    by_cases hlt : s.total < buf.length
    · obtain ⟨s₁, nospace, hs, hready, hgrow⟩ := h.chunk hlt hrange
      rw [if_pos hlt, hs, ok_bind]
      cases nospace with
      | true => exact ⟨s₁, true, rfl, hready, nofun⟩
      | false =>
        have hgrow := hgrow rfl
        exact ih hready (by omega) hready.le
    · rw [if_neg hlt]
      exact ⟨s, false, rfl, h, fun _ => by omega⟩

theorem fsWriteFile_total {file : FileInfo} (h : Mounted geo fs) (hp : AllPrimed fs.blkGrps)
    (hi : geo.InRange file.idx) (hrange : start + buf.length ≤ directBlksNum * geo.blkSize)
    (hblks : ∀ n, file.inode.blk n ≠ 0 → geo.InRange (file.inode.blk n)) :
    ∃ ret file' fs', fsWriteFile fs file buf start = .ok (ret, file', fs') ∧
      AllPrimed fs'.blkGrps := by
  have hready : WriteState.Ready geo buf start ⟨fs, file.inode, none, 0, start⟩ :=
    ⟨h, hp, rfl, Nat.zero_le _, hblks⟩
  obtain ⟨s, nospace, hloop, hs, hdone⟩ := hready.loop hrange (Nat.sub_le _ _)
  obtain ⟨fs₁, hsave⟩ :=
    fsSaveInode_ok hs.mounted (inodeSetSize s.inode (writtenSize file.inode start s.total)) hi
  have hgrps := (fsSaveInode_spec hs.mounted hsave).2.2.1
  refine ⟨toInt s.total, ⟨inodeSetSize s.inode (writtenSize file.inode start s.total), file.idx⟩,
    fs₁, ?_, hgrps ▸ hs.primed⟩
  unfold writtenSize at hsave ⊢
  unfold fsWriteFile
  dsimp only at hsave ⊢
  rw [hloop, ok_bind]
  cases nospace with
  | true =>
    simp only [not_true_eq_false, ↓reduceIte, decide_eq_true_eq, hsave, ok_bind]
    rfl
  | false =>
    have hdone := hdone rfl
    simp only [hdone, assertThat, not_false_eq_true, ↓reduceIte, decide_eq_true_eq, ok_bind,
      Bool.false_eq_true] at hsave ⊢
    rw [hsave]
    rfl

theorem fsMkdir_primed {path : CString} {mode : UInt32} {r : ChisaiError} {fs' : Filesystem}
    (h : Mounted geo fs) (hp : AllPrimed fs.blkGrps) (he : fsMkdir fs path mode = .ok (r, fs')) :
    AllPrimed fs'.blkGrps := by
  rcases fsMkdir_eq_ok he with ⟨-, rfl, -⟩ | ⟨parent, k, fs₁, -, hk, hcase⟩
  · exact hp
  have h₁ := (fsDataAlloc_spec h hk).1
  have hp₁ := fsDataAlloc_primed h hp hk
  rcases hcase with ⟨-, -, rfl⟩ | ⟨-, i, fs₂, hi, hcase⟩
  · exact hp₁
  have h₂ := (fsInodeAlloc_spec h₁ hi).1
  have hp₂ := fsInodeAlloc_primed h₁ hp₁ hi
  rcases hcase with ⟨-, -, rfl⟩ | ⟨-, -, inserted, dir, fs₃, fs₄, -, h₃, h₄, h₅⟩
  · exact hp₂
  obtain ⟨hm₃, -, hg₃, -⟩ := fsSaveDir_spec h₂ h₃
  obtain ⟨hm₄, -, hg₄, -⟩ := fsSaveInode_spec hm₃ h₄
  obtain ⟨-, -, hg₅, -⟩ := fsSaveDir_spec hm₄ h₅
  rw [hg₅, hg₄, hg₃]
  exact hp₂

theorem fsCreateFile_primed {path : CString} {mode : UInt32} {file file' : FileInfo}
    {r : ChisaiError} {fs' : Filesystem} (h : Mounted geo fs) (hp : AllPrimed fs.blkGrps)
    (he : fsCreateFile fs path mode file = .ok (r, file', fs')) : AllPrimed fs'.blkGrps := by
  rcases fsCreateFile_eq_ok he with ⟨-, -, rfl, -⟩ | ⟨parent, i, fs₁, -, hi, hcase⟩
  · exact hp
  have h₁ := (fsInodeAlloc_spec h hi).1
  have hp₁ := fsInodeAlloc_primed h hp hi
  rcases hcase with ⟨-, -, -, rfl⟩ | ⟨-, -, -, inserted, dir, fs₂, -, h₂, h₃⟩
  · exact hp₁
  obtain ⟨hm₂, -, hg₂, -⟩ := fsSaveDir_spec h₁ h₂
  obtain ⟨-, -, hg₃, -⟩ := fsSaveInode_spec hm₂ h₃
  rw [hg₃, hg₂]
  exact hp₁

end Progress

/-- The file system with the handles that creations returned, each with the bytes that the
appends through it were reported to have written. -/
structure Session where
  fs : Filesystem
  handles : List (FileInfo × List UInt8)

def Session.start (fs : Filesystem) : Session := ⟨fs, []⟩

inductive AppendOp
  | mkdir (path : CString) (mode : UInt32)
  | create (path : CString) (mode : UInt32)
  | append (n : ℕ) (buf : List UInt8)

def AppendOp.step (s : Session) : AppendOp → Exec Session
  | .mkdir path mode => do
    let (_, fs) ← fsMkdir s.fs path mode
    return { s with fs := fs }
  | .create path mode => do
    let (r, file, fs) ← fsCreateFile s.fs path mode ⟨inodeInit, noInode⟩
    return ⟨fs, if r = .ok then s.handles ++ [(file, [])] else s.handles⟩
  | .append n buf =>
    match s.handles[n]? with
    | none => .ok s
    | some (file, written) => do
      let (ret, file, fs) ← fsWriteFile s.fs file buf file.inode.size.toUInt64.toNat
      return ⟨fs, s.handles.set n (file, written ++ buf.take ret.toNat)⟩

def AppendOp.Lawful (s : Session) : AppendOp → Prop
  | .mkdir path _ => ParentIsDir s.fs path
  | .create path mode => ParentIsDir s.fs path ∧ sIsreg mode
  | .append n buf =>
    match s.handles[n]? with
    | none => False
    | some (file, _) => file.inode.size.toUInt64.toNat + buf.length ≤
        directBlksNum * s.fs.sb.blockSize.toNat

instance (s : Session) : (op : AppendOp) → Decidable (op.Lawful s)
  | .mkdir path _ => inferInstanceAs (Decidable (ParentIsDir s.fs path))
  | .create path mode => inferInstanceAs (Decidable (ParentIsDir s.fs path ∧ sIsreg mode))
  | .append n buf =>
    match h : s.handles[n]? with
    | none => isFalse fun hl => by rw [AppendOp.Lawful, h] at hl; exact hl
    | some (file, _) => decidable_of_iff (file.inode.size.toUInt64.toNat + buf.length ≤
        directBlksNum * s.fs.sb.blockSize.toNat) (by rw [AppendOp.Lawful, h])

structure Session.Ok (geo : Geometry) (s : Session) : Prop where
  mounted : Mounted geo s.fs
  primed : AllPrimed s.fs.blkGrps
  wellformed : (volume geo s.fs).Wellformed
  file : ∀ (n : ℕ) (a : FileInfo × List UInt8), s.handles[n]? = some a →
    FileOk geo (volume geo s.fs) a.1 a.2
  distinct : ∀ (n m : ℕ) (a b : FileInfo × List UInt8), s.handles[n]? = some a →
    s.handles[m]? = some b → a.1.idx = b.1.idx → n = m

section Sessions

theorem getElem?_concat_cases {α : Type*} {l : List α} {a b : α} {n : ℕ}
    (h : (l ++ [a])[n]? = some b) : l[n]? = some b ∨ (n = l.length ∧ b = a) := by
  rw [List.getElem?_append] at h
  split_ifs at h with hlt
  · exact Or.inl h
  · rw [List.getElem?_singleton] at h
    split_ifs at h with h0
    exact Or.inr ⟨by omega, (Option.some.inj h).symm⟩

theorem getElem?_set_cases {α : Type*} {l : List α} {a b : α} {n m : ℕ}
    (h : (l.set n a)[m]? = some b) : (m = n ∧ b = a) ∨ (m ≠ n ∧ l[m]? = some b) := by
  rw [List.getElem?_set] at h
  split_ifs at h with hn hlt
  · exact Or.inl ⟨hn.symm, (Option.some.inj h).symm⟩
  · exact Or.inr ⟨Ne.symm hn, h⟩

variable {geo : Geometry} {s s' : Session} {fs fs' : Filesystem}

theorem Keeps.fileOk (hm : Mounted geo fs) (hm' : Mounted geo fs')
    (hu : (volume geo fs).inodeUsed ⊆ (volume geo fs').inodeUsed)
    (hkeep : ∀ i x, Bystander (volume geo fs) i x → Keeps geo i x fs fs') {file : FileInfo}
    {written : List UInt8} (h : FileOk geo (volume geo fs) file written) :
    FileOk geo (volume geo fs') file written := by
  have hk := hkeep _ _ h.toBystander
  refine h.frame ⟨hu h.used, ?_, h.regular⟩ hk.block
  rw [inode_of_slot hm hm' hk.slot, h.inode]

theorem Session.Ok.mkdir (h : s.Ok geo) {path : CString} {mode : UInt32} {r : ChisaiError}
    (hl : ParentIsDir s.fs path) (he : fsMkdir s.fs path mode = .ok (r, fs')) :
    Session.Ok geo { s with fs := fs' } := by
  obtain ⟨hm', hw'⟩ := fsMkdir_wellformed h.mounted h.wellformed he
  have hu : (volume geo s.fs).inodeUsed ⊆ (volume geo fs').inodeUsed := by
    rcases (fsMkdir_volume h.mounted he).2 with ⟨-, hv | ⟨k, -, hv⟩⟩ |
      ⟨-, _, _, k, i, _, _, -, -, -, -, -, -, -, hv⟩
    · rw [hv]
    · rw [hv]
      exact subset_rfl
    · rw [hv]
      exact Set.subset_insert _ _
  refine ⟨hm', fsMkdir_primed h.mounted h.primed he, hw', fun n a ha => ?_, h.distinct⟩
  exact Keeps.fileOk h.mounted hm' hu
    (fun i x hx => fsMkdir_keeps h.mounted h.wellformed hx hl he) (h.file n a ha)

theorem newFile_ok {v : Volume} {mode : UInt32} {i : ChisaiSize} (hi : i ∈ v.inodeUsed)
    (hv : v.inode i = (newFile mode i).inode) (hreg : sIsreg mode) :
    FileOk geo v (newFile mode i) [] :=
  ⟨⟨hi, hv, hreg⟩, rfl, Nat.zero_le _, holds_nil⟩

theorem Session.Ok.create (h : s.Ok geo) {path : CString} {mode : UInt32} {r : ChisaiError}
    {file file' : FileInfo} (hl : ParentIsDir s.fs path) (hreg : sIsreg mode)
    (he : fsCreateFile s.fs path mode file = .ok (r, file', fs')) :
    Session.Ok geo ⟨fs', if r = .ok then s.handles ++ [(file', [])] else s.handles⟩ := by
  obtain ⟨hm', hw'⟩ := fsCreateFile_wellformed h.mounted h.wellformed hreg he
  have hp' := fsCreateFile_primed h.mounted h.primed he
  have hkeep := fun i x hx => fsCreateFile_keeps (i := i) (x := x) h.mounted h.wellformed hx hl he
  rcases (fsCreateFile_volume h.mounted he).2 with ⟨hr, -, hv⟩ |
    ⟨rfl, _, _, i, _, _, -, -, -, hin, rfl, -, hv⟩
  · have hu : (volume geo s.fs).inodeUsed ⊆ (volume geo fs').inodeUsed := by rw [hv]
    rw [if_neg hr]
    exact ⟨hm', hp', hw', fun n a ha => Keeps.fileOk h.mounted hm' hu hkeep (h.file n a ha),
      h.distinct⟩
  · have hu : (volume geo s.fs).inodeUsed ⊆ (volume geo fs').inodeUsed := by
      rw [hv]
      exact Set.subset_insert _ _
    have hfile : FileOk geo (volume geo fs') (newFile mode i) [] := by
      rw [hv]
      exact newFile_ok (Set.mem_insert _ _) (Volume.setInode_inode_same _) hreg
    have hnew : ∀ (n : ℕ) (a : FileInfo × List UInt8), s.handles[n]? = some a → a.1.idx ≠ i := by
      rintro n a ha rfl
      exact hin (h.file n a ha).used
    rw [if_pos rfl]
    refine ⟨hm', hp', hw', fun n a ha => ?_, fun n m a b ha hb hab => ?_⟩
    · rcases getElem?_concat_cases ha with ha | ⟨-, rfl⟩
      · exact Keeps.fileOk h.mounted hm' hu hkeep (h.file n a ha)
      · exact hfile
    · rcases getElem?_concat_cases ha with ha | ⟨rfl, rfl⟩ <;>
        rcases getElem?_concat_cases hb with hb | ⟨rfl, rfl⟩
      · exact h.distinct n m a b ha hb hab
      · exact absurd hab (hnew n a ha)
      · exact absurd hab.symm (hnew m b hb)
      · rfl

theorem Session.Ok.append (h : s.Ok geo) {n : ℕ} {file file' : FileInfo}
    {written buf : List UInt8} {ret : ℤ} (hn : s.handles[n]? = some (file, written))
    (hrange : written.length + buf.length ≤ directBlksNum * geo.blkSize)
    (he : fsWriteFile s.fs file buf written.length = .ok (ret, file', fs')) :
    Session.Ok geo ⟨fs', s.handles.set n (file', written ++ buf.take ret.toNat)⟩ := by
  have hfile : FileOk geo (volume geo s.fs) file written := h.file n _ hn
  obtain ⟨hm', hw', hidx, hnew, hothers⟩ := hfile.append h.mounted h.wellformed hrange he
  have hp' : AllPrimed fs'.blkGrps := by
    obtain ⟨_, _, _, he', hp⟩ := fsWriteFile_total h.mounted h.primed
      (h.mounted.inodeUsed_inRange hfile.used) hrange
      fun n hn => hfile.inRange h.mounted h.wellformed hn
    rw [he] at he'
    cases he'
    exact hp
  refine ⟨hm', hp', hw', fun m a ha => ?_, fun m l a b ha hb hab => ?_⟩
  · rcases getElem?_set_cases ha with ⟨-, rfl⟩ | ⟨hne, ha⟩
    · exact hnew
    · refine hothers _ _ (fun hc => hne ?_) (h.file m a ha)
      exact h.distinct m n a _ ha hn hc
  · have hset : ∀ (m : ℕ) (a : FileInfo × List UInt8),
        (s.handles.set n (file', written ++ buf.take ret.toNat))[m]? = some a →
        ∃ a' : FileInfo × List UInt8, s.handles[m]? = some a' ∧ a'.1.idx = a.1.idx := by
      intro m a ha
      rcases getElem?_set_cases ha with ⟨rfl, rfl⟩ | ⟨-, ha⟩
      · exact ⟨_, hn, hidx.symm⟩
      · exact ⟨a, ha, rfl⟩
    obtain ⟨a', ha', hia⟩ := hset m a ha
    obtain ⟨b', hb', hib⟩ := hset l b hb
    exact h.distinct m l a' b' ha' hb' (hia.trans (hab.trans hib.symm))

theorem AppendOp.Lawful.handle {n : ℕ} {buf : List UInt8} (hl : (append n buf).Lawful s) :
    ∃ file written, s.handles[n]? = some (file, written) ∧
      file.inode.size.toUInt64.toNat + buf.length ≤
        directBlksNum * s.fs.sb.blockSize.toNat := by
  unfold AppendOp.Lawful at hl
  dsimp only at hl
  cases hn : s.handles[n]? with
  | none =>
    rw [hn] at hl
    exact hl.elim
  | some a =>
    rw [hn] at hl
    exact ⟨a.1, a.2, rfl, hl⟩

theorem AppendOp.step_append {n : ℕ} {file : FileInfo} {written buf : List UInt8}
    (hn : s.handles[n]? = some (file, written)) :
    (append n buf).step s = fsWriteFile s.fs file buf file.inode.size.toUInt64.toNat >>= fun r =>
      pure ⟨r.2.2, s.handles.set n (r.2.1, written ++ buf.take r.1.toNat)⟩ := by
  unfold AppendOp.step
  dsimp only
  rw [hn]

theorem AppendOp.step_ok (h : s.Ok geo) {op : AppendOp} (hl : op.Lawful s)
    (hs : op.step s = .ok s') : s'.Ok geo := by
  cases op with
  | mkdir path mode =>
    obtain ⟨⟨r, fs⟩, he, hs⟩ := bind_eq_ok.mp hs
    cases hs
    exact h.mkdir hl he
  | create path mode =>
    obtain ⟨⟨r, file, fs⟩, he, hs⟩ := bind_eq_ok.mp hs
    cases hs
    exact h.create hl.1 hl.2 he
  | append n buf =>
    obtain ⟨file, written, hn, hl⟩ := hl.handle
    have hsize : file.inode.size.toUInt64.toNat = written.length := (h.file n _ hn).size_toNat
    rw [step_append hn] at hs
    obtain ⟨⟨ret, file', fs⟩, he, hs⟩ := bind_eq_ok.mp hs
    cases hs
    rw [hsize] at he
    rw [hsize, h.mounted.blockSize] at hl
    exact h.append hn hl he

theorem AppendOp.append_returns (h : s.Ok geo) {n : ℕ} {buf : List UInt8}
    (hl : (append n buf).Lawful s) : ∃ s', (append n buf).step s = .ok s' := by
  obtain ⟨file, written, hn, hl⟩ := hl.handle
  have hfile : FileOk geo (volume geo s.fs) file written := h.file n _ hn
  rw [h.mounted.blockSize] at hl
  obtain ⟨ret, file', fs', he, -⟩ := fsWriteFile_total h.mounted h.primed
    (h.mounted.inodeUsed_inRange hfile.used) hl
    fun n hn => hfile.inRange h.mounted h.wellformed hn
  rw [step_append hn, he]
  exact ⟨_, rfl⟩

/-- In every state of a session each handle reads back what its appends reported, in one
read of at least the file's size, and further appends return. -/
theorem interleaved_appends (hmount : freshMount geo = .ok fs)
    (hrun : Reaches AppendOp.step (fun s op => op.Lawful s) (.start fs) s) :
    (∀ file written, (file, written) ∈ s.handles →
      file.inode.size.toInt = written.length ∧ ∀ size, written.length ≤ size →
        fsReadFile s.fs file size 0 = .ok ((written.length : ℤ), written)) ∧
    ∀ n buf, (AppendOp.append n buf).Lawful s →
      ∃ s', (AppendOp.append n buf).step s = .ok s' := by
  obtain ⟨hm, hp, hw⟩ := freshMount_spec hmount
  have h : s.Ok geo := by
    refine hrun.invariant (fun s => s.Ok geo)
      (fun s op t h hl hs => AppendOp.step_ok h hl hs) ⟨hm, hp, hw, ?_, ?_⟩
    · exact fun n a ha => absurd ha (by simp [Session.start])
    · exact fun n m a b ha => absurd ha (by simp [Session.start])
  refine ⟨fun file written hmem => ?_, fun n buf hl => AppendOp.append_returns h hl⟩
  obtain ⟨n, hn⟩ := List.mem_iff_getElem?.mp hmem
  have hfile : FileOk geo (volume geo s.fs) file written := h.file n _ hn
  refine ⟨?_, fun size hsize => hfile.read h.mounted h.wellformed hsize⟩
  have hb := geo.direct_lt
  have hle := hfile.bound
  rw [hfile.size, Int64.toInt_ofNat_of_lt (by omega)]

/-- Two files grown in turn. -/
def twoFiles : List AppendOp :=
  [.create [47, 102] 0o100644, .create [47, 103] 0o100644, .append 0 [1, 2], .append 1 [7],
    .append 0 [3, 4]]

theorem interleaved_appends_twoFiles :
    ∃ (s : Session) (file : FileInfo), s.handles[0]? = some (file, [1, 2, 3, 4]) ∧
      fsReadFile s.fs file 4 0 = .ok (4, [1, 2, 3, 4]) ∧
      ∃ s', (AppendOp.append 1 [8]).step s = .ok s' := by
  have hrun : ∃ fs s, freshMount smallDisk = .ok fs ∧
      Reaches AppendOp.step (fun s op => op.Lawful s) (.start fs) s ∧
      (s.handles[0]?.map Prod.snd = some [1, 2, 3, 4] ∧ (AppendOp.append 1 [8]).Lawful s) := by
    apply exists_run Session.start twoFiles
    decide +kernel
  obtain ⟨fs, s, hmount, hrun, hhandle, hl⟩ := hrun
  obtain ⟨⟨file, written⟩, hn, rfl⟩ := Option.map_eq_some_iff.mp hhandle
  obtain ⟨hread, happend⟩ := interleaved_appends hmount hrun
  refine ⟨s, file, hn, ?_, happend 1 [8] hl⟩
  exact (hread file _ (List.mem_of_getElem? hn)).2 4 (le_refl 4)

end Sessions

end ChisaiFs
