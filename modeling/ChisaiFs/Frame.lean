import ChisaiFs.Reading

/-! What the namespace operations leave alone: the inode slots and the blocks of the regular
files. Only a rename whose target is looked up in a tree that the removal of its source has
changed can store a directory over a file. -/

namespace ChisaiFs
open Cells Outcome Words

def slotBytes (fs : Filesystem) (i : ChisaiSize) : List UInt8 :=
  slice fs.d.bytes (fsInodeToOffset fs i) inodeSize.toNat

/-- The slot of inode `i` and the blocks that `x` maps are as they were. -/
structure Keeps (geo : Geometry) (i : ChisaiSize) (x : Inode) (fs fs' : Filesystem) : Prop where
  slot : slotBytes fs' i = slotBytes fs i
  block : ∀ n, x.blk n ≠ 0 → (volume geo fs').block (x.blk n) = (volume geo fs).block (x.blk n)

section Primitives

variable {geo : Geometry} {fs fs' : Filesystem} {i : ChisaiSize} {x : Inode}

theorem Keeps.refl (fs : Filesystem) : Keeps geo i x fs fs := ⟨rfl, fun _ _ => rfl⟩

theorem Keeps.trans {fs₁ : Filesystem} (h : Keeps geo i x fs fs₁) (h' : Keeps geo i x fs₁ fs') :
    Keeps geo i x fs fs' :=
  ⟨h'.slot.trans h.slot, fun n hn => (h'.block n hn).trans (h.block n hn)⟩

theorem slotBytes_eq (h : Mounted geo fs) (i : ChisaiSize) :
    slotBytes fs i = slice fs.d.bytes (geo.slotOff (i - 1).toNat) 128 := by
  rw [slotBytes, fsInodeToOffset_eq h]
  rfl

theorem Keeps.of_device (h : Mounted geo fs) (h' : Mounted geo fs') (hd : fs'.d = fs.d) :
    Keeps geo i x fs fs' := by
  refine ⟨?_, fun n _ => ?_⟩
  · rw [slotBytes_eq h, slotBytes_eq h', hd]
  · simp only [volume, hd]

theorem fsSaveInode_keeps (h : Mounted geo fs) {y : Inode} {j : ChisaiSize} (hne : i ≠ j)
    (he : fsSaveInode fs y j = .ok fs') : Keeps geo i x fs fs' := by
  obtain ⟨h', -, -, hv⟩ := fsSaveInode_spec h he
  refine ⟨?_, fun n _ => by rw [hv]; rfl⟩
  rw [slotBytes_eq h, slotBytes_eq h']
  obtain ⟨d, hd, he⟩ := bind_eq_ok.mp he
  cases he
  obtain ⟨-, rfl⟩ := deviceDataSave_eq_ok.mp hd
  have hdis := geo.slot_slot_disjoint (sub_one_injective hne)
  have hlen := inodeCodec.length_enc y
  rw [inodeCodec_width] at hlen
  rw [fsInodeToOffset_eq h]
  exact slice_overwrite_disjoint _ (by omega)

theorem fsSaveDir_slot (h : Mounted geo fs) {dir : Dir} {k : ChisaiSize}
    (he : fsSaveDir fs dir k = .ok fs') (i : ChisaiSize) : slotBytes fs' i = slotBytes fs i := by
  obtain ⟨h', -, -, hv⟩ := fsSaveDir_spec h he
  rw [slotBytes_eq h, slotBytes_eq h']
  obtain ⟨d, hd, he⟩ := bind_eq_ok.mp he
  cases he
  obtain ⟨-, rfl⟩ := deviceDataSave_eq_ok.mp hd
  have hdis := geo.slot_blk_disjoint (i - 1).toNat (k - 1).toNat
  have hlen := dirCodec.length_enc dir
  have hfit := dir_fits geo
  rw [fsDataToOffset_eq h]
  exact slice_overwrite_disjoint _ (by omega)

theorem fsSaveDir_keeps (h : Mounted geo fs) {dir : Dir} {k : ChisaiSize}
    (hk : ∀ n, x.blk n ≠ 0 → x.blk n ≠ k) (he : fsSaveDir fs dir k = .ok fs') :
    Keeps geo i x fs fs' := by
  obtain ⟨-, -, -, hv⟩ := fsSaveDir_spec h he
  exact ⟨fsSaveDir_slot h he i, fun n hn => by rw [hv, Volume.setDir_block_of_ne dir (hk n hn)]⟩

theorem Keeps.read (hk : Keeps geo i x fs fs') (h : Mounted geo fs) (h' : Mounted geo fs')
    {size off : ℕ} (hrange : off + size ≤ directBlksNum * geo.blkSize) :
    fsReadFile fs' ⟨x, i⟩ size off = fsReadFile fs ⟨x, i⟩ size off := by
  have hle := Nat.min_le_left size x.size.toUInt64.toNat
  refine fsReadLoop_congr h' h ?_ fun pos hpos _ hn => ?_
  · rw [List.length_nil, Nat.sub_zero]
    exact (Nat.add_le_add_left hle off).trans hrange
  · unfold Volume.fileByte
    rw [hk.block _ (hn pos hpos le_rfl)]

end Primitives

structure Bystander (v : Volume) (i : ChisaiSize) (x : Inode) : Prop where
  used : i ∈ v.inodeUsed
  inode : v.inode i = x
  regular : sIsreg x.mode

section Bystanders

variable {geo : Geometry} {fs fs' : Filesystem} {i p : ChisaiSize} {x : Inode} {v : Volume}
  {path src dst : CString} {mode : UInt32} {r : ChisaiError}

theorem Bystander.ne_of_owns (hx : Bystander v i x) (hw : v.Wellformed) (hne : p ≠ i)
    (hp : p ∈ v.inodeUsed) (n : ℕ) (hn : x.blk n ≠ 0) : x.blk n ≠ (v.inode p).blk 0 := by
  intro hc
  have ho : v.Owns (i, n) (x.blk n) := ⟨hx.used, by rw [hx.inode], hn⟩
  have ho' : v.Owns (p, 0) (x.blk n) := ⟨hp, hc.symm, hn⟩
  exact hne (congrArg Prod.fst (hw.excl ho' ho))

theorem Bystander.ne_of_free (hx : Bystander v i x) (hw : v.Wellformed) {k : ChisaiSize}
    (hk : k ∉ v.dataUsed) (n : ℕ) (hn : x.blk n ≠ 0) : x.blk n ≠ k := by
  rintro rfl
  exact hk (hw.marked (i, n) _ ⟨hx.used, by rw [hx.inode], hn⟩)

theorem Bystander.ne_of_dir (hx : Bystander v i x) (hp : sIsdir (v.inode p).mode) : p ≠ i := by
  rintro rfl
  rw [hx.inode] at hp
  exact not_sIsdir_of_sIsreg hx.regular hp

theorem Bystander.ne_of_parent (hx : Bystander v i x) (hw : v.Wellformed) {parent : Parent}
    (hat : parent.At v p) (hd : sIsdir parent.inode.mode) (n : ℕ) (hn : x.blk n ≠ 0) :
    x.blk n ≠ parent.inode.directBlks[0] := by
  rw [hat.dir_eq.2]
  exact hx.ne_of_owns hw (hx.ne_of_dir (hat.inode ▸ hd)) hat.used n hn

theorem fsMkdir_keeps (hm : Mounted geo fs) (hw : (volume geo fs).Wellformed)
    (hx : Bystander (volume geo fs) i x) (hl : ParentIsDir fs path)
    (he : fsMkdir fs path mode = .ok (r, fs')) : Keeps geo i x fs fs' := by
  rcases fsMkdir_eq_ok he with ⟨-, rfl, -⟩ | ⟨parent, k, fs₁, habs, hk, hcase⟩
  · exact .refl fs'
  obtain ⟨p, hat, -⟩ := fsPathToParent_eq_ok hm habs.1
  obtain ⟨h₁, hd₁, hv₁⟩ := fsDataAlloc_spec hm hk
  have hkeep₁ := Keeps.of_device (i := i) (x := x) hm h₁ hd₁
  rcases hcase with ⟨-, -, rfl⟩ | ⟨hk0, j, fs₂, hj, hcase⟩
  · exact hkeep₁
  obtain ⟨-, hkn, hv₁⟩ := hv₁.resolve_left fun hc => hk0 hc.1
  obtain ⟨h₂, hd₂, hv₂⟩ := fsInodeAlloc_spec h₁ hj
  have hkeep₂ := hkeep₁.trans (.of_device h₁ h₂ hd₂)
  rcases hcase with ⟨-, -, rfl⟩ | ⟨hj0, -, inserted, dir, fs₃, fs₄, -, h₃, h₄, h₅⟩
  · exact hkeep₂
  obtain ⟨-, hjn, -⟩ := hv₂.resolve_left fun hc => hj0 hc.1
  have hij : i ≠ j := by
    rintro rfl
    rw [hv₁] at hjn
    exact hjn hx.used
  have hm₃ := (fsSaveDir_spec h₂ h₃).1
  have hm₄ := (fsSaveInode_spec hm₃ h₄).1
  exact ((hkeep₂.trans (fsSaveDir_keeps h₂ (hx.ne_of_parent hw hat (hl parent habs.1)) h₃)).trans
    (fsSaveInode_keeps hm₃ hij h₄)).trans (fsSaveDir_keeps hm₄ (hx.ne_of_free hw hkn) h₅)

theorem fsCreateFile_keeps (hm : Mounted geo fs) (hw : (volume geo fs).Wellformed)
    (hx : Bystander (volume geo fs) i x) (hl : ParentIsDir fs path) {file file' : FileInfo}
    (he : fsCreateFile fs path mode file = .ok (r, file', fs')) : Keeps geo i x fs fs' := by
  rcases fsCreateFile_eq_ok he with ⟨-, -, rfl, -⟩ | ⟨parent, j, fs₁, habs, hj, hcase⟩
  · exact .refl fs'
  obtain ⟨p, hat, -⟩ := fsPathToParent_eq_ok hm habs.1
  obtain ⟨h₁, hd₁, hv₁⟩ := fsInodeAlloc_spec hm hj
  have hkeep₁ := Keeps.of_device (i := i) (x := x) hm h₁ hd₁
  rcases hcase with ⟨-, -, -, rfl⟩ | ⟨hj0, -, -, inserted, dir, fs₂, -, h₂, h₃⟩
  · exact hkeep₁
  obtain ⟨-, hjn, -⟩ := hv₁.resolve_left fun hc => hj0 hc.1
  have hij : i ≠ j := by
    rintro rfl
    exact hjn hx.used
  have hm₂ := (fsSaveDir_spec h₁ h₂).1
  exact (hkeep₁.trans (fsSaveDir_keeps h₁ (hx.ne_of_parent hw hat (hl parent habs.1)) h₂)).trans
    (fsSaveInode_keeps hm₂ hij h₃)

theorem fsRemoveFile_keeps (hm : Mounted geo fs) (hw : (volume geo fs).Wellformed)
    (hx : Bystander (volume geo fs) i x) (hl : ParentIsDir fs path)
    (he : fsRemoveFile fs path = .ok (r, fs')) : Keeps geo i x fs fs' := by
  rcases fsRemoveFile_eq_ok he with ⟨-, rfl⟩ |
    ⟨parent, idx, dir, y, fs₁, fs₂, hp, -, -, h₁, h₂, h₃, -⟩
  · exact .refl fs'
  obtain ⟨p, hat, -⟩ := fsPathToParent_eq_ok hm hp
  obtain ⟨hm₁, hd₁, -⟩ := fsDataRelease_spec hm h₁
  obtain ⟨hm₂, hd₂, -⟩ := fsInodeRelease_spec hm₁ h₂
  exact ((Keeps.of_device hm hm₁ hd₁).trans (.of_device hm₁ hm₂ hd₂)).trans
    (fsSaveDir_keeps hm₂ (hx.ne_of_parent hw hat (hl parent hp)) h₃)

end Bystanders

/-- The state in which `fs_rename_file` looks its target up, if it gets that far. -/
def unlinkedSource (fs : Filesystem) (src : CString) : Exec (Option Filesystem) := do
  match ← fsPathToParent fs src with
  | .error _ => return none
  | .ok source =>
    let (idx, dir) ← dirRemove source.dir source.filePath
    if idx = 0 then return none
    else
      let fs ← fsSaveDir fs dir (getElem source.inode.directBlks 0 directBlksNum_pos)
      return some fs

/-- The target's parent, once the source entry is gone, is a regular file that is not empty
and whose bytes read as a directory with room. -/
def EntersFile (fs : Filesystem) (src dst : CString) : Prop :=
  Finds (unlinkedSource fs src) fun fs => ∃ target, fsPathToParent fs dst = .ok (.ok target) ∧
    sIsreg target.inode.mode ∧ target.inode.size ≠ 0 ∧
    target.dir.size.toNat < chisaiFilePerDir

def Op.EntersFile (fs : Filesystem) : Op → Prop
  | .rename src dst => ChisaiFs.EntersFile fs src dst
  | _ => False

def Op.OnNames : Op → Prop
  | .mkdir .. | .create .. | .rename .. | .remove .. => True
  | _ => False

/-- `fs_read_file` with the inode that the device holds for `i`. -/
def readStored (fs : Filesystem) (i : ChisaiSize) (size off : ℕ) : Exec (ℤ × List UInt8) := do
  let inode ← inodeLoad fs.d (fsInodeToOffset fs i)
  fsReadFile fs ⟨inode, i⟩ size off

/-- The slot of every allocated regular file and all reads of it are the same afterwards. -/
def Undisturbed (geo : Geometry) (fs fs' : Filesystem) : Prop :=
  ∀ i x, fsFindInode fs i = .ok (some x) → sIsreg x.mode →
    slotBytes fs' i = slotBytes fs i ∧ ∀ size off, off + size ≤ directBlksNum * geo.blkSize →
      readStored fs' i size off = readStored fs i size off

section Renames

variable {geo : Geometry} {fs fs₁ fs' : Filesystem} {i : ChisaiSize} {x : Inode}
  {src dst : CString} {r : ChisaiError}

theorem readStored_eq (hm : Mounted geo fs) (hx : Bystander (volume geo fs) i x)
    {size off : ℕ} : readStored fs i size off = fsReadFile fs ⟨x, i⟩ size off := by
  rw [readStored, inodeLoad_of_inRange hm (hm.inodeUsed_inRange hx.used), ok_bind, hx.inode]

theorem inode_of_slot (hm : Mounted geo fs) (hm' : Mounted geo fs')
    (hslot : slotBytes fs' i = slotBytes fs i) :
    (volume geo fs').inode i = (volume geo fs).inode i := by
  have hinode : ∀ s, (volume geo s).inode i =
      inodeCodec.dec (slice s.d.bytes (geo.slotOff (i - 1).toNat) 88) := fun _ => rfl
  have hcut : ∀ s : Filesystem, slice s.d.bytes (geo.slotOff (i - 1).toNat) 88 =
      (slice s.d.bytes (geo.slotOff (i - 1).toNat) 128).take 88 := fun s => by
    rw [slice_add _ _ 88 40, List.take_left' (slice_length _ _ _)]
  rw [hinode, hcut, ← slotBytes_eq hm', hslot, slotBytes_eq hm, ← hcut, hinode]

theorem readStored_of_slot (hm : Mounted geo fs) (hm' : Mounted geo fs')
    (hx : Bystander (volume geo fs) i x) (hslot : slotBytes fs' i = slotBytes fs i)
    {size off : ℕ} : readStored fs' i size off = fsReadFile fs' ⟨x, i⟩ size off := by
  rw [readStored, inodeLoad_of_inRange hm' (hm.inodeUsed_inRange hx.used), ok_bind,
    inode_of_slot hm hm' hslot, hx.inode]

theorem Keeps.undisturbed (hm : Mounted geo fs) (hm' : Mounted geo fs')
    (hkeep : ∀ i x, Bystander (volume geo fs) i x → Keeps geo i x fs fs') :
    Undisturbed geo fs fs' := by
  intro i x hfind hreg
  obtain ⟨hi, hxi⟩ := (fsFindInode_iff hm).mp hfind
  have hx : Bystander (volume geo fs) i x := ⟨hi, hxi, hreg⟩
  have hk := hkeep i x hx
  refine ⟨hk.slot, fun size off hrange => ?_⟩
  rw [readStored_of_slot hm hm' hx hk.slot, readStored_eq hm hx]
  exact hk.read hm hm' hrange

theorem unlinkedSource_eq_ok (hu : unlinkedSource fs src = .ok (some fs₁)) :
    ∃ source idx dir, fsPathToParent fs src = .ok (.ok source) ∧ idx ≠ 0 ∧
      dirRemove source.dir source.filePath = .ok (idx, dir) ∧
      fsSaveDir fs dir source.inode.directBlks[0] = .ok fs₁ := by
  obtain ⟨found, hp, hu⟩ := bind_eq_ok.mp hu
  cases found with
  | error e => cases hu
  | ok source =>
    obtain ⟨⟨idx, dir⟩, hrem, hu⟩ := bind_eq_ok.mp hu
    dsimp only at hu
    split_ifs at hu with h0
    · cases hu
    · obtain ⟨fs₂, hsave, hu⟩ := bind_eq_ok.mp hu
      cases hu
      exact ⟨source, idx, dir, hp, h0, hrem, hsave⟩

theorem dirFileInodeIdx_of_dirRemove {dir dir' : Dir} {name : CString} {idx : ChisaiSize}
    (h : dirRemove dir name = .ok (idx, dir')) : dirFileInodeIdx dir name = .ok idx := by
  rcases dirRemove_eq_ok h with ⟨hf, rfl, -⟩ | ⟨j, -, hf, rfl, -⟩ <;>
  · rw [dirFileInodeIdx, hf]
    rfl

theorem fsRenameFile_of_unlinked (hu : unlinkedSource fs src = .ok (some fs₁))
    {target : Parent} (ht : fsPathToParent fs₁ dst = .ok (.ok target)) :
    ∃ idx, fsRenameFile fs src dst =
      dirInsert target.dir target.filePath idx >>= fun r =>
        if r.1 then fsSaveDir fs₁ r.2 target.inode.directBlks[0] >>= fun fs => pure (.ok, fs)
        else pure (.corrupt, fs₁) := by
  obtain ⟨source, idx, dir, hp, h0, hrem, hsave⟩ := unlinkedSource_eq_ok hu
  refine ⟨idx, ?_⟩
  unfold fsRenameFile
  simp only [hp, dirFileInodeIdx_of_dirRemove hrem, hrem, hsave, ht, h0, ok_bind, ↓reduceIte]

theorem unlinked_keeps (hm : Mounted geo fs) (hw : (volume geo fs).Wellformed)
    (hx : Bystander (volume geo fs) i x) (hl : ParentIsDir fs src)
    (hu : unlinkedSource fs src = .ok (some fs₁)) :
    Mounted geo fs₁ ∧ Keeps geo i x fs fs₁ ∧ (volume geo fs₁).inode = (volume geo fs).inode ∧
      (volume geo fs₁).inodeUsed = (volume geo fs).inodeUsed := by
  obtain ⟨source, idx, dir, hp, -, -, hsave⟩ := unlinkedSource_eq_ok hu
  obtain ⟨p, hat, -⟩ := fsPathToParent_eq_ok hm hp
  obtain ⟨hm₁, -, -, hv₁⟩ := fsSaveDir_spec hm hsave
  refine ⟨hm₁, fsSaveDir_keeps hm (hx.ne_of_parent hw hat (hl source hp)) hsave, ?_, ?_⟩
  · rw [hv₁]
    rfl
  · rw [hv₁]
    rfl

theorem fsRenameFile_undisturbed (hm : Mounted geo fs) (hw : (volume geo fs).Wellformed)
    (hl : ParentIsDir fs src) (hno : ¬ EntersFile fs src dst)
    (he : fsRenameFile fs src dst = .ok (r, fs')) (hm' : Mounted geo fs') :
    Undisturbed geo fs fs' := by
  intro i x hfind hreg
  obtain ⟨hi, hxi⟩ := (fsFindInode_iff hm).mp hfind
  have hx : Bystander (volume geo fs) i x := ⟨hi, hxi, hreg⟩
  rcases fsRenameFile_eq_ok he with
    ⟨-, rfl, -⟩ | ⟨source, idx, dir, fs₁, hp, h0, hrem, hsave, hcase⟩
  · exact ⟨rfl, fun size off _ => rfl⟩
  have hu : unlinkedSource fs src = .ok (some fs₁) := by
    simp only [unlinkedSource, hp, hrem, h0, hsave, ok_bind, ↓reduceIte]
    rfl
  obtain ⟨hm₁, hkeep, hinode, hused⟩ := unlinked_keeps hm hw hx hl hu
  rcases hcase with ⟨-, rfl⟩ | ⟨target, dir', ht, hins, hsave', -⟩
  · refine ⟨hkeep.slot, fun size off hrange => ?_⟩
    rw [readStored_of_slot hm hm' hx hkeep.slot, readStored_eq hm hx]
    exact hkeep.read hm hm' hrange
  obtain ⟨p, hat, -⟩ := fsPathToParent_eq_ok hm₁ ht
  have hslot := (fsSaveDir_slot hm₁ hsave' i).trans hkeep.slot
  refine ⟨hslot, fun size off hrange => ?_⟩
  rw [readStored_of_slot hm hm' hx hslot, readStored_eq hm hx]
  by_cases hpi : p = i
  · -- the target is the file itself, so it must be empty
    subst hpi
    have htx : target.inode = x := by rw [hat.inode, hinode, hxi]
    have hsize : x.size = 0 := by
      rcases dirInsert_eq_ok hins with ⟨hc, -⟩ | ⟨node, hlt, -⟩
      · cases hc
      · by_contra hne
        exact hno ⟨fs₁, hu, target, ht, htx ▸ hreg, htx ▸ hne, hlt⟩
    rw [fsReadFile_empty hsize, fsReadFile_empty hsize]
  · have hblk : ∀ n, x.blk n ≠ 0 → x.blk n ≠ target.inode.directBlks[0] := by
      intro n hn
      rw [hat.dir_eq.2, hinode]
      exact hx.ne_of_owns hw hpi (hused ▸ hat.used) n hn
    exact (hkeep.trans (fsSaveDir_keeps hm₁ hblk hsave')).read hm hm' hrange

theorem dir_size_byte (w : Volume) (k : ChisaiSize) :
    (w.dir k).size.toNat % 256 = (w.block k 480).toNat := by
  have hs : ((slice (w.block k) 0 dirCodec.width).drop 480).take 4 =
      w.block k 480 :: slice (w.block k) 481 3 := by
    rw [dirCodec_width, drop_slice _ _ (by omega)]
    rfl
  rw [Volume.dir, dirCodec_dec_size, hs, u32_dec_mod]

theorem fsReadFile_byte (hm : Mounted geo fs) (hk : geo.InRange (x.blk 0)) (h0 : x.size ≠ 0) :
    fsReadFile fs ⟨x, i⟩ 1 480 = .ok (toInt 1, [(volume geo fs).block (x.blk 0) 480]) := by
  have hpos : 0 < x.size.toUInt64.toNat := by
    rw [Nat.pos_iff_ne_zero]
    intro hc
    have hz : x.size.toUInt64 = 0 := UInt64.toNat_inj.mp hc
    apply h0
    rw [← x.size.toInt64_toUInt64, hz]
    rfl
  have hmin : min 1 x.size.toUInt64.toNat = 1 := by omega
  have hb := geo.min_size
  have hst : Stored geo fs x 481 := by
    intro pos hpos
    rw [Nat.div_eq_of_lt (by omega), blkLimit_eq hm]
    refine ⟨Nat.lt_add_right _ (by decide), _, hk, ?_⟩
    rw [findAt_of_lt (by decide), lookupOf, if_neg hk.1]
  have hdiv : 480 / geo.blkSize = 0 := Nat.div_eq_of_lt (by omega)
  have hmod : 480 % geo.blkSize = 480 := Nat.mod_eq_of_lt (by omega)
  have hbyte : storedByte fs x 480 = (volume geo fs).block (x.blk 0) 480 := by
    rw [storedByte_eq hm (by rw [hdiv]; decide), Volume.fileByte, hdiv, hmod]
  unfold fsReadFile
  rw [hmin]
  refine (fsReadLoop_stored hm hst (Nat.zero_le 1) (le_refl 1) (le_refl 481)).trans ?_
  simp [slice, hbyte]

theorem fsRenameFile_disturbs (hm : Mounted geo fs) (hw : (volume geo fs).Wellformed)
    (hl : ParentIsDir fs src) (henters : EntersFile fs src dst)
    (he : fsRenameFile fs src dst = .ok (r, fs')) (hm' : Mounted geo fs') :
    ¬ Undisturbed geo fs fs' := by
  obtain ⟨fs₁, hu, target, ht, hreg, hsize, hroom⟩ := henters
  obtain ⟨idx, hren⟩ := fsRenameFile_of_unlinked hu ht
  rw [hren] at he
  obtain ⟨⟨inserted, dir'⟩, hins, he⟩ := bind_eq_ok.mp he
  rcases dirInsert_eq_ok hins with ⟨-, -, hge⟩ | ⟨node, hlt, rfl, -, rfl⟩
  · omega
  rw [if_pos rfl] at he
  obtain ⟨fs₂, hsave, he⟩ := bind_eq_ok.mp he
  cases he
  obtain ⟨source, _, _, hp, -, -, hs₁⟩ := unlinkedSource_eq_ok hu
  obtain ⟨hm₁, -, -, hv₁⟩ := fsSaveDir_spec hm hs₁
  obtain ⟨p, hat, -⟩ := fsPathToParent_eq_ok hm₁ ht
  have hused : p ∈ (volume geo fs).inodeUsed := by
    have h := hat.used
    rwa [hv₁] at h
  have hinode : (volume geo fs).inode p = target.inode := by
    rw [hat.inode, hv₁]
    rfl
  have hx : Bystander (volume geo fs) p target.inode := ⟨hused, hinode, hreg⟩
  have hkeep := (unlinked_keeps hm hw hx hl hu).2.1
  have hk : target.inode.blk 0 = target.inode.directBlks[0] := rfl
  have hr : geo.InRange (target.inode.blk 0) := hm₁.dataUsed_inRange hat.marked
  have hbyte : (volume geo fs).block (target.inode.blk 0) 480 =
      (volume geo fs₁).block (target.inode.blk 0) 480 := by
    rw [hkeep.block 0 hr.1]
  have hbefore := dir_size_byte (volume geo fs₁) (target.inode.blk 0)
  have hafter := dir_size_byte (volume geo fs') (target.inode.blk 0)
  obtain ⟨-, -, -, hv'⟩ := fsSaveDir_spec hm₁ hsave
  rw [hk, hv', Volume.setDir_dir_same, ← hv', ← hk] at hafter
  intro hsame
  obtain ⟨hslot, hread⟩ := hsame p target.inode ((fsFindInode_iff hm).mpr ⟨hused, hinode⟩) hreg
  have hrange : 480 + 1 ≤ directBlksNum * geo.blkSize := by
    have hb := geo.min_size
    change 480 + 1 ≤ 12 * geo.blkSize
    omega
  have hread := hread 1 480 hrange
  rw [readStored_of_slot hm hm' hx hslot, readStored_eq hm hx, fsReadFile_byte hm hr hsize,
    fsReadFile_byte hm' hr hsize] at hread
  have hsame : (volume geo fs').block (target.inode.blk 0) 480 =
      (volume geo fs₁).block (target.inode.blk 0) 480 :=
    (List.cons.inj (Prod.mk.inj (Except.ok.inj hread)).2).1.trans hbyte
  have hdir : target.dir = (volume geo fs₁).dir (target.inode.blk 0) := hat.dir
  have hgrow : (target.dir.with node hlt).size.toNat = target.dir.size.toNat + 1 :=
    size_with_toNat hlt
  dsimp only at hafter
  rw [hsame, ← hbefore, ← hdir] at hafter
  change target.dir.size.toNat < 15 at hlt
  omega

end Renames

section Names

variable {geo : Geometry} {fs fs' : Filesystem} {op : Op}

/-- In a reachable state a namespace operation leaves every regular file as it was, unless
it is a rename that enters a file. -/
theorem names_leave_files (h : Reachable geo fs) (hn : op.OnNames) (hl : op.Lawful fs)
    (hs : op.step fs = .ok fs') : Undisturbed geo fs fs' ↔ ¬ op.EntersFile fs := by
  obtain ⟨hm, hw⟩ := h.wellformed
  have hm' := (Op.step_wellformed hm hw hl hs).1
  cases op with
  | mkdir path mode =>
    obtain ⟨⟨r, _⟩, he, rfl⟩ := map_eq_ok.mp hs
    exact iff_of_true (Keeps.undisturbed hm hm' fun i x hx => fsMkdir_keeps hm hw hx hl he) id
  | create path mode =>
    obtain ⟨⟨r, file, _⟩, he, rfl⟩ := map_eq_ok.mp hs
    exact iff_of_true
      (Keeps.undisturbed hm hm' fun i x hx => fsCreateFile_keeps hm hw hx hl.1 he) id
  | write file buf off => cases hn
  | truncate file size => cases hn
  | rename src dst =>
    obtain ⟨⟨r, _⟩, he, rfl⟩ := map_eq_ok.mp hs
    constructor
    · intro hsame henters
      exact fsRenameFile_disturbs hm hw hl.1 henters he hm' hsame
    · intro hno
      exact fsRenameFile_undisturbed hm hw hl.1 hno he hm'
  | remove path =>
    obtain ⟨⟨r, _⟩, he, rfl⟩ := map_eq_ok.mp hs
    exact iff_of_true (Keeps.undisturbed hm hm' fun i x hx => fsRemoveFile_keeps hm hw hx hl he) id

/-- Making `/e` next to the file of `oneFile`. -/
theorem names_leave_files_oneFile :
    ∃ fs fs', Reachable smallDisk fs ∧ MapsBlock fs 4 0 3 ∧
      (Op.mkdir [47, 101] 0o755).step fs = .ok fs' ∧ Undisturbed smallDisk fs fs' := by
  have hrun : ∃ fs, Reachable smallDisk fs ∧ MapsBlock fs 4 0 3 ∧
      (Op.mkdir [47, 101] 0o755).Lawful fs ∧
      Yields ((Op.mkdir [47, 101] 0o755).step fs) fun _ => True := by
    apply exists_reachable oneFile
    decide +kernel
  obtain ⟨fs, h, hmap, hl, fs', hs, -⟩ := hrun
  have hn : (Op.mkdir [47, 101] 0o755).OnNames := trivial
  exact ⟨fs, fs', h, hmap, hs, (names_leave_files h hn hl hs).mpr id⟩

/-- Two directories `/a`, inodes 4 and 6: the first lookup finds a directory as `/a/s`, and
inode 7, a file of one byte, once the removal of `/c` has changed their order. -/
def twoParents : List Op :=
  [.create [47, 99] 0o100644, .mkdir [47, 97] 0o755, .mkdir [47, 97, 47, 115] 0o755,
    .mkdir [47, 101] 0o755, .create [47, 101, 47, 115] 0o100644,
    .write (newFile 0o100644 7) [7] 0, .rename [47, 101] [47, 97]]

/-- Renaming `/c` to `/a/s/x` then overwrites the contents of inode 7. -/
theorem rename_overwrites_file :
    ∃ fs fs', Reachable smallDisk fs ∧ (Op.rename [47, 99] [47, 97, 47, 115, 47, 120]).Lawful fs ∧
      (Op.rename [47, 99] [47, 97, 47, 115, 47, 120]).step fs = .ok fs' ∧
      Finds (fsFindInode fs 7) (fun x => sIsreg x.mode) ∧
      readStored fs' 7 1 0 ≠ readStored fs 7 1 0 ∧ ¬ Undisturbed smallDisk fs fs' := by
  have hrun : ∃ fs, Reachable smallDisk fs ∧
      (Op.rename [47, 99] [47, 97, 47, 115, 47, 120]).Lawful fs ∧
      (Finds (fsFindInode fs 7) fun x => sIsreg x.mode) ∧
      Yields ((Op.rename [47, 99] [47, 97, 47, 115, 47, 120]).step fs) fun fs' =>
        readStored fs' 7 1 0 ≠ readStored fs 7 1 0 := by
    apply exists_reachable twoParents
    decide +kernel
  obtain ⟨fs, h, hl, ⟨x, hx, hreg⟩, fs', hs, hread⟩ := hrun
  refine ⟨fs, fs', h, hl, hs, ⟨x, hx, hreg⟩, hread, fun hsame => ?_⟩
  exact hread ((hsame 7 x hx hreg).2 1 0 (by decide))

end Names

end ChisaiFs
