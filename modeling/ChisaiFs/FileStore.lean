import ChisaiFs.Progress

/-! What the file system is for, with the bytes: a map from paths to files and from files to what
they hold. Tidy operations whose writes append and whose truncations end at a block do on the
device what they should do to both maps. -/

namespace ChisaiFs
open Cells Outcome Simulation

def storeAt (data : List UInt8) (off : ℕ) (bs : List UInt8) : List UInt8 :=
  data.take off ++ bs ++ data.drop (off + bs.length)

/-- Which inode each list of names leads to, and what the regular files hold. -/
structure Files where
  names : Names
  data : ChisaiSize → Option (List UInt8)

/-- What the files hold after an operation that has returned `o` and left `names`. -/
def Files.after (m : Files) (names : Names) (o : ℤ) : Op → ChisaiSize → Option (List UInt8)
  | .mkdir .. => m.data
  | .create path _ => fun i =>
    if o = ChisaiError.ok.code ∧ names (strtokSlash path) = some i then some [] else m.data i
  | .write file buf off =>
    Function.update m.data file.idx
      ((m.data file.idx).map fun bs => storeAt bs off (buf.take o.toNat))
  | .truncate file size =>
    Function.update m.data file.idx ((m.data file.idx).map (List.take size))
  | .rename .. => m.data
  | .remove path => fun i => if m.names (strtokSlash path) = some i then none else m.data i

/-- A code, or how many bytes of the buffer were stored. -/
def Op.Answers (r : ChisaiError) (o : ℤ) : Op → Prop
  | .write _ buf _ => 0 ≤ o ∧ o ≤ buf.length
  | _ => o = r.code

structure Files.Step (m : Files) (op : Op) (o : ℤ) (m' : Files) : Prop where
  names : ∃ r, m.names.Step op r m'.names ∧ op.Answers r o
  data : m'.data = m.after m'.names o op

def Files.empty : Files := ⟨Names.empty, fun _ => none⟩

def Op.reply (fs : Filesystem) : Op → Exec (ℤ × Filesystem)
  | .write file buf off => (fun r => (r.1, r.2.2)) <$> fsWriteFile fs file buf off
  | op => (fun r => (r.1.code, r.2)) <$> op.call fs

/-- Writes append, and truncations end where a block does. -/
def Op.Sequential (fs : Filesystem) : Op → Prop
  | .write file _ off => off = file.length
  | .truncate _ size => fs.sb.blockSize.toNat ∣ size
  | _ => True

instance Op.decidableSequential (fs : Filesystem) : (op : Op) → Decidable (op.Sequential fs)
  | .write file _ off => inferInstanceAs (Decidable (off = file.length))
  | .truncate _ size => inferInstanceAs (Decidable (fs.sb.blockSize.toNat ∣ size))
  | .mkdir .. | .create .. | .rename .. | .remove .. => isTrue trivial

def SequentialStep (fs : Filesystem) (op : Op) (o : ℤ) (fs' : Filesystem) : Prop :=
  (op.Tidy fs ∧ op.Sequential fs) ∧ op.reply fs = .ok (o, fs')

structure Files.Describes (geo : Geometry) (m : Files) (fs : Filesystem) : Prop where
  names : m.names = ChisaiFs.names geo fs
  file : ∀ i bs, m.data i = some bs → FileOk geo (volume geo fs) ⟨(volume geo fs).inode i, i⟩ bs
  all : ∀ i ∈ (volume geo fs).inodeUsed, sIsreg ((volume geo fs).inode i).mode → m.data i ≠ none

section Contents

variable {geo : Geometry} {fs fs' : Filesystem} {file file' : FileInfo} {bs : List UInt8}

theorem storeAt_end (data bs : List UInt8) : storeAt data data.length bs = data ++ bs := by
  rw [storeAt, List.take_length, List.drop_eq_nil_of_le (Nat.le_add_right _ _), List.append_nil]

theorem FileOk.truncate (h : FileOk geo (volume geo fs) file bs) (hm : Mounted geo fs) {size : ℕ}
    (hsize : geo.blkSize ∣ size) {r : ChisaiError}
    (he : fsTruncateFile fs file size = .ok (r, file', fs')) :
    FileOk geo (volume geo fs') file' (bs.take size) ∧
      ∀ other data, other.idx ≠ file.idx → FileOk geo (volume geo fs) other data →
        FileOk geo (volume geo fs') other data := by
  obtain ⟨hle, -, fs₁, x, hrel, rfl, -, hv⟩ := fsTruncateFile_released hm he
  have hlt := geo.direct_lt
  have hbound := h.bound
  have hlen : (bs.take size).length = size := by
    rw [h.size, Int64.toInt_ofNat_of_lt (by omega)] at hle
    rw [List.length_take]
    omega
  have hblock : (volume geo fs₁).block = (volume geo fs).block := by rw [hrel.vol]
  refine ⟨⟨⟨?_, ?_, ?_⟩, ?_, ?_, ?_⟩, fun other data hne ho => ?_⟩
  · rw [hv, Volume.setInode_inodeUsed, hrel.vol]
    exact h.used
  · rw [hv, Volume.setInode_inode_same]
  · exact hrel.mode.symm ▸ h.regular
  · rw [hlen]
    rfl
  · rw [List.length_take]
    omega
  · intro pos hpos
    rw [List.length_take] at hpos
    obtain ⟨h0, hb⟩ := h.holds pos (by omega)
    -- The blocks from `size / blkSize` on are released, and the byte is in one before them.
    have hkept : x.blk (pos / geo.blkSize) = file.inode.blk (pos / geo.blkSize) := by
      have hbelow : pos / geo.blkSize < trctFrom geo size :=
        Nat.div_lt_div_of_lt_of_dvd hsize (by omega)
      rw [hrel.blk, if_neg (by omega)]
    refine ⟨hkept.trans_ne h0, ?_⟩
    rw [List.getElem_take, ← hb, hv]
    unfold Volume.fileByte
    change (volume geo fs₁).block (x.blk (pos / geo.blkSize)) (pos % geo.blkSize) = _
    rw [hkept, hblock]
  · refine ho.frame ⟨?_, ?_, ho.regular⟩ fun n _ => ?_
    · rw [hv, Volume.setInode_inodeUsed, hrel.vol]
      exact ho.used
    · rw [hv, Volume.setInode_inode_of_ne _ hne, hrel.vol]
      exact ho.inode
    · rw [hv]
      exact congrFun hblock _

theorem FileOk.read_range (h : FileOk geo (volume geo fs) file bs) (hm : Mounted geo fs)
    (hw : (volume geo fs).Wellformed) {size off : ℕ} (hin : off = 0 ∨ off + size ≤ bs.length) :
    fsReadFile fs file size off =
      .ok ((min size (bs.length - off) : ℕ), (bs.drop off).take size) := by
  have hst := h.holds.stored hm fun n hn => h.inRange hm hw hn
  rw [← h.length_eq] at hst
  have hlen := h.length_eq
  have hread : ReadsRange fs file size off :=
    readsRange_of_inside hm hst (by omega) (by omega)
  have hbytes : slice (storedByte fs file.inode) off (min size (bs.length - off)) =
      (bs.drop off).take size := by
    refine (slice_eq_iff (by rw [List.length_take, List.length_drop])).mpr fun k hk => ?_
    rw [List.length_take, List.length_drop] at hk
    obtain ⟨h0, hb⟩ := h.holds (off + k) (by omega)
    rw [storedByte_eq hm (Inode.lt_of_blk_ne h0), List.getElem_take, List.getElem_drop]
    exact hb
  rw [ReadsRange, hlen, hbytes] at hread
  exact hread

end Contents

section Steps

variable {geo : Geometry} {fs fs' : Filesystem} {m : Files} {op : Op} {r : ChisaiError} {o : ℤ}
  {path src dst : CString} {mode : UInt32} {i : ChisaiSize}

theorem Files.Describes.fileOk (h : m.Describes geo fs) (hm : Mounted geo fs) {file : FileInfo}
    (hf : FreshFile fs file) :
    ∃ bs, m.data file.idx = some bs ∧ FileOk geo (volume geo fs) file bs := by
  obtain ⟨hu, hx, hreg⟩ := (FreshFile.iff hm).mp hf
  obtain ⟨bs, hbs⟩ := Option.ne_none_iff_exists'.mp (h.all file.idx hu (hx ▸ hreg))
  have hfile := h.file file.idx bs hbs
  rw [hx] at hfile
  exact ⟨bs, hbs, hfile⟩

theorem FileOk.kept {file : FileInfo} {bs : List UInt8} (h : FileOk geo (volume geo fs) file bs)
    (hm : Mounted geo fs) (hm' : Mounted geo fs') (hu : file.idx ∈ (volume geo fs').inodeUsed)
    (hkeep : Keeps geo file.idx file.inode fs fs') :
    FileOk geo (volume geo fs') ⟨(volume geo fs').inode file.idx, file.idx⟩ bs := by
  rw [inode_of_slot hm hm' hkeep.slot, h.inode]
  refine h.frame ⟨hu, ?_, h.regular⟩ hkeep.block
  rw [inode_of_slot hm hm' hkeep.slot, h.inode]

theorem Files.Describes.kept (h : m.Describes geo fs) (hm : Mounted geo fs) (hm' : Mounted geo fs')
    (hu : (volume geo fs).inodeUsed ⊆ (volume geo fs').inodeUsed)
    (hkeep : ∀ i x, Bystander (volume geo fs) i x → Keeps geo i x fs fs')
    (hsame : ∀ i ∈ (volume geo fs').inodeUsed, sIsreg ((volume geo fs').inode i).mode →
      i ∈ (volume geo fs).inodeUsed ∧ (volume geo fs').inode i = (volume geo fs).inode i) :
    Files.Describes geo ⟨ChisaiFs.names geo fs', m.data⟩ fs' := by
  refine ⟨rfl, fun i bs hbs => ?_, fun i hi hreg => ?_⟩
  · have hfile := h.file i bs hbs
    exact hfile.kept hm hm' (hu hfile.used) (hkeep _ _ hfile.toBystander)
  · obtain ⟨hi, hx⟩ := hsame i hi hreg
    exact h.all i hi (hx ▸ hreg)

theorem Files.Describes.changed (h : m.Describes geo fs) (file : FileInfo) {bs : List UInt8}
    (hu : ∀ i ∈ (volume geo fs').inodeUsed, i ≠ file.idx → i ∈ (volume geo fs).inodeUsed)
    (hi : ∀ i, i ≠ file.idx → (volume geo fs').inode i = (volume geo fs).inode i)
    (hnew : FileOk geo (volume geo fs') file bs)
    (hothers : ∀ other data, other.idx ≠ file.idx → FileOk geo (volume geo fs) other data →
      FileOk geo (volume geo fs') other data) :
    Files.Describes geo ⟨ChisaiFs.names geo fs', Function.update m.data file.idx (some bs)⟩ fs' := by
  refine ⟨rfl, fun i data hdata => ?_, fun i hused hreg => ?_⟩
  · dsimp only at hdata
    by_cases he : i = file.idx
    · subst he
      rw [Function.update_self] at hdata
      cases hdata
      rw [hnew.inode]
      exact hnew
    · rw [Function.update_of_ne he] at hdata
      have hfile := hothers ⟨(volume geo fs).inode i, i⟩ data he (h.file i data hdata)
      rw [hi i he]
      exact hfile
  · dsimp only
    by_cases he : i = file.idx
    · rw [he, Function.update_self]
      exact Option.some_ne_none _
    · rw [Function.update_of_ne he]
      rw [hi i he] at hreg
      exact h.all i (hu i hused he) hreg

theorem Files.Describes.mkdir (h : m.Describes geo fs) (ho : Orderly geo fs)
    (hl : ParentIsDir fs path) (he : fsMkdir fs path mode = .ok (r, fs')) :
    Files.Describes geo ⟨ChisaiFs.names geo fs', m.data⟩ fs' := by
  have hs : (Op.mkdir path mode).step fs = .ok fs' := Op.step_of_call he
  refine h.kept ho.mounted (fsMkdir_volume ho.mounted he).1
    ((fsMkdir_grows he).inodeUsed_subset ho.mounted)
    (fun i x hx => fsMkdir_keeps ho.mounted ho.wellformed hx hl he) fun i hi hreg => ?_
  cases Op.step_leaves ho.mounted hs hi hreg with
  | same hu hx => exact ⟨hu, hx⟩

theorem Op.Tidy.rename_keeps (ht : (Op.rename src dst).Tidy fs) (ho : Orderly geo fs)
    (hd : DistinctNames fs) (he : fsRenameFile fs src dst = .ok (r, fs')) {x : Inode}
    (hx : Bystander (volume geo fs) i x) : Keeps geo i x fs fs' := by
  obtain ⟨hl, -, -⟩ := ht.lawful ho hd
  rcases fsRenameFile_eq_ok he with
    ⟨-, rfl, -⟩ | ⟨source, j, dir, fs₁, hp, h0, hrem, hsave, hcase⟩
  · exact .refl _
  have hu : unlinkedSource fs src = .ok (some fs₁) := by
    simp only [unlinkedSource, hp, hrem, h0, hsave, ok_bind, ↓reduceIte]
    rfl
  obtain ⟨hm₁, hkeep, hinode, hused⟩ := unlinked_keeps ho.mounted ho.wellformed hx hl.1 hu
  rcases hcase with ⟨-, rfl⟩ | ⟨target, dir', hp', -, hsave', -⟩
  · exact hkeep
  obtain ⟨h₁, p, dirq, c, hfound, hdirq, -⟩ := ht.target ho hd hu
  cases hp'.symm.trans hfound
  obtain ⟨p', hat, -⟩ := fsPathToParent_eq_ok hm₁ hfound
  have hx₁ : Bystander (volume geo fs₁) i x := ⟨hused ▸ hx.used, hinode ▸ hx.inode, hx.regular⟩
  exact hkeep.trans (fsSaveDir_keeps hm₁
    (hx₁.ne_of_parent h₁.wellformed hat (Volume.dirs_eq_some.mp hdirq).1.2) hsave')

theorem Files.Describes.rename (h : m.Describes geo fs) (ho : Orderly geo fs)
    (hd : DistinctNames fs) (ht : (Op.rename src dst).Tidy fs)
    (he : fsRenameFile fs src dst = .ok (r, fs')) :
    Files.Describes geo ⟨ChisaiFs.names geo fs', m.data⟩ fs' := by
  have hs : (Op.rename src dst).step fs = .ok fs' := Op.step_of_call he
  refine h.kept ho.mounted (fsRenameFile_volume ho.mounted he).1
    ((fsRenameFile_fills he).inodes ho.mounted).2.ge (fun i x hx => ht.rename_keeps ho hd he hx)
    fun i hi hreg => ?_
  cases Op.step_leaves ho.mounted hs hi hreg with
  | same hu hx => exact ⟨hu, hx⟩

theorem Files.Describes.create (h : m.Describes geo fs) (ho : Orderly geo fs)
    (ht : (Op.create path mode).Tidy fs) {file' : FileInfo}
    (he : fsCreateFile fs path mode ⟨inodeInit, noInode⟩ = .ok (r, file', fs')) :
    Files.Describes geo ⟨ChisaiFs.names geo fs',
      m.after (ChisaiFs.names geo fs') r.code (.create path mode)⟩ fs' := by
  obtain ⟨q, c, p, dir, hlook⟩ := ht.1.looked ho
  have hl := hlook.parentIsDir ho
  have hkeep : ∀ i x, Bystander (volume geo fs) i x → Keeps geo i x fs fs' :=
    fun i x hx => fsCreateFile_keeps ho.mounted ho.wellformed hx hl he
  have hm' := (fsCreateFile_volume ho.mounted he).1
  have hsub := (fsCreateFile_grows he).inodeUsed_subset ho.mounted
  by_cases hr : r = .ok
  · obtain rfl := hr
    obtain ⟨-, hfresh, hn⟩ := fsCreateFile_puts ho ht.1 ht.2.1 ht.2.2 he
    obtain ⟨-, -, hu, hinode⟩ := fsCreateFile_inodes ho.mounted he
    have hname : ChisaiFs.names geo fs' (strtokSlash path) = some file'.idx := by
      rw [hn, Walks.put_self]
    have hnew : file' = newFile mode file'.idx := by
      rcases (fsCreateFile_volume ho.mounted he).2 with ⟨hr, -⟩ | ⟨-, -, -, -, -, -, -, -, -, -, rfl, -⟩
      · exact absurd rfl hr
      · rfl
    have hdata : m.after (ChisaiFs.names geo fs') ChisaiError.ok.code (.create path mode) =
        Function.update m.data file'.idx (some []) := by
      funext i
      by_cases hi : i = file'.idx
      · rw [hi, Function.update_self]
        exact if_pos ⟨rfl, hname⟩
      · rw [Function.update_of_ne hi]
        exact if_neg fun hc => hi (Option.some.inj (hc.2.symm.trans hname))
    rw [hdata]
    have hx : (volume geo fs').inode file'.idx = (newFile mode file'.idx).inode := by
      rw [hinode, Function.update_self, ← hnew]
    have hfile : FileOk geo (volume geo fs') file' [] := by
      rw [hnew]
      exact newFile_ok (hu ▸ Set.mem_insert _ _) hx ht.2.2
    refine h.changed _ (fun i hi hne => ?_) (fun i hne => ?_) hfile fun other data _ hother =>
      Keeps.fileOk ho.mounted hm' hsub hkeep hother
    · rw [hu] at hi
      exact hi.resolve_left hne
    · rw [hinode, Function.update_of_ne hne]
  · obtain ⟨-, -, hv⟩ := (fsCreateFile_volume ho.mounted he).2.resolve_right fun hc => hr hc.1
    have hcode : r.code ≠ ChisaiError.ok.code := by
      cases r with
      | ok => exact absurd rfl hr
      | _ => decide
    have hdata : m.after (ChisaiFs.names geo fs') r.code (.create path mode) = m.data :=
      funext fun i => if_neg fun hc => hcode hc.1
    rw [hdata]
    exact h.kept ho.mounted hm' hsub hkeep fun i hi _ => by rw [hv] at hi ⊢; exact ⟨hi, rfl⟩

theorem Files.Describes.write (h : m.Describes geo fs) (ho : Orderly geo fs) {file file' : FileInfo}
    {buf : List UInt8} {off : ℕ} {ret : ℤ} (ht : (Op.write file buf off).Tidy fs)
    (hseq : off = file.length) (he : fsWriteFile fs file buf off = .ok (ret, file', fs')) :
    Files.Describes geo ⟨ChisaiFs.names geo fs',
      m.after (ChisaiFs.names geo fs') ret (.write file buf off)⟩ fs' := by
  obtain ⟨bs, hbs, hfile⟩ := h.fileOk ho.mounted ht.1
  have hrange := ht.2
  rw [ho.mounted.blockSize] at hrange
  rw [hfile.length_eq] at hseq
  subst hseq
  obtain ⟨-, -, hidx, hnew, hothers⟩ := hfile.append ho.mounted ho.wellformed hrange he
  obtain ⟨-, -, hu, hi⟩ := fsWriteFile_inodes ho.mounted he
  have hdata : m.after (ChisaiFs.names geo fs') ret (.write file buf bs.length) =
      Function.update m.data file.idx (some (bs ++ buf.take ret.toNat)) := by
    dsimp only [Files.after]
    rw [hbs, Option.map_some, storeAt_end]
  rw [hdata, ← hidx]
  rw [← hidx] at hothers
  refine h.changed _ (fun i hused _ => hu ▸ hused) (fun i hne => ?_) hnew hothers
  rw [hi, Function.update_of_ne hne]

theorem Files.Describes.truncate (h : m.Describes geo fs) (ho : Orderly geo fs)
    {file file' : FileInfo} {size : ℕ} (hf : FreshFile fs file) (hsize : geo.blkSize ∣ size)
    (he : fsTruncateFile fs file size = .ok (r, file', fs')) :
    Files.Describes geo ⟨ChisaiFs.names geo fs',
      m.after (ChisaiFs.names geo fs') r.code (.truncate file size)⟩ fs' := by
  obtain ⟨bs, hbs, hfile⟩ := h.fileOk ho.mounted hf
  obtain ⟨hnew, hothers⟩ := hfile.truncate ho.mounted hsize he
  obtain ⟨-, -, v, x, hsteps, rfl, hv⟩ := fsTruncateFile_eq_ok ho.mounted he
  obtain ⟨hi, hu⟩ := shrink_inodes hsteps
  have hdata : m.after (ChisaiFs.names geo fs') r.code (.truncate file size) =
      Function.update m.data file.idx (some (bs.take size)) := by
    dsimp only [Files.after]
    rw [hbs, Option.map_some]
  rw [hdata]
  refine h.changed ⟨inodeSetSize x (Int64.ofNat size), file.idx⟩ ?_ ?_ hnew hothers
  · intro i hused _
    rw [hv, Volume.setInode_inodeUsed] at hused
    exact hu ▸ hused
  · intro i hne
    rw [hv, Volume.setInode_inode_of_ne _ hne]
    exact congrFun hi i

theorem Files.Describes.remove (h : m.Describes geo fs) (ho : Orderly geo fs)
    (ht : (Op.remove path).Tidy fs) (he : fsRemoveFile fs path = .ok (r, fs')) :
    Files.Describes geo ⟨ChisaiFs.names geo fs',
      m.after (ChisaiFs.names geo fs') r.code (.remove path)⟩ fs' := by
  obtain ⟨q, c, p, dir, hl⟩ := ht.1.looked ho
  have hparent := hl.parentIsDir ho
  obtain ⟨i, hi⟩ := hl.found_of_remove ho he
  have hres := hi
  rw [hl.tokens] at hres
  obtain ⟨hsplit, hc, hne⟩ := hl.split
  obtain ⟨fs'', p', dir₁, dir', he', hdet⟩ := ho.detaches hl.noNul hc hne hl.through hres
  rw [← hsplit] at he'
  cases he.symm.trans he'
  have hs : (Op.remove path).step fs = .ok fs' := Op.step_of_call he
  have hm' := hdet.orderly.mounted
  have hrm : ∀ j, m.names (strtokSlash path) = some j ↔ j = i := by
    intro j
    rw [h.names, hi, Option.some_inj]
    exact eq_comm
  refine ⟨rfl, fun j bs hbs => ?_, fun j hj hreg => ?_⟩
  · unfold Files.after at hbs
    dsimp only at hbs
    split_ifs at hbs with hj
    have hfile := h.file j bs hbs
    refine hfile.kept ho.mounted hm' ?_
      (fsRemoveFile_keeps ho.mounted ho.wellformed hfile.toBystander hparent he)
    rw [hdet.inodes]
    exact ⟨hfile.used, fun hji => hj ((hrm j).mpr hji)⟩
  · cases Op.step_leaves ho.mounted hs hj hreg with
    | same hu hx =>
      rw [hdet.inodes] at hj
      unfold Files.after
      dsimp only
      rw [if_neg fun hji => hj.2 ((hrm j).mp hji)]
      exact h.all j hu (hx ▸ hreg)

theorem Op.exists_call (he : op.reply fs = .ok (o, fs')) :
    ∃ r, op.call fs = .ok (r, fs') ∧ ((∃ file buf off, op = .write file buf off) ∨ o = r.code) := by
  cases op with
  | write file buf off =>
    obtain ⟨⟨ret, file', _⟩, hw, hpair⟩ := map_eq_ok.mp he
    cases hpair
    exact ⟨.ok, map_eq_ok.mpr ⟨_, hw, rfl⟩, Or.inl ⟨file, buf, off, rfl⟩⟩
  | mkdir | create | truncate | rename | remove =>
    obtain ⟨⟨r, _⟩, hc, hpair⟩ := map_eq_ok.mp he
    cases hpair
    exact ⟨r, hc, Or.inr rfl⟩

theorem Op.Tidy.write_le (ho : Orderly geo fs) {file file' : FileInfo} {buf : List UInt8} {off : ℕ}
    {ret : ℤ} (ht : (Op.write file buf off).Tidy fs)
    (he : fsWriteFile fs file buf off = .ok (ret, file', fs')) : 0 ≤ ret ∧ ret ≤ buf.length := by
  have hrange := ht.2
  rw [ho.mounted.blockSize] at hrange
  obtain ⟨-, c, -, hle, -, rfl, -⟩ := fsWriteFile_direct ho.mounted hrange he
  omega

theorem Files.Describes.step (h : m.Describes geo fs) (ho : InOrder geo fs)
    (hs : SequentialStep fs op o fs') : ∃ m', m.Step op o m' ∧ Files.Describes geo m' fs' := by
  obtain ⟨⟨ht, hseq⟩, he⟩ := hs
  obtain ⟨r, hcall, hout⟩ := Op.exists_call he
  have hnames := (Op.call_refines ho.orderly ho.distinct ht hcall).step
  rw [← h.names] at hnames
  have hdesc : Files.Describes geo ⟨ChisaiFs.names geo fs', m.after (ChisaiFs.names geo fs') o op⟩
      fs' := by
    cases op with
    | mkdir path mode => exact h.mkdir ho.orderly (ht.lawful ho.orderly ho.distinct).1 hcall
    | create path mode =>
      obtain ⟨⟨r', file', _⟩, hc, hpair⟩ := map_eq_ok.mp hcall
      cases hpair
      rcases hout with ⟨_, _, _, hop⟩ | rfl
      · cases hop
      · exact h.create ho.orderly ht hc
    | write file buf off =>
      obtain ⟨⟨ret, file', _⟩, hw, hpair⟩ := map_eq_ok.mp he
      cases hpair
      exact h.write ho.orderly ht hseq hw
    | truncate file size =>
      obtain ⟨⟨r', file', _⟩, hc, hpair⟩ := map_eq_ok.mp hcall
      cases hpair
      rcases hout with ⟨_, _, _, hop⟩ | rfl
      · cases hop
      · have hsize : fs.sb.blockSize.toNat ∣ size := hseq
        rw [ho.orderly.mounted.blockSize] at hsize
        exact h.truncate ho.orderly ht hsize hc
    | rename src dst => exact h.rename ho.orderly ho.distinct ht hcall
    | remove path =>
      rcases hout with ⟨_, _, _, hop⟩ | rfl
      · cases hop
      · exact h.remove ho.orderly ht hcall
  refine ⟨_, ⟨⟨r, hnames, ?_⟩, rfl⟩, hdesc⟩
  cases op with
  | write file buf off =>
    obtain ⟨⟨ret, file', _⟩, hw, hpair⟩ := map_eq_ok.mp he
    cases hpair
    exact ht.write_le ho.orderly hw
  | mkdir | create | truncate | rename | remove =>
    rcases hout with ⟨_, _, _, hop⟩ | rfl
    · cases hop
    · rfl

end Steps

section Runs

variable {geo : Geometry} {fs₀ fs fs' : Filesystem} {l : List (Op × ℤ)}

theorem Blank.describes (h : Blank geo fs) : Files.empty.Describes geo fs where
  names := h.names_eq.symm
  file := fun i bs hbs => by cases hbs
  all := fun i hi hreg => absurd hreg (h.not_regular hi)

/-- Paths lead where the map says, the regular files are those that the map has, and reads from the
start or inside a file deliver what the map says that it holds. -/
structure Files.Delivers (m : Files) (fs : Filesystem) : Prop where
  paths : ∀ path, 0 ∉ path → ThroughDirs fs (strtokSlash path) →
    fsPathIndex fs path = .ok (m.names (strtokSlash path))
  files : ∀ i, m.data i ≠ none ↔ Finds (fsFindInode fs i) fun x => sIsreg x.mode
  reads : ∀ i bs, m.data i = some bs → Finds (fsFindInode fs i) fun x => x.size.toInt = bs.length ∧
    ∀ off size, off = 0 ∨ off + size ≤ bs.length → fsReadFile fs ⟨x, i⟩ size off =
      .ok ((min size (bs.length - off) : ℕ), (bs.drop off).take size)

theorem Files.Describes.delivers {m : Files} (h : m.Describes geo fs) (ho : Orderly geo fs) :
    m.Delivers fs where
  paths path hpath ht := by
    have hth := ho.through (fun e he => (properName_of_token hpath he).noNul) ht
    rw [fsPathIndex_eq ho.shows hpath hth.straight, h.names]
    rfl
  files i := by
    constructor
    · intro hi
      obtain ⟨bs, hbs⟩ := Option.ne_none_iff_exists'.mp hi
      have hfile := h.file i bs hbs
      exact ⟨_, (fsFindInode_iff ho.mounted).mpr ⟨hfile.used, rfl⟩, hfile.regular⟩
    · rintro ⟨x, hx, hreg⟩
      obtain ⟨hu, rfl⟩ := (fsFindInode_iff ho.mounted).mp hx
      exact h.all i hu hreg
  reads i bs hbs := by
    have hfile := h.file i bs hbs
    have hlt := geo.direct_lt
    have hbound := hfile.bound
    refine ⟨_, (fsFindInode_iff ho.mounted).mpr ⟨hfile.used, rfl⟩, ?_, fun off size hin => ?_⟩
    · rw [hfile.size, Int64.toInt_ofNat_of_lt (by omega)]
    · exact hfile.read_range ho.mounted ho.wellformed hin

/-- The maps and the device in step. -/
structure Files.Kept (geo : Geometry) (m : Files) (fs : Filesystem) : Prop where
  inOrder : InOrder geo fs
  describes : m.Describes geo fs

theorem Files.Kept.step {m : Files} (h : m.Kept geo fs) {op : Op} {o : ℤ}
    (hs : SequentialStep fs op o fs') : ∃ m', m.Step op o m' ∧ m'.Kept geo fs' := by
  obtain ⟨m', hstep, hd⟩ := h.describes.step h.inOrder hs
  obtain ⟨r, hcall, -⟩ := Op.exists_call hs.2
  exact ⟨m', hstep, h.inOrder.step ⟨hs.1.1, hcall⟩, hd⟩

theorem Blank.kept (h : Blank geo fs) : Files.empty.Kept geo fs := ⟨h.inOrder, h.describes⟩

/-- A run of tidy, sequential operations is a run of the two maps with the same results. In the end
the device delivers what the maps say. -/
theorem file_store_refines (hmount : freshMount geo = .ok fs₀)
    (hrun : Traces SequentialStep fs₀ l fs) :
    ∃ m, Traces Files.Step Files.empty l m ∧ m.Delivers fs := by
  obtain ⟨m, htrace, hk⟩ := hrun.simulated (R := fun fs m => Files.Kept geo m fs)
    (fun _ _ _ _ _ h hs => h.step hs) (freshMount_blank hmount).kept
  exact ⟨m, htrace, hk.describes.delivers hk.inOrder.orderly⟩

/-- The file `/f`, inode 4, of three bytes is moved to `/d/g` and then gets one more. -/
def movedFile : List Op :=
  [.mkdir [47, 100] 0o755, .create [47, 102] 0o100644, .write (newFile 0o100644 4) [1, 2, 3] 0,
    .rename [47, 102] [47, 100, 47, 103],
    .write ⟨inodeSetSize ((newFile 0o100644 4).inode.setBlk 0 3) 3, 4⟩ [4] 3]

theorem file_store_refines_movedFile :
    ∃ fs₀ l fs m, freshMount smallDisk = .ok fs₀ ∧ Traces SequentialStep fs₀ l fs ∧
      l.map Prod.snd = [0, 0, 3, 0, 1] ∧ Traces Files.Step Files.empty l m ∧
      m.names [[100], [103]] = some 4 ∧ m.data 4 = some [1, 2, 3, 4] := by
  have hrun : Yields (freshMount smallDisk) fun fs₀ =>
      ((runTraced Op.reply (fun fs op => op.Tidy fs ∧ op.Sequential fs) [] fs₀ movedFile).any
        fun r => decide (r.1.map Prod.snd = [0, 0, 3, 0, 1] ∧
          ThroughDirs r.2 (strtokSlash [47, 100, 47, 103]) ∧
          fsPathIndex r.2 [47, 100, 47, 103] = .ok (some 4) ∧
          Finds (fsFindInode r.2 4) fun x => sIsreg x.mode ∧ x.size.toInt = 4 ∧
            fsReadFile r.2 ⟨x, 4⟩ 4 0 = .ok (4, [1, 2, 3, 4]))) = true := by
    decide +kernel
  obtain ⟨fs₀, hmount, hrun⟩ := hrun
  obtain ⟨⟨l, fs⟩, hr, hp⟩ := (Option.any_eq_true _ _).mp hrun
  obtain ⟨hout, ht, hi, x, hx, hreg, hsize, hread⟩ := of_decide_eq_true hp
  have htrace : Traces SequentialStep fs₀ l fs := traces_of_runTraced .nil hr
  obtain ⟨m, hm, hdel⟩ := file_store_refines hmount htrace
  refine ⟨fs₀, l, fs, m, hmount, htrace, hout, hm,
    Except.ok.inj ((hdel.paths _ (by decide) ht).symm.trans hi), ?_⟩
  obtain ⟨bs, hbs⟩ := Option.ne_none_iff_exists'.mp ((hdel.files 4).mpr ⟨x, hx, hreg⟩)
  obtain ⟨y, hy, hlen, hbytes⟩ := hdel.reads 4 bs hbs
  cases hx.symm.trans hy
  have hall := hbytes 0 4 (Or.inl rfl)
  rw [hread] at hall
  have htake : [1, 2, 3, 4] = bs.take 4 := congrArg Prod.snd (Except.ok.inj hall)
  rw [hbs, htake, List.take_of_length_le (by omega)]

end Runs

end ChisaiFs
