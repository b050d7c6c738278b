import ChisaiFs.Distinct
import ChisaiFs.Room

/-! Making directories and files. A creation that succeeds into room adds one path; one that
finds no room, or no second resource, leaves what it took. -/

namespace ChisaiFs
open Outcome SwapRemoval Walks Cells

def fsMetadataIndex (fs : Filesystem) (path : CString) : Exec (Except ChisaiError ChisaiSize) :=
  Except.map FileInfo.idx <$> fsGetMetadata fs path

/-- Inode `i` is new and found under the path, and every other path leads where it did. -/
structure Created (fs fs' : Filesystem) (path : CString) (x : Inode) (i : ChisaiSize) : Prop where
  fresh : blkgrpsInodeExist fs.blkGrps i = .ok false
  used : blkgrpsInodeExist fs'.blkGrps i = .ok true
  found : fsGetMetadata fs' path = .ok (.ok ⟨x, i⟩)
  others : ∀ p, 0 ∉ p → strtokSlash p ≠ strtokSlash path → ThroughDirs fs (strtokSlash p) →
    fsMetadataIndex fs' p = fsMetadataIndex fs p

section Paths

variable {geo : Geometry} {fs fs' : Filesystem} {t t' : DirTree} {q c path : CString}
  {p i : ChisaiSize} {dir dir' : Dir} {mode : UInt32}

theorem fsMetadataIndex_congr (h : fsPathIndex fs' path = fsPathIndex fs path) :
    fsMetadataIndex fs' path = fsMetadataIndex fs path := by
  have hindex : ∀ s, fsMetadataIndex s path =
      (fun o : Option ChisaiSize => o.elim (.error .enoent) .ok) <$> fsPathIndex s path := by
    intro s
    unfold fsMetadataIndex fsGetMetadata fsPathIndex
    cases fsPathToInode s path with
    | error e => rfl
    | ok found => cases found <;> rfl
  rw [hindex, hindex, h]

theorem blkgrpsInodeExist_of_unused (h : Mounted geo fs) (hi : geo.InRange i)
    (hn : i ∉ (volume geo fs).inodeUsed) : blkgrpsInodeExist fs.blkGrps i = .ok false := by
  obtain ⟨r, hr⟩ := blkgrpsInodeExist_of_inRange h hi
  rw [hr]
  cases r with
  | false => rfl
  | true => exact absurd ((blkgrpsInodeExist_eq_ok h hr).mp rfl) hn

theorem Created.of_tree (h : Orderly geo fs) (hpath : 0 ∉ q ++ slash :: c) (hc : slash ∉ c)
    (hne : c ≠ []) (ht : (volume geo fs).dirs.Through (strtokSlash q ++ [c]))
    (hp : (volume geo fs).dirs.resolve (strtokSlash q) = some p)
    (habs : (volume geo fs).dirs.child p c = none) (hfresh : i ∉ (volume geo fs).inodeUsed)
    (h' : Shows geo fs' t') (hchild : t'.child = redirect (volume geo fs).dirs.child p c (some i))
    (hkeep : ∀ j e, (volume geo fs).dirs j = some e → ∃ e', t' j = some e') :
    Created fs fs' (q ++ slash :: c) ((volume geo fs').inode i) i := by
  have htok : strtokSlash (q ++ slash :: c) = strtokSlash q ++ [c] := by
    rw [strtokSlash_append, strtokSlash_name hc hne]
  have hroot := h.wellformed.rooted
  obtain ⟨hres, hst⟩ := resolve_new hroot hp hchild hkeep ht.straight
  have hused := h'.resolve_used hres
  refine ⟨blkgrpsInodeExist_of_unused h.mounted (h'.mounted.inodeUsed_inRange hused) hfresh,
    blkgrpsInodeExist_of_used h'.mounted hused, ?_, fun path hpath' hother hthru => ?_⟩
  · have hnul : ∀ d ∈ strtokSlash (q ++ slash :: c), 0 ∉ d :=
      fun d hd => (properName_of_token hpath hd).noNul
    rw [htok] at hnul
    unfold fsGetMetadata
    rw [fsPathToInode_eq, htok, h'.fsLookup_eq hnul hst, hres]
    rfl
  · have hth := h.through (fun e he => (properName_of_token hpath' he).noNul) hthru
    -- a path beneath the new name would have led through it before
    have hbeneath : ¬ strtokSlash q ++ [c] <+: strtokSlash path := by
      intro hsub
      obtain ⟨x, hx⟩ := exists_next hsub fun he => hother (by rw [← he, htok])
      obtain ⟨k, e, hk, -⟩ := hth _ x hx
      obtain ⟨j, hj, hk⟩ := walk_concat_eq_some.mp hk
      cases hj.symm.trans hp
      cases hk.symm.trans habs
    apply fsMetadataIndex_congr
    refine h.shows.fsPathIndex_congr h' hpath' hth (fun pre hpre => ?_) fun pre x j hpre hj => ?_
    · unfold DirTree.resolve
      rw [hchild]
      exact hroot.walk_redirect hp fun hc => hbeneath (hc.trans hpre)
    · obtain ⟨k, e, hk, he⟩ := hth pre x hpre
      cases hj.symm.trans hk
      exact hkeep _ e he

theorem Orderly.parent_of_absent (h : Orderly geo fs) (hpath : 0 ∉ q ++ slash :: c) (hc : slash ∉ c)
    (hne : c ≠ []) (ht : ThroughDirs fs (strtokSlash (q ++ slash :: c)))
    (habs : fsPathIndex fs (q ++ slash :: c) = .ok none) :
    (volume geo fs).dirs.Through (strtokSlash q ++ [c]) ∧ ∃ p dir,
      (volume geo fs).dirs.resolve (strtokSlash q) = some p ∧ (volume geo fs).dirs p = some dir ∧
        c ∉ dir.entries.keys := by
  have hth := h.through (fun e he => (properName_of_token hpath he).noNul) ht
  rw [fsPathIndex_eq h.shows hpath hth.straight] at habs
  rw [strtokSlash_append, strtokSlash_name hc hne] at hth habs
  obtain ⟨p, dir, hp, hdir⟩ := hth _ _ (List.prefix_refl _)
  refine ⟨hth, p, dir, hp, hdir, ?_⟩
  have hr := Except.ok.inj habs
  have hp' := hp
  unfold DirTree.resolve at hr hp'
  rw [walk_concat, hp', Option.bind_some] at hr
  exact List.dlookup_eq_none.mp ((DirTree.child_of hdir).symm.trans hr)

theorem DirTree.child_update_empty {o : Option Dir} (hi : ∀ x, t.child i x = none)
    (ho : ∀ d, o = some d → d = dirInit) : DirTree.child (Function.update t i o) = t.child := by
  funext n x
  by_cases hn : n = i
  · subst hn
    rw [hi x, DirTree.child, Function.update_self]
    cases o with
    | none => rfl
    | some d =>
      rw [ho d rfl]
      rfl
  · rw [DirTree.child, Function.update_of_ne hn]
    rfl

theorem DirTree.exists_update_of_none {o : Option Dir} {j : ChisaiSize} (hi : t i = none)
    (hj : t j = some dir) : Function.update t i o j = some dir := by
  rw [Function.update_of_ne, hj]
  rintro rfl
  cases hi.symm.trans hj

theorem fsCreateFile_shows (h : Orderly geo fs) {parent : Parent}
    (hat : parent.At (volume geo fs) p) (hpd : (volume geo fs).dirs p = some parent.dir)
    (hfresh : i ∉ (volume geo fs).inodeUsed) (hgain : parent.dir.Gains c i dir')
    (hm' : Mounted geo fs') {x : Inode} (habs : c ∉ parent.dir.entries.keys)
    (hv : volume geo fs' = (((volume geo fs).useInode i).setDir
      (((volume geo fs).inode p).blk 0) dir').setInode i x) :
    Shows geo fs' (Function.update (volume geo fs).dirs p (some dir')) := by
  have hkeep : ∀ j ∈ (volume geo fs).inodeUsed, (volume geo fs').inode j = (volume geo fs).inode j := by
    intro j hj
    rw [hv]
    exact Volume.setInode_inode_of_ne x fun he => hfresh (he ▸ hj)
  have hused : ∀ j ∈ (volume geo fs).inodeUsed, j ∈ (volume geo fs').inodeUsed := by
    intro j hj
    rw [hv]
    exact Or.inr hj
  obtain ⟨hp, -⟩ := Volume.dirs_eq_some.mp hpd
  have hset := h.wellformed.dirs_setDir hp dir'
  refine ⟨hm', hused _ h.wellformed.rootUsed, fun j e hj => ?_, ?_, fun j d k hk => ?_⟩
  · rw [← hset] at hj
    obtain ⟨hjd, hje⟩ := Volume.dirs_eq_some.mp hj
    change (volume geo fs).IsDir j at hjd
    rw [hkeep j hjd.1]
    refine (fsFindDir_iff hm').mpr ⟨?_, ?_⟩
    · rw [hv]
      exact h.wellformed.marked (j, 0) _ ⟨hjd.1, rfl, h.wellformed.dirBlock j hjd⟩
    · have hblock : (volume geo fs').block =
          ((volume geo fs).setDir (((volume geo fs).inode p).blk 0) dir').block := by
        rw [hv]
        rfl
      exact (Volume.dir_congr (congrFun hblock _)).trans hje
  · refine DirTree.Every.update (P := Dir.Named) h.named (fun d hd => ?_) p
    cases hd
    exact hgain.named
  · rw [hgain.child habs hpd] at hk
    by_cases hjd : j = p ∧ d = c
    · obtain ⟨rfl, rfl⟩ := hjd
      rw [redirect_same] at hk
      cases hk
      rw [hv]
      exact Or.inl rfl
    · rw [redirect_of_ne hjd] at hk
      exact hused k (h.shows.used j d k hk)

theorem Orderly.parent_eq (h : Orderly geo fs) (hpath : 0 ∉ q ++ slash :: c) (hc : slash ∉ c)
    (hq : (volume geo fs).dirs.Straight (strtokSlash q))
    (hp : (volume geo fs).dirs.resolve (strtokSlash q) = some p)
    (hd : (volume geo fs).dirs p = some dir) :
    ParentIsDir fs (q ++ slash :: c) ∧ ∀ parent p₂,
      fsPathToParent fs (q ++ slash :: c) = .ok (.ok parent) → parent.At (volume geo fs) p₂ →
        p₂ = p ∧ parent.filePath = c ∧ parent.dir = dir := by
  have hs := strrchrSlash_eq_some.mpr ⟨(rfl : q ++ slash :: c = _), hc⟩
  constructor
  · intro parent hf
    obtain ⟨p', hp', hx, -, -⟩ := h.parent_resolves hpath hs hq hf
    cases hp.symm.trans hp'
    exact parentIsDir_of hd hf hx parent hf
  · intro parent p₂ hf hat
    obtain ⟨p', hp', hx, hu, hname⟩ := h.parent_resolves hpath hs hq hf
    cases hp.symm.trans hp'
    cases hat.unique h hx hu
    refine ⟨rfl, hname, ?_⟩
    rw [hat.dir_eq.1]
    exact (Volume.dirs_eq_some.mp hd).2

theorem Orderly.gains (h : Orderly geo fs) {parent : Parent} {inserted : Bool}
    (hproper : Proper (q ++ slash :: c)) (hroom : ParentHasRoom fs (q ++ slash :: c))
    (hf : fsPathToParent fs (q ++ slash :: c) = .ok (.ok parent))
    (hpd : (volume geo fs).dirs p = some parent.dir)
    (hins : dirInsert parent.dir parent.filePath i = .ok (inserted, dir')) :
    parent.dir.Gains parent.filePath i dir' := by
  obtain ⟨-, -, hname, hlen⟩ := fsPathToParent_name hproper hf
  rcases (h.named p _ hpd).insert hname hlen hins with ⟨-, -, hfull⟩ | ⟨-, hgain⟩
  · exact absurd (hroom parent hf) (not_lt.mpr hfull)
  · exact hgain

/-- A creation that returns OK adds the new inode under the path and changes no other path. -/
theorem creation_adds_path (h : NamedReachable geo fs) (hpath : 0 ∉ q ++ slash :: c)
    (hc : slash ∉ c) (hne : c ≠ []) (ht : ThroughDirs fs (strtokSlash (q ++ slash :: c)))
    (habs : fsPathIndex fs (q ++ slash :: c) = .ok none)
    (hroom : ParentHasRoom fs (q ++ slash :: c)) :
    (∀ mode fs', fsMkdir fs (q ++ slash :: c) mode = .ok (.ok, fs') → ∃ x i,
      Created fs fs' (q ++ slash :: c) x i ∧ x.mode = sIfdir ||| mode ∧
        fsFindDir fs' x.directBlks[0] = .ok (some dirInit)) ∧
    ∀ mode file file' fs', fsCreateFile fs (q ++ slash :: c) mode file = .ok (.ok, file', fs') →
      Created fs fs' (q ++ slash :: c) file'.inode file'.idx ∧ file'.inode.mode = mode := by
  have ho := h.orderly
  obtain ⟨hth, p, dir, hp, hdir, hkeys⟩ := ho.parent_of_absent hpath hc hne ht habs
  have hq := (hth.sub (List.prefix_append (strtokSlash q) [c])).straight
  obtain ⟨hl, hparent⟩ := ho.parent_eq hpath hc hq hp hdir
  have hproper := proper_of hpath hc hne
  have hnone : (volume geo fs).dirs.child p c = none := by
    rw [DirTree.child_of hdir]
    exact List.dlookup_eq_none.mpr hkeys
  constructor
  · intro mode fs' he
    have hstep : (Op.mkdir (q ++ slash :: c) mode).step fs = .ok fs' := map_eq_ok.mpr ⟨_, he, rfl⟩
    rcases fsMkdir_dirs ho hl he with ⟨hr, -⟩ | ⟨-, parent, p₂, i, inserted, dir', hmade⟩
    · exact absurd rfl hr
    obtain ⟨rfl, rfl, rfl⟩ := hparent parent p₂ hmade.absent.1 hmade.at_
    have hgain := ho.gains hproper hroom hmade.absent.1 hdir hmade.insert
    have hshow := (ho.step (show (Op.mkdir _ mode).Lawful fs from hl) hproper hstep).shows
    rw [hmade.dirs] at hshow
    have hout : Function.update (volume geo fs).dirs p₂ (some dir') i = none := by
      rw [Function.update_of_ne, Volume.dirs_of_unused hmade.fresh]
      rintro rfl
      exact hmade.fresh hmade.at_.used
    refine ⟨_, i, Created.of_tree ho hpath hc hne hth hp hnone hmade.fresh hshow ?_ ?_,
      hmade.newMode, hmade.empty⟩
    · rw [DirTree.child_update_empty (DirTree.child_of_none hout) fun d hd => ?_,
        hgain.child hkeys hdir]
      split_ifs at hd
      exact (Option.some.inj hd).symm
    · intro j e hj
      obtain ⟨e', he'⟩ := DirTree.exists_update hj
      exact ⟨e', DirTree.exists_update_of_none hout he'⟩
  · intro mode file file' fs' he
    obtain ⟨hm', hcase⟩ := fsCreateFile_volume ho.mounted he
    rcases hcase with ⟨hr, -⟩ |
      ⟨-, parent, p₂, i, inserted, dir', habs', hat, -, hfresh, rfl, hins, hv⟩
    · exact absurd rfl hr
    obtain ⟨rfl, rfl, rfl⟩ := hparent parent p₂ habs'.1 hat
    have hgain := ho.gains hproper hroom habs'.1 hdir hins
    rw [hat.dir_eq.2] at hv
    have hshow := fsCreateFile_shows ho hat hdir hfresh hgain hm' hkeys hv
    have hinode : (volume geo fs').inode i = (newFile mode i).inode := by
      rw [hv]
      exact Volume.setInode_inode_same _
    have hcreated := Created.of_tree ho hpath hc hne hth hp hnone hfresh hshow
      (hgain.child hkeys hdir) fun j e hj => DirTree.exists_update hj
    rw [hinode] at hcreated
    exact ⟨hcreated, rfl⟩

/-- Making the directory `/d/e` and the file `/d/f` in `fileAndDir`. -/
theorem creation_adds_path_fileAndDir :
    ∃ fs fs' x i, NamedReachable smallDisk fs ∧
      fsMkdir fs ([47, 100] ++ slash :: [101]) 0o755 = .ok (.ok, fs') ∧
      Created fs fs' ([47, 100] ++ slash :: [101]) x i ∧ x.mode = sIfdir ||| 0o755 := by
  have hrun : ∃ fs, NamedReachable smallDisk fs ∧
      ThroughDirs fs (strtokSlash ([47, 100] ++ slash :: [101])) ∧
      fsPathIndex fs ([47, 100] ++ slash :: [101]) = .ok none ∧
      ParentHasRoom fs ([47, 100] ++ slash :: [101]) ∧
      Yields (fsMkdir fs ([47, 100] ++ slash :: [101]) 0o755) fun r => r.1 = .ok := by
    apply exists_named fileAndDir
    decide +kernel
  obtain ⟨fs, h, ht, habs, hroom, ⟨r, fs'⟩, he, rfl⟩ := hrun
  obtain ⟨x, i, hcreated, hmode, -⟩ := (creation_adds_path h (by decide) (by decide) (by decide) ht
    habs hroom).1 _ _ he
  exact ⟨fs, fs', x, i, h, he, hcreated, hmode⟩

end Paths

/-- Both bitmaps, both counters, and every inode slot and data block that was allocated, are as
they were. -/
structure Untouched (geo : Geometry) (fs fs' : Filesystem) : Prop where
  freeBlocks : fs'.sb.freeBlocks = fs.sb.freeBlocks
  freeInodes : fs'.sb.freeInodes = fs.sb.freeInodes
  dataBits : ∀ k, geo.InRange k → blkgrpsDataExist fs'.blkGrps k = blkgrpsDataExist fs.blkGrps k
  inodeBits : ∀ i, geo.InRange i → blkgrpsInodeExist fs'.blkGrps i = blkgrpsInodeExist fs.blkGrps i
  slots : ∀ i, blkgrpsInodeExist fs.blkGrps i = .ok true → slotBytes fs' i = slotBytes fs i
  blocks : ∀ k, blkgrpsDataExist fs.blkGrps k = .ok true →
    slice fs'.d.bytes (fsDataToOffset fs' k) geo.blkSize =
      slice fs.d.bytes (fsDataToOffset fs k) geo.blkSize

/-- The parent directory on the device has an entry of the name for a newly marked inode. -/
def Entered (fs fs' : Filesystem) (path : CString) : Prop :=
  ∃ parent i, fsPathToParent fs path = .ok (.ok parent) ∧
    blkgrpsInodeExist fs.blkGrps i = .ok false ∧ blkgrpsInodeExist fs'.blkGrps i = .ok true ∧
    Finds (fsFindDir fs' (getElem parent.inode.directBlks 0 directBlksNum_pos)) fun dir =>
      ⟨parent.filePath, i⟩ ∈ dir.entries

def AllOrNothing (geo : Geometry) (fs fs' : Filesystem) (path : CString) (r : ChisaiError) : Prop :=
  (r ≠ .ok → Untouched geo fs fs') ∧ (r = .ok → Entered fs fs' path)

section Failures

variable {geo : Geometry} {fs fs' : Filesystem} {path : CString} {parent : Parent}
  {p i : ChisaiSize} {dir : Dir} {mode : UInt32} {r : ChisaiError}

theorem Untouched.refl (fs : Filesystem) : Untouched geo fs fs :=
  ⟨rfl, rfl, fun _ _ => rfl, fun _ _ => rfl, fun _ _ => rfl, fun _ _ => rfl⟩

theorem entered_iff (hm : Mounted geo fs) (hw : (volume geo fs).Wellformed) (hm' : Mounted geo fs')
    (hpath : 0 ∉ path) (hf : fsPathToParent fs path = .ok (.ok parent))
    (hat : parent.At (volume geo fs) p) (hd : sIsdir parent.inode.mode) {inserted : Bool}
    (hir : geo.InRange i) (hin : i ∉ (volume geo fs).inodeUsed)
    (hins : dirInsert parent.dir parent.filePath i = .ok (inserted, dir))
    (hu : (volume geo fs').inodeUsed = insert i (volume geo fs).inodeUsed)
    (hdir : fsFindDir fs' parent.inode.directBlks[0] = .ok (some dir)) :
    Entered fs fs' path ↔ parent.dir.size.toNat < chisaiFilePerDir := by
  obtain ⟨q, -, -, hnul, hlen⟩ := fsPathToParent_split hpath hf
  constructor
  · rintro ⟨parent', j, hf', hbefore, hafter, found, hfound, hmem⟩
    cases hf.symm.trans hf'
    cases hdir.symm.trans hfound
    have hj : j = i := by
      have hj' := (blkgrpsInodeExist_eq_ok hm' hafter).mp rfl
      rw [hu] at hj'
      refine hj'.resolve_right fun hj => ?_
      exact Bool.noConfusion ((blkgrpsInodeExist_eq_ok hm hbefore).mpr hj)
    subst hj
    -- a full directory is stored as it was, and no entry of it is for a free inode
    by_contra hfull
    have hsame : dir = parent.dir := by
      unfold dirInsert at hins
      rw [dif_neg hfull] at hins
      cases hins
      rfl
    have hpd : (volume geo fs).IsDir p := ⟨hat.used, hat.inode ▸ hd⟩
    rw [hsame, hat.dir_eq.1, Dir.mem_entries (hw.dirSize p hpd)] at hmem
    obtain ⟨s, hs, he⟩ := hmem
    exact hin (hw.refUsed (p, s) j ⟨hpd, hs, congrArg Sigma.snd he⟩).1
  · intro hroom
    obtain ⟨node, hins', -, htext, hidx⟩ := dirInsert_of_room (i := i) hnul hlen hroom
    cases hins.symm.trans hins'
    have hnew : i ∈ (volume geo fs').inodeUsed := by
      rw [hu]
      exact Set.mem_insert i _
    refine ⟨parent, i, hf, blkgrpsInodeExist_of_unused hm hir hin,
      blkgrpsInodeExist_of_used hm' hnew, _, hdir, ?_⟩
    change _ ∈ (parent.dir.with node hroom).entries
    rw [Dir.entries_with, List.mem_append, List.mem_singleton, ← htext, ← hidx]
    exact Or.inr rfl

theorem fsMkdir_room (hm : Mounted geo fs) (habs : Absent fs path parent)
    (he : fsMkdir fs path mode = .ok (r, fs')) :
    (r = .ok ∧ fs.room ≠ 0 ∧ fs.inodeRoom ≠ 0) ∨ (r ≠ .ok ∧ fs.room = 0 ∧ fs' = fs) ∨
      (r ≠ .ok ∧ fs.room ≠ 0 ∧ fs.inodeRoom = 0 ∧
        ∃ k, k ∉ (volume geo fs).dataUsed ∧ Mounted geo fs' ∧ k ∈ (volume geo fs').dataUsed) := by
  rcases fsMkdir_eq_ok he with ⟨-, -, hno⟩ | ⟨parent', k, fs₁, -, hk, hcase⟩
  · exact absurd habs (hno parent)
  obtain ⟨ms, -, hfs₁⟩ := fsDataAlloc_eq_ok hm hk
  have halloc := fsDataAlloc_room hm
  rw [hk] at halloc
  cases halloc with
  | full hroom =>
    rcases hcase with ⟨-, rfl, rfl⟩ | ⟨hk0, -⟩
    · exact Or.inr (Or.inl ⟨by decide, hroom, rfl⟩)
    · exact absurd rfl hk0
  | block hm₁ hd hkr hkn hv hroom =>
    have hroom₀ : fs.room ≠ 0 := by omega
    have hinodes : fs₁.inodeRoom = fs.inodeRoom := by rw [hfs₁]; rfl
    rcases hcase with ⟨hk0, -⟩ | ⟨-, i, fs₂, hi, ⟨hi0, rfl, rfl⟩ | ⟨hi0, rfl, -⟩⟩
    · exact absurd hk0 hkr.1
    · rcases fsInodeAlloc_room hm₁ hi with ⟨hne, -⟩ | ⟨-, rfl, hnone⟩
      · exact absurd hi0 hne
      · refine Or.inr (Or.inr ⟨by decide, hroom₀, hinodes ▸ hnone, k, hkn, hm₁, ?_⟩)
        rw [hv]
        exact Or.inl rfl
    · rcases fsInodeAlloc_room hm₁ hi with ⟨-, hsome⟩ | ⟨h0, -⟩
      · exact Or.inl ⟨rfl, hroom₀, hinodes ▸ hsome⟩
      · exact absurd h0 hi0

theorem fsCreateFile_room (hm : Mounted geo fs) (habs : Absent fs path parent)
    {file file' : FileInfo} (he : fsCreateFile fs path mode file = .ok (r, file', fs')) :
    (r = .ok ∧ fs.inodeRoom ≠ 0) ∨ (r ≠ .ok ∧ fs.inodeRoom = 0 ∧ fs' = fs) := by
  rcases fsCreateFile_eq_ok he with ⟨-, -, -, hno⟩ | ⟨parent', i, fs₁, -, hi, hcase⟩
  · exact absurd habs (hno parent)
  rcases hcase with ⟨hi0, rfl, -, rfl⟩ | ⟨hi0, rfl, -⟩
  · rcases fsInodeAlloc_room hm hi with ⟨hne, -⟩ | ⟨-, rfl, hnone⟩
    · exact absurd hi0 hne
    · exact Or.inr ⟨by decide, hnone, rfl⟩
  · rcases fsInodeAlloc_room hm hi with ⟨-, hsome⟩ | ⟨h0, -⟩
    · exact Or.inl ⟨rfl, hsome⟩
    · exact absurd h0 hi0

/-- A creation is all or nothing if and only if, for a name that is absent, what it takes second
is not short when what it takes first is there. -/
theorem creation_all_or_nothing_iff (h : Reachable geo fs) (hpath : 0 ∉ path)
    (hl : ParentIsDir fs path) :
    (∀ mode r fs', fsMkdir fs path mode = .ok (r, fs') → (AllOrNothing geo fs fs' path r ↔
      ∀ parent, Absent fs path parent → fs.room ≠ 0 →
        fs.inodeRoom ≠ 0 ∧ parent.dir.size.toNat < chisaiFilePerDir)) ∧
    ∀ mode file r file' fs', fsCreateFile fs path mode file = .ok (r, file', fs') →
      (AllOrNothing geo fs fs' path r ↔ ∀ parent, Absent fs path parent → fs.inodeRoom ≠ 0 →
        parent.dir.size.toNat < chisaiFilePerDir) := by
  obtain ⟨hm, hw⟩ := h.wellformed
  have hkept : ∀ r, r ≠ ChisaiError.ok → AllOrNothing geo fs fs path r :=
    fun r hr => ⟨fun _ => .refl fs, fun h => absurd h hr⟩
  constructor
  · intro mode r fs' he
    rcases fsMkdir_eq_ok he with ⟨hr, rfl, hno⟩ | ⟨parent, -, -, habs, -⟩
    · exact iff_of_true (hkept r hr) fun parent habs => absurd habs (hno parent)
    rcases fsMkdir_room hm habs he with
      ⟨rfl, hroom, hinodes⟩ | ⟨hr, hroom, rfl⟩ | ⟨hr, hroom, hinodes, k, hk, hm', hk'⟩
    · obtain ⟨hm', ⟨hr, -⟩ | ⟨-, parent', p, k, i, inserted, dir, habs', hat, -, hkn, hir, hin, hins,
        hv⟩⟩ := fsMkdir_volume hm he
      · exact absurd rfl hr
      cases habs.1.symm.trans habs'.1
      have hdir : fsFindDir fs' parent.inode.directBlks[0] = .ok (some dir) := by
        refine (fsFindDir_iff hm').mpr ⟨?_, ?_⟩
        · rw [hv]
          exact Or.inr hat.marked
        · have hne : parent.inode.directBlks[0] ≠ k := fun he => hkn (he ▸ hat.marked)
          rw [hv, Volume.setDir_dir_of_ne dirInit hne]
          exact Volume.setDir_dir_same dir
      have hentered := entered_iff hm hw hm' hpath habs.1 hat (hl parent habs.1) hir hin hins
        (by rw [hv]; rfl) hdir
      constructor
      · intro hall parent' habs' _
        cases habs.1.symm.trans habs'.1
        exact ⟨hinodes, hentered.mp (hall.2 rfl)⟩
      · intro hcond
        exact ⟨fun hr => absurd rfl hr, fun _ => hentered.mpr (hcond parent habs hroom).2⟩
    · exact iff_of_true (hkept r hr) fun _ _ h0 => absurd hroom h0
    · refine iff_of_false (fun hall => ?_) fun hcond => (hcond parent habs hroom).1 hinodes
      have hbit := (hall.1 hr).dataBits k (hm'.dataUsed_inRange hk')
      rw [blkgrpsDataExist_of_used hm' hk'] at hbit
      exact hk ((blkgrpsDataExist_eq_ok hm hbit.symm).mp rfl)
  · intro mode file r file' fs' he
    rcases fsCreateFile_eq_ok he with ⟨hr, -, rfl, hno⟩ | ⟨parent, -, -, habs, -⟩
    · exact iff_of_true (hkept r hr) fun parent habs => absurd habs (hno parent)
    rcases fsCreateFile_room hm habs he with ⟨rfl, hinodes⟩ | ⟨hr, hinodes, rfl⟩
    · obtain ⟨hm', ⟨hr, -⟩ | ⟨-, parent', p, i, inserted, dir, habs', hat, hir, hin, -, hins, hv⟩⟩ :=
        fsCreateFile_volume hm he
      · exact absurd rfl hr
      cases habs.1.symm.trans habs'.1
      have hdir : fsFindDir fs' parent.inode.directBlks[0] = .ok (some dir) := by
        refine (fsFindDir_iff hm').mpr ⟨?_, ?_⟩
        · rw [hv]
          exact hat.marked
        · rw [hv]
          exact Volume.setDir_dir_same dir
      have hentered := entered_iff hm hw hm' hpath habs.1 hat (hl parent habs.1) hir hin hins
        (by rw [hv]; rfl) hdir
      constructor
      · intro hall parent' habs' _
        cases habs.1.symm.trans habs'.1
        exact hentered.mp (hall.2 rfl)
      · intro hcond
        exact ⟨fun hr => absurd rfl hr, fun _ => hentered.mpr (hcond parent habs hinodes)⟩
    · exact iff_of_true (hkept r hr) fun _ _ h0 => absurd hinodes h0

/-- Making the directory `/d/e` in `fileAndDir`. -/
theorem creation_all_or_nothing_fileAndDir :
    ∃ fs fs', Reachable smallDisk fs ∧ fsMkdir fs [47, 100, 47, 101] 0o755 = .ok (.ok, fs') ∧
      (AllOrNothing smallDisk fs fs' [47, 100, 47, 101] .ok ↔
        ∀ parent, Absent fs [47, 100, 47, 101] parent → fs.room ≠ 0 →
          fs.inodeRoom ≠ 0 ∧ parent.dir.size.toNat < chisaiFilePerDir) := by
  have hrun : ∃ fs, Reachable smallDisk fs ∧ ParentIsDir fs [47, 100, 47, 101] ∧
      Yields (fsMkdir fs [47, 100, 47, 101] 0o755) fun r => r.1 = .ok := by
    apply exists_reachable fileAndDir
    decide +kernel
  obtain ⟨fs, h, hl, ⟨r, fs'⟩, he, rfl⟩ := hrun
  exact ⟨fs, fs', h, he, (creation_all_or_nothing_iff h (by decide) hl).1 _ _ _ he⟩

/-- Fifteen files in the root, `/a` to `/o`. -/
def fullRoot : List Op := (List.range 15).map fun n => .create [47, 97 + UInt8.ofNat n] 0o100644

/-- The call returns OK, and the root has no entry of the name. -/
theorem creation_without_entry :
    ∃ fs file' fs', Reachable smallDisk fs ∧ ParentIsDir fs [47, 122] ∧
      fsCreateFile fs [47, 122] 0o100644 ⟨inodeInit, noInode⟩ = .ok (.ok, file', fs') ∧
      ¬ Entered fs fs' [47, 122] ∧ ¬ AllOrNothing smallDisk fs fs' [47, 122] .ok := by
  have hrun : ∃ fs, Reachable smallDisk fs ∧ ParentIsDir fs [47, 122] ∧
      Yields (fsCreateFile fs [47, 122] 0o100644 ⟨inodeInit, noInode⟩) fun r => r.1 = .ok ∧
        Yields (fsPathToParent fs [47, 122]) fun found =>
          ∀ parent ∈ found.toOption, Finds (fsFindDir r.2.2
            (getElem parent.inode.directBlks 0 directBlksNum_pos)) fun dir =>
              parent.filePath ∉ dir.entries.keys := by
    apply exists_reachable fullRoot
    decide +kernel
  obtain ⟨fs, h, hl, ⟨r, file', fs'⟩, he, rfl, found, hfound, hnone⟩ := hrun
  have hout : ¬ Entered fs fs' [47, 122] := by
    rintro ⟨parent, i, hf, -, -, dir, hdir, hmem⟩
    cases hf.symm.trans hfound
    obtain ⟨dir', hdir', hkeys⟩ := hnone parent rfl
    cases hdir.symm.trans hdir'
    exact hkeys (List.mem_map_of_mem hmem)
  exact ⟨fs, file', fs', h, hl, he, hout, fun hall => hout (hall.2 rfl)⟩

end Failures

end ChisaiFs
