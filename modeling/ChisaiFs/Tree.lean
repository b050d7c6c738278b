import ChisaiFs.Entries
import ChisaiFs.Invariant
import ChisaiFs.Library.Walks

/-! The directory tree of a volume: every directory inode with its directory, and the walks
from the root along the entries. The path resolution of the code is that walk wherever it
passes through directories only. -/

namespace ChisaiFs
open Outcome SwapRemoval Walks

abbrev DirTree := ChisaiSize → Option Dir

/-- The inode that a directory names, if it is a directory and has the name. -/
def DirTree.child (t : DirTree) (i : ChisaiSize) (c : CString) : Option ChisaiSize :=
  (t i).bind fun dir => dir.entries.dlookup c

/-- The inode at the end of a list of components, through directories only. -/
def DirTree.resolve (t : DirTree) (path : List CString) : Option ChisaiSize :=
  walk t.child rootInode path

/-- No prefix of the path leads to something that is not a directory. -/
def DirTree.Straight (t : DirTree) (path : List CString) : Prop :=
  ∀ pre c i, pre ++ [c] <+: path → t.resolve pre = some i → ∃ dir, t i = some dir

open Classical in
noncomputable def Volume.dirs (v : Volume) : DirTree :=
  fun i => if v.IsDir i then some (v.dirOf i) else none

section Changes

variable {t : DirTree} {p i n : ChisaiSize} {c x : CString} {dir dir' : Dir}

theorem DirTree.child_of (h : t p = some dir) : t.child p c = dir.entries.dlookup c := by
  rw [DirTree.child, h, Option.bind_some]

theorem DirTree.child_of_none (h : t p = none) (c : CString) : t.child p c = none := by
  rw [DirTree.child, h, Option.bind_none]

theorem DirTree.child_update (hp : t p = some dir) (hold : ∀ x, x ≠ c →
    dir'.entries.dlookup x = dir.entries.dlookup x) : DirTree.child (Function.update t p (some dir')) =
      redirect t.child p c (dir'.entries.dlookup c) := by
  funext n x
  by_cases hn : n = p
  · subst hn
    rw [DirTree.child_of (Function.update_self ..)]
    by_cases hx : x = c
    · rw [hx, redirect_same]
    · rw [redirect_of_ne fun h => hx h.2, hold x hx, DirTree.child_of hp]
  · rw [redirect_of_ne fun h => hn h.1, DirTree.child, Function.update_of_ne hn]
    rfl

theorem Dir.Gains.child (h : dir.Gains c i dir') (habs : c ∉ dir.entries.keys) (hp : t p = some dir) :
    DirTree.child (Function.update t p (some dir')) = redirect t.child p c (some i) := by
  rw [DirTree.child_update hp fun x hx => by rw [h.dlookup habs, if_neg hx], h.dlookup habs,
    if_pos rfl]

theorem Dir.Loses.child (h : dir.Loses c i dir') (hnodup : dir.entries.NodupKeys)
    (hp : t p = some dir) :
    DirTree.child (Function.update t p (some dir')) = redirect t.child p c none := by
  rw [DirTree.child_update hp fun x hx => by rw [h.dlookup hnodup, if_neg hx], h.dlookup hnodup,
    if_pos rfl]

theorem DirTree.exists_update {q : ChisaiSize} (h : t q = some dir) :
    ∃ d, Function.update t p (some dir') q = some d := by
  by_cases hq : q = p
  · exact ⟨dir', by rw [hq, Function.update_self]⟩
  · exact ⟨dir, by rw [Function.update_of_ne hq, h]⟩

end Changes

section Trees

variable {v : Volume} {dir : Dir} {i p : ChisaiSize} {c : CString}

theorem Volume.dirs_eq_some : v.dirs i = some dir ↔ v.IsDir i ∧ v.dirOf i = dir := by
  unfold Volume.dirs
  split_ifs with h <;> simp [h]

theorem Volume.dirs_of_isDir (h : v.IsDir i) : v.dirs i = some (v.dirOf i) := if_pos h

theorem Dir.mem_entries (h : dir.size.toNat ≤ chisaiFilePerDir) {e : Entry} :
    e ∈ dir.entries ↔
      ∃ s : Fin chisaiFilePerDir, s < dir.size.toNat ∧ (getElem dir.node s s.isLt).entry = e := by
  constructor
  · intro he
    obtain ⟨n, hn⟩ := List.mem_iff_getElem?.mp he
    have hlt : n < dir.size.toNat := by
      have hlen := (List.getElem?_eq_some_iff.mp hn).1
      rwa [Dir.entries_length h] at hlen
    refine ⟨⟨n, by omega⟩, hlt, ?_⟩
    have hs := Dir.getElem?_entries ⟨n, by omega⟩ hlt
    exact Option.some.inj (hs.symm.trans hn)
  · rintro ⟨s, hs, rfl⟩
    exact List.mem_iff_getElem?.mpr ⟨s, Dir.getElem?_entries s hs⟩

theorem Volume.Wellformed.refers_of_mem (h : v.Wellformed) (hd : v.dirs p = some dir)
    (hmem : ⟨c, i⟩ ∈ dir.entries) :
    ∃ s : Fin chisaiFilePerDir, v.Refers (p, s) i ∧ (getElem (v.dirOf p).node s s.isLt).text = c := by
  obtain ⟨hp, rfl⟩ := Volume.dirs_eq_some.mp hd
  obtain ⟨s, hs, he⟩ := (Dir.mem_entries (h.dirSize p hp)).mp hmem
  cases he
  exact ⟨s, ⟨hp, hs, rfl⟩, rfl⟩

theorem Volume.Wellformed.refers_of_child (h : v.Wellformed) (hc : v.dirs.child p c = some i) :
    ∃ s : Fin chisaiFilePerDir, v.Refers (p, s) i ∧ (getElem (v.dirOf p).node s s.isLt).text = c := by
  obtain ⟨dir, hdir, hlook⟩ := Option.bind_eq_some_iff.mp hc
  exact h.refers_of_mem hdir (List.of_mem_dlookup hlook)

theorem Volume.Wellformed.entry_unique (h : v.Wellformed) {q : ChisaiSize} {d : CString}
    {dir' : Dir} (hp : v.dirs p = some dir) (hc : ⟨c, i⟩ ∈ dir.entries) (hq : v.dirs q = some dir')
    (hd : ⟨d, i⟩ ∈ dir'.entries) : p = q ∧ c = d := by
  obtain ⟨s, href, rfl⟩ := h.refers_of_mem hp hc
  obtain ⟨s', href', rfl⟩ := h.refers_of_mem hq hd
  have he := h.refUnique href href'
  have hpq : p = q := congrArg Prod.fst he
  have hs : s = s' := congrArg Prod.snd he
  subst hpq hs
  exact ⟨rfl, rfl⟩

theorem Volume.Wellformed.rooted (h : v.Wellformed) : Rooted v.dirs.child rootInode where
  free p c hc := by
    obtain ⟨s, href, -⟩ := h.refers_of_child hc
    exact (h.refUsed _ _ href).2.2 rfl
  excl := by
    intro p c q d i hp hq
    obtain ⟨dir, hdir, hc⟩ := Option.bind_eq_some_iff.mp hp
    obtain ⟨dir', hdir', hd⟩ := Option.bind_eq_some_iff.mp hq
    exact h.entry_unique hdir (List.of_mem_dlookup hc) hdir' (List.of_mem_dlookup hd)

theorem Volume.Wellformed.child_used (h : v.Wellformed) (hc : v.dirs.child p c = some i) :
    i ∈ v.inodeUsed ∧ i ≠ rootInode ∧ ∀ a, v.Refers a i → a.1 = p := by
  obtain ⟨s, href, -⟩ := h.refers_of_child hc
  obtain ⟨hu, -, hroot⟩ := h.refUsed _ _ href
  exact ⟨hu, hroot, fun a ha => congrArg Prod.fst (h.refUnique ha href)⟩

end Trees

namespace Volume

variable {v w : Volume} {i j k p : ChisaiSize} {x : Inode} {dir : Dir} {t : DirTree}

theorem dirs_eq_of (hdir : ∀ i, v.IsDir i → t i = some (v.dirOf i))
    (hnot : ∀ i, ¬ v.IsDir i → t i = none) : v.dirs = t := by
  funext i
  unfold dirs
  split_ifs with h
  · exact (hdir i h).symm
  · exact (hnot i h).symm

theorem dirs_of_not_isDir (h : ¬ v.IsDir i) : v.dirs i = none := if_neg h

theorem dirs_of_unused (h : i ∉ v.inodeUsed) : v.dirs i = none :=
  dirs_of_not_isDir fun hi => h hi.1

theorem dirs_congr (hiff : ∀ j, w.IsDir j ↔ v.IsDir j) (hd : ∀ j, v.IsDir j → w.dirOf j = v.dirOf j) :
    w.dirs = v.dirs := by
  apply dirs_eq_of
  · intro j hj
    rw [dirs_of_isDir ((hiff j).mp hj), hd j ((hiff j).mp hj)]
  · intro j hj
    exact dirs_of_not_isDir fun hv => hj ((hiff j).mpr hv)

theorem Wellformed.dirs_setDir (h : v.Wellformed) (hp : v.IsDir p) (dir : Dir) :
    (v.setDir ((v.inode p).blk 0) dir).dirs = Function.update v.dirs p (some dir) := by
  apply dirs_eq_of
  · intro j hj
    rw [h.setDir_dirOf hp dir hj]
    split_ifs with he
    · rw [he, Function.update_self]
    · rw [Function.update_of_ne he]
      exact dirs_of_isDir hj
  · intro j hj
    have he : j ≠ p := fun he => hj (he ▸ hp)
    rw [Function.update_of_ne he]
    exact dirs_of_not_isDir hj

theorem Wellformed.dirs_newDir (h : v.Wellformed) (hi : i ∉ v.inodeUsed) (hk : k ∉ v.dataUsed)
    (hp : v.IsDir p) (hx : x.blk 0 = k) :
    (((((v.useData k).useInode i).setDir ((v.inode p).blk 0) dir).setInode i x).setDir k
      dirInit).dirs = Function.update (Function.update v.dirs p (some dir)) i
        (if sIsdir x.mode then some dirInit else none) := by
  have hkeep : ∀ j, j ≠ i → (v.setInode i x).inode j = v.inode j :=
    fun j hj => setInode_inode_of_ne x hj
  have hsame : (v.setInode i x).inode i = x := setInode_inode_same x
  apply dirs_eq_of
  · intro j hj
    unfold dirOf
    change _ = some (((v.setDir ((v.inode p).blk 0) dir).setDir k dirInit).dir
      (((v.setInode i x).inode j).blk 0))
    obtain ⟨hju, hjm⟩ := hj
    change j = i ∨ j ∈ v.inodeUsed at hju
    change sIsdir ((v.setInode i x).inode j).mode at hjm
    by_cases he : j = i
    · subst he
      rw [hsame] at hjm
      rw [Function.update_self, if_pos hjm, hsame, hx, setDir_dir_same]
    · rw [Function.update_of_ne he, hkeep j he]
      rw [hkeep j he] at hjm
      have hjd : v.IsDir j := ⟨hju.resolve_left he, hjm⟩
      rw [setDir_dir_of_ne dirInit (h.dir_ne_of_free hk j hjd)]
      have hset := congrFun (h.dirs_setDir hp dir) j
      rw [← hset]
      exact dirs_of_isDir hjd
  · intro j hj
    by_cases he : j = i
    · subst he
      rw [Function.update_self, if_neg]
      intro hm
      refine hj ⟨Or.inl rfl, ?_⟩
      change sIsdir ((v.setInode j x).inode j).mode
      rwa [hsame]
    have hjd : ¬ v.IsDir j := by
      intro hd
      refine hj ⟨Or.inr hd.1, ?_⟩
      change sIsdir ((v.setInode i x).inode j).mode
      rw [hkeep j he]
      exact hd.2
    have hjp : j ≠ p := fun hc => hjd (hc ▸ hp)
    rw [Function.update_of_ne he, Function.update_of_ne hjp]
    exact dirs_of_not_isDir hjd

theorem Wellformed.dirs_newFile (h : v.Wellformed) (hi : i ∉ v.inodeUsed) (hp : v.IsDir p)
    (hx : ¬ sIsdir x.mode) :
    (((v.useInode i).setDir ((v.inode p).blk 0) dir).setInode i x).dirs =
      Function.update v.dirs p (some dir) := by
  rw [← h.dirs_setDir hp dir]
  have hkeep : ∀ j, j ≠ i → (v.setInode i x).inode j = v.inode j :=
    fun j hj => setInode_inode_of_ne x hj
  have hiff : ∀ j, (((v.useInode i).setDir ((v.inode p).blk 0) dir).setInode i x).IsDir j ↔
      v.IsDir j := by
    intro j
    change (j = i ∨ j ∈ v.inodeUsed) ∧ sIsdir ((v.setInode i x).inode j).mode ↔ _
    by_cases he : j = i
    · subst he
      rw [setInode_inode_same]
      exact iff_of_false (fun hd => hx hd.2) (fun hd => hi hd.1)
    · rw [hkeep j he]
      exact and_congr_left fun _ => or_iff_right he
  refine dirs_congr hiff fun j hj => ?_
  have he : j ≠ i := fun he => hi (he ▸ hj.1)
  unfold dirOf
  change (v.setDir ((v.inode p).blk 0) dir).dir (((v.setInode i x).inode j).blk 0) = _
  rw [hkeep j he]
  rfl

theorem Wellformed.dirs_remove (h : v.Wellformed) (hp : v.IsDir p) (k : ChisaiSize) :
    (((v.freeData k).freeInode i).setDir ((v.inode p).blk 0) dir).dirs =
      Function.update (Function.update v.dirs p (some dir)) i none := by
  rw [← h.dirs_setDir hp dir]
  apply dirs_eq_of
  · rintro j ⟨⟨hj, hji⟩, hm⟩
    rw [Function.update_of_ne hji]
    exact dirs_of_isDir ⟨hj, hm⟩
  · intro j hj
    by_cases he : j = i
    · rw [he, Function.update_self]
    · rw [Function.update_of_ne he]
      exact dirs_of_not_isDir fun hd => hj ⟨⟨hd.1, he⟩, hd.2⟩

theorem dirs_useData : (v.useData k).dirs = v.dirs := rfl

/-! Regular files can change without a change of the tree. -/

theorem dirs_setFile (hv : ∀ j ≠ i, w.inode j = v.inode j) (hu : w.inodeUsed = v.inodeUsed)
    (hreg : sIsreg (v.inode i).mode) (hreg' : sIsreg (w.inode i).mode)
    (hd : ∀ j, v.IsDir j → w.dir ((v.inode j).blk 0) = v.dir ((v.inode j).blk 0)) :
    w.dirs = v.dirs := by
  have hiff : ∀ j, w.IsDir j ↔ v.IsDir j := by
    intro j
    unfold IsDir
    rw [hu]
    by_cases he : j = i
    · subst he
      exact iff_of_false (fun h => not_sIsdir_of_sIsreg hreg' h.2)
        fun h => not_sIsdir_of_sIsreg hreg h.2
    · rw [hv j he]
  refine dirs_congr hiff fun j hj => ?_
  have he : j ≠ i := by
    rintro rfl
    exact not_sIsdir_of_sIsreg hreg hj.2
  unfold dirOf
  rw [hv j he]
  exact hd j hj

theorem Carries.dirs_step {geo : Geometry} {buf : List UInt8} {start : ℕ} {c c' : Cursor}
    (h : Carries i c.vol c.inode) (hs : Cursor.Step geo buf start c c') :
    (c'.vol.setInode i c'.inode).dirs = (c.vol.setInode i c.inode).dirs := by
  have hreg' := (h.step hs).2.2
  obtain ⟨hw, hi, hreg⟩ := h
  have hsame := setInode_inode_same (v := c.vol) (i := i) c.inode
  have hnot : ¬ (c.vol.setInode i c.inode).IsDir i := by
    rintro ⟨-, hm⟩
    rw [hsame] at hm
    exact not_sIsdir_of_sIsreg hreg hm
  have hother : ∀ y, ∀ j ≠ i, (c.vol.setInode i y).inode j = (c.vol.setInode i c.inode).inode j := by
    intro y j hj
    rw [setInode_inode_of_ne y hj, setInode_inode_of_ne c.inode hj]
  cases hs with
  | overwrite hlt hk =>
    have ho : (c.vol.setInode i c.inode).Owns (i, (start + c.total) / geo.blkSize)
        (c.inode.blk ((start + c.total) / geo.blkSize)) := ⟨hi, by rw [hsame], hk⟩
    have hreg₀ : sIsreg ((c.vol.setInode i c.inode).inode i).mode := by rwa [hsame]
    exact dirs_setFile (i := i) (fun j _ => rfl) rfl hreg₀ hreg₀
      fun j hj => writeBlock_dir_of_ne _ _ (hw.dir_ne_of_owns ho hnot j hj)
  | @extend k hlt hn h0 hr hk =>
    refine dirs_setFile (i := i) (hother _) rfl ?_ ?_
      fun j hj => writeBlock_dir_of_ne _ _ (hw.dir_ne_of_free hk j hj)
    · rwa [hsame]
    · rw [setInode_inode_same]
      exact hreg'

theorem Carries.dirs_shrink {c c' : Volume × Inode} (h : Carries i c.1 c.2) (hs : Shrink c c') :
    (c'.1.setInode i c'.2).dirs = (c.1.setInode i c.2).dirs := by
  have hreg' := (h.shrink hs).2.2
  obtain ⟨-, -, hreg⟩ := h
  cases hs with
  | @drop v x n hk =>
    refine dirs_setFile (i := i) ?_ rfl ?_ ?_ fun j _ => rfl
    · intro j hj
      rw [setInode_inode_of_ne _ hj, setInode_inode_of_ne x hj]
      rfl
    · rwa [setInode_inode_same]
    · rw [setInode_inode_same]
      exact hreg'

theorem Carries.dirs_store (h : Carries i v x) (size : Int64) :
    (v.setInode i (inodeSetSize x size)).dirs = (v.setInode i x).dirs := by
  obtain ⟨-, -, hreg⟩ := h
  refine dirs_setFile (i := i) ?_ rfl ?_ ?_ fun j _ => rfl
  · intro j hj
    rw [setInode_inode_of_ne _ hj, setInode_inode_of_ne x hj]
  · rwa [setInode_inode_same]
  · rw [setInode_inode_same]
    exact hreg

end Volume

end ChisaiFs
