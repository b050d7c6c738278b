import ChisaiFs.Namespace
import ChisaiFs.Contents
import ChisaiFs.Library.Ownership

/-! Who owns a data block and which directory entry names an inode. Every change that an
operation makes to the volume keeps both relations free of shared resources. -/

namespace ChisaiFs
open Cells Outcome Relator Ownership

/-- The inode slot of a device full of zeros. -/
def blankInode : Inode where
  mode := 0
  nlink := 0
  blkcnt := 0
  size := 0
  directBlks := Vector.replicate directBlksNum 0
  indirectBlk := 0
  doubleIndirectBlk := 0

/-- The inode that `fs_create_root` stores. -/
def rootInodeRec : Inode :=
  inodeAddBlock (inodeSetNlink (inodeSetMode inodeInit (sIfdir ||| 0o777)) 2) 1

namespace Volume

def Owns (v : Volume) (a : ChisaiSize × ℕ) (k : ChisaiSize) : Prop :=
  a.1 ∈ v.inodeUsed ∧ (v.inode a.1).blk a.2 = k ∧ k ≠ 0

structure BlocksOwned (v : Volume) : Prop where
  marked : ∀ a k, v.Owns a k → k ∈ v.dataUsed
  excl : LeftUnique v.Owns

def IsDir (v : Volume) (i : ChisaiSize) : Prop := i ∈ v.inodeUsed ∧ sIsdir (v.inode i).mode

def dirOf (v : Volume) (i : ChisaiSize) : Dir := v.dir ((v.inode i).blk 0)

def Refers (v : Volume) (a : ChisaiSize × Fin chisaiFilePerDir) (i : ChisaiSize) : Prop :=
  v.IsDir a.1 ∧ a.2 < (v.dirOf a.1).size.toNat ∧ (v.dirOf a.1).idxAt a.2 = i

structure TreeOk (v : Volume) : Prop where
  dirBlock : ∀ i, v.IsDir i → (v.inode i).blk 0 ≠ 0
  dirSize : ∀ i, v.IsDir i → (v.dirOf i).size.toNat ≤ chisaiFilePerDir
  refUsed : ∀ a i, v.Refers a i → i ∈ v.inodeUsed ∧ i ≠ badblkInode ∧ i ≠ rootInode
  refUnique : LeftUnique v.Refers

/-- The two inodes that exist from the start. -/
structure ReservedOk (v : Volume) : Prop where
  badUsed : badblkInode ∈ v.inodeUsed
  bad : v.inode badblkInode = blankInode
  rootUsed : rootInode ∈ v.inodeUsed
  root : v.inode rootInode = rootInodeRec

structure Wellformed (v : Volume) : Prop extends BlocksOwned v, TreeOk v, ReservedOk v

section Changes

variable {v w : Volume} {i j k p : ChisaiSize} {n : ℕ} {x : Inode}

theorem TreeOk.congr (h : v.TreeOk) (hu : w.inodeUsed = v.inodeUsed) (hi : w.inode = v.inode)
    (hd : ∀ i, v.IsDir i → w.dirOf i = v.dirOf i) : w.TreeOk := by
  have hdir : ∀ i, w.IsDir i → v.IsDir i := fun i hw => by
    unfold IsDir at hw ⊢
    rwa [hu, hi] at hw
  have href : ∀ a i, w.Refers a i → v.Refers a i := by
    rintro a i ⟨hw, hs, hn⟩
    rw [hd a.1 (hdir a.1 hw)] at hs hn
    exact ⟨hdir a.1 hw, hs, hn⟩
  constructor
  · intro i hw
    rw [hi]
    exact h.dirBlock i (hdir i hw)
  · intro i hw
    rw [hd i (hdir i hw)]
    exact h.dirSize i (hdir i hw)
  · intro a i ha
    rw [hu]
    exact h.refUsed a i (href a i ha)
  · exact leftUnique_mono h.refUnique href

theorem Wellformed.useData (h : v.Wellformed) (k : ChisaiSize) : (v.useData k).Wellformed where
  marked a m ha := Set.mem_insert_of_mem k (h.marked a m ha)
  excl := h.excl
  toTreeOk := h.toTreeOk.congr rfl rfl fun _ _ => rfl
  toReservedOk := ⟨h.badUsed, h.bad, h.rootUsed, h.root⟩

theorem Wellformed.freeData (h : v.Wellformed) (hk : ∀ a, ¬ v.Owns a k) :
    (v.freeData k).Wellformed where
  marked a m ha := ⟨h.marked a m ha, fun he => hk a (Set.mem_singleton_iff.mp he ▸ ha)⟩
  excl := h.excl
  toTreeOk := h.toTreeOk.congr rfl rfl fun _ _ => rfl
  toReservedOk := ⟨h.badUsed, h.bad, h.rootUsed, h.root⟩

theorem Wellformed.writeBlock (h : v.Wellformed) (hk : ∀ i, v.IsDir i → (v.inode i).blk 0 ≠ k)
    (off : ℕ) (bs : List UInt8) : (v.writeBlock k off bs).Wellformed where
  marked := h.marked
  excl := h.excl
  toTreeOk := h.toTreeOk.congr rfl rfl fun i hi => writeBlock_dir_of_ne off bs (hk i hi)
  toReservedOk := ⟨h.badUsed, h.bad, h.rootUsed, h.root⟩

theorem Wellformed.dir_ne_of_owns (h : v.Wellformed) {a : ChisaiSize × ℕ} (ho : v.Owns a k)
    (hp : ¬ v.IsDir a.1) : ∀ i, v.IsDir i → (v.inode i).blk 0 ≠ k := by
  rintro i hi he
  have hi' : v.Owns (i, 0) k := ⟨hi.1, he, ho.2.2⟩
  have ha := h.excl ho hi'
  rw [ha] at hp
  exact hp hi

theorem Wellformed.dir_ne_of_free (h : v.Wellformed) (hk : k ∉ v.dataUsed) :
    ∀ i, v.IsDir i → (v.inode i).blk 0 ≠ k := by
  rintro i hi rfl
  exact hk (h.marked (i, 0) _ ⟨hi.1, rfl, h.dirBlock i hi⟩)

theorem Wellformed.dir_ne_of_dir (h : v.Wellformed) (hp : v.IsDir p) (hi : v.IsDir i)
    (hne : i ≠ p) : (v.inode i).blk 0 ≠ (v.inode p).blk 0 := by
  intro he
  have ho : v.Owns (p, 0) ((v.inode p).blk 0) := ⟨hp.1, rfl, h.dirBlock p hp⟩
  have ho' : v.Owns (i, 0) ((v.inode p).blk 0) := ⟨hi.1, he, h.dirBlock p hp⟩
  exact hne (congrArg Prod.fst (h.excl ho' ho))

theorem Wellformed.setDir_dirOf (h : v.Wellformed) (hp : v.IsDir p) (dir : Dir) (hi : v.IsDir i) :
    (v.setDir ((v.inode p).blk 0) dir).dirOf i = if i = p then dir else v.dirOf i := by
  split_ifs with he
  · subst he
    exact setDir_dir_same dir
  · exact setDir_dir_of_ne dir (h.dir_ne_of_dir hp hi he)

theorem Wellformed.setDir (h : v.Wellformed) (hp : v.IsDir p) {dir : Dir}
    (hsize : dir.size.toNat ≤ chisaiFilePerDir)
    (hused : ∀ s : Fin chisaiFilePerDir, s < dir.size.toNat →
      dir.idxAt s ∈ v.inodeUsed ∧ dir.idxAt s ≠ badblkInode ∧ dir.idxAt s ≠ rootInode)
    (hunique : LeftUnique (v.setDir ((v.inode p).blk 0) dir).Refers) :
    (v.setDir ((v.inode p).blk 0) dir).Wellformed where
  marked := h.marked
  excl := h.excl
  dirBlock i hi := h.dirBlock i hi
  dirSize i hi := by
    rw [h.setDir_dirOf hp dir hi]
    split_ifs with he
    · exact hsize
    · exact h.dirSize i hi
  refUsed := by
    rintro ⟨i, s⟩ m ⟨hi, hs, hm⟩
    rw [h.setDir_dirOf hp dir hi] at hs hm
    split_ifs at hs hm with he
    · rw [← hm]
      exact hused s hs
    · exact h.refUsed (i, s) m ⟨hi, hs, hm⟩
  refUnique := hunique
  toReservedOk := ⟨h.badUsed, h.bad, h.rootUsed, h.root⟩

theorem refers_with (h : v.Wellformed) (hp : v.IsDir p) {node : DirNode}
    (hl : (v.dirOf p).size.toNat < chisaiFilePerDir) {a : ChisaiSize × Fin chisaiFilePerDir}
    (ha : (v.setDir ((v.inode p).blk 0) ((v.dirOf p).with node hl)).Refers a i) :
    v.Refers a i ∨ (a = (p, ⟨(v.dirOf p).size.toNat, hl⟩) ∧ i = node.idx) := by
  obtain ⟨q, s⟩ := a
  obtain ⟨hq, hs, hn⟩ := ha
  rw [h.setDir_dirOf hp _ hq] at hs hn
  split_ifs at hs hn with he
  · subst he
    rw [size_with_toNat] at hs
    change s.val < (v.dirOf q).size.toNat + 1 at hs
    by_cases hlast : s.val = (v.dirOf q).size.toNat
    · right
      refine ⟨Prod.ext rfl (Fin.ext hlast), ?_⟩
      rw [← hn]
      simp [Dir.idxAt, Dir.with, hlast]
    · left
      refine ⟨hq, show s.val < (v.dirOf q).size.toNat by omega, ?_⟩
      rw [← hn]
      simp [Dir.idxAt, Dir.with, Vector.getElem_set_ne, Ne.symm hlast]
  · exact Or.inl ⟨hq, hs, hn⟩

theorem Wellformed.link (h : v.Wellformed) (hp : v.IsDir p) {node : DirNode}
    (hl : (v.dirOf p).size.toNat < chisaiFilePerDir) (hi : node.idx ∈ v.inodeUsed)
    (hbad : node.idx ≠ badblkInode) (hroot : node.idx ≠ rootInode)
    (hnew : ∀ a, ¬ v.Refers a node.idx) :
    (v.setDir ((v.inode p).blk 0) ((v.dirOf p).with node hl)).Wellformed := by
  refine h.setDir hp ?_ ?_ (leftUnique_insert h.refUnique hnew fun a r => refers_with h hp hl)
  · rw [size_with_toNat]
    exact hl
  · intro s hs
    have hr : (v.setDir ((v.inode p).blk 0) ((v.dirOf p).with node hl)).Refers (p, s)
        (((v.dirOf p).with node hl).idxAt s) := by
      have hd := (h.setDir_dirOf hp ((v.dirOf p).with node hl) hp).trans (if_pos rfl)
      exact ⟨hp, by rw [hd]; exact hs, by rw [hd]⟩
    rcases refers_with h hp hl hr with hr | ⟨-, he⟩
    · exact h.refUsed _ _ hr
    · rw [he]
      exact ⟨hi, hbad, hroot⟩

/-- Where an entry of the directory without entry `j` was before. -/
def rekeyWithout (p : ChisaiSize) (j last : Fin chisaiFilePerDir)
    (a : ChisaiSize × Fin chisaiFilePerDir) : ChisaiSize × Fin chisaiFilePerDir :=
  if a = (p, j) then (p, last) else a

theorem refers_without (h : v.Wellformed) (hp : v.IsDir p) {j : Fin chisaiFilePerDir}
    (hj : j < (v.dirOf p).size.toNat) (hl : ((v.dirOf p).size - 1).toNat < chisaiFilePerDir)
    {a : ChisaiSize × Fin chisaiFilePerDir}
    (ha : (v.setDir ((v.inode p).blk 0) ((v.dirOf p).without j hl)).Refers a i) :
    v.Refers (rekeyWithout p j ⟨_, hl⟩ a) i ∧ a ≠ (p, ⟨_, hl⟩) := by
  obtain ⟨q, s⟩ := a
  obtain ⟨hq, hs, hn⟩ := ha
  have hsize : ((v.dirOf p).size - 1).toNat = (v.dirOf p).size.toNat - 1 := by
    refine sub_one_toNat fun h0 => ?_
    rw [h0, UInt32.toNat_zero] at hj
    omega
  rw [h.setDir_dirOf hp _ hq] at hs hn
  unfold rekeyWithout
  split_ifs at hs hn with he
  · change q = p at he
    subst he
    change s.val < ((v.dirOf q).size - 1).toNat at hs
    have hlast : ((v.dirOf q).size - 1).toNat < (v.dirOf q).size.toNat := by omega
    refine ⟨?_, fun hc => ?_⟩
    · split_ifs with hsj
      · have hsj' : s = j := congrArg Prod.snd hsj
        refine ⟨hq, hlast, ?_⟩
        rw [← hn, hsj']
        simp [Dir.idxAt, Dir.without]
      · have hsj' : s ≠ j := fun hc => hsj (by rw [hc])
        refine ⟨hq, show s.val < (v.dirOf q).size.toNat by omega, ?_⟩
        rw [← hn]
        simp [Dir.idxAt, Dir.without, Vector.getElem_set_ne, Fin.val_ne_of_ne (Ne.symm hsj')]
    · have hsl : s.val = ((v.dirOf q).size - 1).toNat := congrArg (fun x => x.2.val) hc
      omega
  · have hqp : q ≠ p := he
    refine ⟨?_, fun hc => hqp (congrArg Prod.fst hc)⟩
    rw [if_neg fun hc => hqp (congrArg Prod.fst hc)]
    exact ⟨hq, hs, hn⟩

theorem rekeyWithout_injective {j last : Fin chisaiFilePerDir}
    {a b : ChisaiSize × Fin chisaiFilePerDir} (ha : a ≠ (p, last)) (hb : b ≠ (p, last))
    (he : rekeyWithout p j last a = rekeyWithout p j last b) : a = b := by
  unfold rekeyWithout at he
  split_ifs at he with h₁ h₂ h₂
  · rw [h₁, h₂]
  · exact absurd he.symm hb
  · exact absurd he ha
  · exact he

theorem Wellformed.unlink (h : v.Wellformed) (hp : v.IsDir p) {j : Fin chisaiFilePerDir}
    (hj : j < (v.dirOf p).size.toNat) (hl : ((v.dirOf p).size - 1).toNat < chisaiFilePerDir) :
    (v.setDir ((v.inode p).blk 0) ((v.dirOf p).without j hl)).Wellformed ∧
      ∀ a, ¬ (v.setDir ((v.inode p).blk 0) ((v.dirOf p).without j hl)).Refers a
        ((v.dirOf p).idxAt j) := by
  refine ⟨h.setDir hp hl.le ?_ ?_, ?_⟩
  · intro s hs
    have hd := (h.setDir_dirOf hp ((v.dirOf p).without j hl) hp).trans (if_pos rfl)
    have hr : (v.setDir ((v.inode p).blk 0) ((v.dirOf p).without j hl)).Refers (p, s)
        (((v.dirOf p).without j hl).idxAt s) := ⟨hp, by rw [hd]; exact hs, by rw [hd]⟩
    exact h.refUsed _ _ (refers_without h hp hj hl hr).1
  · refine leftUnique_rekey (rekeyWithout p j ⟨_, hl⟩) h.refUnique ?_ ?_
    · intro a b r ha hb
      exact rekeyWithout_injective (refers_without h hp hj hl ha).2 (refers_without h hp hj hl hb).2
    · exact fun a r ha => (refers_without h hp hj hl ha).1
  · intro a ha
    obtain ⟨hr, hne⟩ := refers_without h hp hj hl ha
    have hj' : v.Refers (p, j) ((v.dirOf p).idxAt j) := ⟨hp, hj, rfl⟩
    have he := h.refUnique hr hj'
    unfold rekeyWithout at he
    split_ifs at he with hc
    · exact hne (hc.trans he.symm)
    · exact hc he

theorem Wellformed.enter (h : v.Wellformed) (hp : p ∈ v.inodeUsed) (hk : (v.inode p).blk 0 ≠ 0)
    {name : CString} {inserted : Bool} {dir : Dir}
    (hins : dirInsert (v.dirOf p) name i = .ok (inserted, dir)) (hi : i ∈ v.inodeUsed)
    (hbad : i ≠ badblkInode) (hroot : i ≠ rootInode) (hnew : ∀ a, ¬ v.Refers a i) :
    (v.setDir ((v.inode p).blk 0) dir).Wellformed := by
  by_cases hd : v.IsDir p
  · rcases dirInsert_eq_ok hins with ⟨-, rfl, -⟩ | ⟨node, hl, -, rfl, rfl⟩
    · refine ⟨⟨h.marked, h.excl⟩, h.toTreeOk.congr rfl rfl fun j hj => ?_,
        ⟨h.badUsed, h.bad, h.rootUsed, h.root⟩⟩
      rw [h.setDir_dirOf hd _ hj]
      split_ifs with he
      · rw [he]
      · rfl
    · exact h.link hd hl hi hbad hroot hnew
  · have ho : v.Owns (p, 0) ((v.inode p).blk 0) := ⟨hp, rfl, hk⟩
    exact h.writeBlock (h.dir_ne_of_owns ho hd) 0 _

theorem IsDir.of_setInode_unused (hi : i ∉ v.inodeUsed) (hj : (v.setInode i x).IsDir j) :
    v.IsDir j := by
  have hne : j ≠ i := fun he => hi (he ▸ hj.1)
  rw [IsDir, setInode_inode_of_ne x hne] at hj
  exact hj

theorem Wellformed.setInode_unused (h : v.Wellformed) (hi : i ∉ v.inodeUsed) (x : Inode) :
    (v.setInode i x).Wellformed := by
  have hkeep : ∀ j ∈ v.inodeUsed, (v.setInode i x).inode j = v.inode j :=
    fun j hj => setInode_inode_of_ne x fun he => hi (he ▸ hj)
  have howns : ∀ a k, (v.setInode i x).Owns a k → v.Owns a k := by
    rintro a k ⟨ha, hk, h0⟩
    rw [hkeep a.1 ha] at hk
    exact ⟨ha, hk, h0⟩
  have hdir : ∀ j, (v.setInode i x).IsDir j → (v.setInode i x).dirOf j = v.dirOf j := by
    intro j hj
    unfold dirOf
    rw [hkeep j hj.1]
    rfl
  have hrefers : ∀ a r, (v.setInode i x).Refers a r → v.Refers a r := by
    rintro a r ⟨ha, hs, hr⟩
    rw [hdir a.1 ha] at hs hr
    exact ⟨ha.of_setInode_unused hi, hs, hr⟩
  refine ⟨⟨fun a k ha => h.marked a k (howns a k ha), leftUnique_mono h.excl howns⟩, ⟨?_, ?_, ?_, ?_⟩,
    ⟨h.badUsed, ?_, h.rootUsed, ?_⟩⟩
  · intro j hj
    rw [hkeep j hj.1]
    exact h.dirBlock j (hj.of_setInode_unused hi)
  · intro j hj
    rw [hdir j hj]
    exact h.dirSize j (hj.of_setInode_unused hi)
  · exact fun a r ha => h.refUsed a r (hrefers a r ha)
  · exact leftUnique_mono h.refUnique hrefers
  · rw [hkeep _ h.badUsed, h.bad]
  · rw [hkeep _ h.rootUsed, h.root]

theorem Refers.of_useInode {a : ChisaiSize × Fin chisaiFilePerDir} {r : ChisaiSize}
    (ha : (v.useInode i).Refers a r)
    (hdir : sIsdir (v.inode i).mode → (v.dirOf i).size = 0) : v.Refers a r := by
  obtain ⟨⟨hj, hm⟩, hs, hr⟩ := ha
  rcases hj with hj | hj
  · change _ < (v.dirOf a.1).size.toNat at hs
    rw [hj, hdir (hj ▸ hm), UInt32.toNat_zero] at hs
    omega
  · exact ⟨⟨hj, hm⟩, hs, hr⟩

theorem Wellformed.adopt (h : v.Wellformed) (hi : i ∉ v.inodeUsed)
    (hblk : ∀ n, (v.inode i).blk n ≠ 0 → n = 0)
    (hown : (v.inode i).blk 0 ≠ 0 →
      (v.inode i).blk 0 ∈ v.dataUsed ∧ ∀ a, ¬ v.Owns a ((v.inode i).blk 0))
    (hdir : sIsdir (v.inode i).mode → (v.inode i).blk 0 ≠ 0 ∧ (v.dirOf i).size = 0) :
    (v.useInode i).Wellformed := by
  have howns : ∀ a k, (v.useInode i).Owns a k →
      v.Owns a k ∨ (a = (i, 0) ∧ k = (v.inode i).blk 0) := by
    rintro ⟨j, n⟩ k ⟨hj, hk, h0⟩
    rcases hj with hj | hj
    · right
      change j = i at hj
      subst hj
      change (v.inode j).blk n = k at hk
      have hn : n = 0 := hblk n (hk ▸ h0)
      subst hn
      exact ⟨rfl, hk.symm⟩
    · exact Or.inl ⟨hj, hk, h0⟩
  have hdirs : ∀ j, (v.useInode i).IsDir j → v.IsDir j ∨ (j = i ∧ sIsdir (v.inode i).mode) := by
    rintro j ⟨hj, hm⟩
    rcases hj with hj | hj
    · exact Or.inr ⟨hj, hj ▸ hm⟩
    · exact Or.inl ⟨hj, hm⟩
  have hrefers : ∀ a r, (v.useInode i).Refers a r → v.Refers a r :=
    fun a r ha => ha.of_useInode fun hm => (hdir hm).2
  refine ⟨⟨?_, ?_⟩, ⟨?_, ?_, ?_, ?_⟩, ⟨Or.inr h.badUsed, h.bad, Or.inr h.rootUsed, h.root⟩⟩
  · intro a k ha
    rcases howns a k ha with ho | ⟨rfl, rfl⟩
    · exact h.marked a k ho
    · exact (hown ha.2.2).1
  · by_cases h0 : (v.inode i).blk 0 = 0
    · refine leftUnique_mono h.excl fun a k ha => (howns a k ha).resolve_right ?_
      rintro ⟨-, rfl⟩
      exact ha.2.2 h0
    · exact leftUnique_insert h.excl (hown h0).2 howns
  · intro j hj
    rcases hdirs j hj with hj | ⟨rfl, hm⟩
    · exact h.dirBlock j hj
    · exact (hdir hm).1
  · intro j hj
    rcases hdirs j hj with hj | ⟨rfl, hm⟩
    · exact h.dirSize j hj
    · change (v.dirOf j).size.toNat ≤ _
      rw [(hdir hm).2, UInt32.toNat_zero]
      exact Nat.zero_le _
  · intro a r ha
    obtain ⟨hu, hr⟩ := h.refUsed a r (hrefers a r ha)
    exact ⟨Or.inr hu, hr⟩
  · exact leftUnique_mono h.refUnique hrefers

theorem Wellformed.adopt_enter (h : v.Wellformed) (hi : i ∉ v.inodeUsed)
    (hblk : ∀ n, (v.inode i).blk n ≠ 0 → n = 0)
    (hown : (v.inode i).blk 0 ≠ 0 →
      (v.inode i).blk 0 ∈ v.dataUsed ∧ ∀ a, ¬ v.Owns a ((v.inode i).blk 0))
    (hdir : sIsdir (v.inode i).mode → (v.inode i).blk 0 ≠ 0 ∧ (v.dirOf i).size = 0)
    (hp : p ∈ v.inodeUsed) (hk : (v.inode p).blk 0 ≠ 0) {name : CString} {inserted : Bool}
    {dir : Dir} (hins : dirInsert (v.dirOf p) name i = .ok (inserted, dir)) :
    ((v.useInode i).setDir ((v.inode p).blk 0) dir).Wellformed := by
  have hw := h.adopt hi hblk hown hdir
  refine hw.enter (Or.inr hp) hk hins (Or.inl rfl) ?_ ?_ fun a ha => ?_
  · rintro rfl
    exact hi h.badUsed
  · rintro rfl
    exact hi h.rootUsed
  · exact hi (h.refUsed a i (ha.of_useInode fun hm => (hdir hm).2)).1

theorem Wellformed.newFile (h : v.Wellformed) (hi : i ∉ v.inodeUsed) (hx : ∀ n, x.blk n = 0)
    (hreg : sIsreg x.mode) (hp : p ∈ v.inodeUsed) (hk : (v.inode p).blk 0 ≠ 0) {name : CString}
    {inserted : Bool} {dir : Dir} (hins : dirInsert (v.dirOf p) name i = .ok (inserted, dir)) :
    (((v.useInode i).setDir ((v.inode p).blk 0) dir).setInode i x).Wellformed := by
  have hpi : p ≠ i := fun hc => hi (hc ▸ hp)
  have hrec := h.setInode_unused hi x
  have hxi : (v.setInode i x).inode i = x := setInode_inode_same x
  have hxp : (v.setInode i x).inode p = v.inode p := setInode_inode_of_ne x hpi
  have hnew := hrec.adopt_enter hi
    (fun n hn => absurd (by rw [hxi]; exact hx n) hn)
    (fun hn => absurd (by rw [hxi]; exact hx 0) hn)
    (fun hd => absurd hd (by rw [hxi]; exact not_sIsdir_of_sIsreg hreg))
    hp (by rw [hxp]; exact hk) (by unfold dirOf; rw [hxp]; exact hins)
  rw [hxp] at hnew
  exact hnew

theorem Wellformed.newDir (h : v.Wellformed) (hi : i ∉ v.inodeUsed) (hk : k ∉ v.dataUsed)
    (hk0 : k ≠ 0) (hx : ∀ n, x.blk n = if n = 0 then k else 0) (hp : p ∈ v.inodeUsed)
    (hblk : (v.inode p).blk 0 ≠ 0) (hmarked : (v.inode p).blk 0 ∈ v.dataUsed) {name : CString}
    {inserted : Bool} {dir : Dir} (hins : dirInsert (v.dirOf p) name i = .ok (inserted, dir)) :
    (((((v.useData k).useInode i).setDir ((v.inode p).blk 0) dir).setInode i x).setDir k
      dirInit).Wellformed := by
  have hpi : p ≠ i := fun hc => hi (hc ▸ hp)
  have hne : (v.inode p).blk 0 ≠ k := fun hc => hk (hc ▸ hmarked)
  have hrec := h.setInode_unused hi x
  have hblock := (hrec.writeBlock (hrec.dir_ne_of_free hk) 0 (dirCodec.enc dirInit)).useData k
  have hxi : (v.setInode i x).inode i = x := setInode_inode_same x
  have hxp : (v.setInode i x).inode p = v.inode p := setInode_inode_of_ne x hpi
  have hxk : ((v.setInode i x).inode i).blk 0 = k := by rw [hxi, hx, if_pos rfl]
  have hdir : ∀ m, ((v.setInode i x).writeBlock k 0 (dirCodec.enc dirInit)).dir m =
      if m = k then dirInit else v.dir m := by
    intro m
    split_ifs with hm
    · rw [hm]
      exact setDir_dir_same dirInit
    · exact setDir_dir_of_ne dirInit hm
  have hnew := hblock.adopt_enter hi
    (fun n hn => by
      by_contra h0
      refine hn ?_
      change ((v.setInode i x).inode i).blk n = 0
      rw [hxi, hx, if_neg h0])
    (fun _ => by
      change ((v.setInode i x).inode i).blk 0 ∈ insert k v.dataUsed ∧
        ∀ a, ¬ (v.setInode i x).Owns a (((v.setInode i x).inode i).blk 0)
      rw [hxk]
      exact ⟨Set.mem_insert k v.dataUsed, fun a ha => hk (hrec.marked a k ha)⟩)
    (fun _ => by
      change ((v.setInode i x).inode i).blk 0 ≠ 0 ∧
        (((v.setInode i x).writeBlock k 0 (dirCodec.enc dirInit)).dir
          (((v.setInode i x).inode i).blk 0)).size = 0
      rw [hxk, hdir, if_pos rfl]
      exact ⟨hk0, rfl⟩)
    hp
    (by
      change ((v.setInode i x).inode p).blk 0 ≠ 0
      rw [hxp]
      exact hblk)
    (by
      change dirInsert (((v.setInode i x).writeBlock k 0 (dirCodec.enc dirInit)).dir
        (((v.setInode i x).inode p).blk 0)) name i = _
      rw [hxp, hdir, if_neg hne]
      exact hins)
  change (((((v.setInode i x).writeBlock k 0 (dirCodec.enc dirInit)).useData k).useInode i).setDir
    (((v.setInode i x).inode p).blk 0) dir).Wellformed at hnew
  rw [hxp] at hnew
  have hcomm : ((((v.setInode i x).useData k).useInode i).writeBlock k 0
      (dirCodec.enc dirInit)).writeBlock ((v.inode p).blk 0) 0 (dirCodec.enc dir) =
      ((((v.setInode i x).useData k).useInode i).writeBlock ((v.inode p).blk 0) 0
        (dirCodec.enc dir)).writeBlock k 0 (dirCodec.enc dirInit) :=
    writeBlock_comm (Ne.symm hne)
  change (((((v.setInode i x).useData k).useInode i).writeBlock k 0
    (dirCodec.enc dirInit)).writeBlock ((v.inode p).blk 0) 0 (dirCodec.enc dir)).Wellformed at hnew
  rw [hcomm] at hnew
  exact hnew

theorem Wellformed.freeInode (h : v.Wellformed) (hbad : i ≠ badblkInode) (hroot : i ≠ rootInode)
    (hnew : ∀ a, ¬ v.Refers a i) : (v.freeInode i).Wellformed := by
  have howns : ∀ a k, (v.freeInode i).Owns a k → v.Owns a k := fun a k ha => ⟨ha.1.1, ha.2⟩
  have hdirs : ∀ j, (v.freeInode i).IsDir j → v.IsDir j := fun j hj => ⟨hj.1.1, hj.2⟩
  have hrefers : ∀ a r, (v.freeInode i).Refers a r → v.Refers a r :=
    fun a r ha => ⟨hdirs a.1 ha.1, ha.2⟩
  refine ⟨⟨fun a k ha => h.marked a k (howns a k ha), leftUnique_mono h.excl howns⟩,
    ⟨fun j hj => h.dirBlock j (hdirs j hj), fun j hj => h.dirSize j (hdirs j hj), ?_,
      leftUnique_mono h.refUnique hrefers⟩,
    ⟨⟨h.badUsed, Ne.symm hbad⟩, h.bad, ⟨h.rootUsed, Ne.symm hroot⟩, h.root⟩⟩
  intro a r ha
  obtain ⟨hu, hr⟩ := h.refUsed a r (hrefers a r ha)
  refine ⟨⟨hu, ?_⟩, hr⟩
  rintro rfl
  exact hnew a (hrefers a _ ha)

theorem Wellformed.removeEntry (h : v.Wellformed) (hp : v.IsDir p) {j : Fin chisaiFilePerDir}
    (hj : j < (v.dirOf p).size.toNat) (hl : ((v.dirOf p).size - 1).toNat < chisaiFilePerDir)
    (hi : (v.dirOf p).idxAt j = i) :
    (((v.freeData ((v.inode i).blk 0)).freeInode i).setDir ((v.inode p).blk 0)
      ((v.dirOf p).without j hl)).Wellformed := by
  have href : v.Refers (p, j) i := ⟨hp, hj, hi⟩
  obtain ⟨hunlink, hnone⟩ := h.unlink hp hj hl
  rw [hi] at hnone
  obtain ⟨hu, hbad, hroot⟩ := h.refUsed (p, j) i href
  rw [freeData_freeInode, setDir_freeData, setDir_freeInode]
  refine (hunlink.freeInode hbad hroot hnone).freeData fun a ha => ?_
  obtain ⟨⟨hau, hai⟩, hak, hk0⟩ := ha
  have ho : v.Owns a ((v.inode i).blk 0) := ⟨hau, hak, hk0⟩
  have ho' : v.Owns (i, 0) ((v.inode i).blk 0) := ⟨hu, rfl, hk0⟩
  exact hai (congrArg Prod.fst (h.excl ho ho'))

theorem Wellformed.setFile (h : v.Wellformed) (hi : i ∈ v.inodeUsed)
    (hreg : sIsreg (v.inode i).mode) (hx : x.mode = (v.inode i).mode) (hu : w.inodeUsed = v.inodeUsed)
    (hb : w.block = v.block) (hw : w.inode = (v.setInode i x).inode) (hblocks : w.BlocksOwned) :
    w.Wellformed := by
  have hnot : ∀ j, v.IsDir j → j ≠ i := by
    rintro j hj rfl
    exact not_sIsdir_of_sIsreg hreg hj.2
  have hdirs : ∀ j, w.IsDir j → v.IsDir j := by
    rintro j ⟨hj, hm⟩
    rw [hu] at hj
    rw [hw] at hm
    by_cases he : j = i
    · subst he
      rw [setInode_inode_same, hx] at hm
      exact ⟨hj, hm⟩
    · rw [setInode_inode_of_ne x he] at hm
      exact ⟨hj, hm⟩
  have hkeep : ∀ j, v.IsDir j → w.inode j = v.inode j := fun j hj => by
    rw [hw, setInode_inode_of_ne x (hnot j hj)]
  have hdir : ∀ j, v.IsDir j → w.dirOf j = v.dirOf j := by
    intro j hj
    unfold dirOf
    rw [hkeep j hj]
    exact dir_congr (by rw [hb])
  have hrefers : ∀ a r, w.Refers a r → v.Refers a r := by
    rintro a r ⟨ha, hs, hr⟩
    rw [hdir a.1 (hdirs a.1 ha)] at hs hr
    exact ⟨hdirs a.1 ha, hs, hr⟩
  have hreserved : ∀ j y, v.inode j = y → ¬ sIsreg y.mode → w.inode j = y := by
    rintro j y rfl hy
    rw [hw, setInode_inode_of_ne x]
    rintro rfl
    exact hy hreg
  refine ⟨hblocks, ⟨?_, ?_, ?_, ?_⟩, ⟨hu ▸ h.badUsed, hreserved _ _ h.bad (by decide),
    hu ▸ h.rootUsed, hreserved _ _ h.root (by decide)⟩⟩
  · intro j hj
    rw [hkeep j (hdirs j hj)]
    exact h.dirBlock j (hdirs j hj)
  · intro j hj
    rw [hdir j (hdirs j hj)]
    exact h.dirSize j (hdirs j hj)
  · intro a r ha
    rw [hu]
    exact h.refUsed a r (hrefers a r ha)
  · exact leftUnique_mono h.refUnique hrefers

theorem Wellformed.resize (h : v.Wellformed) (hi : i ∈ v.inodeUsed)
    (hreg : sIsreg (v.inode i).mode) (hx : x.mode = (v.inode i).mode)
    (hblk : ∀ n, x.blk n = (v.inode i).blk n) : (v.setInode i x).Wellformed := by
  have howns : ∀ a k, (v.setInode i x).Owns a k → v.Owns a k := by
    rintro ⟨j, n⟩ k ⟨hj, hk, h0⟩
    refine ⟨hj, ?_, h0⟩
    by_cases he : j = i
    · subst he
      rw [setInode_inode_same, hblk] at hk
      exact hk
    · rw [setInode_inode_of_ne x he] at hk
      exact hk
  exact h.setFile hi hreg hx rfl rfl rfl
    ⟨fun a k ha => h.marked a k (howns a k ha), leftUnique_mono h.excl howns⟩

theorem Wellformed.mapBlock (h : v.Wellformed) (hi : i ∈ v.inodeUsed)
    (hreg : sIsreg (v.inode i).mode) (hn : n < directBlksNum) (hk : k ∉ v.dataUsed) :
    ((v.useData k).setInode i ((v.inode i).setBlk n k)).Wellformed := by
  have howns : ∀ a m, ((v.useData k).setInode i ((v.inode i).setBlk n k)).Owns a m →
      v.Owns a m ∨ (a = (i, n) ∧ m = k) := by
    rintro ⟨j, l⟩ m ⟨hj, hm, h0⟩
    by_cases he : j = i
    · subst he
      rw [setInode_inode_same] at hm
      by_cases hl : l = n
      · subst hl
        rw [Inode.blk_setBlk_same hn] at hm
        exact Or.inr ⟨rfl, hm.symm⟩
      · rw [Inode.blk_setBlk_of_ne hl] at hm
        exact Or.inl ⟨hj, hm, h0⟩
    · rw [setInode_inode_of_ne _ he] at hm
      exact Or.inl ⟨hj, hm, h0⟩
  refine h.setFile hi hreg Inode.setBlk_mode rfl rfl rfl ⟨fun a m ha => ?_, ?_⟩
  · rcases howns a m ha with ho | ⟨-, rfl⟩
    · exact Set.mem_insert_of_mem k (h.marked a m ho)
    · exact Set.mem_insert m v.dataUsed
  · exact leftUnique_insert h.excl (fun a ha => hk (h.marked a k ha)) howns

theorem Wellformed.dropBlock (h : v.Wellformed) (hi : i ∈ v.inodeUsed)
    (hreg : sIsreg (v.inode i).mode) (hk : (v.inode i).blk n ≠ 0) :
    ((v.freeData ((v.inode i).blk n)).setInode i ((v.inode i).setBlk n 0)).Wellformed := by
  have hown : v.Owns (i, n) ((v.inode i).blk n) := ⟨hi, rfl, hk⟩
  have howns : ∀ a m,
      ((v.freeData ((v.inode i).blk n)).setInode i ((v.inode i).setBlk n 0)).Owns a m →
      v.Owns a m ∧ a ≠ (i, n) := by
    rintro ⟨j, l⟩ m ⟨hj, hm, h0⟩
    by_cases he : j = i
    · subst he
      rw [setInode_inode_same] at hm
      by_cases hl : l = n
      · subst hl
        rw [Inode.blk_setBlk_same (Inode.lt_of_blk_ne hk)] at hm
        exact absurd hm.symm h0
      · rw [Inode.blk_setBlk_of_ne hl] at hm
        exact ⟨⟨hj, hm, h0⟩, fun hc => hl (congrArg Prod.snd hc)⟩
    · rw [setInode_inode_of_ne _ he] at hm
      exact ⟨⟨hj, hm, h0⟩, fun hc => he (congrArg Prod.fst hc)⟩
  refine h.setFile hi hreg Inode.setBlk_mode rfl rfl rfl ⟨fun a m ha => ?_, ?_⟩
  · obtain ⟨ho, hne⟩ := howns a m ha
    refine ⟨h.marked a m ho, ?_⟩
    rintro rfl
    exact hne (h.excl ho hown)
  · exact leftUnique_mono h.excl fun a m ha => (howns a m ha).1

/-- A write in progress: the volume is well formed once the inode carried along is stored. -/
def Carries (i : ChisaiSize) (v : Volume) (x : Inode) : Prop :=
  (v.setInode i x).Wellformed ∧ i ∈ v.inodeUsed ∧ sIsreg x.mode

/-- A block of the file is stored in. -/
theorem Carries.own (h : Carries i v x) (hk : x.blk n ≠ 0) (off : ℕ) (bs : List UInt8) :
    Carries i (v.writeBlock (x.blk n) off bs) x := by
  obtain ⟨hw, hi, hreg⟩ := h
  have hsame := setInode_inode_same (v := v) (i := i) x
  have ho : (v.setInode i x).Owns (i, n) (x.blk n) := ⟨hi, by rw [hsame], hk⟩
  refine ⟨hw.writeBlock (hw.dir_ne_of_owns ho ?_) _ _, hi, hreg⟩
  rintro ⟨-, hm⟩
  rw [hsame] at hm
  exact not_sIsdir_of_sIsreg hreg hm

theorem Carries.map (h : Carries i v x) (hn : n < directBlksNum) (hk : k ∉ v.dataUsed) :
    Carries i (v.useData k) (x.setBlk n k) := by
  obtain ⟨hw, hi, hreg⟩ := h
  have hsame := setInode_inode_same (v := v) (i := i) x
  have hmap := hw.mapBlock hi (by rw [hsame]; exact hreg) hn hk
  have heq : ((v.setInode i x).useData k).setInode i (((v.setInode i x).inode i).setBlk n k) =
      (v.useData k).setInode i (x.setBlk n k) := by
    rw [hsame]
    exact setInode_setInode (v := v.useData k) _ _
  rw [heq] at hmap
  exact ⟨hmap, hi, by rw [Inode.setBlk_mode]; exact hreg⟩

theorem Carries.step {geo : Geometry} {buf : List UInt8} {start : ℕ} {c c' : Cursor}
    (h : Carries i c.vol c.inode) (hs : Cursor.Step geo buf start c c') :
    Carries i c'.vol c'.inode := by
  cases hs with
  | overwrite hlt hk => exact h.own hk _ _
  | @extend k hlt hn h0 hr hk =>
    have hblk := @Inode.blk_setBlk_same c.inode _ k hn
    have hown := (h.map hn hk).own (n := (start + c.total) / geo.blkSize) (by rw [hblk]; exact hr.1)
      ((start + c.total) % geo.blkSize) (chunk geo.blkSize buf start c.total)
    rwa [hblk] at hown

theorem Carries.shrink {c c' : Volume × Inode} (h : Carries i c.1 c.2) (hs : Shrink c c') :
    Carries i c'.1 c'.2 := by
  obtain ⟨hw, hi, hreg⟩ := h
  cases hs with
  | @drop v x n hk =>
    have hsame := setInode_inode_same (v := v) (i := i) x
    have hdrop := hw.dropBlock (n := n) hi (by rw [hsame]; exact hreg) (by rw [hsame]; exact hk)
    rw [hsame] at hdrop
    have heq : ((v.setInode i x).freeData (x.blk n)).setInode i (x.setBlk n 0) =
        (v.freeData (x.blk n)).setInode i (x.setBlk n 0) :=
      setInode_setInode (v := v.freeData (x.blk n)) _ _
    rw [heq] at hdrop
    exact ⟨hdrop, hi, by rw [Inode.setBlk_mode]; exact hreg⟩

theorem Carries.store (h : Carries i v x) (size : Int64) :
    (v.setInode i (inodeSetSize x size)).Wellformed := by
  obtain ⟨hw, hi, hreg⟩ := h
  have hsame := setInode_inode_same (v := v) (i := i) x
  have hr := hw.resize (x := inodeSetSize x size) hi (by rw [hsame]; exact hreg)
    (by rw [hsame]; rfl) (fun n => by rw [hsame]; rfl)
  rwa [setInode_setInode] at hr

end Changes

end Volume

end ChisaiFs
