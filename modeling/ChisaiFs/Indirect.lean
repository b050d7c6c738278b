import ChisaiFs.Leaked

/-! The block map behind the direct blocks, on the volume: the indirect block of a file and the
blocks that its entries name. No inode maps them directly, and each has one place in the map. -/

namespace ChisaiFs
open Cells Words Outcome Ownership Relator

/-- The block numbers that a file can map. -/
def Geometry.blkLimit (geo : Geometry) : ℕ := directBlksNum + geo.blkSize / 4

structure Inode.Below (x y : Inode) : Prop where
  mode : x.mode = y.mode
  blk : ∀ n, x.blk n ≠ 0 → y.blk n = x.blk n
  indirectBlk : x.indirectBlk ≠ 0 → y.indirectBlk = x.indirectBlk

theorem Inode.Below.refl (x : Inode) : x.Below x := ⟨rfl, fun _ _ => rfl, fun _ => rfl⟩

theorem Inode.Below.trans {x y z : Inode} (h : x.Below y) (h' : y.Below z) : x.Below z where
  mode := h.mode.trans h'.mode
  blk n hn := (h'.blk n ((h.blk n hn).trans_ne hn)).trans (h.blk n hn)
  indirectBlk hn := (h'.indirectBlk ((h.indirectBlk hn).trans_ne hn)).trans (h.indirectBlk hn)

namespace Volume

def entry (v : Volume) (k : ChisaiSize) (n : ℕ) : ChisaiSize :=
  u32.dec (slice (v.block k) (n * 4) 4)

/-- The indirect block of an inode, and the block of its entry `n`. -/
def behind (v : Volume) (geo : Geometry) (x : Inode) : Option ℕ → ChisaiSize
  | none => x.indirectBlk
  | some n => if x.indirectBlk ≠ 0 ∧ n < geo.blkSize / 4 then v.entry x.indirectBlk n else 0

def mapped (v : Volume) (geo : Geometry) (x : Inode) (n : ℕ) : ChisaiSize :=
  if n < directBlksNum then x.blk n else v.behind geo x (some (n - directBlksNum))

def Behind (v : Volume) (geo : Geometry) (a : ChisaiSize × Option ℕ) (k : ChisaiSize) : Prop :=
  a.1 ∈ v.inodeUsed ∧ sIsreg (v.inode a.1).mode ∧ v.behind geo (v.inode a.1) a.2 = k ∧ k ≠ 0

/-- Block number `a.2` of a regular file holds block `k`. -/
def Holds (v : Volume) (geo : Geometry) (a : ChisaiSize × ℕ) (k : ChisaiSize) : Prop :=
  a.1 ∈ v.inodeUsed ∧ sIsreg (v.inode a.1).mode ∧ v.mapped geo (v.inode a.1) a.2 = k ∧ k ≠ 0

structure Deep (geo : Geometry) (v : Volume) : Prop extends Wellformed v where
  behindLeaked : ∀ a k, v.Behind geo a k → k ∈ v.leaked
  behindUnique : LeftUnique (v.Behind geo)

section Maps

variable {geo : Geometry} {v w : Volume} {x y : Inode} {i j k : ChisaiSize} {m n off : ℕ}
  {bs : List UInt8}

theorem mapped_of_lt (hn : n < directBlksNum) : v.mapped geo x n = x.blk n := if_pos hn

theorem mapped_of_ge (hn : ¬ n < directBlksNum) :
    v.mapped geo x n = v.behind geo x (some (n - directBlksNum)) := if_neg hn

theorem behind_entry (n : ℕ) : v.behind geo x (some n) =
    if x.indirectBlk ≠ 0 ∧ n < geo.blkSize / 4 then v.entry x.indirectBlk n else 0 := rfl

theorem behind_zero (h : x.indirectBlk = 0) (s : Option ℕ) : v.behind geo x s = 0 := by
  cases s with
  | none => exact h
  | some n => exact if_neg fun hc => hc.1 h

theorem behind_some (h : x.indirectBlk ≠ 0) (hn : n < geo.blkSize / 4) :
    v.behind geo x (some n) = v.entry x.indirectBlk n := if_pos ⟨h, hn⟩

theorem behind_inode (h : y.indirectBlk = x.indirectBlk) (s : Option ℕ) :
    v.behind geo y s = v.behind geo x s := by
  cases s with
  | none => exact h
  | some n => rw [behind, behind, h]

theorem behind_congr (h : x.indirectBlk ≠ 0 → w.block x.indirectBlk = v.block x.indirectBlk)
    (s : Option ℕ) : w.behind geo x s = v.behind geo x s := by
  cases s with
  | none => rfl
  | some n =>
    by_cases h0 : x.indirectBlk = 0
    · rw [behind_zero h0, behind_zero h0]
    · rw [behind, behind, entry, entry, h h0]

theorem mapped_congr (h : x.indirectBlk ≠ 0 → w.block x.indirectBlk = v.block x.indirectBlk) :
    w.mapped geo x n = v.mapped geo x n := by
  rw [mapped, mapped, behind_congr h]

theorem indirectBlk_ne_of_behind {s : Option ℕ} (h : v.behind geo x s ≠ 0) : x.indirectBlk ≠ 0 :=
  fun h0 => h (behind_zero h0 s)

theorem entry_store : (v.writeBlock j (n * 4) (u32.enc k)).entry j m =
    if m = n then k else v.entry j m := by
  have hlen : (u32.enc k).length = 4 := u32.length_enc k
  unfold entry
  rw [writeBlock_block_same]
  split_ifs with h
  · subst h
    have hs := slice_overwrite_self (v.block j) (m * 4) (u32.enc k)
    rw [hlen] at hs
    rw [hs, u32.dec_enc]
  · rw [slice_overwrite_disjoint _ (by omega)]

theorem entry_cleared (hm : m < n) :
    (v.writeBlock j 0 (List.replicate (n * 4) 0)).entry j m = 0 := by
  unfold entry
  have hs : slice (overwrite (v.block j) 0 (List.replicate (n * 4) 0)) (m * 4) 4 =
      List.replicate 4 0 := by
    rw [slice_eq_iff List.length_replicate]
    intro k hk
    rw [List.length_replicate] at hk
    have hin := overwrite_inside (v.block j) 0 (List.replicate (n * 4) 0) (m * 4 + k)
      (by rw [List.length_replicate]; omega)
    rw [Nat.zero_add] at hin
    rw [hin, List.getElem_replicate, List.getElem_replicate]
  rw [writeBlock_block_same, hs]
  rfl

end Maps

section Deep

variable {geo : Geometry} {v w : Volume} {x y : Inode} {i j k : ChisaiSize} {m n off : ℕ}
  {bs : List UInt8} {s : Option ℕ}

theorem Behind.indirect (h : v.Behind geo (i, s) k) :
    v.Behind geo (i, none) (v.inode i).indirectBlk :=
  ⟨h.1, h.2.1, rfl, indirectBlk_ne_of_behind (h.2.2.1.trans_ne h.2.2.2)⟩

theorem Deep.dir_ne (h : v.Deep geo) (hk : k ∈ v.leaked) : ∀ i, v.IsDir i → (v.inode i).blk 0 ≠ k := by
  rintro i hi rfl
  exact hk.2 (i, 0) ⟨hi.1, rfl, h.dirBlock i hi⟩

theorem Deep.mono (h : v.Deep geo) (hw : w.Wellformed)
    (hb : ∀ a k, w.Behind geo a k → v.Behind geo a k)
    (hl : v.leaked ⊆ w.leaked) : w.Deep geo where
  toWellformed := hw
  behindLeaked a k ha := hl (h.behindLeaked a k (hb a k ha))
  behindUnique := leftUnique_mono h.behindUnique hb

/-- One more place in the map. -/
theorem Deep.insert (h : v.Deep geo) (hw : w.Wellformed) {a : ChisaiSize × Option ℕ}
    (hk : k ∉ v.dataUsed) (hb : ∀ b l, w.Behind geo b l → v.Behind geo b l ∨ (b = a ∧ l = k))
    (hl : v.leaked ⊆ w.leaked) (hkl : k ∈ w.leaked) : w.Deep geo where
  toWellformed := hw
  behindLeaked b l hl' := by
    rcases hb b l hl' with hb | ⟨-, rfl⟩
    · exact hl (h.behindLeaked b l hb)
    · exact hkl
  behindUnique := leftUnique_insert h.behindUnique (fun b hb' => hk (h.behindLeaked b k hb').1) hb

theorem Deep.writeBlock (h : v.Deep geo) (hdir : ∀ i, v.IsDir i → (v.inode i).blk 0 ≠ k)
    (hind : ∀ i, ¬ v.Behind geo (i, none) k) : (v.writeBlock k off bs).Deep geo := by
  refine h.mono (h.toWellformed.writeBlock hdir _ _) ?_ (fun _ hm => hm)
  rintro ⟨i, s⟩ m ⟨hu, hreg, hm, h0⟩
  refine ⟨hu, hreg, ?_, h0⟩
  rw [← hm]
  refine (behind_congr fun hne => writeBlock_block_of_ne _ _ fun hc => ?_) s |>.symm
  exact hind i ⟨hu, hreg, hc, hc ▸ hne⟩

theorem Holds.cases (h : v.Holds geo (i, n) k) :
    (n < directBlksNum ∧ v.Owns (i, n) k) ∨
      (¬ n < directBlksNum ∧ v.Behind geo (i, some (n - directBlksNum)) k) := by
  obtain ⟨hu, hreg, hk, h0⟩ := h
  unfold mapped at hk
  split_ifs at hk with hn
  · exact Or.inl ⟨hn, hu, hk, h0⟩
  · exact Or.inr ⟨hn, hu, hreg, hk, h0⟩

theorem Deep.holds_unique (h : v.Deep geo) : LeftUnique (v.Holds geo) := by
  rintro ⟨i, n⟩ ⟨j, m⟩ k hi hj
  rcases hi.cases with ⟨-, hi⟩ | ⟨hn, hi⟩ <;> rcases hj.cases with ⟨-, hj⟩ | ⟨hm, hj⟩
  · exact h.excl hi hj
  · exact absurd hi ((h.behindLeaked _ _ hj).2 _)
  · exact absurd hj ((h.behindLeaked _ _ hi).2 _)
  · obtain ⟨rfl, hs⟩ := Prod.mk.inj (h.behindUnique hi hj)
    have hs := Option.some.inj hs
    rw [Prod.mk.injEq]
    exact ⟨rfl, by omega⟩

theorem Deep.not_indirect (h : v.Deep geo) (hi : v.Holds geo (i, n) k) :
    ¬ v.Behind geo (j, none) k := by
  intro hj
  rcases hi.cases with ⟨-, hi⟩ | ⟨-, hi⟩
  · exact (h.behindLeaked _ _ hj).2 _ hi
  · cases congrArg Prod.snd (h.behindUnique hi hj)

/-- A write in progress, with the whole map of its file. -/
def Bears (geo : Geometry) (i : ChisaiSize) (v : Volume) (x : Inode) : Prop :=
  (v.setInode i x).Deep geo ∧ i ∈ v.inodeUsed ∧ sIsreg x.mode

theorem Bears.carries (h : Bears geo i v x) : Carries i v x := ⟨h.1.toWellformed, h.2⟩

theorem Bears.behind (h : Bears geo i v x) (h0 : v.behind geo x s ≠ 0) :
    (v.setInode i x).Behind geo (i, s) (v.behind geo x s) := by
  have hsame := setInode_inode_same (v := v) (i := i) x
  refine ⟨h.2.1, ?_, ?_, h0⟩
  · rw [hsame]
    exact h.2.2
  · rw [hsame]
    exact behind_congr (fun _ => rfl) s

theorem Bears.leaked (h : Bears geo i v x) (h0 : v.behind geo x s ≠ 0) :
    v.behind geo x s ∈ (v.setInode i x).leaked :=
  h.1.behindLeaked _ _ (h.behind h0)

theorem Bears.owns (h : Bears geo i v x) (h0 : x.blk n ≠ 0) :
    (v.setInode i x).Owns (i, n) (x.blk n) :=
  ⟨h.2.1, by rw [setInode_inode_same], h0⟩

theorem Bears.used (h : Bears geo i v x) (h0 : v.mapped geo x n ≠ 0) :
    v.mapped geo x n ∈ v.dataUsed := by
  unfold mapped at h0 ⊢
  split_ifs at h0 ⊢ with hn
  · exact h.1.marked _ _ (h.owns h0)
  · exact (h.leaked h0).1

theorem Bears.indirect_used (h : Bears geo i v x) (h0 : x.indirectBlk ≠ 0) :
    x.indirectBlk ∈ v.dataUsed :=
  (h.leaked (s := none) h0).1

theorem Bears.holds (h : Bears geo i v x) (h0 : v.mapped geo x n ≠ 0) :
    (v.setInode i x).Holds geo (i, n) (v.mapped geo x n) := by
  have hsame := setInode_inode_same (v := v) (i := i) x
  refine ⟨h.2.1, ?_, ?_, h0⟩
  · rw [hsame]
    exact h.2.2
  · rw [hsame]
    exact mapped_congr fun _ => rfl

theorem Bears.not_indirect (h : Bears geo i v x) (h0 : v.mapped geo x n ≠ 0) :
    ¬ (v.setInode i x).Behind geo (j, none) (v.mapped geo x n) :=
  h.1.not_indirect (h.holds h0)

theorem Bears.mapped_ne_indirect (h : Bears geo i v x) (h0 : v.mapped geo x n ≠ 0)
    (hi : x.indirectBlk ≠ 0) : v.mapped geo x n ≠ x.indirectBlk := by
  intro he
  refine h.not_indirect (j := i) h0 ?_
  rw [he]
  exact h.behind (s := none) hi

/-- A block of the file is stored in. -/
theorem Bears.own (h : Bears geo i v x) (h0 : v.mapped geo x n ≠ 0) :
    Bears geo i (v.writeBlock (v.mapped geo x n) off bs) x := by
  refine ⟨?_, h.2⟩
  refine h.1.writeBlock ?_ fun j => h.not_indirect h0
  by_cases hn : n < directBlksNum
  · rw [mapped_of_lt hn] at h0 ⊢
    refine h.1.dir_ne_of_owns (h.owns h0) ?_
    rintro ⟨-, hm⟩
    rw [setInode_inode_same] at hm
    exact not_sIsdir_of_sIsreg h.2.2 hm
  · rw [mapped_of_ge hn] at h0 ⊢
    exact h.1.dir_ne (h.leaked h0)

theorem Bears.mapped_own (h : Bears geo i v x) (h0 : v.mapped geo x n ≠ 0) :
    (v.writeBlock (v.mapped geo x n) off bs).mapped geo x m = v.mapped geo x m :=
  mapped_congr fun hi => writeBlock_block_of_ne _ _ (h.mapped_ne_indirect h0 hi).symm

theorem Bears.store (h : Bears geo i v x) (size : Int64) :
    (v.setInode i (inodeSetSize x size)).Deep geo := by
  refine h.1.mono (h.carries.store size) ?_ (leaked_store size)
  rintro ⟨j, s⟩ m ⟨hu, hreg, hm, h0⟩
  by_cases hj : j = i
  · subst hj
    rw [setInode_inode_same] at hreg hm
    refine ⟨hu, ?_, ?_, h0⟩
    · rw [setInode_inode_same]
      exact hreg
    · rw [setInode_inode_same, ← hm]
      exact (behind_inode rfl s).symm
  · rw [setInode_inode_of_ne _ hj] at hreg hm
    refine ⟨hu, ?_, ?_, h0⟩
    · rwa [setInode_inode_of_ne _ hj]
    · rw [setInode_inode_of_ne _ hj]
      exact hm

theorem Deep.below (h : v.Deep geo) (hi : i ∈ v.inodeUsed) (hreg : sIsreg (v.inode i).mode)
    (hb : x.Below (v.inode i)) : Bears geo i v x := by
  have howns : ∀ a k, (v.setInode i x).Owns a k → v.Owns a k := by
    rintro ⟨j, n⟩ k ⟨hj, hk, h0⟩
    refine ⟨hj, ?_, h0⟩
    by_cases he : j = i
    · subst he
      rw [setInode_inode_same] at hk
      exact (hb.blk n (hk ▸ h0)).trans hk
    · rwa [setInode_inode_of_ne x he] at hk
  refine ⟨h.mono ?_ ?_ (leaked_of_same rfl howns), hi, by rw [hb.mode]; exact hreg⟩
  · exact h.toWellformed.setFile hi hreg hb.mode rfl rfl rfl
      ⟨fun a k ha => h.marked a k (howns a k ha), leftUnique_mono h.excl howns⟩
  · rintro ⟨j, s⟩ k ⟨hj, hj', hk, h0⟩
    by_cases he : j = i
    · subst he
      rw [setInode_inode_same] at hk
      have hind := hb.indirectBlk (indirectBlk_ne_of_behind (hk.trans_ne h0))
      exact ⟨hj, hreg, (behind_inode hind s).trans hk, h0⟩
    · rw [setInode_inode_of_ne x he] at hj' hk
      exact ⟨hj, hj', hk, h0⟩

end Deep

/-! How a write maps another block. -/

/-- Block number `n` of a file gets block `k`: in the inode, in its indirect block, or in a new
indirect block. -/
inductive Maps (geo : Geometry) (n : ℕ) (k : ChisaiSize) (v : Volume) (x : Inode) :
    Volume → Inode → Prop
  | direct (hn : n < directBlksNum) (hk : k ∉ v.dataUsed) :
      Maps geo n k v x (v.useData k) (x.setBlk n k)
  | entry (hn : ¬ n < directBlksNum) (hlt : n < geo.blkLimit) (h0 : x.indirectBlk ≠ 0)
      (hk : k ∉ v.dataUsed) :
      Maps geo n k v x
        ((v.useData k).writeBlock x.indirectBlk ((n - directBlksNum) * 4) (u32.enc k)) x
  | created {j : ChisaiSize} (hn : ¬ n < directBlksNum) (hlt : n < geo.blkLimit)
      (h0 : x.indirectBlk = 0) (hj0 : j ≠ 0) (hj : j ∉ v.dataUsed) (hk : k ∉ insert j v.dataUsed) :
      Maps geo n k v x
        ((((v.useData j).writeBlock j 0 (List.replicate (geo.blkSize / 4 * 4) 0)).useData
          k).writeBlock j ((n - directBlksNum) * 4) (u32.enc k)) { x with indirectBlk := j }

section Mapping

variable {geo : Geometry} {v w v' : Volume} {x y x' : Inode} {i j k : ChisaiSize} {m n off : ℕ}
  {bs : List UInt8} {s : Option ℕ}

theorem Bears.direct (h : Bears geo i v x) (hn : n < directBlksNum) (hk : k ∉ v.dataUsed) :
    Bears geo i (v.useData k) (x.setBlk n k) := by
  have hc := h.carries.map hn hk
  refine ⟨h.1.mono hc.1 ?_ (h.carries.leaked_map hn hk), hc.2⟩
  rintro ⟨j, s⟩ m ⟨hu, hreg, hm, h0⟩
  by_cases hj : j = i
  · subst hj
    rw [setInode_inode_same] at hm
    refine ⟨hu, ?_, ?_, h0⟩
    · rw [setInode_inode_same]
      exact h.2.2
    · rw [setInode_inode_same, ← hm]
      exact (behind_inode (Inode.setBlk_indirectBlk x n k) s).symm
  · rw [setInode_inode_of_ne _ hj] at hreg hm
    refine ⟨hu, ?_, ?_, h0⟩
    · rwa [setInode_inode_of_ne _ hj]
    · rw [setInode_inode_of_ne _ hj]
      exact hm

/-- A file gets a cleared indirect block. -/
theorem Bears.attach (h : Bears geo i v x) (hj : j ∉ v.dataUsed) : Bears geo i
      ((v.useData j).writeBlock j 0 (List.replicate (geo.blkSize / 4 * 4) 0))
      { x with indirectBlk := j } := by
  have hsame := setInode_inode_same (v := v) (i := i) x
  have hresize : (v.setInode i { x with indirectBlk := j }).Wellformed := by
    have hr := h.1.resize (x := { x with indirectBlk := j }) (i := i) h.2.1
      (by rw [hsame]; exact h.2.2) (by rw [hsame]) (fun n => by rw [hsame]; rfl)
    rwa [setInode_setInode] at hr
  have hwell : (((v.setInode i { x with indirectBlk := j }).writeBlock j 0
      (List.replicate (geo.blkSize / 4 * 4) 0)).useData j).Wellformed :=
    (hresize.writeBlock (hresize.dir_ne_of_free hj) _ _).useData j
  have howns : ∀ a m, (v.setInode i { x with indirectBlk := j }).Owns a m →
      (v.setInode i x).Owns a m := by
    rintro ⟨l, n⟩ m ⟨hl, hm, hm0⟩
    refine ⟨hl, ?_, hm0⟩
    by_cases he : l = i
    · subst he
      rw [setInode_inode_same] at hm ⊢
      exact hm
    · rwa [setInode_inode_of_ne _ he] at hm ⊢
  refine ⟨h.1.insert (a := (i, none)) hwell hj ?_ ?_ ?_, h.2⟩
  · rintro ⟨l, s⟩ m ⟨hu, hreg, hm, hm0⟩
    by_cases he : l = i
    · subst he
      right
      change Volume.behind _ geo ((v.setInode l { x with indirectBlk := j }).inode l) s = m at hm
      rw [setInode_inode_same] at hm
      cases s with
      | none => exact ⟨rfl, hm.symm⟩
      | some n =>
        rw [behind_entry] at hm
        split_ifs at hm with hlt
        · rw [← hm] at hm0
          exact absurd (entry_cleared hlt.2) hm0
        · exact absurd hm.symm hm0
    · left
      change sIsreg ((v.setInode i { x with indirectBlk := j }).inode l).mode at hreg
      change Volume.behind _ geo ((v.setInode i { x with indirectBlk := j }).inode l) s = m at hm
      rw [setInode_inode_of_ne _ he] at hreg hm
      have hl : (v.setInode i x).inode l = v.inode l := setInode_inode_of_ne _ he
      have hind : (v.inode l).indirectBlk ≠ 0 :=
        indirectBlk_ne_of_behind (hm.trans_ne hm0)
      have hold : (v.setInode i x).Behind geo (l, none) (v.inode l).indirectBlk :=
        ⟨hu, by rw [hl]; exact hreg, by rw [hl]; rfl, hind⟩
      have hne : (v.inode l).indirectBlk ≠ j :=
        ne_of_mem_of_not_mem (h.1.behindLeaked _ _ hold).1 hj
      refine ⟨hu, by rw [hl]; exact hreg, ?_, hm0⟩
      rw [hl, ← hm]
      exact (behind_congr (fun _ => writeBlock_block_of_ne _ _ hne) s).symm
  · exact stray_subset (fun m hm hn => absurd (Set.mem_insert_of_mem j hm) hn)
      fun a m ha => Or.inl ⟨a, howns a m ha⟩
  · exact ⟨Set.mem_insert j _, fun a ha => hj (h.1.marked a j (howns a j ha))⟩

theorem Bears.enter (h : Bears geo i v x) (h0 : x.indirectBlk ≠ 0) (hk : k ∉ v.dataUsed) :
    Bears geo i ((v.useData k).writeBlock x.indirectBlk (n * 4) (u32.enc k)) x := by
  have hj : x.indirectBlk ∈ (v.setInode i x).leaked := h.leaked (s := none) h0
  have hsame := setInode_inode_same (v := v) (i := i) x
  have hwell : (((v.setInode i x).writeBlock x.indirectBlk (n * 4) (u32.enc k)).useData
      k).Wellformed := (h.1.toWellformed.writeBlock (h.1.dir_ne hj) _ _).useData k
  refine ⟨h.1.insert (a := (i, some n)) hwell hk ?_ ?_ ?_, h.2⟩
  · rintro ⟨l, s⟩ m ⟨hu, hreg, hm, hm0⟩
    change sIsreg ((v.setInode i x).inode l).mode at hreg
    change Volume.behind _ geo ((v.setInode i x).inode l) s = m at hm
    by_cases he : l = i
    · subst he
      rw [hsame] at hm
      cases s with
      | none => exact Or.inl ⟨hu, hreg, by rw [hsame]; exact hm, hm0⟩
      | some q =>
        have hold : ∀ c, Volume.behind (v.setInode l x) geo x (some q) = c →
            c ≠ 0 → (v.setInode l x).Behind geo (l, some q) c :=
          fun c hc hc0 => ⟨hu, hreg, by rw [hsame]; exact hc, hc0⟩
        rw [behind_entry] at hm
        split_ifs at hm with hlt
        · have hentry : (((v.useData k).writeBlock x.indirectBlk (n * 4) (u32.enc k)).setInode l
              x).entry x.indirectBlk q = if q = n then k else v.entry x.indirectBlk q :=
            entry_store (v := v.useData k)
          rw [hentry] at hm
          split_ifs at hm with hq
          · exact Or.inr ⟨by rw [hq], hm.symm⟩
          · exact Or.inl (hold m (by rw [behind_some hlt.1 hlt.2]; exact hm) hm0)
        · exact absurd hm.symm hm0
    · have hind : ((v.setInode i x).inode l).indirectBlk ≠ 0 :=
        indirectBlk_ne_of_behind (hm.trans_ne hm0)
      have hne : ((v.setInode i x).inode l).indirectBlk ≠ x.indirectBlk := by
        intro hc
        have ha := h.1.behindUnique (a := (l, none)) (b := (i, none)) (c := x.indirectBlk)
          ⟨hu, hreg, hc, h0⟩ (h.behind (s := none) h0)
        exact he (congrArg Prod.fst ha)
      refine Or.inl ⟨hu, hreg, ?_, hm0⟩
      rw [← hm]
      exact (behind_congr (fun _ => writeBlock_block_of_ne _ _ hne) s).symm
  · exact stray_subset (fun m hm hn => absurd (Set.mem_insert_of_mem k hm) hn)
      fun a m ha => Or.inl ⟨a, ha⟩
  · exact ⟨Set.mem_insert k _, fun a ha => hk (h.1.marked a k ha)⟩

theorem Maps.bears (hm : Maps geo n k v x v' x') (h : Bears geo i v x) : Bears geo i v' x' := by
  cases hm with
  | direct hn hk => exact h.direct hn hk
  | entry hn hlt h0 hk => exact h.enter h0 hk
  | @created j hn hlt h0 hj0 hj hk =>
    exact (h.attach hj).enter (x := { x with indirectBlk := j }) hj0 hk

theorem Maps.mapped_same (hm : Maps geo n k v x v' x') : v'.mapped geo x' n = k := by
  have hlim : n < geo.blkLimit → ¬ n < directBlksNum → n - directBlksNum < geo.blkSize / 4 := by
    unfold Geometry.blkLimit
    omega
  cases hm with
  | direct hn hk => rw [mapped_of_lt hn, Inode.blk_setBlk_same hn]
  | entry hn hlt h0 hk =>
    rw [mapped_of_ge hn, behind_some h0 (hlim hlt hn), entry_store, if_pos rfl]
  | created hn hlt h0 hj0 hj hk =>
    rw [mapped_of_ge hn, behind_some hj0 (hlim hlt hn), entry_store, if_pos rfl]

theorem Maps.mapped_of_ne (hm : Maps geo n k v x v' x') (hne : m ≠ n) :
    v'.mapped geo x' m = v.mapped geo x m := by
  cases hm with
  | direct hn hk =>
    unfold Volume.mapped
    split_ifs with hlt
    · rw [Inode.blk_setBlk_of_ne hne]
    · exact behind_inode (Inode.setBlk_indirectBlk x n k) _
  | entry hn hlt h0 hk =>
    unfold Volume.mapped
    split_ifs with hmlt
    · rfl
    · rw [behind_entry, behind_entry]
      split_ifs with hc
      · rw [entry_store, if_neg (by omega)]
        rfl
      · rfl
  | created hn hlt h0 hj0 hj hk =>
    unfold Volume.mapped
    split_ifs with hmlt
    · rfl
    · rw [behind_zero h0, behind_entry]
      split_ifs with hc
      · rw [entry_store, if_neg (by omega)]
        exact entry_cleared hc.2
      · rfl

theorem Maps.fresh (hm : Maps geo n k v x v' x') : k ∉ v.dataUsed := by
  cases hm with
  | direct _ hk => exact hk
  | entry _ _ _ hk => exact hk
  | created _ _ _ _ _ hk => exact fun hc => hk (Set.mem_insert_of_mem _ hc)

theorem Maps.used (hm : Maps geo n k v x v' x') : v.dataUsed ⊆ v'.dataUsed := by
  cases hm with
  | direct hn hk => exact Set.subset_insert k _
  | entry hn hlt h0 hk => exact Set.subset_insert k _
  | created hn hlt h0 hj0 hj hk => exact (Set.subset_insert _ _).trans (Set.subset_insert _ _)

theorem Maps.inode (hm : Maps geo n k v x v' x') :
    v'.inode = v.inode ∧ v'.inodeUsed = v.inodeUsed := by
  cases hm <;> exact ⟨rfl, rfl⟩

theorem Maps.block (hm : Maps geo n k v x v' x') (hj : j ≠ x'.indirectBlk) :
    v'.block j = v.block j := by
  cases hm with
  | direct hn hk => rfl
  | entry hn hlt h0 hk => exact writeBlock_block_of_ne _ _ hj
  | created hn hlt h0 hj0 _ hk =>
    rw [writeBlock_block_of_ne _ _ hj]
    exact writeBlock_block_of_ne _ _ hj

theorem Maps.block_direct (hm : Maps geo n k v x v' x') (h0 : x'.indirectBlk = 0) :
    v'.block = v.block := by
  cases hm with
  | direct => rfl
  | entry _ _ hne => exact absurd h0 hne
  | created _ _ _ hne => exact absurd h0 hne

theorem Maps.indirectBlk (hm : Maps geo n k v x v' x') :
    (x.indirectBlk ≠ 0 → x'.indirectBlk = x.indirectBlk) ∧
      (x.indirectBlk = 0 → x'.indirectBlk ∉ v.dataUsed ∨ x'.indirectBlk = 0) ∧
      (¬ n < directBlksNum → x'.indirectBlk ≠ 0) := by
  cases hm with
  | direct hn hk =>
    rw [Inode.setBlk_indirectBlk]
    exact ⟨fun _ => rfl, Or.inr, fun hc => absurd hn hc⟩
  | entry hn hlt h0 hk => exact ⟨fun _ => rfl, fun h => absurd h h0, fun _ => h0⟩
  | created hn hlt h0 hj0 hj hk => exact ⟨fun h => absurd h0 h, fun _ => Or.inl hj, fun _ => hj0⟩

end Mapping

end Volume

section Operations

variable {geo : Geometry} {fs fs' : Filesystem}

theorem FreshFile.bears {file : FileInfo} (hm : Mounted geo fs) (h : (volume geo fs).Deep geo)
    (hf : FreshFile fs file) : Volume.Bears geo file.idx (volume geo fs) file.inode := by
  obtain ⟨hu, hinode, hreg⟩ := (FreshFile.iff hm).mp hf
  refine ⟨?_, hu, hreg⟩
  rw [← hinode, Volume.setInode_self]
  exact h

theorem freshMount_deep (h : freshMount geo = .ok fs) :
    Mounted geo fs ∧ (volume geo fs).Deep geo := by
  obtain ⟨hm, -, hw⟩ := freshMount_spec h
  refine ⟨hm, hw, fun a k ha => ?_, fun a b k ha => ?_⟩
  · exact absurd ha.2.1 (freshMount_not_regular h ha.1)
  · exact absurd ha.2.1 (freshMount_not_regular h ha.1)

theorem Op.step_deep (hm : Mounted geo fs) (h : (volume geo fs).Deep geo) {op : Op}
    (hl : op.Lawful fs) (hw : ∀ file buf off, op ≠ .write file buf off)
    (hs : op.step fs = .ok fs') : (volume geo fs').Deep geo := by
  have hwell := (Op.step_wellformed hm h.toWellformed hl hs).2
  refine h.mono hwell ?_ (op.step_leaked hm h.toWellformed hl hs)
  rintro ⟨i, s⟩ k ⟨hu, hreg, hk, h0⟩
  have hold : ∀ {y : Inode}, (volume geo fs).inode i = y → i ∈ (volume geo fs).inodeUsed →
      sIsreg y.mode → ((volume geo fs').inode i).indirectBlk = y.indirectBlk →
      (volume geo fs).Behind geo (i, s) k := by
    rintro y rfl hu hreg hi
    rw [Volume.behind_inode hi] at hk
    have hind : (volume geo fs).Behind geo (i, none) ((volume geo fs).inode i).indirectBlk :=
      ⟨hu, hreg, rfl, Volume.indirectBlk_ne_of_behind (hk.trans_ne h0)⟩
    refine ⟨hu, hreg, ?_, h0⟩
    rw [← hk]
    exact (Volume.behind_congr (fun _ =>
      op.step_block hm hw hs (h.behindLeaked _ _ hind)) s).symm
  cases Op.step_leaves hm hs hu hreg with
  | same hu hi => exact hold rfl hu (hi ▸ hreg) (by rw [hi])
  | new hi =>
    rw [Volume.behind_zero (by rw [hi]; rfl)] at hk
    exact absurd hk.symm h0
  | wrote => exact absurd rfl (hw _ _ _)
  | @cut inode size r file' he hi =>
    obtain ⟨hu, hinode, hreg⟩ := (FreshFile.iff hm).mp hl
    obtain ⟨-, -, v, x, hsteps, rfl, -⟩ := fsTruncateFile_eq_ok hm he
    exact hold hinode hu hreg (by rw [hi]; exact shrink_indirectBlk hsteps)

end Operations

end ChisaiFs
