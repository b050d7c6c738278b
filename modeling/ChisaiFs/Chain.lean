import ChisaiFs.Passes

/-! The passes of a write one after the other, and how far they get: each takes from the
allocator's room what the block numbers in front of it still lack. -/

namespace ChisaiFs
open Cells Words Outcome Recorded

namespace Volume

/-- The unmapped block numbers of a file from `a` on, below `c`. -/
def holes (v : Volume) (geo : Geometry) (x : Inode) (a c : ℕ) : ℕ :=
  ((Finset.Ico a c).filter fun n => v.mapped geo x n = 0).card

/-- The blocks that the allocator has to give out for them, with one for an indirect block. -/
def demand (v : Volume) (geo : Geometry) (x : Inode) (a c : ℕ) : ℕ :=
  v.holes geo x a c + if x.indirectBlk = 0 ∧ a < c ∧ directBlksNum < c then 1 else 0

section Holes

variable {geo : Geometry} {v w : Volume} {x y : Inode} {a c : ℕ}

theorem holes_succ (h : a < c) :
    v.holes geo x a c = (if v.mapped geo x a = 0 then 1 else 0) + v.holes geo x (a + 1) c := by
  have hsplit : Finset.Ico a c = insert a (Finset.Ico (a + 1) c) := by
    ext n
    rw [Finset.mem_insert, Finset.mem_Ico, Finset.mem_Ico]
    omega
  unfold holes
  rw [hsplit, Finset.filter_insert]
  split_ifs with h0
  · rw [Finset.card_insert_of_notMem, Nat.add_comm]
    simp
  · rw [Nat.zero_add]

theorem holes_of_le (h : c ≤ a) : v.holes geo x a c = 0 := by
  unfold holes
  rw [Finset.Ico_eq_empty_of_le h]
  rfl

theorem holes_congr (h : ∀ n, a ≤ n → w.mapped geo y n = v.mapped geo x n) :
    w.holes geo y a c = v.holes geo x a c := by
  unfold holes
  congr 1
  refine Finset.filter_congr fun n hn => ?_
  rw [h n (Finset.mem_Ico.mp hn).1]

theorem demand_of_le (h : c ≤ a) : v.demand geo x a c = 0 := by
  rw [demand, holes_of_le h, if_neg (by omega)]

theorem demand_pos (h : a < c) (h0 : v.mapped geo x a = 0) : 0 < v.demand geo x a c := by
  rw [demand, holes_succ h, if_pos h0]
  omega

end Holes

end Volume

section Positions

variable {geo : Geometry} {p q off k n : ℕ}

theorem div_lt_ceilBlk (h : p < q) : p / geo.blkSize < ceilBlk geo q := by
  have hpos := geo.blkSize_pos
  have hle := Nat.div_mul_le_self p geo.blkSize
  refine (Nat.le_div_iff_mul_le hpos).mpr ?_
  rw [Nat.succ_mul]
  omega

theorem ceilBlk_le (h : q ≤ n * geo.blkSize) : ceilBlk geo q ≤ n := by
  have hpos := geo.blkSize_pos
  refine Nat.lt_succ_iff.mp ((Nat.div_lt_iff_lt_mul hpos).mpr ?_)
  rw [Nat.succ_mul]
  omega

theorem ceilBlk_mul (n : ℕ) : ceilBlk geo (n * geo.blkSize) = n := by
  have hpos := geo.blkSize_pos
  unfold ceilBlk
  rw [Nat.mul_comm, Nat.add_sub_assoc hpos, Nat.mul_add_div hpos, Nat.div_eq_of_lt (by omega),
    Nat.add_zero]

/-- All positions of one block have the same number. -/
theorem ceilBlk_same (hp : p < q) (hq : q ≤ (p / geo.blkSize + 1) * geo.blkSize) :
    ceilBlk geo q = p / geo.blkSize + 1 :=
  le_antisymm (ceilBlk_le hq) (div_lt_ceilBlk hp)

theorem Geometry.mod_span_add (hlt : off % geo.span + k < geo.span) :
    (off + k) % geo.span = off % geo.span + k := by
  rw [← Nat.mod_add_mod, Nat.mod_eq_of_lt hlt]

theorem Geometry.direct_lt_max (geo : Geometry) :
    directBlksNum * geo.blkSize + geo.blkSize ≤ geo.maxFileSize := by
  have hmin := geo.min_size
  rw [← Nat.succ_mul]
  exact Nat.mul_le_mul_right _ (show 12 + 1 ≤ 12 + geo.blkSize / 4 by omega)

theorem Geometry.lt_blkLimit_iff : p / geo.blkSize < geo.blkLimit ↔ p < geo.maxFileSize :=
  Nat.div_lt_iff_lt_mul geo.blkSize_pos

end Positions

/-- A pass of a write that stores. -/
inductive Pass (geo : Geometry) (i : ChisaiSize) (buf : List UInt8) (s s' : WriteState) : Prop
  | mid (hu : Underway geo i buf s) (hlt : s.total < buf.length)
      (hlim : s.off % geo.span < geo.maxFileSize)
      (hs : Stores geo i buf (s.off % geo.span / geo.blkSize) s s')
  | past {m : ℕ} (hu : Underway geo i buf s) (hlt : s.total < buf.length)
      (hge : geo.maxFileSize ≤ s.off % geo.span) (hlast : s.blkIdx ≠ none)
      (h0 : (volume geo s.fs).mapped geo s.inode m ≠ 0) (hs : Stores geo i buf m s s')

abbrev Passes (geo : Geometry) (i : ChisaiSize) (buf : List UInt8) :
    WriteState → WriteState → Prop :=
  Relation.ReflTransGen (Pass geo i buf)

section Passes

variable {geo : Geometry} {i k : ChisaiSize} {buf : List UInt8} {s t u : WriteState}
  {m n q c j : ℕ}

theorem Pass.underway (h : Pass geo i buf s t) : Underway geo i buf s ∧ Underway geo i buf t := by
  cases h with
  | mid hu _ _ hs => exact ⟨hu, hs.underway⟩
  | past hu _ _ _ _ hs => exact ⟨hu, hs.underway⟩

theorem Pass.stores (h : Pass geo i buf s t) : ∃ n, Stores geo i buf n s t := by
  cases h with
  | mid _ _ _ hs => exact ⟨_, hs⟩
  | past _ _ _ _ _ hs => exact ⟨_, hs⟩

theorem Pass.lt (h : Pass geo i buf s t) : s.total < buf.length := by
  cases h <;> assumption

theorem Pass.total (h : Pass geo i buf s t) :
    t.total = s.total + (s.piece geo buf).length ∧ t.off = s.off + (s.piece geo buf).length := by
  obtain ⟨n, hs⟩ := h.stores
  exact ⟨hs.total, hs.off⟩

theorem Pass.mid_stores (h : Pass geo i buf s t) (hlim : s.off % geo.span < geo.maxFileSize) :
    Stores geo i buf (s.off % geo.span / geo.blkSize) s t := by
  cases h with
  | mid _ _ _ hs => exact hs
  | past _ _ hge => omega

/-- Where a pass ends that starts at position `p` of the file: at the next block, or with the
write. -/
theorem WriteState.piece_end (geo : Geometry) (buf : List UInt8) (s : WriteState) {p : ℕ}
    (hp : s.off % geo.span = p) :
    p + (s.piece geo buf).length ≤ (p / geo.blkSize + 1) * geo.blkSize ∧
      (p + (s.piece geo buf).length = (p / geo.blkSize + 1) * geo.blkSize ∨
        s.total + (s.piece geo buf).length = buf.length ∨ buf.length ≤ s.total) := by
  have hlen := s.piece_length geo buf
  have hmod : s.off % geo.blkSize = p % geo.blkSize := by
    rw [← hp, geo.mod_span]
  have hdiv := Nat.div_add_mod p geo.blkSize
  have hlt := Nat.mod_lt p geo.blkSize_pos
  rw [hmod] at hlen
  rw [Nat.succ_mul, Nat.mul_comm]
  omega

theorem Passes.underway (h : Passes geo i buf s t) (hu : Underway geo i buf s) :
    Underway geo i buf t := by
  induction h with
  | refl => exact hu
  | tail _ hp _ => exact hp.underway.2

theorem Passes.off (h : Passes geo i buf s t) : t.off + s.total = s.off + t.total := by
  induction h with
  | refl => rfl
  | tail _ hp ih =>
    have htotal := hp.total
    omega

theorem Passes.total_le (h : Passes geo i buf s t) : s.total ≤ t.total := by
  induction h with
  | refl => exact le_refl _
  | tail _ hp ih =>
    have htotal := hp.total
    omega

theorem Passes.eq_of_total (h : Passes geo i buf s t) (ht : t.total = s.total) : t = s := by
  rcases Relation.ReflTransGen.cases_tail h with rfl | ⟨u, hrun, hp⟩
  · rfl
  · have hle := Passes.total_le hrun
    have htotal := hp.total.1
    have hpiece := u.piece_pos geo hp.lt
    omega

theorem Passes.pos (h : Passes geo i buf s t) (hz : s.total = 0)
    (hlt : s.off % geo.span + t.total < geo.span) :
    t.off % geo.span = s.off % geo.span + t.total := by
  have hoff := h.off
  rw [hz, Nat.add_zero] at hoff
  rw [hoff, Geometry.mod_span_add hlt]

theorem Passes.mid (h : Passes geo i buf s t) (hz : s.total = 0) (hp : Pass geo i buf t u)
    (hlim : s.off % geo.span + t.total < geo.maxFileSize) :
    t.off % geo.span = s.off % geo.span + t.total ∧
      Stores geo i buf ((s.off % geo.span + t.total) / geo.blkSize) t u := by
  have hspan := geo.max_lt_span
  have hpos := h.pos hz (by omega)
  refine ⟨hpos, ?_⟩
  rw [← hpos]
  exact hp.mid_stores (by rw [hpos]; exact hlim)

theorem Passes.mapped_kept (h : Passes geo i buf s t) :
    (volume geo s.fs).mapped geo s.inode m ≠ 0 →
      (volume geo t.fs).mapped geo t.inode m = (volume geo s.fs).mapped geo s.inode m := by
  intro h0
  induction h with
  | refl => rfl
  | tail _ hp ih =>
    obtain ⟨n, hs⟩ := hp.stores
    rw [hs.mapped_kept hp.underway.1 (by rw [ih]; exact h0), ih]

theorem Stores.inodes (hs : Stores geo i buf n s t) :
    (volume geo t.fs).inode = (volume geo s.fs).inode ∧
      (volume geo t.fs).inodeUsed = (volume geo s.fs).inodeUsed := by
  obtain ⟨k, v, ht, -, hv⟩ := hs.target
  rw [hv]
  exact ht.inode

theorem Stores.used (hs : Stores geo i buf n s t) :
    (volume geo s.fs).dataUsed ⊆ (volume geo t.fs).dataUsed := by
  obtain ⟨k, v, ht, -, hv⟩ := hs.target
  rw [hv, Volume.writeBlock_dataUsed]
  exact ht.used

theorem Passes.inodes (h : Passes geo i buf s t) :
    (volume geo t.fs).inode = (volume geo s.fs).inode ∧
      (volume geo t.fs).inodeUsed = (volume geo s.fs).inodeUsed := by
  induction h with
  | refl => exact ⟨rfl, rfl⟩
  | tail _ hp ih =>
    obtain ⟨n, hs⟩ := hp.stores
    exact ⟨hs.inodes.1.trans ih.1, hs.inodes.2.trans ih.2⟩

theorem Passes.used (h : Passes geo i buf s t) :
    (volume geo s.fs).dataUsed ⊆ (volume geo t.fs).dataUsed := by
  induction h with
  | refl => exact subset_rfl
  | tail _ hp ih =>
    obtain ⟨n, hs⟩ := hp.stores
    exact ih.trans hs.used

theorem Passes.fills (h : Passes geo i buf s t) : Fills geo s.fs t.fs := by
  induction h with
  | refl => exact .refl
  | tail _ hp ih =>
    obtain ⟨n, hs⟩ := hp.stores
    exact ih.trans hs.fills

theorem Passes.primed (h : Passes geo i buf s t) : t.fs.DataPrimed ↔ s.fs.DataPrimed := by
  induction h with
  | refl => exact Iff.rfl
  | tail _ hp ih =>
    obtain ⟨n, hs⟩ := hp.stores
    exact hs.primed.trans ih

theorem Stores.below (hs : Stores geo i buf n s t) : s.inode.Below t.inode := by
  obtain ⟨k, v, ht, -⟩ := hs.target
  exact ht.below

theorem Passes.below (h : Passes geo i buf s t) : s.inode.Below t.inode := by
  induction h with
  | refl => exact .refl _
  | tail _ hp ih =>
    obtain ⟨n, hs⟩ := hp.stores
    exact ih.trans hs.below

theorem Passes.indirectBlk_fresh (h : Passes geo i buf s t) (h0 : s.inode.indirectBlk = 0) :
    t.inode.indirectBlk = 0 ∨ t.inode.indirectBlk ∉ (volume geo s.fs).dataUsed := by
  induction h with
  | refl => exact Or.inl h0
  | @tail u t hrun hp ih =>
    obtain ⟨n, hs⟩ := hp.stores
    by_cases hu : u.inode.indirectBlk = 0
    · obtain ⟨k, v, ht, -⟩ := hs.target
      exact (ht.indirectBlk_fresh hu).imp_right fun hk hused => hk (Passes.used hrun hused)
    · rw [hs.below.indirectBlk hu]
      exact ih

theorem Stores.reaches_self (hs : Stores geo i buf n s t) : t.inode.Reaches n := by
  obtain ⟨k, v, ht, -⟩ := hs.target
  exact ht.reaches

theorem Stores.demand (hs : Stores geo i buf n s t) (hu : Underway geo i buf s) (hn : n < c) :
    (volume geo s.fs).demand geo s.inode n c + t.fs.room =
      (volume geo t.fs).demand geo t.inode (n + 1) c + s.fs.room := by
  obtain ⟨k, v, ht, -, -⟩ := hs.target
  have hroom := hs.room
  have hrest : (volume geo t.fs).holes geo t.inode (n + 1) c =
      (volume geo s.fs).holes geo s.inode (n + 1) c :=
    Volume.holes_congr fun m hm => hs.mapped_of_ne hu (by omega)
  have hreaches := hs.reaches_self
  unfold Volume.demand
  rw [Volume.holes_succ hn, hrest]
  by_cases hi : s.inode.indirectBlk = 0
  · by_cases hdirect : n < directBlksNum
    · have hcost : s.inode.cost n = 1 := if_pos (Or.inl hdirect)
      have hi' := ht.indirectBlk_direct hdirect
      rw [hcost] at hroom
      rw [hi', hi]
      simp only [true_and]
      split_ifs at hroom ⊢ <;> omega
    · have hz : (volume geo s.fs).mapped geo s.inode n = 0 := by
        rw [Volume.mapped_of_ge hdirect, Volume.behind_zero hi]
      have hcost : s.inode.cost n = 2 := if_neg (not_or.mpr ⟨hdirect, not_not.mpr hi⟩)
      have hi' : t.inode.indirectBlk ≠ 0 := hreaches.resolve_left hdirect
      rw [if_pos hz, hcost] at hroom
      rw [if_pos hz, if_pos ⟨hi, hn, by omega⟩]
      simp only [hi', false_and, ↓reduceIte]
      omega
  · have hcost : s.inode.cost n = 1 := if_pos (Or.inr hi)
    have hi' := hs.below.indirectBlk hi
    rw [hcost] at hroom
    simp only [hi', hi, false_and, ↓reduceIte]
    split_ifs at hroom ⊢ <;> omega

theorem Pass.direct (hp : Pass geo i buf s t)
    (hn : s.off % geo.span / geo.blkSize < directBlksNum) :
    t.inode.indirectBlk = s.inode.indirectBlk ∧
      t.off % geo.span = s.off % geo.span + (s.piece geo buf).length ∧
      t.off % geo.span ≤ directBlksNum * geo.blkSize ∧
      (t.total < buf.length → t.off % geo.span / geo.blkSize = s.off % geo.span / geo.blkSize + 1 ∧
        (volume geo s.fs).holes geo s.inode (s.off % geo.span / geo.blkSize) directBlksNum +
            t.fs.room =
          (volume geo t.fs).holes geo t.inode (s.off % geo.span / geo.blkSize + 1) directBlksNum +
            s.fs.room) := by
  have hmax := geo.direct_lt_max
  have hspan := geo.max_lt_span
  have hblk := geo.blkSize_pos
  have hlim : s.off % geo.span < geo.maxFileSize := by
    rw [Nat.div_lt_iff_lt_mul hblk] at hn
    omega
  obtain ⟨htotal, hoff⟩ := hp.total
  have hs := hp.mid_stores hlim
  have hlt := hp.lt
  obtain ⟨hle, hend⟩ := s.piece_end geo buf rfl
  have hsep := Geometry.group_sep hn geo.blkSize
  rw [Nat.succ_mul] at hle
  have hpos : t.off % geo.span = s.off % geo.span + (s.piece geo buf).length := by
    rw [hoff, Geometry.mod_span_add (by omega)]
  obtain ⟨k, v, ht, -⟩ := hs.target
  refine ⟨ht.indirectBlk_direct hn, hpos, by omega, fun hrest => ?_⟩
  have hnum : t.off % geo.span / geo.blkSize = s.off % geo.span / geo.blkSize + 1 := by
    rw [hpos, hend.resolve_right (by omega), Nat.mul_div_cancel _ hblk]
  have hcongr : (volume geo t.fs).holes geo t.inode (s.off % geo.span / geo.blkSize + 1)
      directBlksNum = (volume geo s.fs).holes geo s.inode (s.off % geo.span / geo.blkSize + 1)
      directBlksNum :=
    Volume.holes_congr fun m hm => hs.mapped_of_ne hp.underway.1 (by omega)
  have hroom := hs.room
  have hcost : s.inode.cost (s.off % geo.span / geo.blkSize) = 1 := if_pos (Or.inl hn)
  rw [hcost] at hroom
  rw [Volume.holes_succ hn, hcongr]
  exact ⟨hnum, by omega⟩

theorem Passes.demand (h : Passes geo i buf s t) (hz : s.total = 0)
    (hlt : s.off % geo.span + t.total < q) (hq : q ≤ geo.maxFileSize)
    (hlen : q ≤ s.off % geo.span + buf.length) :
    (volume geo s.fs).demand geo s.inode (s.off % geo.span / geo.blkSize) (ceilBlk geo q) +
        t.fs.room =
      (volume geo t.fs).demand geo t.inode ((s.off % geo.span + t.total) / geo.blkSize)
        (ceilBlk geo q) + s.fs.room := by
  induction h with
  | refl => rw [hz, Nat.add_zero]
  | @tail u t hrun hp ih =>
    obtain ⟨htotal, -⟩ := hp.total
    have hu := ih (by omega)
    obtain ⟨hpos, hs⟩ := Passes.mid hrun hz hp (by omega)
    have hstep := hs.demand hp.underway.1 (div_lt_ceilBlk (q := q) (by omega))
    have hlt' := hp.lt
    have hend := (u.piece_end geo buf hpos).2
    have hat : s.off % geo.span + t.total =
        ((s.off % geo.span + u.total) / geo.blkSize + 1) * geo.blkSize := by omega
    rw [hat, Nat.mul_div_cancel _ geo.blkSize_pos]
    omega

theorem Passes.demand_le (h : Passes geo i buf s t) (hz : s.total = 0)
    (hlt : s.off % geo.span < q) (hle : q ≤ s.off % geo.span + t.total)
    (hq : q ≤ geo.maxFileSize) (hlen : q ≤ s.off % geo.span + buf.length) :
    (volume geo s.fs).demand geo s.inode (s.off % geo.span / geo.blkSize) (ceilBlk geo q) ≤
      s.fs.room := by
  induction h with
  | refl => omega
  | @tail u t hrun hp ih =>
    by_cases hbefore : q ≤ s.off % geo.span + u.total
    · exact ih hbefore
    · obtain ⟨htotal, -⟩ := hp.total
      obtain ⟨hpos, hs⟩ := Passes.mid hrun hz hp (by omega)
      have hacc := Passes.demand hrun hz (not_le.mp hbefore) hq hlen
      have hend := (u.piece_end geo buf hpos).1
      rw [ceilBlk_same (p := s.off % geo.span + u.total) (by omega) (by omega)] at hacc ⊢
      have hstep := hs.demand hp.underway.1 (Nat.lt_add_one _)
      rw [Volume.demand_of_le (v := volume geo t.fs) (le_refl _)] at hstep
      omega

theorem Passes.reach_iff (h : Passes geo i buf s t) (hz : s.total = 0)
    (hlt : s.off % geo.span < q) (hq : q ≤ geo.maxFileSize)
    (hlen : q ≤ s.off % geo.span + buf.length)
    (hshort : t.total < buf.length →
      (volume geo t.fs).mapped geo t.inode (t.off % geo.span / geo.blkSize) = 0 ∧ t.fs.room = 0) :
    q ≤ s.off % geo.span + t.total ↔
      (volume geo s.fs).demand geo s.inode (s.off % geo.span / geo.blkSize) (ceilBlk geo q) ≤
        s.fs.room := by
  refine ⟨fun hreach => h.demand_le hz hlt hreach hq hlen, fun hdemand => ?_⟩
  by_contra hreach
  have hspan := geo.max_lt_span
  have hacc := h.demand hz (not_le.mp hreach) hq hlen
  obtain ⟨h0, hroom⟩ := hshort (by omega)
  rw [h.pos hz (by omega)] at h0
  have hpositive := Volume.demand_pos (div_lt_ceilBlk (not_le.mp hreach)) h0
  omega

theorem Passes.covered (h : Passes geo i buf s t) (hz : s.total = 0)
    (hmax : s.off % geo.span + t.total ≤ geo.maxFileSize) (hge : s.off % geo.span ≤ q)
    (hlt : q < s.off % geo.span + t.total) :
    (volume geo t.fs).mapped geo t.inode (q / geo.blkSize) ≠ 0 := by
  induction h with
  | refl => omega
  | @tail u t hrun hp ih =>
    obtain ⟨htotal, -⟩ := hp.total
    have hpiece := u.piece_pos geo hp.lt
    obtain ⟨hpos, hs⟩ := Passes.mid hrun hz hp (by omega)
    by_cases hbefore : q < s.off % geo.span + u.total
    · have h0 := ih (by omega) hbefore
      rw [hs.mapped_kept hp.underway.1 h0]
      exact h0
    · have hend := (u.piece_end geo buf hpos).1
      have hdiv : q / geo.blkSize = (s.off % geo.span + u.total) / geo.blkSize := by
        refine le_antisymm ?_ (Nat.div_le_div_right (not_lt.mp hbefore))
        have hlast : q < ((s.off % geo.span + u.total) / geo.blkSize + 1) * geo.blkSize := by omega
        exact Nat.le_of_lt_add_one ((Nat.div_lt_iff_lt_mul geo.blkSize_pos).mpr hlast)
      rw [hdiv]
      exact hs.mapped_same hp.underway.1

/-- A pass changes bytes at its positions in the block at its number, and in the indirect block. -/
theorem Stores.changed (hs : Stores geo i buf n s t) (hu : Underway geo i buf s)
    (hne : (volume geo t.fs).block k j ≠ (volume geo s.fs).block k j) :
    (k = t.inode.indirectBlk ∧ k ≠ 0) ∨
      ((volume geo t.fs).mapped geo t.inode n = k ∧ k ≠ 0 ∧ s.off % geo.blkSize ≤ j ∧
        j < s.off % geo.blkSize + (s.piece geo buf).length) := by
  obtain ⟨m, v, ht, -, hv⟩ := hs.target
  by_cases hi : k = t.inode.indirectBlk ∧ k ≠ 0
  · exact Or.inl hi
  · right
    have hblock := ht.block (l := k) fun he => by_contra fun h0 => hi ⟨he, h0⟩
    by_cases hk : k = m
    · subst hk
      rw [hv, ht.mapped_stored hu.bears, ht.mapped_same]
      rw [hv, Volume.writeBlock_block_same, hblock] at hne
      refine ⟨rfl, ht.ne_zero, ?_⟩
      by_contra hout
      refine hne (overwrite_outside _ ?_)
      omega
    · rw [hv, Volume.writeBlock_block_of_ne _ _ hk, hblock] at hne
      exact absurd rfl hne

theorem Passes.changed (h : Passes geo i buf s t) (hz : s.total = 0)
    (hmax : s.off % geo.span + t.total ≤ geo.maxFileSize)
    (hne : (volume geo t.fs).block k j ≠ (volume geo s.fs).block k j) :
    (k = t.inode.indirectBlk ∧ k ≠ 0) ∨ ∃ q, s.off % geo.span ≤ q ∧
      q < s.off % geo.span + t.total ∧ q % geo.blkSize = j ∧
      (volume geo t.fs).mapped geo t.inode (q / geo.blkSize) = k ∧ k ≠ 0 := by
  induction h with
  | refl => exact absurd rfl hne
  | @tail u t hrun hp ih =>
    obtain ⟨htotal, -⟩ := hp.total
    have hpiece := u.piece_pos geo hp.lt
    obtain ⟨hpos, hs⟩ := Passes.mid hrun hz hp (by omega)
    by_cases hlast : (volume geo t.fs).block k j = (volume geo u.fs).block k j
    · rcases ih (by omega) (by rw [← hlast]; exact hne) with ⟨hk, h0⟩ | ⟨q, hq, hq', hj, hm, h0⟩
      · exact Or.inl ⟨hk.trans (hs.below.indirectBlk (hk ▸ h0)).symm, h0⟩
      · refine Or.inr ⟨q, hq, by omega, hj, ?_, h0⟩
        rw [hs.mapped_kept hp.underway.1 (by rw [hm]; exact h0), hm]
    · rcases hs.changed hp.underway.1 hlast with hi | ⟨hm, h0, hge, hlt⟩
      · exact Or.inl hi
      · right
        have hmod : u.off % geo.blkSize = (s.off % geo.span + u.total) % geo.blkSize := by
          rw [← hpos, geo.mod_span]
        obtain ⟨o, rfl⟩ := Nat.exists_eq_add_of_le hge
        have hfit := u.piece_fits geo buf
        obtain ⟨hd, hr⟩ := @pass_pos geo (s.off % geo.span + u.total) o (by omega)
        refine ⟨s.off % geo.span + u.total + o, by omega, by omega, by omega, ?_, h0⟩
        rw [hd, hm]

theorem Passes.fresh (h : Passes geo i buf s t)
    (h0 : (volume geo s.fs).mapped geo s.inode m = 0) :
    (volume geo t.fs).mapped geo t.inode m = 0 ∨
      (volume geo t.fs).mapped geo t.inode m ∉ (volume geo s.fs).dataUsed := by
  induction h with
  | refl => exact Or.inl h0
  | @tail u t hrun hp ih =>
    obtain ⟨n, hs⟩ := hp.stores
    by_cases hu : (volume geo u.fs).mapped geo u.inode m = 0
    · by_cases hne : m = n
      · subst hne
        right
        obtain ⟨k, v, ht, -, hv⟩ := hs.target
        rw [hv, ht.mapped_stored hp.underway.1.bears, ht.mapped_same]
        exact fun hk => ht.fresh hu (Passes.used hrun hk)
      · rw [hs.mapped_of_ne hp.underway.1 hne]
        exact Or.inl hu
    · rw [hs.mapped_kept hp.underway.1 hu]
      exact ih

end Passes

end ChisaiFs
