import ChisaiFs.BlockGroup

/-! The two allocators as operations on sets of bits. Each bitmap carries a cached next
index; allocation refreshes it and release does not, so a cached index is either the index
of a clear bit or 0, but 0 does not mean that the group is full. -/

namespace ChisaiFs
open Outcome

theorem sub_one_toNat {x : UInt32} (h : x ≠ 0) : (x - 1).toNat = x.toNat - 1 := by
  have hx : 0 < x.toNat := by
    rw [Nat.pos_iff_ne_zero]
    exact fun h0 => h (UInt32.toNat_inj.mp h0)
  have hlt := x.toNat_lt
  rw [UInt32.toNat_sub, UInt32.toNat_one]
  omega

theorem zero_sub_one_toNat : ((0 : UInt32) - 1).toNat = 4294967295 := rfl

theorem toNat_pos {x : UInt32} (h : x ≠ 0) : 0 < x.toNat := by
  rw [Nat.pos_iff_ne_zero]
  exact fun h0 => h (UInt32.toNat_inj.mp h0)

theorem toNat_ofNat_of_lt {n : ℕ} (h : n < 2 ^ 32) : (UInt32.ofNat n).toNat = n := by
  rw [UInt32.toNat_ofNat', Nat.mod_eq_of_lt h]

def GroupMap.Full (m : GroupMap) : Prop := blkgrpFreeNum m = 0

instance (m : GroupMap) : Decidable m.Full := inferInstanceAs (Decidable (_ = _))

structure GroupMap.Ok (b : ℕ) (m : GroupMap) : Prop where
  size : m.bitmap.size = b
  clear : m.next ≠ 0 → m.next.toNat ≤ 8 * b ∧ m.bitmap.bit (m.next.toNat - 1) = false

def GroupMap.Primed (m : GroupMap) : Prop := m.next = 0 → m.Full

section Group

variable {b : ℕ} {m : GroupMap}

theorem full_iff (hsize : m.bitmap.size = b) (hb : 8 * b < 2 ^ 32) :
    m.Full ↔ ∀ k < 8 * b, m.bitmap.bit k = true := by
  have hle := bitvecCountZeros_le m.bitmap
  rw [hsize] at hle
  rw [GroupMap.Full, blkgrpFreeNum, ← hsize, ← bitvecCountZeros_eq_zero, ← UInt32.toNat_inj,
    toNat_ofNat_of_lt (by omega), UInt32.toNat_zero]

theorem updateNext_ok (hsize : m.bitmap.size = b) (hb : 8 * b < 2 ^ 32) :
    (blkgrpUpdateNext m).Ok b ∧ (blkgrpUpdateNext m).Primed := by
  have hspec := bitvecFindFirstSet_spec m.bitmap
  rw [hsize] at hspec
  rcases hspec with ⟨hz, hall⟩ | ⟨k, hk, he, hc, -⟩
  · have hfull : (blkgrpUpdateNext m).Full := (full_iff hsize hb).mpr hall
    refine ⟨⟨hsize, fun hne => ?_⟩, fun _ => hfull⟩
    exact absurd (by simp [blkgrpUpdateNext, hz]) hne
  · have hn : (blkgrpUpdateNext m).next.toNat = k + 1 := by
      simp only [blkgrpUpdateNext, he]
      exact toNat_ofNat_of_lt (by omega)
    refine ⟨⟨hsize, fun _ => ⟨by omega, ?_⟩⟩, fun h0 => ?_⟩
    · rw [hn]
      exact hc
    · rw [h0, UInt32.toNat_zero] at hn
      omega

theorem blkgrpAlloc_of_next (hm : m.Ok b) (hb : 8 * b < 2 ^ 32) (hn : m.next ≠ 0) :
    ∃ m', blkgrpAlloc m = .ok (m.next, m') ∧ m'.Ok b ∧ m'.Primed ∧
      ∀ j, m'.bitmap.bit j = (j == m.next.toNat - 1 || m.bitmap.bit j) := by
  have hpos := toNat_pos hn
  have hlt : (m.next - 1).toNat < 8 * m.bitmap.size := by
    rw [sub_one_toNat hn, hm.size]
    have hle := (hm.clear hn).1
    omega
  obtain ⟨w, hw⟩ := bitvecSet_ok hlt
  obtain ⟨-, hsize, hbit⟩ := bitvecSet_eq_ok hw
  rw [sub_one_toNat hn] at hbit
  refine ⟨blkgrpUpdateNext { m with bitmap := w }, by simp [blkgrpAlloc, hw, pure, Except.pure], ?_⟩
  obtain ⟨hok, hprimed⟩ := updateNext_ok (m := { m with bitmap := w }) (hsize.trans hm.size) hb
  exact ⟨hok, hprimed, hbit⟩

theorem blkgrpAlloc_of_stale (hm : m.Ok b) (hb : 8 * b < 2 ^ 32) (hn : m.next = 0) :
    blkgrpAlloc m = .error .outOfRange := by
  have hset : bitvecSet m.bitmap (m.next - 1).toNat = .error .outOfRange := by
    apply bitvecSet_error
    rw [hm.size, hn, zero_sub_one_toNat]
    omega
  simp only [blkgrpAlloc, hset, error_bind]

end Group

/-- Bit `p` of the bitmaps of all groups, `n` bits a group. -/
def bitAt (n : ℕ) (ms : List GroupMap) (p : ℕ) : Bool :=
  match ms[p / n]? with
  | some m => m.bitmap.bit (p % n)
  | none => false

theorem bitAt_congr {n p : ℕ} {ms ms' : List GroupMap}
    (h : ms.map GroupMap.bitmap = ms'.map GroupMap.bitmap) : bitAt n ms p = bitAt n ms' p := by
  have hat : (ms[p / n]?).map GroupMap.bitmap = (ms'[p / n]?).map GroupMap.bitmap := by
    rw [← List.getElem?_map, h, List.getElem?_map]
  unfold bitAt
  cases hm : ms[p / n]? <;> cases hm' : ms'[p / n]? <;> simp_all

theorem bitAt_cons_lt {n p : ℕ} {m : GroupMap} {ms : List GroupMap} (h : p < n) :
    bitAt n (m :: ms) p = m.bitmap.bit p := by
  simp [bitAt, Nat.div_eq_of_lt h, Nat.mod_eq_of_lt h]

theorem bitAt_cons_ge {n p : ℕ} {m : GroupMap} {ms : List GroupMap} (hn : 0 < n) (h : n ≤ p) :
    bitAt n (m :: ms) p = bitAt n ms (p - n) := by
  have hd : p / n = (p - n) / n + 1 := by rw [Nat.div_eq_sub_div hn h]
  have hm : p % n = (p - n) % n := Nat.mod_eq_sub_mod h
  simp [bitAt, hd, hm]

theorem bitAt_of_ge {n p : ℕ} {ms : List GroupMap} (hn : 0 < n) (h : ms.length * n ≤ p) :
    bitAt n ms p = false := by
  have hd : ms.length ≤ p / n := (Nat.le_div_iff_mul_le hn).mpr h
  simp [bitAt, List.getElem?_eq_none hd]

def MapsOk (b : ℕ) (ms : List GroupMap) : Prop := ∀ m ∈ ms, m.Ok b

/-- The first group with a clear bit, if there is one, has a cached index. -/
def FirstPrimed (ms : List GroupMap) : Prop :=
  ∀ m, ms.find? (fun m => ¬ m.Full) = some m → m.next ≠ 0

theorem firstPrimed_of_primed {ms : List GroupMap} (h : ∀ m ∈ ms, m.Primed) : FirstPrimed ms := by
  intro m hm h0
  have hmem := List.mem_of_find?_eq_some hm
  have hnf := List.find?_some hm
  simp only [decide_eq_true_eq] at hnf
  exact hnf (h m hmem h0)

section Column

variable {b : ℕ} {ms : List GroupMap}

theorem all_set_iff (hb : 0 < b) :
    (∀ p < (ms.length + 1) * (8 * b), bitAt (8 * b) (m :: ms) p = true) ↔
      (∀ k < 8 * b, m.bitmap.bit k = true) ∧
      ∀ p < ms.length * (8 * b), bitAt (8 * b) ms p = true := by
  have hn : 0 < 8 * b := by omega
  constructor
  · intro h
    refine ⟨fun k hk => ?_, fun p hp => ?_⟩
    · have hkt : k < (ms.length + 1) * (8 * b) := by nlinarith
      rw [← bitAt_cons_lt hk]
      exact h k hkt
    · have hpt : p + 8 * b < (ms.length + 1) * (8 * b) := by nlinarith
      have hp' := h _ hpt
      rwa [bitAt_cons_ge hn (Nat.le_add_left _ _), Nat.add_sub_cancel] at hp'
  · rintro ⟨hm, hms⟩ p hp
    by_cases hlt : p < 8 * b
    · rw [bitAt_cons_lt hlt]
      exact hm p hlt
    · have hge : 8 * b ≤ p := by omega
      have hpt : p - 8 * b < ms.length * (8 * b) := by
        rw [Nat.succ_mul] at hp
        omega
      rw [bitAt_cons_ge hn hge]
      exact hms _ hpt

structure AllocSpec (b i : ℕ) (ms : List GroupMap) (idx : ChisaiSize) (ms' : List GroupMap) :
    Prop where
  ok : MapsOk b ms'
  primed : (∀ m ∈ ms, m.Primed) → ∀ m ∈ ms', m.Primed
  length : ms'.length = ms.length
  cases : (idx = 0 ∧ ms' = ms ∧ ∀ p < ms.length * (8 * b), bitAt (8 * b) ms p = true) ∨
    ∃ p < ms.length * (8 * b), idx.toNat = i * (8 * b) + p + 1 ∧
      bitAt (8 * b) ms p = false ∧ ∀ q, bitAt (8 * b) ms' q = (q == p || bitAt (8 * b) ms q)

variable {n i : UInt32}

theorem AllocSpec.nil (b i : ℕ) : AllocSpec b i [] 0 [] where
  ok _ h := absurd h List.not_mem_nil
  primed h := h
  length := rfl
  cases := Or.inl ⟨rfl, rfl, fun p hp => by simp at hp⟩

theorem AllocSpec.skip {i : ℕ} {m : GroupMap} {idx : ChisaiSize} {ms' : List GroupMap}
    (hb : 0 < b) (hbit : 8 * b < 2 ^ 32) (hm : m.Ok b) (hfull : m.Full)
    (h : AllocSpec b (i + 1) ms idx ms') : AllocSpec b i (m :: ms) idx (m :: ms') where
  ok := List.forall_mem_cons.mpr ⟨hm, h.ok⟩
  primed hp := by
    obtain ⟨hpm, hpms⟩ := List.forall_mem_cons.mp hp
    exact List.forall_mem_cons.mpr ⟨hpm, h.primed hpms⟩
  length := by simp [h.length]
  cases := by
    have hset := (full_iff hm.size hbit).mp hfull
    rcases h.cases with ⟨h0, he, hall⟩ | ⟨p, hp, hidx, hclear, hbits⟩
    · left
      exact ⟨h0, by rw [he], (all_set_iff hb).mpr ⟨hset, hall⟩⟩
    · right
      have hn : 0 < 8 * b := by omega
      refine ⟨p + 8 * b, ?_, ?_, ?_, fun q => ?_⟩
      · rw [List.length_cons, Nat.add_mul, Nat.one_mul]
        omega
      · rw [hidx]
        ring
      · rwa [bitAt_cons_ge hn (Nat.le_add_left _ _), Nat.add_sub_cancel]
      · by_cases hq : q < 8 * b
        · have hne : (q == p + 8 * b) = false := by
            rw [beq_eq_false_iff_ne]
            omega
          rw [bitAt_cons_lt hq, bitAt_cons_lt hq, hne, Bool.false_or]
        · have hge : 8 * b ≤ q := by omega
          have he : (q - 8 * b == p) = (q == p + 8 * b) := by
            rw [Bool.eq_iff_iff, beq_iff_eq, beq_iff_eq]
            omega
          rw [bitAt_cons_ge hn hge, bitAt_cons_ge hn hge, hbits, he]

theorem AllocSpec.take {i : ℕ} {m m' : GroupMap} {idx : ChisaiSize} (hb : 0 < b)
    (hms : MapsOk b ms) (hm : m.Ok b) (hm' : m'.Ok b) (hprimed : m'.Primed) (hn : m.next ≠ 0)
    (hbits : ∀ j, m'.bitmap.bit j = (j == m.next.toNat - 1 || m.bitmap.bit j))
    (hidx : idx.toNat = i * (8 * b) + m.next.toNat) :
    AllocSpec b i (m :: ms) idx (m' :: ms) where
  ok := List.forall_mem_cons.mpr ⟨hm', hms⟩
  primed hp := List.forall_mem_cons.mpr ⟨hprimed, (List.forall_mem_cons.mp hp).2⟩
  length := rfl
  cases := by
    obtain ⟨hle, hclear⟩ := hm.clear hn
    have hpos := toNat_pos hn
    have hn8 : 0 < 8 * b := by omega
    have hlt : m.next.toNat - 1 < 8 * b := by omega
    right
    refine ⟨m.next.toNat - 1, ?_, by omega, ?_, fun q => ?_⟩
    · rw [List.length_cons, Nat.add_mul, Nat.one_mul]
      omega
    · rwa [bitAt_cons_lt hlt]
    · by_cases hq : q < 8 * b
      · rw [bitAt_cons_lt hq, bitAt_cons_lt hq, hbits]
      · have hge : 8 * b ≤ q := by omega
        have hne : (q == m.next.toNat - 1) = false := by
          rw [beq_eq_false_iff_ne]
          omega
        rw [bitAt_cons_ge hn8 hge, bitAt_cons_ge hn8 hge, hne, Bool.false_or]

theorem firstPrimed_cons_full {m : GroupMap} (h : m.Full) :
    FirstPrimed (m :: ms) ↔ FirstPrimed ms := by
  simp [FirstPrimed, h]

theorem firstPrimed_cons_free {m : GroupMap} (h : ¬ m.Full) :
    FirstPrimed (m :: ms) ↔ m.next ≠ 0 := by
  simp [FirstPrimed, h]

theorem add_one_toNat {k : ℕ} (h : i.toNat + (k + 1) < 2 ^ 32) : (i + 1).toNat = i.toNat + 1 := by
  rw [UInt32.toNat_add, UInt32.toNat_one, Nat.mod_eq_of_lt (by omega)]

theorem lt_of_mul_lt {a c d : ℕ} (hc : 0 < c) (h : a * c < d) : a < d :=
  (Nat.le_mul_of_pos_right a hc).trans_lt h

theorem blkgrpsAllocFrom_full {m : GroupMap} (h : m.Full) :
    blkgrpsAllocFrom n i (m :: ms) = blkgrpsAllocFrom n (i + 1) ms >>= fun r =>
      pure (r.1, m :: r.2) := by
  rw [blkgrpsAllocFrom, if_pos (show blkgrpFreeNum m = 0 from h)]

theorem blkgrpsAllocFrom_free {m : GroupMap} (h : ¬ m.Full) :
    blkgrpsAllocFrom n i (m :: ms) = blkgrpAlloc m >>= fun r =>
      pure (i * n + r.1, r.2 :: ms) := by
  rw [blkgrpsAllocFrom, if_neg (show ¬ blkgrpFreeNum m = 0 from h)]

/-- The allocation loop returns exactly when the first group with a clear bit has a cached
index, and then behaves as `AllocSpec` says. -/
theorem blkgrpsAllocFrom_spec (hb : 0 < b) (hn : n.toNat = 8 * b) (hms : MapsOk b ms)
    (hi : (i.toNat + ms.length) * (8 * b) < 2 ^ 32) :
    (FirstPrimed ms → ∃ idx ms', blkgrpsAllocFrom n i ms = .ok (idx, ms') ∧
      AllocSpec b i.toNat ms idx ms') ∧
    (¬ FirstPrimed ms → blkgrpsAllocFrom n i ms = .error .outOfRange) := by
  have hbit : 8 * b < 2 ^ 32 := hn ▸ n.toNat_lt
  induction ms generalizing i with
  | nil =>
    refine ⟨fun _ => ⟨0, [], rfl, .nil b i.toNat⟩, fun h => absurd ?_ h⟩
    simp [FirstPrimed]
  | cons m ms ih =>
    obtain ⟨hm, hms⟩ := List.forall_mem_cons.mp hms
    rw [List.length_cons] at hi
    have hi1 : (i + 1).toNat = i.toNat + 1 :=
      add_one_toNat (lt_of_mul_lt (by omega : 0 < 8 * b) hi)
    by_cases hfull : m.Full
    · have hstep := ih (i := i + 1) hms (by rw [hi1, Nat.add_assoc, Nat.add_comm 1]; exact hi)
      rw [firstPrimed_cons_full hfull]
      refine ⟨fun hp => ?_, fun hp => ?_⟩
      · obtain ⟨idx, ms', he, hspec⟩ := hstep.1 hp
        rw [hi1] at hspec
        refine ⟨idx, m :: ms', ?_, hspec.skip hb hbit hm hfull⟩
        rw [blkgrpsAllocFrom_full hfull, he]
        rfl
      · rw [blkgrpsAllocFrom_full hfull, hstep.2 hp]
        rfl
    · rw [firstPrimed_cons_free hfull]
      refine ⟨fun hnext => ?_, fun hnext => ?_⟩
      · obtain ⟨m', he, hm', hprimed, hbits⟩ := blkgrpAlloc_of_next hm hbit hnext
        refine ⟨i * n + m.next, m' :: ms, ?_, .take hb hms hm hm' hprimed hnext hbits ?_⟩
        · rw [blkgrpsAllocFrom_free hfull, he]
          rfl
        · have hle := (hm.clear hnext).1
          have hmul : i.toNat * (8 * b) + 8 * b ≤ (i.toNat + (ms.length + 1)) * (8 * b) := by
            nlinarith
          rw [UInt32.toNat_add, UInt32.toNat_mul, hn, Nat.mod_eq_of_lt (by omega),
            Nat.mod_eq_of_lt (by omega)]
      · rw [blkgrpsAllocFrom_free hfull, blkgrpAlloc_of_stale hm hbit (not_not.mp hnext)]
        rfl

theorem sub_one_lt {k : ChisaiSize} (hms : ms.length * (8 * b) < 2 ^ 32)
    (h : bitAt (8 * b) ms (k - 1).toNat = true) (hb : 0 < b) :
    k ≠ 0 ∧ (k - 1).toNat < ms.length * (8 * b) := by
  have hlt : (k - 1).toNat < ms.length * (8 * b) := by
    by_contra hge
    rw [bitAt_of_ge (by omega) (not_lt.mp hge)] at h
    cases h
  refine ⟨?_, hlt⟩
  rintro rfl
  rw [zero_sub_one_toNat] at hlt
  omega

theorem blkgrpsExist_eq_ok {k : ChisaiSize} {r : Bool} (hb : 0 < b) (hn : n.toNat = 8 * b)
    (hlen : ms.length * (8 * b) < 2 ^ 32) (h : blkgrpsExist n ms k = .ok r) :
    r = bitAt (8 * b) ms (k - 1).toNat := by
  unfold blkgrpsExist at h
  split_ifs at h with hk
  · cases h
    subst hk
    rw [zero_sub_one_toNat, bitAt_of_ge (by omega) (by omega)]
  · unfold bitAt
    rw [UInt32.toNat_div, hn] at h
    cases hm : ms[(k - 1).toNat / (8 * b)]? with
    | none =>
      rw [hm] at h
      cases h
    | some m =>
      rw [hm, UInt32.toNat_mod, hn] at h
      exact ((bitvecGet_eq_ok.mp h).2).symm

theorem blkgrpsExist_ok {k : ChisaiSize} (hb : 0 < b) (hn : n.toNat = 8 * b) (hms : MapsOk b ms)
    (hk : (k - 1).toNat < ms.length * (8 * b)) :
    ∃ r, blkgrpsExist n ms k = .ok r := by
  unfold blkgrpsExist
  split_ifs with h0
  · exact ⟨false, rfl⟩
  · have hd : (k - 1).toNat / (8 * b) < ms.length :=
      (Nat.div_lt_iff_lt_mul (by omega)).mpr hk
    rw [UInt32.toNat_div, hn, List.getElem?_eq_getElem hd, UInt32.toNat_mod, hn]
    refine ⟨_, bitvecGet_eq_ok.mpr ⟨?_, rfl⟩⟩
    rw [(hms _ (List.getElem_mem hd)).size]
    exact Nat.mod_lt _ (by omega)

/-- What a release that does not fault does. -/
structure ReleaseSpec (b : ℕ) (ms : List GroupMap) (k : ChisaiSize) (ms' : List GroupMap) :
    Prop where
  ok : MapsOk b ms'
  length : ms'.length = ms.length
  lt : (k - 1).toNat < ms.length * (8 * b)
  bits : ∀ q, bitAt (8 * b) ms' q = (q != (k - 1).toNat && bitAt (8 * b) ms q)
  primed : (∀ m ∈ ms, m.Primed) → (∀ m, ms[(k - 1).toNat / (8 * b)]? = some m → ¬ m.Full) →
    ∀ m ∈ ms', m.Primed

theorem mem_set_cases {α : Type*} {l : List α} {j : ℕ} {a x : α} (h : x ∈ l.set j a) :
    x ∈ l ∨ x = a := List.mem_or_eq_of_mem_set h

theorem releaseSpec_set {k : ChisaiSize} {m : GroupMap} {w : Bitvec} (hb : 0 < b)
    (hbit : 8 * b < 2 ^ 32) (hms : MapsOk b ms)
    (hm : ms[(k - 1).toNat / (8 * b)]? = some m) (hsize : w.size = m.bitmap.size)
    (hw : ∀ j, w.bit j = (j != (k - 1).toNat % (8 * b) && m.bitmap.bit j)) :
    ReleaseSpec b ms k (ms.set ((k - 1).toNat / (8 * b)) { m with bitmap := w }) := by
  obtain ⟨hd, hget⟩ := List.getElem?_eq_some_iff.mp hm
  have hmem : m ∈ ms := hget ▸ List.getElem_mem hd
  refine ⟨fun x hx => ?_, List.length_set, (Nat.div_lt_iff_lt_mul (by omega)).mp hd, fun q => ?_,
    fun hp hfull x hx => ?_⟩
  · rcases mem_set_cases hx with hx | rfl
    · exact hms x hx
    · refine ⟨hsize.trans (hms m hmem).size, fun hn => ?_⟩
      obtain ⟨hle, hc⟩ := (hms m hmem).clear hn
      exact ⟨hle, by rw [hw, hc, Bool.and_false]⟩
  · unfold bitAt
    by_cases hq : q / (8 * b) = (k - 1).toNat / (8 * b)
    · have he : (q % (8 * b) != (k - 1).toNat % (8 * b)) = (q != (k - 1).toNat) := by
        rw [Bool.eq_iff_iff, bne_iff_ne, bne_iff_ne, not_iff_not]
        constructor
        · intro hmod
          rw [← Nat.div_add_mod q (8 * b), ← Nat.div_add_mod (k - 1).toNat (8 * b), hq, hmod]
        · rintro rfl
          rfl
      rw [hq, List.getElem?_set_self hd, hm]
      simp only [hw, he]
    · have hne : (q != (k - 1).toNat) = true := by
        rw [bne_iff_ne]
        rintro rfl
        exact hq rfl
      rw [List.getElem?_set_ne (Ne.symm hq), hne, Bool.true_and]
  · rcases mem_set_cases hx with hx | rfl
    · exact hp x hx
    · intro h0
      exact absurd (hp m hmem h0) (hfull m hm)

theorem blkgrpsRelease_spec {k : ChisaiSize} {ms' : List GroupMap} (hb : 0 < b)
    (hn : n.toNat = 8 * b) (hms : MapsOk b ms) (h : blkgrpsRelease n ms k = .ok ms') :
    (k = 0 ∧ ms' = ms) ∨ (k ≠ 0 ∧ ReleaseSpec b ms k ms') := by
  unfold blkgrpsRelease at h
  split_ifs at h with hk
  · cases h
    exact Or.inl ⟨hk, rfl⟩
  · right
    refine ⟨hk, ?_⟩
    simp only [UInt32.toNat_div, UInt32.toNat_mod, hn] at h
    cases hm : ms[(k - 1).toNat / (8 * b)]? with
    | none =>
      rw [hm] at h
      cases h
    | some m =>
      rw [hm] at h
      obtain ⟨w, hw, he⟩ := bind_eq_ok.mp h
      cases he
      obtain ⟨-, hsize, hbits⟩ := bitvecReset_eq_ok hw
      exact releaseSpec_set hb (hn ▸ n.toNat_lt) hms hm hsize hbits

theorem blkgrpsRelease_ok {k : ChisaiSize} (hb : 0 < b) (hn : n.toNat = 8 * b) (hms : MapsOk b ms)
    (hk : (k - 1).toNat < ms.length * (8 * b)) :
    ∃ ms', blkgrpsRelease n ms k = .ok ms' := by
  unfold blkgrpsRelease
  split_ifs with h0
  · exact ⟨ms, rfl⟩
  · have hd : (k - 1).toNat / (8 * b) < ms.length :=
      (Nat.div_lt_iff_lt_mul (by omega)).mpr hk
    have hlt : (k - 1).toNat % (8 * b) < 8 * ms[(k - 1).toNat / (8 * b)].bitmap.size := by
      rw [(hms _ (List.getElem_mem hd)).size]
      exact Nat.mod_lt _ (by omega)
    obtain ⟨w, hw⟩ := bitvecReset_ok hlt
    simp only [UInt32.toNat_div, UInt32.toNat_mod, hn, List.getElem?_eq_getElem hd, hw]
    exact ⟨_, rfl⟩

end Column

def loadedMap (d : Device) (off blkSize : ℕ) : GroupMap :=
  blkgrpUpdateNext ⟨⟨Cells.slice d.bytes off blkSize⟩, 0⟩

theorem loadedMap_ok (d : Device) (off : ℕ) {b : ℕ} (hb : 8 * b < 2 ^ 32) :
    (loadedMap d off b).Ok b ∧ (loadedMap d off b).Primed :=
  updateNext_ok (by simp [Bitvec.size]) hb

theorem blkgrpsLoadFrom_eq_ok {d : Device} {blkSize blkgrpSize i n : ℕ}
    {r : List GroupMap × List GroupMap}
    (h : blkgrpsLoadFrom d blkSize blkgrpSize i n = .ok r) :
    r.1 = (List.range' i n).map (fun j => loadedMap d (blkSize + blkgrpSize * j) blkSize) ∧
    r.2 = (List.range' i n).map
      (fun j => loadedMap d (blkSize + blkgrpSize * j + blkSize) blkSize) := by
  induction n generalizing i r with
  | zero =>
    cases h
    exact ⟨rfl, rfl⟩
  | succ n ih =>
    simp only [blkgrpsLoadFrom, bind_eq_ok, deviceDataLoad_eq_ok] at h
    obtain ⟨data, ⟨-, rfl⟩, inode, ⟨-, rfl⟩, ⟨ds, is⟩, hrest, he⟩ := h
    cases he
    obtain ⟨hds, his⟩ := ih hrest
    dsimp only at hds his
    subst hds his
    exact ⟨rfl, rfl⟩

/-- The in-memory block groups of a device with `g` groups of `8 * b` bits. -/
structure GroupsOk (b g : ℕ) (grps : BlockGroups) : Prop where
  pos : 0 < b
  fits : g * (8 * b) < 2 ^ 32
  num : grps.blkInodeNum.toNat = 8 * b
  data : MapsOk b grps.data
  data_length : grps.data.length = g
  inode : MapsOk b grps.inode
  inode_length : grps.inode.length = g

def AllPrimed (grps : BlockGroups) : Prop :=
  (∀ m ∈ grps.data, m.Primed) ∧ ∀ m ∈ grps.inode, m.Primed

theorem blkgrpsLoad_spec {d : Device} {blkSize groups : UInt32} {grps : BlockGroups}
    (hpos : 0 < blkSize.toNat) (hfits : groups.toNat * (8 * blkSize.toNat) < 2 ^ 32)
    (h : blkgrpsLoad d blkSize groups = .ok grps) :
    GroupsOk blkSize.toNat groups.toNat grps ∧ AllPrimed grps := by
  unfold blkgrpsLoad at h
  split_ifs at h with hg
  obtain ⟨⟨data, inode⟩, hload, he⟩ := bind_eq_ok.mp h
  cases he
  obtain ⟨hd, hi⟩ := blkgrpsLoadFrom_eq_ok hload
  have hg1 : 0 < groups.toNat := toNat_pos hg
  have hbit : 8 * blkSize.toNat < 2 ^ 32 := by nlinarith
  have hmaps : ∀ (ms : List GroupMap) (f : ℕ → ℕ),
      ms = (List.range' 0 groups.toNat).map (fun j => loadedMap d (f j) blkSize.toNat) →
      ∀ m ∈ ms, m.Ok blkSize.toNat ∧ m.Primed := by
    rintro ms f rfl m hm
    obtain ⟨j, -, rfl⟩ := List.mem_map.mp hm
    exact loadedMap_ok d (f j) hbit
  have hdata := hmaps data _ hd
  have hinode := hmaps inode _ hi
  refine ⟨⟨hpos, hfits, ?_, fun m hm => (hdata m hm).1, ?_, fun m hm => (hinode m hm).1, ?_⟩,
    fun m hm => (hdata m hm).2, fun m hm => (hinode m hm).2⟩
  · rw [UInt32.toNat_mul, Nat.mod_eq_of_lt]
    · exact Nat.mul_comm _ _
    · rw [Nat.mul_comm]
      exact hbit
  · simp [show data = _ from hd]
  · simp [show inode = _ from hi]

end ChisaiFs
