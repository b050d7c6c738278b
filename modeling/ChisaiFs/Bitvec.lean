import ChisaiFs.Config
import ChisaiFs.Library.Outcome

/-! The byte-packed bit vector and its search for a clear bit. -/

namespace ChisaiFs

structure Bitvec where
  inner : List UInt8
  deriving DecidableEq

def Bitvec.size (v : Bitvec) : ℕ := v.inner.length

def bitvecInit (size : ℕ) : Bitvec := ⟨List.replicate size 0⟩

def bitvecGet (v : Bitvec) (index : ℕ) : Exec Bool :=
  match v.inner[index >>> 3]? with
  | some byte => .ok ((byte >>> UInt8.ofNat (index &&& 7)) &&& 1 == 1)
  | none => .error .outOfRange

def bitvecSet (v : Bitvec) (index : ℕ) : Exec Bitvec :=
  match v.inner[index >>> 3]? with
  | some byte => .ok ⟨v.inner.set (index >>> 3) (byte ||| 1 <<< UInt8.ofNat (index &&& 7))⟩
  | none => .error .outOfRange

def bitvecReset (v : Bitvec) (index : ℕ) : Exec Bitvec :=
  match v.inner[index >>> 3]? with
  | some byte => .ok ⟨v.inner.set (index >>> 3) (byte &&& ~~~(1 <<< UInt8.ofNat (index &&& 7)))⟩
  | none => .error .outOfRange

def popcount : ℕ → ℕ → ℕ
  | 0, _ => 0
  | n + 1, x => if x = 0 then 0 else x % 2 + popcount n (x / 2)

def builtinPopcount (x : UInt32) : ℕ := popcount 32 x.toNat

/-- `__builtin_ffs`: one plus the position of the lowest set bit, 0 if there is none. -/
def builtinFfs (x : UInt32) : ℕ :=
  match (List.range 32).find? x.toNat.testBit with
  | some i => i + 1
  | none => 0

def bitvecCountZeros (v : Bitvec) : ℕ :=
  v.inner.foldl (fun sum byte => sum + (8 - builtinPopcount byte.toUInt32)) 0

/-- The loop of `bitvec_find_first_set`. The byte is promoted to `int` before it is
complemented, so a full byte has its first set bit at position 9. -/
def findFirstSet : ℕ → List UInt8 → ℕ
  | _, [] => 0
  | ffs, byte :: rest =>
    let tmp := builtinFfs (~~~byte.toUInt32)
    if tmp < 9 then ffs + tmp else findFirstSet (ffs + 8) rest

def bitvecFindFirstSet (v : Bitvec) : ℕ := findFirstSet 0 v.inner

def Bitvec.bit (v : Bitvec) (k : ℕ) : Bool := (v.inner[k / 8]?.getD 0).toNat.testBit (k % 8)

theorem forall_byte {P : UInt8 → Prop} (h : ∀ n < 256, P (UInt8.ofNat n)) (b : UInt8) : P b := by
  simpa using h b.toNat b.toNat_lt

theorem byte_get (b : UInt8) :
    ∀ p < 8, ((b >>> UInt8.ofNat p) &&& 1 == 1) = b.toNat.testBit p :=
  forall_byte (P := fun b => ∀ p < 8, ((b >>> UInt8.ofNat p) &&& 1 == 1) = b.toNat.testBit p)
    (by decide +kernel) b

theorem byte_set (b : UInt8) {p q : ℕ} (hp : p < 8) (hq : q < 8) :
    (b ||| 1 <<< UInt8.ofNat p).toNat.testBit q = (q == p || b.toNat.testBit q) := by
  have hmask : ∀ p < 8, ∀ q < 8, ((1 : UInt8) <<< UInt8.ofNat p).toNat.testBit q = (q == p) := by
    decide +kernel
  rw [UInt8.toNat_or, Nat.testBit_or, hmask p hp q hq, Bool.or_comm]

theorem byte_reset (b : UInt8) {p q : ℕ} (hp : p < 8) (hq : q < 8) :
    (b &&& ~~~(1 <<< UInt8.ofNat p)).toNat.testBit q = (q != p && b.toNat.testBit q) := by
  have hmask : ∀ p < 8, ∀ q < 8,
      (~~~((1 : UInt8) <<< UInt8.ofNat p)).toNat.testBit q = (q != p) := by
    decide +kernel
  rw [UInt8.toNat_and, Nat.testBit_and, hmask p hp q hq, Bool.and_comm]

theorem byte_popcount (b : UInt8) :
    8 - builtinPopcount b.toUInt32 = 0 ↔ ∀ p < 8, b.toNat.testBit p = true :=
  forall_byte (P := fun b => 8 - builtinPopcount b.toUInt32 = 0 ↔ ∀ p < 8, b.toNat.testBit p = true)
    (by decide +kernel) b

theorem byte_ffs (b : UInt8) :
    if builtinFfs (~~~b.toUInt32) < 9 then
      ∃ p < 8, builtinFfs (~~~b.toUInt32) = p + 1 ∧ b.toNat.testBit p = false ∧
        ∀ q < p, b.toNat.testBit q = true
    else ∀ p < 8, b.toNat.testBit p = true :=
  forall_byte (P := fun b => if builtinFfs (~~~b.toUInt32) < 9 then
      ∃ p < 8, builtinFfs (~~~b.toUInt32) = p + 1 ∧ b.toNat.testBit p = false ∧
        ∀ q < p, b.toNat.testBit q = true
    else ∀ p < 8, b.toNat.testBit p = true) (by decide +kernel) b

theorem bitvecGet_eq_ok {v : Bitvec} {k : ℕ} {r : Bool} :
    bitvecGet v k = .ok r ↔ k < 8 * v.size ∧ v.bit k = r := by
  have hs : k >>> 3 = k / 8 := Nat.shiftRight_eq_div_pow k 3
  have hp : k &&& 7 = k % 8 := Nat.and_two_pow_sub_one_eq_mod k 3
  unfold bitvecGet Bitvec.bit Bitvec.size
  rw [hs, hp]
  by_cases h : k / 8 < v.inner.length
  · have hk : k < 8 * v.inner.length := by omega
    have hb := byte_get v.inner[k / 8] (k % 8) (Nat.mod_lt _ (by omega))
    simp [List.getElem?_eq_getElem h, hk, hb]
  · have hk : ¬ k < 8 * v.inner.length := by omega
    simp [List.getElem?_eq_none (Nat.le_of_not_lt h), hk]

theorem bit_set_byte {v : Bitvec} {k : ℕ} (h : k < 8 * v.size) {byte : UInt8} (j : ℕ) :
    (⟨v.inner.set (k / 8) byte⟩ : Bitvec).bit j =
      if j / 8 = k / 8 then byte.toNat.testBit (j % 8) else v.bit j := by
  have hk : k / 8 < v.inner.length := by unfold Bitvec.size at h; omega
  unfold Bitvec.bit
  by_cases hj : j / 8 = k / 8
  · simp [hj, hk]
  · simp [hj, List.getElem?_set_ne (fun he => hj he.symm)]

theorem bitvecSet_eq_ok {v w : Bitvec} {k : ℕ} (h : bitvecSet v k = .ok w) :
    k < 8 * v.size ∧ w.size = v.size ∧ ∀ j, w.bit j = (j == k || v.bit j) := by
  have hs : k >>> 3 = k / 8 := Nat.shiftRight_eq_div_pow k 3
  have hp : k &&& 7 = k % 8 := Nat.and_two_pow_sub_one_eq_mod k 3
  unfold bitvecSet at h
  rw [hs, hp] at h
  by_cases hk : k / 8 < v.inner.length
  · have hlt : k < 8 * v.size := by unfold Bitvec.size; omega
    rw [List.getElem?_eq_getElem hk] at h
    cases h
    refine ⟨hlt, by simp [Bitvec.size], fun j => ?_⟩
    rw [bit_set_byte hlt]
    split_ifs with hj
    · have hb := byte_set v.inner[k / 8] (Nat.mod_lt k (by omega)) (Nat.mod_lt j (by omega))
      have he : (j % 8 == k % 8) = (j == k) := by
        rw [Bool.eq_iff_iff, beq_iff_eq, beq_iff_eq]
        omega
      rw [hb, he]
      simp [Bitvec.bit, hj, List.getElem?_eq_getElem hk]
    · have he : (j == k) = false := by
        rw [beq_eq_false_iff_ne]
        rintro rfl
        exact hj rfl
      simp [he]
  · rw [List.getElem?_eq_none (Nat.le_of_not_lt hk)] at h
    cases h

theorem bitvecReset_eq_ok {v w : Bitvec} {k : ℕ} (h : bitvecReset v k = .ok w) :
    k < 8 * v.size ∧ w.size = v.size ∧ ∀ j, w.bit j = (j != k && v.bit j) := by
  have hs : k >>> 3 = k / 8 := Nat.shiftRight_eq_div_pow k 3
  have hp : k &&& 7 = k % 8 := Nat.and_two_pow_sub_one_eq_mod k 3
  unfold bitvecReset at h
  rw [hs, hp] at h
  by_cases hk : k / 8 < v.inner.length
  · have hlt : k < 8 * v.size := by unfold Bitvec.size; omega
    rw [List.getElem?_eq_getElem hk] at h
    cases h
    refine ⟨hlt, by simp [Bitvec.size], fun j => ?_⟩
    rw [bit_set_byte hlt]
    split_ifs with hj
    · have hb := byte_reset v.inner[k / 8] (Nat.mod_lt k (by omega)) (Nat.mod_lt j (by omega))
      have he : (j % 8 != k % 8) = (j != k) := by
        rw [Bool.eq_iff_iff, bne_iff_ne, bne_iff_ne]
        omega
      rw [hb, he]
      simp [Bitvec.bit, hj, List.getElem?_eq_getElem hk]
    · have he : (j != k) = true := by
        rw [bne_iff_ne]
        rintro rfl
        exact hj rfl
      simp [he]
  · rw [List.getElem?_eq_none (Nat.le_of_not_lt hk)] at h
    cases h

theorem bitvecSet_ok {v : Bitvec} {k : ℕ} (h : k < 8 * v.size) : ∃ w, bitvecSet v k = .ok w := by
  have hk : k >>> 3 < v.inner.length := by
    rw [Nat.shiftRight_eq_div_pow]
    unfold Bitvec.size at h
    omega
  unfold bitvecSet
  rw [List.getElem?_eq_getElem hk]
  exact ⟨_, rfl⟩

theorem bitvecSet_error {v : Bitvec} {k : ℕ} (h : 8 * v.size ≤ k) :
    bitvecSet v k = .error .outOfRange := by
  have hk : v.inner.length ≤ k >>> 3 := by
    rw [Nat.shiftRight_eq_div_pow]
    unfold Bitvec.size at h
    omega
  unfold bitvecSet
  rw [List.getElem?_eq_none hk]

theorem bitvecReset_ok {v : Bitvec} {k : ℕ} (h : k < 8 * v.size) :
    ∃ w, bitvecReset v k = .ok w := by
  have hk : k >>> 3 < v.inner.length := by
    rw [Nat.shiftRight_eq_div_pow]
    unfold Bitvec.size at h
    omega
  unfold bitvecReset
  rw [List.getElem?_eq_getElem hk]
  exact ⟨_, rfl⟩

theorem forall_bit_cons {byte : UInt8} {rest : List UInt8} {n : ℕ} :
    (∀ k < 8 * (n + 1), (⟨byte :: rest⟩ : Bitvec).bit k = true) ↔
      (∀ p < 8, byte.toNat.testBit p = true) ∧ ∀ k < 8 * n, (⟨rest⟩ : Bitvec).bit k = true := by
  constructor
  · intro h
    refine ⟨fun p hp => ?_, fun k hk => ?_⟩
    · have hb := h p (by omega)
      have hd : p / 8 = 0 := by omega
      have hm : p % 8 = p := by omega
      simpa [Bitvec.bit, hd, hm] using hb
    · have hb := h (k + 8) (by omega)
      have hd : (k + 8) / 8 = k / 8 + 1 := by omega
      have hm : (k + 8) % 8 = k % 8 := by omega
      simpa [Bitvec.bit, hd, hm] using hb
  · rintro ⟨hbyte, hrest⟩ k hk
    by_cases hlt : k < 8
    · have hd : k / 8 = 0 := by omega
      have hm : k % 8 = k := by omega
      simpa [Bitvec.bit, hd, hm] using hbyte k hlt
    · have hb := hrest (k - 8) (by omega)
      have hd : k / 8 = (k - 8) / 8 + 1 := by omega
      have hm : (k - 8) % 8 = k % 8 := by omega
      simpa [Bitvec.bit, hd, hm] using hb

theorem findFirstSet_spec (ffs : ℕ) (bytes : List UInt8) :
    (findFirstSet ffs bytes = 0 ∧ ∀ k < 8 * bytes.length, (⟨bytes⟩ : Bitvec).bit k = true) ∨
    ∃ k < 8 * bytes.length, findFirstSet ffs bytes = ffs + k + 1 ∧
      (⟨bytes⟩ : Bitvec).bit k = false ∧ ∀ j < k, (⟨bytes⟩ : Bitvec).bit j = true := by
  induction bytes generalizing ffs with
  | nil => exact Or.inl ⟨rfl, fun k hk => by simp at hk⟩
  | cons byte rest ih =>
    have hb := byte_ffs byte
    simp only [findFirstSet, List.length_cons]
    split_ifs at hb ⊢ with hlt
    · obtain ⟨p, hp, he, hc, hbelow⟩ := hb
      right
      refine ⟨p, by omega, by omega, ?_, fun j hj => ?_⟩
      · have hd : p / 8 = 0 := by omega
        have hm : p % 8 = p := by omega
        simpa [Bitvec.bit, hd, hm] using hc
      · have hd : j / 8 = 0 := by omega
        have hm : j % 8 = j := by omega
        simpa [Bitvec.bit, hd, hm] using hbelow j hj
    · rcases ih (ffs + 8) with ⟨hz, hall⟩ | ⟨k, hk, he, hc, hbelow⟩
      · exact Or.inl ⟨hz, forall_bit_cons.mpr ⟨hb, hall⟩⟩
      · right
        refine ⟨k + 8, by omega, by omega, ?_, ?_⟩
        · have hd : (k + 8) / 8 = k / 8 + 1 := by omega
          have hm : (k + 8) % 8 = k % 8 := by omega
          simpa [Bitvec.bit, hd, hm] using hc
        · intro j hj
          by_cases hj8 : j < 8
          · have hd : j / 8 = 0 := by omega
            have hm : j % 8 = j := by omega
            simpa [Bitvec.bit, hd, hm] using hb j hj8
          · have hbj := hbelow (j - 8) (by omega)
            have hd : j / 8 = (j - 8) / 8 + 1 := by omega
            have hm : (j - 8) % 8 = j % 8 := by omega
            simpa [Bitvec.bit, hd, hm] using hbj

theorem bitvecFindFirstSet_spec (v : Bitvec) :
    (bitvecFindFirstSet v = 0 ∧ ∀ k < 8 * v.size, v.bit k = true) ∨
    ∃ k < 8 * v.size, bitvecFindFirstSet v = k + 1 ∧ v.bit k = false ∧
      ∀ j < k, v.bit j = true := by
  simpa [bitvecFindFirstSet, Bitvec.size] using findFirstSet_spec 0 v.inner

theorem countZeros_foldl (sum : ℕ) (bytes : List UInt8) :
    bytes.foldl (fun sum byte => sum + (8 - builtinPopcount byte.toUInt32)) sum = 0 ↔
      sum = 0 ∧ ∀ k < 8 * bytes.length, (⟨bytes⟩ : Bitvec).bit k = true := by
  induction bytes generalizing sum with
  | nil => simp
  | cons byte rest ih =>
    rw [List.foldl_cons, ih, List.length_cons, forall_bit_cons, ← byte_popcount byte,
      Nat.add_eq_zero_iff, and_assoc]

theorem countZeros_foldl_le (sum : ℕ) (bytes : List UInt8) :
    bytes.foldl (fun sum byte => sum + (8 - builtinPopcount byte.toUInt32)) sum ≤
      sum + 8 * bytes.length := by
  induction bytes generalizing sum with
  | nil => simp
  | cons byte rest ih =>
    have hr := ih (sum + (8 - builtinPopcount byte.toUInt32))
    rw [List.foldl_cons, List.length_cons]
    omega

theorem bitvecCountZeros_le (v : Bitvec) : bitvecCountZeros v ≤ 8 * v.size := by
  simpa [bitvecCountZeros, Bitvec.size] using countZeros_foldl_le 0 v.inner

theorem bitvecCountZeros_eq_zero (v : Bitvec) :
    bitvecCountZeros v = 0 ↔ ∀ k < 8 * v.size, v.bit k = true := by
  simpa [bitvecCountZeros, Bitvec.size] using countZeros_foldl 0 v.inner

end ChisaiFs
