import ChisaiFs.Bitvec
import ChisaiFs.Library.ClearCount

/-! The three views of a bit vector agree: its bits, the count of the clear ones and the
search for the first of them. -/

namespace ChisaiFs
open ClearCount

section Views

variable {v w : Bitvec} {k : ℕ}

theorem bitvecGet_eq (v : Bitvec) (k : ℕ) :
    bitvecGet v k = if k < 8 * v.size then .ok (v.bit k) else .error .outOfRange := by
  split_ifs with h
  · exact bitvecGet_eq_ok.mpr ⟨h, rfl⟩
  · have hk : v.inner.length ≤ k >>> 3 := by
      rw [Nat.shiftRight_eq_div_pow]
      unfold Bitvec.size at h
      omega
    unfold bitvecGet
    rw [List.getElem?_eq_none hk]

theorem bitvecGet_congr (hsize : w.size = v.size) (hbit : w.bit k = v.bit k) :
    bitvecGet w k = bitvecGet v k := by
  rw [bitvecGet_eq, bitvecGet_eq, hsize, hbit]

theorem byte_countZeros (b : UInt8) :
    8 - builtinPopcount b.toUInt32 = clearCount 8 b.toNat.testBit :=
  forall_byte (P := fun b => 8 - builtinPopcount b.toUInt32 = clearCount 8 b.toNat.testBit)
    (by decide +kernel) b

theorem bit_cons_lt {byte : UInt8} {rest : List UInt8} (h : k < 8) :
    (⟨byte :: rest⟩ : Bitvec).bit k = byte.toNat.testBit k := by
  simp [Bitvec.bit, Nat.div_eq_of_lt h, Nat.mod_eq_of_lt h]

theorem bit_cons_add (byte : UInt8) (rest : List UInt8) (k : ℕ) :
    (⟨byte :: rest⟩ : Bitvec).bit (8 + k) = (⟨rest⟩ : Bitvec).bit k := by
  have hd : (8 + k) / 8 = k / 8 + 1 := by omega
  have hm : (8 + k) % 8 = k % 8 := by omega
  simp [Bitvec.bit, hd, hm]

theorem countZeros_foldl_eq (sum : ℕ) (bytes : List UInt8) :
    bytes.foldl (fun sum byte => sum + (8 - builtinPopcount byte.toUInt32)) sum =
      sum + clearCount (8 * bytes.length) (⟨bytes⟩ : Bitvec).bit := by
  induction bytes generalizing sum with
  | nil => simp [clearCount]
  | cons byte rest ih =>
    have hbyte : clearCount 8 (⟨byte :: rest⟩ : Bitvec).bit = clearCount 8 byte.toNat.testBit :=
      clearCount_congr fun p hp => bit_cons_lt hp
    have hrest : clearCount (8 * rest.length) (fun p => (⟨byte :: rest⟩ : Bitvec).bit (8 + p)) =
        clearCount (8 * rest.length) (⟨rest⟩ : Bitvec).bit :=
      clearCount_congr fun p _ => bit_cons_add byte rest p
    rw [List.foldl_cons, ih, byte_countZeros, List.length_cons, Nat.mul_succ, Nat.add_comm _ 8,
      clearCount_add, hbyte, hrest, Nat.add_assoc]

theorem bitvecCountZeros_eq (v : Bitvec) : bitvecCountZeros v = clearCount (8 * v.size) v.bit := by
  simpa [bitvecCountZeros, Bitvec.size] using countZeros_foldl_eq 0 v.inner

structure Bitvec.Changes (v : Bitvec) (k : ℕ) (bit : Bool) (w : Bitvec) : Prop where
  size : w.size = v.size
  get : bitvecGet w k = .ok bit
  others : ∀ j, j ≠ k → bitvecGet w j = bitvecGet v j

theorem bitvecSet_changes (h : k < 8 * v.size) : ∃ w, bitvecSet v k = .ok w ∧
    v.Changes k true w ∧
      (bitvecGet v k = .ok false → bitvecCountZeros w + 1 = bitvecCountZeros v) := by
  obtain ⟨w, hw⟩ := bitvecSet_ok h
  obtain ⟨-, hsize, hbit⟩ := bitvecSet_eq_ok hw
  refine ⟨w, hw, ⟨hsize, ?_, fun j hj => ?_⟩, fun hclear => ?_⟩
  · rw [bitvecGet_eq, hsize, if_pos h, hbit]
    simp
  · exact bitvecGet_congr hsize (by simp [hbit, hj])
  · rw [bitvecCountZeros_eq, bitvecCountZeros_eq, hsize]
    exact clearCount_set h (bitvecGet_eq_ok.mp hclear).2 hbit

theorem bitvecReset_changes (h : k < 8 * v.size) : ∃ w, bitvecReset v k = .ok w ∧
    v.Changes k false w ∧
      (bitvecGet v k = .ok true → bitvecCountZeros w = bitvecCountZeros v + 1) := by
  obtain ⟨w, hw⟩ := bitvecReset_ok h
  obtain ⟨-, hsize, hbit⟩ := bitvecReset_eq_ok hw
  refine ⟨w, hw, ⟨hsize, ?_, fun j hj => ?_⟩, fun hset => ?_⟩
  · rw [bitvecGet_eq, hsize, if_pos h, hbit]
    simp
  · exact bitvecGet_congr hsize (by simp [hbit, hj])
  · rw [bitvecCountZeros_eq, bitvecCountZeros_eq, hsize]
    exact clearCount_reset h (bitvecGet_eq_ok.mp hset).2 hbit

theorem bitvecCountZeros_card (v : Bitvec) : bitvecCountZeros v =
    ((Finset.range (8 * v.size)).filter fun j => bitvecGet v j = .ok false).card := by
  rw [bitvecCountZeros_eq, clearCount]
  congr 1
  apply Finset.filter_congr
  intro j hj
  rw [bitvecGet_eq, if_pos (Finset.mem_range.mp hj), Except.ok.injEq]

theorem bitvecFindFirstSet_eq_zero (v : Bitvec) :
    bitvecFindFirstSet v = 0 ↔ bitvecCountZeros v = 0 := by
  rw [bitvecCountZeros_eq_zero]
  rcases bitvecFindFirstSet_spec v with ⟨h0, hall⟩ | ⟨j, hj, hfind, hclear, -⟩
  · exact ⟨fun _ => hall, fun _ => h0⟩
  · refine ⟨fun h0 => by omega, fun hall => ?_⟩
    rw [hall j hj] at hclear
    cases hclear

theorem bitvecFindFirstSet_least (h : bitvecFindFirstSet v ≠ 0) : ∃ k < 8 * v.size,
    bitvecFindFirstSet v = k + 1 ∧ bitvecGet v k = .ok false ∧
      ∀ j < k, bitvecGet v j = .ok true := by
  rcases bitvecFindFirstSet_spec v with ⟨h0, -⟩ | ⟨k, hk, hfind, hclear, hbelow⟩
  · exact absurd h0 h
  · exact ⟨k, hk, hfind, bitvecGet_eq_ok.mpr ⟨hk, hclear⟩, fun j hj =>
      bitvecGet_eq_ok.mpr ⟨hj.trans hk, hbelow j hj⟩⟩

/-- Updates, count and search of a bit vector agree with its bits. -/
theorem bitvec_views_agree (v : Bitvec) :
    (∀ k < 8 * v.size, (∃ w, bitvecSet v k = .ok w ∧ v.Changes k true w ∧
        (bitvecGet v k = .ok false → bitvecCountZeros w + 1 = bitvecCountZeros v)) ∧
      ∃ w, bitvecReset v k = .ok w ∧ v.Changes k false w ∧
        (bitvecGet v k = .ok true → bitvecCountZeros w = bitvecCountZeros v + 1)) ∧
    bitvecCountZeros v =
      ((Finset.range (8 * v.size)).filter fun k => bitvecGet v k = .ok false).card ∧
    (bitvecFindFirstSet v = 0 ↔ bitvecCountZeros v = 0) ∧
    (bitvecFindFirstSet v ≠ 0 → ∃ k < 8 * v.size, bitvecFindFirstSet v = k + 1 ∧
      bitvecGet v k = .ok false ∧ ∀ j < k, bitvecGet v j = .ok true) :=
  ⟨fun _ hk => ⟨bitvecSet_changes hk, bitvecReset_changes hk⟩, bitvecCountZeros_card v,
    bitvecFindFirstSet_eq_zero v, bitvecFindFirstSet_least⟩

end Views

end ChisaiFs
