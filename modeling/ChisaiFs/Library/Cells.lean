import Mathlib

/-! Address spaces of cells, with ranged reads and writes. -/

namespace Cells

variable {α : Type*}

def slice (m : ℕ → α) (off n : ℕ) : List α := List.ofFn fun k : Fin n => m (off + k)

def overwrite (m : ℕ → α) (off : ℕ) (xs : List α) : ℕ → α := fun p =>
  if h : off ≤ p ∧ p - off < xs.length then xs.get ⟨p - off, h.2⟩ else m p

@[simp] theorem slice_length (m : ℕ → α) (off n : ℕ) : (slice m off n).length = n := by
  simp [slice]

@[simp] theorem getElem_slice (m : ℕ → α) (off n k : ℕ) (h : k < (slice m off n).length) :
    (slice m off n)[k] = m (off + k) := by
  simp [slice]

theorem slice_congr {m m' : ℕ → α} {off n : ℕ} (h : ∀ k < n, m (off + k) = m' (off + k)) :
    slice m off n = slice m' off n := by
  apply List.ext_getElem
  · simp
  · intro k hk _
    simpa using h k (by simpa using hk)

theorem slice_eq_iff {m : ℕ → α} {off n : ℕ} {xs : List α} (hn : xs.length = n) :
    slice m off n = xs ↔ ∀ k (h : k < xs.length), m (off + k) = xs[k] := by
  constructor
  · rintro rfl k h
    simp
  · intro h
    apply List.ext_getElem
    · simp [hn]
    · intro k _ hk
      simpa using h k hk

theorem slice_add (m : ℕ → α) (off n k : ℕ) :
    slice m off (n + k) = slice m off n ++ slice m (off + n) k := by
  apply List.ext_getElem
  · simp
  · intro i hi _
    by_cases h : i < n
    · simp [h]
    · have he : off + n + (i - n) = off + i := by omega
      simp [List.getElem_append, h, he]

theorem drop_slice (m : ℕ → α) (off : ℕ) {k n : ℕ} (h : k ≤ n) :
    (slice m off n).drop k = slice m (off + k) (n - k) := by
  obtain ⟨l, rfl⟩ := Nat.exists_eq_add_of_le h
  rw [slice_add, List.drop_left' (slice_length _ _ _), Nat.add_sub_cancel_left]

theorem overwrite_inside (m : ℕ → α) (off : ℕ) (xs : List α) (k : ℕ) (h : k < xs.length) :
    overwrite m off xs (off + k) = xs[k] := by
  simp [overwrite, h]

theorem overwrite_outside (m : ℕ → α) {off : ℕ} {xs : List α} {p : ℕ}
    (h : p < off ∨ off + xs.length ≤ p) : overwrite m off xs p = m p := by
  have hn : ¬ (off ≤ p ∧ p - off < xs.length) := by omega
  simp [overwrite, hn]

@[simp] theorem overwrite_nil (m : ℕ → α) (off : ℕ) : overwrite m off [] = m := by
  funext p
  simp [overwrite]

theorem slice_overwrite_self (m : ℕ → α) (off : ℕ) (xs : List α) :
    slice (overwrite m off xs) off xs.length = xs :=
  (slice_eq_iff rfl).mpr fun k h => overwrite_inside m off xs k h

theorem slice_overwrite_disjoint (m : ℕ → α) {off : ℕ} {xs : List α} {a n : ℕ}
    (h : a + n ≤ off ∨ off + xs.length ≤ a) : slice (overwrite m off xs) a n = slice m a n :=
  slice_congr fun k hk => overwrite_outside m (by omega)

theorem overwrite_append (m : ℕ → α) (off : ℕ) (xs ys : List α) :
    overwrite (overwrite m off xs) (off + xs.length) ys = overwrite m off (xs ++ ys) := by
  funext p
  simp only [overwrite, List.length_append, List.get_eq_getElem, List.getElem_append]
  by_cases hx : off ≤ p ∧ p - off < xs.length
  · have hy : ¬ (off + xs.length ≤ p ∧ p - (off + xs.length) < ys.length) := by omega
    have hp : off ≤ p ∧ p - off < xs.length + ys.length := by omega
    simp only [hx, hy, hp, ↓reduceDIte, and_self]
  · by_cases hy : off + xs.length ≤ p ∧ p - (off + xs.length) < ys.length
    · have hp : off ≤ p ∧ p - off < xs.length + ys.length := by omega
      have hlt : ¬ p - off < xs.length := by omega
      have he : p - off - xs.length = p - (off + xs.length) := by omega
      simp only [hy, hp, hlt, he, ↓reduceDIte, and_self]
    · have hp : ¬ (off ≤ p ∧ p - off < xs.length + ys.length) := by omega
      simp only [hx, hy, hp, ↓reduceDIte]

end Cells
