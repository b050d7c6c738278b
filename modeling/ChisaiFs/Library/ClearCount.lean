import Mathlib

/-! The clear bits among the first `n`: how many they are, and which, in their order. -/

namespace ClearCount

def clearCount (n : ℕ) (f : ℕ → Bool) : ℕ := ((Finset.range n).filter fun p => f p = false).card

variable {n p : ℕ} {f g : ℕ → Bool}

theorem clearCount_le (n : ℕ) (f : ℕ → Bool) : clearCount n f ≤ n := by
  have h := Finset.card_filter_le (Finset.range n) fun p => f p = false
  rwa [Finset.card_range] at h

theorem clearCount_of_clear (h : ∀ p < n, f p = false) : clearCount n f = n := by
  have hall : (Finset.range n).filter (fun p => f p = false) = Finset.range n :=
    Finset.filter_true_of_mem fun p hp => h p (Finset.mem_range.mp hp)
  rw [clearCount, hall, Finset.card_range]

theorem clearCount_lt (hp : p < n) (hset : f p = true) : clearCount n f < n := by
  have hne : (Finset.range n).filter (fun q => f q = false) ≠ Finset.range n := by
    intro he
    have hmem : p ∈ (Finset.range n).filter fun q => f q = false := by
      rw [he]
      exact Finset.mem_range.mpr hp
    rw [(Finset.mem_filter.mp hmem).2] at hset
    cases hset
  have hlt := Finset.card_lt_card (Finset.ssubset_iff_subset_ne.mpr ⟨Finset.filter_subset _ _, hne⟩)
  rwa [Finset.card_range] at hlt

theorem clearCount_set (hp : p < n) (hclear : f p = false) (hg : ∀ q, g q = (q == p || f q)) :
    clearCount n g + 1 = clearCount n f := by
  have hmem : p ∈ (Finset.range n).filter fun q => f q = false :=
    Finset.mem_filter.mpr ⟨Finset.mem_range.mpr hp, hclear⟩
  have herase : (Finset.range n).filter (fun q => g q = false) =
      ((Finset.range n).filter fun q => f q = false).erase p := by
    ext q
    rw [Finset.mem_erase, Finset.mem_filter, Finset.mem_filter, hg, Bool.or_eq_false_iff,
      beq_eq_false_iff_ne]
    tauto
  rw [clearCount, clearCount, herase]
  exact Finset.card_erase_add_one hmem

theorem clearCount_reset (hp : p < n) (hset : f p = true) (hg : ∀ q, g q = (q != p && f q)) :
    clearCount n g = clearCount n f + 1 := by
  have hclear : g p = false := by simp [hg]
  refine (clearCount_set hp hclear fun q => ?_).symm
  by_cases hq : q = p
  · simp [hq, hset]
  · rw [hg, beq_eq_false_iff_ne.mpr hq, bne_iff_ne.mpr hq]
    rfl

theorem clearCount_congr (h : ∀ p < n, f p = g p) : clearCount n f = clearCount n g := by
  unfold clearCount
  congr 1
  apply Finset.filter_congr
  intro p hp
  rw [h p (Finset.mem_range.mp hp)]

theorem clearCount_add (m n : ℕ) (f : ℕ → Bool) :
    clearCount (m + n) f = clearCount m f + clearCount n fun p => f (m + p) := by
  simp only [clearCount, Finset.card_filter, Finset.sum_range_add]

def clears (n : ℕ) (f : ℕ → Bool) : List ℕ := (List.range n).filter fun p => f p = false

theorem mem_clears : p ∈ clears n f ↔ p < n ∧ f p = false := by
  simp [clears]

theorem clears_increasing (n : ℕ) (f : ℕ → Bool) : (clears n f).Pairwise (· < ·) :=
  List.pairwise_lt_range.filter _

theorem clears_of_set (h : ∀ p < n, f p = true) : clears n f = [] := by
  simpa [clears] using h

theorem clears_of_clear (h : ∀ p < n, f p = false) : clears n f = List.range n := by
  simpa [clears] using h

theorem clears_add (m n : ℕ) (f : ℕ → Bool) :
    clears (m + n) f = clears m f ++ (clears n fun p => f (m + p)).map (m + ·) := by
  simp [clears, List.range_add, List.filter_map, Function.comp_def]

theorem clears_of_least (hp : p < n) (hclear : f p = false) (hleast : ∀ q < p, f q = true)
    (hg : ∀ q, g q = (q == p || f q)) : clears n f = p :: clears n g := by
  obtain ⟨r, rfl⟩ := Nat.exists_eq_add_of_le (Nat.succ_le_of_lt hp)
  have hlow : clears (p + 1) f = [p] := by
    simpa [clears, List.range_succ, List.filter_append, hclear] using hleast
  have hset : clears (p + 1) g = [] := by
    apply clears_of_set
    intro q hq
    rw [hg]
    rcases Nat.lt_succ_iff_lt_or_eq.mp hq with hq | rfl
    · simp [hleast q hq]
    · simp
  have hrest : (fun q => g (p + 1 + q)) = fun q => f (p + 1 + q) := by
    funext q
    rw [hg, beq_eq_false_iff_ne.mpr (by omega), Bool.false_or]
  rw [clears_add, clears_add, hlow, hset, hrest]
  rfl

end ClearCount
