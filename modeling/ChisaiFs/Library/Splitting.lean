import Mathlib

/-! A range of positions split at the multiples of a block size. -/

namespace Splitting

/-- `len` positions of block `blk`, from `offIn` in it on. -/
structure Chunk where
  blk : ℕ
  offIn : ℕ
  len : ℕ
  deriving DecidableEq

def Chunk.start (b : ℕ) (c : Chunk) : ℕ := c.blk * b + c.offIn

/-- The front of a range, up to the end of its block. -/
def frontChunk (b off size : ℕ) : Chunk := ⟨off / b, off % b, min size (b - off % b)⟩

/-- The first `n` chunks of a range. -/
def split (b : ℕ) : ℕ → ℕ → ℕ → List Chunk
  | 0, _, _ => []
  | n + 1, off, size =>
    if size = 0 then []
    else
      let c := frontChunk b off size
      c :: split b n (off + c.len) (size - c.len)

def chunkCount (b off size : ℕ) : ℕ := if size = 0 then 0 else (off % b + size) ⌈/⌉ b

/-- The chunks make up the range, one behind the other and each in a block of its own. -/
structure Splits (b off size : ℕ) (cs : List Chunk) : Prop where
  pos : ∀ c ∈ cs, 0 < c.len
  inside : ∀ c ∈ cs, c.offIn + c.len ≤ b
  starts : ∀ c ∈ cs.head?, c.start b = off
  adjacent : cs.IsChain fun c d => d.start b = c.start b + c.len
  covers : ∀ p, off ≤ p ∧ p < off + size ↔ ∃ c ∈ cs, c.start b ≤ p ∧ p < c.start b + c.len
  count : cs.length = chunkCount b off size

section Ranges

variable {b off size n : ℕ} {cs : List Chunk}

theorem frontChunk_start (b off size : ℕ) : (frontChunk b off size).start b = off :=
  Nat.div_add_mod' off b

theorem frontChunk_pos (hb : 0 < b) (hsize : 0 < size) : 0 < (frontChunk b off size).len := by
  have hmod := Nat.mod_lt off hb
  exact lt_min hsize (by omega)

theorem frontChunk_le (b off size : ℕ) : (frontChunk b off size).len ≤ size := min_le_left _ _

theorem frontChunk_inside (hb : 0 < b) :
    (frontChunk b off size).offIn + (frontChunk b off size).len ≤ b := by
  have hmod := Nat.mod_lt off hb
  change off % b + min size (b - off % b) ≤ b
  omega

theorem chunkCount_zero (b off : ℕ) : chunkCount b off 0 = 0 := if_pos rfl

theorem chunkCount_front (hb : 0 < b) (hsize : 0 < size) :
    chunkCount b off size =
      chunkCount b (off + (frontChunk b off size).len) (size - (frontChunk b off size).len) + 1 := by
  have hmod := Nat.mod_lt off hb
  have hlen : (frontChunk b off size).len = min size (b - off % b) := rfl
  rw [hlen]
  rcases le_or_gt size (b - off % b) with hle | hgt
  · -- the front is all there is
    have hdiv : (off % b + size) ⌈/⌉ b = 1 := by
      rw [Nat.ceilDiv_eq_add_pred_div]
      exact Nat.div_eq_of_lt_le (by omega) (by omega)
    rw [min_eq_left hle, Nat.sub_self, chunkCount_zero, chunkCount, if_neg (by omega), hdiv]
  · -- the rest begins with a block
    have hnext : (off + (b - off % b)) % b = 0 := by
      have hdm := Nat.div_add_mod off b
      have hend : off + (b - off % b) = b * (off / b + 1) := by
        rw [Nat.mul_succ]
        omega
      rw [hend, Nat.mul_mod_right]
    rw [min_eq_right hgt.le, chunkCount, if_neg (by omega), chunkCount, if_neg (by omega), hnext,
      Nat.ceilDiv_eq_add_pred_div, Nat.ceilDiv_eq_add_pred_div, ← Nat.add_div_right _ hb]
    congr 1
    omega

theorem chunkCount_le (hb : 0 < b) : chunkCount b off size ≤ size := by
  induction size using Nat.strong_induction_on generalizing off with
  | _ size ih =>
    rcases Nat.eq_zero_or_pos size with rfl | hsize
    · rw [chunkCount_zero]
    · have hpos := @frontChunk_pos b off size hb hsize
      have hle := frontChunk_le b off size
      have hrest := @ih (size - (frontChunk b off size).len) (by omega)
        (off + (frontChunk b off size).len)
      rw [chunkCount_front hb hsize]
      omega

theorem Splits.nil (b off : ℕ) : Splits b off 0 [] where
  pos _ h := absurd h List.not_mem_nil
  inside _ h := absurd h List.not_mem_nil
  starts _ h := nomatch h
  adjacent := .nil
  covers p := by simp
  count := (chunkCount_zero b off).symm

theorem Splits.front (hb : 0 < b) (hsize : 0 < size)
    (h : Splits b (off + (frontChunk b off size).len) (size - (frontChunk b off size).len) cs) :
    Splits b off size (frontChunk b off size :: cs) where
  pos := List.forall_mem_cons.mpr ⟨frontChunk_pos hb hsize, h.pos⟩
  inside := List.forall_mem_cons.mpr ⟨frontChunk_inside hb, h.inside⟩
  starts c hc := by
    cases hc
    exact frontChunk_start b off size
  adjacent := by
    refine List.isChain_cons.mpr ⟨fun d hd => ?_, h.adjacent⟩
    rw [frontChunk_start, h.starts d hd]
  covers p := by
    have hle := frontChunk_le b off size
    simp only [List.mem_cons, exists_eq_or_imp, ← h.covers, frontChunk_start]
    omega
  count := by
    rw [List.length_cons, h.count, chunkCount_front hb hsize]

theorem splits_split (hb : 0 < b) (hn : chunkCount b off size ≤ n) :
    Splits b off size (split b n off size) := by
  induction n generalizing off size with
  | zero =>
    rcases Nat.eq_zero_or_pos size with rfl | hsize
    · exact Splits.nil b off
    · rw [chunkCount_front hb hsize] at hn
      omega
  | succ n ih =>
    rw [split]
    split_ifs with h0
    · subst h0
      exact Splits.nil b off
    · have hsize := Nat.pos_of_ne_zero h0
      rw [chunkCount_front hb hsize] at hn
      exact (ih (Nat.le_of_succ_le_succ hn)).front hb hsize

end Ranges

end Splitting
