import Mathlib

/-! Fixed-width memory images. A codec carries the proof that decoding an image
gives back the value it was made from, and codecs compose into records and arrays. -/

structure Codec (β α : Type*) where
  width : ℕ
  enc : α → List β
  dec : List β → α
  length_enc : ∀ a, (enc a).length = width
  dec_enc : ∀ a, dec (enc a) = a

namespace Codec

variable {β α γ : Type*}

attribute [simp] length_enc dec_enc

/-- Cells that hold no value: written as `fill`, ignored when read. -/
def padding (n : ℕ) (fill : β) : Codec β Unit where
  width := n
  enc _ := List.replicate n fill
  dec _ := ()
  length_enc _ := List.length_replicate
  dec_enc _ := rfl

def pair (c : Codec β α) (d : Codec β γ) : Codec β (α × γ) where
  width := c.width + d.width
  enc p := c.enc p.1 ++ d.enc p.2
  dec l := (c.dec (l.take c.width), d.dec (l.drop c.width))
  length_enc p := by simp
  dec_enc p := by
    have ht : (c.enc p.1 ++ d.enc p.2).take c.width = c.enc p.1 := by
      rw [← c.length_enc p.1, List.take_left]
    have hd : (c.enc p.1 ++ d.enc p.2).drop c.width = d.enc p.2 := by
      rw [← c.length_enc p.1, List.drop_left]
    simp [ht, hd]

def via (c : Codec β α) (e : γ ≃ α) : Codec β γ where
  width := c.width
  enc x := c.enc (e x)
  dec l := e.symm (c.dec l)
  length_enc _ := c.length_enc _
  dec_enc _ := by simp

theorem length_flatMap_enc (c : Codec β α) (xs : List α) :
    (xs.flatMap c.enc).length = xs.length * c.width := by
  induction xs with
  | nil => simp
  | cons x xs ih => simp [ih, Nat.succ_mul, Nat.add_comm]

theorem take_drop_flatMap_enc (c : Codec β α) (xs : List α) (i : ℕ) (h : i < xs.length) :
    ((xs.flatMap c.enc).drop (i * c.width)).take c.width = c.enc xs[i] := by
  induction xs generalizing i with
  | nil => simp at h
  | cons x xs ih =>
    cases i with
    | zero =>
      have ht : (c.enc x ++ xs.flatMap c.enc).take c.width = c.enc x := by
        rw [← c.length_enc x, List.take_left]
      simp [ht]
    | succ i =>
      have hd : (c.enc x ++ xs.flatMap c.enc).drop ((i + 1) * c.width) =
          (xs.flatMap c.enc).drop (i * c.width) := by
        rw [Nat.succ_mul, Nat.add_comm, ← List.drop_drop, ← c.length_enc x, List.drop_left]
      simpa [hd] using ih i (by simpa using h)

def array (c : Codec β α) (n : ℕ) : Codec β (Vector α n) where
  width := n * c.width
  enc v := v.toList.flatMap c.enc
  dec l := Vector.ofFn fun i => c.dec ((l.drop (i * c.width)).take c.width)
  length_enc v := by rw [length_flatMap_enc, Vector.length_toList]
  dec_enc v := by
    ext i hi
    simp [take_drop_flatMap_enc c v.toList i (by simpa using hi)]

end Codec
