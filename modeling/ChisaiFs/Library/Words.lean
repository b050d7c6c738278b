import ChisaiFs.Library.Codec
import Mathlib

/-! Little-endian machine words as byte images. -/

namespace Words

def leBytes : ℕ → ℕ → List UInt8
  | 0, _ => []
  | w + 1, n => UInt8.ofNat n :: leBytes w (n / 256)

def leNat : List UInt8 → ℕ
  | [] => 0
  | b :: bs => b.toNat + 256 * leNat bs

@[simp] theorem leBytes_length (w n : ℕ) : (leBytes w n).length = w := by
  induction w generalizing n with
  | zero => rfl
  | succ w ih => simp [leBytes, ih]

theorem leNat_leBytes (w n : ℕ) : leNat (leBytes w n) = n % 256 ^ w := by
  induction w generalizing n with
  | zero => simp [leBytes, leNat, Nat.mod_one]
  | succ w ih =>
    have hm := Nat.mod_mul (x := n) (a := 256) (b := 256 ^ w)
    simp only [leBytes, leNat, ih, UInt8.toNat_ofNat', pow_succ']
    omega

def u32 : Codec UInt8 UInt32 where
  width := 4
  enc x := leBytes 4 x.toNat
  dec l := UInt32.ofNat (leNat l)
  length_enc _ := leBytes_length _ _
  dec_enc x := by
    have h : x.toNat % 256 ^ 4 = x.toNat := Nat.mod_eq_of_lt x.toNat_lt
    rw [leNat_leBytes, h, UInt32.ofNat_toNat]

theorem u32_dec_mod (x : UInt8) (l : List UInt8) : (u32.dec (x :: l)).toNat % 256 = x.toNat := by
  have hx := x.toNat_lt
  change (UInt32.ofNat (x.toNat + 256 * leNat l)).toNat % 256 = x.toNat
  rw [UInt32.toNat_ofNat']
  omega

def u64 : Codec UInt8 UInt64 where
  width := 8
  enc x := leBytes 8 x.toNat
  dec l := UInt64.ofNat (leNat l)
  length_enc _ := leBytes_length _ _
  dec_enc x := by
    have h : x.toNat % 256 ^ 8 = x.toNat := Nat.mod_eq_of_lt x.toNat_lt
    rw [leNat_leBytes, h, UInt64.ofNat_toNat]

def i64 : Codec UInt8 Int64 :=
  u64.via ⟨Int64.toUInt64, UInt64.toInt64, fun x => x.toInt64_toUInt64, fun x => x.toUInt64_toInt64⟩

def u8 : Codec UInt8 UInt8 where
  width := 1
  enc x := [x]
  dec l := l.headD 0
  length_enc _ := rfl
  dec_enc _ := rfl

end Words
