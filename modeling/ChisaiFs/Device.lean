import ChisaiFs.Config
import ChisaiFs.Library.Cells

/-! The block device as a bounded array of bytes, which refuses accesses past its end. What the
operating system does with them is a parameter of the reads and writes that can get there. -/

namespace ChisaiFs
open Cells

structure Device where
  size : ℕ
  bytes : ℕ → UInt8

/-- `device_data_load`: the bytes `[offset, offset + size)`. -/
def deviceDataLoad (d : Device) (offset size : ℕ) : Exec (List UInt8) :=
  if offset + size ≤ d.size then .ok (slice d.bytes offset size) else .error .outsideDevice

def deviceDataSave (d : Device) (offset : ℕ) (buf : List UInt8) : Exec Device :=
  if offset + buf.length ≤ d.size then .ok { d with bytes := overwrite d.bytes offset buf }
  else .error .outsideDevice

/-- What the operating system does with an access past the end. `lseek` fails there, its result is
not looked at, and the access goes to where the file descriptor was before. For the pass of a read
or write at position `pos` of its file (0 for the bitmaps of a mount) and the offset it asks for:
what a load finds, and what a store leaves on the device. -/
structure Stray where
  load : ℕ → ℕ → Exec (ℕ → UInt8)
  save : ℕ → ℕ → Device → List UInt8 → Exec (ℕ → UInt8)

theorem deviceDataLoad_eq_ok {d : Device} {offset size : ℕ} {buf : List UInt8} :
    deviceDataLoad d offset size = .ok buf ↔
      offset + size ≤ d.size ∧ slice d.bytes offset size = buf := by
  unfold deviceDataLoad
  split_ifs with h <;> simp [h]

theorem deviceDataSave_eq_ok {d d' : Device} {offset : ℕ} {buf : List UInt8} :
    deviceDataSave d offset buf = .ok d' ↔
      offset + buf.length ≤ d.size ∧ { d with bytes := overwrite d.bytes offset buf } = d' := by
  unfold deviceDataSave
  split_ifs with h <;> simp [h]

theorem deviceDataLoad_save_same {d d' : Device} {offset : ℕ} {buf : List UInt8}
    (h : deviceDataSave d offset buf = .ok d') :
    deviceDataLoad d' offset buf.length = .ok buf := by
  obtain ⟨hfit, rfl⟩ := deviceDataSave_eq_ok.mp h
  exact deviceDataLoad_eq_ok.mpr ⟨hfit, slice_overwrite_self _ _ _⟩

theorem deviceDataLoad_save_apart {d d' : Device} {offset a n : ℕ} {buf : List UInt8}
    (h : deviceDataSave d offset buf = .ok d') (ha : a + n ≤ offset ∨ offset + buf.length ≤ a) :
    deviceDataLoad d' a n = deviceDataLoad d a n := by
  obtain ⟨-, rfl⟩ := deviceDataSave_eq_ok.mp h
  unfold deviceDataLoad
  rw [slice_overwrite_disjoint _ ha]

end ChisaiFs
