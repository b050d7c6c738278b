import Mathlib

/-! Constants, error codes and the ways a call can end without returning. -/

namespace ChisaiFs

/-- `chisai_size_t`: inode and data-block indexes, 1-based with 0 for "none". -/
abbrev ChisaiSize := UInt32

/-- A C string without its terminator. -/
abbrev CString := List UInt8

abbrev inodeSize : UInt32 := 128
abbrev byteBits : UInt32 := 8
abbrev chisaiFileLen : ℕ := 28
abbrev chisaiFilePerDir : ℕ := 15
abbrev directBlksNum : ℕ := 12
abbrev magic : UInt32 := 0x52696B6F

abbrev noInode : ChisaiSize := 0
abbrev badblkInode : ChisaiSize := 1
abbrev rootInode : ChisaiSize := 2

/-- `enum chisai_error`. -/
inductive ChisaiError
  | ok
  | enoent
  | enomem
  | eexist
  | einval
  | efbig
  | enametoolong
  | corrupt
  deriving DecidableEq, Repr

def ChisaiError.code : ChisaiError → ℤ
  | .ok => 0
  | .enoent => -2
  | .enomem => -12
  | .eexist => -17
  | .einval => -22
  | .efbig => -27
  | .enametoolong => -36
  | .corrupt => -84

/-- A call that does not return. `outsideDevice` stands for an access past the end of
the block device, whose outcome the file system leaves to the operating system. -/
inductive Fault
  | assertFailed
  | outOfRange
  | uninitialised
  | outsideDevice
  | useAfterFree
  | die
  | diverges
  deriving DecidableEq, Repr

abbrev Exec := Except Fault

def assertThat (p : Prop) [Decidable p] : Exec Unit :=
  if p then .ok () else .error .assertFailed

/-- A `size_t` returned through `int`. -/
def toInt (n : ℕ) : ℤ := Int.bmod n (2 ^ 32)

def sIfmt : UInt32 := 0o170000
def sIfdir : UInt32 := 0o040000
def sIfreg : UInt32 := 0o100000

def sIsdir (mode : UInt32) : Prop := mode &&& sIfmt = sIfdir
def sIsreg (mode : UInt32) : Prop := mode &&& sIfmt = sIfreg

instance (mode : UInt32) : Decidable (sIsdir mode) := inferInstanceAs (Decidable (_ = _))
instance (mode : UInt32) : Decidable (sIsreg mode) := inferInstanceAs (Decidable (_ = _))

theorem not_sIsdir_of_sIsreg {mode : UInt32} (h : sIsreg mode) : ¬ sIsdir mode := by
  intro hd
  have he : sIfreg = sIfdir := h.symm.trans hd
  exact absurd he (by decide)

end ChisaiFs
