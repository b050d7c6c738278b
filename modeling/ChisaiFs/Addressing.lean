import ChisaiFs.Reading

/-! The mapping slots that an offset reaches. The code narrows the block number of a 64-bit
offset to 32 bits before it compares it with the slots that there are. -/

namespace ChisaiFs
open Outcome Words

inductive Slot
  | direct (n : Fin directBlksNum)
  | entry (e : ℕ)

def slotOf (n : ℕ) : Slot :=
  if h : n < directBlksNum then .direct ⟨n, h⟩ else .entry (n - directBlksNum)

theorem slotOf_injective : Function.Injective slotOf := by
  intro n m h
  unfold slotOf at h
  split_ifs at h with hn hm
  · simpa using h
  · rw [Slot.entry.injEq] at h
    omega

namespace Slot

def load (fs : Filesystem) (inode : Inode) : Slot → Exec ChisaiSize
  | direct n => .ok (getElem inode.directBlks n.1 n.2)
  | entry e => do
    let buf ← loadEntry fs inode.indirectBlk e
    return u32.dec buf

def store (fs : Filesystem) (inode : Inode) (k : ChisaiSize) : Slot → Exec (Inode × Filesystem)
  | direct n => .ok ({ inode with directBlks := inode.directBlks.set n.1 k n.2 }, fs)
  | entry e => do
    let d ← deviceDataSave fs.d (e * 4 + fsDataToOffset fs inode.indirectBlk) (u32.enc k)
    return (inode, { fs with d := d })

/-- The block `k` and the inode as the slot needs them: for an entry there is an indirect block,
which is `k` itself if there was none, and a further block takes its place. -/
def prepare (entries : ℕ) (fs : Filesystem) (inode : Inode) (k : ChisaiSize) :
    Slot → Exec (ChisaiSize × Inode × Filesystem)
  | direct _ => .ok (k, inode, fs)
  | entry _ =>
    if inode.indirectBlk = 0 then do
      let d ← fsClearBlk fs k 0 entries fs.d
      let (k', fs') ← fsDataAlloc { fs with d := d }
      return (k', { inode with indirectBlk := k }, fs')
    else .ok (k, inode, fs)

end Slot

def findExact (fs : Filesystem) (inode : Inode) (n : ℕ) :
    Exec (ChisaiError × Option ChisaiSize) := do
  let k ← (slotOf n).load fs inode
  return lookupOf k

def allocExact (fs : Filesystem) (inode : Inode) (n : ℕ) :
    Exec (ChisaiError × ChisaiSize × Inode × Filesystem) := do
  let entries := fs.sb.blockSize.toNat / 4
  let (k, fs) ← fsDataAlloc fs
  if k = 0 then
    return (.enomem, k, inode, fs)
  else
    let (k, inode, fs) ← (slotOf n).prepare entries fs inode k
    let (inode, fs) ← (slotOf n).store fs inode k
    return (.ok, k, inode, fs)

def slotCount (b : UInt32) : ℕ := directBlksNum + b.toNat / 4

/-- With blocks of `b` bytes an offset is exactly the block number that it lies in: behind the
slots nothing is found or allocated, and otherwise the slot of that number is read or stored,
which no offset in another block shares. -/
structure ExactAt (b : UInt32) (off : ℕ) : Prop where
  beyond : slotCount b ≤ off / b.toNat → ∀ fs inode, fs.sb.blockSize = b →
    (∀ blkIdx r, fsFindBlk fs inode off blkIdx = .ok r → r.1 ≠ .ok) ∧
      ∀ r, fsAllocBlk fs inode off = .ok r → r.1 ≠ .ok
  within : off / b.toNat < slotCount b → ∀ fs inode, fs.sb.blockSize = b →
    (∀ blkIdx, fsFindBlk fs inode off blkIdx = findExact fs inode (off / b.toNat)) ∧
      fsAllocBlk fs inode off = allocExact fs inode (off / b.toNat)
  apart : ∀ off', off / b.toNat ≠ off' / b.toNat → slotOf (off / b.toNat) ≠ slotOf (off' / b.toNat)

section Exact

variable {fs : Filesystem} {inode : Inode} {off off' n : ℕ} {b : UInt32}

theorem slotOf_of_lt (h : n < directBlksNum) : slotOf n = .direct ⟨n, h⟩ := dif_pos h

theorem slotOf_of_ge (h : ¬ n < directBlksNum) : slotOf n = .entry (n - directBlksNum) := dif_neg h

theorem findExact_eq (fs : Filesystem) (inode : Inode) (n : ℕ) :
    findExact fs inode n = findAt fs inode n := by
  unfold findExact
  by_cases hn : n < directBlksNum
  · rw [slotOf_of_lt hn, findAt_of_lt hn, Inode.blk_of_lt hn]
    rfl
  · rw [slotOf_of_ge hn, findAt_of_ge hn, Slot.load]
    cases loadEntry fs inode.indirectBlk (n - directBlksNum) <;> rfl

theorem fsAllocBlk_eq (h : off / fs.sb.blockSize.toNat < blkLimit fs) :
    fsAllocBlk fs inode off = allocExact fs inode (off / fs.sb.blockSize.toNat) := by
  have hnum := blkNum_toNat h
  have hlt := blkNum_lt h
  unfold fsAllocBlk allocExact
  cases fsDataAlloc fs with
  | error e => rfl
  | ok r =>
    obtain ⟨k, fs₁⟩ := r
    by_cases hk : k = 0
    · simp only [ok_bind, hk, ↓reduceIte]
    by_cases hn : off / fs.sb.blockSize.toNat < directBlksNum
    · simp only [ok_bind, hk, ↓reduceIte, hnum, hn, ↓reduceDIte, slotOf_of_lt hn]
      rfl
    · have hindir := indirOff_toNat h hn
      simp only [ok_bind, hk, ↓reduceIte, hnum, hn, ↓reduceDIte, hlt, hindir, slotOf_of_ge hn,
        Slot.prepare, Slot.store, perBlock_toNat]
      by_cases h0 : inode.indirectBlk = 0
      · simp only [h0, ↓reduceIte, bind_assoc, pure_bind]
      · simp only [h0, ↓reduceIte, bind_assoc, pure_bind, ok_bind]

theorem fsFindBlk_congr (h : off / fs.sb.blockSize.toNat % 2 ^ 32 =
    off' / fs.sb.blockSize.toNat % 2 ^ 32) (blkIdx : Option ChisaiSize) :
    fsFindBlk fs inode off blkIdx = fsFindBlk fs inode off' blkIdx := by
  have hnum : UInt32.ofNat (off / fs.sb.blockSize.toNat) =
      UInt32.ofNat (off' / fs.sb.blockSize.toNat) := by
    rw [← UInt32.toNat_inj, UInt32.toNat_ofNat', UInt32.toNat_ofNat', h]
  simp only [fsFindBlk, hnum]

theorem fsFindBlk_narrowed (hb : 0 < fs.sb.blockSize.toNat)
    (h : off / fs.sb.blockSize.toNat % 2 ^ 32 < slotCount fs.sb.blockSize)
    (blkIdx : Option ChisaiSize) : fsFindBlk fs inode off blkIdx =
      findExact fs inode (off / fs.sb.blockSize.toNat % 2 ^ 32) := by
  generalize hm : off / fs.sb.blockSize.toNat % 2 ^ 32 = m at h ⊢
  have hdiv : m * fs.sb.blockSize.toNat / fs.sb.blockSize.toNat = m := Nat.mul_div_cancel m hb
  have hsame : off / fs.sb.blockSize.toNat % 2 ^ 32 =
      m * fs.sb.blockSize.toNat / fs.sb.blockSize.toNat % 2 ^ 32 := by
    rw [hdiv, ← hm, Nat.mod_mod]
  have hfind := fsFindBlk_eq (by rw [hdiv]; exact h) inode blkIdx
  rw [fsFindBlk_congr hsame, hfind, hdiv, findExact_eq]

theorem blkNum_beyond (h : slotCount fs.sb.blockSize ≤ off / fs.sb.blockSize.toNat % 2 ^ 32) :
    ¬ (UInt32.ofNat (off / fs.sb.blockSize.toNat)).toNat < directBlksNum ∧
      ¬ UInt32.ofNat (off / fs.sb.blockSize.toNat) <
        UInt32.ofNat directBlksNum + fs.sb.blockSize / 4 := by
  have hlt := fs.sb.blockSize.toNat_lt
  have hd : (UInt32.ofNat directBlksNum).toNat = 12 := rfl
  change 12 + fs.sb.blockSize.toNat / 4 ≤ _ at h
  rw [UInt32.lt_iff_toNat_lt, UInt32.toNat_add, hd, perBlock_toNat, UInt32.toNat_ofNat',
    Nat.mod_eq_of_lt (show 12 + fs.sb.blockSize.toNat / 4 < 2 ^ 32 by omega)]
  change ¬ _ < 12 ∧ _
  omega

theorem fsFindBlk_beyond
    (h : slotCount fs.sb.blockSize ≤ off / fs.sb.blockSize.toNat % 2 ^ 32)
    (blkIdx : Option ChisaiSize) : fsFindBlk fs inode off blkIdx = .ok (.corrupt, blkIdx) := by
  obtain ⟨hn, hlt⟩ := blkNum_beyond h
  simp only [fsFindBlk, hn, ↓reduceDIte, hlt, ↓reduceIte]
  rfl

theorem fsAllocBlk_beyond
    (h : slotCount fs.sb.blockSize ≤ off / fs.sb.blockSize.toNat % 2 ^ 32)
    {r : ChisaiError × ChisaiSize × Inode × Filesystem} (he : fsAllocBlk fs inode off = .ok r) :
    r.1 ≠ .ok := by
  obtain ⟨hn, hlt⟩ := blkNum_beyond h
  obtain ⟨⟨k, fs₁⟩, -, he⟩ := bind_eq_ok.mp he
  by_cases hk : k = 0
  · simp only [hk, ↓reduceIte] at he
    cases he
    exact nofun
  · simp only [hk, ↓reduceIte, hn, ↓reduceDIte, hlt] at he
    cases he
    exact nofun

/-- An inode that maps every number to block 1, and a device of ones. -/
def everyBlock : Inode := { inodeInit with
  directBlks := Vector.replicate directBlksNum 1
  indirectBlk := 1 }

def onesDevice (b : UInt32) (size : ℕ) : Filesystem where
  sb := ⟨0, b, 0, 0, 0, 0, 0, 1⟩
  blkGrps := ⟨0, 0, 0, [], []⟩
  d := ⟨size, fun _ => 1⟩
  blkgrpSize := 0

theorem findExact_ones (b : UInt32) (n : ℕ) :
    ∃ size k, findExact (onesDevice b size) everyBlock n = .ok (.ok, some k) := by
  by_cases hn : n < directBlksNum
  · refine ⟨0, 1, ?_⟩
    have hload : (slotOf n).load (onesDevice b 0) everyBlock = .ok 1 := by
      rw [slotOf_of_lt hn]
      exact congrArg Except.ok (Vector.getElem_replicate hn)
    rw [findExact, hload]
    rfl
  · refine ⟨(n - directBlksNum) * 4 + fsDataToOffset (onesDevice b 0) 1 + 4, 16843009, ?_⟩
    generalize hsize : (n - directBlksNum) * 4 + fsDataToOffset (onesDevice b 0) 1 + 4 = size
    have hload : loadEntry (onesDevice b size) 1 (n - directBlksNum) = .ok [1, 1, 1, 1] := by
      refine deviceDataLoad_eq_ok.mpr ⟨?_, rfl⟩
      change (n - directBlksNum) * 4 + fsDataToOffset (onesDevice b 0) 1 + 4 ≤ size
      omega
    rw [findExact, slotOf_of_ge hn, Slot.load, show everyBlock.indirectBlk = 1 from rfl, hload]
    rfl

/-- The block numbers are exact unless one behind the slots comes around to a slot. -/
theorem exactAt_iff (b : UInt32) (off : ℕ) : ExactAt b off ↔
    off / b.toNat < slotCount b ∨ slotCount b ≤ off / b.toNat % 2 ^ 32 := by
  constructor
  · intro h
    by_contra hcond
    obtain ⟨hge, hlt⟩ := not_or.mp hcond
    have hb : 0 < b.toNat := by
      rw [Nat.pos_iff_ne_zero]
      intro h0
      rw [h0, Nat.div_zero] at hge
      exact hge (Nat.lt_of_lt_of_le directBlksNum_pos (Nat.le_add_right _ _))
    obtain ⟨size, k, hfind⟩ := findExact_ones b (off / b.toNat % 2 ^ 32)
    have hslot : fsFindBlk (onesDevice b size) everyBlock off none = .ok (.ok, some k) :=
      (fsFindBlk_narrowed hb (not_le.mp hlt) none).trans hfind
    exact (h.beyond (not_lt.mp hge) _ everyBlock rfl).1 none _ hslot rfl
  · intro hcond
    refine ⟨fun hge fs inode hb => ?_, fun hlt fs inode hb => ?_, fun off' hne he =>
      hne (slotOf_injective he)⟩
    · subst hb
      have hbeyond := hcond.resolve_left (not_lt.mpr hge)
      refine ⟨fun blkIdx r he => ?_, fun r he => fsAllocBlk_beyond hbeyond he⟩
      rw [fsFindBlk_beyond hbeyond] at he
      cases he
      exact nofun
    · subst hb
      refine ⟨fun blkIdx => ?_, fsAllocBlk_eq hlt⟩
      rw [findExact_eq, fsFindBlk_eq hlt]

end Exact

/-- Block number 2^32 of a file comes around to its block 0. -/
theorem offset_comes_around :
    ∃ fs, Reachable smallDisk fs ∧ FreshFile fs threeBytesFile ∧ fs.sb.blockSize = 512 ∧
      slotCount 512 ≤ 2199023255552 / 512 ∧
      fsFindBlk fs threeBytesFile.inode 2199023255552 none = .ok (.ok, some 2) ∧
      fsFindBlk fs threeBytesFile.inode 0 none = .ok (.ok, some 2) ∧
      ¬ ExactAt 512 2199023255552 := by
  have hrun : ∃ fs, Reachable smallDisk fs ∧ (FreshFile fs threeBytesFile ∧
      fs.sb.blockSize = 512 ∧
      fsFindBlk fs threeBytesFile.inode 2199023255552 none = .ok (.ok, some 2) ∧
      fsFindBlk fs threeBytesFile.inode 0 none = .ok (.ok, some 2)) := by
    apply exists_reachable threeBytes
    decide +kernel
  obtain ⟨fs, hreach, hfresh, hsize, hfind, hfirst⟩ := hrun
  refine ⟨fs, hreach, hfresh, hsize, by decide, hfind, hfirst, fun hexact => ?_⟩
  exact (hexact.beyond (by decide) fs threeBytesFile.inode hsize).1 none _ hfind rfl

end ChisaiFs
