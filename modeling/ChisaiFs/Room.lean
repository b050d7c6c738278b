import ChisaiFs.FsSpec
import ChisaiFs.Library.ClearCount

/-! How many data blocks, or inodes, the allocator can still give out. It stops for good at the
first group that has a clear bit but no cached index, whatever the groups behind it hold. -/

namespace ChisaiFs
open Outcome ClearCount

def GroupMap.clear (m : GroupMap) : ℕ := clearCount (8 * m.bitmap.size) m.bitmap.bit

/-- The clear bits in front of the first group that is stuck. -/
def roomIn : List GroupMap → ℕ
  | [] => 0
  | m :: ms => if m.Full then roomIn ms else if m.next = 0 then 0 else m.clear + roomIn ms

def Filesystem.room (fs : Filesystem) : ℕ := roomIn fs.blkGrps.data

def Filesystem.inodeRoom (fs : Filesystem) : ℕ := roomIn fs.blkGrps.inode

/-- No data bitmap is stuck. -/
def Filesystem.DataPrimed (fs : Filesystem) : Prop := ∀ m ∈ fs.blkGrps.data, m.Primed

instance (m : GroupMap) : Decidable m.Primed := inferInstanceAs (Decidable (_ → _))

instance (fs : Filesystem) : Decidable fs.DataPrimed :=
  inferInstanceAs (Decidable (∀ m ∈ fs.blkGrps.data, m.Primed))

section Column

variable {b : ℕ} {m : GroupMap} {ms ms' : List GroupMap} {n i idx : UInt32}

theorem clear_of_full (hm : m.Ok b) (hb : 8 * b < 2 ^ 32) (hfull : m.Full) : m.clear = 0 := by
  have hset := (full_iff hm.size hb).mp hfull
  unfold GroupMap.clear clearCount
  rw [Finset.card_eq_zero, Finset.filter_eq_empty_iff]
  intro k hk
  rw [hset k (by rw [Finset.mem_range, hm.size] at hk; exact hk)]
  decide

theorem roomIn_cons (hm : m.Ok b) (hb : 8 * b < 2 ^ 32) (hp : m.Primed) :
    roomIn (m :: ms) = m.clear + roomIn ms := by
  rw [roomIn]
  by_cases hfull : m.Full
  · rw [if_pos hfull, clear_of_full hm hb hfull, Nat.zero_add]
  · rw [if_neg hfull, if_neg fun h0 => hfull (hp h0)]

theorem roomIn_full (hfull : m.Full) : roomIn (m :: ms) = roomIn ms := if_pos hfull

theorem roomIn_stuck (hfull : ¬ m.Full) (h0 : m.next = 0) : roomIn (m :: ms) = 0 := by
  rw [roomIn, if_neg hfull, if_pos h0]

/-- The three outcomes of an allocation: an index, no index because every bitmap is full, or a
failure at a bitmap that is stuck. -/
inductive Allocates (ms : List GroupMap) : Exec (ChisaiSize × List GroupMap) → Prop
  | index {idx : ChisaiSize} {ms' : List GroupMap} (h0 : idx ≠ 0)
      (hroom : roomIn ms = roomIn ms' + 1)
      (hprimed : (∀ m ∈ ms', m.Primed) ↔ ∀ m ∈ ms, m.Primed) : Allocates ms (.ok (idx, ms'))
  | full (hroom : roomIn ms = 0) (hprimed : ∀ m ∈ ms, m.Primed) : Allocates ms (.ok (0, ms))
  | stuck (hroom : roomIn ms = 0) (hprimed : ¬ ∀ m ∈ ms, m.Primed) :
      Allocates ms (.error .outOfRange)

theorem Allocates.skip {r : Exec (ChisaiSize × List GroupMap)} (hfull : m.Full)
    (h : Allocates ms r) :
    Allocates (m :: ms) (r >>= fun r => pure (r.1, m :: r.2)) := by
  have hm : m.Primed := fun _ => hfull
  cases h with
  | index h0 hroom hprimed =>
    refine .index h0 (by rw [roomIn_full hfull, roomIn_full hfull, hroom]) ?_
    rw [List.forall_mem_cons, List.forall_mem_cons, hprimed]
  | full hroom hprimed =>
    exact .full (by rw [roomIn_full hfull, hroom]) (List.forall_mem_cons.mpr ⟨hm, hprimed⟩)
  | stuck hroom hprimed =>
    exact .stuck (by rw [roomIn_full hfull, hroom])
      fun h => hprimed (List.forall_mem_cons.mp h).2

theorem blkgrpsAllocFrom_room (hb : 0 < b) (hn : n.toNat = 8 * b) (hms : MapsOk b ms)
    (hi : (i.toNat + ms.length) * (8 * b) < 2 ^ 32) :
    Allocates ms (blkgrpsAllocFrom n i ms) := by
  have hbit : 8 * b < 2 ^ 32 := hn ▸ n.toNat_lt
  induction ms generalizing i with
  | nil => exact .full rfl fun m hm => absurd hm List.not_mem_nil
  | cons m ms ih =>
    obtain ⟨hm, hms⟩ := List.forall_mem_cons.mp hms
    rw [List.length_cons] at hi
    by_cases hfull : m.Full
    · have hi1 : (i + 1).toNat = i.toNat + 1 :=
        add_one_toNat (lt_of_mul_lt (by omega : 0 < 8 * b) hi)
      rw [blkgrpsAllocFrom_full hfull]
      exact (ih hms (by rw [hi1, Nat.add_assoc, Nat.add_comm 1]; exact hi)).skip hfull
    · rw [blkgrpsAllocFrom_free hfull]
      by_cases hnext : m.next = 0
      · rw [blkgrpAlloc_of_stale hm hbit hnext]
        exact .stuck (roomIn_stuck hfull hnext)
          fun h => hfull ((List.forall_mem_cons.mp h).1 hnext)
      · obtain ⟨m', he, hm', hprimed, hbits⟩ := blkgrpAlloc_of_next hm hbit hnext
        obtain ⟨hle, hclear⟩ := hm.clear hnext
        have hpos := toNat_pos hnext
        have hmp : m.Primed := fun h0 => absurd h0 hnext
        rw [he]
        refine .index ?_ ?_ ?_
        · have hmul : i.toNat * (8 * b) + 8 * b ≤ (i.toNat + (ms.length + 1)) * (8 * b) := by
            nlinarith
          have hidx : (i * n + m.next).toNat = i.toNat * (8 * b) + m.next.toNat := by
            rw [UInt32.toNat_add, UInt32.toNat_mul, hn, Nat.mod_eq_of_lt (by omega),
              Nat.mod_eq_of_lt (by omega)]
          intro h0
          rw [show i * n + m.next = 0 from h0, UInt32.toNat_zero] at hidx
          omega
        · have hset : m'.clear + 1 = m.clear := by
            unfold GroupMap.clear
            rw [hm'.size, hm.size]
            exact clearCount_set (by omega) hclear hbits
          rw [roomIn_cons hm hbit hmp, roomIn_cons hm' hbit hprimed]
          omega
        · rw [List.forall_mem_cons, List.forall_mem_cons]
          exact and_congr_left fun _ => ⟨fun _ => hmp, fun _ => hprimed⟩

end Column

inductive DataAllocates (geo : Geometry) (fs : Filesystem) : Exec (ChisaiSize × Filesystem) → Prop
  | block {k : ChisaiSize} {fs' : Filesystem} (h : Mounted geo fs') (hd : fs'.d = fs.d)
      (hr : geo.InRange k) (hk : k ∉ (volume geo fs).dataUsed)
      (hv : volume geo fs' = (volume geo fs).useData k) (hroom : fs.room = fs'.room + 1)
      (hprimed : fs'.DataPrimed ↔ fs.DataPrimed) : DataAllocates geo fs (.ok (k, fs'))
  | full (hroom : fs.room = 0) (hprimed : fs.DataPrimed) : DataAllocates geo fs (.ok (0, fs))
  | stuck (hroom : fs.room = 0) (hprimed : ¬ fs.DataPrimed) :
      DataAllocates geo fs (.error .outOfRange)

theorem fsDataAlloc_room {geo : Geometry} {fs : Filesystem} (h : Mounted geo fs) :
    DataAllocates geo fs (fsDataAlloc fs) := by
  have hspec := fun k fs' (he : fsDataAlloc fs = .ok (k, fs')) => fsDataAlloc_spec h he
  have halloc := blkgrpsAllocFrom_room (i := 0) h.groups.pos h.groups.num h.groups.data
    (h.groups.total .data)
  have heq : fsDataAlloc fs = blkgrpsAllocFrom fs.blkGrps.blkInodeNum 0 fs.blkGrps.data >>= fun r =>
      if r.1 = 0 then pure (0, { fs with blkGrps := { fs.blkGrps with data := r.2 } })
      else pure (r.1, { fs with
        blkGrps := { fs.blkGrps with data := r.2 }
        sb := { fs.sb with freeBlocks := fs.sb.freeBlocks - 1 } }) := by
    unfold fsDataAlloc blkgrpsDataAlloc
    cases blkgrpsAllocFrom fs.blkGrps.blkInodeNum 0 fs.blkGrps.data <;> rfl
  rw [heq] at hspec ⊢
  generalize blkgrpsAllocFrom fs.blkGrps.blkInodeNum 0 fs.blkGrps.data = r at halloc hspec ⊢
  cases halloc with
  | @index idx ms' h0 hroom hprimed =>
    rw [ok_bind, if_neg h0] at hspec ⊢
    obtain ⟨hm, hd, hcase⟩ := hspec _ _ rfl
    rcases hcase with ⟨hk, -⟩ | ⟨hr, hk, hv⟩
    · exact absurd hk h0
    · exact .block hm hd hr hk hv hroom hprimed
  | full hroom hprimed =>
    rw [ok_bind, if_pos rfl]
    exact .full hroom hprimed
  | stuck hroom hprimed => exact .stuck hroom hprimed

theorem fsInodeAlloc_room {geo : Geometry} {fs fs' : Filesystem} {i : ChisaiSize}
    (h : Mounted geo fs) (he : fsInodeAlloc fs = .ok (i, fs')) :
    (i ≠ 0 ∧ fs.inodeRoom ≠ 0) ∨ (i = 0 ∧ fs' = fs ∧ fs.inodeRoom = 0) := by
  have halloc := blkgrpsAllocFrom_room (i := 0) h.groups.pos h.groups.num h.groups.inode
    (h.groups.total .inode)
  have heq : fsInodeAlloc fs = blkgrpsAllocFrom fs.blkGrps.blkInodeNum 0 fs.blkGrps.inode >>= fun r =>
      if r.1 = 0 then pure (noInode, { fs with blkGrps := { fs.blkGrps with inode := r.2 } })
      else pure (r.1, { fs with
        blkGrps := { fs.blkGrps with inode := r.2 }
        sb := { fs.sb with freeInodes := fs.sb.freeInodes - 1 } }) := by
    unfold fsInodeAlloc blkgrpsInodeAlloc
    cases blkgrpsAllocFrom fs.blkGrps.blkInodeNum 0 fs.blkGrps.inode <;> rfl
  rw [heq] at he
  generalize blkgrpsAllocFrom fs.blkGrps.blkInodeNum 0 fs.blkGrps.inode = r at halloc he
  cases halloc with
  | index h0 hroom hprimed =>
    rw [ok_bind, if_neg h0] at he
    cases he
    left
    refine ⟨h0, ?_⟩
    unfold Filesystem.inodeRoom
    omega
  | full hroom hprimed =>
    rw [ok_bind, if_pos rfl] at he
    cases he
    exact Or.inr ⟨rfl, rfl, hroom⟩
  | stuck hroom hprimed => cases he

end ChisaiFs
