import ChisaiFs.FileStore
import ChisaiFs.Remount

/-! One device over many mounts. No operation writes a bitmap back and unmounting writes nothing at
all, so however the process ends between two operations, the next one begins with an empty file
system. -/

namespace ChisaiFs
open Cells Outcome Simulation

/-- An operation, or the end of the process and a new one on the same device. -/
inductive LifeEvent
  | call (op : Op)
  | remount

def LifeEvent.reply (fs : Filesystem) : LifeEvent → Exec (ℤ × Filesystem)
  | .call op => op.reply fs
  | .remount => (fun fs => (0, fs)) <$> ChisaiFs.remount fs

/-- Operations are tidy and sequential, and a process ends whenever it does. -/
def LifeEvent.Expected (fs : Filesystem) : LifeEvent → Prop
  | .call op => op.Tidy fs ∧ op.Sequential fs
  | .remount => True

instance LifeEvent.decidableExpected (fs : Filesystem) : (e : LifeEvent) → Decidable (e.Expected fs)
  | .call op => inferInstanceAs (Decidable (op.Tidy fs ∧ op.Sequential fs))
  | .remount => isTrue trivial

def LifeStep (fs : Filesystem) (e : LifeEvent) (o : ℤ) (fs' : Filesystem) : Prop :=
  e.Expected fs ∧ e.reply fs = .ok (o, fs')

inductive Files.LifeStep (m : Files) : LifeEvent → ℤ → Files → Prop
  | call {op : Op} {o : ℤ} {m' : Files} (hs : m.Step op o m') : LifeStep m (.call op) o m'
  | remount : LifeStep m .remount 0 Files.empty

section Mounts

variable {geo : Geometry} {d : Device} {fs₀ fs fs' : Filesystem} {m : Files}

theorem fsInit_blank (h : Formatted geo d) (hbad : (d.bare geo).inode badblkInode = blankInode)
    (he : fsInit (unmounted d) = .ok fs) : Blank geo fs := by
  obtain ⟨hm, -, hv, -⟩ := fsInit_formatted h he
  exact ⟨hm, hv ▸ withRoot_wellformed rfl hbad, d, hv⟩

/-- What holds at any time in the life of a device. -/
structure Alive (geo : Geometry) (m : Files) (fs : Filesystem) : Prop where
  kept : m.Kept geo fs
  formatted : Formatted geo fs.d

theorem Alive.remount (h : Alive geo m fs) (he : ChisaiFs.remount fs = .ok fs') :
    Alive geo Files.empty fs' := by
  have hw := h.kept.inOrder.orderly.wellformed
  have hblank : Blank geo fs' := fsInit_blank h.formatted hw.bad he
  refine ⟨hblank.kept, h.formatted.congr hblank.mounted.device fun p hp => ?_⟩
  exact fsInit_reserved h.formatted he hp

theorem Alive.step (h : Alive geo m fs) {e : LifeEvent} {o : ℤ} (hs : LifeStep fs e o fs') :
    ∃ m', m.LifeStep e o m' ∧ Alive geo m' fs' := by
  obtain ⟨hexp, he⟩ := hs
  cases e with
  | call op =>
    obtain ⟨m', hstep, hk⟩ := h.kept.step ⟨hexp, he⟩
    obtain ⟨r, hcall, -⟩ := Op.exists_call he
    have hrun : Reaches Op.step (fun _ _ => True) fs fs' :=
      .tail op .refl trivial (Op.step_of_call hcall)
    obtain ⟨hm, hsame⟩ := run_reserved h.kept.inOrder.orderly.mounted hrun
    exact ⟨m', .call hstep, hk, h.formatted.congr hm.device hsame⟩
  | remount =>
    obtain ⟨_, hinit, hpair⟩ := map_eq_ok.mp he
    cases hpair
    exact ⟨Files.empty, .remount, h.remount hinit⟩

theorem freshMount_alive (h : freshMount geo = .ok fs) : Alive geo Files.empty fs := by
  have hrun : Reaches Op.step (fun _ _ => True) fs fs := .refl
  exact ⟨(freshMount_blank h).kept, formatted_of_run h hrun⟩

/-- Over any number of mounts the device does what two maps do that every mount empties, and at any
time it can be mounted again, with nothing on it but the root. -/
theorem mounts_refine (hmount : freshMount geo = .ok fs₀) {l : List (LifeEvent × ℤ)}
    (hrun : Traces LifeStep fs₀ l fs) :
    ∃ m, Traces Files.LifeStep Files.empty l m ∧ m.Delivers fs ∧
      ∃ fs', ChisaiFs.remount fs = .ok fs' ∧ OnlyRoot geo fs' := by
  obtain ⟨m, htrace, ha⟩ := hrun.simulated (R := fun fs m => Alive geo m fs)
    (fun _ _ _ _ _ h hs => h.step hs) (freshMount_alive hmount)
  obtain ⟨d, hd, hinit⟩ := bind_eq_ok.mp hmount
  obtain ⟨fs', hfs'⟩ := fsInit_total ha.formatted (freshDisk_formatted hd) hinit
  exact ⟨m, htrace, ha.kept.describes.delivers ha.kept.inOrder.orderly, fs', hfs',
    onlyRoot_of_fsInit ha.formatted hfs'⟩

/-- A file with three bytes in one mount, an empty one with the same path in the next. -/
def twoMounts : List LifeEvent :=
  [.call (.create [47, 102] 0o100644), .call (.write (newFile 0o100644 3) [1, 2, 3] 0), .remount,
    .call (.create [47, 102] 0o100644)]

theorem mounts_refine_twoMounts :
    ∃ fs₀ l fs m, freshMount smallDisk = .ok fs₀ ∧ Traces LifeStep fs₀ l fs ∧
      l.map Prod.snd = [0, 3, 0, 0] ∧ Traces Files.LifeStep Files.empty l m ∧
      m.names [[102]] = some 3 ∧ m.data 3 = some [] := by
  have hrun : Yields (freshMount smallDisk) fun fs₀ =>
      ((runTraced LifeEvent.reply (fun fs e => e.Expected fs) [] fs₀ twoMounts).any
        fun r => decide (r.1.map Prod.snd = [0, 3, 0, 0] ∧
          ThroughDirs r.2 (strtokSlash [47, 102]) ∧ fsPathIndex r.2 [47, 102] = .ok (some 3) ∧
          Finds (fsFindInode r.2 3) fun x => sIsreg x.mode ∧ x.size = 0)) = true := by
    decide +kernel
  obtain ⟨fs₀, hmount, hrun⟩ := hrun
  obtain ⟨⟨l, fs⟩, hr, hp⟩ := (Option.any_eq_true _ _).mp hrun
  obtain ⟨hout, ht, hi, x, hx, hreg, hsize⟩ := of_decide_eq_true hp
  have htrace : Traces LifeStep fs₀ l fs := traces_of_runTraced .nil hr
  obtain ⟨m, hm, hdel, -⟩ := mounts_refine hmount htrace
  refine ⟨fs₀, l, fs, m, hmount, htrace, hout, hm,
    Except.ok.inj ((hdel.paths _ (by decide) ht).symm.trans hi), ?_⟩
  obtain ⟨bs, hbs⟩ := Option.ne_none_iff_exists'.mp ((hdel.files 3).mpr ⟨x, hx, hreg⟩)
  obtain ⟨y, hy, hlen, -⟩ := hdel.reads 3 bs hbs
  cases hx.symm.trans hy
  rw [hsize] at hlen
  have hzero : (0 : Int64).toInt = 0 := rfl
  have hnil : bs = [] := List.length_eq_zero_iff.mp (by omega)
  rw [hbs, hnil]

end Mounts

end ChisaiFs
