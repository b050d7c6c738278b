import ChisaiFs.Names
import ChisaiFs.Append
import ChisaiFs.Truncation

/-! Which operations return at all. An assertion that fails ends the daemon, so an operation that
does not return takes the whole file system away. -/

namespace ChisaiFs
open Outcome Simulation

def FitsEntry (path : CString) : Prop := ∀ s ∈ strrchrSlash path, s.2.length < chisaiFileLen

def Op.Frees : Op → Prop
  | .truncate .. => True
  | .remove .. => True
  | _ => False

instance FitsEntry.decidable (path : CString) : Decidable (FitsEntry path) :=
  inferInstanceAs (Decidable (∀ s ∈ strrchrSlash path, s.2.length < chisaiFileLen))

instance Op.decidableFrees : DecidablePred Op.Frees
  | .truncate .. | .remove .. => isTrue trivial
  | .mkdir .. | .create .. | .write .. | .rename .. => isFalse id

section Steps

variable {geo : Geometry} {fs fs' : Filesystem} {path q c : CString} {p : ChisaiSize} {dir : Dir}
  {mode : UInt32} {r : ChisaiError}

theorem FreshFile.write_ok (ho : Orderly geo fs) (hp : AllPrimed fs.blkGrps) {file : FileInfo}
    (hf : FreshFile fs file) {buf : List UInt8} {off : ℕ}
    (hrange : off + buf.length ≤ directBlksNum * geo.blkSize) :
    ∃ ret file' fs', fsWriteFile fs file buf off = .ok (ret, file', fs') ∧
      AllPrimed fs'.blkGrps := by
  have hidx := ho.mounted.inodeUsed_inRange ((FreshFile.iff ho.mounted).mp hf).1
  exact fsWriteFile_total ho.mounted hp hidx hrange fun n hn =>
    ho.mounted.dataUsed_inRange (ho.wellformed.marked _ _ (hf.owns ho.mounted hn))

theorem fsRenameFile_blkGrps {src dst : CString} (h : Mounted geo fs)
    (he : fsRenameFile fs src dst = .ok (r, fs')) : fs'.blkGrps = fs.blkGrps := by
  rcases fsRenameFile_eq_ok he with
    ⟨-, rfl, -⟩ | ⟨source, i, dir, fs₁, -, -, -, h₁, ⟨-, rfl⟩ | ⟨target, dir', -, -, h₂, -⟩⟩
  · rfl
  · exact (fsSaveDir_spec h h₁).2.2.1
  · obtain ⟨hm₁, -, hg₁, -⟩ := fsSaveDir_spec h h₁
    exact (fsSaveDir_spec hm₁ h₂).2.2.1.trans hg₁

end Steps

section Operations

variable {geo : Geometry} {fs₀ fs fs' : Filesystem} {l : List (Op × ChisaiError)} {op : Op}
  {r : ChisaiError}

theorem Op.Tidy.primed (ht : op.Tidy fs) (hfree : ¬ op.Frees) (ho : Orderly geo fs)
    (hp : AllPrimed fs.blkGrps) (he : op.call fs = .ok (r, fs')) : AllPrimed fs'.blkGrps := by
  cases op with
  | mkdir path mode => exact fsMkdir_primed ho.mounted hp he
  | create path mode =>
    obtain ⟨⟨_, file, _⟩, hcall, hpair⟩ := map_eq_ok.mp he
    cases hpair
    exact fsCreateFile_primed ho.mounted hp hcall
  | write file buf off =>
    obtain ⟨⟨ret, file', _⟩, hcall, hpair⟩ := map_eq_ok.mp he
    cases hpair
    have hrange := ht.2
    rw [ho.mounted.blockSize] at hrange
    obtain ⟨_, _, _, he', hp'⟩ := ht.1.write_ok ho hp hrange
    cases hcall.symm.trans he'
    exact hp'
  | truncate file size => exact absurd trivial hfree
  | rename src dst =>
    rw [fsRenameFile_blkGrps ho.mounted he]
    exact hp
  | remove path => exact absurd trivial hfree

end Operations

end ChisaiFs
