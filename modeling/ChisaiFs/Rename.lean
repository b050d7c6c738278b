import ChisaiFs.Distinct

/-! Renaming. A rename that fails behind its first step has lost the source; one that succeeds
moves the subtree below the source and no other path. -/

namespace ChisaiFs
open Outcome SwapRemoval Walks

/-- Every path leads where it did, and every directory has the same set of entries. -/
def NamesKept (fs fs' : Filesystem) : Prop :=
  (∀ path, fsPathIndex fs' path = fsPathIndex fs path) ∧
    ∀ i dir, DirectoryAt fs i dir →
      ∃ dir', DirectoryAt fs' i dir' ∧ ∀ e, e ∈ dir'.entries ↔ e ∈ dir.entries

section Failures

variable {geo : Geometry} {fs fs' : Filesystem} {src dst : CString} {r : ChisaiError}

theorem NamesKept.refl (fs : Filesystem) : NamesKept fs fs :=
  ⟨fun _ => rfl, fun _ dir hdir => ⟨dir, hdir, fun _ => Iff.rfl⟩⟩

theorem not_namesKept_of_unlinked {source : Parent} {i : ChisaiSize} {dir : Dir}
    (hm : Mounted geo fs) (hw : (volume geo fs).Wellformed) (hl : ParentIsDir fs src)
    (hp : fsPathToParent fs src = .ok (.ok source)) (h0 : i ≠ 0)
    (hrem : dirRemove source.dir source.filePath = .ok (i, dir))
    (hsave : fsSaveDir fs dir source.inode.directBlks[0] = .ok fs') : ¬ NamesKept fs fs' := by
  obtain ⟨p, hat, -⟩ := fsPathToParent_eq_ok hm hp
  obtain ⟨hm', -, -, hv⟩ := fsSaveDir_spec hm hsave
  rcases dirRemove_eq_ok hrem with ⟨-, rfl, -⟩ | ⟨j, hlast, hj, rfl, rfl⟩
  · exact absurd rfl h0
  have hpd : (volume geo fs).IsDir p := ⟨hat.used, hat.inode ▸ hl source hp⟩
  have hlt := dirFind_lt hj
  obtain ⟨hsd, hsb⟩ := hat.dir_eq
  rw [hsb] at hv
  generalize source.dir = dir at hsd hlt hlast hv
  subst hsd
  obtain ⟨hw', hnone⟩ := hw.unlink hpd hlt hlast
  rw [← hv] at hw' hnone
  rintro ⟨-, hkept⟩
  have hdir := (directoryAt_iff hm hw).mpr (Volume.dirs_of_isDir hpd)
  obtain ⟨dir', hdir', hsame⟩ := hkept p _ hdir
  obtain ⟨hpd', rfl⟩ := Volume.dirs_eq_some.mp ((directoryAt_iff hm' hw').mp hdir')
  have hmem := (Dir.mem_entries (hw.dirSize p hpd)).mpr ⟨j, hlt, rfl⟩
  obtain ⟨s, hs, he⟩ := (Dir.mem_entries (hw'.dirSize p hpd')).mp ((hsame _).mpr hmem)
  exact hnone (p, s) ⟨hpd', hs, congrArg Sigma.snd he⟩

/-- A failed rename keeps the names if and only if it does not find its source. -/
theorem failed_rename_keeps_iff (h : Reachable geo fs) (hl : ParentIsDir fs src)
    (he : fsRenameFile fs src dst = .ok (r, fs')) (hr : r ≠ .ok) :
    NamesKept fs fs' ↔ Missing fs src := by
  obtain ⟨hm, hw⟩ := h.wellformed
  rcases fsRenameFile_eq_ok he with ⟨-, rfl, hmiss⟩ | ⟨source, i, dir, fs₁, hp, h0, hrem, hsave, hcase⟩
  · exact iff_of_true (.refl fs') hmiss
  rcases hcase with ⟨-, rfl⟩ | ⟨-, -, -, -, -, rfl⟩
  · refine iff_of_false (not_namesKept_of_unlinked hm hw hl hp h0 hrem hsave) fun hmiss => ?_
    have hi := (dirFileInodeIdx_of_dirRemove hrem).symm.trans (hmiss source hp)
    exact h0 (Except.ok.inj hi)
  · exact absurd rfl hr

/-- Renaming `/z`, which is not there. -/
theorem failed_rename_keeps_absent :
    ∃ fs fs', Reachable smallDisk fs ∧ fsRenameFile fs [47, 122] [47, 98] = .ok (.enoent, fs') ∧
      (NamesKept fs fs' ↔ Missing fs [47, 122]) := by
  have hrun : ∃ fs, Reachable smallDisk fs ∧ ParentIsDir fs [47, 122] ∧
      Yields (fsRenameFile fs [47, 122] [47, 98]) fun r => r.1 = .enoent := by
    apply exists_reachable fileAndDir
    decide +kernel
  obtain ⟨fs, h, hl, ⟨r, fs'⟩, he, rfl⟩ := hrun
  exact ⟨fs, fs', h, he, failed_rename_keeps_iff h hl he (by decide)⟩

/-- Renaming `/a` into the missing directory `/x` fails, and `/a` is gone. -/
theorem failed_rename_loses :
    ∃ fs fs', Reachable smallDisk fs ∧ ParentIsDir fs [47, 97] ∧
      fsPathIndex fs [47, 97] = .ok (some 3) ∧
      fsRenameFile fs [47, 97] [47, 120, 47, 98] = .ok (.enoent, fs') ∧
      fsPathIndex fs' [47, 97] = .ok none ∧ ¬ NamesKept fs fs' := by
  have hrun : ∃ fs, Reachable smallDisk fs ∧ ParentIsDir fs [47, 97] ∧
      fsPathIndex fs [47, 97] = .ok (some 3) ∧
      Yields (fsRenameFile fs [47, 97] [47, 120, 47, 98]) fun r => r.1 = .enoent ∧
        fsPathIndex r.2 [47, 97] = .ok none := by
    apply exists_reachable fileAndDir
    decide +kernel
  obtain ⟨fs, h, hl, ha, ⟨r, fs'⟩, he, rfl, hlost⟩ := hrun
  refine ⟨fs, fs', h, hl, ha, he, hlost, fun hkept => ?_⟩
  have hsame := hkept.1 [47, 97]
  rw [hlost, ha] at hsame
  cases hsame

end Failures

section Moves

variable {geo : Geometry} {fs fs₁ fs' : Filesystem} {src dst q q' c d : CString}
  {p p₂ i : ChisaiSize} {dir dir₁ dir₂ dirq : Dir}

/-- Where the paths of a rename lead: an entry to take out and a name to enter. -/
structure Movable (geo : Geometry) (fs : Filesystem) (q c q' d : CString) (p i p₂ : ChisaiSize)
    (dir dirq : Dir) : Prop where
  src : 0 ∉ q ++ slash :: c ∧ slash ∉ c ∧ c ≠ []
  dst : 0 ∉ q' ++ slash :: d ∧ slash ∉ d ∧ d ≠ [] ∧ d.length < chisaiFileLen
  through : (volume geo fs).dirs.Through (strtokSlash q ++ [c])
  through' : (volume geo fs).dirs.Through (strtokSlash q' ++ [d])
  parent : (volume geo fs).dirs.resolve (strtokSlash q) = some p ∧ (volume geo fs).dirs p = some dir
  entry : dir.entries.dlookup c = some i
  parent' : (volume geo fs).dirs.resolve (strtokSlash q') = some p₂ ∧
    (volume geo fs).dirs p₂ = some dirq
  absent : d ∉ dirq.entries.keys
  apart : ¬ strtokSlash q ++ [c] <+: strtokSlash q' ++ [d]
  room : dirq.size.toNat < chisaiFilePerDir ∨ p₂ = p

theorem Dir.Loses.size (h : dir.Loses c i dir₁) (hd : dir.Named) :
    dir₁.size.toNat < dir.size.toNat := by
  obtain ⟨l₁, l₂, hsplit, -, hentries⟩ := h.split
  rw [← Dir.entries_length hd.size, ← Dir.entries_length h.named.size, hsplit, hentries]
  simp [lastFirst_length]

theorem Movable.unlinks (h : Orderly geo fs) (hd : DistinctNames fs)
    (hm : Movable geo fs q c q' d p i p₂ dir dirq) :
    ∃ fs₁ dir₁ dirq₁, dirFileInodeIdx dir c = .ok i ∧ i ≠ 0 ∧ dirRemove dir c = .ok (i, dir₁) ∧
      fsSaveDir fs dir₁ ((volume geo fs).inode p).directBlks[0] = .ok fs₁ ∧
      Unlinked geo fs fs₁ (q ++ slash :: c) ⟨(volume geo fs).inode p, dir, c⟩ p i dir₁ ∧
      (volume geo fs₁).dirs.resolve (strtokSlash q') = some p₂ ∧
      (volume geo fs₁).dirs p₂ = some dirq₁ ∧ d ∉ dirq₁.entries.keys ∧
      dirq₁.size.toNat < chisaiFilePerDir := by
  have hnamed := h.named p dir hm.parent.2
  obtain ⟨hname, hlen⟩ := hnamed.length_of_found hm.entry
  have hi := h.shows.used p c i ((DirTree.child_of hm.parent.2).trans hm.entry)
  have h0 := (h.mounted.inodeUsed_inRange hi).1
  have hidx : dirFileInodeIdx dir c = .ok i := by
    rw [dirFileInodeIdx_spec hnamed.ended hname.noNul, hm.entry]
    rfl
  obtain ⟨dir₁, hrem, hloses⟩ : ∃ dir₁, dirRemove dir c = .ok (i, dir₁) ∧ dir.Loses c i dir₁ := by
    rcases dirRemove_spec hnamed hname.noNul with ⟨-, hkeys⟩ | ⟨j, dir₁, hrem, hloses⟩
    · cases (List.dlookup_eq_none.mpr hkeys).symm.trans hm.entry
    · cases hloses.found.symm.trans hm.entry
      exact ⟨dir₁, hrem, hloses⟩
  obtain ⟨fs₁, hsave⟩ := fsSaveDir_ok h.mounted dir₁ (h.block_inRange hm.parent.2)
  have hsub : strtokSlash q <+: strtokSlash q ++ [c] := List.prefix_append _ _
  have hp := h.parent_of_resolve hm.src.1 hm.src.2.1 hlen (hm.through.sub hsub).straight
    hm.parent.1 hm.parent.2
  obtain ⟨hpd, -⟩ := Volume.dirs_eq_some.mp hm.parent.2
  have hl := parentIsDir_of hm.parent.2 hp rfl
  have hproper := proper_of hm.src.1 hm.src.2.1 hm.src.2.2
  obtain ⟨p', hun⟩ := fsSaveDir_unlinks h hl hproper hp h0 hrem hsave
  cases hun.at_.unique h rfl hpd.1
  have hnodup := h.distinctNames.mp hd p dir hm.parent.2
  have hres : (volume geo fs₁).dirs.resolve (strtokSlash q') = some p₂ := by
    rw [hun.dirs, DirTree.resolve, hloses.child hnodup hm.parent.2, ← hm.parent'.1]
    refine h.wellformed.rooted.walk_redirect hm.parent.1 fun hc => hm.apart ?_
    exact hc.trans (List.prefix_append _ _)
  by_cases hpp : p₂ = p
  · subst hpp
    cases hm.parent.2.symm.trans hm.parent'.2
    have hsize := hloses.size hnamed
    have hmax := hnamed.size
    refine ⟨fs₁, dir₁, dir₁, hidx, h0, hrem, hsave, hun, hres, ?_, ?_, by omega⟩
    · rw [hun.dirs, Function.update_self]
    · rw [← List.dlookup_eq_none, hloses.dlookup hnodup, List.dlookup_eq_none.mpr hm.absent]
      exact ite_self none
  · refine ⟨fs₁, dir₁, dirq, hidx, h0, hrem, hsave, hun, hres, ?_, hm.absent,
      hm.room.resolve_right hpp⟩
    rw [hun.dirs, Function.update_of_ne hpp]
    exact hm.parent'.2

theorem Movable.renames (h : Orderly geo fs) (hd : DistinctNames fs)
    (hm : Movable geo fs q c q' d p i p₂ dir dirq) :
    ∃ fs', fsRenameFile fs (q ++ slash :: c) (q' ++ slash :: d) = .ok (.ok, fs') ∧
      Orderly geo fs' ∧ (volume geo fs').dirs.child =
        redirect (redirect (volume geo fs).dirs.child p c none) p₂ d (some i) ∧
      ∀ j e, (volume geo fs).dirs j = some e → ∃ e', (volume geo fs').dirs j = some e' := by
  obtain ⟨fs₁, dir₁, dirq₁, hidx, h0, hrem, hsave, hun, hres, hdirq, habs, hroom⟩ := hm.unlinks h hd
  have h₁ := hun.orderly
  have hnodup := h.distinctNames.mp hd p dir hm.parent.2
  have hstraight := hun.straight h hd hm.through'
  have hsub : strtokSlash q' <+: strtokSlash q' ++ [d] := List.prefix_append _ _
  have ht := h₁.parent_of_resolve hm.dst.1 hm.dst.2.1 hm.dst.2.2.2
    (fun pre x j hpre => hstraight pre x j (hpre.trans hsub)) hres hdirq
  have hname : ProperName d := ⟨hm.dst.2.2.1, hm.dst.2.1, fun hd => hm.dst.1 (by simp [hd])⟩
  rcases dirInsert_spec (i := i) (h₁.named p₂ dirq₁ hdirq) hname hm.dst.2.2.2 with
    ⟨-, hfull⟩ | ⟨dir₂, hins, hgain⟩
  · omega
  obtain ⟨fs', hsave₂⟩ := fsSaveDir_ok h₁.mounted dir₂ (h₁.block_inRange hdirq)
  have he : fsRenameFile fs (q ++ slash :: c) (q' ++ slash :: d) = .ok (.ok, fs') := by
    unfold fsRenameFile
    simp only [hun.found, hidx, hrem, hsave, ht, hins, hsave₂, h0, ok_bind, ↓reduceIte]
    rfl
  have hproper := proper_of hm.src.1 hm.src.2.1 hm.src.2.2
  have hproper' := proper_of hm.dst.1 hm.dst.2.1 hm.dst.2.2.1
  have ht₀ := h.parent_of_resolve hm.dst.1 hm.dst.2.1 hm.dst.2.2.2
    (hm.through'.sub hsub).straight hm.parent'.1 hm.parent'.2
  have h' : Orderly geo fs' := by
    have hstep : (Op.rename (q ++ slash :: c) (q' ++ slash :: d)).step fs = .ok fs' :=
      map_eq_ok.mpr ⟨_, he, rfl⟩
    have hl : (Op.rename (q ++ slash :: c) (q' ++ slash :: d)).Lawful fs :=
      ⟨parentIsDir_of hm.parent.2 hun.found rfl, parentIsDir_of hm.parent'.2 ht₀ rfl⟩
    exact h.step hl (show Op.Named (.rename _ _) from ⟨hproper, hproper'⟩) hstep
  obtain ⟨p', hat, -⟩ := fsPathToParent_eq_ok h₁.mounted ht
  obtain ⟨hp₂, -⟩ := Volume.dirs_eq_some.mp hdirq
  cases hat.unique h₁ rfl hp₂.1
  obtain ⟨-, -, -, hv⟩ := fsSaveDir_spec h₁.mounted hsave₂
  have hlink : Relinked geo fs₁ fs' (q' ++ slash :: d) ⟨(volume geo fs₁).inode p₂, dirq₁, d⟩ p₂ i
      dir₂ := ⟨ht, hat, hins, hv⟩
  obtain ⟨-, -, -, hdirs⟩ := (hlink.cases h₁ hproper').resolve_right fun hc => hc.1 hp₂
  refine ⟨fs', he, h', ?_, fun j e hj => ?_⟩
  · rw [hdirs, hgain.child habs hdirq, hun.dirs, hun.loses.child hnodup hm.parent.2]
  · rw [hdirs, hun.dirs]
    obtain ⟨e₁, he₁⟩ : ∃ e₁, Function.update (volume geo fs).dirs p (some dir₁) j = some e₁ :=
      DirTree.exists_update hj
    exact DirTree.exists_update he₁

theorem Movable.of_paths (h : Orderly geo fs) {i : ChisaiSize} (hsrc : 0 ∉ q ++ slash :: c)
    (hc : slash ∉ c) (hne : c ≠ []) (hfrom : fsPathIndex fs (q ++ slash :: c) = .ok (some i))
    (ht : ThroughDirs fs (strtokSlash (q ++ slash :: c))) (hdst : 0 ∉ q' ++ slash :: d)
    (hd : slash ∉ d) (hne' : d ≠ []) (hlen : d.length < chisaiFileLen)
    (hto : fsPathIndex fs (q' ++ slash :: d) = .ok none)
    (ht' : ThroughDirs fs (strtokSlash (q' ++ slash :: d)))
    (hapart : ¬ strtokSlash (q ++ slash :: c) <+: strtokSlash (q' ++ slash :: d))
    (hroom : ParentHasRoom fs (q' ++ slash :: d) ∨ fsPathIndex fs q' = fsPathIndex fs q) :
    ∃ p p₂ dir dirq, Movable geo fs q c q' d p i p₂ dir dirq := by
  have htok : strtokSlash (q ++ slash :: c) = strtokSlash q ++ [c] := by
    rw [strtokSlash_append, strtokSlash_name hc hne]
  have htok' : strtokSlash (q' ++ slash :: d) = strtokSlash q' ++ [d] := by
    rw [strtokSlash_append, strtokSlash_name hd hne']
  have hth := h.through (fun e he => (properName_of_token hsrc he).noNul) ht
  have hth' := h.through (fun e he => (properName_of_token hdst he).noNul) ht'
  rw [fsPathIndex_eq h.shows hsrc hth.straight] at hfrom
  rw [fsPathIndex_eq h.shows hdst hth'.straight] at hto
  rw [htok] at hfrom hth hapart
  rw [htok'] at hto hth' hapart
  obtain ⟨p, dir, hp, hdir⟩ := hth _ _ (List.prefix_refl _)
  obtain ⟨p₂, dirq, hp₂, hdirq⟩ := hth' _ _ (List.prefix_refl _)
  have hsub : strtokSlash q <+: strtokSlash q ++ [c] := List.prefix_append _ _
  have hsub' : strtokSlash q' <+: strtokSlash q' ++ [d] := List.prefix_append _ _
  have hentry : dir.entries.dlookup c = some i := by
    have hr := Except.ok.inj hfrom
    unfold DirTree.resolve at hr hp
    rw [walk_concat, hp, Option.bind_some] at hr
    exact (DirTree.child_of hdir).symm.trans hr
  have habs : d ∉ dirq.entries.keys := by
    have hr := Except.ok.inj hto
    unfold DirTree.resolve at hr hp₂
    rw [walk_concat, hp₂, Option.bind_some] at hr
    exact List.dlookup_eq_none.mp ((DirTree.child_of hdirq).symm.trans hr)
  have hpar := h.parent_of_resolve hdst hd hlen (hth'.sub hsub').straight hp₂ hdirq
  refine ⟨p, p₂, dir, dirq, ⟨hsrc, hc, hne⟩, ⟨hdst, hd, hne', hlen⟩, hth, hth', ⟨hp, hdir⟩, hentry,
    ⟨hp₂, hdirq⟩, habs, hapart, ?_⟩
  rcases hroom with hroom | hsame
  · exact Or.inl (hroom _ hpar)
  · right
    rw [fsPathIndex_eq h.shows (fun h0 => hdst (by simp [h0])) (hth'.sub hsub').straight,
      fsPathIndex_eq h.shows (fun h0 => hsrc (by simp [h0])) (hth.sub hsub).straight, hp, hp₂]
      at hsame
    exact Option.some.inj (Except.ok.inj hsame)

/-! The paths in the tree before and after. `t'` is the tree `t` with edge `c` of `p` moved to
edge `d` of `p₂`. -/

section Paths

variable {t t' : DirTree} {xs ys r pre : List CString} {x : CString}

theorem resolve_of_sub (h : t.resolve ys = some i) (hsub : xs <+: ys) :
    ∃ j, t.resolve xs = some j := by
  obtain ⟨zs, rfl⟩ := hsub
  unfold DirTree.resolve at h ⊢
  rw [walk_append] at h
  obtain ⟨j, hj, -⟩ := Option.bind_eq_some_iff.mp h
  exact ⟨j, hj⟩

/-- The two ends of a rename in a rooted tree. -/
structure Moved (t t' : DirTree) (xs ys : List CString) (c d : CString) (p p₂ i : ChisaiSize) :
    Prop where
  rooted : Rooted t.child rootInode
  source : t.resolve xs = some p ∧ t.child p c = some i
  target : t.resolve ys = some p₂ ∧ t.child p₂ d = none
  apart : ¬ xs ++ [c] <+: ys ++ [d]
  child : t'.child = redirect (redirect t.child p c none) p₂ d (some i)
  keep : ∀ j e, t j = some e → ∃ e', t' j = some e'

theorem Moved.resolve_source (h : Moved t t' xs ys c d p p₂ i) :
    t.resolve (xs ++ c :: r) = walk t.child i r := by
  have hx := h.source.1
  unfold DirTree.resolve at hx ⊢
  rw [walk_append, hx, Option.bind_some, walk_cons, h.source.2, Option.bind_some]

theorem Moved.not_above (h : Moved t t' xs ys c d p p₂ i) : ¬ ys ++ [d] <+: xs ++ c :: r := by
  intro hsub
  have hsub' : xs ++ [c] <+: xs ++ c :: r := ⟨r, by simp⟩
  rcases List.prefix_or_prefix_of_prefix hsub hsub' with hle | hle
  · have hi : t.resolve (xs ++ [c]) = some i := h.resolve_source
    obtain ⟨j, hj⟩ := resolve_of_sub hi hle
    obtain ⟨k, hk, hj⟩ := walk_concat_eq_some.mp hj
    cases hk.symm.trans h.target.1
    cases hj.symm.trans h.target.2
  · exact h.apart hle

theorem Moved.resolve_target (h : Moved t t' xs ys c d p p₂ i) :
    t'.resolve (ys ++ d :: r) = walk t.child i r := by
  unfold DirTree.resolve
  rw [h.child]
  exact (h.rooted.walk_move h.source.1 h.source.2 h.target.1 h.apart).1 r

theorem Moved.resolve_cut (h : Moved t t' xs ys c d p p₂ i) (hz : ¬ ys ++ [d] <+: pre) :
    t'.resolve pre = walk (redirect t.child p c none) rootInode pre := by
  unfold DirTree.resolve
  rw [h.child]
  exact (h.rooted.walk_move h.source.1 h.source.2 h.target.1 h.apart).2 pre hz

theorem Moved.exists_dir (h : Moved t t' xs ys c d p p₂ i) (hz : ¬ ys ++ [d] <+: pre)
    {j : ChisaiSize} (hj : t'.resolve pre = some j)
    (hdir : ∃ k e, t.resolve pre = some k ∧ t k = some e) : ∃ e, t' j = some e := by
  rw [h.resolve_cut hz] at hj
  obtain ⟨k, e, hk, he⟩ := hdir
  cases (walk_of_cut hj).symm.trans hk
  exact h.keep _ e he

theorem Moved.lost (h : Moved t t' xs ys c d p p₂ i) (ht : t.Through (xs ++ c :: r)) :
    t'.resolve (xs ++ c :: r) = none ∧ t'.Straight (xs ++ c :: r) := by
  constructor
  · rw [h.resolve_cut h.not_above]
    exact h.rooted.walk_cut h.source.1
  · intro pre x j hpre hj
    exact h.exists_dir (fun hc => h.not_above (hc.trans (prefix_of_concat hpre).1)) hj (ht pre x hpre)

theorem Moved.found (h : Moved t t' xs ys c d p p₂ i) (ht : t.Through (xs ++ c :: r))
    (ht' : t.Through (ys ++ [d])) :
    t'.resolve (ys ++ d :: r) = t.resolve (xs ++ c :: r) ∧ t'.Straight (ys ++ d :: r) := by
  refine ⟨h.resolve_target.trans h.resolve_source.symm, fun pre x j hpre hj => ?_⟩
  by_cases hz : ys ++ [d] <+: pre
  · obtain ⟨r₁, rfl⟩ := hz
    rw [show ys ++ [d] ++ r₁ = ys ++ d :: r₁ by simp] at hpre hj
    rw [h.resolve_target, ← h.resolve_source (r := r₁)] at hj
    rw [List.append_assoc, List.cons_append, List.prefix_append_right_inj,
      List.prefix_cons_inj] at hpre
    have hsub : (xs ++ c :: r₁) ++ [x] <+: xs ++ c :: r := by
      rw [List.append_assoc, List.cons_append, List.prefix_append_right_inj, List.prefix_cons_inj]
      exact hpre
    obtain ⟨k, e, hk, he⟩ := ht _ x hsub
    cases hj.symm.trans hk
    exact h.keep _ e he
  · have hsub : ys ++ [d] <+: ys ++ d :: r := ⟨r, by simp⟩
    have hle := (List.prefix_or_prefix_of_prefix (prefix_of_concat hpre).1 hsub).resolve_right hz
    obtain ⟨y, hy⟩ := exists_next hle fun hc => hz (hc ▸ List.prefix_refl _)
    exact h.exists_dir hz hj (ht' pre y hy)

theorem Moved.other (h : Moved t t' xs ys c d p p₂ i) (hx : ¬ xs ++ [c] <+: pre)
    (hy : ¬ ys ++ [d] <+: pre) : t'.resolve pre = t.resolve pre := by
  rw [h.resolve_cut hy]
  exact h.rooted.walk_redirect h.source.1 hx

end Paths

/-- A rename moves the subtree below its source, and no path besides. -/
theorem rename_moves_subtree (h : NamedReachable geo fs) (hd : DistinctNames fs)
    (hsrc : 0 ∉ q ++ slash :: c ∧ slash ∉ c ∧ c ≠ [])
    (hfrom : fsPathIndex fs (q ++ slash :: c) = .ok (some i))
    (ht : ThroughDirs fs (strtokSlash (q ++ slash :: c)))
    (hdst : 0 ∉ q' ++ slash :: d ∧ slash ∉ d ∧ d ≠ [] ∧ d.length < chisaiFileLen)
    (hto : fsPathIndex fs (q' ++ slash :: d) = .ok none)
    (ht' : ThroughDirs fs (strtokSlash (q' ++ slash :: d)))
    (hapart : ¬ strtokSlash (q ++ slash :: c) <+: strtokSlash (q' ++ slash :: d))
    (hroom : ParentHasRoom fs (q' ++ slash :: d) ∨ fsPathIndex fs q' = fsPathIndex fs q) :
    ∃ fs', fsRenameFile fs (q ++ slash :: c) (q' ++ slash :: d) = .ok (.ok, fs') ∧
      (∀ r p₁ p₂, 0 ∉ p₁ → strtokSlash p₁ = strtokSlash (q ++ slash :: c) ++ r →
        0 ∉ p₂ → strtokSlash p₂ = strtokSlash (q' ++ slash :: d) ++ r →
        ThroughDirs fs (strtokSlash p₁) →
        fsPathIndex fs' p₁ = .ok none ∧ fsPathIndex fs' p₂ = fsPathIndex fs p₁) ∧
      ∀ path, 0 ∉ path → ¬ strtokSlash (q ++ slash :: c) <+: strtokSlash path →
        ¬ strtokSlash (q' ++ slash :: d) <+: strtokSlash path → ThroughDirs fs (strtokSlash path) →
        fsPathIndex fs' path = fsPathIndex fs path := by
  have ho := h.orderly
  obtain ⟨p, p₂, dir, dirq, hm⟩ := Movable.of_paths ho hsrc.1 hsrc.2.1 hsrc.2.2 hfrom ht hdst.1
    hdst.2.1 hdst.2.2.1 hdst.2.2.2 hto ht' hapart hroom
  obtain ⟨fs', he, ho', hchild, hkeep⟩ := hm.renames ho hd
  have htok : strtokSlash (q ++ slash :: c) = strtokSlash q ++ [c] := by
    rw [strtokSlash_append, strtokSlash_name hsrc.2.1 hsrc.2.2]
  have htok' : strtokSlash (q' ++ slash :: d) = strtokSlash q' ++ [d] := by
    rw [strtokSlash_append, strtokSlash_name hdst.2.1 hdst.2.2.1]
  have hmoved : Moved (volume geo fs).dirs (volume geo fs').dirs (strtokSlash q) (strtokSlash q') c d
      p p₂ i := by
    refine ⟨ho.wellformed.rooted, ⟨hm.parent.1, ?_⟩, ⟨hm.parent'.1, ?_⟩, hm.apart, hchild, hkeep⟩
    · exact (DirTree.child_of hm.parent.2).trans hm.entry
    · exact (DirTree.child_of hm.parent'.2).trans (List.dlookup_eq_none.mpr hm.absent)
  rw [htok, htok']
  refine ⟨fs', he, fun r p₁ p₂ h₁ hp₁ h₂ hp₂ hthru => ?_, fun path hpath hx hy hthru => ?_⟩
  · have ht₁ := ho.through (fun e he => (properName_of_token h₁ he).noNul) hthru
    rw [List.append_assoc, List.singleton_append] at hp₁ hp₂
    rw [fsPathIndex_eq ho.shows h₁ ht₁.straight]
    rw [hp₁] at ht₁ ⊢
    obtain ⟨hlost, hst₁⟩ := hmoved.lost ht₁
    obtain ⟨hfound, hst₂⟩ := hmoved.found ht₁ hm.through'
    rw [← hp₁] at hlost hst₁
    rw [← hp₂] at hfound hst₂
    rw [fsPathIndex_eq ho'.shows h₁ hst₁, fsPathIndex_eq ho'.shows h₂ hst₂, hlost, hfound]
    exact ⟨rfl, rfl⟩
  · have hth := ho.through (fun e he => (properName_of_token hpath he).noNul) hthru
    refine ho.shows.fsPathIndex_congr ho'.shows hpath hth (fun pre hpre => ?_) fun pre x j hpre hj => ?_
    · exact hmoved.other (fun hc => hx (hc.trans hpre)) fun hc => hy (hc.trans hpre)
    · obtain ⟨k, e, hk, he⟩ := hth pre x hpre
      cases hj.symm.trans hk
      exact hkeep _ e he

theorem rename_moves_fileAndDir :
    ∃ fs fs', NamedReachable smallDisk fs ∧ fsPathIndex fs [slash, 97] = .ok (some 3) ∧
      fsRenameFile fs [slash, 97] [47, 100, slash, 98] = .ok (.ok, fs') ∧
      fsPathIndex fs' [slash, 97] = .ok none ∧
      fsPathIndex fs' [47, 100, slash, 98] = .ok (some 3) := by
  have hrun : ∃ fs, UniqueReachable smallDisk fs ∧
      fsPathIndex fs ([] ++ slash :: [97]) = .ok (some 3) ∧
      ThroughDirs fs (strtokSlash ([] ++ slash :: [97])) ∧
      fsPathIndex fs ([47, 100] ++ slash :: [98]) = .ok none ∧
      ThroughDirs fs (strtokSlash ([47, 100] ++ slash :: [98])) ∧
      ParentHasRoom fs ([47, 100] ++ slash :: [98]) := by
    apply exists_unique fileAndDir
    decide +kernel
  obtain ⟨fs, h, hfrom, ht, hto, ht', hroom⟩ := hrun
  obtain ⟨fs', he, hmoved, -⟩ := rename_moves_subtree h.named h.distinct (by decide) hfrom ht
    (by decide) hto ht' (by decide) (Or.inl hroom)
  obtain ⟨hlost, hfound⟩ := hmoved [] [slash, 97] [47, 100, slash, 98] (by decide) (by decide)
    (by decide) (by decide) ht
  exact ⟨fs, fs', h.named, hfrom, he, hlost, hfound.trans hfrom⟩

/-- The file `/f`, inode 5, with the image of a directory that has an entry `x` for `/d`. -/
def mimicry : List Op :=
  [.mkdir [47, 100] 0o755, .create [47, 100, 47, 121] 0o100644, .create [47, 102] 0o100644,
    .write (newFile 0o100644 5) (120 :: List.replicate 27 0 ++ [3, 0, 0, 0] ++
      List.replicate 448 0 ++ [1, 0, 0, 0, 0, 0, 0, 0]) 0]

/-- Through the contents of `/f` the path `/f/x/y` leads to `/d/y`; renaming it to `/z` takes
`/d/y` away, which is neither at nor beneath the two paths. -/
theorem rename_through_file :
    ∃ fs fs', NamedReachable smallDisk fs ∧ DistinctNames fs ∧
      fsPathIndex fs [47, 102, 47, 120, 47, 121] = .ok (some 4) ∧
      fsPathIndex fs [47, 122] = .ok none ∧ ParentIsDir fs [47, 122] ∧ ParentHasRoom fs [47, 122] ∧
      fsRenameFile fs [47, 102, 47, 120, 47, 121] [47, 122] = .ok (.ok, fs') ∧
      ThroughDirs fs (strtokSlash [47, 100, 47, 121]) ∧
      ¬ strtokSlash [47, 102, 47, 120, 47, 121] <+: strtokSlash [47, 100, 47, 121] ∧
      ¬ strtokSlash [47, 122] <+: strtokSlash [47, 100, 47, 121] ∧
      fsPathIndex fs [47, 100, 47, 121] = .ok (some 4) ∧
      fsPathIndex fs' [47, 100, 47, 121] = .ok none := by
  have hrun : ∃ fs, UniqueReachable smallDisk fs ∧
      fsPathIndex fs [47, 102, 47, 120, 47, 121] = .ok (some 4) ∧
      fsPathIndex fs [47, 122] = .ok none ∧ ParentIsDir fs [47, 122] ∧ ParentHasRoom fs [47, 122] ∧
      ThroughDirs fs (strtokSlash [47, 100, 47, 121]) ∧
      fsPathIndex fs [47, 100, 47, 121] = .ok (some 4) ∧
      Yields (fsRenameFile fs [47, 102, 47, 120, 47, 121] [47, 122]) fun r => r.1 = .ok ∧
        fsPathIndex r.2 [47, 100, 47, 121] = .ok none := by
    apply exists_unique mimicry
    decide +kernel
  obtain ⟨fs, h, hfrom, hto, hl, hroom, ht, hbefore, ⟨r, fs'⟩, he, rfl, hafter⟩ := hrun
  exact ⟨fs, fs', h.named, h.distinct, hfrom, hto, hl, hroom, he, ht, by decide, by decide, hbefore,
    hafter⟩

end Moves

end ChisaiFs
