import ChisaiFs.Distinct
import ChisaiFs.Mount

/-! Listing a directory against looking its names up. The first listing of a handle delivers
the right names, each as a directory; a later one starts where the first has stopped. -/

namespace ChisaiFs
open Outcome SwapRemoval Walks

/-- What call number `n` of `chisai_fuse_readdir` on a handle delivers. -/
def nthReaddir : ℕ → DirInfo → Exec (List (CString × Stat) × DirInfo)
  | 0, dir => chisaiFuseReaddir dir
  | n + 1, dir => do
    let (_, dir) ← chisaiFuseReaddir dir
    nthReaddir n dir

/-- A handle opened in `fs₀` on a directory that is the same in `fs`. -/
def OpenedOn (fs₀ fs : Filesystem) (path : CString) (handle : DirInfo) : Prop :=
  chisaiFuseOpendir fs₀ path = .ok (.ok handle) ∧ chisaiFuseOpendir fs path = .ok (.ok handle)

/-- The listing is of the directory, its names are those found by lookup, and their types are
those of the inodes found. -/
structure AgreesWithLookup (fs : Filesystem) (path : CString) (dir : Dir)
    (listing : List (CString × Stat)) : Prop where
  names : listing.map Prod.fst = [46] :: [46, 46] :: dir.nodes.map DirNode.text
  found : ∀ c, ProperName c → (c ∈ (listing.drop 2).map Prod.fst ↔
    ∃ info, fsGetMetadata fs (path ++ slash :: c) = .ok (.ok info))
  types : ∀ e ∈ listing.drop 2, ∀ info, fsGetMetadata fs (path ++ slash :: e.1) = .ok (.ok info) →
    e.2.mode &&& sIfmt = info.inode.mode &&& sIfmt

section Cursor

variable {handle : DirInfo} {m n fuel : ℕ}

/-- A name with the record that every name is given. -/
def listed (node : DirNode) : CString × Stat := (node.text, chisaiFuseTostat dataInfo)

theorem pos_behind (hpos : handle.pos.toNat = m + 2) :
    handle.pos ≠ 0 ∧ handle.pos ≠ 1 ∧ (handle.pos - 2).toNat = m := by
  have htwo : (2 : UInt32).toNat = 2 := rfl
  refine ⟨fun hc => ?_, fun hc => ?_, ?_⟩
  · rw [hc, UInt32.toNat_zero] at hpos
    omega
  · rw [hc, UInt32.toNat_one] at hpos
    omega
  · rw [UInt32.toNat_sub_of_le _ _ (UInt32.le_iff_toNat_le.mpr (by omega)), hpos, htwo,
      Nat.add_sub_cancel]

theorem fsGetData_node (h : handle.dir.Named) (hpos : handle.pos.toNat = m + 2)
    (hm : m < handle.dir.size.toNat) (hlt : m < chisaiFilePerDir) :
    fsGetData handle = .ok (some ((getElem handle.dir.node m hlt).text, dataInfo),
      { handle with pos := handle.pos + 1 }) := by
  obtain ⟨h0, h1, hsub⟩ := pos_behind hpos
  have hnode : getElem handle.dir.node m hlt ∈ handle.dir.nodes := by
    unfold Dir.nodes
    rw [List.mem_take_iff_getElem]
    exact ⟨m, by simpa using ⟨hm, hlt⟩, by simp⟩
  have hcopy : strcpyFromName (getElem handle.dir.node m hlt) =
      .ok (getElem handle.dir.node m hlt).text :=
    if_pos (DirNode.text_length (h.node _ hnode).1)
  unfold fsGetData
  rw [if_neg h0, if_neg h1, if_pos (UInt32.lt_iff_toNat_lt.mpr (by rwa [hsub]))]
  simp only [hsub, hlt, ↓reduceDIte, hcopy, ok_bind]
  rfl

theorem fsGetData_end (hpos : handle.pos.toNat = handle.dir.size.toNat + 2) :
    fsGetData handle = .ok (none, handle) := by
  obtain ⟨h0, h1, hsub⟩ := pos_behind hpos
  unfold fsGetData
  rw [if_neg h0, if_neg h1, if_neg fun hlt => ?_]
  rw [UInt32.lt_iff_toNat_lt, hsub] at hlt
  exact lt_irrefl _ hlt

theorem readdirLoop_step {handle' : DirInfo} {name : CString} {info : FileInfo}
    (h : fsGetData handle = .ok (some (name, info), handle')) :
    readdirLoop (fuel + 1) handle =
      (fun r => ((name, chisaiFuseTostat info) :: r.1, r.2)) <$> readdirLoop fuel handle' := by
  rw [readdirLoop, h, ok_bind]
  dsimp only
  cases readdirLoop fuel handle' <;> rfl

theorem readdirLoop_nodes (h : handle.dir.Named) (hpos : handle.pos.toNat = m + 2)
    (hn : m + n = handle.dir.size.toNat) (hfuel : n < fuel) : ∃ handle',
      readdirLoop fuel handle = .ok ((handle.dir.nodes.drop m).map listed, handle') ∧
      handle'.dir = handle.dir ∧ handle'.pos.toNat = handle.dir.size.toNat + 2 := by
  have hsize := h.size
  have hlen := Dir.nodes_length hsize
  induction n generalizing handle m fuel with
  | zero =>
    obtain ⟨fuel, rfl⟩ := Nat.exists_eq_add_of_lt hfuel
    rw [Nat.add_zero] at hn
    subst hn
    refine ⟨handle, ?_, rfl, hpos⟩
    rw [List.drop_of_length_le hlen.le, Nat.zero_add, readdirLoop, fsGetData_end hpos]
    rfl
  | succ n ih =>
    obtain ⟨fuel, rfl⟩ := Nat.exists_eq_add_of_lt (Nat.zero_lt_of_lt hfuel)
    have hlt : m < chisaiFilePerDir := by omega
    have hmax : handle.pos.toNat + (0 + 1) < 2 ^ 32 := by
      change m < 15 at hlt
      omega
    have hnext : (handle.pos + 1).toNat = m + 1 + 2 := by
      rw [add_one_toNat hmax, hpos]
    have hrest : m + 1 + n = handle.dir.size.toNat := by omega
    obtain ⟨handle', hloop, hdir, hend⟩ :=
      @ih { handle with pos := handle.pos + 1 } (m + 1) fuel h hnext hrest (by omega) hsize hlen
    refine ⟨handle', ?_, hdir, hend⟩
    have hdrop : handle.dir.nodes.drop m =
        getElem handle.dir.node m hlt :: handle.dir.nodes.drop (m + 1) := by
      rw [List.drop_eq_getElem_cons (by omega)]
      simp [Dir.nodes]
    rw [Nat.zero_add, readdirLoop_step (fsGetData_node h hpos (by omega) hlt), hloop, hdrop]
    rfl

theorem chisaiFuseReaddir_first (h : handle.dir.Named) (hpos : handle.pos = 0) : ∃ handle',
    chisaiFuseReaddir handle = .ok (([46], chisaiFuseTostat dataInfo) ::
      ([46, 46], chisaiFuseTostat dataInfo) :: handle.dir.nodes.map listed, handle') ∧
    handle'.dir = handle.dir ∧ handle'.pos.toNat = handle.dir.size.toNat + 2 := by
  obtain ⟨dir, pos⟩ := handle
  subst hpos
  obtain ⟨handle', hloop, hdir, hend⟩ := @readdirLoop_nodes ⟨dir, 2⟩ 0 dir.size.toNat
    (dir.size.toNat + 1) h rfl (Nat.zero_add _) (Nat.lt_succ_self _)
  have hdot : fsGetData ⟨dir, 0⟩ = .ok (some ([46], dataInfo), ⟨dir, 1⟩) := rfl
  have hdotdot : fsGetData ⟨dir, 1⟩ = .ok (some ([46, 46], dataInfo), ⟨dir, 2⟩) := rfl
  refine ⟨handle', ?_, hdir, hend⟩
  unfold chisaiFuseReaddir
  rw [readdirLoop_step hdot, readdirLoop_step hdotdot, hloop]
  rfl

theorem chisaiFuseReaddir_later (hpos : handle.pos.toNat = handle.dir.size.toNat + 2) :
    chisaiFuseReaddir handle = .ok ([], handle) := by
  unfold chisaiFuseReaddir readdirLoop
  rw [fsGetData_end hpos]
  rfl

theorem nthReaddir_later (hpos : handle.pos.toNat = handle.dir.size.toNat + 2) (n : ℕ) :
    nthReaddir n handle = .ok ([], handle) := by
  induction n with
  | zero => exact chisaiFuseReaddir_later hpos
  | succ n ih =>
    unfold nthReaddir
    rw [chisaiFuseReaddir_later hpos]
    exact ih

end Cursor

section Agreement

variable {geo : Geometry} {fs fs₀ : Filesystem} {path c : CString} {p : ChisaiSize} {dir : Dir}
  {handle : DirInfo}

theorem Orderly.metadata_in_dir (h : Orderly geo fs) (hpath : 0 ∉ path)
    (ht : (volume geo fs).dirs.Through (strtokSlash path))
    (hp : (volume geo fs).dirs.resolve (strtokSlash path) = some p)
    (hd : (volume geo fs).dirs p = some dir) (hc : ProperName c) :
    fsGetMetadata fs (path ++ slash :: c) = .ok ((dir.entries.dlookup c).elim (.error .enoent)
      fun i => .ok ⟨(volume geo fs).inode i, i⟩) := by
  have htok : strtokSlash (path ++ slash :: c) = strtokSlash path ++ [c] := by
    rw [strtokSlash_append, strtokSlash_name hc.noSlash hc.nonempty]
  have hnul : ∀ e ∈ strtokSlash path ++ [c], 0 ∉ e := by
    intro e he
    rcases List.mem_append.mp he with he | he
    · exact (properName_of_token hpath he).noNul
    · rw [List.mem_singleton.mp he]
      exact hc.noNul
  have hres : (volume geo fs).dirs.resolve (strtokSlash path ++ [c]) = dir.entries.dlookup c := by
    unfold DirTree.resolve at hp ⊢
    rw [walk_concat, hp, Option.bind_some, DirTree.child_of hd]
  unfold fsGetMetadata
  rw [fsPathToInode_eq, htok, h.shows.fsLookup_eq hnul (ht.concat hp hd c).straight, hres]
  cases dir.entries.dlookup c <;> rfl

theorem OpenedOn.dir_eq (h : Orderly geo fs) (hpath : 0 ∉ path)
    (ht : (volume geo fs).dirs.Through (strtokSlash path)) (hd : LeadsToDir fs (strtokSlash path))
    (hopen : OpenedOn fs₀ fs path handle) : handle.pos = 0 ∧ ∃ p,
      (volume geo fs).dirs.resolve (strtokSlash path) = some p ∧
        (volume geo fs).dirs p = some handle.dir := by
  obtain ⟨⟨p, x⟩, hl, hmode⟩ := hd
  have hnul : ∀ e ∈ strtokSlash path, 0 ∉ e := fun e he => (properName_of_token hpath he).noNul
  have hlook := hl
  rw [h.shows.fsLookup_eq hnul ht.straight] at hl
  obtain ⟨p', hp, he⟩ := Option.map_eq_some_iff.mp (Except.ok.inj hl)
  obtain ⟨rfl, rfl⟩ := Prod.mk.inj he
  have hdir := Volume.dirs_of_isDir (v := volume geo fs) ⟨h.shows.resolve_used hp, hmode⟩
  have hhandle := hopen.2
  unfold chisaiFuseOpendir fsGetDir fsGetDirOf at hhandle
  rw [fsPathToInode_eq, hlook, ok_bind] at hhandle
  dsimp only at hhandle
  rw [h.shows.load p' _ hdir] at hhandle
  cases hhandle
  exact ⟨rfl, p', hp, hdir⟩

theorem listed_mode (node : DirNode) : (listed node).2.mode &&& sIfmt = sIfdir := by
  have h : dataInfo.inode.mode &&& sIfmt = sIfdir := by decide
  exact h

theorem Orderly.first_agrees_iff (h : Orderly geo fs) (hpath : 0 ∉ path)
    (ht : (volume geo fs).dirs.Through (strtokSlash path))
    (hp : (volume geo fs).dirs.resolve (strtokSlash path) = some p)
    (hd : (volume geo fs).dirs p = some dir) :
    AgreesWithLookup fs path dir (([46], chisaiFuseTostat dataInfo) ::
      ([46, 46], chisaiFuseTostat dataInfo) :: dir.nodes.map listed) ↔
    ∀ c i, dir.entries.dlookup c = some i → Finds (fsFindInode fs i) fun x => sIsdir x.mode := by
  have hmeta := fun c hc => h.metadata_in_dir (c := c) hpath ht hp hd hc
  have hkeys : (dir.nodes.map listed).map Prod.fst = dir.entries.keys := by
    simp [Dir.entries, List.keys, listed, DirNode.entry, Function.comp_def]
  constructor
  · intro hagrees c i hlook
    obtain ⟨hname, -⟩ := (h.named p dir hd).length_of_found hlook
    have hmem : c ∈ (dir.nodes.map listed).map Prod.fst := by
      rw [hkeys]
      exact List.dlookup_isSome.mp (by rw [hlook]; rfl)
    obtain ⟨e, he, rfl⟩ := List.mem_map.mp hmem
    have hinfo := hmeta e.1 hname
    rw [hlook] at hinfo
    have htype := hagrees.types e he _ hinfo
    obtain ⟨node, -, rfl⟩ := List.mem_map.mp he
    rw [listed_mode] at htype
    have hused := h.shows.used p _ i ((DirTree.child_of hd).trans hlook)
    exact ⟨_, fsFindInode_of_used h.mounted hused, htype.symm⟩
  · intro hdirs
    refine ⟨?_, fun c hc => ?_, fun e he info hinfo => ?_⟩
    · simp [listed, Function.comp_def]
    · change c ∈ (dir.nodes.map listed).map Prod.fst ↔ _
      rw [hkeys, ← List.dlookup_isSome, hmeta c hc]
      cases dir.entries.dlookup c with
      | none => simp
      | some i => simp
    · obtain ⟨node, hnode, rfl⟩ := List.mem_map.mp he
      have hname := ((h.named p dir hd).node node hnode).2
      rw [listed_mode]
      change fsGetMetadata fs (path ++ slash :: node.text) = _ at hinfo
      rw [hmeta _ hname] at hinfo
      cases hlook : dir.entries.dlookup node.text with
      | none =>
        rw [hlook] at hinfo
        cases hinfo
      | some i =>
        rw [hlook] at hinfo
        cases hinfo
        obtain ⟨x, hx, hmode⟩ := hdirs _ i hlook
        obtain ⟨-, rfl⟩ := (fsFindInode_iff h.mounted).mp hx
        exact hmode.symm

/-- A listing agrees with lookup if and only if it is the first one of its handle and every name
is of a directory. -/
theorem listing_agrees_iff (h : NamedReachable geo fs) (hpath : 0 ∉ path)
    (ht : ThroughDirs fs (strtokSlash path)) (hd : LeadsToDir fs (strtokSlash path))
    (hopen : OpenedOn fs₀ fs path handle) (n : ℕ) :
    ∃ listing handle', nthReaddir n handle = .ok (listing, handle') ∧
      (AgreesWithLookup fs path handle.dir listing ↔
        n = 0 ∧ ∀ c i, handle.dir.entries.dlookup c = some i →
          Finds (fsFindInode fs i) fun x => sIsdir x.mode) := by
  have ho := h.orderly
  have hth := ho.through (fun e he => (properName_of_token hpath he).noNul) ht
  obtain ⟨hpos, p, hp, hdir⟩ := hopen.dir_eq ho hpath hth hd
  obtain ⟨handle', hfirst, hsame, hend⟩ := chisaiFuseReaddir_first (ho.named p _ hdir) hpos
  cases n with
  | zero =>
    refine ⟨_, handle', hfirst, ?_⟩
    rw [ho.first_agrees_iff hpath hth hp hdir, and_iff_right rfl]
  | succ n =>
    refine ⟨[], handle', ?_, iff_of_false (fun hagrees => ?_) fun hc => Nat.succ_ne_zero n hc.1⟩
    · unfold nthReaddir
      rw [hfirst, ok_bind]
      exact nthReaddir_later (by rw [hend, hsame]) n
    · cases hagrees.names

/-- Listing the root, which has the directories `/d` and `/e`. -/
theorem listing_agrees_twoDirs :
    ∃ fs handle listing handle', NamedReachable smallDisk fs ∧ OpenedOn fs fs [47] handle ∧
      handle.dir.entries.keys = [[100], [101]] ∧ nthReaddir 0 handle = .ok (listing, handle') ∧
      AgreesWithLookup fs [47] handle.dir listing := by
  have hrun : ∃ fs, NamedReachable smallDisk fs ∧ ThroughDirs fs (strtokSlash [47]) ∧
      LeadsToDir fs (strtokSlash [47]) ∧
      Yields (chisaiFuseOpendir fs [47]) fun r => Yields r fun handle =>
        handle.dir.entries.keys = [[100], [101]] ∧
          ∀ e ∈ handle.dir.entries, Finds (fsFindInode fs e.2) fun x => sIsdir x.mode := by
    apply exists_named [.mkdir [47, 100] 0o755, .mkdir [47, 101] 0o755]
    decide +kernel
  obtain ⟨fs, h, ht, hd, r, hr, handle, rfl, hkeys, hdirs⟩ := hrun
  obtain ⟨listing, handle', hcall, hiff⟩ :=
    listing_agrees_iff h (by decide) ht hd ⟨hr, hr⟩ 0
  exact ⟨fs, handle, listing, handle', h, ⟨hr, hr⟩, hkeys, hcall,
    hiff.mpr ⟨rfl, fun c i hlook => hdirs _ (List.of_mem_dlookup hlook)⟩⟩

/-- Listing the root of `fileAndDir`: the file `/a` is delivered as a directory, and a second
listing delivers nothing. -/
theorem listing_disagrees :
    ∃ fs handle listing handle', NamedReachable smallDisk fs ∧ OpenedOn fs fs [47] handle ∧
      nthReaddir 0 handle = .ok (listing, handle') ∧ ¬ AgreesWithLookup fs [47] handle.dir listing ∧
      nthReaddir 1 handle = .ok ([], handle') ∧ ¬ AgreesWithLookup fs [47] handle.dir [] := by
  have hrun : ∃ fs, NamedReachable smallDisk fs ∧ ThroughDirs fs (strtokSlash [47]) ∧
      LeadsToDir fs (strtokSlash [47]) ∧ (Finds (fsFindInode fs 3) fun x => sIsreg x.mode) ∧
      Yields (chisaiFuseOpendir fs [47]) fun r => Yields r fun handle =>
        handle.dir.entries.dlookup [97] = some 3 := by
    apply exists_named fileAndDir
    decide +kernel
  obtain ⟨fs, h, ht, hd, ⟨x, hx, hreg⟩, _, hr, handle, rfl, hlook⟩ := hrun
  have ho := h.orderly
  have hopen : OpenedOn fs fs [47] handle := ⟨hr, hr⟩
  have hth := ho.through (by decide) ht
  obtain ⟨hpos, p, hp, hdir⟩ := hopen.dir_eq ho (by decide) hth hd
  obtain ⟨handle', hfirst, hsame, hend⟩ := chisaiFuseReaddir_first (ho.named p _ hdir) hpos
  refine ⟨fs, handle, _, handle', h, hopen, hfirst, fun hagrees => ?_, ?_,
    fun hagrees => by cases hagrees.names⟩
  · obtain ⟨y, hy, hmode⟩ :=
      (ho.first_agrees_iff (by decide) hth hp hdir).mp hagrees [97] 3 hlook
    cases hx.symm.trans hy
    exact not_sIsdir_of_sIsreg hreg hmode
  · unfold nthReaddir
    rw [hfirst, ok_bind]
    exact nthReaddir_later (by rw [hend, hsame]) 0

end Agreement

end ChisaiFs
