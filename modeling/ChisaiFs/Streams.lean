import ChisaiFs.Service
import ChisaiFs.Listing
import ChisaiFs.Library.Pointers

/-! Open directories. `chisai_fuse_opendir` copies the directory into its object, so what a
directory delivers is fixed when it is opened, whatever is done to the tree afterwards. -/

namespace ChisaiFs
open Outcome Heaps Pointers

def Request.Reads (dd : ℕ) : Request → Prop
  | .path (.readdir dd' _ _) => dd' = dd
  | _ => False

def Request.Closes (dd : ℕ) : Request → Prop
  | .path (.releasedir dd' _) => dd' = dd
  | _ => False

instance Request.decidableReads (dd : ℕ) : (r : Request) → Decidable (r.Reads dd)
  | .path (.readdir dd' _ _) => inferInstanceAs (Decidable (dd' = dd))
  | .path (.statfs ..) | .path (.getattr ..) | .path (.access ..) | .path (.mkdir ..)
  | .path (.rmdir ..) | .path (.opendir ..) | .path (.releasedir ..) | .path (.rename ..)
  | .path (.unlink ..) | .path (.fsync ..) | .path (.flush ..) | .path (.link ..)
  | .path (.symlink ..) | .path (.mknod ..) | .path (.chmod ..) | .path (.chown ..)
  | .path (.utimens ..) | .file _ => isFalse id

instance Request.decidableCloses (dd : ℕ) : (r : Request) → Decidable (r.Closes dd)
  | .path (.releasedir dd' _) => inferInstanceAs (Decidable (dd' = dd))
  | .path (.statfs ..) | .path (.getattr ..) | .path (.access ..) | .path (.mkdir ..)
  | .path (.rmdir ..) | .path (.opendir ..) | .path (.readdir ..) | .path (.rename ..)
  | .path (.unlink ..) | .path (.fsync ..) | .path (.flush ..) | .path (.link ..)
  | .path (.symlink ..) | .path (.mknod ..) | .path (.chmod ..) | .path (.chown ..)
  | .path (.utimens ..) | .file _ => isFalse id

def Mountpoint.stream (s : Mountpoint) (dd : ℕ) : Option DirInfo := held s.dirs.dirs s.dirs.streams dd

def Request.OnStream : Request → Prop
  | .path (.opendir _) | .path (.readdir _ _ _) | .path (.releasedir _ _) => True
  | _ => False

/-- What a request does to the open directories, with its reply if it is on them. -/
inductive Request.Turns (fs : Filesystem) (next : ℕ) (stream : ℕ → Option DirInfo) :
    Request → Reply → ℕ → (ℕ → Option DirInfo) → Prop
  | idle {r : Request} {reply : Reply} (hr : ¬ r.OnStream) :
      Turns fs next stream r reply next stream
  | refused {path : CString} {e : ChisaiError} (he : chisaiFuseOpendir fs path = .ok (.error e)) :
      Turns fs next stream (.path (.opendir path)) (.code e.code) next stream
  | opened {path : CString} {dir : DirInfo} (he : chisaiFuseOpendir fs path = .ok (.ok dir)) :
      Turns fs next stream (.path (.opendir path)) (.code 0) (next + 1)
        (Function.update stream next (some dir))
  | notOpen {r : Request} {dd : ℕ} (hr : r.Reads dd ∨ r.Closes dd) (hdd : stream dd = none) :
      Turns fs next stream r (.code ebadf) next stream
  | read {dd : ℕ} {path : CString} {off : ℕ} {dir dir' : DirInfo} {listing : List (CString × Stat)}
      (hdd : stream dd = some dir) (he : chisaiFuseReaddir dir = .ok (listing, dir')) :
      Turns fs next stream (.path (.readdir dd path off)) (.names listing) next
        (Function.update stream dd (some dir'))
  | closed {dd : ℕ} {path : CString} {dir : DirInfo} (hdd : stream dd = some dir) :
      Turns fs next stream (.path (.releasedir dd path)) (.code eperm) next
        (Function.update stream dd none)

theorem Request.onStream_of {r : Request} {dd : ℕ} (h : r.Reads dd ∨ r.Closes dd) : r.OnStream := by
  cases r with
  | file c => exact h.elim id id
  | path r => cases r <;> first | exact trivial | exact h.elim id id

theorem Request.Turns.idle_of {fs : Filesystem} {r : Request} {reply : Reply} {next next' : ℕ}
    {stream stream' : ℕ → Option DirInfo} (h : r.Turns fs next stream reply next' stream')
    (hr : ¬ r.OnStream) : next' = next ∧ stream' = stream := by
  cases h with
  | idle => exact ⟨rfl, rfl⟩
  | notOpen hdd => exact absurd (Request.onStream_of hdd) hr
  | _ => exact absurd trivial hr

/-- What a request does to the table of open directories and to their objects. -/
inductive OpenDirs.Did (fs : Filesystem) (d : OpenDirs) : Request → Reply → OpenDirs → Prop
  | idle {r : Request} {reply : Reply} (hr : ¬ r.OnStream) : Did fs d r reply d
  | refused {path : CString} {e : ChisaiError} (he : chisaiFuseOpendir fs path = .ok (.error e)) :
      Did fs d (.path (.opendir path)) (.code e.code)
        { d with streams := (d.streams.alloc ⟨dirInit, 0⟩).free d.streams.fresh }
  | opened {path : CString} {dir : DirInfo} (he : chisaiFuseOpendir fs path = .ok (.ok dir)) :
      Did fs d (.path (.opendir path)) (.code 0)
        ⟨d.streams.alloc dir, d.dirs.alloc d.streams.fresh⟩
  | notOpen {r : Request} {dd : ℕ} (hr : r.Reads dd ∨ r.Closes dd) (hdd : d.dirs.get dd = none) :
      Did fs d r (.code ebadf) d
  | read {dd fh off : ℕ} {path : CString} {dir dir' : DirInfo} {listing : List (CString × Stat)}
      (hdd : d.dirs.get dd = some fh) (hget : d.streams.get fh = some dir)
      (he : chisaiFuseReaddir dir = .ok (listing, dir')) :
      Did fs d (.path (.readdir dd path off)) (.names listing)
        { d with streams := d.streams.store fh dir' }
  | closed {dd fh : ℕ} {path : CString} {dir : DirInfo} (hdd : d.dirs.get dd = some fh)
      (hget : d.streams.get fh = some dir) :
      Did fs d (.path (.releasedir dd path)) (.code eperm) ⟨d.streams.free fh, d.dirs.free dd⟩

section Turns

variable {fs fs' : Filesystem} {d d' : OpenDirs} {r : Request} {reply : Reply}

theorem PathRequest.serve_did {r : PathRequest} (he : r.serve fs d = .ok (reply, fs', d')) :
    d.Did fs (.path r) reply d' := by
  cases r with
  | mkdir | rmdir | unlink | rename | access =>
    obtain ⟨_, -, he⟩ := bind_eq_ok.mp he
    cases he
    exact .idle id
  | getattr path =>
    obtain ⟨found, -, he⟩ := bind_eq_ok.mp he
    cases found <;> cases he <;> exact .idle id
  | opendir path =>
    obtain ⟨⟨r, d⟩, hopen, he⟩ := bind_eq_ok.mp he
    cases he
    obtain ⟨found, hfound, hopen⟩ := bind_eq_ok.mp hopen
    cases found with
    | error e =>
      cases hopen
      exact .refused hfound
    | ok dir =>
      cases hopen
      rw [alloc_store]
      exact .opened hfound
  | readdir dd path off =>
    dsimp only [PathRequest.serve] at he
    split at he
    · next hdd =>
      cases he
      exact .notOpen (Or.inl rfl) hdd
    · next fh hdd =>
      obtain ⟨⟨listing, d⟩, hread, he⟩ := bind_eq_ok.mp he
      cases he
      unfold OpenDirs.readdir at hread
      split at hread
      · cases hread
      · next dir hget =>
        obtain ⟨⟨listing, dir'⟩, hlist, hpure⟩ := bind_eq_ok.mp hread
        cases hpure
        exact .read hdd hget hlist
  | releasedir dd path =>
    dsimp only [PathRequest.serve] at he
    split at he
    · next hdd =>
      cases he
      exact .notOpen (Or.inr rfl) hdd
    · next fh hdd =>
      obtain ⟨⟨ret, d⟩, hfree, he⟩ := bind_eq_ok.mp he
      cases he
      unfold OpenDirs.releasedir at hfree
      split at hfree
      · cases hfree
      · next dir hget =>
        cases hfree
        exact .closed hdd hget
  | statfs | fsync | flush | link | symlink | mknod | chmod | chown | utimens =>
    cases he
    exact .idle id

/-- The open directories are turned from `d` to `d'`. -/
def OpenDirs.Turned (fs : Filesystem) (r : Request) (reply : Reply) (d d' : OpenDirs) : Prop :=
  Apart d'.dirs d'.streams ∧
    r.Turns fs d.dirs.fresh (held d.dirs d.streams) reply d'.dirs.fresh (held d'.dirs d'.streams)

theorem OpenDirs.Did.turned (hd : d.Did fs r reply d') (h : Apart d.dirs d.streams) :
    OpenDirs.Turned fs r reply d d' := by
  cases hd with
  | idle hr => exact ⟨h, .idle hr⟩
  | refused he =>
    obtain ⟨hap, hsame⟩ := h.discard ⟨dirInit, 0⟩
    refine ⟨hap, ?_⟩
    rw [hsame]
    exact .refused he
  | @opened path dir he =>
    obtain ⟨hap, hnew⟩ := h.alloc dir
    refine ⟨hap, ?_⟩
    rw [hnew, Heap.fresh_alloc]
    exact .opened he
  | notOpen hr hdd => exact ⟨h, .notOpen hr (held_of_closed hdd)⟩
  | @read dd fh off path dir dir' listing hdd hget he =>
    obtain ⟨hap, hnew⟩ := h.store hdd dir'
    refine ⟨hap, ?_⟩
    rw [hnew]
    exact .read ((held_of_get hdd).trans hget) he
  | @closed dd fh path dir hdd hget =>
    obtain ⟨hap, hnew⟩ := h.free hdd
    refine ⟨hap, ?_⟩
    rw [hnew, Heap.fresh_free]
    exact .closed ((held_of_get hdd).trans hget)

theorem OpenDirs.Did.inUse (hd : d.Did fs r reply d') (h : d.streams.inUse = d.dirs.inUse) :
    d'.streams.inUse = d'.dirs.inUse := by
  cases hd with
  | idle | notOpen => exact h
  | refused =>
    have hnew : (d.streams.alloc ⟨dirInit, 0⟩).get d.streams.fresh = some ⟨dirInit, 0⟩ := by
      rw [Heap.get_alloc, if_pos rfl]
    have hfree := Heap.inUse_free hnew
    rw [Heap.inUse_alloc] at hfree
    dsimp only
    omega
  | opened =>
    dsimp only
    rw [Heap.inUse_alloc, Heap.inUse_alloc, h]
  | read hdd hget => exact (Heap.inUse_store hget).trans h
  | closed hdd hget =>
    have hstreams := Heap.inUse_free hget
    have hdirs := Heap.inUse_free hdd
    dsimp only
    omega

end Turns

section Streams

variable {s t u : Mountpoint} {r : Request} {reply : Reply} {dd : ℕ} {path : CString}

theorem Mountpoint.serve_turned (h : Apart s.dirs.dirs s.dirs.streams)
    (he : s.serve r = .ok (reply, t)) : OpenDirs.Turned s.fs r reply s.dirs t.dirs := by
  cases r with
  | file c =>
    obtain ⟨_, -, hpair⟩ := map_eq_ok.mp he
    cases hpair
    exact ⟨h, .idle id⟩
  | path r =>
    obtain ⟨⟨reply, fs', d⟩, hcall, hpair⟩ := map_eq_ok.mp he
    cases hpair
    exact (PathRequest.serve_did hcall).turned h

theorem streams_apart {fs₀ : Filesystem} {allowed : Mountpoint → Request → Prop}
    (hrun : Reaches Mountpoint.next allowed (.start fs₀) s) :
    Apart s.dirs.dirs s.dirs.streams := by
  refine hrun.invariant (fun s => Apart s.dirs.dirs s.dirs.streams) (fun s r t h _ hs => ?_)
    apart_empty
  obtain ⟨⟨reply, t⟩, hserve, rfl⟩ := map_eq_ok.mp hs
  exact (s.serve_turned h hserve).1

theorem Request.Turns.other {fs : Filesystem} {next next' : ℕ}
    {stream stream' : ℕ → Option DirInfo} (h : r.Turns fs next stream reply next' stream')
    (hne : dd ≠ next) (hr : ¬ r.Reads dd) (hc : ¬ r.Closes dd) : stream' dd = stream dd := by
  cases h with
  | idle | refused | notOpen => rfl
  | opened he => exact Function.update_of_ne hne ..
  | read hdd he => exact Function.update_of_ne (Ne.symm hr) ..
  | closed => exact Function.update_of_ne (Ne.symm hc) ..

theorem stream_invariant {P : DirInfo → Prop} {allowed : Request → Prop}
    (hclose : ∀ r, allowed r → ¬ r.Closes dd)
    (hread : ∀ r dir dir' listing, allowed r → r.Reads dd → P dir →
      chisaiFuseReaddir dir = .ok (listing, dir') → P dir')
    (h : Apart s.dirs.dirs s.dirs.streams) (hs : ∃ dir, s.stream dd = some dir ∧ P dir)
    (hrun : Reaches Mountpoint.next (fun _ r => allowed r) s t) :
    Apart t.dirs.dirs t.dirs.streams ∧ ∃ dir, t.stream dd = some dir ∧ P dir := by
  refine hrun.invariant
    (fun s => Apart s.dirs.dirs s.dirs.streams ∧ ∃ dir, s.stream dd = some dir ∧ P dir) ?_ ⟨h, hs⟩
  rintro s r t ⟨h, dir, hdir, hp⟩ hr hs
  obtain ⟨⟨reply, t⟩, hserve, rfl⟩ := map_eq_ok.mp hs
  obtain ⟨hap, hturns⟩ := s.serve_turned h hserve
  refine ⟨hap, ?_⟩
  have hne := ne_fresh_of_held hdir
  change r.Turns s.fs s.dirs.dirs.fresh s.stream reply t.dirs.dirs.fresh t.stream at hturns
  dsimp only
  by_cases hreads : r.Reads dd
  · generalize t.stream = stream at hturns
    generalize t.dirs.dirs.fresh = next at hturns
    cases hturns with
    | idle | refused | notOpen => exact ⟨dir, hdir, hp⟩
    | opened he => exact absurd hreads id
    | @read dd' path off dir₁ dir₂ listing hdd he =>
      obtain rfl : dd' = dd := hreads
      cases hdir.symm.trans hdd
      exact ⟨dir₂, Function.update_self .., hread _ _ _ _ hr rfl hp he⟩
    | closed => exact absurd hreads id
  · rw [hturns.other hne hreads (hclose r hr)]
    exact ⟨dir, hdir, hp⟩

theorem Mountpoint.serve_readdir (h : Apart s.dirs.dirs s.dirs.streams) {dir dir' : DirInfo}
    {listing : List (CString × Stat)} (hdd : s.stream dd = some dir)
    (he : chisaiFuseReaddir dir = .ok (listing, dir')) : ∃ t,
      (∀ path off, s.serve (.path (.readdir dd path off)) = .ok (.names listing, t)) ∧
        Apart t.dirs.dirs t.dirs.streams ∧ t.stream dd = some dir' := by
  obtain ⟨fh, hfh, hget⟩ := held_eq_some.mp hdd
  obtain ⟨hap, hnew⟩ := h.store hfh dir'
  refine ⟨⟨s.files, { s.dirs with streams := s.dirs.streams.store fh dir' }⟩, fun path off => ?_,
    hap, ?_⟩
  · simp only [Mountpoint.serve, PathRequest.serve, hfh, OpenDirs.readdir, hget, he, ok_bind]
    rfl
  · unfold Mountpoint.stream
    rw [hnew, Function.update_self]

end Streams

section Sessions

variable {geo : Geometry} {fs₀ : Filesystem} {s t u : Mountpoint} {dd : ℕ} {path : CString}

theorem Orderly.opens {fs : Filesystem} (h : Orderly geo fs) (hpath : 0 ∉ path)
    (ht : (volume geo fs).dirs.Through (strtokSlash path))
    (hd : LeadsToDir fs (strtokSlash path)) : ∃ dir, chisaiFuseOpendir fs path = .ok (.ok dir) := by
  obtain ⟨⟨p, x⟩, hlook, hmode⟩ := hd
  have hnul : ∀ e ∈ strtokSlash path, 0 ∉ e := fun e he => (properName_of_token hpath he).noNul
  have hl := hlook
  rw [h.shows.fsLookup_eq hnul ht.straight] at hl
  obtain ⟨p', hp, he⟩ := Option.map_eq_some_iff.mp (Except.ok.inj hl)
  obtain ⟨rfl, rfl⟩ := Prod.mk.inj he
  have hdir := Volume.dirs_of_isDir (v := volume geo fs) ⟨h.shows.resolve_used hp, hmode⟩
  unfold chisaiFuseOpendir fsGetDir fsGetDirOf
  rw [fsPathToInode_eq, hlook, ok_bind]
  dsimp only
  rw [h.shows.load p' _ hdir]
  exact ⟨_, rfl⟩

theorem Mountpoint.serve_opendir (h : Apart s.dirs.dirs s.dirs.streams) {dir : DirInfo}
    (he : chisaiFuseOpendir s.fs path = .ok (.ok dir)) : ∃ t,
      s.serve (.path (.opendir path)) = .ok (.code 0, t) ∧ Apart t.dirs.dirs t.dirs.streams ∧
        t.stream s.dirs.dirs.fresh = some dir := by
  obtain ⟨hap, hnew⟩ := h.alloc dir
  refine ⟨⟨s.files, ⟨s.dirs.streams.alloc dir, s.dirs.dirs.alloc s.dirs.streams.fresh⟩⟩, ?_, hap, ?_⟩
  · simp only [Mountpoint.serve, PathRequest.serve, OpenDirs.opendir, he, ok_bind, alloc_store]
    rfl
  · unfold Mountpoint.stream
    rw [hnew, Function.update_self]

/-- The two dot entries, and behind them the names that the directory had then and no others. -/
def ListsAsIn (fs : Filesystem) (path : CString) (listing : List (CString × Stat)) : Prop :=
  ∃ names, listing.map Prod.fst = [46] :: [46, 46] :: names ∧
    ∀ c, c ∈ names ↔
      ProperName c ∧ ∃ info, fsGetMetadata fs (path ++ slash :: c) = .ok (.ok info)

theorem Orderly.lists {fs : Filesystem} (h : Orderly geo fs) (hpath : 0 ∉ path)
    (ht : (volume geo fs).dirs.Through (strtokSlash path))
    (hd : LeadsToDir fs (strtokSlash path)) {dir : DirInfo}
    (hopen : chisaiFuseOpendir fs path = .ok (.ok dir)) : ∃ listing dir',
      chisaiFuseReaddir dir = .ok (listing, dir') ∧ ListsAsIn fs path listing ∧
        dir'.pos.toNat = dir'.dir.size.toNat + 2 := by
  obtain ⟨hpos, p, hp, hdir⟩ := OpenedOn.dir_eq h hpath ht hd ⟨hopen, hopen⟩
  obtain ⟨dir', hfirst, hsame, hend⟩ := chisaiFuseReaddir_first (h.named p _ hdir) hpos
  refine ⟨_, dir', hfirst, ⟨dir.dir.nodes.map DirNode.text, ?_, fun c => ?_⟩, by rw [hend, hsame]⟩
  · simp [listed, Function.comp_def]
  · have hkeys : dir.dir.nodes.map DirNode.text = dir.dir.entries.keys := by
      simp [Dir.entries, List.keys, DirNode.entry, Function.comp_def]
    have hmeta := fun hc => h.metadata_in_dir (c := c) hpath ht hp hdir hc
    rw [hkeys, ← List.dlookup_isSome]
    cases hlook : dir.dir.entries.dlookup c with
    | none =>
      refine iff_of_false (by simp) ?_
      rintro ⟨hc, info, hinfo⟩
      rw [hmeta hc, hlook] at hinfo
      cases hinfo
    | some i =>
      have hc := ((h.named p _ hdir).length_of_found hlook).1
      refine iff_of_true rfl ⟨hc, ⟨(volume geo fs).inode i, i⟩, ?_⟩
      rw [hmeta hc, hlook]
      rfl

/-- A directory that a path leads to can be opened. Whatever requests come in between, its first
reading delivers the names that it had when it was opened, and every later one nothing. -/
theorem readdir_snapshot (hmount : freshMount geo = .ok fs₀)
    (hrun : Reaches Mountpoint.next (fun s r => r.Lawful s) (.start fs₀) s) (hpath : 0 ∉ path)
    (hthrough : ThroughDirs s.fs (strtokSlash path)) (hdir : LeadsToDir s.fs (strtokSlash path))
    (hdd : dd = s.dirs.dirs.fresh) :
    ∃ t, s.serve (.path (.opendir path)) = .ok (.code 0, t) ∧
      ∀ u, Reaches Mountpoint.next (fun _ r => ¬ r.Reads dd ∧ ¬ r.Closes dd) t u →
        ∃ listing v, ListsAsIn s.fs path listing ∧
          (∀ path off, u.serve (.path (.readdir dd path off)) = .ok (.names listing, v)) ∧
          ∀ w, Reaches Mountpoint.next (fun _ r => ¬ r.Closes dd) v w →
            ∃ w', ∀ path off, w.serve (.path (.readdir dd path off)) = .ok (.names [], w') := by
  have ho := (inSession hmount hrun).named.orderly
  have hth := ho.through (fun e he => (properName_of_token hpath he).noNul) hthrough
  obtain ⟨dir, hcall⟩ := ho.opens hpath hth hdir
  obtain ⟨t, hopen, hapart, hdir₁⟩ := s.serve_opendir (streams_apart hrun) hcall
  rw [← hdd] at hdir₁
  refine ⟨t, hopen, fun u hrest => ?_⟩
  obtain ⟨listing, dir', hlist, hnames, hend⟩ := ho.lists hpath hth hdir hcall
  obtain ⟨hapart, _, hdir₂, rfl⟩ := stream_invariant (P := (· = dir)) (fun _ hr => hr.2)
    (fun _ _ _ _ hr hreads => absurd hreads hr.1) hapart ⟨dir, hdir₁, rfl⟩ hrest
  obtain ⟨v, hread, hapart, hdir₃⟩ := u.serve_readdir hapart hdir₂ hlist
  refine ⟨listing, v, hnames, hread, fun w hlater => ?_⟩
  obtain ⟨hapart, last, hlast, hend⟩ := stream_invariant
    (P := fun dir => dir.pos.toNat = dir.dir.size.toNat + 2) (fun _ hr => hr)
    (fun _ dir dir₁ names _ _ hp he => by
      rw [chisaiFuseReaddir_later hp] at he
      cases he
      exact hp) hapart ⟨dir', hdir₃, hend⟩ hlater
  obtain ⟨w', hread', -⟩ := w.serve_readdir hapart hlast (chisaiFuseReaddir_later hend)
  exact ⟨w', hread'⟩

/-- The root, opened after a directory and two files were made. One of the files is removed before
the root is read. -/
theorem readdir_snapshot_root : ∃ fs₀ s t u, freshMount smallDisk = .ok fs₀ ∧
    Reaches Mountpoint.next (fun s r => r.Lawful s) (.start fs₀) s ∧
    s.serve (.path (.opendir [47])) = .ok (.code 0, t) ∧
    t.serve (.path (.unlink [47, 99])) = .ok (.code 0, u) ∧
    ∃ listing v, ListsAsIn s.fs [47] listing ∧
      u.serve (.path (.readdir 0 [47] 0)) = .ok (.names listing, v) := by
  obtain ⟨fs₀, s, hmount, hrun, hthrough, hdir, hdd, ⟨reply, t⟩, hopen, rfl, ⟨reply, u⟩, hbetween,
    rfl⟩ := exists_session twoOpenFiles
    (p := fun s => ThroughDirs s.fs (strtokSlash [47]) ∧ LeadsToDir s.fs (strtokSlash [47]) ∧
      0 = s.dirs.dirs.fresh ∧ Yields (s.serve (.path (.opendir [47]))) fun r => r.1 = .code 0 ∧
        Yields (r.2.serve (.path (.unlink [47, 99]))) fun r => r.1 = .code 0) (by decide +kernel)
  obtain ⟨t', hopen', hrest⟩ := readdir_snapshot hmount hrun (by decide) hthrough hdir hdd
  dsimp only at hopen hbetween
  rw [hopen] at hopen'
  cases hopen'
  have hnext : t.next (.path (.unlink [47, 99])) = .ok u := map_eq_ok.mpr ⟨_, hbetween, rfl⟩
  obtain ⟨listing, v, hnames, hread, -⟩ :=
    hrest u (.tail (.path (.unlink [47, 99])) .refl ⟨id, id⟩ hnext)
  exact ⟨fs₀, s, t, u, hmount, hrun, hopen, hbetween, listing, v, hnames, hread _ _⟩

end Sessions

end ChisaiFs
