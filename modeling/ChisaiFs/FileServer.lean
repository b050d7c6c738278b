import ChisaiFs.FileStore
import ChisaiFs.Stateless
import ChisaiFs.Streams

/-! What the mounted process is for: it serves requests from a map of paths, a map of what files
hold and tables of what is open. The replies of a session are those of that server. -/

namespace ChisaiFs
open Heaps Lockstep Outcome Pointers Simulation

/-- The two maps, which inode is open for each descriptor, and the names that each open directory
has left. -/
structure Server where
  store : Files
  files : Heap ChisaiSize
  dirs : Heap (List CString)

def Server.empty : Server := ⟨Files.empty, .empty, .empty⟩

/-- The two dot entries, and each name in the directory once. -/
def Files.Lists (m : Files) (path : List CString) (names : List CString) : Prop :=
  ∃ rest, names = [46] :: [46, 46] :: rest ∧ rest.Nodup ∧
    ∀ c, c ∈ rest ↔ m.names (path ++ [c]) ≠ none

/-- The names with the record that every name is given. -/
def Reply.listing (names : List CString) : Reply :=
  .names (names.map fun c => (c, chisaiFuseTostat dataInfo))

structure Files.Stats (m : Files) (i : ChisaiSize) (stat : Stat) : Prop where
  ino : stat.ino = i.toUInt64
  regular : sIsreg stat.mode ↔ m.data i ≠ none
  size : ∀ bs, m.data i = some bs → stat.size.toInt = bs.length

def Request.looksUp : Request → Option CString
  | .path (.getattr name) | .path (.access name _) | .path (.opendir name) => some name
  | .file (.open name) | .file (.truncate name _) => some name
  | _ => none

def Call.descriptor : Call → Option ℕ
  | .release fd _ | .fgetattr fd _ | .read fd _ _ _ | .write fd _ _ _ => some fd
  | _ => none

/-- What requests that do nothing return. -/
def PathRequest.fixed : PathRequest → Option ℤ
  | .statfs _ | .link _ _ | .symlink _ _ | .mknod _ _ _ | .chown _ _ _ => some eperm
  | .fsync _ _ | .flush _ | .chmod _ _ | .utimens _ _ => some 0
  | _ => none

inductive Server.Serves (m : Server) : Request → Reply → Server → Prop
  | changed {r : PathRequest} {op : Op} {o : ℤ} {store : Files} (hop : r.op = some op)
      (hs : m.store.Step op o store) : Serves m (.path r) (.code o) { m with store := store }
  | fixed {r : PathRequest} {o : ℤ} (hr : r.fixed = some o) : Serves m (.path r) (.code o) m
  | openedDir {path : CString} {names : List CString}
      (hi : m.store.names (strtokSlash path) ≠ none)
      (hnames : m.store.Lists (strtokSlash path) names) :
      Serves m (.path (.opendir path)) (.code 0) { m with dirs := m.dirs.alloc names }
  | listed {dd off : ℕ} {path : CString} {names : List CString} (hdd : m.dirs.get dd = some names) :
      Serves m (.path (.readdir dd path off)) (.listing names) { m with dirs := m.dirs.store dd [] }
  | closedDir {dd : ℕ} {path : CString} {names : List CString} (hdd : m.dirs.get dd = some names) :
      Serves m (.path (.releasedir dd path)) (.code eperm) { m with dirs := m.dirs.free dd }
  | notOpenDir {r : Request} {dd : ℕ} (hr : r.Reads dd ∨ r.Closes dd) (hdd : m.dirs.get dd = none) :
      Serves m r (.code ebadf) m
  | missing {r : Request} {path : CString} (hr : r.looksUp = some path)
      (hnone : m.store.names (strtokSlash path) = none) :
      Serves m r (.code ChisaiError.enoent.code) m
  | gotattr {path : CString} {i : ChisaiSize} {stat : Stat}
      (hi : m.store.names (strtokSlash path) = some i) (hstat : m.store.Stats i stat) :
      Serves m (.path (.getattr path)) (.attr stat) m
  | accessed {path : CString} {mask : ℤ} {i : ChisaiSize}
      (hi : m.store.names (strtokSlash path) = some i) :
      Serves m (.path (.access path mask)) (.code 0) m
  | created {path : CString} {mode : UInt32} {i : ChisaiSize} {store : Files}
      (hs : m.store.Step (.create path mode) 0 store)
      (hi : store.names (strtokSlash path) = some i) :
      Serves m (.file (.create path mode)) (.code 0)
        { m with store := store, files := m.files.alloc i }
  | refused {path : CString} {mode : UInt32} {o : ℤ} {store : Files} (ho : o ≠ 0)
      (hs : m.store.Step (.create path mode) o store) :
      Serves m (.file (.create path mode)) (.code o) { m with store := store }
  | opened {path : CString} {i : ChisaiSize} (hi : m.store.names (strtokSlash path) = some i) :
      Serves m (.file (.open path)) (.code 0) { m with files := m.files.alloc i }
  | cut {path : CString} {size : ℕ} {i : ChisaiSize} {x : Inode} {o : ℤ} {store : Files}
      (hi : m.store.names (strtokSlash path) = some i)
      (hs : m.store.Step (.truncate ⟨x, i⟩ size) o store) :
      Serves m (.file (.truncate path size)) (.code o) { m with store := store }
  | closed {fd : ℕ} {path : CString} {i : ChisaiSize} (hfd : m.files.get fd = some i) :
      Serves m (.file (.release fd path)) (.code 0) { m with files := m.files.free fd }
  | fgotattr {fd : ℕ} {path : CString} {i : ChisaiSize} {stat : Stat}
      (hfd : m.files.get fd = some i) (hstat : m.store.Stats i stat) :
      Serves m (.file (.fgetattr fd path)) (.attr stat) m
  | delivered {fd size off : ℕ} {path : CString} {i : ChisaiSize} {bs : List UInt8}
      (hfd : m.files.get fd = some i) (hbs : m.store.data i = some bs) :
      Serves m (.file (.read fd path size off))
        (.data (min size (bs.length - off) : ℕ) ((bs.drop off).take size)) m
  | wrote {fd off : ℕ} {path : CString} {buf : List UInt8} {i : ChisaiSize} {x : Inode} {o : ℤ}
      {store : Files} (hfd : m.files.get fd = some i)
      (hs : m.store.Step (.write ⟨x, i⟩ buf off) o store) :
      Serves m (.file (.write fd path buf off)) (.code o) { m with store := store }
  | notOpen {c : Call} {fd : ℕ} (hc : c.descriptor = some fd) (hfd : m.files.get fd = none) :
      Serves m (.file c) (.code ebadf) m

def Walked (fs : Filesystem) (path : CString) : Prop := 0 ∉ path ∧ ThroughDirs fs (strtokSlash path)

/-- Operations are tidy, and what is opened to be listed is a directory. -/
def PathRequest.Expected (fs : Filesystem) : PathRequest → Prop
  | .getattr path | .access path _ => Walked fs path
  | .opendir path => Walked fs path ∧ LeadsTo fs path fun info => sIsdir info.inode.mode
  | r => ∀ op ∈ r.op, op.Tidy fs

/-- Reads are from the start or inside the file, writes append and truncations end at a block. -/
def Call.Expected (fs : Filesystem) (held : ℕ → Option FileInfo) : Call → Prop
  | .create path mode => (Op.create path mode).Tidy fs
  | .open path => Walked fs path
  | .truncate path size => Walked fs path ∧ fs.sb.blockSize.toNat ∣ size
  | .read fd _ size off => ∀ file ∈ held fd, off = 0 ∨ off + size ≤ file.length
  | .write fd _ _ off => ∀ file ∈ held fd, off = file.length
  | .release _ _ | .fgetattr _ _ => True

def Request.Expected (s : Mountpoint) : Request → Prop
  | .path r => r.Expected s.fs
  | .file c => c.Expected s.fs s.files.held

instance Walked.decidable (fs : Filesystem) (path : CString) : Decidable (Walked fs path) :=
  inferInstanceAs (Decidable (_ ∧ _))

instance PathRequest.decidableExpected (fs : Filesystem) : (r : PathRequest) → Decidable (r.Expected fs)
  | .getattr path | .access path _ => inferInstanceAs (Decidable (Walked fs path))
  | .opendir path => inferInstanceAs
      (Decidable (Walked fs path ∧ LeadsTo fs path fun info => sIsdir info.inode.mode))
  | .mkdir path mode => inferInstanceAs (Decidable (∀ op ∈ some (Op.mkdir path mode), op.Tidy fs))
  | .rmdir path | .unlink path =>
    inferInstanceAs (Decidable (∀ op ∈ some (Op.remove path), op.Tidy fs))
  | .rename src dst => inferInstanceAs (Decidable (∀ op ∈ some (Op.rename src dst), op.Tidy fs))
  | .statfs _ | .readdir _ _ _ | .releasedir _ _ | .fsync _ _ | .flush _ | .link _ _ | .symlink _ _
  | .mknod _ _ _ | .chmod _ _ | .chown _ _ _ | .utimens _ _ =>
    inferInstanceAs (Decidable (∀ op ∈ (none : Option Op), op.Tidy fs))

instance Call.decidableExpected (fs : Filesystem) (held : ℕ → Option FileInfo) :
    (c : Call) → Decidable (c.Expected fs held)
  | .create path mode => inferInstanceAs (Decidable ((Op.create path mode).Tidy fs))
  | .open path => inferInstanceAs (Decidable (Walked fs path))
  | .truncate path size =>
    inferInstanceAs (Decidable (Walked fs path ∧ fs.sb.blockSize.toNat ∣ size))
  | .read fd _ size off =>
    inferInstanceAs (Decidable (∀ file ∈ held fd, off = 0 ∨ off + size ≤ file.length))
  | .write fd _ _ off => inferInstanceAs (Decidable (∀ file ∈ held fd, off = file.length))
  | .release _ _ | .fgetattr _ _ => isTrue trivial

instance Request.decidableExpected (s : Mountpoint) : (r : Request) → Decidable (r.Expected s)
  | .path r => inferInstanceAs (Decidable (r.Expected s.fs))
  | .file c => inferInstanceAs (Decidable (c.Expected s.fs s.files.held))

def ServedStep (s : Mountpoint) (r : Request) (reply : Reply) (s' : Mountpoint) : Prop :=
  (r.Steady s ∧ r.Expected s) ∧ s.serve r = .ok (reply, s')

section Requests

variable {geo : Geometry} {fs fs' : Filesystem} {m : Server} {t t' : Stateless} {d d' : OpenDirs}
  {path : CString} {i : ChisaiSize} {reply : Reply}

theorem Walked.metadata (h : Walked fs path) (ho : Orderly geo fs) :
    fsGetMetadata fs path = .ok (match names geo fs (strtokSlash path) with
      | none => .error .enoent
      | some i => .ok ⟨(volume geo fs).inode i, i⟩) := by
  obtain ⟨hpath, ht⟩ := h
  have hnul : ∀ e ∈ strtokSlash path, 0 ∉ e := fun e he => (properName_of_token hpath he).noNul
  have hst := (ho.through hnul ht).straight
  unfold fsGetMetadata names
  rw [fsPathToInode_eq, ho.shows.fsLookup_eq hnul hst]
  cases (volume geo fs).dirs.resolve (strtokSlash path) <;> rfl

theorem Files.Kept.stats {store : Files} (h : store.Kept geo fs) (hu : i ∈ (volume geo fs).inodeUsed) :
    store.Stats i (chisaiFuseTostat ⟨(volume geo fs).inode i, i⟩) where
  ino := rfl
  regular := by
    constructor
    · exact h.describes.all i hu
    · intro hi
      obtain ⟨bs, hbs⟩ := Option.ne_none_iff_exists'.mp hi
      exact (h.describes.file i bs hbs).regular
  size bs hbs := by
    have hfile := h.describes.file i bs hbs
    have hlt := geo.direct_lt
    have hbound := hfile.bound
    have hsize : ((volume geo fs).inode i).size = Int64.ofNat bs.length := hfile.size
    change ((volume geo fs).inode i).size.toInt = _
    rw [hsize, Int64.toInt_ofNat_of_lt (by omega)]

theorem PathRequest.serve_reply {r : PathRequest} {op : Op} (hop : r.op = some op)
    (he : r.serve fs d = .ok (reply, fs', d')) :
    ∃ o, op.reply fs = .ok (o, fs') ∧ reply = .code o := by
  cases r <;> cases hop
  all_goals
    obtain ⟨⟨r, _⟩, hcall, he⟩ := bind_eq_ok.mp he
    cases he
    exact ⟨_, map_eq_ok.mpr ⟨_, hcall, rfl⟩, rfl⟩

theorem PathRequest.op_sequential {r : PathRequest} {op : Op} (hop : r.op = some op) :
    op.Sequential fs := by
  cases r <;> cases hop <;> trivial

/-- The next reading of the directory delivers the names, and the ones after it nothing. -/
def DirInfo.Leaves (dir : DirInfo) (names : List CString) : Prop :=
  ∃ listing dir', chisaiFuseReaddir dir = .ok (listing, dir') ∧
    Reply.names listing = .listing names ∧ dir'.pos.toNat = dir'.dir.size.toNat + 2

theorem DirInfo.Leaves.nothing {dir : DirInfo} (h : dir.pos.toNat = dir.dir.size.toNat + 2) :
    dir.Leaves [] :=
  ⟨[], dir, chisaiFuseReaddir_later h, rfl, h⟩

structure OpenDirs.Pending (d : OpenDirs) (dirs : Heap (List CString)) : Prop where
  apart : Apart d.dirs d.streams
  fresh : dirs.fresh = d.dirs.fresh
  left : ∀ dd, Option.Rel DirInfo.Leaves (held d.dirs d.streams dd) (dirs.get dd)

structure Server.Backed (geo : Geometry) (m : Server) (t : Stateless) : Prop where
  kept : m.store.Kept geo t.fs
  files : m.files = t.files
  dirs : t.dirs.Pending m.dirs

theorem Server.Backed.names_eq (h : m.Backed geo t) : m.store.names = names geo t.fs :=
  h.kept.describes.names

theorem Server.Backed.orderly (h : m.Backed geo t) : Orderly geo t.fs := h.kept.inOrder.orderly

theorem OpenDirs.Pending.closed {dirs : Heap (List CString)} (h : d.Pending dirs) {dd : ℕ}
    (hdd : held d.dirs d.streams dd = none) : dirs.get dd = none := by
  have hleft := h.left dd
  rw [hdd] at hleft
  generalize dirs.get dd = x at hleft
  cases hleft
  rfl

theorem OpenDirs.Pending.open {dirs : Heap (List CString)} (h : d.Pending dirs) {dd : ℕ}
    {dir : DirInfo} (hdd : held d.dirs d.streams dd = some dir) :
    ∃ names, dirs.get dd = some names ∧ dir.Leaves names := by
  have hleft := h.left dd
  rw [hdd] at hleft
  generalize dirs.get dd = x at hleft
  cases hleft with
  | some hleaves => exact ⟨_, rfl, hleaves⟩

theorem OpenDirs.Pending.congr {dirs : Heap (List CString)} (h : d.Pending dirs)
    (hap : Apart d'.dirs d'.streams) (hfresh : d'.dirs.fresh = d.dirs.fresh)
    (hheld : held d'.dirs d'.streams = held d.dirs d.streams) : d'.Pending dirs :=
  ⟨hap, h.fresh.trans hfresh.symm, fun dd => hheld ▸ h.left dd⟩

theorem OpenDirs.Pending.update {dirs dirs' : Heap (List CString)} (h : d.Pending dirs)
    (hap : Apart d'.dirs d'.streams) (hfresh : dirs'.fresh = d'.dirs.fresh) {dd : ℕ}
    {dir : Option DirInfo} {names : Option (List CString)}
    (hheld : held d'.dirs d'.streams = Function.update (held d.dirs d.streams) dd dir)
    (hget : ∀ a, dirs'.get a = if a = dd then names else dirs.get a)
    (hnew : Option.Rel DirInfo.Leaves dir names) : d'.Pending dirs' := by
  refine ⟨hap, hfresh, fun a => ?_⟩
  rw [hheld, hget]
  split_ifs with ha
  · rw [ha, Function.update_self]
    exact hnew
  · rw [Function.update_of_ne ha]
    exact h.left a

/-- A directory is opened as it is on the device. -/
theorem Walked.opendir (h : Walked fs path) (ho : Orderly geo fs)
    (hd : LeadsTo fs path fun info => sIsdir info.inode.mode) :
    (names geo fs (strtokSlash path) = none ∧
      chisaiFuseOpendir fs path = .ok (.error .enoent)) ∨
    ∃ p dir, names geo fs (strtokSlash path) = some p ∧ (volume geo fs).dirs p = some dir ∧
      chisaiFuseOpendir fs path = .ok (.ok ⟨dir, 0⟩) := by
  have hmeta := h.metadata ho
  obtain ⟨hpath, ht⟩ := h
  have hnul : ∀ e ∈ strtokSlash path, 0 ∉ e := fun e he => (properName_of_token hpath he).noNul
  have hlook := ho.shows.fsLookup_eq hnul (ho.through hnul ht).straight
  have hnames : (volume geo fs).dirs.resolve (strtokSlash path) =
      names geo fs (strtokSlash path) := rfl
  unfold chisaiFuseOpendir fsGetDir fsGetDirOf
  rw [fsPathToInode_eq, hlook, hnames]
  cases hi : names geo fs (strtokSlash path) with
  | none => exact Or.inl ⟨rfl, rfl⟩
  | some p =>
    rw [hi] at hmeta
    have hp : (volume geo fs).IsDir p :=
      ⟨ho.shows.resolve_used hi, (hd.apply hmeta).apply rfl⟩
    have hdir := Volume.dirs_of_isDir hp
    refine Or.inr ⟨p, _, rfl, hdir, ?_⟩
    rw [Option.map_some, ok_bind]
    dsimp only
    rw [ho.shows.load p _ hdir]
    rfl

theorem InOrder.leaves (h : InOrder geo fs) {p : ChisaiSize} {dir : Dir} {q : List CString}
    (hp : names geo fs q = some p) (hd : (volume geo fs).dirs p = some dir) :
    ∃ rest, DirInfo.Leaves ⟨dir, 0⟩ ([46] :: [46, 46] :: rest) ∧ rest.Nodup ∧
      ∀ c, c ∈ rest ↔ names geo fs (q ++ [c]) ≠ none := by
  have hkeys : dir.nodes.map DirNode.text = dir.entries.keys := by
    simp [Dir.entries, List.keys, DirNode.entry, Function.comp_def]
  obtain ⟨dir', hfirst, hsame, hend⟩ :=
    @chisaiFuseReaddir_first ⟨dir, 0⟩ (h.orderly.named p dir hd) rfl
  refine ⟨dir.nodes.map DirNode.text, ⟨_, dir', hfirst, ?_, by rw [hend, hsame]⟩, ?_, fun c => ?_⟩
  · simp [Reply.listing, listed, Function.comp_def]
  · rw [hkeys]
    exact h.orderly.distinctNames.mp h.distinct p dir hd
  · have hres : names geo fs (q ++ [c]) = dir.entries.dlookup c := by
      unfold names DirTree.resolve at hp ⊢
      rw [Walks.walk_concat, hp, Option.bind_some, DirTree.child_of hd]
    rw [hkeys, hres, ← List.dlookup_isSome, Option.isSome_iff_ne_none]

theorem Server.Backed.idle (h : m.Backed geo t) {r : PathRequest}
    (hr : ¬ (Request.path r).OnStream) (he : r.serve t.fs t.dirs = .ok (reply, fs', d'))
    {store : Files} (hk : store.Kept geo fs') :
    Server.Backed geo { m with store := store } { t with fs := fs', dirs := d' } := by
  obtain ⟨hap, hturns⟩ := (PathRequest.serve_did he).turned h.dirs.apart
  obtain ⟨hnext, hheld⟩ := hturns.idle_of hr
  exact ⟨hk, h.files, h.dirs.congr hap hnext hheld⟩

theorem Server.Backed.serveStream (h : m.Backed geo t) {r : PathRequest}
    (hon : (Request.path r).OnStream) (hr : r.Expected t.fs)
    (he : r.serve t.fs t.dirs = .ok (reply, t.fs, d')) :
    ∃ m', m.Serves (.path r) reply m' ∧ m'.Backed geo { t with dirs := d' } := by
  obtain ⟨hap, hturns⟩ := (PathRequest.serve_did he).turned h.dirs.apart
  generalize hnext : d'.dirs.fresh = next at hturns
  generalize hheld : held d'.dirs d'.streams = stream at hturns
  cases hturns with
  | idle hr => exact absurd hon hr
  | @refused path e hcall =>
    rcases hr.1.opendir h.orderly hr.2 with ⟨hnone, hopen⟩ | ⟨p, dir, -, -, hopen⟩
    · cases hcall.symm.trans hopen
      exact ⟨m, .missing rfl (h.names_eq ▸ hnone), h.kept, h.files, h.dirs.congr hap hnext hheld⟩
    · cases hcall.symm.trans hopen
  | @opened path dir hcall =>
    rcases hr.1.opendir h.orderly hr.2 with ⟨-, hopen⟩ | ⟨p, dir, hp, hdir, hopen⟩
    · cases hcall.symm.trans hopen
    · cases hcall.symm.trans hopen
      obtain ⟨rest, hleaves, hnodup, hmem⟩ := h.kept.inOrder.leaves hp hdir
      rw [← h.names_eq] at hp
      simp only [← h.names_eq] at hmem
      refine ⟨_, .openedDir (by rw [hp]; exact Option.some_ne_none p) ⟨rest, rfl, hnodup, hmem⟩,
        h.kept, h.files, ?_⟩
      refine h.dirs.update hap ?_ hheld (fun a => ?_) (.some hleaves)
      · rw [Heap.fresh_alloc, h.dirs.fresh, hnext]
      · rw [Heap.get_alloc, h.dirs.fresh]
  | notOpen hr hdd =>
    exact ⟨m, .notOpenDir hr (h.dirs.closed hdd), h.kept, h.files, h.dirs.congr hap hnext hheld⟩
  | @read dd path off dir dir' listing hdd hcall =>
    obtain ⟨names, hget, listing', dir'', hlist, hreply, hend⟩ := h.dirs.open hdd
    cases hcall.symm.trans hlist
    rw [hreply]
    refine ⟨_, .listed hget, h.kept, h.files, ?_⟩
    refine h.dirs.update hap ?_ hheld (fun a => Heap.get_store hget) (.some (.nothing hend))
    rw [Heap.fresh_store, h.dirs.fresh, hnext]
  | @closed dd path dir hdd =>
    obtain ⟨names, hget, -⟩ := h.dirs.open hdd
    refine ⟨_, .closedDir hget, h.kept, h.files, ?_⟩
    refine h.dirs.update hap ?_ hheld (fun a => Heap.get_free) .none
    rw [Heap.fresh_free, h.dirs.fresh, hnext]

theorem Server.Backed.serveLookup (h : m.Backed geo t) {r : PathRequest} (hop : r.op = none)
    (hon : ¬ (Request.path r).OnStream) (hr : r.Expected t.fs)
    (he : r.serve t.fs d = .ok (reply, fs', d')) : m.Serves (.path r) reply m := by
  cases r with
  | getattr path =>
    obtain ⟨found, hcall, hpure⟩ := bind_eq_ok.mp he
    obtain ⟨found, hfound, rfl⟩ := map_eq_ok.mp hcall
    have hmeta := hr.metadata h.orderly
    rw [hfound, ← h.names_eq] at hmeta
    cases hi : m.store.names (strtokSlash path) with
    | none =>
      rw [hi] at hmeta
      cases hmeta
      cases hpure
      exact .missing rfl hi
    | some i =>
      rw [hi] at hmeta
      cases hmeta
      cases hpure
      rw [h.names_eq] at hi
      exact .gotattr (h.names_eq ▸ hi) (h.kept.stats (h.orderly.shows.resolve_used hi))
  | access path mask =>
    obtain ⟨r, hcall, hpure⟩ := bind_eq_ok.mp he
    obtain ⟨found, hfound, hcall⟩ := bind_eq_ok.mp hcall
    have hmeta := hr.metadata h.orderly
    rw [hfound, ← h.names_eq] at hmeta
    cases hi : m.store.names (strtokSlash path) with
    | none =>
      rw [hi] at hmeta
      cases hmeta
      cases hcall
      cases hpure
      exact .missing rfl hi
    | some i =>
      rw [hi] at hmeta
      cases hmeta
      cases hcall
      cases hpure
      exact .accessed hi
  | statfs | fsync | flush | link | symlink | mknod | chmod | chown | utimens =>
    cases he
    exact .fixed rfl
  | opendir | readdir | releasedir => exact absurd trivial hon
  | mkdir | rmdir | unlink | rename => cases hop

theorem Server.Backed.servePath (h : m.Backed geo t) {r : PathRequest} (hr : r.Expected t.fs)
    (he : t.serve (.path r) = .ok (reply, t')) :
    ∃ m', m.Serves (.path r) reply m' ∧ m'.Backed geo t' := by
  obtain ⟨⟨reply, fs', d'⟩, hserve, hpair⟩ := map_eq_ok.mp he
  cases hpair
  cases hop : r.op with
  | some op =>
    have htidy : op.Tidy t.fs := by
      cases r <;> cases hop
      all_goals exact hr _ rfl
    have hoff : ¬ (Request.path r).OnStream := by
      cases r <;> cases hop
      all_goals exact id
    obtain ⟨o, hreply, rfl⟩ := PathRequest.serve_reply hop hserve
    obtain ⟨store, hstep, hk⟩ := h.kept.step ⟨⟨htidy, PathRequest.op_sequential hop⟩, hreply⟩
    exact ⟨_, .changed hop hstep, h.idle hoff hserve hk⟩
  | none =>
    obtain rfl : fs' = t.fs := (PathRequest.serve_op hserve).resolve_right fun ⟨_, hc, _⟩ => by
      rw [hop] at hc
      cases hc
    by_cases hon : (Request.path r).OnStream
    · exact h.serveStream hon hr hserve
    · exact ⟨m, h.serveLookup hop hon hr hserve, h.idle hon hserve h.kept⟩

theorem Stateless.serveOn_eq {α : Type} {fd : ℕ} {file : FileInfo} (hfd : t.files.get fd = some file.idx)
    (hf : FreshFile t.fs file) (reply : α → Reply)
    (work : Filesystem → FileInfo → Exec (α × FileInfo × Filesystem)) :
    t.serveOn fd reply work = (fun r => (reply r.1, { t with fs := r.2.2 })) <$> work t.fs file := by
  unfold serveOn
  rw [hfd]
  dsimp only
  rw [hf.1, ok_bind]
  rfl

theorem Stateless.serveOn_closed {α : Type} {fd : ℕ} (hfd : t.files.get fd = none) (reply : α → Reply)
    (work : Filesystem → FileInfo → Exec (α × FileInfo × Filesystem)) :
    t.serveOn fd reply work = .ok (.code ebadf, t) := by
  unfold serveOn
  rw [hfd]

theorem Mirrors.descriptor {s : OpenFiles} (h : Mirrors s t) (hs : Sound geo s)
    (hfs : t.fs = s.proc.fs) (fd : ℕ) : t.files.get fd = none ∨
      ∃ file, s.held fd = some file ∧ t.files.get fd = some file.idx ∧ FreshFile t.fs file := by
  rw [h.files, hfs]
  cases hfd : s.held fd with
  | none => exact Or.inl rfl
  | some file => exact Or.inr ⟨file, rfl, rfl, hs.fresh hfd⟩

theorem Server.Backed.create (h : m.Backed geo t) {s : OpenFiles} {path : CString} {mode : UInt32}
    (hc : (Call.create path mode).Expected t.fs s.held)
    (he : (Call.create path mode).serveStateless t = .ok (reply, t')) :
    ∃ m', m.Serves (.file (.create path mode)) reply m' ∧ m'.Backed geo t' := by
  obtain ⟨⟨r, info, fs'⟩, hcall, hpure⟩ := bind_eq_ok.mp he
  cases hpure
  have hop : SequentialStep t.fs (.create path mode) r.code fs' :=
    ⟨⟨hc, trivial⟩, map_eq_ok.mpr ⟨(r, fs'), map_eq_ok.mpr ⟨_, hcall, rfl⟩, rfl⟩⟩
  obtain ⟨store, hstep, hk⟩ := h.kept.step hop
  by_cases hr : r = .ok
  · obtain rfl := hr
    obtain ⟨-, -, hn⟩ := fsCreateFile_puts h.orderly hc.1 hc.2.1 hc.2.2 hcall
    have hi : store.names (strtokSlash path) = some info.idx := by
      rw [hk.describes.names, hn, Walks.put_self]
    refine ⟨_, .created hstep hi, hk, ?_, h.dirs⟩
    rw [h.files, if_pos rfl]
  · have hcode : r.code ≠ 0 := by
      cases r with
      | ok => exact absurd rfl hr
      | _ => decide
    refine ⟨_, .refused hcode hstep, hk, ?_, h.dirs⟩
    rw [h.files, if_neg hr]

theorem Server.Backed.open (h : m.Backed geo t) {s : OpenFiles} {path : CString}
    (hc : (Call.open path).Expected t.fs s.held)
    (he : (Call.open path).serveStateless t = .ok (reply, t')) :
    ∃ m', m.Serves (.file (.open path)) reply m' ∧ m'.Backed geo t' := by
  obtain ⟨found, hfound, hpure⟩ := bind_eq_ok.mp he
  have hmeta := hc.metadata h.orderly
  rw [hfound, ← h.names_eq] at hmeta
  cases hi : m.store.names (strtokSlash path) with
  | none =>
    rw [hi] at hmeta
    cases hmeta
    cases hpure
    exact ⟨m, .missing rfl hi, h⟩
  | some i =>
    rw [hi] at hmeta
    cases hmeta
    cases hpure
    exact ⟨_, .opened hi, h.kept, congrArg (Heap.alloc · i) h.files, h.dirs⟩

theorem Server.Backed.truncate (h : m.Backed geo t) {s : OpenFiles} {path : CString} {size : ℕ}
    (hfs : t.fs = s.proc.fs) (hl : (Call.truncate path size).Lawful s)
    (hc : (Call.truncate path size).Expected t.fs s.held)
    (he : (Call.truncate path size).serveStateless t = .ok (reply, t')) :
    ∃ m', m.Serves (.file (.truncate path size)) reply m' ∧ m'.Backed geo t' := by
  have hm := h.orderly.mounted
  obtain ⟨hwalk, hsize⟩ := hc
  obtain ⟨found, hfound, hpure⟩ := bind_eq_ok.mp he
  have hmeta := hwalk.metadata h.orderly
  rw [hfound, ← h.names_eq] at hmeta
  cases hi : m.store.names (strtokSlash path) with
  | none =>
    rw [hi] at hmeta
    cases hmeta
    cases hpure
    exact ⟨m, .missing rfl hi, h⟩
  | some i =>
    rw [hi] at hmeta
    cases hmeta
    obtain ⟨⟨r, file', fs'⟩, hcall, hpure⟩ := bind_eq_ok.mp hpure
    cases hpure
    have hf : FreshFile t.fs ⟨(volume geo t.fs).inode i, i⟩ := by
      refine (FreshFile.iff hm).mpr ⟨?_, rfl, ?_⟩
      · rw [h.names_eq] at hi
        exact h.orderly.shows.resolve_used hi
      · rw [hfs] at hfound ⊢
        exact (hl.apply hfound).apply rfl
    have hop : SequentialStep t.fs (.truncate ⟨(volume geo t.fs).inode i, i⟩ size) r.code fs' :=
      ⟨⟨hf, hsize⟩, map_eq_ok.mpr ⟨(r, fs'), map_eq_ok.mpr ⟨_, hcall, rfl⟩, rfl⟩⟩
    obtain ⟨store, hstep, hk⟩ := h.kept.step hop
    exact ⟨_, .cut hi hstep, hk, h.files, h.dirs⟩

theorem Server.Backed.serveCall (h : m.Backed geo t) {s : OpenFiles} (hs : Sound geo s)
    (hfs : t.fs = s.proc.fs) (hmir : Mirrors s t) {c : Call} (hl : c.Lawful s)
    (hc : c.Expected t.fs s.held) (he : c.serveStateless t = .ok (reply, t')) :
    ∃ m', m.Serves (.file c) reply m' ∧ m'.Backed geo t' := by
  have hm := h.orderly.mounted
  cases c with
  | create path mode => exact h.create hc he
  | «open» path => exact h.open hc he
  | truncate path size => exact h.truncate hfs hl hc he
  | release fd path =>
    rcases hmir.descriptor hs hfs fd with hfd | ⟨file, -, hfd, -⟩
    · simp only [Call.serveStateless, hfd] at he
      cases he
      exact ⟨m, .notOpen rfl (h.files ▸ hfd), h⟩
    · simp only [Call.serveStateless, hfd] at he
      cases he
      exact ⟨_, .closed (h.files ▸ hfd), h.kept, congrArg (Heap.free · fd) h.files, h.dirs⟩
  | fgetattr fd path =>
    rcases hmir.descriptor hs hfs fd with hfd | ⟨file, -, hfd, hf⟩
    · rw [Call.serveStateless, Stateless.serveOn_closed hfd] at he
      cases he
      exact ⟨m, .notOpen rfl (h.files ▸ hfd), h⟩
    · rw [Call.serveStateless, Stateless.serveOn_eq hfd hf] at he
      cases he
      obtain ⟨hu, hx, -⟩ := (FreshFile.iff hm).mp hf
      have hstat := h.kept.stats hu
      rw [hx] at hstat
      exact ⟨m, .fgotattr (h.files ▸ hfd) hstat, h⟩
  | read fd path size off =>
    rcases hmir.descriptor hs hfs fd with hfd | ⟨file, hheld, hfd, hf⟩
    · rw [Call.serveStateless, Stateless.serveOn_closed hfd] at he
      cases he
      exact ⟨m, .notOpen rfl (h.files ▸ hfd), h⟩
    · rw [Call.serveStateless, Stateless.serveOn_eq hfd hf] at he
      obtain ⟨bs, hbs, hfile⟩ := h.kept.describes.fileOk hm hf
      have hin := hc file hheld
      rw [hfile.length_eq] at hin
      rw [hfile.read_range hm h.orderly.wellformed hin] at he
      cases he
      exact ⟨m, .delivered (h.files ▸ hfd) hbs, h⟩
  | write fd path buf off =>
    rcases hmir.descriptor hs hfs fd with hfd | ⟨file, hheld, hfd, hf⟩
    · rw [Call.serveStateless, Stateless.serveOn_closed hfd] at he
      cases he
      exact ⟨m, .notOpen rfl (h.files ▸ hfd), h⟩
    · rw [Call.serveStateless, Stateless.serveOn_eq hfd hf] at he
      obtain ⟨⟨ret, file', fs'⟩, hcall, hpure⟩ := map_eq_ok.mp he
      cases hpure
      have hrange : off + buf.length ≤ directBlksNum * t.fs.sb.blockSize.toNat := by
        rw [hfs]
        exact hl
      have hop : SequentialStep t.fs (.write file buf off) ret fs' :=
        ⟨⟨⟨hf, hrange⟩, hc file hheld⟩, map_eq_ok.mpr ⟨_, hcall, rfl⟩⟩
      obtain ⟨store, hstep, hk⟩ := h.kept.step hop
      exact ⟨_, .wrote (h.files ▸ hfd) hstep, hk, h.files, h.dirs⟩

end Requests

section Sessions

variable {geo : Geometry} {fs₀ : Filesystem} {s s' : Mountpoint} {m : Server} {r : Request}
  {reply : Reply}

/-- The server and the mounted process, by way of the one that keeps no inodes. -/
def Server.StandsFor (geo : Geometry) (s : Mountpoint) (m : Server) : Prop :=
  ∃ t, Shadows geo s t ∧ m.Backed geo t

theorem Server.StandsFor.step (h : Server.StandsFor geo s m) (hstep : ServedStep s r reply s') :
    ∃ m', m.Serves r reply m' ∧ Server.StandsFor geo s' m' := by
  obtain ⟨t, hshadow, hb⟩ := h
  obtain ⟨⟨hsteady, hexp⟩, hserve⟩ := hstep
  obtain ⟨t', ht, hshadow'⟩ : ∃ t', t.serve r = .ok (reply, t') ∧ Shadows geo s' t' := by
    have hboth := hshadow.serve hsteady
    rw [hserve] at hboth
    generalize t.serve r = y at hboth
    cases hboth with
    | @ok _ q hans =>
      obtain ⟨reply', t'⟩ := q
      obtain ⟨rfl, hshadow'⟩ := hans
      exact ⟨t', rfl, hshadow'⟩
  have hserves : ∃ m', m.Serves r reply m' ∧ m'.Backed geo t' := by
    cases r with
    | path r =>
      have hexp : r.Expected s.files.proc.fs := hexp
      rw [← hshadow.fs] at hexp
      exact hb.servePath hexp ht
    | file c =>
      obtain ⟨hl, hdown⟩ := hsteady
      have hexp : c.Expected s.files.proc.fs s.files.held := hexp
      rw [← hshadow.fs] at hexp
      exact hb.serveCall (hshadow.session.sound hdown) hshadow.fs (hshadow.mirrors hdown) hl hexp ht
  obtain ⟨m', hm, hb'⟩ := hserves
  exact ⟨m', hm, t', hshadow', hb'⟩

/-- A session is one of the server, with the same replies. In the end the device delivers what the
maps say, and until a file is truncated the same files are open. -/
theorem session_refines (hmount : freshMount geo = .ok fs₀) {l : List (Request × Reply)}
    (hrun : Traces ServedStep (.start fs₀) l s) :
    ∃ m, Traces Server.Serves Server.empty l m ∧ m.store.Delivers s.fs ∧
      (s.files.proc.reopen = false →
        ∀ fd, m.files.get fd = (s.files.held fd).map fun file => file.idx) := by
  have hstart : Server.StandsFor geo (.start fs₀) Server.empty :=
    ⟨.start fs₀, ⟨inSession hmount .refl, rfl, rfl, fun _ => ⟨rfl, fun fd => rfl⟩⟩,
      (freshMount_blank hmount).kept, rfl, apart_empty, rfl, fun _ => .none⟩
  obtain ⟨m, htrace, t, hshadow, hb⟩ := hrun.simulated (R := Server.StandsFor geo)
    (fun _ _ _ _ _ h hs => h.step hs) hstart
  have hdel := hb.kept.describes.delivers hb.orderly
  rw [hshadow.fs] at hdel
  refine ⟨m, htrace, hdel, fun hdown fd => ?_⟩
  rw [hb.files]
  exact (hshadow.mirrors hdown).files fd

/-- The file `/d/f`, inode 4, gets three bytes, is moved to `/g` while it is open, and is read and
closed. Then the root is listed. -/
def movedWhileOpen : List Request :=
  [.path (.mkdir [47, 100] 0o755), .file (.create [47, 100, 47, 102] 0o100644),
    .file (.write 0 [47, 100, 47, 102] [1, 2, 3] 0),
    .path (.rename [47, 100, 47, 102] [47, 103]), .path (.getattr [47, 100, 47, 102]),
    .file (.read 0 [47, 103] 3 0), .file (.release 0 [47, 103]), .path (.opendir [47]),
    .path (.readdir 0 [47] 0), .path (.readdir 0 [47] 0), .path (.releasedir 0 [47])]

/-- The replies to them. -/
def movedWhileOpenReplies : List Reply :=
  [.code 0, .code 0, .code 3, .code 0, .code (-2), .data 3 [1, 2, 3], .code 0, .code 0,
    .listing [[46], [46, 46], [100], [103]], .listing [], .code (-1)]

theorem session_refines_movedWhileOpen : ∃ fs₀ l s m, freshMount smallDisk = .ok fs₀ ∧
    Traces ServedStep (.start fs₀) l s ∧ l.map Prod.fst = movedWhileOpen ∧
    l.map Prod.snd = movedWhileOpenReplies ∧
    Traces Server.Serves Server.empty l m ∧ m.store.names [[103]] = some 4 ∧
    m.store.data 4 ≠ none ∧ m.files.get 0 = none := by
  have hrun : Yields (freshMount smallDisk) fun fs₀ =>
      ((runTraced Mountpoint.serve (fun s r => r.Steady s ∧ r.Expected s) [] (.start fs₀)
        movedWhileOpen).any fun r => decide (r.1.map Prod.fst = movedWhileOpen ∧
          r.1.map Prod.snd = movedWhileOpenReplies ∧
          ThroughDirs r.2.fs (strtokSlash [47, 103]) ∧
          fsPathIndex r.2.fs [47, 103] = .ok (some 4) ∧
          (Finds (fsFindInode r.2.fs 4) fun x => sIsreg x.mode) ∧
          r.2.files.proc.reopen = false ∧ r.2.files.held 0 = none)) = true := by
    decide +kernel
  obtain ⟨fs₀, hmount, hrun⟩ := hrun
  obtain ⟨⟨l, s⟩, hr, hp⟩ := (Option.any_eq_true _ _).mp hrun
  obtain ⟨hin, hout, ht, hi, hreg, hdown, hclosed⟩ := of_decide_eq_true hp
  have htrace := traces_of_runTraced .nil hr
  obtain ⟨m, hm, hdel, hopen⟩ := session_refines hmount htrace
  refine ⟨fs₀, l, s, m, hmount, htrace, hin, hout, hm,
    Except.ok.inj ((hdel.paths _ (by decide) ht).symm.trans hi), (hdel.files 4).mpr hreg, ?_⟩
  rw [hopen hdown 0, hclosed]
  rfl

end Sessions

end ChisaiFs
