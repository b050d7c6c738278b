import ChisaiFs.Effects
import ChisaiFs.Resolution
import ChisaiFs.Library.Lockstep

/-! Two states of the file system that differ in bytes of data blocks only. What an operation
loads is the same in both, and what it stores makes the two agree on more bytes. -/

namespace ChisaiFs
open Cells Outcome Lockstep

/-- Two states that agree in memory, on the inode slots and on the given bytes of data blocks,
each named by its block and its place there. -/
structure Twins (geo : Geometry) (same : Set (ChisaiSize × ℕ)) (fs fs' : Filesystem) : Prop where
  mounted : Mounted geo fs
  rest : fs' = { fs with d := fs'.d }
  size : fs'.d.size = fs.d.size
  inode : (volume geo fs').inode = (volume geo fs).inode
  block : ∀ c ∈ same, (volume geo fs').block c.1 c.2 = (volume geo fs).block c.1 c.2

def blockRange (k : ChisaiSize) (off n : ℕ) : Set (ChisaiSize × ℕ) :=
  {c | c.1 = k ∧ off ≤ c.2 ∧ c.2 < off + n}

def Volume.dirBytes (v : Volume) : Set (ChisaiSize × ℕ) :=
  {c | ∃ i, v.IsDir i ∧ (v.inode i).blk 0 ≠ 0 ∧ c ∈ blockRange ((v.inode i).blk 0) 0 dirCodec.width}

section Primitives

variable {geo : Geometry} {same : Set (ChisaiSize × ℕ)} {fs fs' : Filesystem} {k : ChisaiSize}
  {off : ℕ} {bs : List UInt8}

theorem Twins.mono (h : Twins geo same fs fs') {same' : Set (ChisaiSize × ℕ)} (hsub : same' ⊆ same) :
    Twins geo same' fs fs' :=
  ⟨h.mounted, h.rest, h.size, h.inode, fun c hc => h.block c (hsub hc)⟩

theorem Twins.mounted' (h : Twins geo same fs fs') : Mounted geo fs' := by
  rw [h.rest]
  exact h.mounted.withDevice _ h.size

theorem Twins.blkGrps (h : Twins geo same fs fs') : fs'.blkGrps = fs.blkGrps := by
  rw [h.rest]

theorem Twins.dataUsed (h : Twins geo same fs fs') :
    (volume geo fs').dataUsed = (volume geo fs).dataUsed := by
  rw [h.rest]
  rfl

theorem Twins.ofDevice (h : Twins geo same fs fs') {s s' : Filesystem} (hs : Mounted geo s)
    (hrest : s' = { s with d := s'.d }) (hd : s.d = fs.d) (hd' : s'.d = fs'.d) :
    Twins geo same s s' := by
  have hblock := h.block
  have hinode := h.inode
  refine ⟨hs, hrest, by rw [hd, hd', h.size], ?_, fun c hc => ?_⟩
  · simp only [volume, hd, hd']
    exact hinode
  · simp only [volume, hd, hd']
    exact hblock c hc

theorem Twins.deviceDataLoad_eq (h : Twins geo same fs fs') {n : ℕ} (hfit : off + n ≤ geo.blkSize)
    (hsame : blockRange k off n ⊆ same) :
    deviceDataLoad fs'.d (off + fsDataToOffset fs' k) n =
      deviceDataLoad fs.d (off + fsDataToOffset fs k) n := by
  have hslice : slice ((volume geo fs').block k) off n = slice ((volume geo fs).block k) off n := by
    refine slice_congr fun j hj => h.block (k, off + j) (hsame ⟨rfl, ?_, ?_⟩)
    · exact Nat.le_add_right off j
    · exact Nat.add_lt_add_left hj off
  unfold deviceDataLoad
  rw [fsDataToOffset_eq h.mounted, fsDataToOffset_eq h.mounted', h.size, Nat.add_comm off,
    slice_volume_block k hfit, slice_volume_block k hfit, hslice]

theorem Twins.fsFindInode_eq (h : Twins geo same fs fs') (i : ChisaiSize) :
    fsFindInode fs' i = fsFindInode fs i := by
  have hload : inodeLoad fs'.d (fsInodeToOffset fs' i) = inodeLoad fs.d (fsInodeToOffset fs i) := by
    have hdec : inodeCodec.dec (slice fs'.d.bytes (geo.slotOff (i - 1).toNat) inodeCodec.width) =
        inodeCodec.dec (slice fs.d.bytes (geo.slotOff (i - 1).toNat) inodeCodec.width) :=
      congrFun h.inode i
    unfold inodeLoad deviceDataLoad
    rw [fsInodeToOffset_eq h.mounted, fsInodeToOffset_eq h.mounted', h.size]
    split_ifs
    · exact congrArg Except.ok hdec
    · rfl
  unfold fsFindInode
  rw [h.blkGrps, hload]

theorem Twins.fsFindDir_eq (h : Twins geo same fs fs')
    (hsame : k ≠ 0 → blockRange k 0 dirCodec.width ⊆ same) : fsFindDir fs' k = fsFindDir fs k := by
  unfold fsFindDir
  rw [h.blkGrps]
  by_cases hk : k = 0
  · subst hk
    rfl
  · have hfit : 0 + dirCodec.width ≤ geo.blkSize := by
      rw [Nat.zero_add]
      exact dir_fits geo
    have hload := h.deviceDataLoad_eq hfit (hsame hk)
    rw [Nat.zero_add, Nat.zero_add] at hload
    unfold dirLoad
    rw [hload]

/-- Results with the same value, in states that agree on the given bytes. -/
def Answered (geo : Geometry) (same : Set (ChisaiSize × ℕ)) {α : Type} (r r' : α × Filesystem) :
    Prop :=
  r'.1 = r.1 ∧ Twins geo same r.2 r'.2

theorem fsDataAlloc_withDevice (fs : Filesystem) (d : Device) : fsDataAlloc { fs with d := d } =
    (fun r => (r.1, { r.2 with d := d })) <$> fsDataAlloc fs := by
  unfold fsDataAlloc
  cases blkgrpsDataAlloc fs.blkGrps with
  | error e => rfl
  | ok r =>
    simp only [ok_bind]
    split_ifs <;> rfl

theorem fsInodeAlloc_withDevice (fs : Filesystem) (d : Device) : fsInodeAlloc { fs with d := d } =
    (fun r => (r.1, { r.2 with d := d })) <$> fsInodeAlloc fs := by
  unfold fsInodeAlloc
  cases blkgrpsInodeAlloc fs.blkGrps with
  | error e => rfl
  | ok r =>
    simp only [ok_bind]
    split_ifs <;> rfl

theorem Twins.alloc (h : Twins geo same fs fs') {op : Filesystem → Exec (ChisaiSize × Filesystem)}
    (hop : ∀ d, op { fs with d := d } = (fun r => (r.1, { r.2 with d := d })) <$> op fs)
    (hm : ∀ r, op fs = .ok r → Mounted geo r.2 ∧ r.2.d = fs.d) :
    Alike (Answered geo same) (op fs) (op fs') := by
  have hother := hop fs'.d
  rw [← h.rest] at hother
  rw [hother]
  cases hr : op fs with
  | error e => exact .error e
  | ok r =>
    obtain ⟨hmount, hd⟩ := hm r hr
    exact .ok ⟨rfl, h.ofDevice hmount rfl hd rfl⟩

theorem Twins.fsDataAlloc (h : Twins geo same fs fs') :
    Alike (Answered geo same) (fsDataAlloc fs) (fsDataAlloc fs') :=
  h.alloc (fsDataAlloc_withDevice fs) fun _ hr =>
    have hs := fsDataAlloc_spec h.mounted hr
    ⟨hs.1, hs.2.1⟩

theorem Twins.fsInodeAlloc (h : Twins geo same fs fs') :
    Alike (Answered geo same) (fsInodeAlloc fs) (fsInodeAlloc fs') :=
  h.alloc (fsInodeAlloc_withDevice fs) fun _ hr =>
    have hs := fsInodeAlloc_spec h.mounted hr
    ⟨hs.1, hs.2.1⟩

theorem deviceDataSave_alike {d d' : Device} {a : ℕ} (hsize : d'.size = d.size) :
    Alike (fun t t' => t = { d with bytes := overwrite d.bytes a bs } ∧
      t' = { d' with bytes := overwrite d'.bytes a bs }) (deviceDataSave d a bs)
      (deviceDataSave d' a bs) := by
  unfold deviceDataSave
  rw [hsize]
  split_ifs
  · exact .ok ⟨rfl, rfl⟩
  · exact .error _

theorem writeBlock_same {v v' : Volume} {c : ChisaiSize × ℕ}
    (h : v'.block c.1 c.2 = v.block c.1 c.2 ∨ c ∈ blockRange k off bs.length) :
    (v'.writeBlock k off bs).block c.1 c.2 = (v.writeBlock k off bs).block c.1 c.2 := by
  by_cases hk : c.1 = k
  · rw [hk, Volume.writeBlock_block_same, Volume.writeBlock_block_same]
    by_cases hin : off ≤ c.2 ∧ c.2 < off + bs.length
    · obtain ⟨j, hj⟩ := Nat.exists_eq_add_of_le hin.1
      have hlt : j < bs.length := by omega
      rw [hj, overwrite_inside _ _ _ _ hlt, overwrite_inside _ _ _ _ hlt]
    · have hold := h.resolve_right fun hc => hin hc.2
      rw [hk] at hold
      rw [overwrite_outside _ (by omega), overwrite_outside _ (by omega), hold]
  · rw [Volume.writeBlock_block_of_ne _ _ hk, Volume.writeBlock_block_of_ne _ _ hk]
    exact h.resolve_right fun hc => hk hc.1

theorem Twins.store (h : Twins geo same fs fs') (hfit : off + bs.length ≤ geo.blkSize) :
    Alike (fun d d' => Twins geo (same ∪ blockRange k off bs.length) { fs with d := d }
        { fs' with d := d' }) (deviceDataSave fs.d (off + fsDataToOffset fs k) bs)
      (deviceDataSave fs'.d (off + fsDataToOffset fs' k) bs) := by
  rw [fsDataToOffset_eq h.mounted, fsDataToOffset_eq h.mounted', ← fsDataToOffset_eq h.mounted]
  refine (deviceDataSave_alike h.size).mono fun d d' hd hd' _ => ?_
  obtain ⟨hm, hv⟩ := deviceDataSave_block h.mounted hfit hd
  rw [fsDataToOffset_eq h.mounted, ← fsDataToOffset_eq h.mounted'] at hd'
  obtain ⟨-, hv'⟩ := deviceDataSave_block h.mounted' hfit hd'
  obtain ⟨-, rfl⟩ := deviceDataSave_eq_ok.mp hd
  obtain ⟨-, rfl⟩ := deviceDataSave_eq_ok.mp hd'
  refine ⟨hm, ?_, h.size, ?_, fun c hc => ?_⟩
  · have hrest := h.rest
    rw [hrest]
  · rw [hv, hv', Volume.writeBlock_inode, Volume.writeBlock_inode, h.inode]
  · rw [hv, hv']
    exact writeBlock_same (hc.imp_left (h.block c))

theorem Twins.fsSaveDir (h : Twins geo same fs fs') (dir : Dir) (k : ChisaiSize) :
    Alike (Twins geo (same ∪ blockRange k 0 dirCodec.width)) (fsSaveDir fs dir k)
      (fsSaveDir fs' dir k) := by
  have hlen := dirCodec.length_enc dir
  have hfit : 0 + (dirCodec.enc dir).length ≤ geo.blkSize := by
    rw [hlen, Nat.zero_add]
    exact dir_fits geo
  have hstore := h.store (k := k) hfit
  rw [Nat.zero_add, Nat.zero_add, hlen] at hstore
  unfold ChisaiFs.fsSaveDir dirSave
  exact hstore.bind fun d d' _ _ hd => .ok hd

theorem Twins.fsSaveInode (h : Twins geo same fs fs') (x : Inode) (i : ChisaiSize) :
    Alike (Twins geo same) (fsSaveInode fs x i) (fsSaveInode fs' x i) := by
  have hsave : Alike (fun _ _ => True) (ChisaiFs.fsSaveInode fs x i)
      (ChisaiFs.fsSaveInode fs' x i) := by
    unfold ChisaiFs.fsSaveInode inodeSave
    rw [fsInodeToOffset_eq h.mounted, fsInodeToOffset_eq h.mounted']
    exact (deviceDataSave_alike h.size).bind fun _ _ _ _ _ => .ok trivial
  refine hsave.mono fun s s' hs hs' _ => ?_
  obtain ⟨hm, -, -, hv⟩ := fsSaveInode_spec h.mounted hs
  obtain ⟨-, -, -, hv'⟩ := fsSaveInode_spec h.mounted' hs'
  obtain ⟨d, hd, hs⟩ := bind_eq_ok.mp hs
  obtain ⟨d', hd', hs'⟩ := bind_eq_ok.mp hs'
  cases hs
  cases hs'
  obtain ⟨-, rfl⟩ := deviceDataSave_eq_ok.mp hd
  obtain ⟨-, rfl⟩ := deviceDataSave_eq_ok.mp hd'
  refine ⟨hm, ?_, h.size, ?_, fun c hc => ?_⟩
  · have hrest := h.rest
    rw [hrest]
  · rw [hv, hv']
    unfold Volume.setInode
    rw [h.inode]
  · rw [hv, hv', Volume.setInode_block, Volume.setInode_block, h.block c hc]

end Primitives

/-- What the components lead to is a directory, if they lead to anything. -/
def OnlyDir (fs : Filesystem) (path : List CString) : Prop :=
  ∀ r, fsLookup fs path = .ok (some r) → sIsdir r.2.mode

/-- Names are looked up in directories only, on the way along the components. -/
def PassesDirs (fs : Filesystem) (path : List CString) : Prop :=
  ∀ pre ∈ path.inits, pre ≠ path → OnlyDir fs pre

/-- The components of the parent path, and the name that is looked up there. -/
def lookedUp (path : CString) : List CString :=
  match strrchrSlash path with
  | some (parentPath, filePath) => strtokSlash parentPath ++ [filePath]
  | none => []

instance (fs : Filesystem) (path : List CString) : Decidable (OnlyDir fs path) :=
  match h : fsLookup fs path with
  | .ok (some r) =>
    decidable_of_iff (sIsdir r.2.mode)
      ⟨fun hd q hq => by rw [h] at hq; cases hq; exact hd, fun hd => hd r h⟩
  | .ok none => isTrue fun r hr => by rw [h] at hr; cases hr
  | .error _ => isTrue fun r hr => by rw [h] at hr; cases hr

instance (fs : Filesystem) (path : List CString) : Decidable (PassesDirs fs path) :=
  inferInstanceAs (Decidable (∀ _ ∈ _, _))

section Paths

variable {geo : Geometry} {same : Set (ChisaiSize × ℕ)} {fs fs' : Filesystem} {i : ChisaiSize}
  {x : Inode} {path : CString} {tokens : List CString}

theorem Twins.fsFindDir_of_isDir (h : Twins geo same fs fs')
    (hdirs : (volume geo fs).dirBytes ⊆ same) (hi : (volume geo fs).IsDir i) :
    fsFindDir fs' ((volume geo fs).inode i).directBlks[0] =
      fsFindDir fs ((volume geo fs).inode i).directBlks[0] :=
  h.fsFindDir_eq fun hk _ hc => hdirs ⟨i, hi, hk, hc⟩

theorem Twins.fsWalk_eq (h : Twins geo same fs fs') (hdirs : (volume geo fs).dirBytes ⊆ same)
    (hi : i ∈ (volume geo fs).inodeUsed ∧ x = (volume geo fs).inode i)
    (hp : ∀ pre c, pre ++ [c] <+: tokens →
      ∀ r, fsWalk fs pre i x = .ok (some r) → sIsdir r.2.mode) :
    fsWalk fs' tokens i x = fsWalk fs tokens i x := by
  induction tokens generalizing i x with
  | nil => rfl
  | cons token rest ih =>
    have hdir : sIsdir x.mode := hp [] token ⟨rest, rfl⟩ (i, x) rfl
    obtain ⟨hu, rfl⟩ := hi
    have hfind := h.fsFindDir_of_isDir hdirs ⟨hu, hdir⟩
    unfold fsWalk
    rw [hfind]
    cases hd : fsFindDir fs ((volume geo fs).inode i).directBlks[0] with
    | error e => rw [error_bind, error_bind]
    | ok found =>
      cases found with
      | none => rw [ok_bind, ok_bind]
      | some dir =>
        simp only [ok_bind]
        cases hj : dirFileInodeIdx dir token with
        | error e => rw [error_bind, error_bind]
        | ok j =>
          by_cases h0 : j = 0
          · simp only [ok_bind, h0, ↓reduceIte]
          · simp only [ok_bind, h0, ↓reduceIte, h.fsFindInode_eq]
            cases hx : fsFindInode fs j with
            | error e => rw [error_bind, error_bind]
            | ok found =>
              cases found with
              | none => rw [ok_bind, ok_bind]
              | some y =>
                obtain ⟨hy, rfl⟩ := (fsFindInode_iff h.mounted).mp hx
                refine ih ⟨hy, rfl⟩ fun pre c hpre r hr => ?_
                refine hp (token :: pre) c ?_ r ?_
                · exact List.cons_prefix_cons.mpr ⟨rfl, hpre⟩
                · unfold fsWalk
                  rw [hd]
                  simp only [ok_bind, hj, h0, ↓reduceIte, hx, hr]

theorem Twins.fsLookup_eq (h : Twins geo same fs fs') (hdirs : (volume geo fs).dirBytes ⊆ same)
    (hp : PassesDirs fs tokens) : fsLookup fs' tokens = fsLookup fs tokens := by
  unfold fsLookup
  rw [h.fsFindInode_eq]
  cases hroot : fsFindInode fs rootInode with
  | error e => rw [error_bind, error_bind]
  | ok found =>
    cases found with
    | none => rw [ok_bind, ok_bind]
    | some x =>
      obtain ⟨hx, rfl⟩ := (fsFindInode_iff h.mounted).mp hroot
      refine h.fsWalk_eq hdirs ⟨hx, rfl⟩ fun pre c hpre r hr => ?_
      obtain ⟨hsub, hne⟩ := prefix_of_concat hpre
      refine hp pre ((List.mem_inits _ _).mpr hsub) hne r ?_
      unfold fsLookup
      rw [hroot, ok_bind]
      exact hr

theorem Twins.fsPathToParent_eq (h : Twins geo same fs fs')
    (hdirs : (volume geo fs).dirBytes ⊆ same) (hp : PassesDirs fs (lookedUp path)) :
    fsPathToParent fs' path = fsPathToParent fs path := by
  cases hs : strrchrSlash path with
  | none =>
    unfold fsPathToParent
    rw [hs]
  | some split =>
    obtain ⟨q, c⟩ := split
    unfold lookedUp at hp
    rw [hs] at hp
    have hpre : ∀ pre, pre <+: strtokSlash q → OnlyDir fs pre := by
      intro pre hpre
      refine hp pre ((List.mem_inits _ _).mpr (hpre.trans (List.prefix_append _ _))) ?_
      rintro rfl
      have hlen := hpre.length_le
      rw [List.length_append, List.length_singleton] at hlen
      omega
    have hlook : fsLookup fs' (strtokSlash q) = fsLookup fs (strtokSlash q) :=
      h.fsLookup_eq hdirs fun pre hmem _ => hpre pre ((List.mem_inits _ _).mp hmem)
    have hget : fsGetDirOf fs' q = fsGetDirOf fs q := by
      unfold fsGetDirOf
      rw [fsPathToInode_eq, fsPathToInode_eq, hlook]
      cases hr : fsLookup fs (strtokSlash q) with
      | error e => rfl
      | ok found =>
        cases found with
        | none => rfl
        | some r =>
          obtain ⟨p, x⟩ := r
          have hd := hpre _ (List.prefix_refl _) (p, x) hr
          obtain ⟨hu, rfl⟩ := fsPathToInode_eq_some h.mounted ((fsPathToInode_eq q).trans hr)
          simp only [ok_bind]
          rw [h.fsFindDir_of_isDir hdirs ⟨hu, hd⟩]
    rw [fsPathToParent_of_split hs, fsPathToParent_of_split hs, hget]

end Paths

section Names

variable {geo : Geometry} {same : Set (ChisaiSize × ℕ)} {fs fs' : Filesystem} {path : CString}
  {mode : UInt32} {v w : Volume} {i : ChisaiSize} {x : Inode}

theorem Volume.dirBytes_setInode (hw : w.inode = (v.setInode i x).inode)
    (hu : ∀ j ≠ i, j ∈ w.inodeUsed → j ∈ v.inodeUsed) :
    w.dirBytes ⊆ v.dirBytes ∪
      {c | sIsdir x.mode ∧ x.blk 0 ≠ 0 ∧ c ∈ blockRange (x.blk 0) 0 dirCodec.width} := by
  rintro c ⟨j, ⟨hj, hd⟩, h0, hc⟩
  rw [hw] at hd h0 hc
  by_cases hij : j = i
  · subst hij
    rw [Volume.setInode_inode_same] at hd h0 hc
    exact Or.inr ⟨hd, h0, hc⟩
  · rw [Volume.setInode_inode_of_ne x hij] at hd h0 hc
    exact Or.inl ⟨j, ⟨hu j hij hj, hd⟩, h0, hc⟩

theorem Volume.dirBytes_congr (hi : w.inode = v.inode) (hu : w.inodeUsed = v.inodeUsed) :
    w.dirBytes = v.dirBytes := by
  unfold dirBytes IsDir
  rw [hi, hu]

theorem fsDataAlloc_dirBytes (h : Mounted geo fs) {k : ChisaiSize}
    (he : fsDataAlloc fs = .ok (k, fs')) : (volume geo fs').dirBytes = (volume geo fs).dirBytes := by
  rcases (fsDataAlloc_spec h he).2.2 with ⟨-, hv⟩ | ⟨-, -, hv⟩
  · rw [hv]
  · rw [hv]
    exact Volume.dirBytes_congr rfl rfl

/-- The two states also agree on the directories that there are now. -/
def AnsweredDirs (geo : Geometry) (same : Set (ChisaiSize × ℕ)) {α : Type}
    (r r' : α × Filesystem) : Prop :=
  Answered geo (same ∪ (volume geo r.2).dirBytes) r r'

theorem Twins.fsMkdir (h : Twins geo same fs fs') (hdirs : (volume geo fs).dirBytes ⊆ same)
    (hp : PassesDirs fs (lookedUp path)) :
    Alike (AnsweredDirs geo same) (fsMkdir fs path mode) (fsMkdir fs' path mode) := by
  unfold ChisaiFs.fsMkdir
  rw [h.fsPathToParent_eq hdirs hp]
  refine Alike.bind (R := Eq) (.of_eq rfl fun _ _ => rfl) ?_
  rintro found _ - - rfl
  cases found with
  | error e => exact .ok ⟨rfl, h.mono (Set.union_subset le_rfl hdirs)⟩
  | ok parent =>
    refine Alike.bind (R := Eq) (.of_eq rfl fun _ _ => rfl) ?_
    rintro idx _ - - rfl
    split_ifs with hidx
    · exact .ok ⟨rfl, h.mono (Set.union_subset le_rfl hdirs)⟩
    · refine h.fsDataAlloc.bind ?_
      rintro ⟨k, fs₁⟩ ⟨k', fs₁'⟩ hk - ⟨hk', h₁⟩
      obtain rfl : k = k' := hk'.symm
      have hd₁ := fsDataAlloc_dirBytes h.mounted hk
      dsimp only at h₁ ⊢
      split_ifs with hk0
      · refine .ok ⟨rfl, h₁.mono (Set.union_subset le_rfl ?_)⟩
        rwa [hd₁]
      · refine h₁.fsInodeAlloc.bind ?_
        rintro ⟨i, fs₂⟩ ⟨i', fs₂'⟩ hi - ⟨hi', h₂⟩
        obtain rfl : i = i' := hi'.symm
        have hv₂ := (fsInodeAlloc_spec h₁.mounted hi).2.2
        dsimp only at h₂ ⊢
        split_ifs with hi0
        · have hv₂ := (hv₂.resolve_right fun hr => hr.1.1 hi0).2
          refine .ok ⟨rfl, h₂.mono (Set.union_subset le_rfl ?_)⟩
          rwa [hv₂, hd₁]
        · have hv₂ := (hv₂.resolve_left fun hr => hi0 hr.1).2.2
          refine Alike.bind (R := Eq) (.of_eq rfl fun _ _ => rfl) ?_
          rintro ⟨inserted, dir⟩ _ - - rfl
          refine (h₂.fsSaveDir dir _).bind fun fs₃ fs₃' hs₃ _ h₃ => ?_
          rw [← newDirInode]
          refine (h₃.fsSaveInode (newDirInode mode k) i).bind fun fs₄ fs₄' hs₄ _ h₄ => ?_
          refine (h₄.fsSaveDir dirInit k).bind fun fs₅ fs₅' hs₅ _ h₅ => ?_
          have hv₃ := (fsSaveDir_spec h₂.mounted hs₃).2.2.2
          have hv₄ := (fsSaveInode_spec h₃.mounted hs₄).2.2.2
          have hv₅ := (fsSaveDir_spec h₄.mounted hs₅).2.2.2
          refine .ok ⟨rfl, h₅.mono (Set.union_subset (fun c hc => Or.inl (Or.inl hc)) ?_)⟩
          refine (Volume.dirBytes_setInode (v := volume geo fs₁) (i := i)
            (x := newDirInode mode k) ?_ fun j hj hu => ?_).trans
            (Set.union_subset (fun c hc => ?_) fun c hc => ?_)
          · rw [hv₅, hv₄, hv₃, hv₂]
            rfl
          · rw [hv₅, hv₄, hv₃, hv₂] at hu
            exact hu.resolve_left hj
          · rw [hd₁] at hc
            exact Or.inl (Or.inl (hdirs hc))
          · have hblk : (newDirInode mode k).blk 0 = k := by
              rw [newDirInode_blk, if_pos rfl]
            rw [hblk] at hc
            exact Or.inr hc.2.2

theorem Twins.fsCreateFile (h : Twins geo same fs fs') (hdirs : (volume geo fs).dirBytes ⊆ same)
    (hp : PassesDirs fs (lookedUp path)) (file : FileInfo) :
    Alike (fun r r' => AnsweredDirs geo same ((r.1, r.2.1), r.2.2) ((r'.1, r'.2.1), r'.2.2))
      (fsCreateFile fs path mode file) (fsCreateFile fs' path mode file) := by
  unfold ChisaiFs.fsCreateFile
  rw [h.fsPathToParent_eq hdirs hp]
  refine Alike.bind (R := Eq) (.of_eq rfl fun _ _ => rfl) ?_
  rintro found _ - - rfl
  cases found with
  | error e => exact .ok ⟨rfl, h.mono (Set.union_subset le_rfl hdirs)⟩
  | ok parent =>
    refine Alike.bind (R := Eq) (.of_eq rfl fun _ _ => rfl) ?_
    rintro idx _ - - rfl
    split_ifs with hidx
    · exact .ok ⟨rfl, h.mono (Set.union_subset le_rfl hdirs)⟩
    · refine h.fsInodeAlloc.bind ?_
      rintro ⟨i, fs₁⟩ ⟨i', fs₁'⟩ hi - ⟨hi', h₁⟩
      obtain rfl : i = i' := hi'.symm
      have hv₁ := (fsInodeAlloc_spec h.mounted hi).2.2
      dsimp only at h₁ ⊢
      split_ifs with hi0
      · have hv₁ := (hv₁.resolve_right fun hr => hr.1.1 hi0).2
        refine .ok ⟨rfl, h₁.mono (Set.union_subset le_rfl ?_)⟩
        rwa [hv₁]
      · have hv₁ := (hv₁.resolve_left fun hr => hi0 hr.1).2.2
        refine Alike.bind (R := Eq) (.of_eq rfl fun _ _ => rfl) ?_
        rintro ⟨inserted, dir⟩ _ - - rfl
        refine (h₁.fsSaveDir dir _).bind fun fs₂ fs₂' hs₂ _ h₂ => ?_
        refine (h₂.fsSaveInode (inodeSetMode inodeInit mode) i).bind fun fs₃ fs₃' hs₃ _ h₃ => ?_
        have hv₂ := (fsSaveDir_spec h₁.mounted hs₂).2.2.2
        have hv₃ := (fsSaveInode_spec h₂.mounted hs₃).2.2.2
        refine .ok ⟨rfl, h₃.mono (Set.union_subset Set.subset_union_left ?_)⟩
        refine (Volume.dirBytes_setInode (v := volume geo fs) (i := i)
          (x := inodeSetMode inodeInit mode) ?_ fun j hj hu => ?_).trans
          (Set.union_subset (hdirs.trans Set.subset_union_left) ?_)
        · rw [hv₃, hv₂, hv₁]
          rfl
        · rw [hv₃, hv₂, hv₁] at hu
          exact hu.resolve_left hj
        · rintro c ⟨-, h0, -⟩
          exact absurd (inodeInit_blk 0) h0

theorem Twins.fsGetMetadata_eq (h : Twins geo same fs fs') (hdirs : (volume geo fs).dirBytes ⊆ same)
    (hp : PassesDirs fs (strtokSlash path)) : fsGetMetadata fs' path = fsGetMetadata fs path := by
  unfold fsGetMetadata
  rw [fsPathToInode_eq, fsPathToInode_eq, h.fsLookup_eq hdirs hp]

end Names

/-- A range of a file: `len` bytes from `off` on, as the inode maps them. -/
structure Extent where
  inode : Inode
  off : ℕ
  len : ℕ
  deriving DecidableEq

/-- Byte `c.2` of block `c.1` holds a byte of the range. -/
def Extent.Holds (blkSize : ℕ) (e : Extent) (c : ChisaiSize × ℕ) : Prop :=
  ∃ d < e.len, e.inode.blk ((e.off + d) / blkSize) = c.1 ∧ (e.off + d) % blkSize = c.2

instance (blkSize : ℕ) (e : Extent) (c : ChisaiSize × ℕ) : Decidable (e.Holds blkSize c) :=
  inferInstanceAs (Decidable (∃ d, d < e.len ∧ _))

def Extent.bytes (blkSize : ℕ) (e : Extent) : Set (ChisaiSize × ℕ) := {c | e.Holds blkSize c}

section Contents

variable {geo : Geometry} {same : Set (ChisaiSize × ℕ)} {fs fs' : Filesystem} {buf : List UInt8}
  {start n m : ℕ} {x y : Inode} {s s' : WriteState}

theorem Extent.bytes_zero (x : Inode) (start : ℕ) : Extent.bytes geo.blkSize ⟨x, start, 0⟩ = ∅ := by
  ext c
  simp [bytes, Holds]

theorem Extent.bytes_add (hm : m ≤ geo.blkSize - (start + n) % geo.blkSize)
    (hxy : ∀ d < n, y.blk ((start + d) / geo.blkSize) = x.blk ((start + d) / geo.blkSize)) :
    Extent.bytes geo.blkSize ⟨y, start, n + m⟩ ⊆ Extent.bytes geo.blkSize ⟨x, start, n⟩ ∪
      blockRange (y.blk ((start + n) / geo.blkSize)) ((start + n) % geo.blkSize) m := by
  rintro ⟨k, j⟩ ⟨d, hd, hk, hj⟩
  dsimp only at hd hk hj
  by_cases hdn : d < n
  · rw [hxy d hdn] at hk
    exact Or.inl ⟨d, hdn, hk, hj⟩
  · right
    have he : start + d = start + n + (d - n) := by omega
    have hpass := @pass_pos geo (start + n) (d - n) (by omega)
    rw [he, hpass.1] at hk
    rw [he, hpass.2] at hj
    exact ⟨hk.symm, by dsimp only; omega, by dsimp only; omega⟩

/-- Two passes side by side: all that has been stored is where the inode maps it. -/
structure WriteState.Beside (geo : Geometry) (same : Set (ChisaiSize × ℕ)) (start : ℕ)
    (s s' : WriteState) : Prop where
  rest : s' = { s with fs := s'.fs }
  off : s.off = start + s.total
  mapped : ∀ d < s.total, s.inode.blk ((start + d) / geo.blkSize) ≠ 0
  twins : Twins geo (same ∪ Extent.bytes geo.blkSize ⟨s.inode, start, s.total⟩) s.fs s'.fs

theorem WriteState.store_eq {t : Filesystem} {k : ChisaiSize} (h : Mounted geo s.fs)
    (hoff : s.off = start + s.total) : s.store buf t x k =
      deviceDataSave t.d ((start + s.total) % geo.blkSize + fsDataToOffset t k)
          (chunk geo.blkSize buf start s.total) >>= fun d =>
        pure (⟨{ t with d := d }, x, some k, s.total + (chunk geo.blkSize buf start s.total).length,
          s.off + (chunk geo.blkSize buf start s.total).length⟩, false) := by
  unfold WriteState.store
  rw [h.offInblk_eq, h.blockSize, hoff]
  dsimp only
  rw [chunk_eq, chunk_length, Nat.min_comm]

theorem WriteState.Beside.store (h : s.Beside geo same start s') {t t' : Filesystem}
    {k : ChisaiSize} (ht : Twins geo (same ∪ Extent.bytes geo.blkSize ⟨s.inode, start, s.total⟩) t t')
    (hx : ∀ d < s.total, x.blk ((start + d) / geo.blkSize) = s.inode.blk ((start + d) / geo.blkSize))
    (hk : x.blk ((start + s.total) / geo.blkSize) = k) (h0 : k ≠ 0) :
    Alike (fun r r' => r'.2 = r.2 ∧ r.1.Beside geo same start r'.1) (s.store buf t x k)
      (s'.store buf t' x k) := by
  subst hk
  have htotal : s'.total = s.total := by rw [h.rest]
  have hoff : s'.off = s.off := by rw [h.rest]
  have hlen := chunk_length geo buf start s.total
  rw [WriteState.store_eq h.twins.mounted h.off, WriteState.store_eq h.twins.mounted'
    (hoff.trans (htotal ▸ h.off)), htotal, hoff]
  refine (ht.store (chunk_fits geo buf start s.total)).bind fun d d' _ _ hd => ?_
  refine .ok ⟨rfl, rfl, ?_, fun e he => ?_, hd.mono ?_⟩
  · dsimp only
    rw [h.off, Nat.add_assoc]
  · dsimp only at he ⊢
    by_cases hlt : e < s.total
    · rw [hx e hlt]
      exact h.mapped e hlt
    · have heq : start + e = start + s.total + (e - s.total) := by omega
      rw [heq, (@pass_pos geo (start + s.total) (e - s.total) (by omega)).1]
      exact h0
  · have hadd := @Extent.bytes_add geo start s.total _ s.inode x
      (show (chunk geo.blkSize buf start s.total).length ≤ _ by omega) hx
    rintro c (hc | hc)
    · exact Or.inl (Or.inl hc)
    · exact (hadd hc).imp_left Or.inr

theorem WriteState.Beside.chunk (h : s.Beside geo same start s') (hlt : s.total < buf.length)
    (hrange : start + buf.length ≤ directBlksNum * geo.blkSize) :
    Alike (fun r r' => r'.2 = r.2 ∧ r.1.Beside geo same start r'.1) (fsWriteChunk buf s)
      (fsWriteChunk buf s') := by
  have hin : start + s.total < directBlksNum * geo.blkSize := by omega
  have hp : s.off % geo.span = start + s.total := by
    rw [h.off]
    exact direct_mod hin
  have hp' : s'.off % geo.span = start + s.total := by
    rw [h.rest]
    exact hp
  have hinode : s'.inode = s.inode := by rw [h.rest]
  rw [fsWriteChunk_eq h.twins.mounted hp hin, fsWriteChunk_eq h.twins.mounted' hp' hin, hinode]
  split_ifs with h0
  · refine h.twins.fsDataAlloc.bind ?_
    rintro ⟨k, t⟩ ⟨k', t'⟩ hk - ⟨hk', ht⟩
    obtain rfl : k = k' := hk'.symm
    dsimp only at ht ⊢
    split_ifs with hk0
    · refine .ok ⟨rfl, ?_, h.off, h.mapped, ht⟩
      have hrest := h.rest
      rw [hrest]
    · have hn := div_lt_direct hin
      have hold : ∀ d < s.total, (s.inode.setBlk ((start + s.total) / geo.blkSize) k).blk
          ((start + d) / geo.blkSize) = s.inode.blk ((start + d) / geo.blkSize) := by
        intro d hd
        refine Inode.blk_setBlk_of_ne fun he => h.mapped d hd ?_
        rw [he]
        exact h0
      exact h.store ht hold (Inode.blk_setBlk_same hn) hk0
  · exact h.store h.twins (fun _ _ => rfl) rfl h0

theorem WriteState.Beside.loop {fuel : ℕ} (h : s.Beside geo same start s')
    (hrange : start + buf.length ≤ directBlksNum * geo.blkSize) :
    Alike (fun r r' => r'.2 = r.2 ∧ r.1.Beside geo same start r'.1) (fsWriteLoop buf fuel s)
      (fsWriteLoop buf fuel s') := by
  induction fuel generalizing s s' with
  | zero =>
    have htotal : s'.total = s.total := by rw [h.rest]
    unfold fsWriteLoop
    rw [htotal]
    split_ifs
    · exact .error _
    · exact .ok ⟨rfl, h⟩
  | succ fuel ih =>
    have htotal : s'.total = s.total := by rw [h.rest]
    unfold fsWriteLoop
    rw [htotal]
    split_ifs with hlt
    · refine (h.chunk hlt hrange).bind ?_
      rintro ⟨s₁, full⟩ ⟨s₁', full'⟩ - - ⟨hfull, h₁⟩
      obtain rfl : full = full' := hfull.symm
      dsimp only at h₁ ⊢
      split_ifs
      · exact .ok ⟨rfl, h₁⟩
      · exact ih h₁
    · exact .ok ⟨rfl, h⟩

theorem fsWriteFile_eq (fs : Filesystem) (file : FileInfo) (buf : List UInt8) (off : ℕ) :
    fsWriteFile fs file buf off =
      fsWriteLoop buf buf.length ⟨fs, file.inode, none, 0, off⟩ >>= fun r =>
        (if r.2 then pure () else assertThat (r.1.total = buf.length)) >>= fun _ =>
          fsSaveInode r.1.fs (inodeSetSize r.1.inode (writtenSize file.inode off r.1.total))
              file.idx >>= fun fs =>
            pure (toInt r.1.total,
              ⟨inodeSetSize r.1.inode (writtenSize file.inode off r.1.total), file.idx⟩, fs) := by
  unfold fsWriteFile
  refine bind_congr fun r => ?_
  obtain ⟨s, nospace⟩ := r
  cases nospace <;> simp [writtenSize]

theorem toInt_toNat_le (n : ℕ) : (toInt n).toNat ≤ n := by
  unfold toInt
  rw [Int.bmod_eq_emod]
  split_ifs <;> omega

/-- A write makes the two states agree on the bytes that it counts, where the handle that it
returns maps them. -/
theorem Twins.fsWriteFile (h : Twins geo same fs fs') (file : FileInfo)
    (hrange : start + buf.length ≤ directBlksNum * geo.blkSize) :
    Alike (fun r r' => Answered geo (same ∪ Extent.bytes geo.blkSize ⟨r.2.1.inode, start, r.1.toNat⟩)
        ((r.1, r.2.1), r.2.2) ((r'.1, r'.2.1), r'.2.2))
      (fsWriteFile fs file buf start) (fsWriteFile fs' file buf start) := by
  have hstart : WriteState.Beside geo same start ⟨fs, file.inode, none, 0, start⟩
      ⟨fs', file.inode, none, 0, start⟩ := by
    refine ⟨rfl, rfl, fun d hd => absurd hd (Nat.not_lt_zero d), ?_⟩
    dsimp only
    rw [Extent.bytes_zero, Set.union_empty]
    exact h
  rw [fsWriteFile_eq, fsWriteFile_eq]
  refine (hstart.loop hrange).bind fun r r' _ _ hr => ?_
  obtain ⟨hfull, hs⟩ := hr
  have htotal : r'.1.total = r.1.total := by rw [hs.rest]
  have hinode : r'.1.inode = r.1.inode := by rw [hs.rest]
  rw [hfull, htotal, hinode]
  refine Alike.bind (R := Eq) (.of_eq rfl fun _ _ => rfl) fun _ _ _ _ _ => ?_
  have hsave := hs.twins.fsSaveInode
    (inodeSetSize r.1.inode (writtenSize file.inode start r.1.total)) file.idx
  refine hsave.bind fun t t' _ _ ht => .ok ⟨rfl, ht.mono (Set.union_subset_union_right same ?_)⟩
  rintro c ⟨d, hd, hc⟩
  have hle := toInt_toNat_le r.1.total
  dsimp only at hd
  exact ⟨d, show d < r.1.total by omega, hc⟩

theorem Cursor.Step.mode {c c' : Cursor} (h : Cursor.Step geo buf start c c') :
    c'.inode.mode = c.inode.mode := by
  cases h with
  | overwrite hlt hk => rfl
  | extend hlt hn h0 hr hk => exact Inode.setBlk_mode

theorem fsWriteFile_dirBytes {file file' : FileInfo} {ret : ℤ} (h : Mounted geo fs)
    (hrange : start + buf.length ≤ directBlksNum * geo.blkSize) (hmode : ¬ sIsdir file.inode.mode)
    (he : fsWriteFile fs file buf start = .ok (ret, file', fs')) :
    (volume geo fs').dirBytes ⊆ (volume geo fs).dirBytes := by
  obtain ⟨-, c, hsteps, -, -, -, hfile, -⟩ := fsWriteFile_direct h hrange he
  obtain ⟨fs₁, hfills, -, hsave⟩ := fsWriteFile_effect h he
  obtain ⟨hi, hu⟩ := hfills.inodes h
  have hv := (fsSaveInode_spec (hfills.mounted h) hsave).2.2.2
  have hsame : c.inode.mode = file.inode.mode := by
    clear hfile
    induction hsteps with
    | refl => rfl
    | tail _ hs ih => exact hs.mode.trans ih
  refine (Volume.dirBytes_setInode (v := volume geo fs) (i := file.idx) (x := file'.inode) ?_
    fun j _ hj => ?_).trans (Set.union_subset le_rfl ?_)
  · rw [hv]
    unfold Volume.setInode
    rw [hi]
  · rw [hv, Volume.setInode_inodeUsed, hu] at hj
    exact hj
  · rintro d ⟨hd, -⟩
    rw [hfile] at hd
    exact absurd (hsame ▸ hd) hmode

/-- The bytes that a read of the range delivers, up to the first hole, have the property. -/
def Extent.Covered (blkSize : ℕ) (e : Extent) (p : ChisaiSize × ℕ → Prop) : Prop :=
  ∀ d < e.len, (∀ q ≤ d, e.inode.blk ((e.off + q) / blkSize) ≠ 0) →
    p (e.inode.blk ((e.off + d) / blkSize), (e.off + d) % blkSize)

instance (blkSize : ℕ) (e : Extent) (p : ChisaiSize × ℕ → Prop) [DecidablePred p] :
    Decidable (e.Covered blkSize p) :=
  inferInstanceAs (Decidable (∀ d, d < e.len → _))

theorem Twins.fsReadFile_eq (h : Twins geo same fs fs') {file : FileInfo} {size off : ℕ}
    (hrange : off + size ≤ directBlksNum * geo.blkSize)
    (hread : Extent.Covered geo.blkSize ⟨file.inode, off, min size file.inode.size.toUInt64.toNat⟩
      (· ∈ same)) : fsReadFile fs' file size off = fsReadFile fs file size off := by
  have hle := Nat.min_le_left size file.inode.size.toUInt64.toNat
  refine fsReadLoop_congr h.mounted' h.mounted ?_ fun pos hpos hlt hmapped => ?_
  · rw [List.length_nil, Nat.sub_zero]
    exact (Nat.add_le_add_left hle off).trans hrange
  · obtain ⟨d, rfl⟩ := Nat.exists_eq_add_of_le hpos
    rw [List.length_nil, Nat.sub_zero] at hlt
    refine h.block _ (hread d (Nat.lt_of_add_lt_add_left hlt) fun q hq => ?_)
    exact hmapped (off + q) (Nat.le_add_right off q) (Nat.add_le_add_left hq off)

end Contents

end ChisaiFs
