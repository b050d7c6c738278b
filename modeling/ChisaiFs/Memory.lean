import ChisaiFs.Streams

/-! The memory of the mounted process. Every open file and every open directory has one object, and
the only objects that are never freed are those of creations that failed. -/

namespace ChisaiFs
open Heaps Outcome Simulation

def FailedCreate : Request → Reply → Prop
  | .file (.create _ _), .code ret => ret ≠ 0
  | _, _ => False

instance FailedCreate.decidable : (r : Request) → (reply : Reply) → Decidable (FailedCreate r reply)
  | .file (.create _ _), .code ret => inferInstanceAs (Decidable (ret ≠ 0))
  | .path _, _ => isFalse id
  | .file (.create _ _), .attr _ | .file (.create _ _), .data _ _ | .file (.create _ _), .names _ =>
    isFalse id
  | .file (.open _), _ | .file (.truncate _ _), _ | .file (.release _ _), _
  | .file (.fgetattr _ _), _ | .file (.read _ _ _ _), _ | .file (.write _ _ _ _), _ => isFalse id

def failedCreates (l : List (Request × Reply)) : ℕ := l.countP fun e => FailedCreate e.1 e.2

/-- Besides the objects of the open files there are `n` at most, and until a file is truncated
there are `n`. -/
structure OpenFiles.Accounts (s : OpenFiles) (n : ℕ) : Prop where
  le : s.proc.objects.inUse ≤ s.files.inUse + n
  eq : s.proc.reopen = false → s.proc.objects.inUse = s.files.inUse + n

section Requests

variable {s t : OpenFiles} {d d' : OpenDirs} {fs fs' : Filesystem} {m n fd : ℕ} {path : CString}
  {reply : Reply} {r : ChisaiError} {c : Call}

theorem ChisaiError.code_neg (h : r ≠ .ok) : r.code < 0 := by
  cases r with
  | ok => exact absurd rfl h
  | _ => decide

theorem OpenFiles.Accounts.balanced (h : s.Accounts n)
    (hflag : t.proc.reopen = false → s.proc.reopen = false)
    (hsame : t.proc.objects.inUse + s.files.inUse + n =
      s.proc.objects.inUse + t.files.inUse + m) : t.Accounts m := by
  refine ⟨?_, fun hdown => ?_⟩
  · have hle := h.le
    omega
  · have heq := h.eq (hflag hdown)
    omega

theorem OpenFiles.serveOn_accounts {α : Type} (answer : α → Reply) {failed : ChisaiError → α}
    {work : Filesystem → FileInfo → Exec (α × FileInfo × Filesystem)} (h : s.Accounts n)
    (he : s.serveOn fd answer (fun p fh => onHandle p path fh failed work) = .ok (reply, t)) :
    t.Accounts n := by
  unfold OpenFiles.serveOn at he
  split at he
  · cases he
    exact h
  · next fi hfd =>
    obtain ⟨⟨a, fh, p⟩, hcall, he⟩ := bind_eq_ok.mp he
    cases he
    have hfiles := Heap.inUse_store (x := { fi with fh := fh }) hfd
    rcases onHandle_cases hcall with ⟨hdown, file, info, fs, hget, -, rfl⟩ |
      ⟨hup, e, -, -, -, hup', hcount⟩
    · have hobjects := Heap.inUse_store (x := info) hget
      refine h.balanced (fun _ => hdown) ?_
      dsimp only
      rw [hfiles, hobjects]
    · refine ⟨?_, fun hdown => ?_⟩
      · have hle := h.le
        dsimp only
        rw [hfiles]
        omega
      · dsimp only at hdown
        rw [hup'] at hdown
        cases hdown

theorem Call.create_accounts {mode : UInt32} (h : s.Accounts n)
    (he : (Call.create path mode).serve s = .ok (reply, t)) :
    t.Accounts (n + if FailedCreate (.file (.create path mode)) reply then 1 else 0) := by
  obtain ⟨⟨r, fh, p⟩, hcall, hpair⟩ := map_eq_ok.mp he
  obtain ⟨⟨r, info, fs⟩, -, hpure⟩ := bind_eq_ok.mp hcall
  cases hpure
  cases hpair
  dsimp only [OpenFiles.opened]
  by_cases hr : r = .ok
  · obtain rfl := hr
    have hno : ¬ FailedCreate (.file (.create path mode)) (.code ChisaiError.ok.code) :=
      fun hfailed => hfailed rfl
    rw [if_neg hno, if_pos rfl]
    refine h.balanced id ?_
    dsimp only
    rw [Heap.inUse_alloc, Heap.inUse_alloc]
    omega
  · have hfailed : FailedCreate (.file (.create path mode)) (.code r.code) :=
      (ChisaiError.code_neg hr).ne
    rw [if_pos hfailed, if_neg hr]
    refine h.balanced id ?_
    dsimp only
    rw [Heap.inUse_alloc]
    omega

theorem Call.serve_accounts (h : s.Accounts n) (hc : ∀ path mode, c ≠ .create path mode)
    (he : c.serve s = .ok (reply, t)) : t.Accounts n := by
  cases c with
  | create path mode => exact absurd rfl (hc path mode)
  | «open» path =>
    obtain ⟨⟨r, fh, p⟩, hcall, hpair⟩ := map_eq_ok.mp he
    cases hpair
    have hcount := chisaiFuseOpen_inUse hcall
    obtain ⟨-, hflag, -⟩ := chisaiFuseOpen_eq_ok hcall
    by_cases hr : r = .ok
    · rw [if_pos hr] at hcount
      simp only [OpenFiles.opened, if_pos hr]
      refine h.balanced hflag.symm.trans ?_
      dsimp only
      rw [Heap.inUse_alloc]
      omega
    · rw [if_neg hr] at hcount
      simp only [OpenFiles.opened, if_neg hr]
      refine h.balanced hflag.symm.trans ?_
      dsimp only
      omega
  | truncate path size =>
    obtain ⟨⟨r, p⟩, hcall, hpair⟩ := map_eq_ok.mp he
    cases hpair
    obtain ⟨found, -, hpure⟩ := bind_eq_ok.mp hcall
    cases found with
    | error e =>
      cases hpure
      exact h
    | ok file =>
      obtain ⟨⟨r, file', fs⟩, -, hpure⟩ := bind_eq_ok.mp hpure
      cases hpure
      refine ⟨h.le, fun hdown => h.eq ?_⟩
      exact (Bool.or_eq_false_iff.mp hdown).1
  | release fd path =>
    dsimp only [Call.serve] at he
    split at he
    · cases he
      exact h
    · next fi hfd =>
      obtain ⟨⟨r, p⟩, hcall, hpair⟩ := map_eq_ok.mp he
      obtain ⟨p, hfree, hpure⟩ := bind_eq_ok.mp hcall
      obtain ⟨⟨file, hget⟩, rfl⟩ := Process.free_eq_ok hfree
      cases hpure
      cases hpair
      have hfiles := Heap.inUse_free hfd
      have hobjects := Heap.inUse_free hget
      refine h.balanced id ?_
      dsimp only
      omega
  | fgetattr fd path => exact OpenFiles.serveOn_accounts .ofStat h he
  | read fd path size off =>
    exact OpenFiles.serveOn_accounts (fun r : ℤ × List UInt8 => .data r.1 r.2) h he
  | write fd path buf off => exact OpenFiles.serveOn_accounts .code h he

end Requests

section Sessions

variable {fs : Filesystem} {s t u : Mountpoint} {n : ℕ} {r : Request} {reply : Reply} {c : Call}

def Replied (s : Mountpoint) (r : Request) (reply : Reply) (t : Mountpoint) : Prop :=
  s.serve r = .ok (reply, t)

structure Accounts (s : Mountpoint) (n : ℕ) : Prop where
  files : s.files.Accounts n
  dirs : s.dirs.streams.inUse = s.dirs.dirs.inUse

theorem Accounts.serve (h : Accounts s n) (he : s.serve r = .ok (reply, t)) :
    Accounts t (n + if FailedCreate r reply then 1 else 0) := by
  cases r with
  | path r =>
    obtain ⟨⟨reply, fs', d'⟩, hcall, hpair⟩ := map_eq_ok.mp he
    cases hpair
    exact ⟨⟨h.files.le, h.files.eq⟩, (PathRequest.serve_did hcall).inUse h.dirs⟩
  | file c =>
    obtain ⟨⟨reply, files⟩, hcall, hpair⟩ := map_eq_ok.mp he
    cases hpair
    refine ⟨?_, h.dirs⟩
    cases c with
    | create path mode => exact Call.create_accounts h.files hcall
    | «open» | truncate | release | fgetattr | read | write =>
      exact Call.serve_accounts h.files (fun _ _ => Call.noConfusion) hcall

/-- In every session there are as many objects of streams as open directories, and, besides the
objects of open files, one for each creation that was refused: until a file is truncated exactly,
afterwards at most. -/
theorem memory_accounted {l : List (Request × Reply)}
    (hrun : Traces Replied (.start fs) l s) :
    s.dirs.streams.inUse = s.dirs.dirs.inUse ∧
      s.files.proc.objects.inUse ≤ s.files.files.inUse + failedCreates l ∧
      (s.files.proc.reopen = false →
        s.files.proc.objects.inUse = s.files.files.inUse + failedCreates l) := by
  have hinv : Accounts s (failedCreates l) := by
    induction hrun with
    | nil => exact ⟨⟨le_refl 0, fun _ => rfl⟩, rfl⟩
    | snoc r reply _ he ih =>
      have hnext := ih.serve he
      unfold failedCreates at hnext ⊢
      rw [List.countP_append, List.countP_singleton]
      simpa using hnext
  exact ⟨hinv.dirs, hinv.files.le, hinv.files.eq⟩

/-- The second creation of `/f` is refused. -/
def createdTwice : List Request :=
  [.file (.create [47, 102] 0o100644), .file (.create [47, 102] 0o100644)]

theorem memory_accounted_createdTwice :
    ∃ fs l s, freshMount smallDisk = .ok fs ∧ Traces Replied (.start fs) l s ∧
      failedCreates l = 1 ∧ s.files.files.inUse = 1 ∧ s.files.proc.objects.inUse = 2 := by
  have hrun : Yields (freshMount smallDisk) fun fs =>
      ((runTraced Mountpoint.serve (fun _ _ => True) [] (.start fs) createdTwice).any fun r =>
        decide (failedCreates r.1 = 1 ∧ r.2.files.files.inUse = 1 ∧
          r.2.files.proc.reopen = false)) = true := by
    decide +kernel
  obtain ⟨fs, hmount, hrun⟩ := hrun
  obtain ⟨⟨l, s⟩, hr, hp⟩ := (Option.any_eq_true _ _).mp hrun
  obtain ⟨hfailed, hopen, hdown⟩ := of_decide_eq_true hp
  obtain ⟨_, htrace, rfl⟩ := (traces_of_runTraced .nil hr).simulated (R := Eq)
    (fun _ _ _ _ u hr hs => ⟨u, hr ▸ hs.2, rfl⟩) rfl
  have hcount := (memory_accounted htrace).2.2 hdown
  rw [hfailed, hopen] at hcount
  exact ⟨fs, l, s, hmount, htrace, hfailed, hopen, hcount⟩

end Sessions

end ChisaiFs
