import ChisaiFs.Passes

/-! What a write does whatever the operating system makes of the accesses that leave the device: it
counts what it stores, and its first pass ends it only when the lookup finds no entry and there is
no room. -/

namespace ChisaiFs
open Cells Words Outcome Recorded

/-- Nothing but device bytes and the data bitmaps has changed. -/
structure Intact (geo : Geometry) (fs fs' : Filesystem) : Prop where
  mounted : Mounted geo fs'
  inode : fs'.blkGrps.inode = fs.blkGrps.inode

section Intact

variable {geo : Geometry} {fs fs' fs'' : Filesystem} {k : ChisaiSize} {d : Device}

theorem Intact.refl (h : Mounted geo fs) : Intact geo fs fs := ⟨h, rfl⟩

theorem Intact.trans (h : Intact geo fs fs') (h' : Intact geo fs' fs'') : Intact geo fs fs'' :=
  ⟨h'.mounted, h'.inode.trans h.inode⟩

theorem Intact.alloc (h : Mounted geo fs) (he : fsDataAlloc fs = .ok (k, fs')) :
    Intact geo fs fs' := by
  have hm := (fsDataAlloc_spec h he).1
  obtain ⟨ms, -, rfl⟩ := fsDataAlloc_eq_ok h he
  exact ⟨hm, rfl⟩

theorem Intact.store (h : Mounted geo fs) (hd : d.size = fs.d.size) :
    Intact geo fs { fs with d := d } :=
  ⟨h.withDevice d hd, rfl⟩

end Intact

namespace Traced

variable {e : Stray} {geo : Geometry} {fs fs' : Filesystem} {x y : Inode} {k : ChisaiSize}
  {d d' : Device} {bs buf : List UInt8} {s t : WriteState} {ret : ChisaiError}
  {off offset i n fuel : ℕ} {ns : Bool}

theorem deviceDataSave_size (he : (deviceDataSave e off d offset bs).result = .ok d') :
    d'.size = d.size := by
  unfold deviceDataSave at he
  split_ifs at he
  · cases he
    rfl
  · rw [result_bind] at he
    obtain ⟨bytes, -, he⟩ := bind_eq_ok.mp he
    cases he
    rfl

theorem fsClearBlk_size (he : (fsClearBlk e fs off k i n d).result = .ok d') :
    d'.size = d.size := by
  induction n generalizing i d with
  | zero =>
    cases he
    rfl
  | succ n ih =>
    rw [fsClearBlk, fsDataToOffset, record_bind] at he
    change (deviceDataSave e off d _ _ >>= fun d => fsClearBlk e fs off k (i + 1) n d).result =
      .ok d' at he
    rw [result_bind] at he
    obtain ⟨d₁, hd, he⟩ := bind_eq_ok.mp he
    exact (ih he).trans (deviceDataSave_size hd)

/-- An allocation reports a full device exactly when there is no room. -/
theorem fsAllocBlk_intact (h : Mounted geo fs)
    (he : (fsAllocBlk e fs x off).result = .ok (ret, k, y, fs')) :
    Intact geo fs fs' ∧ (ret = .enomem ↔ fs.room = 0) := by
  unfold fsAllocBlk at he
  dsimp only at he
  rw [result_bind, result_quiet] at he
  have hroom := fsDataAlloc_room h
  obtain ⟨⟨j, fs₁⟩, halloc, he⟩ := bind_eq_ok.mp he
  have h₁ := Intact.alloc h halloc
  have hfull : j = 0 ↔ fs.room = 0 := by
    rw [halloc] at hroom
    cases hroom with
    | block _ _ hr _ _ hroom => exact iff_of_false hr.1 (by omega)
    | full hroom => exact iff_of_true rfl hroom
  have hne : ∀ {r : ChisaiError}, j ≠ 0 → r ≠ .enomem → (r = .enomem ↔ fs.room = 0) :=
    fun hj hr => iff_of_false hr (mt hfull.mpr hj)
  dsimp only at he
  split_ifs at he with h0 hdirect hlim hi
  · cases he
    exact ⟨h₁, iff_of_true rfl (hfull.mp h0)⟩
  · cases he
    exact ⟨h₁, hne h0 (by decide)⟩
  · simp only [result_bind, result_quiet, fsDataToOffset, result_record, result_pure, ok_bind,
      pure_bind] at he
    obtain ⟨d₂, hclear, he⟩ := bind_eq_ok.mp he
    obtain ⟨⟨m, fs₃⟩, halloc₂, he⟩ := bind_eq_ok.mp he
    obtain ⟨d₄, hsave, he⟩ := bind_eq_ok.mp he
    cases he
    have h₂ := h₁.trans (.store h₁.mounted (fsClearBlk_size hclear))
    have h₃ := h₂.trans (.alloc h₂.mounted halloc₂)
    exact ⟨h₃.trans (.store h₃.mounted (deviceDataSave_size hsave)), hne h0 (by decide)⟩
  · simp only [result_bind, fsDataToOffset, result_record, result_pure, ok_bind, pure_bind] at he
    obtain ⟨d₄, hsave, he⟩ := bind_eq_ok.mp he
    cases he
    exact ⟨h₁.trans (.store h₁.mounted (deviceDataSave_size hsave)), hne h0 (by decide)⟩
  · cases he
    exact ⟨h₁, hne h0 (by decide)⟩

theorem store_intact {inode : Inode} (hs : Mounted geo s.fs) (h : Mounted geo fs)
    (he : (store e buf s fs inode k).result = .ok (t, ns)) :
    Intact geo fs t.fs ∧ ns = false ∧ t.total = s.total + (s.piece geo buf).length := by
  unfold store at he
  dsimp only at he
  rw [hs.offInblk_eq, hs.blockSize, fsDataToOffset, record_bind] at he
  change (deviceDataSave e s.off fs.d _ _ >>= _).result = .ok (t, ns) at he
  rw [result_bind] at he
  obtain ⟨d₁, hd, he⟩ := bind_eq_ok.mp he
  cases he
  refine ⟨.store h (deviceDataSave_size hd), rfl, ?_⟩
  rw [WriteState.piece_length, Nat.min_comm]

theorem fsFindBlk_codes {blkIdx : Option ChisaiSize} {r : ChisaiError × Option ChisaiSize}
    (he : (fsFindBlk e fs x off blkIdx).result = .ok r) : r.1 ≠ .enomem := by
  unfold fsFindBlk at he
  dsimp only at he
  have hcode : ∀ k : ChisaiSize, (if k = 0 then ChisaiError.enoent else .ok) ≠ .enomem := by
    intro k
    split_ifs <;> intro hc <;> cases hc
  split_ifs at he
  · cases he
    intro hc
    cases hc
  · cases he
    intro hc
    cases hc
  · simp only [result_bind, fsDataToOffset, result_record, ok_bind] at he
    obtain ⟨buf, -, he⟩ := bind_eq_ok.mp he
    cases he
    exact hcode _
  · cases he
    intro hc
    cases hc

/-- A pass ends the write exactly when its lookup finds no entry and there is no room. -/
theorem fsWriteChunk_intact (h : Mounted geo s.fs)
    (he : (fsWriteChunk e buf s).result = .ok (t, ns)) :
    Intact geo s.fs t.fs ∧
      (ns = true ↔ Yields (fsFindBlk e s.fs s.inode s.off s.blkIdx).result
        (fun r => r.1 = .enoent) ∧ s.fs.room = 0) ∧
      t.total = if ns then s.total else s.total + (s.piece geo buf).length := by
  unfold fsWriteChunk at he
  dsimp only at he
  rw [result_bind] at he
  obtain ⟨⟨ret, found⟩, hfind, he⟩ := bind_eq_ok.mp he
  have hcodes := fsFindBlk_codes hfind
  dsimp only at he hcodes
  by_cases hent : ret = .enoent
  · have hyields : Yields (fsFindBlk e s.fs s.inode s.off s.blkIdx).result
        fun r => r.1 = .enoent := ⟨_, hfind, hent⟩
    rw [if_pos hent, result_bind] at he
    obtain ⟨⟨ret', k, inode, fs⟩, halloc, he⟩ := bind_eq_ok.mp he
    obtain ⟨hintact, hfull⟩ := fsAllocBlk_intact h halloc
    simp only [rec_pure_bind] at he
    by_cases hret : ret' = .enomem
    · rw [if_pos hret] at he
      cases he
      exact ⟨hintact, iff_of_true rfl ⟨hyields, hfull.mp hret⟩, rfl⟩
    · rw [if_neg hret] at he
      obtain ⟨hstored, rfl, htotal⟩ := @store_intact e geo fs k buf s t _ inode h hintact.mounted he
      exact ⟨hintact.trans hstored, iff_of_false (by decide) fun hc => hret (hfull.mpr hc.2), htotal⟩
  · rw [if_neg hent] at he
    simp only [rec_pure_bind, if_neg hcodes] at he
    cases found with
    | none => cases he
    | some k =>
      obtain ⟨hstored, rfl, htotal⟩ := @store_intact e geo s.fs k buf s t _ s.inode h h he
      refine ⟨hstored, iff_of_false (by decide) ?_, htotal⟩
      rintro ⟨⟨r, hr, hr'⟩, -⟩
      rw [hfind] at hr
      cases hr
      exact hent hr'

/-- A write that returns has counted what it stored. -/
theorem fsWriteLoop_intact (h : Mounted geo s.fs) (hle : s.total ≤ buf.length)
    (he : (fsWriteLoop e buf fuel s).result = .ok (t, ns)) :
    Intact geo s.fs t.fs ∧ s.total ≤ t.total ∧ t.total ≤ buf.length ∧
      (ns = false → t.total = buf.length) := by
  induction fuel generalizing s with
  | zero =>
    unfold fsWriteLoop at he
    split_ifs at he with hlt
    · cases he
    · cases he
      exact ⟨.refl h, le_refl _, hle, fun _ => by omega⟩
  | succ fuel ih =>
    unfold fsWriteLoop at he
    split_ifs at he with hlt
    · rw [result_bind] at he
      obtain ⟨⟨u, full⟩, hchunk, he⟩ := bind_eq_ok.mp he
      obtain ⟨hintact, -, htotal⟩ := fsWriteChunk_intact h hchunk
      cases full with
      | true =>
        cases he
        exact ⟨hintact, htotal.ge, htotal.trans_le hle, fun hc => by cases hc⟩
      | false =>
        have hpiece := s.piece_length geo buf
        rw [if_neg Bool.false_ne_true] at htotal
        obtain ⟨hrest, hge, hle', hend⟩ := ih hintact.mounted (by omega) he
        exact ⟨hintact.trans hrest, by omega, hle', hend⟩
    · cases he
      exact ⟨.refl h, le_refl _, hle, fun _ => by omega⟩

/-- A write stores nothing exactly if it has nothing to store, or finds no entry and no room. -/
theorem fsWriteLoop_nothing (h : Mounted geo s.fs) (hlt : s.total < buf.length)
    (he : (fsWriteLoop e buf (fuel + 1) s).result = .ok (t, ns)) :
    t.total = s.total ↔ Yields (fsFindBlk e s.fs s.inode s.off s.blkIdx).result
        (fun r => r.1 = .enoent) ∧ s.fs.room = 0 := by
  rw [fsWriteLoop, if_pos hlt, result_bind] at he
  obtain ⟨⟨u, full⟩, hchunk, he⟩ := bind_eq_ok.mp he
  obtain ⟨hintact, hiff, htotal⟩ := fsWriteChunk_intact h hchunk
  rw [← hiff]
  cases full with
  | true =>
    cases he
    exact iff_of_true htotal rfl
  | false =>
    have hpos := s.piece_pos geo hlt
    have hpiece := s.piece_length geo buf
    rw [if_neg Bool.false_ne_true] at htotal
    have hge := (fsWriteLoop_intact hintact.mounted (by omega) he).2.1
    exact iff_of_false (by omega) (by decide)

theorem fsWriteFile_eq_ok {file file' : FileInfo} {r : ℤ}
    (he : (fsWriteFile e fs file buf off).result = .ok (r, file', fs')) :
    ∃ s ns, (fsWriteLoop e buf buf.length ⟨fs, file.inode, none, 0, off⟩).result = .ok (s, ns) ∧
      r = toInt s.total ∧
      file' = ⟨inodeSetSize s.inode (writtenSize file.inode off s.total), file.idx⟩ ∧
      fsSaveInode s.fs file'.inode file.idx = .ok fs' := by
  unfold fsWriteFile at he
  dsimp only at he
  rw [result_bind] at he
  obtain ⟨⟨s, ns⟩, hloop, he⟩ := bind_eq_ok.mp he
  have hend : (fsSaveInode s.fs (inodeSetSize s.inode (writtenSize file.inode off s.total))
      file.idx >>= fun fs => pure (toInt s.total,
        (⟨inodeSetSize s.inode (writtenSize file.inode off s.total), file.idx⟩ : FileInfo), fs)) =
      .ok (r, file', fs') := by
    cases ns with
    | true => simpa [writtenSize] using he
    | false =>
      rw [if_pos Bool.false_ne_true, result_bind] at he
      obtain ⟨_, -, he⟩ := bind_eq_ok.mp he
      simpa [writtenSize] using he
  obtain ⟨fs₁, hsave, hresult⟩ := bind_eq_ok.mp hend
  rw [pure_eq_ok, Prod.mk.injEq, Prod.mk.injEq] at hresult
  obtain ⟨rfl, rfl, rfl⟩ := hresult
  exact ⟨s, ns, hloop, rfl, rfl, hsave⟩

/-- A loop that returns lets the write return. -/
theorem fsWriteFile_of_loop {file : FileInfo} (h : Mounted geo fs) (hr : geo.InRange file.idx)
    (hloop : (fsWriteLoop e buf buf.length ⟨fs, file.inode, none, 0, off⟩).result = .ok (s, ns)) :
    ∃ file' fs', (fsWriteFile e fs file buf off).result = .ok (toInt s.total, file', fs') := by
  obtain ⟨hintact, -, -, hfull⟩ := @fsWriteLoop_intact e geo _ _ _ _ _ h (Nat.zero_le _) hloop
  obtain ⟨fs', hsave⟩ := fsSaveInode_ok hintact.mounted (inodeSetSize s.inode
    (writtenSize file.inode off s.total)) hr
  refine ⟨⟨inodeSetSize s.inode (writtenSize file.inode off s.total), file.idx⟩, fs', ?_⟩
  unfold writtenSize at hsave ⊢
  unfold fsWriteFile
  simp only [result_bind, hloop, ok_bind, decide_eq_true_eq]
  cases ns with
  | true =>
    simp only [not_true_eq_false, if_false, result_bind, result_quiet, hsave, ok_bind]
    rfl
  | false =>
    have htotal := hfull rfl
    rw [htotal] at hsave
    simp only [htotal, assertThat, if_true, Bool.false_eq_true, not_false_eq_true, result_bind,
      result_quiet, ok_bind, hsave]
    rfl

end Traced

end ChisaiFs
