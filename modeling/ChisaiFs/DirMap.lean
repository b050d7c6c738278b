import ChisaiFs.Entries

/-! A directory block is a finite map from names to inode indexes with room for 15 names. The
map of a run is what was inserted and not removed since. -/

namespace ChisaiFs
open Outcome SwapRemoval

abbrev NameMap := Finmap fun _ : CString => ChisaiSize

/-- What `dir_file_inode_idx` says of a map: 0 where there is no name. -/
def NameMap.index (m : NameMap) (s : CString) : ChisaiSize := (m.lookup s).getD 0

/-- Insertions of absent names of at most 27 bytes and removals of any names, from an empty
directory on, with the map that they describe. -/
inductive DirRun : Dir → NameMap → Prop
  | init : DirRun dirInit ∅
  | insert {dir dir' : Dir} {m : NameMap} {c : CString} {i : ChisaiSize} {done : Bool}
      (hrun : DirRun dir m) (hc : 0 ∉ c) (hlen : c.length ≤ 27) (habs : c ∉ m)
      (he : dirInsert dir c i = .ok (done, dir')) :
      DirRun dir' (if done then m.insert c i else m)
  | remove {dir dir' : Dir} {m : NameMap} {c : CString} {i : ChisaiSize}
      (hrun : DirRun dir m) (hc : 0 ∉ c) (he : dirRemove dir c = .ok (i, dir')) :
      DirRun dir' (m.erase c)

/-- The entries in use are those of the map, one for each name. -/
structure Dir.Holds (dir : Dir) (m : NameMap) : Prop where
  ended : dir.Ended
  nodup : dir.entries.NodupKeys
  lookup : ∀ s, m.lookup s = dir.entries.dlookup s

section Holds

variable {dir dir' : Dir} {m : NameMap} {c s : CString} {i : ChisaiSize}

theorem dirInit_holds : dirInit.Holds ∅ where
  ended := ⟨Nat.zero_le _, fun _ hnode => nomatch hnode⟩
  nodup := List.nodupKeys_nil
  lookup _ := rfl

theorem Dir.Holds.mem_iff (h : dir.Holds m) : c ∈ m ↔ c ∈ dir.entries.keys := by
  rw [← Finmap.lookup_isSome, h.lookup, List.dlookup_isSome]

theorem Dir.Holds.card (h : dir.Holds m) : m.keys.card = dir.size.toNat := by
  have hm : m = (⟨dir.entries, h.nodup⟩ : AList fun _ : CString => ChisaiSize).toFinmap := by
    apply Finmap.ext_lookup
    intro s
    rw [h.lookup, Finmap.lookup_toFinmap]
    rfl
  rw [← Dir.entries_length h.ended.size, hm]
  simp [Finmap.keys, List.keys]

theorem Dir.Holds.nodup_texts (h : dir.Holds m) : (dir.nodes.map DirNode.text).Nodup := by
  have htexts : dir.nodes.map DirNode.text = dir.entries.keys := by
    simp [Dir.entries, List.keys, DirNode.entry, Function.comp_def]
  rw [htexts]
  exact h.nodup

theorem Dir.Holds.fileInodeIdx (h : dir.Holds m) (hs : 0 ∉ s) :
    dirFileInodeIdx dir s = .ok (m.index s) := by
  rw [dirFileInodeIdx_spec h.ended hs, NameMap.index, h.lookup]

theorem Dir.Holds.insert_full (h : dir.Holds m) (hfull : m.keys.card = chisaiFilePerDir) :
    dirInsert dir c i = .ok (false, dir) := by
  rw [h.card] at hfull
  exact dif_neg (by omega)

theorem Dir.Ended.with {node : DirNode} (h : dir.Ended) (hl : dir.size.toNat < chisaiFilePerDir)
    (hnode : node.Terminated) : (dir.with node hl).Ended := by
  refine ⟨?_, fun node' hnode' => ?_⟩
  · rw [size_with_toNat hl]
    exact hl
  · rw [Dir.nodes_with, List.mem_append, List.mem_singleton] at hnode'
    rcases hnode' with hnode' | rfl
    · exact h.node node' hnode'
    · exact hnode

theorem Dir.Holds.insert (h : dir.Holds m) (hroom : m.keys.card < chisaiFilePerDir) (hc : 0 ∉ c)
    (hlen : c.length ≤ 27) (habs : c ∉ m) :
    ∃ dir', dirInsert dir c i = .ok (true, dir') ∧ dir'.Holds (m.insert c i) := by
  rw [h.card] at hroom
  rw [h.mem_iff] at habs
  obtain ⟨node, hins, hterm, rfl, rfl⟩ := dirInsert_of_room (i := i) hc (Nat.lt_succ_of_le hlen) hroom
  refine ⟨_, hins, h.ended.with hroom hterm, ?_, fun s => ?_⟩
  · rw [Dir.entries_with]
    exact nodupKeys_concat h.nodup habs
  · have hlook := @dlookup_concat _ _ dir.entries node.text s node.idx _ habs
    rw [Dir.entries_with, DirNode.entry, hlook]
    split_ifs with hs
    · rw [hs, Finmap.lookup_insert]
    · rw [Finmap.lookup_insert_of_ne _ hs, h.lookup]

theorem Dir.Holds.remove (h : dir.Holds m) (hc : 0 ∉ c) :
    ∃ dir', dirRemove dir c = .ok (m.index c, dir') ∧ dir'.Holds (m.erase c) := by
  rcases dirFind_spec h.ended hc with ⟨hf, hkeys⟩ | ⟨j, l₁, l₂, hf, hsplit, hj, hkeys⟩
  · have habs : m.lookup c = none := by rw [h.lookup, List.dlookup_eq_none.mpr hkeys]
    refine ⟨dir, ?_, h.ended, h.nodup, fun s => ?_⟩
    · rw [dirRemove_none hf, NameMap.index, habs]
      rfl
    · by_cases hs : s = c
      · rw [hs, Finmap.lookup_erase, ← h.lookup, habs]
      · rw [Finmap.lookup_erase_ne hs, h.lookup]
  · obtain ⟨hl, hrem⟩ := dirRemove_found h.ended.size hf
    obtain ⟨hnodes, hentries⟩ := Dir.entries_without h.ended.size hl hsplit hj
    have hnodup := h.nodup
    rw [hsplit] at hnodup
    refine ⟨_, ?_, ⟨hl.le, fun node hnode => h.ended.node node (hnodes node hnode)⟩, ?_,
      fun s => ?_⟩
    · rw [hrem, NameMap.index, h.lookup, hsplit, dlookup_split hkeys]
      rfl
    · rw [hentries]
      exact nodupKeys_removed hnodup
    · rw [hentries, dlookup_removed hnodup]
      split_ifs with hs
      · rw [hs, Finmap.lookup_erase]
      · rw [Finmap.lookup_erase_ne hs, h.lookup, hsplit]

theorem Dir.Holds.card_le (h : dir.Holds m) : m.keys.card ≤ chisaiFilePerDir := by
  rw [h.card]
  exact h.ended.size

theorem Dir.Holds.insert_total (h : dir.Holds m) (hc : 0 ∉ c) (hlen : c.length ≤ 27) :
    ∃ r, dirInsert dir c i = .ok r := by
  rcases h.card_le.eq_or_lt with hfull | hroom
  · exact ⟨_, h.insert_full hfull⟩
  · rw [h.card] at hroom
    obtain ⟨node, hins, -⟩ := dirInsert_of_room (i := i) hc (Nat.lt_succ_of_le hlen) hroom
    exact ⟨_, hins⟩

theorem Dir.Holds.insert_refused (h : dir.Holds m) :
    dirInsert dir c i = .ok (false, dir') ↔ m.keys.card = chisaiFilePerDir ∧ dir' = dir := by
  constructor
  · intro he
    rcases h.card_le.eq_or_lt with hfull | hroom
    · rw [h.insert_full hfull] at he
      cases he
      exact ⟨hfull, rfl⟩
    · rw [h.card] at hroom
      unfold dirInsert at he
      rw [dif_pos hroom] at he
      obtain ⟨node, -, he⟩ := bind_eq_ok.mp he
      cases he
  · rintro ⟨hfull, rfl⟩
    exact h.insert_full hfull

end Holds

section Runs

variable {dir : Dir} {m : NameMap}

theorem DirRun.holds (h : DirRun dir m) : dir.Holds m := by
  induction h with
  | init => exact dirInit_holds
  | @insert dir dir' m c i done _ hc hlen habs he ih =>
    rcases ih.card_le.eq_or_lt with hfull | hroom
    · rw [ih.insert_full hfull] at he
      cases he
      exact ih
    · obtain ⟨dir₁, hins, hholds⟩ := ih.insert (i := i) hroom hc hlen habs
      rw [hins] at he
      cases he
      exact hholds
  | remove _ hc he ih =>
    obtain ⟨dir₁, hrem, hholds⟩ := ih.remove hc
    rw [hrem] at he
    cases he
    exact hholds

/-- A directory that was only inserted into and removed from is the finite map of what was
inserted and not removed since. -/
theorem dir_is_finite_map (h : DirRun dir m) :
    dir.size.toNat ≤ 15 ∧ dir.size.toNat = m.keys.card ∧ (dir.nodes.map DirNode.text).Nodup ∧
    (∀ s, 0 ∉ s → dirFileInodeIdx dir s = .ok (m.index s)) ∧
    (∀ c i, 0 ∉ c → c.length ≤ 27 → ∃ r, dirInsert dir c i = .ok r) ∧
    (∀ c i dir', dirInsert dir c i = .ok (false, dir') ↔ m.keys.card = 15 ∧ dir' = dir) ∧
    ∀ c, 0 ∉ c → ∃ i dir', dirRemove dir c = .ok (i, dir') ∧ dirFileInodeIdx dir c = .ok i ∧
      ∀ s, 0 ∉ s → s ≠ c → dirFileInodeIdx dir' s = dirFileInodeIdx dir s := by
  have hh := h.holds
  refine ⟨hh.ended.size, hh.card.symm, hh.nodup_texts, fun s hs => hh.fileInodeIdx hs,
    fun c i hc hlen => hh.insert_total hc hlen, fun c i dir' => hh.insert_refused,
    fun c hc => ?_⟩
  obtain ⟨dir', hrem, hh'⟩ := hh.remove hc
  refine ⟨_, dir', hrem, hh.fileInodeIdx hc, fun s hs hne => ?_⟩
  rw [hh'.fileInodeIdx hs, hh.fileInodeIdx hs, NameMap.index, Finmap.lookup_erase_ne hne]
  rfl

/-- `a` and `ab` inserted, `a` removed. -/
theorem dir_is_finite_map_shared : ∃ dir m, DirRun dir m ∧
    dirFileInodeIdx dir [97] = .ok 0 ∧ dirFileInodeIdx dir [97, 98] = .ok 4 := by
  have hcalls : Yields (dirInsert dirInit [97] 3) fun r₁ => r₁.1 = true ∧
      Yields (dirInsert r₁.2 [97, 98] 4) fun r₂ => r₂.1 = true ∧
        Yields (dirRemove r₂.2 [97]) fun r₃ => r₃.1 = 3 := by
    decide +kernel
  obtain ⟨⟨_, dir₁⟩, h₁, rfl, ⟨_, dir₂⟩, h₂, rfl, ⟨i, dir⟩, h₃, -⟩ := hcalls
  have hrun := DirRun.insert .init (by decide) (by decide) Finmap.notMem_empty h₁
  have hrun := DirRun.insert hrun (by decide) (by decide) (by simp [Finmap.notMem_empty]) h₂
  have hrun := DirRun.remove hrun (by decide) h₃
  obtain ⟨-, -, -, hindex, -⟩ := dir_is_finite_map hrun
  refine ⟨dir, _, hrun, (hindex [97] (by decide)).trans ?_, (hindex [97, 98] (by decide)).trans ?_⟩
  · rw [NameMap.index, Finmap.lookup_erase]
    rfl
  · rw [NameMap.index, Finmap.lookup_erase_ne (by decide)]
    simp

end Runs

end ChisaiFs
