import ChisaiFs.Paths
import ChisaiFs.Library.SwapRemoval

/-! The entries of a directory as a list of names with inode indexes. Names that end inside
their field are compared, stored and found as the texts that they are. -/

namespace ChisaiFs
open Outcome Words SwapRemoval

def DirNode.text (node : DirNode) : CString := node.name.toList.takeWhile (· ≠ 0)

def DirNode.Terminated (node : DirNode) : Prop := 0 ∈ node.name.toList

abbrev Entry := Keyed CString ChisaiSize

def DirNode.entry (node : DirNode) : Entry := ⟨node.text, node.idx⟩

def Dir.nodes (dir : Dir) : List DirNode := dir.node.toList.take dir.size.toNat

def Dir.entries (dir : Dir) : List Entry := dir.nodes.map DirNode.entry

section Texts

variable {node : DirNode} {c s : CString}

theorem strcmpEq_append {l rest : List UInt8} (hl : 0 ∈ l) (hs : 0 ∉ s) :
    strcmpEq (l ++ rest) s = .ok (decide (l.takeWhile (· ≠ 0) = s)) := by
  induction l generalizing s with
  | nil => cases hl
  | cons x l ih =>
    cases s with
    | nil => by_cases hx : x = 0 <;> simp [strcmpEq, hx]
    | cons c s =>
      rw [List.mem_cons, not_or] at hs
      by_cases hxc : x = c
      · subst hxc
        have hx : x ≠ 0 := Ne.symm hs.1
        have hl : 0 ∈ l := (List.mem_cons.mp hl).resolve_left hs.1
        simp [strcmpEq, hx, ih hl hs.2]
      · by_cases hx : x = 0 <;> simp [strcmpEq, hx, hxc, hs.1]

theorem u8_array_enc {n : ℕ} (v : Vector UInt8 n) : (u8.array n).enc v = v.toList := by
  simp [Codec.array, u8]

theorem u8_array_dec {n : ℕ} {l : List UInt8} (h : n ≤ l.length) :
    ((u8.array n).dec l).toList = l.take n := by
  refine List.ext_getElem (by simpa using h) fun i hi _ => ?_
  have hi : i < l.length := by
    simp at hi
    omega
  simp [Codec.array, u8, List.take_one, List.head?_drop, hi]

theorem dirNodeCodec_enc (node : DirNode) :
    dirNodeCodec.enc node = node.name.toList ++ u32.enc node.idx := by
  simp [dirNodeCodec, Codec.via, Codec.pair, u8_array_enc]

theorem DirNode.strcmpEq_enc (h : node.Terminated) (hs : 0 ∉ s) :
    strcmpEq (dirNodeCodec.enc node) s = .ok (decide (node.text = s)) := by
  rw [dirNodeCodec_enc]
  exact strcmpEq_append h hs

theorem DirNode.text_length (h : node.Terminated) : node.text.length < chisaiFileLen := by
  have hlen : node.name.toList.length = chisaiFileLen := by simp
  have hlt : (node.name.toList.takeWhile (· ≠ 0)).length < node.name.toList.length := by
    refine lt_of_le_of_ne (List.takeWhile_prefix _).length_le fun he => ?_
    have hall := List.takeWhile_eq_self_iff.mp ((List.takeWhile_prefix _).eq_of_length he)
    simpa using hall 0 h
  rw [hlen] at hlt
  exact hlt

theorem strcpyName_ok (hc : 0 ∉ c) (hlen : c.length < chisaiFileLen) :
    ∃ node', strcpyName node c = .ok node' ∧ node'.Terminated ∧ node'.text = c := by
  have hw := dirNodeCodec.length_enc node
  rw [dirNodeCodec_width] at hw
  change c.length < 28 at hlen
  have hfit : c.length + 1 ≤ dirNodeCodec.width := by
    rw [dirNodeCodec_width]
    omega
  refine ⟨_, if_pos hfit, ?_⟩
  generalize hrest : (dirNodeCodec.enc node).drop (c.length + 1) = rest
  have hl : (c ++ 0 :: rest).length = 32 := by
    rw [← hrest, List.length_append, List.length_cons, List.length_drop, hw]
    omega
  have hname : (dirNodeCodec.dec (c ++ 0 :: rest)).name.toList =
      c ++ 0 :: rest.take (27 - c.length) := by
    have hd : (dirNodeCodec.dec (c ++ 0 :: rest)).name =
        (u8.array 28).dec ((c ++ 0 :: rest).take 28) := rfl
    rw [hd, u8_array_dec (by simp [hl]), List.take_take, Nat.min_self, List.take_append]
    rw [List.take_of_length_le (show c.length ≤ 28 by omega),
      show 28 - c.length = (27 - c.length) + 1 by omega,
      List.take_succ_cons]
  constructor
  · unfold DirNode.Terminated
    rw [hname]
    simp
  · unfold DirNode.text
    rw [hname, List.takeWhile_append_of_pos]
    · simp
    · intro x hx
      simp only [ne_eq, decide_eq_true_eq]
      rintro rfl
      exact hc hx

end Texts

/-- A component of a path: not empty, without slash and terminator. -/
structure ProperName (c : CString) : Prop where
  nonempty : c ≠ []
  noSlash : slash ∉ c
  noNul : 0 ∉ c

structure Dir.Named (dir : Dir) : Prop where
  size : dir.size.toNat ≤ chisaiFilePerDir
  node : ∀ node ∈ dir.nodes, node.Terminated ∧ ProperName node.text

/-- The same of any names, as the search needs it. -/
structure Dir.Ended (dir : Dir) : Prop where
  size : dir.size.toNat ≤ chisaiFilePerDir
  node : ∀ node ∈ dir.nodes, node.Terminated

theorem Dir.Named.ended {dir : Dir} (h : dir.Named) : dir.Ended :=
  ⟨h.size, fun node hnode => (h.node node hnode).1⟩

section Search

variable {dir dir' : Dir} {name s c : CString} {i : ChisaiSize}

theorem Dir.nodes_length (h : dir.size.toNat ≤ chisaiFilePerDir) :
    dir.nodes.length = dir.size.toNat := by
  simp [Dir.nodes, h]

theorem Dir.entries_length (h : dir.size.toNat ≤ chisaiFilePerDir) :
    dir.entries.length = dir.size.toNat := by
  rw [Dir.entries, List.length_map, Dir.nodes_length h]

theorem Dir.getElem?_entries (j : Fin chisaiFilePerDir) (hj : j < dir.size.toNat) :
    dir.entries[j.val]? = some (getElem dir.node j j.isLt).entry := by
  simp [Dir.entries, Dir.nodes, hj]

theorem dirFindFrom_spec {k n : ℕ} (hn : k + n ≤ chisaiFilePerDir) (hs : 0 ∉ s)
    (h : ∀ node ∈ (dir.node.toList.drop k).take n, node.Terminated) :
    (dirFindFrom dir s k n = .ok none ∧
      s ∉ (((dir.node.toList.drop k).take n).map DirNode.entry).keys) ∨
    ∃ (j : Fin chisaiFilePerDir) (l₁ l₂ : List Entry), dirFindFrom dir s k n = .ok (some j) ∧
      ((dir.node.toList.drop k).take n).map DirNode.entry = l₁ ++ ⟨s, dir.idxAt j⟩ :: l₂ ∧
      k + l₁.length = j ∧ s ∉ l₁.keys := by
  induction n generalizing k with
  | zero => exact Or.inl ⟨rfl, by simp⟩
  | succ n ih =>
    have hk : k < chisaiFilePerDir := by omega
    have hcons : (dir.node.toList.drop k).take (n + 1) =
        dir.node[k] :: (dir.node.toList.drop (k + 1)).take n := by
      rw [List.drop_eq_getElem_cons (by simpa using hk), List.take_succ_cons]
      simp
    rw [hcons] at h ⊢
    have hcmp := DirNode.strcmpEq_enc (h _ List.mem_cons_self) hs
    unfold dirFindFrom
    rw [dif_pos hk, hcmp, ok_bind]
    by_cases htext : dir.node[k].text = s
    · right
      refine ⟨⟨k, hk⟩, [], ((dir.node.toList.drop (k + 1)).take n).map DirNode.entry, ?_, ?_, rfl, ?_⟩
      · simp [htext]
        rfl
      · simp [DirNode.entry, htext, Dir.idxAt]
      · simp
    · have hrest := ih (k := k + 1) (by omega) fun node hnode => h node (List.mem_cons_of_mem _ hnode)
      rw [if_neg (by simpa using htext)]
      rcases hrest with ⟨hf, hkeys⟩ | ⟨j, l₁, l₂, hf, hl, hj, hkeys⟩
      · refine Or.inl ⟨hf, ?_⟩
        rw [List.map_cons, List.keys_cons, List.mem_cons, not_or]
        exact ⟨Ne.symm htext, hkeys⟩
      · refine Or.inr ⟨j, dir.node[k].entry :: l₁, l₂, hf, ?_, ?_, ?_⟩
        · rw [List.map_cons, hl]
          rfl
        · rw [List.length_cons]
          omega
        · simp [DirNode.entry, Ne.symm htext, hkeys]

theorem dirFind_spec (h : dir.Ended) (hs : 0 ∉ s) :
    (dirFind dir s = .ok none ∧ s ∉ dir.entries.keys) ∨
    ∃ (j : Fin chisaiFilePerDir) (l₁ l₂ : List Entry), dirFind dir s = .ok (some j) ∧
      dir.entries = l₁ ++ ⟨s, dir.idxAt j⟩ :: l₂ ∧ l₁.length = j ∧ s ∉ l₁.keys := by
  have hfit : 0 + dir.size.toNat ≤ chisaiFilePerDir := by
    rw [Nat.zero_add]
    exact h.size
  have hspec := dirFindFrom_spec hfit hs h.node
  simp only [List.drop_zero, Nat.zero_add] at hspec
  exact hspec

theorem dirFileInodeIdx_spec (h : dir.Ended) (hs : 0 ∉ s) :
    dirFileInodeIdx dir s = .ok ((dir.entries.dlookup s).getD 0) := by
  unfold dirFileInodeIdx
  rcases dirFind_spec h hs with ⟨hf, hkeys⟩ | ⟨j, l₁, l₂, hf, hl, -, hkeys⟩
  · rw [hf, List.dlookup_eq_none.mpr hkeys]
    rfl
  · have hlook : dir.entries.dlookup s = some (dir.idxAt j) := by
      rw [hl, List.dlookup_append, List.dlookup_eq_none.mpr hkeys]
      simp
    rw [hf, hlook]
    rfl

end Search

section Changes

variable {dir dir' : Dir} {s c : CString} {i : ChisaiSize}

theorem Dir.nodes_with {node : DirNode} (hl : dir.size.toNat < chisaiFilePerDir) :
    (dir.with node hl).nodes = dir.nodes ++ [node] := by
  have hsize : (dir.with node hl).size.toNat = dir.size.toNat + 1 := size_with_toNat hl
  unfold Dir.nodes
  rw [hsize]
  have hlen : dir.size.toNat < dir.node.toList.length := by simpa using hl
  have hset : (dir.with node hl).node.toList = dir.node.toList.set dir.size.toNat node := by
    simp [Dir.with, ← Vector.toList_toArray]
  rw [hset, List.take_set, List.take_succ_eq_append_getElem hlen, List.set_append_right]
  · simp [hl.le]
  · simp

theorem Dir.entries_with {node : DirNode} (hl : dir.size.toNat < chisaiFilePerDir) :
    (dir.with node hl).entries = dir.entries ++ [node.entry] := by
  rw [Dir.entries, Dir.nodes_with, List.map_append]
  rfl

theorem Dir.size_without (h0 : 0 < dir.size.toNat) : (dir.size - 1).toNat = dir.size.toNat - 1 := by
  refine sub_one_toNat fun hc => ?_
  rw [hc, UInt32.toNat_zero] at h0
  omega

theorem Dir.nodes_without (h : dir.size.toNat ≤ chisaiFilePerDir) {j : Fin chisaiFilePerDir}
    (hl : (dir.size - 1).toNat < chisaiFilePerDir) {node : DirNode} {l₁ l₂ : List DirNode}
    (hsplit : dir.nodes = l₁ ++ node :: l₂) (hj : l₁.length = j) :
    (dir.without j hl).nodes = l₁ ++ lastFirst l₂ := by
  have hlen := Dir.nodes_length h
  rw [hsplit, List.length_append, List.length_cons] at hlen
  have hsize : (dir.size - 1).toNat = dir.size.toNat - 1 := Dir.size_without (by omega)
  have hlast : dir.nodes[dir.size.toNat - 1]? =
      some (getElem dir.node (dir.size - 1).toNat hl) := by
    have hlt : (dir.size - 1).toNat < dir.size.toNat := by omega
    rw [← hsize, Dir.nodes, List.getElem?_take, if_pos hlt]
    simp
  have hset : (dir.without j hl).nodes =
      (dir.nodes.set j (getElem dir.node (dir.size - 1).toNat hl)).take (dir.size.toNat - 1) := by
    have hnode : (dir.without j hl).node.toList =
        dir.node.toList.set j (getElem dir.node (dir.size - 1).toNat hl) := by
      simp [Dir.without, ← Vector.toList_toArray]
    have htake : (dir.without j hl).size.toNat = dir.size.toNat - 1 := hsize
    rw [Dir.nodes, hnode, htake, Dir.nodes, ← List.take_set, List.take_take,
      min_eq_left (Nat.sub_le _ 1)]
  rw [hset, hsplit, ← hj]
  rw [hsplit] at hlast
  refine take_set_last ?_ hlast
  rw [List.length_append]
  omega

theorem Dir.exists_nodes {e : Entry} {l₁ l₂ : List Entry} (hsplit : dir.entries = l₁ ++ e :: l₂) :
    ∃ m₁ node m₂, dir.nodes = m₁ ++ node :: m₂ ∧ m₁.map DirNode.entry = l₁ ∧
      node.entry = e ∧ m₂.map DirNode.entry = l₂ := by
  obtain ⟨m₁, m, hm, hl₁, hm'⟩ := List.map_eq_append_iff.mp hsplit
  obtain ⟨node, m₂, rfl, he, hl₂⟩ := List.map_eq_cons_iff.mp hm'
  exact ⟨m₁, node, m₂, hm, hl₁, he, hl₂⟩

theorem Dir.entries_without (h : dir.size.toNat ≤ chisaiFilePerDir) {j : Fin chisaiFilePerDir}
    (hl : (dir.size - 1).toNat < chisaiFilePerDir) {e : Entry} {l₁ l₂ : List Entry}
    (hsplit : dir.entries = l₁ ++ e :: l₂) (hj : l₁.length = j) :
    (∀ node ∈ (dir.without j hl).nodes, node ∈ dir.nodes) ∧
      (dir.without j hl).entries = l₁ ++ lastFirst l₂ := by
  obtain ⟨m₁, node, m₂, hm, rfl, rfl, rfl⟩ := Dir.exists_nodes hsplit
  rw [List.length_map] at hj
  have hnodes := Dir.nodes_without h hl hm hj
  refine ⟨fun node' hnode' => ?_, ?_⟩
  · rw [hnodes, ((lastFirst_perm m₂).append_left m₁).mem_iff] at hnode'
    rw [hm, List.mem_append, List.mem_cons]
    rcases List.mem_append.mp hnode' with hnode' | hnode'
    · exact Or.inl hnode'
    · exact Or.inr (Or.inr hnode')
  · rw [Dir.entries, hnodes, List.map_append, map_lastFirst]

theorem Dir.Named.with (h : dir.Named) {node : DirNode} (hl : dir.size.toNat < chisaiFilePerDir)
    (hnode : node.Terminated ∧ ProperName node.text) : (dir.with node hl).Named := by
  refine ⟨?_, fun node' hnode' => ?_⟩
  · rw [size_with_toNat hl]
    exact hl
  · rw [Dir.nodes_with, List.mem_append, List.mem_singleton] at hnode'
    rcases hnode' with hnode' | rfl
    · exact h.node node' hnode'
    · exact hnode

/-- The directory with a new entry at its end. -/
structure Dir.Gains (dir : Dir) (c : CString) (i : ChisaiSize) (dir' : Dir) : Prop where
  room : dir.size.toNat < chisaiFilePerDir
  named : dir'.Named
  entries : dir'.entries = dir.entries ++ [⟨c, i⟩]

/-- The directory without its first entry of the name, its last entry moved there. -/
structure Dir.Loses (dir : Dir) (c : CString) (i : ChisaiSize) (dir' : Dir) : Prop where
  named : dir'.Named
  split : ∃ l₁ l₂, dir.entries = l₁ ++ ⟨c, i⟩ :: l₂ ∧ c ∉ l₁.keys ∧
    dir'.entries = l₁ ++ lastFirst l₂

theorem dirInsert_of_room (hc : 0 ∉ c) (hlen : c.length < chisaiFileLen)
    (hl : dir.size.toNat < chisaiFilePerDir) : ∃ node,
      dirInsert dir c i = .ok (true, dir.with node hl) ∧ node.Terminated ∧ node.text = c ∧
        node.idx = i := by
  obtain ⟨node, hcopy, hterm, htext⟩ := @strcpyName_ok dir.node[dir.size.toNat] c hc hlen
  refine ⟨{ node with idx := i }, ?_, hterm, htext, rfl⟩
  unfold dirInsert
  rw [dif_pos hl, hcopy]
  rfl

theorem dirInsert_spec (h : dir.Named) (hc : ProperName c) (hlen : c.length < chisaiFileLen) :
    (dirInsert dir c i = .ok (false, dir) ∧ chisaiFilePerDir ≤ dir.size.toNat) ∨
    ∃ dir', dirInsert dir c i = .ok (true, dir') ∧ dir.Gains c i dir' := by
  by_cases hl : dir.size.toNat < chisaiFilePerDir
  · right
    obtain ⟨node, hins, hterm, rfl, rfl⟩ := dirInsert_of_room (i := i) hc.noNul hlen hl
    exact ⟨_, hins, hl, h.with hl ⟨hterm, hc⟩, Dir.entries_with hl⟩
  · exact Or.inl ⟨dif_neg hl, not_lt.mp hl⟩

theorem Dir.Named.loses (h : dir.Named) (hs : 0 ∉ s) {j : Fin chisaiFilePerDir}
    (hf : dirFind dir s = .ok (some j)) (hl : (dir.size - 1).toNat < chisaiFilePerDir) :
    dir.Loses s (dir.idxAt j) (dir.without j hl) := by
  rcases dirFind_spec h.ended hs with ⟨hf', -⟩ | ⟨j', l₁, l₂, hf', hsplit, hj, hkeys⟩
  · cases hf.symm.trans hf'
  · cases hf.symm.trans hf'
    obtain ⟨hnodes, hentries⟩ := Dir.entries_without h.size hl hsplit hj
    exact ⟨⟨hl.le, fun node hnode => h.node node (hnodes node hnode)⟩, l₁, l₂, hsplit, hkeys,
      hentries⟩

theorem dirRemove_found (h : dir.size.toNat ≤ chisaiFilePerDir) {j : Fin chisaiFilePerDir}
    (hf : dirFind dir s = .ok (some j)) : ∃ hl : (dir.size - 1).toNat < chisaiFilePerDir,
      dirRemove dir s = .ok (dir.idxAt j, dir.without j hl) := by
  have hlt := dirFind_lt hf
  have hl : (dir.size - 1).toNat < chisaiFilePerDir := by
    rw [Dir.size_without (by omega)]
    omega
  refine ⟨hl, ?_⟩
  unfold dirRemove
  rw [hf, ok_bind]
  exact dif_pos hl

theorem dirRemove_none (hf : dirFind dir s = .ok none) : dirRemove dir s = .ok (0, dir) := by
  unfold dirRemove
  rw [hf]
  rfl

theorem dirRemove_spec (h : dir.Named) (hs : 0 ∉ s) :
    (dirRemove dir s = .ok (0, dir) ∧ s ∉ dir.entries.keys) ∨
    ∃ i dir', dirRemove dir s = .ok (i, dir') ∧ dir.Loses s i dir' := by
  rcases dirFind_spec h.ended hs with ⟨hf, hkeys⟩ | ⟨j, l₁, l₂, hf, -⟩
  · exact Or.inl ⟨dirRemove_none hf, hkeys⟩
  · obtain ⟨hl, hrem⟩ := dirRemove_found h.size hf
    exact Or.inr ⟨_, _, hrem, h.loses hs hf hl⟩

theorem Dir.Gains.dlookup (h : dir.Gains c i dir') (habs : c ∉ dir.entries.keys) :
    dir'.entries.dlookup s = if s = c then some i else dir.entries.dlookup s := by
  rw [h.entries]
  exact dlookup_concat habs

theorem Dir.Gains.nodupKeys (h : dir.Gains c i dir') (hnodup : dir.entries.NodupKeys)
    (habs : c ∉ dir.entries.keys) : dir'.entries.NodupKeys := by
  rw [h.entries]
  exact nodupKeys_concat hnodup habs

theorem Dir.Loses.found (h : dir.Loses c i dir') : dir.entries.dlookup c = some i := by
  obtain ⟨l₁, l₂, hsplit, hkeys, -⟩ := h.split
  rw [hsplit]
  exact dlookup_split hkeys

theorem Dir.Loses.dlookup (h : dir.Loses c i dir') (hnodup : dir.entries.NodupKeys) :
    dir'.entries.dlookup s = if s = c then none else dir.entries.dlookup s := by
  obtain ⟨l₁, l₂, hsplit, -, hentries⟩ := h.split
  rw [hsplit] at hnodup ⊢
  rw [hentries]
  exact dlookup_removed hnodup

theorem Dir.Loses.nodupKeys (h : dir.Loses c i dir') (hnodup : dir.entries.NodupKeys) :
    dir'.entries.NodupKeys := by
  obtain ⟨l₁, l₂, hsplit, -, hentries⟩ := h.split
  rw [hsplit] at hnodup
  rw [hentries]
  exact nodupKeys_removed hnodup

end Changes

section Components

variable {path q c : CString}

theorem mem_splitOn {t : CString} (h : t ∈ path.splitOn slash) : slash ∉ t ∧ t ⊆ path := by
  induction path generalizing t with
  | nil =>
    rw [List.splitOn_nil, List.mem_singleton] at h
    subst h
    simp
  | cons x path ih =>
    rw [List.splitOn_cons_eq_if_modifyHead] at h
    split_ifs at h with hx
    · rcases List.mem_cons.mp h with rfl | h
      · simp
      · exact ⟨(ih h).1, fun y hy => List.mem_cons_of_mem x ((ih h).2 hy)⟩
    · cases hs : path.splitOn slash with
      | nil => exact absurd hs (List.splitOn_ne_nil _ _)
      | cons u us =>
        rw [hs, List.modifyHead_cons] at h
        rcases List.mem_cons.mp h with rfl | h
        · obtain ⟨hu, hsub⟩ := ih (t := u) (by rw [hs]; exact List.mem_cons_self)
          have hx : slash ≠ x := fun hc => hx (by simp [hc])
          refine ⟨by simp [hu, hx], fun y hy => ?_⟩
          rcases List.mem_cons.mp hy with rfl | hy
          · exact List.mem_cons_self
          · exact List.mem_cons_of_mem x (hsub hy)
        · obtain ⟨ht, hsub⟩ := ih (t := t) (by rw [hs]; exact List.mem_cons_of_mem u h)
          exact ⟨ht, fun y hy => List.mem_cons_of_mem x (hsub hy)⟩

theorem properName_of_token {t : CString} (hpath : 0 ∉ path) (h : t ∈ strtokSlash path) :
    ProperName t := by
  obtain ⟨hmem, hne⟩ := List.mem_filter.mp h
  obtain ⟨hslash, hsub⟩ := mem_splitOn hmem
  exact ⟨by simpa using hne, hslash, fun h0 => hpath (hsub h0)⟩

theorem strtokSlash_append (q c : CString) :
    strtokSlash (q ++ slash :: c) = strtokSlash q ++ strtokSlash c := by
  unfold strtokSlash
  rw [List.splitOn_append_cons_self, List.filter_append]

theorem strtokSlash_name (hc : slash ∉ c) (hne : c ≠ []) : strtokSlash c = [c] := by
  unfold strtokSlash
  rw [List.splitOn_eq_singleton hc]
  simp [hne]

theorem strrchrSlash_eq_some :
    strrchrSlash path = some (q, c) ↔ path = q ++ slash :: c ∧ slash ∉ c := by
  unfold strrchrSlash
  constructor
  · intro h
    cases hd : path.reverse.dropWhile (· ≠ slash) with
    | nil =>
      rw [hd] at h
      cases h
    | cons x before =>
      rw [hd] at h
      have hx : x = slash := by
        have hhead := List.head?_dropWhile_not (· ≠ slash) path.reverse
        rw [hd] at hhead
        simpa using hhead
      have happ := List.takeWhile_append_dropWhile (p := (· ≠ slash)) (l := path.reverse)
      rw [hd, hx] at happ
      have hpath : path = before.reverse ++
          slash :: (path.reverse.takeWhile (· ≠ slash)).reverse := by
        have hrev := congrArg List.reverse happ
        rw [List.reverse_append, List.reverse_cons, List.reverse_reverse,
          List.append_assoc] at hrev
        exact hrev.symm
      cases h
      refine ⟨hpath, fun hmem => ?_⟩
      have hall := List.mem_takeWhile_imp (List.mem_reverse.mp hmem)
      simp at hall
  · rintro ⟨rfl, hc⟩
    have hrev : (q ++ slash :: c).reverse = c.reverse ++ slash :: q.reverse := by simp
    have hall : ∀ x ∈ c.reverse, decide (x ≠ slash) = true := by
      intro x hx
      have hx' := List.mem_reverse.mp hx
      simp only [ne_eq, decide_eq_true_eq]
      rintro rfl
      exact hc hx'
    rw [hrev, List.dropWhile_append_of_pos hall, List.takeWhile_append_of_pos hall]
    simp

theorem strtokSlash_of_split (h : strrchrSlash path = some (q, c)) (hc : c ≠ []) :
    strtokSlash path = strtokSlash q ++ [c] := by
  obtain ⟨rfl, hslash⟩ := strrchrSlash_eq_some.mp h
  rw [strtokSlash_append, strtokSlash_name hslash hc]

end Components

section Names

variable {dir dir' : Dir} {node : DirNode} {s c path q : CString} {fs : Filesystem}

theorem dirFindFrom_append {k n m : ℕ} (h : dirFindFrom dir s k n = .ok none) :
    dirFindFrom dir s k (n + m) = dirFindFrom dir s (k + n) m := by
  induction n generalizing k with
  | zero => rw [Nat.zero_add, Nat.add_zero]
  | succ n ih =>
    rw [Nat.add_right_comm, ← Nat.add_assoc, Nat.add_right_comm k n 1]
    rw [dirFindFrom] at h ⊢
    split_ifs at h ⊢ with hk
    obtain ⟨eq, heq, h⟩ := bind_eq_ok.mp h
    rw [heq, ok_bind]
    cases eq with
    | true => cases h
    | false => exact ih h

theorem dirFindFrom_congr {k n : ℕ}
    (h : ∀ j : Fin chisaiFilePerDir, j < k + n →
      getElem dir'.node j j.isLt = getElem dir.node j j.isLt) :
    dirFindFrom dir' s k n = dirFindFrom dir s k n := by
  induction n generalizing k with
  | zero => rfl
  | succ n ih =>
    unfold dirFindFrom
    split_ifs with hk
    · have hnode : dir'.node[k] = dir.node[k] := h ⟨k, hk⟩ (by dsimp only; omega)
      rw [hnode, ih fun j hj => h j (by omega)]
    · rfl

theorem dirFind_with (h : dirFind dir c = .ok none) (hc : 0 ∉ c)
    (hl : dir.size.toNat < chisaiFilePerDir) (hterm : node.Terminated) (htext : node.text = c) :
    dirFind (dir.with node hl) c = .ok (some ⟨dir.size.toNat, hl⟩) := by
  have hold : dirFindFrom (dir.with node hl) c 0 dir.size.toNat = .ok none := by
    rw [← h]
    apply dirFindFrom_congr
    intro j hj
    rw [Nat.zero_add] at hj
    exact Vector.getElem_set_ne hl j.isLt (Nat.ne_of_gt hj)
  have hnew : (dir.with node hl).node[dir.size.toNat] = node := Vector.getElem_set_self _
  unfold dirFind
  rw [size_with_toNat hl, dirFindFrom_append hold, Nat.zero_add]
  unfold dirFindFrom
  rw [dif_pos hl, hnew, DirNode.strcmpEq_enc hterm hc, htext, decide_eq_true rfl]
  rfl

/-- The final name of the path is refused, or it fits the buffer and the entry with its
terminator and is found wherever it is inserted. -/
def KeepsName (fs : Filesystem) (path : CString) : Prop :=
  fsPathToParent fs path = .ok (.error .enametoolong) ∨
    ∃ s ∈ strrchrSlash path, s.2.length + 1 ≤ chisaiFileLen ∧
      ∀ dir idx, idx ≠ 0 → dir.size.toNat < chisaiFilePerDir → dirFind dir s.2 = .ok none →
        Yields (dirInsert dir s.2 idx) fun r => r.1 = true ∧ dirFileInodeIdx r.2 s.2 = .ok idx

/-- A name is kept if and only if it leaves room for its terminator. -/
theorem name_kept_iff (hpath : 0 ∉ path) (hs : strrchrSlash path = some (q, c)) :
    KeepsName fs path ↔ c.length < chisaiFileLen := by
  constructor
  · rintro (h | ⟨s, hmem, hlen, -⟩)
    · rw [fsPathToParent_of_split hs] at h
      split_ifs at h with hlen
      exact not_le.mp hlen
    · rw [hs, Option.mem_some_iff] at hmem
      subst hmem
      exact hlen
  · intro hlen
    have hc : 0 ∉ c := by
      intro h0
      apply hpath
      rw [(strrchrSlash_eq_some.mp hs).1]
      simp [h0]
    refine Or.inr ⟨(q, c), hs, hlen, fun dir idx h0 hl habs => ?_⟩
    obtain ⟨node, hins, hterm, htext, rfl⟩ := dirInsert_of_room (i := idx) hc hlen hl
    refine ⟨_, hins, rfl, ?_⟩
    dsimp only [dirFileInodeIdx]
    rw [dirFind_with habs hc hl hterm htext, ok_bind]
    exact congrArg (fun n : DirNode => Except.ok n.idx) (Vector.getElem_set_self _)

theorem name_kept_short :
    0 ∉ [slash, 97] ∧ (strrchrSlash [slash, 97] = some ([], [97])) ∧
      ∀ fs, KeepsName fs [slash, 97] := by
  refine ⟨by decide, by decide, fun fs => ?_⟩
  exact (name_kept_iff (q := []) (c := [97]) (by decide) (by decide)).mpr (by decide)

/-- A name of 28 bytes overruns the buffer, and as an entry it is not found again. -/
theorem long_name_lost :
    (∀ fs, ¬ KeepsName fs (slash :: List.replicate 28 97)) ∧
      Yields (dirInsert dirInit (List.replicate 28 97) 3) fun r =>
        r.1 = true ∧ dirFileInodeIdx r.2 (List.replicate 28 97) = .ok 0 := by
  refine ⟨fun fs h => ?_, by decide +kernel⟩
  have hs : strrchrSlash (slash :: List.replicate 28 97) = some ([], List.replicate 28 97) := by
    decide
  have hlen := (name_kept_iff (by decide) hs).mp h
  exact absurd hlen (by decide)

end Names

end ChisaiFs
