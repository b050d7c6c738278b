import Mathlib

/-! Lists of keyed entries from which an entry is removed by moving the last one into its
place. The list found first under a key changes order, so what a lookup finds can change
under a key that occurs twice. -/

namespace SwapRemoval

variable {α : Type*}

/-- A list with its last element first. -/
def lastFirst (l : List α) : List α := l.getLast?.toList ++ l.dropLast

@[simp] theorem lastFirst_nil : lastFirst ([] : List α) = [] := rfl

@[simp] theorem lastFirst_concat (l : List α) (x : α) : lastFirst (l ++ [x]) = x :: l := by
  simp [lastFirst]

theorem lastFirst_perm (l : List α) : (lastFirst l).Perm l := by
  rcases l.eq_nil_or_concat' with rfl | ⟨l, x, rfl⟩
  · rfl
  · rw [lastFirst_concat]
    exact List.perm_append_singleton x l |>.symm

theorem map_lastFirst {β : Type*} (f : α → β) (l : List α) :
    (lastFirst l).map f = lastFirst (l.map f) := by
  simp [lastFirst, List.map_dropLast, Option.toList_map]

theorem lastFirst_length (l : List α) : (lastFirst l).length = l.length :=
  (lastFirst_perm l).length_eq

theorem take_set_last {l₁ l₂ : List α} {e z : α} {n : ℕ} (hn : n = (l₁ ++ l₂).length)
    (hz : (l₁ ++ e :: l₂)[n]? = some z) :
    ((l₁ ++ e :: l₂).set l₁.length z).take n = l₁ ++ lastFirst l₂ := by
  subst hn
  rw [List.set_append_right _ _ (le_refl _), Nat.sub_self, List.set_cons_zero]
  cases l₂ using List.reverseRecOn with
  | nil => simp
  | append_singleton l₃ x _ =>
    have hlen : (l₁ ++ (l₃ ++ [x])).length = (l₁ ++ e :: l₃).length := by
      simp
    rw [hlen, show l₁ ++ e :: (l₃ ++ [x]) = (l₁ ++ e :: l₃) ++ [x] by simp,
      List.getElem?_concat_length] at hz
    have hxz : x = z := Option.some.inj hz
    subst hxz
    have hlen' : (l₁ ++ (l₃ ++ [x])).length = (l₁ ++ x :: l₃).length := by
      rw [hlen]
      simp
    rw [hlen', show l₁ ++ x :: (l₃ ++ [x]) = (l₁ ++ x :: l₃) ++ [x] by simp, List.take_left,
      lastFirst_concat]

section Lookups

abbrev Keyed (κ β : Type*) := Sigma fun _ : κ => β

variable {κ β : Type*} {l l₁ l₂ : List (Keyed κ β)} {k x : κ} {b : β}

theorem dlookup_concat [DecidableEq κ] (hk : k ∉ l.keys) :
    (l ++ [(⟨k, b⟩ : Keyed κ β)]).dlookup x = if x = k then some b else l.dlookup x := by
  rw [List.dlookup_append]
  split_ifs with hx
  · subst hx
    rw [List.dlookup_eq_none.mpr hk]
    simp
  · rw [List.dlookup_cons_ne _ _ hx]
    simp

theorem nodupKeys_concat (h : l.NodupKeys) (hk : k ∉ l.keys) :
    (l ++ [(⟨k, b⟩ : Keyed κ β)]).NodupKeys :=
  (List.perm_nodupKeys (List.perm_append_singleton _ _)).mpr (List.nodupKeys_cons.mpr ⟨hk, h⟩)

theorem exists_split [DecidableEq κ] (h : l.dlookup k = some b) :
    ∃ l₁ l₂, l = l₁ ++ ⟨k, b⟩ :: l₂ ∧ k ∉ l₁.keys := by
  induction l with
  | nil => cases h
  | cons e l ih =>
    by_cases hk : k = e.1
    · obtain ⟨k', b'⟩ := e
      change k = k' at hk
      subst hk
      rw [List.dlookup_cons_eq] at h
      cases h
      exact ⟨[], l, rfl, by simp⟩
    · rw [List.dlookup_cons_ne _ _ hk] at h
      obtain ⟨l₁, l₂, rfl, hl⟩ := ih h
      exact ⟨e :: l₁, l₂, rfl, by simp [hk, hl]⟩

theorem dlookup_split [DecidableEq κ] (hk : k ∉ l₁.keys) : (l₁ ++ ⟨k, b⟩ :: l₂).dlookup k = some b := by
  rw [List.dlookup_append, List.dlookup_eq_none.mpr hk, List.dlookup_cons_eq]
  simp

/-- The entry that moves forward comes to stand before no other entry of its key. -/
def Unshadowing (k : κ) (l₁ l₂ : List (Keyed κ β)) : Prop :=
  ∀ z ∈ l₂.getLast?, z.1 ∈ l₁.keys ∨ z.1 = k ∨ z.1 ∉ l₂.dropLast.keys

theorem Unshadowing.of_nodupKeys (h : (l₁ ++ ⟨k, b⟩ :: l₂).NodupKeys) : Unshadowing k l₁ l₂ := by
  have hperm : (l₁ ++ ⟨k, b⟩ :: l₂).NodupKeys ↔ (⟨k, b⟩ :: (l₁ ++ l₂)).NodupKeys :=
    List.perm_nodupKeys List.perm_middle
  have hnodup := (List.nodupKeys_cons.mp (hperm.mp h)).2
  intro z hz
  cases l₂ using List.reverseRecOn with
  | nil => cases hz
  | append_singleton l₃ y _ =>
    have hzy : y = z := by simpa using hz
    subst hzy
    have hz := (List.perm_nodupKeys (List.perm_append_singleton y (l₁ ++ l₃))).mp
      (by rwa [List.append_assoc])
    have hnot := (List.nodupKeys_cons.mp hz).1
    rw [List.keys_append, List.mem_append, not_or] at hnot
    exact Or.inr (Or.inr (by simpa using hnot.2))

theorem Unshadowing.dlookup [DecidableEq κ] (h : Unshadowing k l₁ l₂) (hx : x ≠ k) :
    (l₁ ++ lastFirst l₂).dlookup x = (l₁ ++ ⟨k, b⟩ :: l₂).dlookup x := by
  rw [List.dlookup_append, List.dlookup_append, List.dlookup_cons_ne _ _ hx]
  cases l₂ using List.reverseRecOn with
  | nil => rfl
  | append_singleton l₃ z _ =>
    rw [lastFirst_concat, List.dlookup_append]
    obtain ⟨kz, bz⟩ := z
    by_cases hz : x = kz
    · subst hz
      rcases h ⟨x, bz⟩ (by simp) with hl | rfl | hl
      · obtain ⟨b', hb'⟩ := Option.isSome_iff_exists.mp (List.dlookup_isSome.mpr hl)
        rw [hb']
        rfl
      · exact absurd rfl hx
      · rw [List.dropLast_concat] at hl
        rw [List.dlookup_eq_none.mpr hl, List.dlookup_cons_eq, List.dlookup_cons_eq]
        rfl
    · rw [List.dlookup_cons_ne _ _ hz, List.dlookup_cons_ne _ _ hz]
      simp

theorem dlookup_removed [DecidableEq κ] (h : (l₁ ++ ⟨k, b⟩ :: l₂).NodupKeys) :
    (l₁ ++ lastFirst l₂).dlookup x =
      if x = k then none else (l₁ ++ ⟨k, b⟩ :: l₂).dlookup x := by
  split_ifs with hx
  · subst hx
    have hnot : x ∉ (l₁ ++ l₂).keys :=
      (List.nodupKeys_cons.mp ((List.perm_nodupKeys List.perm_middle).mp h)).1
    rw [List.dlookup_eq_none]
    intro hmem
    obtain ⟨b', hb'⟩ := List.exists_of_mem_keys hmem
    apply hnot
    exact List.mem_keys_of_mem (((lastFirst_perm l₂).append_left l₁).mem_iff.mp hb')
  · exact (Unshadowing.of_nodupKeys h).dlookup hx

theorem nodupKeys_removed (h : (l₁ ++ ⟨k, b⟩ :: l₂).NodupKeys) :
    (l₁ ++ lastFirst l₂).NodupKeys := by
  have hperm := (lastFirst_perm l₂).append_left l₁
  refine (List.perm_nodupKeys hperm).mpr ?_
  exact (List.nodupKeys_cons.mp ((List.perm_nodupKeys List.perm_middle).mp h)).2

end Lookups

end SwapRemoval
