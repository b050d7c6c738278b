import ChisaiFs.Library.Walks

/-! Trees as the maps from paths to nodes that their walks are. Adding an edge, cutting one and
moving one are three operations on the map; what nodes the map reaches follows from it alone. -/

namespace Walks

variable {N L : Type*}

section Maps

variable [DecidableEq L]

/-- A new node at the end of a path. -/
def put (m : List L → Option N) (path : List L) (n : N) : List L → Option N :=
  Function.update m path (some n)

/-- Everything from the path on is gone. -/
def drop (m : List L → Option N) (path : List L) : List L → Option N :=
  fun xs => if path <+: xs then none else m xs

/-- What was at and below the one path is at and below the other. -/
def move (m : List L → Option N) (src dst : List L) : List L → Option N :=
  fun xs => if dst <+: xs then m (src ++ xs.drop dst.length) else drop m src xs

end Maps

/-- Each node is at the end of one path, and the paths to it lead through nodes. -/
structure TreeMap (m : List L → Option N) : Prop where
  inj : ∀ xs ys n, m xs = some n → m ys = some n → xs = ys
  closed : ∀ xs ys, m (xs ++ ys) ≠ none → m xs ≠ none

def Covers (m : List L → Option N) (n : N) : Prop := ∃ xs, m xs = some n

theorem TreeMap.none_below {m : List L → Option N} (h : TreeMap m) {path : List L}
    (hp : m path = none) (xs : List L) : m (path ++ xs) = none := by
  by_contra hne
  exact h.closed path xs hne hp

theorem Rooted.treeMap {g : N → L → Option N} {root : N} (h : Rooted g root) :
    TreeMap (walk g root) where
  inj _ _ _ hx hy := h.walk_inj hx hy
  closed xs ys hne hx := hne (by rw [walk_append, hx, Option.bind_none])

section Covers

variable [DecidableEq L] {m : List L → Option N} {n i : N} {path src dst xs ys : List L} {c : L}

theorem put_self : put m path n path = some n := Function.update_self ..

theorem put_of_ne (h : xs ≠ path) : put m path n xs = m xs := Function.update_of_ne h ..

theorem covers_put (h : m path = none) : Covers (put m path i) n ↔ n = i ∨ Covers m n := by
  constructor
  · rintro ⟨xs, hxs⟩
    by_cases he : xs = path
    · rw [he, put_self] at hxs
      exact Or.inl (Option.some.inj hxs).symm
    · exact Or.inr ⟨xs, (put_of_ne he).symm.trans hxs⟩
  · rintro (rfl | ⟨xs, hxs⟩)
    · exact ⟨path, put_self⟩
    · refine ⟨xs, (put_of_ne ?_).trans hxs⟩
      rintro rfl
      cases h.symm.trans hxs

theorem drop_eq_some : drop m path xs = some n ↔ ¬ path <+: xs ∧ m xs = some n := by
  unfold drop
  split_ifs with h
  · exact iff_of_false (fun hc => by cases hc) fun hc => hc.1 h
  · exact (and_iff_right h).symm

theorem TreeMap.covers_drop (h : TreeMap m) (hi : m path = some i)
    (hleaf : ∀ x xs, m (path ++ x :: xs) = none) :
    Covers (drop m path) n ↔ n ≠ i ∧ Covers m n := by
  constructor
  · rintro ⟨xs, hxs⟩
    obtain ⟨hpre, hn⟩ := drop_eq_some.mp hxs
    refine ⟨?_, xs, hn⟩
    rintro rfl
    exact hpre (h.inj _ _ _ hi hn ▸ List.prefix_refl _)
  · rintro ⟨hne, xs, hxs⟩
    refine ⟨xs, drop_eq_some.mpr ⟨?_, hxs⟩⟩
    rintro ⟨ys, rfl⟩
    cases ys with
    | nil =>
      rw [List.append_nil] at hxs
      exact hne (Option.some.inj (hxs.symm.trans hi))
    | cons y ys =>
      cases (hleaf y ys).symm.trans hxs

theorem move_below : move m src dst (dst ++ xs) = m (src ++ xs) := by
  unfold move
  rw [if_pos (List.prefix_append _ _), List.drop_left]

theorem move_of_not_below (h : ¬ dst <+: xs) : move m src dst xs = drop m src xs := if_neg h

theorem TreeMap.covers_move (h : TreeMap m) (hd : m dst = none) :
    Covers (move m src dst) n ↔ Covers m n := by
  constructor
  · rintro ⟨xs, hxs⟩
    by_cases hpre : dst <+: xs
    · obtain ⟨ys, rfl⟩ := hpre
      exact ⟨_, move_below.symm.trans hxs⟩
    · rw [move_of_not_below hpre] at hxs
      exact ⟨xs, (drop_eq_some.mp hxs).2⟩
  · rintro ⟨xs, hxs⟩
    by_cases hsrc : src <+: xs
    · obtain ⟨ys, rfl⟩ := hsrc
      exact ⟨dst ++ ys, move_below.trans hxs⟩
    · refine ⟨xs, ?_⟩
      rw [move_of_not_below, drop_eq_some]
      · exact ⟨hsrc, hxs⟩
      · rintro ⟨ys, rfl⟩
        cases (h.none_below hd ys).symm.trans hxs

end Covers

section Walks

variable [DecidableEq N] [DecidableEq L] {g : N → L → Option N} {root p i q : N} {c d : L}
  {pre pre' : List L}

theorem Rooted.walk_put (h : Rooted g root) (hp : walk g root pre = some p) (hc : g p c = none)
    (hi : ∀ x, g i x = none) (hip : i ≠ p) :
    walk (redirect g p c (some i)) root = put (walk g root) (pre ++ [c]) i := by
  have hleaf : ∀ x, redirect g p c (some i) i x = none := fun x =>
    (redirect_of_ne fun he => hip he.1).trans (hi x)
  funext xs
  by_cases hxs : pre ++ [c] <+: xs
  · obtain ⟨ys, rfl⟩ := hxs
    rw [List.append_assoc, List.singleton_append, h.walk_through hp, Option.bind_some]
    cases ys with
    | nil => rw [put_self, walk_nil]
    | cons y ys =>
      rw [walk_cons, hleaf, Option.bind_none, put_of_ne (by simp), walk_append, hp,
        Option.bind_some, walk_cons, hc, Option.bind_none]
  · rw [h.walk_redirect hp hxs, put_of_ne]
    rintro rfl
    exact hxs (List.prefix_refl _)

theorem Rooted.walk_drop (h : Rooted g root) (hp : walk g root pre = some p) :
    walk (redirect g p c none) root = drop (walk g root) (pre ++ [c]) := by
  funext xs
  unfold drop
  split_ifs with hxs
  · obtain ⟨ys, rfl⟩ := hxs
    rw [List.append_assoc, List.singleton_append, h.walk_cut hp]
  · exact h.walk_redirect hp hxs

theorem Rooted.walk_moves (h : Rooted g root) (hp : walk g root pre = some p)
    (hi : g p c = some i) (hq : walk g root pre' = some q) (hne : ¬ pre ++ [c] <+: pre' ++ [d]) :
    walk (redirect (redirect g p c none) q d (some i)) root =
      move (walk g root) (pre ++ [c]) (pre' ++ [d]) := by
  obtain ⟨hbelow, hother⟩ := h.walk_move hp hi hq hne
  funext xs
  by_cases hxs : pre' ++ [d] <+: xs
  · obtain ⟨ys, rfl⟩ := hxs
    rw [move_below, List.append_assoc, List.singleton_append, hbelow, walk_append, walk_concat, hp,
      Option.bind_some, hi, Option.bind_some]
  · rw [move_of_not_below hxs, hother xs hxs, h.walk_drop hp]

end Walks

end Walks
