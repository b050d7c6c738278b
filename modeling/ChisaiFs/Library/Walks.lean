import Mathlib

/-! Walks along labelled edges. In a rooted graph no two edges lead to one node, so a node is
reached along one path at most, and changing one edge concerns the paths through it only. -/

namespace Walks

variable {N L : Type*}

/-- The node that the path leads to, if every step has an edge. -/
def walk (g : N → L → Option N) (n : N) (path : List L) : Option N := path.foldlM g n

section Paths

variable {g g' : N → L → Option N} {n m : N} {x : L} {xs ys : List L}

@[simp] theorem walk_nil : walk g n [] = some n := rfl

@[simp] theorem walk_cons : walk g n (x :: xs) = (g n x).bind fun m => walk g m xs := rfl

theorem walk_append : walk g n (xs ++ ys) = (walk g n xs).bind fun m => walk g m ys := by
  simp [walk, List.foldlM_append]

theorem walk_concat : walk g n (xs ++ [x]) = (walk g n xs).bind fun m => g m x := by
  simp [walk_append]

theorem walk_concat_eq_some :
    walk g n (xs ++ [x]) = some m ↔ ∃ k, walk g n xs = some k ∧ g k x = some m := by
  rw [walk_concat]
  exact Option.bind_eq_some_iff

theorem walk_congr
    (h : ∀ ys x m, ys ++ [x] <+: xs → walk g n ys = some m → g' m x = g m x) :
    walk g' n xs = walk g n xs := by
  induction xs using List.reverseRecOn with
  | nil => rfl
  | append_singleton xs x ih =>
    have hpre := ih fun ys y m hy => h ys y m (hy.trans (List.prefix_append xs [x]))
    rw [walk_concat, walk_concat, hpre]
    cases hw : walk g n xs with
    | none => rfl
    | some m => exact h xs x m (List.prefix_refl _) hw

end Paths

/-- Every node has one incoming edge at most, and the root has none. -/
structure Rooted (g : N → L → Option N) (root : N) : Prop where
  free : ∀ n x, g n x ≠ some root
  excl : ∀ {n x m y k}, g n x = some k → g m y = some k → n = m ∧ x = y

section Rooted

variable {g : N → L → Option N} {root n p q : N} {c d : L} {xs ys pre pre' : List L}

theorem Rooted.walk_inj (h : Rooted g root) (hx : walk g root xs = some n)
    (hy : walk g root ys = some n) : xs = ys := by
  induction xs using List.reverseRecOn generalizing n ys with
  | nil =>
    cases hx
    cases ys using List.reverseRecOn with
    | nil => rfl
    | append_singleton ys y =>
      obtain ⟨m, -, hm⟩ := walk_concat_eq_some.mp hy
      exact absurd hm (h.free m y)
  | append_singleton xs x ih =>
    obtain ⟨k, hk, hn⟩ := walk_concat_eq_some.mp hx
    cases ys using List.reverseRecOn with
    | nil =>
      cases hy
      exact absurd hn (h.free k x)
    | append_singleton ys y =>
      obtain ⟨m, hm, hn'⟩ := walk_concat_eq_some.mp hy
      obtain ⟨rfl, rfl⟩ := h.excl hn hn'
      rw [ih hk hm]

theorem Rooted.not_back (h : Rooted g root) (hp : walk g root pre = some p)
    (hn : walk g root (pre ++ c :: xs) = some n) (ys : List L) : walk g n ys ≠ some p := by
  intro hy
  have hback : walk g root ((pre ++ c :: xs) ++ ys) = some p := by
    rw [walk_append, hn]
    exact hy
  have hlen := congrArg List.length (h.walk_inj hp hback)
  simp only [List.length_append, List.length_cons] at hlen
  omega

end Rooted

/-- The graph with edge `c` of node `p` leading to `t`. -/
def redirect [DecidableEq N] [DecidableEq L] (g : N → L → Option N) (p : N) (c : L) (t : Option N) :
    N → L → Option N :=
  Function.update g p (Function.update (g p) c t)

section Redirect

variable [DecidableEq N] [DecidableEq L] {g : N → L → Option N} {root n m p q i : N} {c d x : L}
  {t : Option N} {xs pre pre' : List L}

@[simp] theorem redirect_same : redirect g p c t p c = t := by
  simp [redirect]

theorem redirect_of_ne (h : ¬ (n = p ∧ x = c)) : redirect g p c t n x = g n x := by
  unfold redirect
  by_cases hn : n = p
  · subst hn
    have hx : x ≠ c := fun hx => h ⟨rfl, hx⟩
    rw [Function.update_self, Function.update_of_ne hx]
  · rw [Function.update_of_ne hn]

theorem Rooted.walk_redirect (h : Rooted g root) (hp : walk g root pre = some p)
    (hx : ¬ pre ++ [c] <+: xs) : walk (redirect g p c t) root xs = walk g root xs := by
  apply walk_congr
  intro ys y m hy hm
  apply redirect_of_ne
  rintro ⟨rfl, rfl⟩
  rw [h.walk_inj hp hm] at hx
  exact hx hy

theorem walk_redirect_of_unreached (h : ∀ ys, walk g n ys ≠ some p) :
    walk (redirect g p c t) n xs = walk g n xs := by
  apply walk_congr
  intro ys y m _ hm
  apply redirect_of_ne
  rintro ⟨rfl, -⟩
  exact h ys hm

theorem Rooted.walk_through (h : Rooted g root) (hp : walk g root pre = some p) :
    walk (redirect g p c t) root (pre ++ c :: xs) =
      t.bind fun m => walk (redirect g p c t) m xs := by
  have hpre : ¬ pre ++ [c] <+: pre := by
    intro hc
    have hlen := hc.length_le
    simp at hlen
  rw [walk_append, h.walk_redirect hp hpre, hp]
  simp

theorem Rooted.walk_cut (h : Rooted g root) (hp : walk g root pre = some p) :
    walk (redirect g p c none) root (pre ++ c :: xs) = none :=
  h.walk_through hp

theorem walk_of_cut (h : walk (redirect g p c none) n xs = some m) : walk g n xs = some m := by
  induction xs using List.reverseRecOn generalizing m with
  | nil => exact h
  | append_singleton xs x ih =>
    obtain ⟨k, hk, hm⟩ := walk_concat_eq_some.mp h
    by_cases hx : k = p ∧ x = c
    · obtain ⟨rfl, rfl⟩ := hx
      rw [redirect_same] at hm
      cases hm
    · rw [redirect_of_ne hx] at hm
      exact walk_concat_eq_some.mpr ⟨k, ih hk, hm⟩

theorem Rooted.walk_graft (h : Rooted g root) (hp : walk g root pre = some p)
    (hi : ∀ ys, walk g i ys ≠ some p) :
    walk (redirect g p c (some i)) root (pre ++ c :: xs) = walk g i xs := by
  rw [h.walk_through hp]
  exact walk_redirect_of_unreached hi

theorem Rooted.cut (h : Rooted g root) : Rooted (redirect g p c none) root := by
  have hsub : ∀ {n x k}, redirect g p c none n x = some k → g n x = some k := by
    intro n x k hk
    by_cases hnx : n = p ∧ x = c
    · obtain ⟨rfl, rfl⟩ := hnx
      rw [redirect_same] at hk
      cases hk
    · rwa [redirect_of_ne hnx] at hk
  exact ⟨fun n x hn => h.free n x (hsub hn), fun hn hm => h.excl (hsub hn) (hsub hm)⟩

theorem Rooted.walk_move (h : Rooted g root) (hp : walk g root pre = some p)
    (hi : g p c = some i) (hq : walk g root pre' = some q) (hne : ¬ pre ++ [c] <+: pre' ++ [d]) :
    (∀ xs, walk (redirect (redirect g p c none) q d (some i)) root (pre' ++ d :: xs) =
      walk g i xs) ∧
    ∀ xs, ¬ pre' ++ [d] <+: xs → walk (redirect (redirect g p c none) q d (some i)) root xs =
      walk (redirect g p c none) root xs := by
  have hroot : walk g root (pre ++ [c]) = some i := by rw [walk_concat, hp, Option.bind_some, hi]
  have hpre : ¬ pre ++ [c] <+: pre' := fun hc => hne (hc.trans (List.prefix_append pre' [d]))
  have hq' : walk (redirect g p c none) root pre' = some q := (h.walk_redirect hp hpre).trans hq
  have hback : ∀ ys, walk g i ys ≠ some p := h.not_back hp hroot
  have hsub : ∀ ys, walk (redirect g p c none) i ys = walk g i ys :=
    fun ys => walk_redirect_of_unreached hback
  constructor
  · intro xs
    rw [h.cut.walk_graft hq', hsub]
    intro ys hy
    rw [hsub] at hy
    apply hpre
    have hys : walk g root ((pre ++ [c]) ++ ys) = some q := by
      rw [walk_append, hroot]
      exact hy
    rw [h.walk_inj hq hys]
    exact List.prefix_append _ _
  · exact fun xs hx => h.cut.walk_redirect hq' hx

end Redirect

end Walks
