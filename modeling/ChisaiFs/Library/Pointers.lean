import ChisaiFs.Library.Heaps

/-! A table of pointers to objects, each its own. What the table holds is then a partial function
that every operation updates at one place. -/

namespace Pointers
open Heaps

variable {α : Type*}

/-- The object that entry `i` points to. -/
def held (table : Heap ℕ) (objects : Heap α) (i : ℕ) : Option α := (table.get i).bind objects.get

/-- Every entry has an object of its own. -/
structure Apart (table : Heap ℕ) (objects : Heap α) : Prop where
  live : ∀ i a, table.get i = some a → ∃ x, objects.get a = some x
  single : ∀ i j a, table.get i = some a → table.get j = some a → i = j

section Held

variable {table : Heap ℕ} {objects : Heap α} {i a : ℕ} {x y : α}

theorem held_of_get (hi : table.get i = some a) : held table objects i = objects.get a := by
  rw [held, hi, Option.bind_some]

theorem held_of_closed (hi : table.get i = none) : held table objects i = none := by
  rw [held, hi, Option.bind_none]

theorem held_eq_some : held table objects i = some x ↔
    ∃ a, table.get i = some a ∧ objects.get a = some x :=
  Option.bind_eq_some_iff

theorem ne_fresh_of_held (hi : held table objects i = some x) : i ≠ table.fresh := by
  obtain ⟨a, ha, -⟩ := held_eq_some.mp hi
  exact Heap.ne_fresh ha

theorem alloc_store (h : Heap α) (x y : α) : (h.alloc x).store h.fresh y = h.alloc y := by
  simp [Heap.alloc, Heap.store, Heap.fresh]

theorem apart_empty : Apart .empty (.empty : Heap α) :=
  ⟨fun _ _ hi => (nomatch hi), fun _ _ _ hi => (nomatch hi)⟩

namespace Apart

theorem ne_fresh (h : Apart table objects) (hi : table.get i = some a) : a ≠ objects.fresh := by
  obtain ⟨x, hx⟩ := h.live i a hi
  exact Heap.ne_fresh hx

theorem alloc (h : Apart table objects) (x : α) :
    Apart (table.alloc objects.fresh) (objects.alloc x) ∧
      held (table.alloc objects.fresh) (objects.alloc x) =
        Function.update (held table objects) table.fresh (some x) := by
  refine ⟨⟨fun i a hi => ?_, fun i j a hi hj => ?_⟩, ?_⟩
  · rw [Heap.get_alloc] at hi ⊢
    split_ifs at hi with hnew
    · exact ⟨x, if_pos (Option.some.inj hi).symm⟩
    · rw [if_neg (h.ne_fresh hi)]
      exact h.live i a hi
  · rw [Heap.get_alloc] at hi hj
    split_ifs at hi hj with hi' hj' hj'
    · exact hi'.trans hj'.symm
    · exact absurd (Option.some.inj hi).symm (h.ne_fresh hj)
    · exact absurd (Option.some.inj hj).symm (h.ne_fresh hi)
    · exact h.single i j a hi hj
  · funext i
    rw [Function.update_apply]
    split_ifs with hnew
    · rw [held_of_get (by rw [Heap.get_alloc, if_pos hnew]), Heap.get_alloc, if_pos rfl]
    · unfold held
      rw [Heap.get_alloc, if_neg hnew]
      cases hi : table.get i with
      | none => rfl
      | some a => rw [Option.bind_some, Option.bind_some, Heap.get_alloc, if_neg (h.ne_fresh hi)]

theorem discard (h : Apart table objects) (x : α) :
    Apart table ((objects.alloc x).free objects.fresh) ∧
      held table ((objects.alloc x).free objects.fresh) = held table objects := by
  have hget : ∀ a, ((objects.alloc x).free objects.fresh).get a = objects.get a := by
    intro a
    rw [Heap.get_free, Heap.get_alloc]
    split_ifs with ha
    · rw [ha, Heap.get_fresh]
    · rfl
  refine ⟨⟨fun i a hi => ?_, h.single⟩, ?_⟩
  · rw [hget]
    exact h.live i a hi
  · funext i
    unfold held
    cases table.get i with
    | none => rfl
    | some a => exact hget a

theorem store (h : Apart table objects) (hi : table.get i = some a) (x : α) :
    Apart table (objects.store a x) ∧
      held table (objects.store a x) = Function.update (held table objects) i (some x) := by
  obtain ⟨y, hy⟩ := h.live i a hi
  refine ⟨⟨fun j b hj => ?_, h.single⟩, ?_⟩
  · rw [Heap.get_store hy]
    split_ifs
    · exact ⟨x, rfl⟩
    · exact h.live j b hj
  · funext j
    rw [Function.update_apply]
    split_ifs with hsame
    · rw [hsame, held_of_get hi, Heap.get_store hy, if_pos rfl]
    · unfold held
      cases hj : table.get j with
      | none => rfl
      | some b =>
        have hne : b ≠ a := fun hb => hsame (h.single j i a (hb ▸ hj) hi)
        rw [Option.bind_some, Option.bind_some, Heap.get_store hy, if_neg hne]

theorem free (h : Apart table objects) (hi : table.get i = some a) :
    Apart (table.free i) (objects.free a) ∧
      held (table.free i) (objects.free a) = Function.update (held table objects) i none := by
  refine ⟨⟨fun j b hj => ?_, fun j k b hj hk => ?_⟩, ?_⟩
  · rw [Heap.get_free] at hj
    split_ifs at hj with hne
    have hother : b ≠ a := fun hb => hne (h.single j i a (hb ▸ hj) hi)
    rw [Heap.get_free, if_neg hother]
    exact h.live j b hj
  · rw [Heap.get_free] at hj hk
    split_ifs at hj hk
    exact h.single j k b hj hk
  · funext j
    rw [Function.update_apply]
    split_ifs with hsame
    · exact held_of_closed (by rw [Heap.get_free, if_pos hsame])
    · unfold held
      rw [Heap.get_free, if_neg hsame]
      cases hj : table.get j with
      | none => rfl
      | some b =>
        have hne : b ≠ a := fun hb => hsame (h.single j i a (hb ▸ hj) hi)
        rw [Option.bind_some, Option.bind_some, Heap.get_free, if_neg hne]

end Apart

end Held

end Pointers
