import Mathlib

/-! Objects with a lifetime. An address is given out once, so a pointer to an object that was
freed does not become valid again with a later allocation. -/

namespace Heaps

structure Heap (α : Type*) where
  cells : List (Option α)

namespace Heap

variable {α : Type*}

def empty : Heap α := ⟨[]⟩

def fresh (h : Heap α) : ℕ := h.cells.length

def get (h : Heap α) (a : ℕ) : Option α := h.cells[a]?.join

def alloc (h : Heap α) (x : α) : Heap α := ⟨h.cells ++ [some x]⟩

def store (h : Heap α) (a : ℕ) (x : α) : Heap α := ⟨h.cells.set a (some x)⟩

def free (h : Heap α) (a : ℕ) : Heap α := ⟨h.cells.set a none⟩

def live (h : Heap α) : List α := h.cells.filterMap id

variable {h : Heap α} {a b : ℕ} {x y : α}

@[simp] theorem get_empty : (empty : Heap α).get a = none := rfl

@[simp] theorem get_fresh : h.get h.fresh = none := by
  simp [get, fresh]

@[simp] theorem fresh_alloc : (h.alloc x).fresh = h.fresh + 1 := by
  simp [fresh, alloc]

@[simp] theorem fresh_store : (h.store a x).fresh = h.fresh := by
  simp [fresh, store]

@[simp] theorem fresh_free : (h.free a).fresh = h.fresh := by
  simp [fresh, free]

theorem lt_fresh (ha : h.get a = some x) : a < h.fresh := by
  by_contra hle
  have hnone : h.cells[a]? = none := List.getElem?_eq_none (not_lt.mp hle)
  simp [get, hnone] at ha

theorem ne_fresh (ha : h.get a = some x) : a ≠ h.fresh := (lt_fresh ha).ne

theorem get_alloc : (h.alloc x).get a = if a = h.fresh then some x else h.get a := by
  rcases lt_trichotomy a h.fresh with hlt | rfl | hgt
  · rw [if_neg hlt.ne]
    simp [get, alloc, List.getElem?_append_left hlt]
  · simp [get, alloc, fresh]
  · have hold : h.cells[a]? = none := List.getElem?_eq_none hgt.le
    have hlen : (h.cells ++ [some x]).length ≤ a := by
      rw [List.length_append]
      exact hgt
    have hnew : (h.cells ++ [some x])[a]? = none := List.getElem?_eq_none hlen
    rw [if_neg hgt.ne']
    simp [get, alloc, hold, hnew]

theorem get_store (ha : h.get a = some y) :
    (h.store a x).get b = if b = a then some x else h.get b := by
  have hlt : a < h.cells.length := lt_fresh ha
  by_cases hb : b = a
  · subst hb
    simp [get, store, hlt]
  · simp [get, store, hb, Ne.symm hb]

theorem get_free : (h.free a).get b = if b = a then none else h.get b := by
  by_cases hb : b = a
  · subst hb
    by_cases hlt : b < h.cells.length
    · simp [get, free, hlt]
    · simp [get, free, hlt]
  · simp [get, free, hb, Ne.symm hb]

theorem mem_live : x ∈ h.live ↔ ∃ a, h.get a = some x := by
  simp only [live, List.mem_filterMap, id, exists_eq_right]
  constructor
  · intro hx
    obtain ⟨a, ha, he⟩ := List.mem_iff_getElem.mp hx
    exact ⟨a, by simp [get, ha, he]⟩
  · rintro ⟨a, ha⟩
    have hlt : a < h.cells.length := lt_fresh ha
    simp only [get, List.getElem?_eq_getElem hlt, Option.join_some] at ha
    exact ha ▸ List.getElem_mem hlt

def inUse (h : Heap α) : ℕ := h.live.length

theorem inUse_alloc : (h.alloc x).inUse = h.inUse + 1 := by
  simp [inUse, live, alloc]

theorem exists_split (ha : h.get a = some y) :
    ∃ l₁ l₂, h.cells = l₁ ++ some y :: l₂ ∧ ∀ c, h.cells.set a c = l₁ ++ c :: l₂ := by
  have hlt : a < h.cells.length := lt_fresh ha
  have hcell : h.cells[a] = some y := by
    simpa [get, hlt] using ha
  refine ⟨h.cells.take a, h.cells.drop (a + 1), ?_, fun c => ?_⟩
  · rw [← hcell, List.getElem_cons_drop, List.take_append_drop]
  · rw [List.set_eq_take_append_cons_drop, if_pos hlt]

theorem inUse_store (ha : h.get a = some y) : (h.store a x).inUse = h.inUse := by
  obtain ⟨l₁, l₂, hcells, hset⟩ := exists_split ha
  unfold inUse live store
  rw [hset, hcells]
  simp

theorem inUse_free (ha : h.get a = some y) : (h.free a).inUse + 1 = h.inUse := by
  obtain ⟨l₁, l₂, hcells, hset⟩ := exists_split ha
  unfold inUse live free
  rw [hset, hcells]
  simp [Nat.add_assoc]

end Heap

end Heaps
