import Mathlib

/-! Relations in which no resource has two owners, and the ways such a relation can change.
Resources that are in use without an owner. -/

namespace Ownership
open Relator

variable {κ κ' ρ : Type*} {R N : κ → ρ → Prop}

theorem leftUnique_mono {R' : κ → ρ → Prop} (h : LeftUnique R) (hle : ∀ a r, R' a r → R a r) :
    LeftUnique R' :=
  fun _ _ _ ha hb => h (hle _ _ ha) (hle _ _ hb)

theorem leftUnique_union {R' : κ → ρ → Prop} (h : LeftUnique R) (hN : LeftUnique N)
    (hnew : ∀ a b r, N a r → ¬ R b r) (hle : ∀ a r, R' a r → R a r ∨ N a r) :
    LeftUnique R' := by
  intro a b r ha hb
  rcases hle a r ha with ha | ha <;> rcases hle b r hb with hb | hb
  · exact h ha hb
  · exact absurd ha (hnew b a r hb)
  · exact absurd hb (hnew a b r ha)
  · exact hN ha hb

theorem leftUnique_insert {R' : κ → ρ → Prop} {a₀ : κ} {r₀ : ρ} (h : LeftUnique R)
    (hnew : ∀ a, ¬ R a r₀) (hle : ∀ a r, R' a r → R a r ∨ (a = a₀ ∧ r = r₀)) :
    LeftUnique R' := by
  refine leftUnique_union (N := fun a r => a = a₀ ∧ r = r₀) h ?_ ?_ hle
  · rintro a b r ⟨ha, -⟩ ⟨hb, -⟩
    exact ha.trans hb.symm
  · rintro a b r ⟨-, rfl⟩
    exact hnew b

theorem leftUnique_rekey {R' : κ' → ρ → Prop} (f : κ' → κ) (h : LeftUnique R)
    (hinj : ∀ a b r, R' a r → R' b r → f a = f b → a = b)
    (hle : ∀ a r, R' a r → R (f a) r) : LeftUnique R' :=
  fun _ _ _ ha hb => hinj _ _ _ ha hb (h (hle _ _ ha) (hle _ _ hb))

def stray (used : Set ρ) (R : κ → ρ → Prop) : Set ρ := {r | r ∈ used ∧ ∀ a, ¬ R a r}

theorem stray_subset {used used' : Set ρ} {R' : κ → ρ → Prop}
    (hu : ∀ r ∈ used, r ∉ used' → ∃ a, R a r) (hR : ∀ a r, R' a r → (∃ b, R b r) ∨ r ∉ used) :
    stray used R ⊆ stray used' R' := by
  rintro r ⟨hr, hfree⟩
  refine ⟨by_contra fun hn => ?_, fun a ha => ?_⟩
  · obtain ⟨a, ha⟩ := hu r hr hn
    exact hfree a ha
  · rcases hR a r ha with ⟨b, hb⟩ | hn
    · exact hfree b hb
    · exact hn hr

end Ownership
