import ChisaiFs.Library.Outcome

/-! Two runs of a fallible program side by side. A step lemma for related states carries over
to whole runs, with a record of what has become common to both. -/

namespace Lockstep
open Outcome

universe u v

variable {ε : Type u} {α β γ δ : Type v}

/-- Both computations fail with the same error, or both succeed with related values. -/
inductive Alike (R : α → β → Prop) : Except ε α → Except ε β → Prop
  | ok {a : α} {b : β} (h : R a b) : Alike R (.ok a) (.ok b)
  | error (e : ε) : Alike R (.error e) (.error e)

section Rules

variable {R : α → β → Prop} {S : γ → δ → Prop} {x : Except ε α} {y : Except ε β}

theorem Alike.mono (h : Alike R x y) {R' : α → β → Prop}
    (himp : ∀ a b, x = .ok a → y = .ok b → R a b → R' a b) : Alike R' x y := by
  cases h with
  | ok h => exact .ok (himp _ _ rfl rfl h)
  | error e => exact .error e

theorem Alike.bind (h : Alike R x y) {f : α → Except ε γ} {g : β → Except ε δ}
    (hfg : ∀ a b, x = .ok a → y = .ok b → R a b → Alike S (f a) (g b)) :
    Alike S (x >>= f) (y >>= g) := by
  cases h with
  | ok h => exact hfg _ _ rfl rfl h
  | error e => exact .error e

theorem Alike.of_eq {R : α → α → Prop} {x y : Except ε α} (h : y = x)
    (hr : ∀ a, x = .ok a → R a a) : Alike R x y := by
  subst h
  cases y with
  | error e => exact .error e
  | ok a => exact .ok (hr a rfl)

theorem Alike.map (h : Alike R x y) {f : α → γ} {g : β → δ} (hfg : ∀ a b, R a b → S (f a) (g b)) :
    Alike S (f <$> x) (g <$> y) := by
  cases h with
  | ok h => exact .ok (hfg _ _ h)
  | error e => exact .error e

end Rules

section Runs

variable {σ ω : Type v} {ι κ : Type*} (step : σ → ι → Except ε (ω × σ))

/-- One output for each step; the run ends at a step that fails, with its error. -/
def outputs : σ → List ι → List (Except ε ω)
  | _, [] => []
  | s, i :: is =>
    match step s i with
    | .ok (o, t) => .ok o :: outputs t is
    | .error e => [.error e]

/-- Every input meets its guard in the state it is given in, at the record kept so far. -/
def Guarded (guard : κ → σ → ι → Prop) (note : κ → ι → ω → κ) : κ → σ → List ι → Prop
  | _, _, [] => True
  | k, s, i :: is => guard k s i ∧
    match step s i with
    | .ok (o, t) => Guarded guard note (note k i o) t is
    | .error _ => True

variable {step} {guard : κ → σ → ι → Prop} {note : κ → ι → ω → κ} {R : κ → σ → σ → Prop}

theorem outputs_eq (hstep : ∀ k s s' i, R k s s' → guard k s i →
      Alike (fun p q => q.1 = p.1 ∧ R (note k i p.1) p.2 q.2) (step s i) (step s' i))
    {k : κ} {s s' : σ} {is : List ι} (hr : R k s s') (hg : Guarded step guard note k s is) :
    outputs step s' is = outputs step s is := by
  induction is generalizing k s s' with
  | nil => rfl
  | cons i is ih =>
    obtain ⟨hi, hrest⟩ := hg
    have hboth := hstep k s s' i hr hi
    unfold outputs
    generalize step s i = x at hboth hrest
    generalize step s' i = y at hboth
    cases hboth with
    | error e => rfl
    | @ok p q h =>
      obtain ⟨o, t⟩ := p
      obtain ⟨o', t'⟩ := q
      obtain ⟨ho, hnext⟩ := h
      dsimp only at ho hnext hrest ⊢
      rw [ho, ih hnext hrest]

instance [∀ k s i, Decidable (guard k s i)] :
    (k : κ) → (s : σ) → (is : List ι) → Decidable (Guarded step guard note k s is)
  | _, _, [] => isTrue trivial
  | k, s, i :: is =>
    match h : step s i with
    | .error _ => decidable_of_iff (guard k s i) (by simp [Guarded, h])
    | .ok (o, t) =>
      have : Decidable (Guarded step guard note (note k i o) t is) :=
        instDecidableGuarded (note k i o) t is
      decidable_of_iff (guard k s i ∧ Guarded step guard note (note k i o) t is)
        (by simp [Guarded, h])

end Runs

end Lockstep
