import Mathlib

/-! Fallible computations and the runs of a fallible step function. A step that
fails ends its run, so an invariant has to be shown for successful steps only. -/

namespace Outcome

universe u v

variable {ε : Type u} {α β : Type v}

theorem bind_eq_ok {x : Except ε α} {f : α → Except ε β} {b : β} :
    (x >>= f) = .ok b ↔ ∃ a, x = .ok a ∧ f a = .ok b := by
  cases x with
  | error e => simp [bind, Except.bind]
  | ok a => simp [bind, Except.bind]

theorem pure_eq_ok {a b : α} : (pure a : Except ε α) = .ok b ↔ a = b := by
  simp [pure, Except.pure]

theorem map_eq_ok {α β : Type v} {f : α → β} {x : Except ε α} {b : β} :
    f <$> x = .ok b ↔ ∃ a, x = .ok a ∧ f a = b := by
  cases x with
  | error e => simp [Functor.map, Except.map]
  | ok a => simp [Functor.map, Except.map]

@[simp] theorem ok_bind (a : α) (f : α → Except ε β) : (Except.ok a >>= f) = f a := rfl

@[simp] theorem error_bind (e : ε) (f : α → Except ε β) :
    ((Except.error e : Except ε α) >>= f) = .error e := rfl

theorem ite_error_eq_ok {p : Prop} [Decidable p] {x : Except ε α} {e : ε} {b : α} :
    (if p then x else .error e) = .ok b ↔ p ∧ x = .ok b := by
  by_cases h : p <;> simp [h]

/-- The computation succeeds with a value that has property `p`. -/
def Yields (e : Except ε α) (p : α → Prop) : Prop := ∃ a, e = .ok a ∧ p a

instance (e : Except ε α) (p : α → Prop) [DecidablePred p] : Decidable (Yields e p) :=
  match e with
  | .ok a => decidable_of_iff (p a)
      ⟨fun hp => ⟨a, rfl, hp⟩, fun ⟨_, he, hp⟩ => Except.ok.inj he ▸ hp⟩
  | .error _ => isFalse fun ⟨_, he, _⟩ => by cases he

/-- The computation succeeds and finds something with property `p`. -/
def Finds (e : Except ε (Option α)) (p : α → Prop) : Prop := ∃ x, e = .ok (some x) ∧ p x

instance (e : Except ε (Option α)) (p : α → Prop) [DecidablePred p] : Decidable (Finds e p) :=
  match e with
  | .ok (some x) => decidable_of_iff (p x)
      ⟨fun hp => ⟨x, rfl, hp⟩, fun ⟨_, he, hp⟩ => Option.some.inj (Except.ok.inj he) ▸ hp⟩
  | .ok none => isFalse fun ⟨_, he, _⟩ => by cases he
  | .error _ => isFalse fun ⟨_, he, _⟩ => by cases he

/-- `y` comes to what `x` comes to, unless `x` ends with `f`. -/
def Unless (f : ε) (x y : Except ε α) : Prop := x = .error f ∨ y = x

theorem Unless.refl {f : ε} (x : Except ε α) : Unless f x x := Or.inr rfl

theorem Unless.bind {f : ε} {x y : Except ε α} {k l : α → Except ε β} (h : Unless f x y)
    (hk : ∀ a, Unless f (k a) (l a)) : Unless f (x >>= k) (y >>= l) := by
  rcases h with rfl | rfl
  · exact Or.inl rfl
  · cases y with
    | error e => exact .refl _
    | ok a => exact hk a

theorem Unless.eq_ok {f : ε} {x y : Except ε α} {a : α} (h : Unless f x y) (hx : x = .ok a) :
    y = .ok a := by
  rcases h with hf | rfl
  · rw [hx] at hf
    cases hf
  · exact hx

section Runs

variable {σ : Type v} {ι : Type*} (step : σ → ι → Except ε σ) (allowed : σ → ι → Prop)

/-- States reached from `s` by successful steps on allowed inputs. -/
inductive Reaches (s : σ) : σ → Prop
  | refl : Reaches s s
  | tail {t u : σ} (i : ι) : Reaches s t → allowed t i → step t i = .ok u → Reaches s u

variable {step allowed}

theorem Reaches.invariant (inv : σ → Prop)
    (hstep : ∀ t i u, inv t → allowed t i → step t i = .ok u → inv u)
    {s t : σ} (h : Reaches step allowed s t) (hs : inv s) : inv t := by
  induction h with
  | refl => exact hs
  | tail i _ ha hu ih => exact hstep _ i _ ih ha hu

theorem Reaches.mono {allowed' : σ → ι → Prop} (himp : ∀ t i, allowed t i → allowed' t i)
    {s t : σ} (h : Reaches step allowed s t) : Reaches step allowed' s t := by
  induction h with
  | refl => exact .refl
  | tail i _ ha hu ih => exact .tail i ih (himp _ i ha) hu

theorem Reaches.trans {s t u : σ} (h : Reaches step allowed s t)
    (h' : Reaches step allowed t u) : Reaches step allowed s u := by
  induction h' with
  | refl => exact h
  | tail i _ ha hu ih => exact .tail i ih ha hu

/-- A run on listed inputs, which stops without a result at a step that is not allowed. -/
def runAllowed (step : σ → ι → Except ε σ) (allowed : σ → ι → Prop)
    [∀ s i, Decidable (allowed s i)] : σ → List ι → Option σ
  | s, [] => some s
  | s, i :: is =>
    if allowed s i then
      match step s i with
      | .ok t => runAllowed step allowed t is
      | .error _ => none
    else none

theorem reaches_of_runAllowed [∀ s i, Decidable (allowed s i)] {is : List ι} {s t u : σ}
    (hs : Reaches step allowed s t) (h : runAllowed step allowed t is = some u) :
    Reaches step allowed s u := by
  induction is generalizing t with
  | nil => exact Option.some.inj h ▸ hs
  | cons i is ih =>
    unfold runAllowed at h
    split_ifs at h with ha
    cases hstep : step t i with
    | error e =>
      rw [hstep] at h
      cases h
    | ok t' =>
      rw [hstep] at h
      exact ih (.tail i hs ha hstep) h

end Runs

end Outcome
