import ChisaiFs.Library.Lockstep

/-! Two machines that are given the same inputs, and what a fallible computation ensures of the
result that it comes to. -/

namespace Simulation
open Outcome Lockstep

universe u v

section Ensures

variable {ε : Type u} {α : Type v}

/-- If the computation succeeds, its value has the property. -/
def Ensures (x : Except ε α) (p : α → Prop) : Prop := ∀ a, x = .ok a → p a

theorem Ensures.apply {x : Except ε α} {p : α → Prop} {a : α} (h : Ensures x p)
    (ha : x = .ok a) : p a := h a ha

instance (x : Except ε α) (p : α → Prop) [DecidablePred p] : Decidable (Ensures x p) :=
  match x with
  | .ok a => decidable_of_iff (p a) ⟨fun hp _ he => Except.ok.inj he ▸ hp, fun h => h a rfl⟩
  | .error _ => isTrue fun _ he => by cases he

end Ensures

section Machines

variable {ε : Type u} {σ τ ω : Type v} {ι : Type*} {step : σ → ι → Except ε (ω × σ)}
  {step' : τ → ι → Except ε (ω × τ)} {allowed : σ → ι → Prop} {R : σ → τ → Prop}

/-- Every input of the run is allowed in the state that it is given in. -/
def Admitted (step : σ → ι → Except ε (ω × σ)) (allowed : σ → ι → Prop) (s : σ) (is : List ι) :
    Prop :=
  Guarded step (fun _ : Unit => allowed) (fun k _ _ => k) () s is

instance [∀ s i, Decidable (allowed s i)] (s : σ) (is : List ι) :
    Decidable (Admitted step allowed s is) :=
  inferInstanceAs (Decidable (Guarded _ _ _ _ _ _))

theorem outputs_simulated
    (hstep : ∀ s t i, R s t → allowed s i →
      Alike (fun p q => q.1 = p.1 ∧ R p.2 q.2) (step s i) (step' t i))
    {s : σ} {t : τ} {is : List ι} (hr : R s t) (hg : Admitted step allowed s is) :
    outputs step' t is = outputs step s is := by
  induction is generalizing s t with
  | nil => rfl
  | cons i is ih =>
    obtain ⟨hi, hrest⟩ := hg
    have hboth := hstep s t i hr hi
    unfold outputs
    generalize step s i = x at hboth hrest
    generalize step' t i = y at hboth
    cases hboth with
    | error e => rfl
    | @ok p q h =>
      obtain ⟨o, s'⟩ := p
      obtain ⟨o', t'⟩ := q
      obtain ⟨ho, hnext⟩ := h
      dsimp only at ho hnext hrest ⊢
      rw [ho, ih hnext hrest]

end Machines

section Traces

variable {σ τ ι ω : Type*}

/-- A run of a machine that may have a choice, with the input and the output of every step. -/
inductive Traces (step : σ → ι → ω → σ → Prop) (s : σ) : List (ι × ω) → σ → Prop
  | nil : Traces step s [] s
  | snoc {l : List (ι × ω)} {t u : σ} (i : ι) (o : ω) :
      Traces step s l t → step t i o u → Traces step s (l ++ [(i, o)]) u

variable {step : σ → ι → ω → σ → Prop} {step' : τ → ι → ω → τ → Prop} {s t : σ}
  {l : List (ι × ω)}

theorem Traces.invariant (h : Traces step s l t) (inv : σ → Prop)
    (hstep : ∀ t i o u, inv t → step t i o u → inv u) (hs : inv s) : inv t := by
  induction h with
  | nil => exact hs
  | snoc i o _ hu ih => exact hstep _ i o _ ih hu

/-- If a related state can take every step, with the same input and output, and stay related, it
can take every run. -/
theorem Traces.simulated (h : Traces step s l t) {R : σ → τ → Prop}
    (hstep : ∀ t m i o u, R t m → step t i o u → ∃ m', step' m i o m' ∧ R u m') {m : τ}
    (hs : R s m) : ∃ m', Traces step' m l m' ∧ R t m' := by
  induction h with
  | nil => exact ⟨m, .nil, hs⟩
  | snoc i o _ hu ih =>
    obtain ⟨m₁, hrun, hr⟩ := ih
    obtain ⟨m₂, hlast, hr⟩ := hstep _ _ i o _ hr hu
    exact ⟨m₂, .snoc i o hrun hlast, hr⟩

theorem Traces.refines (h : Traces step s l t) (inv : σ → Prop) {view : σ → τ}
    (hinv : ∀ t i o u, inv t → step t i o u → inv u)
    (hstep : ∀ t i o u, inv t → step t i o u → step' (view t) i o (view u)) (hs : inv s) :
    Traces step' (view s) l (view t) := by
  obtain ⟨m, hrun, -, rfl⟩ := h.simulated (R := fun t m => inv t ∧ m = view t)
    (fun t m i o u hr hu => by
      obtain ⟨hi, rfl⟩ := hr
      exact ⟨view u, hstep t i o u hi hu, hinv t i o u hi hu, rfl⟩) ⟨hs, rfl⟩
  exact hrun

/-- The trace of a run on listed inputs, which stops without a result at a step that is not
allowed or that fails. -/
def runTraced {ε : Type u} {σ ω : Type v} {ι : Type*} (step : σ → ι → Except ε (ω × σ))
    (allowed : σ → ι → Prop) [∀ s i, Decidable (allowed s i)] :
    List (ι × ω) → σ → List ι → Option (List (ι × ω) × σ)
  | l, s, [] => some (l, s)
  | l, s, i :: is =>
    if allowed s i then
      match step s i with
      | .ok (o, t) => runTraced step allowed (l ++ [(i, o)]) t is
      | .error _ => none
    else none

theorem traces_of_runTraced {ε : Type u} {σ ω : Type v} {ι : Type*}
    {step : σ → ι → Except ε (ω × σ)} {allowed : σ → ι → Prop} [∀ s i, Decidable (allowed s i)]
    {l l' : List (ι × ω)} {s t u : σ} {is : List ι}
    (hs : Traces (fun s i o t => allowed s i ∧ step s i = .ok (o, t)) s l t)
    (h : runTraced step allowed l t is = some (l', u)) :
    Traces (fun s i o t => allowed s i ∧ step s i = .ok (o, t)) s l' u := by
  induction is generalizing l t with
  | nil =>
    cases h
    exact hs
  | cons i is ih =>
    unfold runTraced at h
    split_ifs at h with ha
    cases hstep : step t i with
    | error e =>
      rw [hstep] at h
      cases h
    | ok p =>
      rw [hstep] at h
      exact ih (.snoc i p.1 hs ⟨ha, hstep⟩) h

end Traces

end Simulation
