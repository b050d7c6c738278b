import ChisaiFs.Library.Outcome

/-! Fallible computations that record events as they go. A failure keeps what was recorded
before it, and without the record the computation is the plain one. -/

namespace Recorded
open Outcome

universe u v

structure Rec (ω : Type u) (ε : Type u) (α : Type v) where
  log : List ω
  result : Except ε α

variable {ω ε : Type u} {α β : Type v}

def Rec.bind (x : Rec ω ε α) (f : α → Rec ω ε β) : Rec ω ε β :=
  match x.result with
  | .ok a => ⟨x.log ++ (f a).log, (f a).result⟩
  | .error e => ⟨x.log, .error e⟩

instance : Monad (Rec ω ε) where
  pure a := ⟨[], .ok a⟩
  bind := Rec.bind

/-- Note the event and go on. -/
def record (w : ω) (a : α) : Rec ω ε α := ⟨[w], .ok a⟩

/-- A computation without events. -/
def quiet (x : Except ε α) : Rec ω ε α := ⟨[], x⟩

@[simp] theorem result_pure (a : α) : (pure a : Rec ω ε α).result = pure a := rfl
@[simp] theorem result_record (w : ω) (a : α) : (record w a : Rec ω ε α).result = .ok a := rfl
@[simp] theorem result_quiet (x : Except ε α) : (quiet x : Rec ω ε α).result = x := rfl
@[simp] theorem log_pure (a : α) : (pure a : Rec ω ε α).log = [] := rfl
@[simp] theorem log_record (w : ω) (a : α) : (record w a : Rec ω ε α).log = [w] := rfl
@[simp] theorem log_quiet (x : Except ε α) : (quiet x : Rec ω ε α).log = [] := rfl

@[simp] theorem result_bind (x : Rec ω ε α) (f : α → Rec ω ε β) :
    (x >>= f).result = x.result >>= fun a => (f a).result := by
  obtain ⟨log, result⟩ := x
  cases result <;> rfl

theorem record_bind (w : ω) (a : α) (f : α → Rec ω ε β) :
    (record w a >>= f) = ⟨w :: (f a).log, (f a).result⟩ := rfl

theorem mk_ok_bind (log : List ω) (a : α) (f : α → Rec ω ε β) :
    ((⟨log, .ok a⟩ : Rec ω ε α) >>= f) = ⟨log ++ (f a).log, (f a).result⟩ := rfl

theorem mk_error_bind (log : List ω) (e : ε) (f : α → Rec ω ε β) :
    ((⟨log, .error e⟩ : Rec ω ε α) >>= f) = ⟨log, .error e⟩ := rfl

@[simp] theorem quiet_ok_bind (a : α) (f : α → Rec ω ε β) :
    ((quiet (.ok a) : Rec ω ε α) >>= f) = f a := rfl

@[simp] theorem quiet_error_bind (e : ε) (f : α → Rec ω ε β) :
    ((quiet (.error e) : Rec ω ε α) >>= f) = quiet (.error e) := rfl

@[simp] theorem rec_pure_bind (a : α) (f : α → Rec ω ε β) : ((pure a : Rec ω ε α) >>= f) = f a := rfl

theorem mem_log_bind {x : Rec ω ε α} {f : α → Rec ω ε β} {w : ω} :
    w ∈ (x >>= f).log ↔ w ∈ x.log ∨ ∃ a, x.result = .ok a ∧ w ∈ (f a).log := by
  obtain ⟨log, result⟩ := x
  cases result with
  | ok a =>
    change w ∈ log ++ (f a).log ↔ _
    simp
  | error e =>
    change w ∈ log ↔ _
    simp

end Recorded
