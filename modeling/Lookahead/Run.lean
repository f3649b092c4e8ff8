import Lookahead.Failure
import Lookahead.Notice

/-!
# Run — an answer together with its notices

A `Run` has the notices given along the way and its outcome, a value or the first failure. Runs
follow each other as in a sequence: a failure ends it, and the notices given before the failure
stay.

* `Run.notices_bind`, `Run.outcome_bind` — the two parts of a sequence;
* the monad laws.
-/

namespace Lookahead

structure Run (α : Type) where
  notices : List Notice
  outcome : Except Failure α

namespace Run

variable {α β : Type}

@[ext]
theorem ext {x y : Run α} (hn : x.notices = y.notices) (ho : x.outcome = y.outcome) : x = y := by
  cases x
  cases y
  simp_all

def bind (x : Run α) (f : α → Run β) : Run β :=
  match x.outcome with
  | .ok a => ⟨x.notices ++ (f a).notices, (f a).outcome⟩
  | .error failure => ⟨x.notices, .error failure⟩

instance : Monad Run where
  pure a := ⟨[], .ok a⟩
  bind := bind

/-- Reports `notices` and goes on. -/
def report (notices : List Notice) : Run Unit :=
  ⟨notices, .ok ()⟩

/-- Ends the sequence. -/
def fail (failure : Failure) : Run α :=
  ⟨[], .error failure⟩

/-- A calculation that may fail, without notices. -/
def ofExcept (outcome : Except Failure α) : Run α :=
  ⟨[], outcome⟩

/-! ## The parts of a sequence -/

@[simp]
theorem notices_pure (a : α) : (pure a : Run α).notices = [] := rfl

@[simp]
theorem outcome_pure (a : α) : (pure a : Run α).outcome = .ok a := rfl

@[simp]
theorem notices_report (notices : List Notice) : (report notices).notices = notices := rfl

@[simp]
theorem outcome_report (notices : List Notice) : (report notices).outcome = .ok () := rfl

@[simp]
theorem notices_fail (failure : Failure) : (fail failure : Run α).notices = [] := rfl

@[simp]
theorem outcome_fail (failure : Failure) : (fail failure : Run α).outcome = .error failure := rfl

@[simp]
theorem notices_ofExcept (outcome : Except Failure α) : (ofExcept outcome).notices = [] := rfl

@[simp]
theorem outcome_ofExcept (outcome : Except Failure α) : (ofExcept outcome).outcome = outcome := rfl

theorem bind_def (x : Run α) (f : α → Run β) : x >>= f = x.bind f := rfl

theorem bind_of_ok {x : Run α} {a : α} (h : x.outcome = .ok a) (f : α → Run β) :
    x >>= f = ⟨x.notices ++ (f a).notices, (f a).outcome⟩ := by
  simp [bind_def, bind, h]

theorem bind_of_error {x : Run α} {failure : Failure} (h : x.outcome = .error failure)
    (f : α → Run β) : x >>= f = ⟨x.notices, .error failure⟩ := by
  simp [bind_def, bind, h]

theorem outcome_bind_of_ok {x : Run α} {a : α} (h : x.outcome = .ok a) (f : α → Run β) :
    (x >>= f).outcome = (f a).outcome := by
  rw [bind_of_ok h]

theorem notices_bind_of_ok {x : Run α} {a : α} (h : x.outcome = .ok a) (f : α → Run β) :
    (x >>= f).notices = x.notices ++ (f a).notices := by
  rw [bind_of_ok h]

theorem outcome_bind (x : Run α) (f : α → Run β) :
    (x >>= f).outcome = x.outcome >>= fun a => (f a).outcome := by
  cases h : x.outcome with
  | ok a => rw [bind_of_ok h]; rfl
  | error failure => rw [bind_of_error h]; rfl

theorem notices_bind (x : Run α) (f : α → Run β) :
    (x >>= f).notices =
      x.notices ++ match x.outcome with
        | .ok a => (f a).notices
        | .error _ => [] := by
  cases h : x.outcome with
  | ok a => rw [bind_of_ok h]
  | error failure => rw [bind_of_error h]; simp

/-- A sequence has a value exactly if both of its runs have one. -/
theorem bind_outcome_eq_ok_iff {x : Run α} {f : α → Run β} {b : β} :
    (x >>= f).outcome = .ok b ↔ ∃ a, x.outcome = .ok a ∧ (f a).outcome = .ok b := by
  rw [outcome_bind]
  cases x.outcome with
  | ok a => simp [Bind.bind, Except.bind]
  | error failure => simp [Bind.bind, Except.bind]

/-! ## Laws -/

private theorem id_map_run (x : Run α) : id <$> x = x := by
  cases x with
  | mk notices outcome => cases outcome <;> simp [Functor.map, bind]

private theorem pure_bind_run (a : α) (f : α → Run β) : pure a >>= f = f a := by
  rw [bind_of_ok (outcome_pure a)]
  simp

private theorem bind_assoc_run {γ : Type} (x : Run α) (f : α → Run β) (g : β → Run γ) :
    x >>= f >>= g = x >>= fun a => f a >>= g := by
  cases hx : x.outcome with
  | error failure =>
      rw [bind_of_error hx, bind_of_error hx, bind_of_error rfl]
  | ok a =>
      rw [bind_of_ok hx, bind_of_ok hx]
      cases hf : (f a).outcome with
      | ok b => rw [bind_of_ok hf, bind_of_ok rfl, List.append_assoc]
      | error failure => rw [bind_of_error hf, bind_of_error rfl]

instance : LawfulMonad Run :=
  LawfulMonad.mk' Run id_map_run pure_bind_run bind_assoc_run

end Run

end Lookahead
