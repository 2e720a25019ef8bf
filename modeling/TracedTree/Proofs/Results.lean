import TracedTree.Error

/-!
# Results

How a chain of steps that may fail is evaluated and taken apart. A chain succeeds when every step
does; a failing step ends it.
-/

namespace TracedTree

section Results

variable {ε ε' α β : Type}

@[simp] theorem ok_bind (a : α) (f : α → Except ε β) : (Except.ok a >>= f) = f a := rfl

@[simp] theorem error_bind (e : ε) (f : α → Except ε β) :
    (Except.error e >>= f) = Except.error e := rfl

@[simp] theorem pure_eq_ok (a : α) : (pure a : Except ε α) = .ok a := rfl

@[simp] theorem throw_eq_error (e : ε) : (throw e : Except ε α) = .error e := rfl

@[simp] theorem ok_map (a : α) (f : α → β) : (Except.ok a : Except ε α).map f = .ok (f a) := rfl

@[simp] theorem error_map (e : ε) (f : α → β) :
    (Except.error e : Except ε α).map f = .error e := rfl

@[simp] theorem ok_mapError (a : α) (f : ε → ε') :
    (Except.ok a : Except ε α).mapError f = .ok a := rfl

@[simp] theorem error_mapError (e : ε) (f : ε → ε') :
    (Except.error e : Except ε α).mapError f = .error (f e) := rfl

@[simp] theorem ok_toOption (a : α) : (Except.ok a : Except ε α).toOption = some a := rfl

@[simp] theorem error_toOption (e : ε) : (Except.error e : Except ε α).toOption = none := rfl

/-- A chain succeeds when its first step does and the rest does on what the step gives. -/
theorem bind_eq_ok_iff {x : Except ε α} {f : α → Except ε β} {b : β} :
    (x >>= f) = .ok b ↔ ∃ a, x = .ok a ∧ f a = .ok b := by
  cases x <;> simp

theorem map_eq_ok_iff {x : Except ε α} {f : α → β} {b : β} :
    x.map f = .ok b ↔ ∃ a, x = .ok a ∧ f a = b := by
  cases x <;> simp

theorem mapError_eq_ok_iff {x : Except ε α} {f : ε → ε'} {a : α} :
    x.mapError f = .ok a ↔ x = .ok a := by
  cases x <;> simp

/-- Two checks in a row find nothing when each finds nothing. -/
theorem checks_eq_ok_iff {x : Except ε Unit} {f : Unit → Except ε Unit} :
    (x >>= f) = .ok () ↔ x = .ok () ∧ f () = .ok () := by
  cases x <;> simp

/-- What holds of the outcome of a request, and of the state before it, holds of the state after
it, as a failed request leaves the state as it was. -/
theorem toOption_getD {P : α → Prop} {x : Except ε α} {a : α} (ha : P a)
    (hx : ∀ b, x = .ok b → P b) : P (x.toOption.getD a) := by
  cases x with
  | error e => exact ha
  | ok b => exact hx b rfl

theorem toOption_map_getD {P : α → Prop} {x : Except ε β} {f : β → α} {a : α} (ha : P a)
    (hx : ∀ b, x = .ok b → P (f b)) : P ((x.toOption.map f).getD a) := by
  cases x with
  | error e => exact ha
  | ok b => exact hx b rfl

end Results

end TracedTree
