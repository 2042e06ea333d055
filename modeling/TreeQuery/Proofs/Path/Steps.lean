import TreeQuery.Proofs.Path.Forms

/-!
# Steps from values

A location and a search path can be built from the same values, each with checks of its own. What is
wrong with a value as a step is said here without either check. Both refuse a list of values with the
error about its first value that has a fault, and both errors are of the sort of that fault. A list
without faults holds the steps of one location, and the search path built from it is the one that
insists on them. The steps of a location therefore pass whenever they are checked again.
-/

namespace TreeQuery

/-- The sort of fault of a value as a step, if it has one. A step is a text or an integer that is not
negative, and truth values are no integers. -/
def Value.stepFault? : Value → Option Fault
  | .scalar (.text _) => none
  | .scalar (.int position) => if position < 0 then some .value else none
  | _ => some .type

/-! ### One value -/

theorem Step.stepFault?_value (step : Step) : step.value.stepFault? = none := by
  cases step with
  | key name => rfl
  | index position =>
    change (if (position : Int) < 0 then some Fault.value else none) = none
    rw [if_neg (by omega)]

namespace Value

/-- A value without a fault is a step. -/
theorem exists_step {v : Value} (h : v.stepFault? = none) : ∃ step : Step, step.value = v := by
  unfold stepFault? at h
  split at h
  · next name => exact ⟨.key name, rfl⟩
  · next position =>
    split at h
    · cases h
    · next nonneg =>
      obtain ⟨n, rfl⟩ := Int.eq_ofNat_of_zero_le (Int.not_lt.1 nonneg)
      exact ⟨.index n, rfl⟩
  · cases h

/-- A value with a fault is refused by either check, with an error of the sort of the fault. -/
theorem refused_alike {v : Value} {fault : Fault} (h : v.stepFault? = some fault) :
    ∃ cause cause' : ArgumentError, Step.ofValue v = .error cause ∧ Segment.ofStep v = .error cause' ∧
      cause.fault = fault ∧ cause'.fault = fault := by
  cases v with
  | scalar content =>
    cases content with
    | text name => cases h
    | int position =>
      cases position with
      | ofNat n =>
        have passes : stepFault? (.scalar (.int n)) = none := Step.stepFault?_value (.index n)
        cases passes.symm.trans h
      | negSucc n =>
        simp only [stepFault?, Int.negSucc_lt_zero, if_true] at h
        cases h
        exact ⟨.negativeStep (.negSucc n), .negativeIndex .index (.negSucc n), rfl, rfl, rfl, rfl⟩
    | _ =>
      cases h
      exact ⟨.notStep _, .indexNotInteger .index _, rfl, rfl, rfl, rfl⟩
  | _ =>
    cases h
    exact ⟨.notStep _, .indexNotInteger .index _, rfl, rfl, rfl, rfl⟩

end Value

/-! ### Lists of values -/

/-- A list of checks fails as the first of them that fails. -/
theorem mapM_eq_error_of_find? {α β ε : Type} {check : α → Except ε β} {fails : α → Bool}
    (passes : ∀ a, fails a = false → ∃ b, check a = .ok b) {items : List α} {bad : α} {e : ε}
    (first : items.find? fails = some bad) (error : check bad = .error e) :
    items.mapM check = .error e := by
  induction items with
  | nil => cases first
  | cons a rest ih =>
    rw [List.mapM_cons]
    cases h : fails a with
    | true =>
      rw [List.find?_cons_of_pos h] at first
      cases first
      rw [error]
      rfl
    | false =>
      rw [List.find?_cons_of_neg (by simp [h])] at first
      obtain ⟨b, hb⟩ := passes a h
      rw [hb, ih first]
      rfl

theorem exists_steps {items : List Value} (h : ∀ v ∈ items, v.stepFault? = none) :
    ∃ place : Location, place.steps.map Step.value = items := by
  induction items with
  | nil => exact ⟨.root, rfl⟩
  | cons v rest ih =>
    obtain ⟨hv, hr⟩ := List.forall_mem_cons.1 h
    obtain ⟨step, rfl⟩ := Value.exists_step hv
    obtain ⟨place, rfl⟩ := ih hr
    exact ⟨⟨step :: place.steps⟩, rfl⟩

/-- A truth value is no position, and as the first value with a fault it decides the error. -/
example : Expression.ofSteps [.text "a", .scalar (.bool true), .int (-1)] =
    .error (.indexNotInteger .index (.scalar (.bool true))) := rfl

end TreeQuery
