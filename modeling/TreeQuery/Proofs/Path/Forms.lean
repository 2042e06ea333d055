import TreeQuery.Finder
import TreeQuery.Proofs.Path.Canonical
import TreeQuery.Proofs.Path.Concrete

/-!
# The forms of a location

A location is handed in as it is, as its text, or as the sequence of its steps. Reading takes the text
back to the location and takes no other text of a search path, since canonical texts differ and only
concrete paths are read as locations. The checks on steps let every step of a location pass. So it
makes no difference in which form an edit gets its location.
-/

namespace TreeQuery

/-- Checks that every item of a list passes give all that they make of the items. -/
theorem mapM_map_eq_ok {α β γ ε : Type} {check : β → Except ε γ} {f : α → β} {g : α → γ}
    (h : ∀ a, check (f a) = .ok (g a)) (items : List α) :
    (items.map f).mapM check = .ok (items.map g) := by
  induction items with
  | nil => rfl
  | cons a rest ih =>
    rw [List.map_cons, List.mapM_cons, h, ih]
    rfl

namespace Step

theorem ofStep_value (step : Step) : Segment.ofStep step.value = .ok step.segment := by
  cases step <;> rfl

theorem ofValue_value (step : Step) : ofValue step.value = .ok step := by
  cases step <;> rfl

end Step

namespace Location

variable {place : Location}

/-- The steps of a location pass as those of a search path, which insists on them. -/
theorem expression_ofSteps (place : Location) :
    Expression.ofSteps (place.steps.map Step.value) = .ok place.expression := by
  rw [Expression.ofSteps, mapM_map_eq_ok Step.ofStep_value]
  rfl

theorem ofSteps_value (place : Location) : ofSteps (place.steps.map Step.value) = .ok place := by
  rw [ofSteps, mapM_map_eq_ok Step.ofValue_value, List.map_id']
  rfl

/-- The text of a search path is read as the one location that insists on the same steps. -/
theorem read_text_eq_ok_iff {e : Expression} :
    read e.text = .ok place ↔ place.expression = e := by
  cases concrete : e.isConcrete with
  | true =>
    have whole : Expression.read .concrete e.text = .ok e :=
      Expression.read_concrete_eq_ok_iff.2 ⟨e.read_text, concrete⟩
    rw [read, whole]
    constructor
    · intro h
      cases h
      exact Expression.expression_location concrete
    · rintro rfl
      exact congrArg Except.ok place.location_expression
  | false =>
    constructor
    · intro h
      cases hr : Expression.read .concrete e.text with
      | error cause => simp [read, hr, Except.map] at h
      | ok f =>
        obtain ⟨full, hf⟩ := Expression.read_concrete_eq_ok_iff.1 hr
        cases full.symm.trans e.read_text
        cases hf.symm.trans concrete
    · rintro rfl
      cases place.isConcrete_expression.symm.trans concrete

theorem read_text (place : Location) : read place.text = .ok place :=
  read_text_eq_ok_iff.2 rfl

theorem exists_read_text_iff {e : Expression} :
    (∃ place, read e.text = .ok place) ↔ e.isConcrete = true := by
  constructor
  · rintro ⟨place, h⟩
    rw [← read_text_eq_ok_iff.1 h]
    exact place.isConcrete_expression
  · intro concrete
    exact ⟨e.location, read_text_eq_ok_iff.2 (Expression.expression_location concrete)⟩

end Location

/-- A location in one of its forms. -/
inductive PathArgument.FormOf (place : Location) : PathArgument → Prop
  | location : FormOf place (.location place)
  | text : FormOf place (.value (.text place.text))
  | steps (kind : ArrayKind) : FormOf place (.value (.array kind (place.steps.map Step.value)))

/-- Every form of a location is taken as that location. -/
theorem PathArgument.FormOf.toLocation {place : Location} {form : PathArgument}
    (h : FormOf place form) : form.toLocation = .ok place := by
  cases h with
  | location => rfl
  | text =>
    show (Location.read place.text).mapError Error.malformed = .ok place
    rw [place.read_text]
    rfl
  | steps kind =>
    show (Location.ofSteps (place.steps.map Step.value)).mapError Error.argument = .ok place
    rw [place.ofSteps_value]
    rfl

/-- A place and the name with the same digits have different texts. -/
example : Location.text ⟨[.index 0]⟩ = "[0]" ∧ Location.text ⟨[.key "0"]⟩ = "[\"0\"]" := ⟨rfl, rfl⟩

end TreeQuery
