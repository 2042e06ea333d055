import TreeQuery.Data.Handling
import TreeQuery.Error
import TreeQuery.Path.Digits

/-!
# Paths from values

Segments, search paths and locations can be built from arbitrary values. Names must be texts
and positions nonnegative integers; truth values do not count as integers. The first value
that will not do decides the error.
-/

namespace TreeQuery

/-- The text of a path that is handed in as a value. -/
def Value.pathText : Value → Except ArgumentError String
  | .scalar (.text text) => .ok text
  | v => .error (.notText v.typeName)

namespace Segment

/-- A named segment from what was given as its name and as its position. -/
def named (optional : Bool) (name index : Value) : Except ArgumentError Segment :=
  let kind := (key "" optional).kind
  match name, index with
  | .scalar (.text name), .scalar .null => .ok (key name optional)
  | .scalar (.text _), _ => .error (.strayIndex kind)
  | got, _ => .error (.nameNotText kind got)

/-- An indexed segment from what was given as its name and as its position. -/
def indexed (optional : Bool) (name position : Value) : Except ArgumentError Segment :=
  let kind := (index 0 optional).kind
  match position with
  | .scalar (.int (.ofNat position)) =>
    match name with
    | .scalar .null => .ok (index position optional)
    | _ => .error (.strayName kind)
  | .scalar (.int got) => .error (.negativeIndex kind got)
  | got => .error (.indexNotInteger kind got)

/-- A segment of a kind; what the kind has no use for must be null. -/
def build (kind : Kind) (name index : Value) : Except ArgumentError Segment :=
  match kind with
  | .key => named false name index
  | .optionalKey => named true name index
  | .index => indexed false name index
  | .optionalIndex => indexed true name index
  | .wildcard =>
    match name, index with
    | .scalar .null, .scalar .null => .ok wildcard
    | _, _ => .error .wildcardContent

/-- A segment whose kind is given by its word. -/
def ofFields (kind name index : Value) : Except ArgumentError Segment :=
  match kind with
  | .scalar (.text word) =>
    match Kind.ofWord? word with
    | some known => build known name index
    | none => .error (.unknownKind kind)
  | _ => .error (.unknownKind kind)

/-- The segment that insists on a step given as a text or an integer. -/
def ofStep : Value → Except ArgumentError Segment
  | .scalar (.text name) => .ok (key name false)
  | step => build .index .null step

end Segment

/-- A step given as a text or an integer. -/
def Step.ofValue : Value → Except ArgumentError Step
  | .scalar (.text name) => .ok (.key name)
  | .scalar (.int (.ofNat position)) => .ok (.index position)
  | .scalar (.int got) => .error (.negativeStep got)
  | got => .error (.notStep got)

/-- The search path that insists on all given steps. -/
def Expression.ofSteps (steps : List Value) : Except ArgumentError Expression := do
  return ⟨← steps.mapM Segment.ofStep⟩

/-- The location with the given steps. -/
def Location.ofSteps (steps : List Value) : Except ArgumentError Location := do
  return ⟨← steps.mapM Step.ofValue⟩

def Expression.ofValue (v : Value) : Except Error Expression := do
  let steps ← v.items.mapError .refused
  (Expression.ofSteps steps).mapError .argument

def Location.ofValue (v : Value) : Except Error Location := do
  let steps ← v.items.mapError .refused
  (Location.ofSteps steps).mapError .argument

/-- Reads a search path whose positions must be within a limit. A position is turned into a number as soon
as its segment has been read, so the first one beyond the limit is refused whatever comes after it. -/
def Expression.readWithin (limit : DigitLimit) (mode : Mode) (text : String) :
    Except Error Expression :=
  match (Reader.scan mode text.toList).segments.findSome? (limit.refusal? .tooManyDigits) with
  | some refusal => .error (.refused refusal)
  | none => (read mode text).mapError .malformed

/-- Reads the path text that a value is. -/
def Expression.readValue (limit : DigitLimit) (mode : Mode) (v : Value) : Except Error Expression := do
  let text ← v.pathText.mapError .argument
  readWithin limit mode text

/-- Reads the text of a location that a value is. -/
def Location.readValue (limit : DigitLimit) (v : Value) : Except Error Location := do
  return (← Expression.readValue limit .concrete v).location

end TreeQuery
