import TreeQuery.Data.Handling
import TreeQuery.Data.Signature
import TreeQuery.Path.Argument

/-!
# Errors as they are announced

A notice is what a caller gets to see of an error: its class, its details by name and its text.
Callers can also make notices up; the details may then be any values. Some classes belong to
families, by which errors can be told apart more coarsely.
-/

namespace TreeQuery

inductive ErrorClass
  | search
  | malformed
  | unresolved
  | notAnObject
  | notAnArray
  | notAContainer
  | missingKey
  | missingIndex
  | notFound
  | rootEdit
  | fault (sort : Fault)
  deriving DecidableEq

inductive ErrorFamily
  | search
  | unresolved
  | value
  | lookup
  deriving DecidableEq

/-- The families of a class. Errors of one search or edit belong to the first. -/
def ErrorClass.families : ErrorClass → List ErrorFamily
  | search => [.search]
  | malformed | rootEdit => [.search, .value]
  | notFound => [.search, .lookup]
  | unresolved | notAnObject | notAnArray | notAContainer | missingKey | missingIndex =>
    [.search, .unresolved, .lookup]
  | fault .value => [.value]
  | fault .position | fault .key => [.lookup]
  | fault _ => []

/-- What the notices of a class are made from, apart from the notice itself. A general notice is
made from any number of things. -/
def ErrorClass.parameters? : ErrorClass → Option (List String)
  | malformed => some ["text", "position", "expected"]
  | unresolved => some ["path", "message"]
  | notAnObject | notAnArray | notAContainer => some ["path"]
  | missingKey => some ["path", "key"]
  | missingIndex => some ["path", "index"]
  | notFound => some ["path", "depth"]
  | rootEdit => some ["operation"]
  | search | fault _ => none

structure Notice where
  errorClass : ErrorClass
  details : List (String × Value)
  message : String

/-- The steps of a location as a value. -/
def Location.value (l : Location) : Value := .array .list (l.steps.map Step.value)

/-- What is handed in as the detail of a notice. -/
def PathArgument.detail : PathArgument → Value
  | expression e => .text e.text
  | location l => l.value
  | value v => v

namespace Notice

/-- A notice without details, whose text is that of what is handed in, several things as one
tuple. -/
def search : List PathArgument → Notice
  | [] => ⟨.search, [], ""⟩
  | [thing] => ⟨.search, [], thing.plain⟩
  | things => ⟨.search, [], ArrayKind.tuple.display (things.map PathArgument.display)⟩

def malformed (text position expected : PathArgument) : Notice :=
  ⟨.malformed, [("position", position.detail), ("expected", expected.detail)],
    Wording.malformed text.display position.plain expected.plain⟩

def rootEdit (operation : PathArgument) : Notice :=
  ⟨.rootEdit, [("operation", operation.detail)], Wording.rootEdit operation.plain⟩

variable (place : PathArgument)

/-- A notice about a place, of which the steps are shown. -/
def atPlace (c : ErrorClass) (details : List (String × Value)) (message : String) :
    Except Refusal Notice :=
  return ⟨c, ("path", .array .list (← place.steps)) :: details, message⟩

/-- How many steps a place has. -/
def depthOf : PathArgument → Except Refusal Nat
  | .expression e => .ok e.length
  | .location l => .ok l.length
  | .value v => v.count

/-- The step of a place at a depth, if the place is that deep; a negative depth counts from the
end. Only locations have steps. -/
def stepAt (depth : Value) : Except Refusal Value := do
  if ← depth.isBelow (← depthOf place) then
    match place with
    | .location l => Step.value <$> (SequenceKind.array .tuple).itemAt l.steps depth
    | .value v => throw (.noFeature v.qualifiedTypeName "steps")
    | .expression _ => throw (.noFeature place.typeName "steps")
  else return .null

def notFound (depth : Value) : Except Refusal Notice := do
  let step ← stepAt place depth
  atPlace place .notFound [("depth", depth)]
    (Wording.notFound place.plain depth.plain step.display)

/-- The notice of a class, made from as many things as the class is made from. -/
def ofArguments (c : ErrorClass) (things : List PathArgument) : Except Refusal Notice :=
  match c, things with
  | .malformed, [text, position, expected] => .ok (malformed text position expected)
  | .unresolved, [place, message] => atPlace place c [] message.plain
  | .notAnObject, [place] => atPlace place c [] (Wording.notAnObject place.plain)
  | .notAnArray, [place] => atPlace place c [] (Wording.notAnArray place.plain)
  | .notAContainer, [place] => atPlace place c [] (Wording.notAContainer place.plain)
  | .missingKey, [place, key] =>
    atPlace place c [("key", key.detail)] (Wording.missingKey place.plain key.display)
  | .missingIndex, [place, index] =>
    atPlace place c [("index", index.detail)] (Wording.missingIndex place.plain index.plain)
  | .notFound, [place, depth] => notFound place depth.detail
  | .rootEdit, [operation] => .ok (rootEdit operation)
  | _, _ => .ok (search things)

/-- The notice of a class that is called by a name with what is handed in. -/
def make (name : String) (c : ErrorClass) (things : List PathArgument) : Except Refusal Notice := do
  if let some parameters := c.parameters? then
    Signature.check ⟨name, "self" :: parameters⟩ (things.length + 1)
  ofArguments c things

end Notice

/-- The class of the errors with which a search meets an obstacle. -/
def Obstacle.errorClass : Obstacle → ErrorClass
  | notAnObject => .notAnObject
  | notAnArray => .notAnArray
  | notAContainer => .notAContainer
  | missingKey _ => .missingKey
  | missingIndex _ => .missingIndex

/-- What an obstacle is about, besides its place. -/
def Obstacle.details : Obstacle → List (String × Value)
  | missingKey name => [("key", .text name)]
  | missingIndex position => [("index", .int position)]
  | _ => []

namespace Error

def errorClass : Error → ErrorClass
  | malformed _ => .malformed
  | unresolved _ obstacle => obstacle.errorClass
  | notFound _ _ => .notFound
  | rootEdit _ => .rootEdit
  | argument cause => .fault cause.fault
  | refused cause => .fault cause.fault

def details : Error → List (String × Value)
  | malformed m => [("position", .int m.position), ("expected", .text m.expected.wording)]
  | unresolved place obstacle => ("path", place.value) :: obstacle.details
  | notFound place depth => [("path", place.value), ("depth", .int depth)]
  | rootEdit operation => [("operation", .text operation)]
  | argument _ | refused _ => []

/-- What a caller gets to see of an error. -/
def notice (e : Error) : Notice := ⟨e.errorClass, e.details, e.message⟩

end Error

/-- A notice made up about an obstacle at a location is that of the error which a search would
report there. -/
theorem Notice.ofArguments_obstacle (l : Location) (o : Obstacle) :
    Notice.ofArguments o.errorClass
        (.location l :: o.details.map fun d => PathArgument.value d.2) =
      .ok (Error.unresolved l o).notice := by
  cases o <;> rfl

end TreeQuery
