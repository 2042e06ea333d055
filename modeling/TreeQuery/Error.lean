import TreeQuery.Data.Refusal
import TreeQuery.Path.Reader

/-!
# What can go wrong

Errors are causes. A text may be no path, a search may insist on what a tree does not have, a
location may have gone, the root cannot be edited through a path, an argument may be of the
wrong type or out of range, and a value may be asked for what it cannot give. The wording of
every cause but the last is kept here.
-/

namespace TreeQuery

open Text (quoted)

/-- A value handed in that cannot be used. -/
inductive ArgumentError
  | notText (typeName : String)
  | notPath (typeName : String)
  | notLocation (typeName : String)
  | notStep (got : Value)
  | negativeStep (got : Int)
  | unknownKind (got : Value)
  | nameNotText (kind : Segment.Kind) (got : Value)
  | indexNotInteger (kind : Segment.Kind) (got : Value)
  | negativeIndex (kind : Segment.Kind) (got : Int)
  | strayIndex (kind : Segment.Kind)
  | strayName (kind : Segment.Kind)
  | wildcardContent
  | notTruthValue (setting : String) (got : Value)
  | capacityNotInteger (got : Value)
  | capacityTooSmall (got : Int)

namespace ArgumentError

/-- Whether an argument is of the wrong type or, being of the right one, has a wrong value. -/
def fault : ArgumentError → Fault
  | notText _ | notPath _ | notLocation _ | notStep _ => .type
  | nameNotText _ _ | indexNotInteger _ _ | notTruthValue _ _ | capacityNotInteger _ => .type
  | negativeStep _ | unknownKind _ | negativeIndex _ _ | strayIndex _ | strayName _ => .value
  | wildcardContent | capacityTooSmall _ => .value

def message : ArgumentError → String
  | notText typeName => "Path text must be a str, got " ++ typeName
  | notPath typeName => "Expected path text or a PathExpression, got " ++ typeName
  | notLocation typeName => "Expected a ResolvedPath, path text or steps, got " ++ typeName
  | notStep got => "Path steps must be str or int, got " ++ got.display
  | negativeStep got => "Index steps must be >= 0, got " ++ got.repr
  | unknownKind got => got.display ++ " is not a valid SegmentKind"
  | nameNotText kind got => kind.word ++ " segment requires a str name, got " ++ got.display
  | indexNotInteger kind got => kind.word ++ " segment requires an int index, got " ++ got.display
  | negativeIndex kind got => kind.word ++ " segment index must be >= 0, got " ++ got.repr
  | strayIndex kind => kind.word ++ " segment cannot carry an index"
  | strayName kind => kind.word ++ " segment cannot carry a name"
  | wildcardContent => "wildcard segment carries neither a name nor an index"
  | notTruthValue setting got => setting ++ " must be a bool, got " ++ got.display
  | capacityNotInteger got => "max_size must be an int, got " ++ got.display
  | capacityTooSmall got => "max_size must be >= 1, got " ++ got.repr

end ArgumentError

/-- Why a segment that must be satisfied is not. -/
inductive Obstacle
  | notAnObject
  | notAnArray
  | notAContainer
  | missingKey (name : String)
  | missingIndex (position : Nat)
  deriving DecidableEq

/-- A step as a value. -/
def Step.value : Step → Value
  | key name => .text name
  | index position => .int position

/-! The texts of errors with details, which are texts already here: what happened where is not
only told of locations, since callers can also make errors up. -/

namespace Wording

def malformed (text position expected : String) : String :=
  "Invalid path " ++ text ++ " at position " ++ position ++ ": expected " ++ expected

def notAnObject (place : String) : String := "Expected an object at '" ++ place ++ "'"

def notAnArray (place : String) : String := "Expected an array at '" ++ place ++ "'"

def notAContainer (place : String) : String :=
  "Expected an array or an object at '" ++ place ++ "'"

def missingKey (place key : String) : String :=
  "Missing required key " ++ key ++ " at '" ++ place ++ "'"

def missingIndex (place index : String) : String :=
  "Missing required index " ++ index ++ " at '" ++ place ++ "'"

def notFound (place depth step : String) : String :=
  "Path '" ++ place ++ "' not found: step " ++ depth ++ " (" ++ step ++ ") is missing"

def rootEdit (operation : String) : String :=
  "Cannot " ++ operation ++ " the root value in place; the root is owned by the caller"

end Wording

/-- The text of an obstacle met below a location. -/
def Obstacle.message (l : Location) : Obstacle → String
  | notAnObject => Wording.notAnObject l.text
  | notAnArray => Wording.notAnArray l.text
  | notAContainer => Wording.notAContainer l.text
  | missingKey name => Wording.missingKey l.text (quoted name)
  | missingIndex position => Wording.missingIndex l.text position.repr

/-- Everything that a search or an edit may report. -/
inductive Error
  | malformed (cause : Malformed)
  /-- A search met an obstacle at the node of a location. -/
  | unresolved (place : Location) (obstacle : Obstacle)
  /-- A location cannot be followed further than its first `depth` steps. -/
  | notFound (place : Location) (depth : Nat)
  | rootEdit (operation : String)
  | argument (cause : ArgumentError)
  | refused (cause : Refusal)

namespace Error

def message : Error → String
  | malformed m => Wording.malformed (quoted m.text) m.position.repr m.expected.wording
  | unresolved place obstacle => obstacle.message place
  | notFound place depth =>
    let step := ((place.steps[depth]?).map Step.value).getD .null
    Wording.notFound place.text depth.repr step.display
  | rootEdit operation => Wording.rootEdit operation
  | argument cause => cause.message
  | refused cause => cause.message

end Error

end TreeQuery
