import TreeQuery.Path.Checked

/-!
# Paths as they are handed in

A path is handed in as a search path, as a location, or as a value: a text, or a sequence of
steps. Paths of different sorts are never equal, whatever they denote.
-/

namespace TreeQuery

/-- A segment with its parts named. -/
def Segment.display (s : Segment) : String :=
  let parts : Value × Value :=
    match s with
    | key name _ => (.text name, .null)
    | index position _ => (.null, .int position)
    | wildcard => (.null, .null)
  enclosed "Segment(" ")"
    [ "kind=<SegmentKind." ++ s.kind.word.toUpper ++ ": " ++ Text.quoted s.kind.word ++ ">",
      "name=" ++ parts.1.display, "index=" ++ parts.2.display ]

/-- A search path with its parts named. -/
def Expression.display (e : Expression) : String :=
  enclosed "PathExpression(" ")"
    ["segments=" ++ ArrayKind.tuple.display (e.segments.map Segment.display)]

/-- A location with its parts named. -/
def Location.display (l : Location) : String :=
  enclosed "ResolvedPath(" ")"
    ["steps=" ++ ArrayKind.tuple.display (l.steps.map (·.value.display))]

/-- A path as it is handed in. -/
inductive PathArgument
  | expression (e : Expression)
  | location (l : Location)
  | value (v : Value)

namespace PathArgument

def typeName : PathArgument → String
  | expression _ => "PathExpression"
  | location _ => "ResolvedPath"
  | value v => v.typeName

def display : PathArgument → String
  | expression e => e.display
  | location l => l.display
  | value v => v.display

/-- The text of what is handed in where it stands alone. -/
def plain : PathArgument → String
  | expression e => e.text
  | location l => l.text
  | value v => v.plain

/-- The items that are met when what is handed in is gone through one by one. -/
def steps : PathArgument → Except Refusal (List Value)
  | expression e => .ok (e.segments.map fun s => .text s.text)
  | location l => .ok (l.steps.map Step.value)
  | value v => v.items

/-- The location that an edit is asked for. -/
def toLocation : PathArgument → Except Error Location
  | location l => .ok l
  | value (.scalar (.text text)) => (Location.read text).mapError .malformed
  | value v@(.array _ _) | value v@(.scalar (.bytes _)) | value v@(.scalar (.buffer _)) =>
    Location.ofValue v
  | argument => .error (.argument (.notLocation argument.typeName))

def equal : PathArgument → PathArgument → Bool
  | expression e, expression f => e = f
  | location l, location m => l = m
  | value v, value w => v.equal w
  | _, _ => false

/-- Whether a path equals itself, which only a number that is undefined does not. -/
def equalsItself : PathArgument → Bool
  | value v => v.equalsItself
  | _ => true

/-- Which of some paths equal each other: a row for each of them. -/
def equalities (paths : List PathArgument) : List (List Bool) :=
  paths.zipIdx.map fun p => paths.zipIdx.map fun q =>
    if p.2 = q.2 then p.1.equalsItself else p.1.equal q.1

end PathArgument

end TreeQuery
