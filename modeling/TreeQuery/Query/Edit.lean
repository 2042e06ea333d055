import TreeQuery.Query.Walk

/-!
# Reading and editing at one location

Every action follows the location anew from the root, so a location that has gone is noticed
and nothing else is touched. Nothing is ever created on the way: the slot must be there. The
root itself has no slot and can only be read.
-/

namespace TreeQuery

variable {α : Type} (a : Access)

/-- Reports that a location ends early. -/
def reportMissing (place : Location) (depth : Nat) : Action α := do
  Action.record (.notFound place depth)
  throw (.notFound place depth)

/-- Follows steps from a node that lies `depth` steps down a location. -/
def descend (place : Location) : List Step → Nat → Node → Action Node
  | [], _, n => return n
  | step :: rest, depth, n => do
    match ← Action.read (a.child? · n step) with
    | some child => descend place rest (depth + 1) child
    | none => reportMissing place depth

/-- The node at a location. -/
def nodeAt (root : Node) (place : Location) : Action Node :=
  descend a place place.steps 0 root

/-- The node at a location, or a default where the location cannot be followed. -/
def nodeAtD (root : Node) (place : Location) (default : Node) : Action Node :=
  tryCatch (nodeAt a root place) fun e =>
    match e with
    | .notFound _ _ => return default
    | e => throw e

/-- The container that holds the last step of a location, and that step. -/
def slotAt (operation : String) (root : Node) (place : Location) : Action (Node × Step) := do
  match place.last? with
  | none => throw (.rootEdit operation)
  | some last =>
    let holder ← descend a place place.steps.dropLast 0 root
    match ← Action.read (a.child? · holder last) with
    | some _ => return (holder, last)
    | none => reportMissing place (place.length - 1)

/-- Puts a node into the slot at a location. -/
def setAt (root : Node) (place : Location) (child : Node) : Action Unit := do
  let (holder, last) ← slotAt a "replace" root place
  Action.write (← Action.read (a.setChild · holder child last))
  Action.record (.changed place)

/-- Takes the slot at a location away and gives the node that was in it. -/
def removeAt (root : Node) (place : Location) : Action Node := do
  let (holder, last) ← slotAt a "remove" root place
  let (child, store) ← Action.read (a.removeChild · holder last)
  Action.write store
  Action.record (.removed place)
  return child

end TreeQuery
