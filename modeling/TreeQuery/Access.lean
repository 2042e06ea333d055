import TreeQuery.Error
import TreeQuery.Store.Basic

/-!
# The interface to nodes

Searches and edits know trees only through an access: which nodes are objects and arrays, how
to reach their children, and how to change their slots. The operations on members expect an
object and those on elements an array; a child is fetched or changed only where it is known to
be. Asked for anything else, an access may refuse. What values do when they are handled without
such care is a matter of their own, in the module on handling values.
-/

namespace TreeQuery

/-- An interface to the nodes of a store. -/
structure Access where
  isObject : Store → Node → Bool
  isArray : Store → Node → Bool
  hasMember : Store → Node → String → Except Refusal Bool
  member : Store → Node → String → Except Refusal Node
  members : Store → Node → Except Refusal (List (String × Node))
  length : Store → Node → Except Refusal Nat
  element : Store → Node → Nat → Except Refusal Node
  elements : Store → Node → Except Refusal (List Node)
  setMember : Store → Node → String → Node → Except Refusal Store
  setElement : Store → Node → Nat → Node → Except Refusal Store
  removeMember : Store → Node → String → Except Refusal (Node × Store)
  removeElement : Store → Node → Nat → Except Refusal (Node × Store)

namespace Access

variable (a : Access) (s : Store) (n : Node)

def isScalar : Bool := !a.isObject s n && !a.isArray s n

/-- The member of an object under a name, if it has one. -/
def member? (name : String) : Except Refusal (Option Node) := do
  if ← a.hasMember s n name then return some (← a.member s n name) else return none

/-- The element of an array at a place, if it reaches that far. -/
def element? (place : Nat) : Except Refusal (Option Node) := do
  if place < (← a.length s n) then return some (← a.element s n place) else return none

/-- The child of a node in the slot of a step. -/
def child? : Step → Except Refusal (Option Node)
  | .key name => if a.isObject s n then a.member? s n name else return none
  | .index place => if a.isArray s n then a.element? s n place else return none

/-- The children of an object or an array with the steps to them; scalars have none. -/
def children? : Except Refusal (Option (List (Step × Node))) := do
  if a.isObject s n then
    return some ((← a.members s n).map fun e => (.key e.1, e.2))
  else if a.isArray s n then
    return some ((← a.elements s n).zipIdx.map fun e => (.index e.2, e.1))
  else return none

/-- Puts a node into the slot of a step. -/
def setChild (child : Node) : Step → Except Refusal Store
  | .key name => a.setMember s n name child
  | .index place => a.setElement s n place child

/-- Takes the slot of a step away and gives the node that was in it. -/
def removeChild : Step → Except Refusal (Node × Store)
  | .key name => a.removeMember s n name
  | .index place => a.removeElement s n place

end Access

end TreeQuery
