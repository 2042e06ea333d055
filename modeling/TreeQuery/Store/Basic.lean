import TreeQuery.Data.Value
import TreeQuery.Path.Basic

/-!
# Shared containers

Trees are searched and edited in place, and one container may be reached along several paths
or kept from an earlier search. So containers live in a store under addresses. A node is a
scalar, which is its own content, or the address of a container; two nodes are the same node
when they are equal. An edit replaces one cell and shows wherever its address is held.
-/

namespace TreeQuery

/-- A place in a tree: a scalar or a reference to a container. -/
inductive Node
  | scalar (content : Scalar)
  | container (address : Nat)
  deriving DecidableEq

/-- The slots of one container. -/
inductive Cell
  | array (kind : ArrayKind) (items : List Node)
  | object (kind : ObjectKind) (members : Members Node)
  deriving DecidableEq

/-- All containers by address. -/
structure Store where
  cells : Array Cell
  deriving DecidableEq

namespace Node

def null : Node := scalar .null

def isNull (n : Node) : Bool := n = null

end Node

namespace Cell

def typeName : Cell → String
  | array kind _ => kind.typeName
  | object kind _ => kind.typeName

/-- The nodes in the slots of a container, in order. -/
def children : Cell → List Node
  | array _ items => items
  | object _ members => members.values

/-- The node in the slot of a step. -/
def child? : Cell → Step → Option Node
  | array _ items, .index place => items[place]?
  | object _ members, .key name => members.get? name
  | _, _ => none

/-- The slots with another node in that of a step. -/
def put (child : Node) : Cell → Step → Cell
  | array kind items, .index place => array kind (items.set place child)
  | object kind members, .key name => object kind (members.insert name child)
  | cell, _ => cell

/-- The slots without that of a step. -/
def drop : Cell → Step → Cell
  | array kind items, .index place => array kind (items.eraseIdx place)
  | object kind members, .key name => object kind (members.erase name)
  | cell, _ => cell

/-- A slot that is there holds what was put into it, and the others are as before. -/
theorem child?_put {cell : Cell} {step other : Step} {old child : Node}
    (h : cell.child? step = some old) :
    (cell.put child step).child? other = if step = other then some child else cell.child? other := by
  cases cell with
  | array kind items =>
    cases step with
    | key name => cases h
    | index place =>
      cases other with
      | key name => simp [put, child?]
      | index i =>
        obtain ⟨hp, -⟩ := List.getElem?_eq_some_iff.1 h
        by_cases hi : place = i
        · subst hi; simp [put, child?, hp]
        · simp [put, child?, hi]
  | object kind members =>
    cases step with
    | index place => cases h
    | key name => cases other <;> simp [put, child?]

end Cell

namespace Store

def empty : Store := ⟨#[]⟩

/-- The container that a node refers to. -/
def cell? (s : Store) : Node → Option Cell
  | .scalar _ => none
  | .container address => s.cells[address]?

def typeName (s : Store) (n : Node) : String :=
  match n with
  | .scalar content => content.typeName
  | .container _ => ((s.cell? n).map Cell.typeName).getD Scalar.null.typeName

/-- A new container. -/
def push (s : Store) (cell : Cell) : Node × Store :=
  (.container s.cells.size, ⟨s.cells.push cell⟩)

/-- Gives the container at an address new slots. -/
def write (s : Store) (address : Nat) (cell : Cell) : Store :=
  ⟨s.cells.setIfInBounds address cell⟩

@[simp] theorem cell?_scalar (s : Store) (content : Scalar) : s.cell? (.scalar content) = none := rfl

@[simp] theorem cell?_null (s : Store) : s.cell? .null = none := rfl

theorem cell?_push (s : Store) (cell : Cell) (n : Node) :
    (s.push cell).2.cell? n = if n = (s.push cell).1 then some cell else s.cell? n := by
  cases n with
  | scalar content => simp [push]
  | container address =>
    simp only [push, cell?, Array.getElem?_push, Node.container.injEq]

theorem cell?_write (s : Store) (address : Nat) (cell : Cell) (n : Node) :
    (s.write address cell).cell? n =
      if n = .container address then (s.cell? n).map (fun _ => cell) else s.cell? n := by
  cases n with
  | scalar content => simp [write]
  | container a =>
    simp only [write, cell?, Array.getElem?_setIfInBounds, Node.container.injEq]
    by_cases h : address = a
    · subst h
      by_cases hs : address < s.cells.size <;> simp [hs]
    · simp [h, Ne.symm h]

@[simp] theorem size_write (s : Store) (address : Nat) (cell : Cell) :
    (s.write address cell).cells.size = s.cells.size := by
  simp [write]

theorem write_write (s : Store) (address : Nat) (c d : Cell) :
    (s.write address c).write address d = s.write address d := by
  simp [write]

mutual

/-- Puts a tree into the store, every container of it a new one. -/
def load (s : Store) : Value → Node × Store
  | .scalar content => (.scalar content, s)
  | .array kind items =>
    let (nodes, s) := s.loadItems items
    s.push (.array kind nodes)
  | .object kind members =>
    let (entries, s) := s.loadMembers members
    s.push (.object kind (.ofList entries))

def loadItems (s : Store) : List Value → List Node × Store
  | [] => ([], s)
  | item :: rest =>
    let (node, s) := s.load item
    let (nodes, s) := s.loadItems rest
    (node :: nodes, s)

def loadMembers (s : Store) : List (String × Value) → List (String × Node) × Store
  | [] => ([], s)
  | (name, value) :: rest =>
    let (node, s) := s.load value
    let (entries, s) := s.loadMembers rest
    ((name, node) :: entries, s)

end

/-- The tree below a node, down to a depth; what lies deeper is cut off. -/
def treeTo (s : Store) : Nat → Node → Value
  | _, .scalar content => .scalar content
  | 0, .container _ => .null
  | depth + 1, n =>
    match s.cell? n with
    | none => .null
    | some (.array kind items) => .array kind (items.map (s.treeTo depth))
    | some (.object kind members) =>
      .object kind (members.entries.map fun e => (e.1, s.treeTo depth e.2))

/-- The tree below a node. No path without a repeated container is longer than the store, so
only a container that holds itself is cut off. -/
def value (s : Store) (n : Node) : Value := s.treeTo s.cells.size n

end Store

end TreeQuery
