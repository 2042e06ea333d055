import TreeQuery.Access

/-!
# Readings of a store

A reading says which kinds of containers count as objects and arrays and which of those can be
edited, and it yields an access to the containers of a store. What a reading sees of a node is
`members?` and `elements?`; the lemmas give every operation of the access in terms of these.

The standard reading takes mappings and frozen mappings as objects and every kind of array as
an array. The record reading takes records as objects and lists as arrays; all else is a
scalar to it.
-/

namespace TreeQuery

/-- Which kinds of containers count as objects and arrays, and which of them can be edited. -/
structure Reading where
  objects : ObjectKind → Bool
  arrays : ArrayKind → Bool
  editableObjects : ObjectKind → Bool
  editableArrays : ArrayKind → Bool

namespace Reading

/-- Mappings, lists and their fixed kin. -/
def standard : Reading where
  objects kind := kind ≠ .record
  arrays _ := true
  editableObjects kind := kind = .mapping
  editableArrays kind := kind = .list

/-- Records and lists only. It lets members of any name be edited, as those of a mapping. -/
def records : Reading where
  objects kind := kind = .record
  arrays kind := kind = .list
  editableObjects kind := kind = .record
  editableArrays kind := kind = .list

variable (r : Reading) (s : Store) (n : Node)

/-- The members of a node that counts as an object. -/
def members? : Option (Members Node) :=
  match s.cell? n with
  | some (.object kind members) => if r.objects kind then some members else none
  | _ => none

/-- The elements of a node that counts as an array, with its kind. -/
def elements? : Option (ArrayKind × List Node) :=
  match s.cell? n with
  | some (.array kind items) => if r.arrays kind then some (kind, items) else none
  | _ => none

/-- The child of a node in the slot of a step. -/
def child? : Step → Option Node
  | .key name => (r.members? s n).bind (·.get? name)
  | .index place => (r.elements? s n).bind (·.2[place]?)

/-- The children of a node with the steps to them, in order; a scalar has none. -/
def children? : Option (List (Step × Node)) :=
  match r.members? s n with
  | some members => some (members.entries.map fun e => (.key e.1, e.2))
  | none => (r.elements? s n).map fun array => array.2.zipIdx.map fun e => (.index e.2, e.1)

def objectOf : Except Refusal (Members Node) :=
  match r.members? s n with
  | some members => .ok members
  | none => .error (.noFeature (s.typeName n) "items")

def arrayOf : Except Refusal (ArrayKind × List Node) :=
  match r.elements? s n with
  | some array => .ok array
  | none => .error (.notReadable (s.typeName n))

/-- The number of slots, whatever the shape. -/
def lengthOf : Except Refusal Nat :=
  match r.members? s n with
  | some members => .ok members.size
  | none => return (← r.arrayOf s n).2.length

def memberOf (name : String) : Except Refusal Node := do
  match (← r.objectOf s n).get? name with
  | some child => return child
  | none => throw (.noKey (.text name))

def elementOf (place : Nat) : Except Refusal Node := do
  let (kind, items) ← r.arrayOf s n
  match items[place]? with
  | some child => return child
  | none => throw (.beyondEnd (.array kind))

/-- The address and the members of an object that can be edited. -/
def editableObject : Except Refusal (Nat × ObjectKind × Members Node) :=
  match n, s.cell? n with
  | .container address, some (.object kind members) =>
    if r.editableObjects kind then .ok (address, kind, members)
    else .error (.notEditable kind.typeName .object)
  | _, _ => .error (.notEditable (s.typeName n) .object)

/-- The address and the elements of an array that can be edited. -/
def editableArray : Except Refusal (Nat × ArrayKind × List Node) :=
  match n, s.cell? n with
  | .container address, some (.array kind items) =>
    if r.editableArrays kind then .ok (address, kind, items)
    else .error (.notEditable kind.typeName .array)
  | _, _ => .error (.notEditable (s.typeName n) .array)

/-- Sets a member, which need not be there before. -/
def setMemberOf (name : String) (child : Node) : Except Refusal Store := do
  let (address, kind, members) ← r.editableObject s n
  return s.write address (.object kind (members.insert name child))

/-- Sets an element that is there. -/
def setElementOf (place : Nat) (child : Node) : Except Refusal Store := do
  let (address, kind, items) ← r.editableArray s n
  if place < items.length then return s.write address (.array kind (items.set place child))
  else throw .assignmentBeyondEnd

def removeMemberOf (name : String) : Except Refusal (Node × Store) := do
  let (address, kind, members) ← r.editableObject s n
  match members.get? name with
  | some child => return (child, s.write address (.object kind (members.erase name)))
  | none => throw (.noKey (.text name))

/-- Removes an element, and later ones move up. -/
def removeElementOf (place : Nat) : Except Refusal (Node × Store) := do
  let (address, kind, items) ← r.editableArray s n
  match items[place]? with
  | some child => return (child, s.write address (.array kind (items.eraseIdx place)))
  | none => throw .removalBeyondEnd

/-- The access to the containers of a store under a reading. -/
def access : Access where
  isObject s n := (r.members? s n).isSome
  isArray s n := (r.elements? s n).isSome
  hasMember s n name := return (← r.objectOf s n).contains name
  member := r.memberOf
  members s n := return (← r.objectOf s n).entries
  length := r.lengthOf
  element := r.elementOf
  elements s n := return (← r.arrayOf s n).2
  setMember := r.setMemberOf
  setElement := r.setElementOf
  removeMember := r.removeMemberOf
  removeElement := r.removeElementOf

@[simp] theorem access_isObject : r.access.isObject s n = (r.members? s n).isSome := rfl

@[simp] theorem access_isArray : r.access.isArray s n = (r.elements? s n).isSome := rfl

@[simp] theorem members?_scalar (content : Scalar) : r.members? s (.scalar content) = none := rfl

@[simp] theorem elements?_scalar (content : Scalar) : r.elements? s (.scalar content) = none := rfl

/-- No node is an object and an array at once. -/
theorem elements?_eq_none {members : Members Node} (h : r.members? s n = some members) :
    r.elements? s n = none := by
  unfold members? at h
  unfold elements?
  split at h <;> simp_all

theorem access_member? {members : Members Node} (h : r.members? s n = some members)
    (name : String) : r.access.member? s n name = .ok (members.get? name) := by
  have ho : r.objectOf s n = .ok members := by simp [objectOf, h]
  simp only [Access.member?, access, memberOf, ho, bind, Except.bind, pure, Except.pure,
    Members.contains]
  cases members.get? name <;> simp

theorem access_element? {kind : ArrayKind} {items : List Node}
    (h : r.elements? s n = some (kind, items)) (place : Nat) :
    r.access.element? s n place = .ok items[place]? := by
  have hm : r.members? s n = none := by
    cases hm : r.members? s n with
    | none => rfl
    | some members => rw [r.elements?_eq_none s n hm] at h; cases h
  have ha : r.arrayOf s n = .ok (kind, items) := by simp [arrayOf, h]
  have he : r.elementOf s n place = match items[place]? with
      | some child => .ok child
      | none => .error (.beyondEnd (.array kind)) := by
    simp only [elementOf, ha, bind, Except.bind]
    cases items[place]? <;> rfl
  simp only [Access.element?, access, lengthOf, hm, ha, he, bind, Except.bind, pure, Except.pure]
  by_cases hp : place < items.length
  · simp [hp]
  · simp [hp]

/-- What the access fetches in the slot of a step is what the reading sees there. -/
@[simp] theorem access_child? (step : Step) : r.access.child? s n step = .ok (r.child? s n step) := by
  cases step with
  | key name =>
    rcases Option.eq_none_or_eq_some (r.members? s n) with h | ⟨members, h⟩
    · simp [Access.child?, child?, h, pure, Except.pure]
    · simp [Access.child?, child?, h, r.access_member? s n h]
  | index place =>
    rcases Option.eq_none_or_eq_some (r.elements? s n) with h | ⟨array, h⟩
    · simp [Access.child?, child?, h, pure, Except.pure]
    · simp [Access.child?, child?, h, r.access_element? s n h]

/-- What the access lists below a node is what the reading sees there. -/
@[simp] theorem access_children? : r.access.children? s n = .ok (r.children? s n) := by
  rcases Option.eq_none_or_eq_some (r.members? s n) with h | ⟨members, h⟩
  · rcases Option.eq_none_or_eq_some (r.elements? s n) with he | ⟨array, he⟩
    · simp [Access.children?, children?, h, he, pure, Except.pure]
    · simp [Access.children?, children?, access, arrayOf, h, he, bind, Except.bind, pure,
        Except.pure]
  · simp [Access.children?, children?, access, objectOf, h, bind, Except.bind, pure, Except.pure]

/-- Whether a container counts as an object or an array. -/
def counts : Cell → Bool
  | .array kind _ => r.arrays kind
  | .object kind _ => r.objects kind

/-- Whether the slots of a container can be changed. -/
def editable : Cell → Bool
  | .array kind _ => r.editableArrays kind
  | .object kind _ => r.editableObjects kind

/-- A reading sees the slots of the containers that count. -/
theorem child?_eq (step : Step) :
    r.child? s n step = ((s.cell? n).filter r.counts).bind (·.child? step) := by
  cases hc : s.cell? n with
  | none => cases step <;> simp [child?, members?, elements?, hc]
  | some cell =>
    cases cell with
    | array kind items =>
      cases ha : r.arrays kind <;> cases step <;>
        simp [child?, members?, elements?, hc, counts, ha, Cell.child?, Option.filter]
    | object kind members =>
      cases ho : r.objects kind <;> cases step <;>
        simp [child?, members?, elements?, hc, counts, ho, Cell.child?, Option.filter]

end Reading

/-- The shape of the containers that a step leads into. -/
def Step.shape : Step → Shape
  | key _ => .object
  | index _ => .array

namespace Reading

variable (r : Reading) (s : Store)

theorem access_setChild {address : Nat} {cell : Cell} {step : Step} {old : Node}
    (hc : s.cell? (.container address) = some cell) (hs : cell.child? step = some old)
    (child : Node) :
    r.access.setChild s (.container address) child step =
      if r.editable cell then .ok (s.write address (cell.put child step))
      else .error (.notEditable cell.typeName step.shape) := by
  cases cell with
  | array kind items =>
    cases step with
    | key name => cases hs
    | index place =>
      obtain ⟨hp, -⟩ := List.getElem?_eq_some_iff.1 hs
      cases he : r.editableArrays kind <;>
        simp [Access.setChild, access, setElementOf, editableArray, hc, he, editable,
          hp, bind, Except.bind, pure, Except.pure, Cell.put, Cell.typeName,
          Step.shape]
  | object kind members =>
    cases step with
    | index place => cases hs
    | key name =>
      cases he : r.editableObjects kind <;>
        simp [Access.setChild, access, setMemberOf, editableObject, hc, he, editable, bind,
          Except.bind, pure, Except.pure, Cell.put, Cell.typeName, Step.shape]

theorem access_removeChild {address : Nat} {cell : Cell} {step : Step} {old : Node}
    (hc : s.cell? (.container address) = some cell) (hs : cell.child? step = some old) :
    r.access.removeChild s (.container address) step =
      if r.editable cell then .ok (old, s.write address (cell.drop step))
      else .error (.notEditable cell.typeName step.shape) := by
  cases cell with
  | array kind items =>
    cases step with
    | key name => cases hs
    | index place =>
      have hi : items[place]? = some old := hs
      cases he : r.editableArrays kind <;>
        simp [Access.removeChild, access, removeElementOf, editableArray, hc, he, editable,
          hi, bind, Except.bind, pure, Except.pure, Cell.drop, Cell.typeName,
          Step.shape]
  | object kind members =>
    cases step with
    | index place => cases hs
    | key name =>
      have hm : members.get? name = some old := hs
      cases he : r.editableObjects kind <;>
        simp [Access.removeChild, access, removeMemberOf, editableObject, hc, he, hm, editable,
          bind, Except.bind, pure, Except.pure, Cell.drop, Cell.typeName, Step.shape]

end Reading

end TreeQuery
