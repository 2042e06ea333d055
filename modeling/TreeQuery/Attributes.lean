import TreeQuery.Reading

/-!
# Records by their attributes

The members of a record are its attributes, and they are set and removed as such. Two names are
reserved: under the one a record keeps its type, under the other the table of its members. A member
can have such a name and is found like any other, but it can be neither set nor removed. The access by
attributes is that of the record reading but for these two names.
-/

namespace TreeQuery

/-- What a record keeps under a name of its own. -/
inductive Reserved
  | type
  | table
  deriving DecidableEq

namespace Reserved

def ofName? (name : String) : Option Reserved :=
  if name = "__class__" then some type
  else if name = "__dict__" then some table
  else none

/-- Why nothing can be set there. -/
def setting (s : Store) (child : Node) : Reserved → Refusal
  | type => .notType (s.value child).qualifiedTypeName
  | table => .readOnly

/-- Why nothing can be removed there. -/
def removal : Reserved → Refusal
  | type => .typeKept
  | table => .readOnly

/-- The sort of fault that a refused edit is. -/
def fault : Reserved → Fault
  | type => .type
  | table => .feature

variable (kept : Reserved)

@[simp] theorem fault_setting (s : Store) (child : Node) :
    (kept.setting s child).fault = kept.fault := by
  cases kept <;> rfl

@[simp] theorem fault_removal : kept.removal.fault = kept.fault := by
  cases kept <;> rfl

end Reserved

/-- What a record keeps under the name of a step. -/
def Step.reserved? : Step → Option Reserved
  | key name => Reserved.ofName? name
  | index _ => none

/-- What a record keeps under the last step of a location. -/
def Location.reserved? (place : Location) : Option Reserved := place.last?.bind Step.reserved?

namespace Access

/-- The access to records and lists that sets and removes members as attributes. -/
def attributes : Access :=
  { Reading.records.access with
    setMember s n name child :=
      match Reserved.ofName? name with
      | some kept => .error (kept.setting s child)
      | none => Reading.records.setMemberOf s n name child
    removeMember s n name :=
      match Reserved.ofName? name with
      | some kept => .error kept.removal
      | none => Reading.records.removeMemberOf s n name }

variable (s : Store) (n : Node) (step : Step)

theorem setChild_attributes (child : Node) :
    attributes.setChild s n child step =
      match step.reserved? with
      | some kept => .error (kept.setting s child)
      | none => Reading.records.access.setChild s n child step := by
  cases step <;> rfl

theorem removeChild_attributes :
    attributes.removeChild s n step =
      match step.reserved? with
      | some kept => .error kept.removal
      | none => Reading.records.access.removeChild s n step := by
  cases step <;> rfl

end Access

end TreeQuery
