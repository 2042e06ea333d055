import TreeQuery.Data.Value
import TreeQuery.Text.Quoted

/-!
# How values are written in messages

Texts are quoted, arrays and objects list their items in order between brackets, and every
fixed kind says what it is, so that values of different kinds are told apart on sight.
-/

namespace TreeQuery

open Text

/-- Items between brackets, separated by commas. -/
def enclosed (left right : String) (items : List String) : String :=
  left ++ ", ".intercalate items ++ right

def Scalar.display : Scalar → String
  | .null => "None"
  | .bool true => "True"
  | .bool false => "False"
  | .int value => value.repr
  | .float literal => literal
  | .text value => quoted value
  | .bytes data => quotedBytes data
  | .buffer data => enclosed "bytearray(" ")" [quotedBuffer data]

/-- A tuple of one item keeps its comma; a range is written by its bounds. -/
def ArrayKind.display : ArrayKind → List String → String
  | .list, items => enclosed "[" "]" items
  | .tuple, [item] => enclosed "(" ",)" [item]
  | .tuple, items => enclosed "(" ")" items
  | .range, items => enclosed "range(" ")" ["0", items.length.repr]

/-- Records write their names as they are and pass over an empty one, the other kinds quote
their names. -/
def ObjectKind.display : ObjectKind → List (String × String) → String
  | .mapping, members => enclosed "\x7b" "\x7d" (members.map fun m => quoted m.1 ++ ": " ++ m.2)
  | .frozen, members =>
    enclosed "mappingproxy(\x7b" "\x7d)" (members.map fun m => quoted m.1 ++ ": " ++ m.2)
  | .record, members =>
    enclosed "namespace(" ")" ((members.filter (·.1 ≠ "")).map fun m => m.1 ++ "=" ++ m.2)

mutual

/-- The text of a value. -/
def Value.display : Value → String
  | .scalar content => content.display
  | .array kind items => kind.display (displayItems items)
  | .object kind members => kind.display (displayMembers members)

def displayItems : List Value → List String
  | [] => []
  | item :: rest => item.display :: displayItems rest

def displayMembers : List (String × Value) → List (String × String)
  | [] => []
  | (name, value) :: rest => (name, value.display) :: displayMembers rest

end

/-- The text of a value where it stands alone: a text is written as it is, and a frozen mapping
like any other mapping. -/
def Value.plain : Value → String
  | .scalar (.text value) => value
  | .object .frozen members => (object .mapping members).display
  | value => value.display

theorem displayItems_eq_map (items : List Value) : displayItems items = items.map Value.display := by
  induction items with
  | nil => rfl
  | cons item rest ih => simp [displayItems, ih]

theorem displayMembers_eq_map (members : List (String × Value)) :
    displayMembers members = members.map fun e => (e.1, e.2.display) := by
  induction members with
  | nil => rfl
  | cons e rest ih => simp [displayMembers, ih]

end TreeQuery
