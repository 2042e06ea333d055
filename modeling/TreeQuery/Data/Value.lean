import TreeQuery.Data.Members

/-!
# Trees

A tree is a scalar, an array or an object. Arrays and objects come in several kinds, which
decide whether they can be edited, how they are written and which of them compare equal.
Texts and byte sequences are scalars: a path never leads into one.
-/

namespace TreeQuery

inductive Scalar
  | null
  | bool (value : Bool)
  | int (value : Int)
  /-- A double, carried as its shortest decimal literal. -/
  | float (literal : String)
  | text (value : String)
  | bytes (data : List UInt8)
  /-- A byte sequence that can be edited in place by its owner. -/
  | buffer (data : List UInt8)
  deriving DecidableEq

/-- Lists can be edited; tuples and ranges of integers are fixed. -/
inductive ArrayKind
  | list
  | tuple
  | range
  deriving DecidableEq

/-- Mappings can be edited; frozen mappings are not. Records hold named attributes. -/
inductive ObjectKind
  | mapping
  | frozen
  | record
  deriving DecidableEq

inductive Value
  | scalar (content : Scalar)
  | array (kind : ArrayKind) (items : List Value)
  | object (kind : ObjectKind) (members : List (String × Value))

namespace Scalar

def typeName : Scalar → String
  | null => "NoneType"
  | bool _ => "bool"
  | int _ => "int"
  | float _ => "float"
  | text _ => "str"
  | bytes _ => "bytes"
  | buffer _ => "bytearray"

end Scalar

namespace ArrayKind

def typeName : ArrayKind → String
  | list => "list"
  | tuple => "tuple"
  | range => "range"

end ArrayKind

namespace ObjectKind

def typeName : ObjectKind → String
  | mapping => "dict"
  | frozen => "mappingproxy"
  | record => "SimpleNamespace"

end ObjectKind

namespace Value

def null : Value := scalar .null

instance : Inhabited Value := ⟨null⟩

def text (value : String) : Value := scalar (.text value)

def int (value : Int) : Value := scalar (.int value)

/-- The integers `0, …, n - 1`. -/
def range (n : Nat) : Value :=
  array .range ((List.range n).map fun (i : Nat) => int i)

/-- An object from entries in any order of writing: a repeated name keeps its first place
and takes the last value. -/
def ofEntries (kind : ObjectKind) (entries : List (String × Value)) : Value :=
  object kind (Members.ofList entries).entries

def typeName : Value → String
  | scalar content => content.typeName
  | array kind _ => kind.typeName
  | object kind _ => kind.typeName

/-- The type name as it stands in messages about handling a value; for records it is qualified. -/
def qualifiedTypeName : Value → String
  | object .record _ => "types.SimpleNamespace"
  | value => value.typeName

/-- The type name under which the order of a value is asked for: a frozen mapping is compared as
the mapping that it guards. -/
def orderedTypeName : Value → String
  | object .frozen members => (object .mapping members).typeName
  | value => value.qualifiedTypeName

/-- The integer that a value is; truth values count as zero and one. -/
def integer? : Value → Option Int
  | scalar (.bool value) => some (if value then 1 else 0)
  | scalar (.int value) => some value
  | _ => none

end Value

end TreeQuery
