import TreeQuery.Data.Display
import TreeQuery.Data.Sequence

/-!
# Why a value refuses to be handled

A value can be asked for what it cannot give: for a key or a position that it does not have, for
items although it has none, for a change although it is fixed. The wording of every cause is kept
here, and what sort of fault it is.
-/

namespace TreeQuery

open Text (quoted)

/-- The sorts of faults in handling values. -/
inductive Fault
  | type
  | value
  | position
  | key
  | feature
  | width
  deriving DecidableEq

/-- The two shapes of containers. -/
inductive Shape
  | object
  | array
  deriving DecidableEq

/-- Why a value cannot be handled as asked. Type names are those of the values concerned. -/
inductive Refusal
  | noKey (key : Value)
  /-- What can change cannot be a key. -/
  | changeableKey (typeName : String)
  | negativePosition (key : Value)
  | notOrdered (typeName : String)
  | notPosition (kind : SequenceKind) (typeName : String)
  | widePosition
  | wideRemoval
  | notInteger (typeName : String)
  | notByte
  | notBytes (typeName : String)
  | notPartOfText (typeName : String)
  | beyondEnd (kind : SequenceKind)
  | assignmentBeyondEnd
  | removalBeyondEnd
  | removalFromEmpty (kind : SequenceKind)
  | notSearchable (typeName : String)
  | notCountable (typeName : String)
  | notReadable (typeName : String)
  | notIterable (typeName : String)
  | noFeature (typeName feature : String)
  | notCallable (typeName : String)
  | notEditable (typeName : String) (wanted : Shape)
  | missingArguments (operation : String) (names : List String)
  | extraArguments (operation : String) (taken given : Nat)
  /-- A number in a text has more digits than a runtime takes. -/
  | tooManyDigits (most given : Nat)
  /-- A number has more digits than a runtime writes. -/
  | tooLargeToWrite (most : Nat)
  /-- The type of a record can only be replaced by a type. -/
  | notType (typeName : String)
  | typeKept
  | readOnly

/-- The word for a kind of sequence. -/
def SequenceKind.word : SequenceKind → String
  | text => "string"
  | bytes => "byte"
  | buffer => "bytearray"
  | array kind => kind.typeName

namespace Refusal

def fault : Refusal → Fault
  | noKey _ => .key
  | negativePosition _ | widePosition | beyondEnd _ => .position
  | assignmentBeyondEnd | removalBeyondEnd | removalFromEmpty _ => .position
  | notByte | tooManyDigits _ _ | tooLargeToWrite _ => .value
  | noFeature _ _ | readOnly => .feature
  | wideRemoval => .width
  | _ => .type

/-- Bytes and ranges name themselves in their own way. -/
def beyondEndMessage : SequenceKind → String
  | .bytes => "index out of range"
  | .array .range => "range object index out of range"
  | kind => kind.word ++ " index out of range"

/-- Quoted names in a row, the last one after an `and`. -/
def enumeration : List String → String
  | [] => ""
  | [name] => quoted name
  | [first, second] => quoted first ++ " and " ++ quoted second
  | names => ", ".intercalate (names.dropLast.map quoted) ++ ", and " ++ quoted (names.getLastD "")

/-- A number of positional arguments. -/
def arguments (n : Nat) : String :=
  n.repr ++ " positional argument" ++ if n = 1 then "" else "s"

/-- How it is put that a number has too many digits. -/
def beyondDigits (most : Nat) : String :=
  "Exceeds the limit (" ++ most.repr ++ " digits) for integer string conversion"

/-- What can be done about it. -/
def raisingDigits : String := "; use sys.set_int_max_str_digits() to increase the limit"

def message : Refusal → String
  | noKey key => key.display
  | changeableKey typeName => "unhashable type: " ++ quoted typeName
  | negativePosition key => "negative index " ++ key.plain
  | notOrdered typeName =>
    "'<' not supported between instances of " ++ quoted typeName ++ " and 'int'"
  | notPosition .text typeName => "string indices must be integers, not " ++ quoted typeName
  | notPosition kind typeName =>
    kind.word ++ " indices must be integers or slices, not " ++ typeName
  | widePosition => "cannot fit 'int' into an index-sized integer"
  | wideRemoval => "Python int too large to convert to C ssize_t"
  | notInteger typeName => quoted typeName ++ " object cannot be interpreted as an integer"
  | notByte => "byte must be in range(0, 256)"
  | notBytes typeName => "a bytes-like object is required, not " ++ quoted typeName
  | notPartOfText typeName => "'in <string>' requires string as left operand, not " ++ typeName
  | beyondEnd kind => beyondEndMessage kind
  | assignmentBeyondEnd => "list assignment index out of range"
  | removalBeyondEnd => "pop index out of range"
  | removalFromEmpty kind => "pop from empty " ++ kind.word
  | notSearchable typeName => "argument of type " ++ quoted typeName ++ " is not iterable"
  | notCountable typeName => "object of type " ++ quoted typeName ++ " has no len()"
  | notReadable typeName => quoted typeName ++ " object is not subscriptable"
  | notIterable typeName => quoted typeName ++ " object is not iterable"
  | noFeature typeName feature =>
    quoted typeName ++ " object has no attribute " ++ quoted feature
  | notCallable typeName => quoted typeName ++ " object is not callable"
  | notEditable typeName .object =>
    "Cannot mutate " ++ quoted typeName ++ ": expected a MutableMapping"
  | notEditable typeName .array =>
    "Cannot mutate " ++ quoted typeName ++ ": expected a MutableSequence"
  | missingArguments operation names =>
    operation ++ "() missing " ++ names.length.repr ++ " required positional argument" ++
      (if names.length = 1 then "" else "s") ++ ": " ++ enumeration names
  | extraArguments operation taken given =>
    operation ++ "() takes " ++ arguments taken ++ " but " ++ given.repr ++
      (if given = 1 then " was" else " were") ++ " given"
  | tooManyDigits most given =>
    beyondDigits most ++ ": value has " ++ given.repr ++ " digits" ++ raisingDigits
  | tooLargeToWrite most => beyondDigits most ++ raisingDigits
  | notType typeName => "__class__ must be set to a class, not " ++ quoted typeName ++ " object"
  | typeKept => "can't delete __class__ attribute"
  | readOnly => "readonly attribute"

end Refusal

end TreeQuery
