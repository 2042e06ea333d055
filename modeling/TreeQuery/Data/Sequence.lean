import TreeQuery.Data.Value

/-!
# Values as sequences

Arrays are sequences of their elements. Texts are sequences of characters and byte sequences
of numbers, although a path never leads into them. Objects other than records yield their
names.
-/

namespace TreeQuery

/-- The kinds of sequences. -/
inductive SequenceKind
  | text
  | bytes
  | buffer
  | array (kind : ArrayKind)
  deriving DecidableEq

/-- One byte as a number. -/
def Value.byte (b : UInt8) : Value := .int b.toNat

namespace Value

/-- The items of a sequence with its kind. -/
def sequence? : Value → Option (SequenceKind × List Value)
  | scalar (.text value) => some (.text, value.toList.map fun c => text (String.singleton c))
  | scalar (.bytes data) => some (.bytes, data.map byte)
  | scalar (.buffer data) => some (.buffer, data.map byte)
  | array kind items => some (.array kind, items)
  | _ => none

/-- The items that a value yields one by one. -/
def items? : Value → Option (List Value)
  | object .record _ => none
  | object _ members => some (members.map fun e => text e.1)
  | value => value.sequence?.map Prod.snd

@[simp] theorem items?_array (kind : ArrayKind) (items : List Value) :
    (array kind items).items? = some items := rfl

end Value

end TreeQuery
