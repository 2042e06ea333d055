import TreeQuery.Data.Equality
import TreeQuery.Data.Position
import TreeQuery.Data.Refusal

/-!
# Handling values directly

Apart from paths, every value can be looked into, counted, listed and, if its kind allows it,
changed, and any value may be tried as a key. Sequences take integers as keys, truth values
included, and count negative ones from the end; objects take whatever cannot change, though
only texts are found in them. A change gives the value as it is afterwards.
-/

namespace TreeQuery

/-- Whether a list occurs in another one without gaps. -/
def occursIn {α : Type} [BEq α] (part : List α) : List α → Bool
  | [] => part.isEmpty
  | a :: rest => part.isPrefixOf (a :: rest) || occursIn part rest

theorem occursIn_iff {α : Type} [BEq α] [LawfulBEq α] {part whole : List α} :
    occursIn part whole = true ↔ part <:+: whole := by
  induction whole with
  | nil => simp [occursIn]
  | cons a rest ih =>
    rw [occursIn, Bool.or_eq_true, ih, List.isPrefixOf_iff_prefix, List.infix_cons_iff]

namespace SequenceKind

/-- The position that a key stands for. Ranges are not stored and know no widest position. -/
def position (kind : SequenceKind) (key : Value) : Except Refusal Int :=
  match key.integer? with
  | none => .error (.notPosition kind key.qualifiedTypeName)
  | some position =>
    if kind ≠ .array .range ∧ isWide position = true then .error .widePosition else .ok position

/-- The item of a sequence under a key. -/
def itemAt {α : Type} (kind : SequenceKind) (items : List α) (key : Value) : Except Refusal α := do
  match itemAt? items (← kind.position key) with
  | some item => return item
  | none => throw (.beyondEnd kind)

/-- Within words, an integer stands for the item at that position. -/
theorem itemAt_int {α : Type} (kind : SequenceKind) (items : List α) {position : Int}
    (h : isWide position = false) :
    kind.itemAt items (.int position) =
      match itemAt? items position with
      | some item => .ok item
      | none => .error (.beyondEnd kind) := by
  simp only [itemAt, SequenceKind.position, Value.int, Value.integer?, h, bind, Except.bind]
  cases hi : itemAt? items position <;>
    simp [hi, pure, Except.pure, throw, throwThe, MonadExceptOf.throw]

end SequenceKind

namespace Value

mutual

/-- The type of the first part of a value because of which it cannot be a key. -/
def changeable? : Value → Option String
  | scalar (.buffer data) => some (scalar (.buffer data)).typeName
  | scalar _ => none
  | array .list items => some (array .list items).typeName
  | array .tuple items => changeableAmong? items
  | array .range _ => none
  | object kind members => some (object kind members).qualifiedTypeName

def changeableAmong? : List Value → Option String
  | [] => none
  | item :: rest =>
    match item.changeable? with
    | some typeName => some typeName
    | none => changeableAmong? rest

end

/-- The name that a key stands for in an object, if it is a text. -/
def asName (key : Value) : Except Refusal (Option String) :=
  match key.changeable?, key with
  | some typeName, _ => .error (.changeableKey typeName)
  | none, scalar (.text name) => .ok (some name)
  | none, _ => .ok none

@[simp] theorem asName_text (name : String) : (text name).asName = .ok (some name) := rfl

/-- The byte that an integer stands for. -/
def asByte (v : Value) : Except Refusal UInt8 :=
  match v.integer? with
  | none => .error (.notInteger v.qualifiedTypeName)
  | some (.ofNat n) => if n < 256 then .ok (UInt8.ofNat n) else .error .notByte
  | some _ => .error .notByte

/-- Whether bytes hold a byte, given as an integer, or a run of bytes. -/
def amongBytes (key : Value) (data : List UInt8) : Except Refusal Bool :=
  match key.integer?, key with
  | some _, _ => return data.contains (← key.asByte)
  | none, scalar (.bytes part) | none, scalar (.buffer part) => .ok (occursIn part data)
  | none, _ => .error (.notBytes key.qualifiedTypeName)

/-- Whether a value holds another one: a text a part of it, bytes a byte or a run of bytes, an
array an equal element, an object a name. -/
def contains (v key : Value) : Except Refusal Bool :=
  match v with
  | scalar (.text whole) =>
    match key with
    | scalar (.text part) => .ok (occursIn part.toList whole.toList)
    | _ => .error (.notPartOfText key.qualifiedTypeName)
  | scalar (.bytes data) | scalar (.buffer data) => key.amongBytes data
  | array _ items => .ok (items.any (·.equal key))
  | scalar _ | object .record _ => .error (.notSearchable v.qualifiedTypeName)
  | object _ members => return ((← key.asName).bind (Members.lookup · members)).isSome

/-- What a value holds under a key. -/
def lookUp (v key : Value) : Except Refusal Value :=
  match v, v.sequence? with
  | _, some (kind, items) => kind.itemAt items key
  | object .mapping members, none | object .frozen members, none => do
    match (← key.asName).bind (Members.lookup · members) with
    | some child => return child
    | none => throw (.noKey key)
  | _, none => .error (.notReadable v.qualifiedTypeName)

/-- An object that is no record is looked into by name. -/
theorem lookUp_mapping (members : List (String × Value)) (name : String) :
    (object .mapping members).lookUp (text name) =
      match Members.lookup name members with
      | some child => .ok child
      | none => .error (.noKey (text name)) := by
  simp only [lookUp, sequence?, asName_text, bind, Except.bind, Option.bind]
  cases Members.lookup name members <;> rfl

/-- Whether a value lies below an integer; only numbers can be compared with one. -/
def isBelow (v : Value) (bound : Int) : Except Refusal Bool :=
  match v with
  | scalar content =>
    match content.number? with
    | some number => .ok (number.isBelow bound)
    | none => .error (.notOrdered v.orderedTypeName)
  | _ => .error (.notOrdered v.orderedTypeName)

/-- What a value holds under a key that must not be negative. -/
def element (v key : Value) : Except Refusal Value := do
  if ← key.isBelow 0 then throw (.negativePosition key) else v.lookUp key

/-- How many items a value has. -/
def count (v : Value) : Except Refusal Nat :=
  match v.items? with
  | some items => .ok items.length
  | none => .error (.notCountable v.qualifiedTypeName)

def items (v : Value) : Except Refusal (List Value) :=
  match v.items? with
  | some items => .ok items
  | none => .error (.notIterable v.qualifiedTypeName)

/-- The members of an object, which are asked for by a feature of it. A record has no such
feature, but may have an attribute of that name. -/
def members (v : Value) : Except Refusal (List (String × Value)) :=
  let feature := "items"
  match v with
  | object .mapping members | object .frozen members => .ok members
  | object .record attributes =>
    match Members.lookup feature attributes with
    | some value => .error (.notCallable value.qualifiedTypeName)
    | none => .error (.noFeature v.qualifiedTypeName feature)
  | _ => .error (.noFeature v.qualifiedTypeName feature)

/-- Puts a value under a key of a mapping. The entries afterwards may hold a key that is no
name: it equals none of the names and goes to the end. -/
def setMember (v key child : Value) : Except Refusal (List (Value × Value)) :=
  match v with
  | object .mapping members => do
    match ← key.asName with
    | some name => return (Members.put name child members).map fun e => (text e.1, e.2)
    | none => return members.map (fun e => (text e.1, e.2)) ++ [(key, child)]
  | _ => .error (.notEditable v.typeName .object)

/-- Takes a key out of a mapping and gives what was under it. Nothing is tried as a key of an
empty mapping. -/
def removeMember (v key : Value) : Except Refusal (Value × Value) :=
  match v with
  | object .mapping [] => .error (.noKey key)
  | object .mapping members => do
    match ← key.asName with
    | none => throw (.noKey key)
    | some name =>
      match Members.lookup name members with
      | some child => return (child, object .mapping (members.filter (·.1 ≠ name)))
      | none => throw (.noKey key)
  | _ => .error (.notEditable v.typeName .object)

/-- Replaces an element of a list or a byte of a buffer. -/
def setElement (v key child : Value) : Except Refusal Value :=
  match v with
  | array .list items => do
    match placeOf? items.length (← SequenceKind.position (.array .list) key) with
    | some place => return array .list (items.set place child)
    | none => throw .assignmentBeyondEnd
  | scalar (.buffer data) => do
    let position ← SequenceKind.position .buffer key
    let byte ← child.asByte
    match placeOf? data.length position with
    | some place => return scalar (.buffer (data.set place byte))
    | none => throw (.beyondEnd .buffer)
  | _ => .error (.notEditable v.typeName .array)

/-- Takes an item out of a stored sequence and gives it with the rest. -/
def takeOut {α : Type} (kind : SequenceKind) (items : List α) (key : Value) :
    Except Refusal (α × List α) := do
  match key.integer? with
  | none => throw (.notInteger key.qualifiedTypeName)
  | some position =>
    if isWide position then throw .wideRemoval
    if items.isEmpty then throw (.removalFromEmpty kind)
    match itemAt? items position, placeOf? items.length position with
    | some item, some place => return (item, items.eraseIdx place)
    | _, _ => throw .removalBeyondEnd

/-- Removes an element of a list or a byte of a buffer, and later ones move up. -/
def removeElement (v key : Value) : Except Refusal (Value × Value) :=
  match v with
  | array .list items => do
    let (item, rest) ← takeOut (.array .list) items key
    return (item, array .list rest)
  | scalar (.buffer data) => do
    let (b, rest) ← takeOut .buffer data key
    return (byte b, scalar (.buffer rest))
  | _ => .error (.notEditable v.typeName .array)

end Value

end TreeQuery
