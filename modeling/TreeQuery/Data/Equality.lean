import TreeQuery.Data.Value
import TreeQuery.Data.Number

/-!
# When two values are equal

Numbers are compared by exact value, truth values counting as zero and one. Arrays are equal
when their kinds are and their elements are, one by one. Mappings are equal when they have
the same names with equal values, in whatever order and whether frozen or not; records are
compared in the same way, but only with records.

Parts that are one and the same object are not compared, so a container always equals itself,
even if it holds a number that does not.
-/

namespace TreeQuery

/-- The number that a scalar stands for. -/
def Scalar.number? : Scalar → Option Number
  | .bool value => some (.finite (if value then 1 else 0))
  | .int value => some (.finite value)
  | .float literal => some (.ofLiteral literal)
  | _ => none

/-- The bytes that a scalar holds. -/
def Scalar.data? : Scalar → Option (List UInt8)
  | .bytes data | .buffer data => some data
  | _ => none

def Scalar.equal (a b : Scalar) : Bool :=
  match a.number?, b.number? with
  | some x, some y => x.equal y
  | none, none =>
    match a.data?, b.data? with
    | some x, some y => x == y
    | _, _ => decide (a = b)
  | _, _ => false

/-- Whether objects of two kinds may be equal at all. -/
def ObjectKind.comparable (a b : ObjectKind) : Bool :=
  decide (a = .record ↔ b = .record)

mutual

def Value.equal : Value → Value → Bool
  | .scalar a, .scalar b => a.equal b
  | .array k xs, .array l ys => k = l && equalItems xs ys
  | .object k ms, .object l ns => k.comparable l && ms.length = ns.length && equalMembers ms ns
  | _, _ => false

/-- Whether two sequences have equal items at every position. -/
def equalItems : List Value → List Value → Bool
  | [], [] => true
  | x :: xs, y :: ys => x.equal y && equalItems xs ys
  | _, _ => false

/-- Whether every member of the first object has an equal one of its name in the second. -/
def equalMembers : List (String × Value) → List (String × Value) → Bool
  | [], _ => true
  | (name, value) :: rest, others =>
    (match Members.lookup name others with
      | some other => value.equal other
      | none => false) && equalMembers rest others

end

/-- Whether a value equals itself: what it holds is not compared. -/
def Value.equalsItself : Value → Bool
  | .scalar content => content.equal content
  | _ => true

end TreeQuery
