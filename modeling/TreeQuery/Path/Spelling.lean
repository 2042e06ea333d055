import TreeQuery.Path.Basic

/-!
# The canonical spelling of paths

Identifiers are written bare and separated by dots. All other names stand in brackets between
double quotes, with a backslash before each double quote and each backslash of the name.
Positions and wildcards stand in brackets, positions with all their digits. An optional segment ends in a
question mark.

A location also has a pointer: every step after a slash, with `~` and `/` written as `~0`
and `~1`.
-/

namespace TreeQuery

/-- The characters that an identifier may start with. -/
def isNameStart (c : Char) : Bool := c.isAlpha || c = '_'

/-- The characters that may follow in an identifier. -/
def isNameChar (c : Char) : Bool := c.isAlphanum || c = '_' || c = '-'

/-- Names that are written bare. -/
def isIdentifier : List Char → Bool
  | [] => false
  | c :: rest => isNameStart c && rest.all isNameChar

/-- A name between double quotes, without the quotes. -/
def escapeName (name : List Char) : List Char :=
  name.flatMap fun c => if c = '\\' ∨ c = '"' then ['\\', c] else [c]

namespace Segment

/-- Bare segments need a dot between them and the segment before. -/
def isBare : Segment → Bool
  | key name _ => isIdentifier name.toList
  | _ => false

/-- A segment without its question mark. -/
def body : Segment → List Char
  | key name _ =>
    if isIdentifier name.toList then name.toList
    else '[' :: '"' :: escapeName name.toList ++ ['"', ']']
  | index position _ => '[' :: Nat.toDigits 10 position ++ [']']
  | wildcard => ['[', '*', ']']

def spelling (s : Segment) : List Char :=
  s.body ++ if s.isOptional then ['?'] else []

/-- The canonical text of a segment on its own. -/
def text (s : Segment) : String := String.ofList s.spelling

end Segment

/-- The spelling of segments that follow another one. -/
def spellTail : List Segment → List Char
  | [] => []
  | s :: rest => (if s.isBare then ['.'] else []) ++ s.spelling ++ spellTail rest

/-- The spelling of a whole path. -/
def spell : List Segment → List Char
  | [] => []
  | s :: rest => s.spelling ++ spellTail rest

/-- The canonical text of a search path. -/
def Expression.text (e : Expression) : String := String.ofList (spell e.segments)

/-- The text of a step on its own: the name, or the digits of the position. -/
def Step.chars : Step → List Char
  | key name => name.toList
  | index position => Nat.toDigits 10 position

/-- One token of a pointer. -/
def escapeToken (token : List Char) : List Char :=
  token.flatMap fun c =>
    if c = '~' then ['~', '0'] else if c = '/' then ['~', '1'] else [c]

namespace Location

/-- The canonical text of a location. -/
def text (l : Location) : String := l.expression.text

def pointerChars (l : Location) : List Char :=
  l.steps.flatMap fun s => '/' :: escapeToken s.chars

/-- The pointer of a location; the root has the empty one. -/
def pointer (l : Location) : String := String.ofList l.pointerChars

end Location

end TreeQuery
