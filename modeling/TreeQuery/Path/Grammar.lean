import TreeQuery.Path.Reader

/-!
# The language of paths

A written path says how a text spells its steps: where a dot stands, which of its forms a step
takes, and what every character between quotes stands for. The texts of the valid ones are the
language of paths, and each of them means one sequence of segments. Nothing here looks at how
texts are read.
-/

namespace TreeQuery

/-- What comes next, if anything does, fails a test. -/
def NextNot (p : Char → Bool) (rest : List Char) : Prop := ∀ c, rest.head? = some c → p c = false

/-- The test looks at the next character only. -/
theorem NextNot.congr {p : Char → Bool} {rest other : List Char} (h : NextNot p rest)
    (same : other.head? = rest.head?) : NextNot p other := by
  intro c hc
  exact h c (same ▸ hc)

theorem nextNot_or {p q : Char → Bool} {rest : List Char} :
    NextNot (fun c => p c || q c) rest ↔ NextNot p rest ∧ NextNot q rest := by
  simp [NextNot, forall_and]

/-- A character between quotes, as it is or after a backslash. -/
inductive QuotedChar
  | plain (c : Char)
  | escaped (c : Char)
  deriving DecidableEq

namespace QuotedChar

def chars : QuotedChar → List Char
  | plain c => [c]
  | escaped c => ['\\', c]

def meaning : QuotedChar → Char
  | plain c | escaped c => c

/-- The quote itself and a backslash need a backslash; either quote may have one. -/
def Valid (quote : Char) : QuotedChar → Prop
  | plain c => c ≠ quote ∧ c ≠ '\\'
  | escaped c => c = '"' ∨ c = Text.apostrophe ∨ c = '\\'

instance (quote : Char) (q : QuotedChar) : Decidable (q.Valid quote) := by
  cases q <;> unfold Valid <;> infer_instance

end QuotedChar

/-- The forms of a step. -/
inductive StepForm
  | identifier (name : List Char) (optional : Bool)
  | asterisk
  | position (digits : List Char) (optional : Bool)
  | bracketedAsterisk
  | quoted (quote : Char) (name : List QuotedChar) (optional : Bool)
  deriving DecidableEq

namespace StepForm

/-- Forms in brackets need no dot before them. -/
def isBracketed : StepForm → Bool
  | identifier _ _ | asterisk => false
  | position _ _ | bracketedAsterisk | quoted _ _ _ => true

/-- Identifiers are taken as long as possible. -/
def isBareName : StepForm → Bool
  | identifier _ _ => true
  | _ => false

def mark (optional : Bool) : List Char := if optional then ['?'] else []

def chars : StepForm → List Char
  | identifier name optional => name ++ mark optional
  | asterisk => ['*']
  | position digits optional => '[' :: digits ++ ']' :: mark optional
  | bracketedAsterisk => ['[', '*', ']']
  | quoted quote name optional =>
    '[' :: quote :: name.flatMap QuotedChar.chars ++ quote :: ']' :: mark optional

/-- Digits have no leading zero, and a name stands between two quotes of one sort. -/
def Valid : StepForm → Prop
  | identifier name _ => isIdentifier name = true
  | position digits _ =>
    digits ≠ [] ∧ digits.all Char.isDigit = true ∧ (digits.head? = some '0' → digits = ['0'])
  | quoted quote name _ =>
    (quote = '"' ∨ quote = Text.apostrophe) ∧ ∀ q ∈ name, q.Valid quote
  | asterisk | bracketedAsterisk => True

instance (f : StepForm) : Decidable f.Valid := by
  cases f <;> unfold Valid <;> infer_instance

def segment : StepForm → Segment
  | identifier name optional => .key (String.ofList name) optional
  | position digits optional => .index (Nat.ofDigitChars 10 digits 0) optional
  | quoted _ name optional => .key (String.ofList (name.map QuotedChar.meaning)) optional
  | asterisk | bracketedAsterisk => .wildcard

/-- Both forms of a wildcard are as they should be. -/
theorem valid_of_wildcard {f : StepForm} (h : f.segment = .wildcard) : f.Valid := by
  cases f with
  | asterisk | bracketedAsterisk => trivial
  | _ => cases h

/-- Whether a form would go on with a character if it came next: with a question mark, unless it has
one, and a bare name also with a character of names. -/
def goesOn (f : StepForm) (c : Char) : Bool :=
  !f.segment.isOptional && (c = '?' || f.isBareName && isNameChar c)

/-- A form goes as far as it can and ends before what follows. -/
def EndsBefore (f : StepForm) (rest : List Char) : Prop := NextNot f.goesOn rest

end StepForm

/-- A step of a text: whether a dot stands before it, and its form. -/
structure WrittenStep where
  dotted : Bool
  form : StepForm
  deriving DecidableEq

/-- How a text spells a path. -/
structure WrittenPath where
  rootMark : Bool
  steps : List WrittenStep
  deriving DecidableEq

namespace WrittenStep

def chars (w : WrittenStep) : List Char := (if w.dotted then ['.'] else []) ++ w.form.chars

/-- A step that follows another one has a dot or a bracket. -/
def Follows (w : WrittenStep) : Prop := w.form.Valid ∧ (w.dotted = true ∨ w.form.isBracketed = true)

/-- A step that begins a text has no dot. -/
def Begins (w : WrittenStep) : Prop := w.form.Valid ∧ w.dotted = false

instance (w : WrittenStep) : Decidable w.Follows := inferInstanceAs (Decidable (_ ∧ _))

instance (w : WrittenStep) : Decidable w.Begins := inferInstanceAs (Decidable (_ ∧ _))

end WrittenStep

namespace WrittenPath

def chars (w : WrittenPath) : List Char :=
  (if w.rootMark then ['$'] else []) ++ w.steps.flatMap WrittenStep.chars

def segments (w : WrittenPath) : List Segment := w.steps.map (·.form.segment)

/-- After a root mark every step follows; without one the first step begins the text. -/
def Valid (w : WrittenPath) : Prop :=
  match w.rootMark, w.steps with
  | true, steps => ∀ s ∈ steps, s.Follows
  | false, [] => True
  | false, first :: rest => first.Begins ∧ ∀ s ∈ rest, s.Follows

instance (w : WrittenPath) : Decidable w.Valid := by
  unfold Valid; split <;> infer_instance

end WrittenPath

/-- Whether a reader takes a segment once it is spelled as it should be. -/
def Mode.Takes (mode : Mode) (s : Segment) : Prop := mode = .concrete → s.isConcrete = true

/-- The segments that a text of the language means. -/
def Means (text : List Char) (segments : List Segment) : Prop :=
  ∃ w : WrittenPath, w.Valid ∧ w.chars = text ∧ w.segments = segments

end TreeQuery
