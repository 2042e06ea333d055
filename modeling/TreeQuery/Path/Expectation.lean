/-!
# What a reader of paths expected

Where a text stops being a path, exactly one thing was expected. The reader says which, and
the wording of messages is kept here.
-/

namespace TreeQuery

inductive Expectation
  | separator
  | separatorAfterWildcard
  | stepAfterDot
  | stepStart
  /-- A step cannot begin with a digit. -/
  | stepStartNotDigit
  | bracketContent
  | indexWithoutLeadingZeros
  | nonNegativeIndex
  | closingBracket
  | closingQuote (quote : Char)
  | escapable
  /-- The reader takes exact steps only. -/
  | concreteStep
  deriving DecidableEq

/-- The description of what was expected. -/
def Expectation.wording : Expectation → String
  | separator => "'.', '[' or end of path"
  | separatorAfterWildcard => "'.', '[' or end of path (a wildcard cannot be optional)"
  | stepAfterDot => "a step after '.'"
  | stepStart => "a key name, '*' or '['"
  | stepStartNotDigit => "a key name, '*' or '[' (write array indices as [n])"
  | bracketContent => "an index, '*' or a quoted key"
  | indexWithoutLeadingZeros => "an index without leading zeros"
  | nonNegativeIndex => "a non-negative index"
  | closingBracket => "']'"
  | closingQuote quote => "closing " ++ String.singleton quote
  | escapable => "an escaped quote or backslash after '\\'"
  | concreteStep => "a concrete key or index (no wildcard or optional step)"

end TreeQuery
