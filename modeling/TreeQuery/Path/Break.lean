import TreeQuery.Path.Grammar

/-!
# Where texts stop being paths

A text that is no path breaks off somewhere: it begins as the text of a path does, and then something
is expected that does not come next. A break says what is written up to there, what is expected, and
the rest of the text. Breaks are listed here by what is written; nothing here looks at how texts are
read. In concrete mode a text also breaks off before an asterisk or a question mark that the language
of paths would allow.
-/

namespace TreeQuery

namespace Expectation

/-- How many characters of the rest are not to blame: where digits have a leading zero, the zero
itself could stand. -/
def leniency : Expectation → Nat
  | indexWithoutLeadingZeros => 1
  | _ => 0

theorem leniency_le_one (e : Expectation) : e.leniency ≤ 1 := by
  cases e <;> simp [leniency]

theorem leniency_eq_zero {e : Expectation} (h : e ≠ .indexWithoutLeadingZeros) :
    e.leniency = 0 := by
  cases e with
  | indexWithoutLeadingZeros => exact absurd rfl h
  | _ => rfl

end Expectation

/-- A step breaks off: what is written of it, what is expected next, and the rest. -/
inductive StepBreak (mode : Mode) : List Char → Expectation → List Char → Prop
  | start {rest : List Char}
      (h : NextNot (fun c => c = '[' || c = '*' || isNameStart c || c.isDigit) rest) :
      StepBreak mode [] .stepStart rest
  | digit {c : Char} {rest : List Char} (h : c.isDigit = true) :
      StepBreak mode [] .stepStartNotDigit (c :: rest)
  | content {rest : List Char}
      (h : NextNot
        (fun c => c = '*' || c.isDigit || c = '-' || c = '"' || c = Text.apostrophe) rest) :
      StepBreak mode ['['] .bracketContent rest
  | minus {rest : List Char} : StepBreak mode ['['] .nonNegativeIndex ('-' :: rest)
  | zero {d : Char} {rest : List Char} (h : d.isDigit = true) :
      StepBreak mode ['['] .indexWithoutLeadingZeros ('0' :: d :: rest)
  | position {digits rest : List Char} (valid : (StepForm.position digits false).Valid)
      (h : NextNot (fun c => c = ']' || c.isDigit) rest) :
      StepBreak mode ('[' :: digits) .closingBracket rest
  | bracketedAsterisk {rest : List Char} (hm : mode = .full) (h : NextNot (· = ']') rest) :
      StepBreak mode ['[', '*'] .closingBracket rest
  | openQuote {quote : Char} {name : List QuotedChar}
      (valid : (StepForm.quoted quote name false).Valid) :
      StepBreak mode ('[' :: quote :: name.flatMap QuotedChar.chars) (.closingQuote quote) []
  | backslash {quote : Char} {name : List QuotedChar} {rest : List Char}
      (valid : (StepForm.quoted quote name false).Valid)
      (h : NextNot (fun c => c = '"' || c = Text.apostrophe || c = '\\') rest) :
      StepBreak mode ('[' :: quote :: name.flatMap QuotedChar.chars ++ ['\\']) .escapable rest
  | quoted {quote : Char} {name : List QuotedChar} {rest : List Char}
      (valid : (StepForm.quoted quote name false).Valid) (h : NextNot (· = ']') rest) :
      StepBreak mode ('[' :: quote :: name.flatMap QuotedChar.chars ++ [quote]) .closingBracket rest
  /-- A wildcard cannot be optional. -/
  | wildcard (form : StepForm) {rest : List Char} (hm : mode = .full)
      (h : form.segment = .wildcard) :
      StepBreak mode form.chars .separatorAfterWildcard ('?' :: rest)
  | concreteAsterisk {written rest : List Char} (hm : mode = .concrete)
      (h : written = [] ∨ written = ['[']) : StepBreak mode written .concreteStep ('*' :: rest)
  | concreteMark {form : StepForm} {rest : List Char} (hm : mode = .concrete) (valid : form.Valid)
      (h : form.segment.isConcrete = true) :
      StepBreak mode form.chars .concreteStep ('?' :: rest)

/-- The steps that follow the root mark or another step break off. -/
inductive TailBreak (mode : Mode) : List Char → Expectation → List Char → Prop
  | separator {c : Char} {rest : List Char} (hd : c ≠ '.') (hb : c ≠ '[') :
      TailBreak mode [] .separator (c :: rest)
  | dot : TailBreak mode ['.'] .stepAfterDot []
  | afterDot {written rest : List Char} {e : Expectation} (h : StepBreak mode written e rest)
      (more : written ++ rest ≠ []) : TailBreak mode ('.' :: written) e rest
  | bracket {written rest : List Char} {e : Expectation}
      (h : StepBreak mode ('[' :: written) e rest) : TailBreak mode ('[' :: written) e rest
  | later (step : WrittenStep) {written rest : List Char} {e : Expectation} (follows : step.Follows)
      (taken : mode.Takes step.form.segment) (ends : step.form.EndsBefore (written ++ rest))
      (h : TailBreak mode written e rest) : TailBreak mode (step.chars ++ written) e rest

/-- A path breaks off. -/
inductive PathBreak (mode : Mode) : List Char → Expectation → List Char → Prop
  | root {written rest : List Char} {e : Expectation} (h : TailBreak mode written e rest) :
      PathBreak mode ('$' :: written) e rest
  | first {written rest : List Char} {e : Expectation} (h : StepBreak mode written e rest)
      (more : written ++ rest ≠ []) (unmarked : (written ++ rest).head? ≠ some '$') :
      PathBreak mode written e rest
  | later (form : StepForm) {written rest : List Char} {e : Expectation} (valid : form.Valid)
      (taken : mode.Takes form.segment) (ends : form.EndsBefore (written ++ rest))
      (h : TailBreak mode written e rest) : PathBreak mode (form.chars ++ written) e rest

end TreeQuery
