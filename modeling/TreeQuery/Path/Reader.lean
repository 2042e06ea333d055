import TreeQuery.Path.Expectation
import TreeQuery.Path.Spelling
import TreeQuery.Text.Quoted

/-!
# Reading paths

A path is read from left to right without looking back. Each reader takes the text that is
left and gives what it read with the rest, or stops: it then says what it expected and gives
the rest that it could not read, from which the position follows. An optional `$` may stand
for the root; every later step begins with a dot or a bracket. Names are taken as long as
possible, and no blanks are skipped.

In concrete mode the reader refuses wildcards and question marks where they stand. A position may have
any number of digits; what limits them is in the module on limits on digits.
-/

namespace TreeQuery

/-- Which paths a reader accepts. -/
inductive Mode
  | full
  | concrete
  deriving DecidableEq

/-- Where reading stopped and what would have been read on. -/
structure Stop where
  expected : Expectation
  rest : List Char

/-- A text that is no path. The position counts the characters before the offending one. -/
structure Malformed where
  text : String
  position : Nat
  expected : Expectation
  deriving DecidableEq

namespace Reader

open Text (apostrophe)

def closeBracket : List Char → Except Stop (List Char)
  | ']' :: rest => .ok rest
  | rest => .error ⟨.closingBracket, rest⟩

/-- The question mark of an optional segment, if there is one. -/
def optionalMark (mode : Mode) : List Char → Except Stop (Bool × List Char)
  | '?' :: rest =>
    match mode with
    | .full => .ok (true, rest)
    | .concrete => .error ⟨.concreteStep, '?' :: rest⟩
  | rest => .ok (false, rest)

/-- A wildcard takes no question mark. -/
def afterWildcard : List Char → Except Stop (Segment × List Char)
  | '?' :: rest => .error ⟨.separatorAfterWildcard, '?' :: rest⟩
  | rest => .ok (.wildcard, rest)

/-- What may follow a backslash between quotes. -/
def isEscapable (c : Char) : Bool := c = '"' || c = apostrophe || c = '\\'

/-- A quoted name up to its closing quote, which is dropped. -/
def quotedName (quote : Char) : List Char → Except Stop (List Char × List Char)
  | [] => .error ⟨.closingQuote quote, []⟩
  | c :: rest =>
    if c = quote then .ok ([], rest)
    else if c = '\\' then
      match rest with
      | [] => .error ⟨.escapable, []⟩
      | d :: rest =>
        if isEscapable d then
          match quotedName quote rest with
          | .ok (name, rest) => .ok (d :: name, rest)
          | .error stop => .error stop
        else .error ⟨.escapable, d :: rest⟩
    else
      match quotedName quote rest with
      | .ok (name, rest) => .ok (c :: name, rest)
      | .error stop => .error stop

/-- What follows a bracketed name or position: the bracket and perhaps a question mark. -/
def bracketEnd (mode : Mode) (segment : Bool → Segment) (rest : List Char) :
    Except Stop (Segment × List Char) := do
  let rest ← closeBracket rest
  let (optional, rest) ← optionalMark mode rest
  return (segment optional, rest)

/-- The wildcard of either spelling, from its asterisk on. -/
def asterisk (mode : Mode) (close : List Char → Except Stop (List Char)) (rest : List Char) :
    Except Stop (Segment × List Char) :=
  match mode with
  | .full => do afterWildcard (← close rest)
  | .concrete => .error ⟨.concreteStep, '*' :: rest⟩

/-- A segment in brackets, after the opening one. -/
def bracketed (mode : Mode) : List Char → Except Stop (Segment × List Char)
  | [] => .error ⟨.bracketContent, []⟩
  | c :: rest =>
    if c = '*' then asterisk mode closeBracket rest
    else if c.isDigit then
      let digits := (c :: rest).takeWhile Char.isDigit
      if c = '0' ∧ 1 < digits.length then .error ⟨.indexWithoutLeadingZeros, c :: rest⟩
      else
        bracketEnd mode (.index (Nat.ofDigitChars 10 digits 0)) ((c :: rest).dropWhile Char.isDigit)
    else if c = '-' then .error ⟨.nonNegativeIndex, c :: rest⟩
    else if c = '"' ∨ c = apostrophe then do
      let (name, rest) ← quotedName c rest
      bracketEnd mode (.key (String.ofList name)) rest
    else .error ⟨.bracketContent, c :: rest⟩

/-- An identifier, taken as long as possible, and perhaps a question mark. -/
def bareName (mode : Mode) (text : List Char) : Except Stop (Segment × List Char) := do
  let (optional, rest) ← optionalMark mode (text.dropWhile isNameChar)
  return (.key (String.ofList (text.takeWhile isNameChar)) optional, rest)

/-- One segment without the dot before it. -/
def segment (mode : Mode) : List Char → Except Stop (Segment × List Char)
  | [] => .error ⟨.stepStart, []⟩
  | c :: rest =>
    if c = '[' then bracketed mode rest
    else if c = '*' then asterisk mode .ok rest
    else if isNameStart c then bareName mode (c :: rest)
    else if c.isDigit then .error ⟨.stepStartNotDigit, c :: rest⟩
    else .error ⟨.stepStart, c :: rest⟩

/-- The start of a later step: a dot, which is dropped, or a bracket, which is kept. -/
def separator (c : Char) (rest : List Char) : Except Stop (List Char) :=
  if c = '.' then
    if rest.isEmpty then .error ⟨.stepAfterDot, []⟩ else .ok rest
  else if c = '[' then .ok (c :: rest)
  else .error ⟨.separator, c :: rest⟩

/-- Two readers in sequence read on when each of them does. -/
theorem bind_eq_ok_iff {α β : Type} {x : Except Stop α} {f : α → Except Stop β} {b : β} :
    x >>= f = .ok b ↔ ∃ a, x = .ok a ∧ f a = .ok b := by
  cases x with
  | error stop => exact ⟨fun h => (by cases h), fun ⟨_, h, _⟩ => (by cases h)⟩
  | ok a => exact ⟨fun h => ⟨a, rfl, h⟩, fun ⟨_, h, k⟩ => (by cases h; exact k)⟩

/-! ### Every segment takes up text -/

theorem length_closeBracket {cs rest : List Char} (h : closeBracket cs = .ok rest) :
    rest.length < cs.length := by
  unfold closeBracket at h
  split at h
  · cases h; simp
  · cases h

theorem length_optionalMark {mode : Mode} {cs rest : List Char} {optional : Bool}
    (h : optionalMark mode cs = .ok (optional, rest)) : rest.length ≤ cs.length := by
  unfold optionalMark at h
  split at h
  · split at h
    · cases h; simp
    · cases h
  · cases h; simp

theorem length_afterWildcard {cs rest : List Char} {s : Segment}
    (h : afterWildcard cs = .ok (s, rest)) : rest.length ≤ cs.length := by
  unfold afterWildcard at h
  split at h <;> cases h
  simp

theorem length_quotedName {quote : Char} {cs name rest : List Char}
    (h : quotedName quote cs = .ok (name, rest)) : rest.length < cs.length := by
  fun_induction quotedName quote cs generalizing name rest with
  | case2 => cases h; simp
  | case4 _ _ _ _ _ hr _ ih =>
    cases h
    exact Nat.lt_succ_of_lt (Nat.lt_succ_of_lt (ih hr))
  | case7 _ _ _ _ _ _ hr ih =>
    cases h
    exact Nat.lt_succ_of_lt (ih hr)
  | _ => cases h

theorem length_bracketEnd {mode : Mode} {f : Bool → Segment} {cs rest : List Char} {s : Segment}
    (h : bracketEnd mode f cs = .ok (s, rest)) : rest.length < cs.length := by
  obtain ⟨after, hc, h⟩ := bind_eq_ok_iff.1 h
  obtain ⟨_, ho, h⟩ := bind_eq_ok_iff.1 h
  cases h
  exact Nat.lt_of_le_of_lt (length_optionalMark ho) (length_closeBracket hc)

theorem length_asterisk {mode : Mode} {close : List Char → Except Stop (List Char)}
    (hclose : ∀ {cs rest : List Char}, close cs = .ok rest → rest.length ≤ cs.length)
    {cs rest : List Char} {s : Segment} (h : asterisk mode close cs = .ok (s, rest)) :
    rest.length ≤ cs.length := by
  cases mode with
  | concrete => cases h
  | full =>
    obtain ⟨after, hc, h⟩ := bind_eq_ok_iff.1 h
    exact Nat.le_trans (length_afterWildcard h) (hclose hc)

theorem length_dropWhile_le (p : Char → Bool) (cs : List Char) :
    (cs.dropWhile p).length ≤ cs.length :=
  (List.dropWhile_sublist p).length_le

theorem length_bracketed {mode : Mode} {cs rest : List Char} {s : Segment}
    (h : bracketed mode cs = .ok (s, rest)) : rest.length < cs.length := by
  cases cs with
  | nil => cases h
  | cons c cs =>
    simp only [bracketed] at h
    split at h
    · exact Nat.lt_succ_of_le (length_asterisk (fun h => Nat.le_of_lt (length_closeBracket h)) h)
    · split at h
      · split at h
        · cases h
        · exact Nat.lt_of_lt_of_le (length_bracketEnd h) (length_dropWhile_le _ _)
      · split at h
        · cases h
        · split at h
          · obtain ⟨_, hq, h⟩ := bind_eq_ok_iff.1 h
            exact Nat.lt_succ_of_lt (Nat.lt_trans (length_bracketEnd h) (length_quotedName hq))
          · cases h

theorem length_bareName {mode : Mode} {c : Char} {cs rest : List Char} {s : Segment}
    (hc : isNameChar c = true) (h : bareName mode (c :: cs) = .ok (s, rest)) :
    rest.length < (c :: cs).length := by
  obtain ⟨_, ho, h⟩ := bind_eq_ok_iff.1 h
  cases h
  rw [List.dropWhile_cons_of_pos hc] at ho
  exact Nat.lt_succ_of_le (Nat.le_trans (length_optionalMark ho) (length_dropWhile_le _ _))

theorem isNameChar_of_isNameStart {c : Char} (h : isNameStart c = true) : isNameChar c = true := by
  simp only [isNameStart, isNameChar, Char.isAlphanum, Bool.or_eq_true, decide_eq_true_eq] at *
  rcases h with h | h <;> simp [h]

theorem length_segment {mode : Mode} {cs rest : List Char} {s : Segment}
    (h : segment mode cs = .ok (s, rest)) : rest.length < cs.length := by
  cases cs with
  | nil => cases h
  | cons c cs =>
    simp only [segment] at h
    split at h
    · exact Nat.lt_succ_of_lt (length_bracketed h)
    · split at h
      · exact Nat.lt_succ_of_le (length_asterisk (fun h => by cases h; exact Nat.le_refl _) h)
      · split at h
        · next hc => exact length_bareName (isNameChar_of_isNameStart hc) h
        · split at h <;> cases h

theorem length_separator {c : Char} {cs rest : List Char}
    (h : separator c cs = .ok rest) : rest.length ≤ (c :: cs).length := by
  unfold separator at h
  split at h
  · split at h <;> cases h
    simp
  · split at h <;> cases h
    simp

/-! ### Whole texts -/

/-- What was read of a text: the segments, and where reading stopped if it did not reach the end. -/
structure Scan where
  segments : List Segment
  stop : Option Stop

namespace Scan

def stopped (stop : Stop) : Scan := ⟨[], some stop⟩

/-- A segment that was read before. -/
def cons (s : Segment) (scan : Scan) : Scan := { scan with segments := s :: scan.segments }

/-- A text counts as read when reading reached its end. -/
def outcome (scan : Scan) : Except Stop (List Segment) :=
  match scan.stop with
  | none => .ok scan.segments
  | some stop => .error stop

theorem outcome_cons (s : Segment) (scan : Scan) :
    (scan.cons s).outcome = do return s :: (← scan.outcome) := by
  obtain ⟨segments, stop⟩ := scan
  cases stop <;> rfl

theorem segments_of_outcome {scan : Scan} {segments : List Segment}
    (h : scan.outcome = .ok segments) : scan.segments = segments := by
  obtain ⟨read, stop⟩ := scan
  cases stop with
  | none => exact Except.ok.inj h
  | some stop => cases h

end Scan

/-- Reads the segments that follow the root mark or another segment. -/
def scanTail (mode : Mode) : List Char → Scan
  | [] => ⟨[], none⟩
  | c :: cs =>
    match _ : separator c cs with
    | .error stop => .stopped stop
    | .ok rest =>
      match _ : segment mode rest with
      | .error stop => .stopped stop
      | .ok (s, rest) => (scanTail mode rest).cons s
termination_by cs => cs.length
decreasing_by exact Nat.lt_of_lt_of_le (length_segment ‹_›) (length_separator ‹_›)

/-- Reads a whole path: an optional root mark, then the segments. -/
def scan (mode : Mode) : List Char → Scan
  | [] => ⟨[], none⟩
  | c :: cs =>
    if c = '$' then scanTail mode cs
    else
      match segment mode (c :: cs) with
      | .error stop => .stopped stop
      | .ok (s, rest) => (scanTail mode rest).cons s

/-- The segments that follow the root mark or another segment. -/
def tail (mode : Mode) (cs : List Char) : Except Stop (List Segment) := (scanTail mode cs).outcome

/-- The segments of a whole path. -/
def path (mode : Mode) (cs : List Char) : Except Stop (List Segment) := (scan mode cs).outcome

theorem tail_nil (mode : Mode) : tail mode [] = .ok [] := by
  rw [tail, scanTail]
  rfl

theorem tail_cons (mode : Mode) (c : Char) (cs : List Char) :
    tail mode (c :: cs) = do
      let (s, rest) ← segment mode (← separator c cs)
      return s :: (← tail mode rest) := by
  rw [tail, scanTail]
  cases separator c cs with
  | error stop => rfl
  | ok rest =>
    simp only [bind, Except.bind]
    split
    · next hs =>
      rw [hs]
      rfl
    · next hs =>
      rw [hs]
      exact Scan.outcome_cons _ _

theorem path_nil (mode : Mode) : path mode [] = .ok [] := rfl

theorem path_cons (mode : Mode) (c : Char) (cs : List Char) :
    path mode (c :: cs) =
      if c = '$' then tail mode cs
      else do
        let (s, rest) ← segment mode (c :: cs)
        return s :: (← tail mode rest) := by
  rw [path, scan]
  split
  · rfl
  · cases segment mode (c :: cs) with
    | error stop => rfl
    | ok read => exact Scan.outcome_cons _ _

end Reader

/-- Reads a search path, with positions of any size. -/
def Expression.read (mode : Mode) (text : String) : Except Malformed Expression :=
  match Reader.path mode text.toList with
  | .ok segments => .ok ⟨segments⟩
  | .error stop => .error ⟨text, text.toList.length - stop.rest.length, stop.expected⟩

/-- Reads a location, which takes exact steps only. -/
def Location.read (text : String) : Except Malformed Location :=
  (Expression.read .concrete text).map Expression.location

end TreeQuery
