/-!
# Exact values of numbers

Integers have arbitrary size and doubles are carried as decimal literals. Two numbers are
equal when their exact values are: the value of a literal is that of the double nearest to
the decimal it spells, with ties to the even significand.
-/

namespace TreeQuery

/-- The exact value of a number. -/
inductive Number
  | finite (value : Rat)
  | infinite (negative : Bool)
  | undefined
  deriving DecidableEq

namespace Number

/-- The undefined value differs from every number, itself included. -/
def equal : Number → Number → Bool
  | undefined, _ | _, undefined => false
  | a, b => decide (a = b)

/-- Whether a number lies below an integer; the undefined value does not. -/
def isBelow (bound : Int) : Number → Bool
  | finite value => decide (value < bound)
  | infinite negative => negative
  | undefined => false

/-- The largest `e` with `2 ^ e ≤ q`, for positive `q`. -/
def floorLog2 (q : Rat) : Int :=
  let e : Int := (q.num.natAbs.log2 : Int) - (q.den.log2 : Int)
  if q < 2 ^ e then e - 1 else e

/-- The nearest integer; a half goes to the even neighbour. -/
def nearestEven (q : Rat) : Int :=
  let low := q.floor
  let gap := q - low
  if gap < 1 / 2 then low
  else if 1 / 2 < gap then low + 1
  else if low % 2 = 0 then low else low + 1

/-- The value of one unit in the last of 53 significant bits, no finer than `2 ^ -1074`. -/
def lastPlace (q : Rat) : Rat :=
  2 ^ max (floorLog2 q.abs - 52) (-1074)

/-- The double nearest to a rational; from `2 ^ 1024` on it is infinite. -/
def nearestDouble (q : Rat) : Number :=
  if q = 0 then finite 0
  else
    let value := nearestEven (q / lastPlace q) * lastPlace q
    if value.abs < 2 ^ (1024 : Int) then finite value else infinite (decide (q < 0))

/-- The number that decimal digits spell. -/
def ofDigits (digits : List Char) : Nat :=
  Nat.ofDigitChars 10 digits 0

/-- Cuts a text at the first character of the given ones, which is dropped. -/
def cut (marks : List Char) (text : List Char) : List Char × List Char :=
  (text.takeWhile (· ∉ marks), (text.dropWhile (· ∉ marks)).drop 1)

/-- The exponent after the letter `e`; none stands for zero. -/
def exponent : List Char → Int
  | '-' :: digits => -(ofDigits digits : Int)
  | '+' :: digits => ofDigits digits
  | digits => ofDigits digits

/-- The decimal spelled by digits with an optional point and an optional exponent. -/
def decimal (text : List Char) : Rat :=
  let (significand, scale) := cut ['e'] text
  let (whole, fraction) := cut ['.'] significand
  ofDigits (whole ++ fraction) * (10 : Rat) ^ (exponent scale - fraction.length)

/-- The value of a literal without its sign. -/
def unsigned : List Char → Number
  | ['n', 'a', 'n'] => undefined
  | ['i', 'n', 'f'] => infinite false
  | text => nearestDouble (decimal text)

def negate : Number → Number
  | finite q => finite (-q)
  | infinite negative => infinite !negative
  | undefined => undefined

/-- The value of the literal of a double. -/
def ofLiteral (literal : String) : Number :=
  match literal.toList with
  | '-' :: text => negate (unsigned text)
  | text => unsigned text

theorem equal_iff {a b : Number} : equal a b = true ↔ a = b ∧ a ≠ undefined := by
  cases a <;> cases b <;> simp [equal]

end Number

end TreeQuery
