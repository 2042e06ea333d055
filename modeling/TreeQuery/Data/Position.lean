/-!
# Positions that may count from the end

A position in a sequence counts from the start, or from the end when it is negative: `-1` is
the last place. Positions in stored sequences are words of
64 bits.
-/

namespace TreeQuery

/-- The place of a position in a sequence of some length, if the sequence reaches that far. -/
def placeOf? (length : Nat) : Int → Option Nat
  | .ofNat n => if n < length then some n else none
  | .negSucc n => if n < length then some (length - 1 - n) else none

theorem placeOf?_lt {length place : Nat} {position : Int}
    (h : placeOf? length position = some place) : place < length := by
  cases position <;> simp only [placeOf?] at h <;> split at h <;> cases h <;> omega

theorem placeOf?_natCast {length n : Nat} (h : n < length) :
    placeOf? length (n : Int) = some n := by
  simp [placeOf?, h]

/-- The first integer past the words. -/
def wordBound : Int := 0x8000000000000000

/-- Whether a position does not fit into a word. -/
def isWide (position : Int) : Bool := position < -wordBound || wordBound ≤ position

/-- The item at a position. -/
def itemAt? {α : Type} (items : List α) (position : Int) : Option α :=
  (placeOf? items.length position).bind (items[·]?)

end TreeQuery
