import TreeQuery.Data.Refusal
import TreeQuery.Path.Spelling

/-!
# Limits on digits

A runtime may limit the digits of the numbers that it turns into text and that it reads from text. In a
path only the positions are numbers. A path is printed as its canonical text if the limit admits all of
them, and is refused otherwise.
-/

namespace TreeQuery

/-- The number of digits that the position of a segment is written with. -/
def Segment.digitCount : Segment → Nat
  | .index position _ => (Nat.toDigits 10 position).length
  | _ => 0

/-- How many digits a number may have. -/
inductive DigitLimit
  | unlimited
  | upTo (most : Nat)
  deriving DecidableEq

namespace DigitLimit

/-- The limit of a runtime that was not told another one. -/
def standard : DigitLimit := upTo 4300

def admits (limit : DigitLimit) (s : Segment) : Bool :=
  match limit with
  | unlimited => true
  | upTo most => s.digitCount ≤ most

/-- Why a segment is refused, if it is, in terms of the limit and the number of digits. -/
def refusal? (limit : DigitLimit) (cause : Nat → Nat → Refusal) (s : Segment) : Option Refusal :=
  match limit with
  | unlimited => none
  | upTo most => if s.digitCount ≤ most then none else some (cause most s.digitCount)

variable {limit : DigitLimit} {cause : Nat → Nat → Refusal} {s : Segment}

theorem refusal?_eq_none_iff : limit.refusal? cause s = none ↔ limit.admits s = true := by
  cases limit <;> simp [refusal?, admits]

theorem refusal?_eq_some_iff {refusal : Refusal} :
    limit.refusal? cause s = some refusal ↔
      ∃ most, limit = upTo most ∧ most < s.digitCount ∧ cause most s.digitCount = refusal := by
  cases limit with
  | unlimited => simp [refusal?]
  | upTo most => simp [refusal?]

theorem findSome?_refusal?_eq_none_iff {segments : List Segment} :
    segments.findSome? (limit.refusal? cause) = none ↔ ∀ s ∈ segments, limit.admits s = true := by
  simp only [List.findSome?_eq_none_iff, refusal?_eq_none_iff]

end DigitLimit

/-- The canonical text of a segment on its own, if its position can be written. -/
def Segment.print (limit : DigitLimit) (s : Segment) : Except Refusal String :=
  match limit.refusal? (fun most _ => .tooLargeToWrite most) s with
  | some refusal => .error refusal
  | none => .ok s.text

/-- The canonical text of a search path, if its positions can be written. -/
def Expression.print (limit : DigitLimit) (e : Expression) : Except Refusal String :=
  match e.segments.findSome? (limit.refusal? fun most _ => .tooLargeToWrite most) with
  | some refusal => .error refusal
  | none => .ok e.text

theorem Expression.print_eq_ok_iff {limit : DigitLimit} {e : Expression} {text : String} :
    e.print limit = .ok text ↔ (∀ s ∈ e.segments, limit.admits s = true) ∧ e.text = text := by
  rw [print]
  split
  · next refusal refused =>
    refine ⟨fun h => (by cases h), fun ⟨admitted, _⟩ => ?_⟩
    rw [DigitLimit.findSome?_refusal?_eq_none_iff.2 admitted] at refused
    cases refused
  · next admitted =>
    rw [Except.ok.injEq, and_iff_right (DigitLimit.findSome?_refusal?_eq_none_iff.1 admitted)]

end TreeQuery
