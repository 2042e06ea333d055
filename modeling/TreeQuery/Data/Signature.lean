import TreeQuery.Data.Refusal

/-!
# How many arguments an operation takes

Operations that are called by name take exactly as many arguments as they have parameters. What
is missing is named, and what is too much is counted.
-/

namespace TreeQuery

structure Signature where
  name : String
  parameters : List String

/-- Whether an operation can be called with a number of arguments. -/
def Signature.check (s : Signature) (given : Nat) : Except Refusal Unit :=
  if given < s.parameters.length then
    .error (.missingArguments s.name (s.parameters.drop given))
  else if s.parameters.length < given then
    .error (.extraArguments s.name s.parameters.length given)
  else .ok ()

theorem Signature.check_eq_ok_iff (s : Signature) (given : Nat) :
    s.check given = .ok () ↔ given = s.parameters.length := by
  unfold check
  split
  · simp; omega
  · split <;> simp <;> omega

end TreeQuery
