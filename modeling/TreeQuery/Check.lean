import TreeQuery.Data.Equality
import TreeQuery.Finder

/-!
# Checking what a search finds

A check compares the values of all matches with expected ones, in order. The search comes
first: its errors are reported whatever was expected. Where the two differ, the report shows
both and lists every match.
-/

namespace TreeQuery

/-- What a failed check shows. -/
structure Report where
  path : PathArgument
  expected : List Value
  found : List (Location × Value)

inductive Verdict
  | agrees
  | differs (report : Report)

namespace Report

def values (r : Report) : List Value := r.found.map Prod.snd

/-- One line for every match. -/
def matchLines (r : Report) : List String :=
  if r.found.isEmpty then ["    (none)"]
  else r.found.map fun m => "    " ++ m.1.text ++ ": " ++ m.2.display

def message (r : Report) : String :=
  "\n".intercalate <|
    [ "Search path " ++ r.path.display ++ " did not match the expected values",
      "  expected: " ++ (Value.array .list r.expected).display,
      "  actual:   " ++ (Value.array .list r.values).display,
      "  matched:" ] ++ r.matchLines

end Report

/-- Whether the matches have the expected values, in order. -/
def Verdict.of (path : PathArgument) (found : List (Location × Value)) (expected : List Value) :
    Verdict :=
  if equalItems (found.map Prod.snd) expected then agrees else differs ⟨path, expected, found⟩

/-- Searches, then compares with the items of the expected value. -/
def Finder.check (settings : Settings) (root : Node) (path : PathArgument) (expected : Value) :
    Finder Verdict := do
  let result ← resolve settings root path
  let expected ← ofExcept (expected.items.mapError .refused)
  let store := (← MonadState.get).store
  return .of path (result.found.map fun m => (m.location, store.value m.node)) expected

end TreeQuery
