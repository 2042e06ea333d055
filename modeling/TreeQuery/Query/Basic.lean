import TreeQuery.Access
import TreeQuery.Effect

/-!
# Results, settings and the record of a run

A search gives matches: the location of each node that was found, with the node itself. While
searches and edits run, they record events, whose texts are kept here.
-/

namespace TreeQuery

/-- How a search treats what a tree lacks. -/
structure Options where
  /-- Whether a segment that is not optional must be satisfied. -/
  strict : Bool := false
  /-- Whether a child that is null counts as absent. -/
  nullAsMissing : Bool := false
  deriving DecidableEq

namespace Options

/-- Whether a child is passed over. -/
def skips (o : Options) (child : Node) : Bool := o.nullAsMissing && child.isNull

/-- Whether a segment that is not satisfied is an error. -/
def insists (o : Options) (optional : Bool) : Bool := o.strict && !optional

/-- Settings from arbitrary values; the first that is no truth value decides the error. -/
def ofValues (strict nullAsMissing : Value) : Except ArgumentError Options :=
  match strict, nullAsMissing with
  | .scalar (.bool strict), .scalar (.bool nullAsMissing) => .ok ⟨strict, nullAsMissing⟩
  | .scalar (.bool _), got => .error (.notTruthValue "null_as_missing" got)
  | got, _ => .error (.notTruthValue "strict" got)

end Options

structure Match where
  location : Location
  node : Node
  deriving DecidableEq

/-- The matches of a search path in document order. -/
structure Result where
  expression : Expression
  found : List Match
  deriving DecidableEq

namespace Result

def count (r : Result) : Nat := r.found.length

def first? (r : Result) : Option Match := r.found.head?

def nodes (r : Result) : List Node := r.found.map Match.node

def locations (r : Result) : List Location := r.found.map Match.location

end Result

/-- What a search or an edit records while it runs. -/
inductive Event
  | cacheMiss (text : Value)
  | droppedBranch (cause : Error)
  | resolved (path : Expression) (count : Nat)
  | notFound (place : Location) (depth : Nat)
  | changed (place : Location)
  | removed (place : Location)

def Event.message : Event → String
  | cacheMiss text => "Expression cache miss for " ++ text.display
  | droppedBranch cause => "Dropping wildcard branch: " ++ cause.message
  | resolved path count => "Resolved '" ++ path.text ++ "': " ++ count.repr ++ " match(es)"
  | notFound place depth => "Path '" ++ place.text ++ "' not found at step " ++ depth.repr
  | changed place => "Set value at '" ++ place.text ++ "'"
  | removed place => "Removed value at '" ++ place.text ++ "'"

/-- The containers of all trees and what has been recorded so far. -/
structure World where
  store : Store
  log : Array Event

/-- An action on the world. An error keeps what was done before it. -/
abbrev Action := Effect Error World

namespace Action

variable {α : Type}

def record (e : Event) : Action Unit :=
  modify fun w => { w with log := w.log.push e }

/-- Reads the store through an access. -/
def read (f : Store → Except Refusal α) : Action α := do
  match f (← get).store with
  | .ok a => return a
  | .error cause => throw (.refused cause)

theorem read_run (f : Store → Except Refusal α) (w : World) :
    read f w = match f w.store with
      | .ok a => (.ok a, w)
      | .error cause => (.error (.refused cause), w) := by
  rw [read, Effect.run_bind, Effect.run_get]
  cases h : f w.store <;> simp only [h] <;> rfl

/-- Replaces the store. -/
def write (s : Store) : Action Unit :=
  modify fun w => { w with store := s }

end Action

end TreeQuery
