import TreeQuery.Query.Basic

/-!
# Walking a tree along a path

The walk goes depth first and takes one segment at each level. Where the segments end, the
node is a match; the children of a wildcard are tried in their order. A segment that is not
satisfied ends its branch quietly, unless the options insist on it: then the walk fails with
the location it had reached. Under a wildcard such a failure drops the branch alone. Matches
and events are recorded as they come.
-/

namespace TreeQuery

/-- What a walk has recorded so far. -/
structure Trail where
  found : Array Match
  log : Array Event

abbrev Walk := Effect Error Trail

namespace Walk

def emit (m : Match) : Walk Unit :=
  modify fun t => { t with found := t.found.push m }

def record (e : Event) : Walk Unit :=
  modify fun t => { t with log := t.log.push e }

def read {α : Type} : Except Refusal α → Walk α
  | .ok a => return a
  | .error cause => throw (.refused cause)

/-- Ends a branch at a segment that is not satisfied. -/
def fail (o : Options) (optional : Bool) (place : Location) (obstacle : Obstacle) : Walk Unit :=
  if o.insists optional then throw (.unresolved place obstacle) else pure ()

/-- Runs one branch of a wildcard, which an obstacle drops. -/
def branch (run : Walk Unit) : Walk Unit :=
  tryCatch run fun e =>
    match e with
    | .unresolved _ _ => record (.droppedBranch e)
    | e => throw e

/-- Runs the branches of a wildcard in order, skipped children left out. -/
def branches (o : Options) (run : Step → Node → Walk Unit) : List (Step × Node) → Walk Unit
  | [] => pure ()
  | (step, child) :: rest => do
    unless o.skips child do branch (run step child)
    branches o run rest

end Walk

/-- A child that is there and is not skipped. -/
def Options.present (o : Options) (child? : Option Node) : Option Node :=
  child?.filter (!o.skips ·)

/-- Walks the segments from a node that lies at a location. -/
def walk (a : Access) (s : Store) (o : Options) : List Segment → Node → Location → Walk Unit
  | [], n, place => Walk.emit ⟨place, n⟩
  | .key name optional :: rest, n, place => do
    if a.isObject s n then
      match o.present (← Walk.read (a.member? s n name)) with
      | some child => walk a s o rest child (place.child (.key name))
      | none => Walk.fail o optional place (.missingKey name)
    else Walk.fail o optional place .notAnObject
  | .index position optional :: rest, n, place => do
    if a.isArray s n then
      match o.present (← Walk.read (a.element? s n position)) with
      | some child => walk a s o rest child (place.child (.index position))
      | none => Walk.fail o optional place (.missingIndex position)
    else Walk.fail o optional place .notAnArray
  | .wildcard :: rest, n, place => do
    match ← Walk.read (a.children? s n) with
    | some children =>
      Walk.branches o (fun step child => walk a s o rest child (place.child step)) children
    | none => Walk.fail o false place .notAContainer

/-- All matches of a search path below a root, in document order. -/
def resolve (a : Access) (o : Options) (root : Node) (e : Expression) : Action Result := fun w =>
  match walk a w.store o e.segments root .root ⟨#[], w.log⟩ with
  | (.ok (), trail) =>
    (.ok ⟨e, trail.found.toList⟩,
      { w with log := trail.log.push (.resolved e trail.found.size) })
  | (.error cause, trail) => (.error cause, { w with log := trail.log })

end TreeQuery
