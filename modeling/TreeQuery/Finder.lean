import TreeQuery.Cache
import TreeQuery.Path.Argument
import TreeQuery.Query.Edit

/-!
# Searching and editing by path

Paths are handed in as texts, as read search paths, as locations or as sequences of steps.
Searches take a text or a search path, and texts go through the cache. Edits take a text, a
location or steps, and never touch the cache. A finder works on the store, on the record of
events and on the cache; what it did before an error stays done.
-/

namespace TreeQuery

/-- How trees are read and how searches treat what is missing. -/
structure Settings where
  access : Access
  options : Options

/-- The world together with a cache. -/
structure Workspace (m : Memory Compiled := .recent Compiled) extends World where
  cache : Cache m

/-- Work that needs the world and a cache. -/
abbrev Finder (α : Type) (m : Memory Compiled := .recent Compiled) := Effect Error (Workspace m) α

namespace Finder

variable {α : Type} {m : Memory Compiled}

/-- An action on the world, which leaves the cache alone. -/
def onWorld (act : Action α) : Finder α m := fun w =>
  let (outcome, world) := act w.toWorld
  (outcome, { w with toWorld := world })

def ofExcept : Except Error α → Finder α m
  | .ok a => return a
  | .error e => throw e

/-- The path of a text, by way of the cache. -/
def compileText (text : String) : Finder Compiled m := fun w =>
  let (outcome, desk) := Cache.compile text ⟨w.cache, w.log⟩
  (outcome.mapError .malformed, { w with cache := desk.cache, log := desk.log })

/-- The path of a text given as a value. Any other value is recorded, counted and refused,
unless it cannot even be looked for in the cache. -/
def compileValue (v : Value) : Finder Compiled m := do
  match ← ofExcept (v.asName.mapError .refused) with
  | some text => compileText text
  | none =>
    onWorld (.record (.cacheMiss v))
    modify fun w => { w with cache := w.cache.countReading }
    throw (.argument (.notText v.typeName))

/-- The search path that is asked for. -/
def compile : PathArgument → Finder Compiled m
  | .expression e => return .given e
  | .value (.scalar (.text text)) => compileText text
  | argument => throw (.argument (.notPath argument.typeName))

variable (settings : Settings) (root : Node)

def resolve (path : PathArgument) : Finder Result m := do
  let compiled ← compile path
  onWorld (TreeQuery.resolve settings.access settings.options root compiled.expression)

/-- The nodes of all matches. -/
def find (path : PathArgument) : Finder (List Node) m := do
  return (← resolve settings root path).nodes

/-- The first match, if there is any. -/
def first (path : PathArgument) : Finder (Option Match) m := do
  return (← resolve settings root path).first?

/-- The node at a location; a default stands in where the location cannot be followed. -/
def get (path : PathArgument) (default : Option Node) : Finder Node m := do
  let place ← ofExcept path.toLocation
  match default with
  | none => onWorld (nodeAt settings.access root place)
  | some default => onWorld (nodeAtD settings.access root place default)

def set (path : PathArgument) (child : Node) : Finder Unit m := do
  let place ← ofExcept path.toLocation
  onWorld (setAt settings.access root place child)

def remove (path : PathArgument) : Finder Node m := do
  let place ← ofExcept path.toLocation
  onWorld (removeAt settings.access root place)

/-- Puts a tree into the store. -/
def load (v : Value) : Finder Node m := fun w =>
  let (node, store) := w.store.load v
  (.ok node, { w with store })

/-- The tree below a node at this moment. -/
def snapshot (n : Node) : Finder Value m := return (← MonadState.get).store.value n

/-- Runs a finder at every location and keeps its errors apart. -/
def atEach (run : Location → Finder α m) : List Location → Finder (List (Except Error α)) m
  | [] => return []
  | place :: rest => do
    let outcome ← tryCatch (return .ok (← run place)) fun e => return .error e
    return outcome :: (← atEach run rest)

/-- The locations of a result in order, or from the last to the first. -/
def inOrder (reverse : Bool) (r : Result) : List Location :=
  if reverse then r.locations.reverse else r.locations

/-- Sets the slot of every match to a node made for it. -/
def setEach (path : PathArgument) (reverse : Bool) (make : Finder Node m) :
    Finder (List (Except Error Unit)) m := do
  let result ← resolve settings root path
  atEach (fun place => do set settings root (.location place) (← make)) (inOrder reverse result)

/-- Removes every match and gives the trees that were removed, as they were then. -/
def removeEach (path : PathArgument) (reverse : Bool) : Finder (List (Except Error Value)) m := do
  let result ← resolve settings root path
  atEach (fun place => do snapshot (← remove settings root (.location place)))
    (inOrder reverse result)

end Finder

end TreeQuery
