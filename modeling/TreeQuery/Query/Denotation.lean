import TreeQuery.Query.Walk
import TreeQuery.Reading

/-!
# What a search path denotes

A search path denotes the nodes to which steps lead that fit its segments one by one. Document
order compares two ways from a node where they part, by the places of the two slots. A segment
may also not be satisfied at a node, and then there is one obstacle. These notions speak of a
tree as a reading sees it and do not follow the walk.
-/

namespace TreeQuery

namespace Segment

/-- Whether a step is one that a segment asks for. -/
def Fits : Segment → Step → Prop
  | wildcard, _ => True
  | s, step => s.step? = some step

instance (s : Segment) (step : Step) : Decidable (s.Fits step) := by
  cases s <;> unfold Fits <;> infer_instance

end Segment

namespace Reading

variable (r : Reading) (s : Store) (o : Options)

/-- The node to which steps lead through slots that the reading sees. -/
def follow? (n : Node) : List Step → Option Node
  | [] => some n
  | step :: rest => (r.child? s n step).bind (follow? · rest)

/-- Steps that fit the segments lead from a node to another, past no skipped child. -/
inductive Denotes : List Segment → Node → List Step → Node → Prop
  | nil (n : Node) : Denotes [] n [] n
  | cons {segment : Segment} {segments : List Segment} {step : Step} {steps : List Step}
      {n child m : Node} (fits : segment.Fits step) (there : r.child? s n step = some child)
      (kept : o.skips child = false) (below : Denotes segments child steps m) :
      Denotes (segment :: segments) n (step :: steps) m

/-- The place of a slot among those of its container. -/
def rank? (n : Node) (step : Step) : Option Nat :=
  (r.children? s n).bind fun children => children.findIdx? (·.1 = step)

/-- One way from a node comes before another: where they part, its slot comes first. -/
inductive Before : Node → List Step → List Step → Prop
  | here {n : Node} {a b : Step} {p q : List Step} {i j : Nat} (hi : r.rank? s n a = some i)
      (hj : r.rank? s n b = some j) (lt : i < j) : Before n (a :: p) (b :: q)
  | later {n child : Node} {step : Step} {p q : List Step}
      (there : r.child? s n step = some child) (before : Before child p q) :
      Before n (step :: p) (step :: q)

/-- Why a segment is not satisfied at a node, if it is not. -/
def obstacle? (n : Node) : Segment → Option Obstacle
  | .key name _ =>
    match r.members? s n with
    | none => some .notAnObject
    | some members =>
      if (o.present (members.get? name)).isSome then none else some (.missingKey name)
  | .index place _ =>
    match r.elements? s n with
    | none => some .notAnArray
    | some array => if (o.present array.2[place]?).isSome then none else some (.missingIndex place)
  | .wildcard => if (r.children? s n).isSome then none else some .notAContainer

/-- A failure point of a search path: steps that fit its first segments lead to a node where
the next segment, which is not optional, is not satisfied. -/
def FailsAt (segments : List Segment) (n : Node) (steps : List Step) (obstacle : Obstacle) :
    Prop :=
  ∃ x segment, segments[steps.length]? = some segment ∧
    r.Denotes s o (segments.take steps.length) n steps x ∧
    segment.isOptional = false ∧ r.obstacle? s o x segment = some obstacle

variable {r s o}

theorem follow?_append (n : Node) (p q : List Step) :
    r.follow? s n (p ++ q) = (r.follow? s n p).bind (r.follow? s · q) := by
  induction p generalizing n with
  | nil => rfl
  | cons step rest ih =>
    simp only [List.cons_append, follow?]
    cases r.child? s n step with
    | none => rfl
    | some child => exact ih child

/-- A denoted node is where its steps lead. -/
theorem Denotes.follow? {segments : List Segment} {n m : Node} {steps : List Step}
    (h : r.Denotes s o segments n steps m) : r.follow? s n steps = some m := by
  induction h with
  | nil => rfl
  | cons _ there _ _ ih => simp [Reading.follow?, there, ih]

theorem Denotes.length_eq {segments : List Segment} {n m : Node} {steps : List Step}
    (h : r.Denotes s o segments n steps m) : steps.length = segments.length := by
  induction h with
  | nil => rfl
  | cons _ _ _ _ ih => simp [ih]

theorem Denotes.unique {segments : List Segment} {n m m' : Node} {steps : List Step}
    (h : r.Denotes s o segments n steps m) (h' : r.Denotes s o segments n steps m') : m = m' :=
  Option.some.inj (h.follow?.symm.trans h'.follow?)

/-- No way comes before itself. -/
theorem Before.irrefl {n : Node} {p : List Step} : ¬ r.Before s n p p := by
  intro h
  induction p generalizing n with
  | nil => cases h
  | cons step rest ih =>
    cases h with
    | here hi hj lt => rw [hi] at hj; cases hj; exact Nat.lt_irrefl _ lt
    | later there before => exact ih before

end Reading

end TreeQuery
