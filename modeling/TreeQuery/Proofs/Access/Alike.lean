import TreeQuery.Proofs.Edit.Descent
import TreeQuery.Proofs.Search.DocumentOrder

/-!
# Trees that look alike

Searches and edits depend on what a reading sees of a tree, and on nothing else of the store. Two
readings, each of a store of its own, find a tree alike when they see the same slots of its root and
of all nodes below it. A walk is then the same work under both, and steps lead to the same nodes or
stop after the same number.
-/

namespace TreeQuery

/-- Only the children that are there are tried. -/
theorem Walk.branches_congr {o : Options} {run other : Step → Node → Walk Unit}
    {children : List (Step × Node)}
    (h : ∀ step child, (step, child) ∈ children → run step child = other step child) :
    Walk.branches o run children = Walk.branches o other children := by
  induction children with
  | nil => rfl
  | cons e rest ih =>
    obtain ⟨step, child⟩ := e
    have first := h step child List.mem_cons_self
    have later := ih fun step child hm => h step child (List.mem_cons_of_mem _ hm)
    simp only [branches, first, later]

namespace Reading

variable (r : Reading) (s : Store) (r' : Reading) (s' : Store)

/-- Two readings, each of its own store, see the same slots of a node and of all nodes below it. -/
structure Alike (n : Node) : Prop where
  members : ∀ {steps m}, r.follow? s n steps = some m → r'.members? s' m = r.members? s m
  elements : ∀ {steps m}, r.follow? s n steps = some m → r'.elements? s' m = r.elements? s m

namespace Alike

variable {r s r' s'} {n : Node}

/-- A tree that looks alike does so below each of its nodes. -/
theorem below (h : Alike r s r' s' n) {step : Step} {child : Node}
    (there : r.child? s n step = some child) : Alike r s r' s' child := by
  have longer : ∀ steps, r.follow? s n (step :: steps) = r.follow? s child steps := by
    intro steps
    rw [Reading.follow?, there, Option.bind_some]
  constructor
  · intro steps m hm
    exact h.members ((longer steps).trans hm)
  · intro steps m hm
    exact h.elements ((longer steps).trans hm)

/-! ### One node -/

section Node

variable (h : Alike r s r' s' n)

include h

theorem members?_eq : r'.members? s' n = r.members? s n := by
  have here : r.follow? s n [] = some n := rfl
  exact h.members here

theorem elements?_eq : r'.elements? s' n = r.elements? s n := by
  have here : r.follow? s n [] = some n := rfl
  exact h.elements here

theorem child?_eq (step : Step) : r'.child? s' n step = r.child? s n step := by
  unfold Reading.child?
  rw [h.members?_eq, h.elements?_eq]

theorem children?_eq : r'.children? s' n = r.children? s n := by
  unfold Reading.children?
  rw [h.members?_eq, h.elements?_eq]

theorem obstacle?_eq (o : Options) (segment : Segment) :
    r'.obstacle? s' o n segment = r.obstacle? s o n segment := by
  unfold Reading.obstacle?
  rw [h.members?_eq, h.elements?_eq, h.children?_eq]

end Node

/-! ### Whole trees -/

/-- A walk is the same work under both readings. By induction on the segments; every child that a
segment selects looks alike again. -/
theorem walk_eq (h : Alike r s r' s' n) (o : Options) (segments : List Segment) (place : Location) :
    walk r'.access s' o segments n place = walk r.access s o segments n place := by
  induction segments generalizing n place with
  | nil => rfl
  | cons segment rest ih =>
    rcases obstacle_or_child_or_children r s o n segment with
      ⟨obstacle, ho⟩ | ⟨step, child, hs, hp⟩ | ⟨rfl, children, hc⟩
    · have ho' := (h.obstacle?_eq o segment).trans ho
      rw [walk_of_obstacle rest n place ho, walk_of_obstacle rest n place ho']
    · have hp' : o.present (r'.child? s' n step) = some child := by rw [h.child?_eq, hp]
      have there := (Options.present_eq_some_iff.1 hp).1
      rw [walk_of_present rest n place hs hp, walk_of_present rest n place hs hp']
      exact ih (h.below there) _
    · have hc' := h.children?_eq.trans hc
      rw [walk_wildcard rest n place hc, walk_wildcard rest n place hc']
      apply Walk.branches_congr
      intro step child hm
      have there : r.child? s n step = some child := mem_children?_iff.1 (by rw [hc]; exact hm)
      exact ih (h.below there) _

theorem follow?_eq (h : Alike r s r' s' n) (steps : List Step) :
    r'.follow? s' n steps = r.follow? s n steps := by
  induction steps generalizing n with
  | nil => rfl
  | cons step rest ih =>
    rw [Reading.follow?, Reading.follow?, h.child?_eq]
    cases hc : r.child? s n step with
    | none => rfl
    | some child => exact ih (h.below hc)

theorem reach_eq (h : Alike r s r' s' n) (steps : List Step) :
    r'.reach s' n steps = r.reach s n steps := by
  induction steps generalizing n with
  | nil => rfl
  | cons step rest ih =>
    rw [Reading.reach, Reading.reach, h.child?_eq]
    cases hc : r.child? s n step with
    | none => rfl
    | some child => exact congrArg (· + 1) (ih (h.below hc))

end Alike

end Reading

end TreeQuery
