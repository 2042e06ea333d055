import Mathlib.Data.Finset.Card
import Mathlib.Data.Finset.Range
import TreeQuery.Proofs.Search.Reordered

/-!
# Trees read off a store

A tree is read off a store to a depth of as many containers as the store has. That is deep enough below a
node that represents a tree: no way leads from such a node back to it, so each step leaves fewer containers
that can still be reached. What is read off is therefore the whole tree.
-/

namespace TreeQuery

namespace Store

variable {s : Store} {n m : Node} {v : Value}

/-- What holds of a node once it holds of its children holds of every node that represents a tree. -/
theorem Represents.of_children {motive : Node → Prop} (h : s.Represents n v)
    (up : ∀ {n v}, s.Represents n v →
      (∀ {step child}, s.child? n step = some child → motive child) → motive n) : motive n := by
  induction h with
  | scalar content => exact up (.scalar content) fun there => by cases there
  | @array address kind nodes items cell length below ih =>
    refine up (.array cell length below) fun {step child} there => ?_
    rw [child?, cell] at there
    cases step with
    | key name => cases there
    | index place =>
      have here : nodes[place]? = some child := there
      exact ih here (List.getElem?_eq_getElem (length ▸ (List.getElem?_eq_some_iff.1 here).1))
  | @object address kind nodes members cell names below ih =>
    refine up (.object cell names below) fun {step child} there => ?_
    rw [child?, cell] at there
    cases step with
    | index place => cases there
    | key name =>
      have here : nodes.get? name = some child := there
      obtain ⟨value, part⟩ := Members.exists_get?_of_names names here
      exact ih here part

/-- What lies below a node that represents a tree represents a part of it. -/
theorem Represents.part (h : s.Represents n v) (reaches : s.Reaches n m) :
    ∃ part, s.Represents m part := by
  obtain ⟨steps, hs⟩ := reaches
  refine h.of_children (motive := fun n => ∀ steps, s.follow? n steps = some m →
    ∃ part, s.Represents m part) (fun here ih steps hs => ?_) steps hs
  cases steps with
  | nil =>
    cases hs
    exact ⟨_, here⟩
  | cons step rest =>
    obtain ⟨child, there, onward⟩ := Option.bind_eq_some_iff.1 hs
    exact ih there rest onward

/-- A node that represents a tree does not lie below itself. -/
theorem Represents.eq_nil (h : s.Represents n v) {steps : List Step}
    (back : s.follow? n steps = some n) : steps = [] := by
  refine h.of_children (motive := fun n => ∀ steps, s.follow? n steps = some n → steps = [])
    (fun _ ih steps back => ?_) steps back
  cases steps with
  | nil => rfl
  | cons step rest =>
    -- A way back to the node turns into one from the first child on it back to that child.
    obtain ⟨child, there, onward⟩ := Option.bind_eq_some_iff.1 back
    have around : s.follow? child (rest ++ [step]) = some child := by
      rw [follow?_append, onward, Option.bind_some, follow?, there]
      rfl
    have empty := ih there _ around
    simp at empty

/-! ### Containers that can be reached -/

variable (s n) in
open Classical in
/-- The addresses of the containers that are reached from a node. -/
noncomputable def reached : Finset Nat :=
  (Finset.range s.cells.size).filter fun address => s.Reaches n (.container address)

theorem mem_reached {address : Nat} :
    address ∈ s.reached n ↔ address < s.cells.size ∧ s.Reaches n (.container address) := by
  simp [reached]

variable (s n) in
theorem card_reached_le : (s.reached n).card ≤ s.cells.size := by
  rw [← Finset.card_range s.cells.size]
  exact Finset.card_le_card fun address ha => Finset.mem_range.2 (mem_reached.1 ha).1

section Self

variable {address : Nat} {cell : Cell} (hc : s.cell? (.container address) = some cell)

include hc

/-- A container is reached from itself. -/
theorem mem_reached_self : address ∈ s.reached (.container address) :=
  mem_reached.2 ⟨(Array.getElem?_eq_some_iff.1 hc).1, Reaches.refl s _⟩

theorem card_reached_pos : 0 < (s.reached (.container address)).card :=
  Finset.card_pos.2 ⟨address, mem_reached_self hc⟩

end Self

/-- A step leaves fewer containers to be reached. -/
theorem Represents.card_reached_lt {address : Nat} (h : s.Represents (.container address) v)
    {step : Step} {child : Node} (there : s.child? (.container address) step = some child) :
    (s.reached child).card < (s.reached (.container address)).card := by
  have first : s.follow? (.container address) [step] = some child := by simp [follow?, there]
  have subset : s.reached child ⊆ s.reached (.container address) := by
    intro other ho
    obtain ⟨inside, reaches⟩ := mem_reached.1 ho
    exact mem_reached.2 ⟨inside, Reaches.trans ⟨[step], first⟩ reaches⟩
  refine Finset.card_lt_card ((Finset.ssubset_iff_of_subset subset).2 ⟨address, ?_, ?_⟩)
  · obtain ⟨cell, hc, -⟩ := Option.bind_eq_some_iff.1 there
    exact mem_reached_self hc
  · intro hc
    obtain ⟨-, steps, back⟩ := mem_reached.1 hc
    have around : s.follow? (.container address) ([step] ++ steps) = some (.container address) := by
      rw [follow?_append, first, Option.bind_some, back]
    cases h.eq_nil around

/-! ### Reading off the tree -/

/-- A depth for all containers that can be reached is enough. -/
theorem Represents.treeTo (h : s.Represents n v) {depth : Nat}
    (enough : (s.reached n).card ≤ depth) : s.Represents n (s.treeTo depth n) := by
  refine h.of_children (motive := fun n => ∀ depth, (s.reached n).card ≤ depth →
    s.Represents n (s.treeTo depth n)) (fun whole ih depth enough => ?_) depth enough
  cases whole with
  | scalar content => cases depth <;> exact .scalar content
  | @array address kind nodes items cell length below =>
    obtain ⟨depth, rfl⟩ := Nat.exists_eq_add_one.2 ((card_reached_pos cell).trans_le enough)
    simp only [Store.treeTo, cell]
    refine .array cell (by simp) fun {place node item} here there => ?_
    rw [List.getElem?_map, here] at there
    cases there
    have slot : s.child? (.container address) (.index place) = some node := by
      simp [child?, cell, Cell.child?, here]
    have fewer := (Represents.array cell length below).card_reached_lt slot
    exact ih slot _ (by omega)
  | @object address kind nodes members cell names below =>
    obtain ⟨depth, rfl⟩ := Nat.exists_eq_add_one.2 ((card_reached_pos cell).trans_le enough)
    simp only [Store.treeTo, cell]
    have read : Members.ofList (nodes.entries.map fun e => (e.1, s.treeTo depth e.2)) =
        nodes.map (s.treeTo depth) := Members.ofList_entries (nodes.map (s.treeTo depth))
    have same : nodes.names = (nodes.map (s.treeTo depth)).names := by
      simp [Members.names, Members.map, Function.comp_def]
    refine .object cell (by rw [read, ← same]) fun {name node value} here there => ?_
    rw [read, Members.get?_map, here] at there
    cases there
    have slot : s.child? (.container address) (.key name) = some node := by
      simp [child?, cell, Cell.child?, here]
    have fewer := (Represents.object cell names below).card_reached_lt slot
    exact ih slot _ (by omega)

/-- A node that represents a tree represents the one that is read off below it. -/
theorem Represents.value (h : s.Represents n v) : s.Represents n (s.value n) :=
  h.treeTo (card_reached_le s n)

end Store

end TreeQuery
