import TreeQuery.Proofs.Edit.Endings

/-!
# The outcome of an edit

The four endings of an edit are those under any reading, not only under the standard one: what decides
is where the location leads in the store, and whether the reading lets the container there be edited.
What an edit gives and how it leaves the store follows from its ending.
-/

namespace TreeQuery

namespace Reading

section Slots

variable (r : Reading) (root : Node) (place : Location) (s : Store)

/-- A location leads to the slot of its last step, in a container that the reading sees. -/
structure FindsSlot (address : Nat) (cell : Cell) (last : Step) (old : Node) : Prop where
  holder : ∃ holder : Location, place = holder.child last ∧
    r.follow? s root holder.steps = some (.container address)
  slots : s.cell? (.container address) = some cell
  seen : r.counts cell = true
  there : cell.child? last = some old

/-- In which way an edit at a location ends. -/
inductive Ends : Ending → Prop
  | atRoot (h : place = .root) : Ends .atRoot
  | missing (below : place ≠ .root) (h : r.follow? s root place.steps = none) :
    Ends (.missing (r.reach s root place.steps))
  | fixed {address : Nat} {cell : Cell} {last : Step} {old : Node}
    (slot : FindsSlot r root place s address cell last old) (h : r.editable cell = false) :
    Ends (.fixed cell last)
  | done {address : Nat} {cell : Cell} {last : Step} {old : Node}
    (slot : FindsSlot r root place s address cell last old) (h : r.editable cell = true) :
    Ends (.done address cell last old)

theorem exists_ends : ∃ ending, r.Ends root place s ending := by
  rcases place.eq_root_or_child with rfl | ⟨holder, last, rfl⟩
  · exact ⟨_, .atRoot rfl⟩
  cases there : r.follow? s root (holder.child last).steps with
  | none => exact ⟨_, .missing (holder.child_ne_root last) there⟩
  | some old =>
    obtain ⟨address, cell, hn, hc, seen, slot⟩ := exists_slot there
    have found : r.FindsSlot root (holder.child last) s address cell last old :=
      ⟨⟨holder, rfl, hn⟩, hc, seen, slot⟩
    cases editable : r.editable cell with
    | true => exact ⟨_, .done found editable⟩
    | false => exact ⟨_, .fixed found editable⟩

end Slots

variable {r : Reading} {root : Node} {place : Location} {w : World}

section Slot

variable {address : Nat} {cell : Cell} {last : Step} {old : Node}
  (slot : FindsSlot r root place w.store address cell last old)

include slot

theorem FindsSlot.setAt (child : Node) :
    TreeQuery.setAt r.access root place child w =
      if r.editable cell then
        (.ok (), ⟨w.store.write address (cell.put child last), w.log.push (.changed place)⟩)
      else (.error (.refused (.notEditable cell.typeName last.shape)), w) := by
  obtain ⟨⟨holder, rfl, hn⟩, hc, seen, there⟩ := slot
  exact setAt_run hn hc seen there child

theorem FindsSlot.removeAt :
    TreeQuery.removeAt r.access root place w =
      if r.editable cell then
        (.ok old, ⟨w.store.write address (cell.drop last), w.log.push (.removed place)⟩)
      else (.error (.refused (.notEditable cell.typeName last.shape)), w) := by
  obtain ⟨⟨holder, rfl, hn⟩, hc, seen, there⟩ := slot
  exact removeAt_run hn hc seen there

end Slot

variable {ending : Ending}

theorem Ends.setAt (h : r.Ends root place w.store ending) (child : Node) :
    (TreeQuery.setAt r.access root place child w).1 =
        ending.reply "replace" place (fun _ => ()) ∧
      (TreeQuery.setAt r.access root place child w).2.store =
        ending.after w.store (Cell.put child) := by
  cases h with
  | atRoot h =>
    subst h
    exact ⟨rfl, rfl⟩
  | missing below h =>
    obtain ⟨holder, last, rfl⟩ := place.eq_root_or_child.resolve_left below
    rw [setAt_of_missing h child]
    exact ⟨rfl, rfl⟩
  | fixed slot h =>
    rw [slot.setAt child, h]
    exact ⟨rfl, rfl⟩
  | done slot h =>
    rw [slot.setAt child, h]
    exact ⟨rfl, rfl⟩

theorem Ends.removeAt (h : r.Ends root place w.store ending) :
    (TreeQuery.removeAt r.access root place w).1 = ending.reply "remove" place id ∧
      (TreeQuery.removeAt r.access root place w).2.store = ending.after w.store Cell.drop := by
  cases h with
  | atRoot h =>
    subst h
    exact ⟨rfl, rfl⟩
  | missing below h =>
    obtain ⟨holder, last, rfl⟩ := place.eq_root_or_child.resolve_left below
    rw [removeAt_of_missing h]
    exact ⟨rfl, rfl⟩
  | fixed slot h =>
    rw [slot.removeAt, h]
    exact ⟨rfl, rfl⟩
  | done slot h =>
    rw [slot.removeAt, h]
    exact ⟨rfl, rfl⟩

end Reading

end TreeQuery
