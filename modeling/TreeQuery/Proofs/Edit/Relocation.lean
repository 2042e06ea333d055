import TreeQuery.Proofs.Edit.Frame
import TreeQuery.Proofs.Edit.Loading
import TreeQuery.Proofs.Edit.Reads

/-!
# Where everything is after a removal

After a slot of an unshared tree was removed, every location reads as one location did before. A removed
member is missing and all else is where it was. After an element was removed, what lies below a later
place of the same array is found one place earlier. What was removed is as it was, but no longer in the
tree.
-/

namespace TreeQuery

namespace Cell

variable {cell : Cell} {old : Node}

theorem child?_drop_key {name : String} (there : cell.child? (.key name) = some old) (step : Step) :
    (cell.drop (.key name)).child? step =
      if step = .key name then none else cell.child? step := by
  cases cell with
  | array kind items => cases there
  | object kind members =>
    cases step with
    | index place => rfl
    | key other => simp [drop, child?, eq_comm]

theorem child?_drop_index {place : Nat} (there : cell.child? (.index place) = some old) (i : Nat) :
    (cell.drop (.index place)).child? (.index i) =
      cell.child? (.index (if i < place then i else i + 1)) := by
  cases cell with
  | object kind members => cases there
  | array kind items =>
    simp only [drop, child?, List.getElem?_eraseIdx]
    split <;> rfl

theorem child?_drop_index_key {place : Nat} (there : cell.child? (.index place) = some old)
    (name : String) : (cell.drop (.index place)).child? (.key name) = cell.child? (.key name) := by
  cases cell with
  | object kind members => cases there
  | array kind items => rfl

end Cell

namespace Reading

section Drop

variable {r : Reading} {s : Store} {root old : Node} {address : Nat} {cell : Cell} {q : List Step}
  (hc : s.cell? (.container address) = some cell) (seen : r.counts cell = true)
  (unshared : r.Unshared s root) (hn : r.follow? s root q = some (.container address))

include hc seen unshared hn

theorem lookUp_drop_key_self {name : String} (there : cell.child? (.key name) = some old)
    (rest : List Step) :
    r.lookUp (s.write address (cell.drop (.key name))) root (q ++ .key name :: rest) =
      .error q.length := by
  apply lookUp_write_missing hc seen unshared hn (Cell.deleted_drop there).kind_eq
  rw [Cell.child?_drop_key there, if_pos rfl]

theorem lookUp_drop_key {name : String} (there : cell.child? (.key name) = some old)
    {steps : List Step} (apart : ¬ q ++ [.key name] <+: steps) :
    r.lookUp (s.write address (cell.drop (.key name))) root steps = r.lookUp s root steps := by
  apply lookUp_write_untouched hc seen unshared hn (Cell.deleted_drop there).kind_eq
  intro step rest through
  rw [Cell.child?_drop_key there, if_neg]
  rintro rfl
  exact apart ⟨rest, by simp [through]⟩

/-- Places from the removed one on are read as the next place was. -/
theorem lookUp_drop_index {place : Nat} (there : cell.child? (.index place) = some old) (i : Nat)
    (rest : List Step) :
    r.lookUp (s.write address (cell.drop (.index place))) root (q ++ .index i :: rest) =
      r.lookUp s root (q ++ .index (if i < place then i else i + 1) :: rest) :=
  lookUp_write_moved hc seen unshared hn (Cell.deleted_drop there).kind_eq
    (Cell.child?_drop_index there i) rest

theorem lookUp_drop_index_elsewhere {place : Nat} (there : cell.child? (.index place) = some old)
    {steps : List Step} (apart : ∀ i, ¬ q ++ [.index i] <+: steps) :
    r.lookUp (s.write address (cell.drop (.index place))) root steps = r.lookUp s root steps := by
  apply lookUp_write_untouched hc seen unshared hn (Cell.deleted_drop there).kind_eq
  intro step rest through
  cases step with
  | key name => exact Cell.child?_drop_index_key there name
  | index i => exact absurd ⟨rest, by simp [through]⟩ (apart i)

end Drop

end Reading

/-- The tree below a child of a container is not changed by new slots for the container. -/
theorem Store.value_write_child {s : Store} {root child : Node} {address : Nat} {cell : Cell}
    {q : List Step} {step : Step} (unshared : s.Unshared root)
    (hn : s.follow? root q = some (.container address))
    (hc : s.cell? (.container address) = some cell) (there : cell.child? step = some child)
    (slots : Cell) : (s.write address slots).value child = s.value child := by
  apply value_write
  rintro ⟨steps, again⟩
  have back : s.follow? (.container address) (step :: steps) = some (.container address) := by
    simp [follow?, child?, hc, there, again]
  cases unshared.acyclic hn back

/-- What a removal makes of reading in the tree. Where a member was removed, locations at or below it are
missing from the depth of its object on, and all other locations read as before. Where an element was
removed, a location through an earlier place of its array reads as before, one through its own place or
a later one reads as the same location through the next place did, down to the depth that an error
tells, and all locations that do not lead through this array read as before. The container loses exactly
the one slot. The removed node is the one that was read there, and nothing below it changes. -/
theorem reads_after_remove (r : Reading) (root old : Node) (holder : Location) (last : Step)
    (w w' : World) (unshared : r.Unshared w.store root)
    (removed : removeAt r.access root (holder.child last) w = (.ok old, w')) :
    let before (place : Location) := (nodeAt r.access root place w).1
    let after (place : Location) := (nodeAt r.access root place w').1
    (∀ name, last = .key name →
      (∀ rest, let place := (holder.child last).append rest
        after place = .error (.notFound place holder.length)) ∧
      ∀ place, ¬ (holder.child last).steps <+: place.steps → after place = before place) ∧
    (∀ k, last = .index k →
      (∀ j rest, let place := (holder.child (.index j)).append rest
        (j < k → after place = before place) ∧
        (k ≤ j → after place = (before ((holder.child (.index (j + 1))).append rest)).mapError
          (Error.toldOf place))) ∧
      ∀ place, (∀ j, ¬ (holder.child (.index j)).steps <+: place.steps) →
        after place = before place) ∧
    SlotChanged r root (holder.child last) w (Cell.Deleted old) w'.store ∧
    before (holder.child last) = .ok old ∧
    (∀ place, (nodeAt r.access old place w').1 = (nodeAt r.access old place w).1) ∧
    (∀ steps n, r.follow? w.store old steps = some n → w'.store.cell? n = w.store.cell? n) ∧
    (w.store.Unshared root → w'.store.value old = w.store.value old) := by
  intro before after
  obtain ⟨address, cell, last', slot, editable⟩ :=
    removeAt_eq_ok_iff.1 (congrArg Prod.fst removed)
  have run := slot.removeAt
  rw [editable, if_pos rfl, removed] at run
  cases run
  have changed := slotChanged_write slot (Cell.deleted_drop slot.there)
  have found := nodeAt_eq_ok_iff.2 slot.follow?
  obtain ⟨⟨holder', same, hn⟩, hc, seen, there⟩ := slot
  obtain ⟨rfl, rfl⟩ := Location.child_inj.1 same
  refine ⟨?_, ?_, changed, found, ?_, ?_, ?_⟩
  · rintro name rfl
    constructor
    · intro rest place
      have gone := Reading.lookUp_drop_key_self hc seen unshared hn there rest.steps
      rw [← Location.steps_append_child] at gone
      simp only [after, Reading.nodeAt_lookUp, place, gone]
      rfl
    · intro place apart
      exact Reading.nodeAt_of_lookUp (Reading.lookUp_drop_key hc seen unshared hn there apart)
  · rintro k rfl
    constructor
    · intro j rest place
      have moved := Reading.lookUp_drop_index hc seen unshared hn there j rest.steps
      rw [← Location.steps_append_child, ← Location.steps_append_child] at moved
      constructor
      · intro earlier
        rw [if_pos earlier] at moved
        exact Reading.nodeAt_of_lookUp moved
      · intro later
        rw [if_neg (Nat.not_lt.2 later)] at moved
        exact Reading.nodeAt_toldOf moved
    · intro place apart
      exact Reading.nodeAt_of_lookUp
        (Reading.lookUp_drop_index_elsewhere hc seen unshared hn there apart)
  · intro place
    exact Reading.nodeAt_of_lookUp
      (Reading.lookUp_write_below hc seen unshared hn there place.steps)
  · intro steps n reached
    rw [Store.cell?_write, if_neg]
    rintro rfl
    exact Reading.follow?_ne_holder hc seen unshared hn there steps reached
  · intro unshared
    exact Store.value_write_child unshared (Reading.follow?_store hn) hc there _

/-- The tree `{"a": [1, [2]], "b": {"c": 3}}`, just loaded. -/
def listInObject : Node × Store :=
  Store.empty.load <| .object .mapping
    [("a", .array .list [.int 1, .array .list [.int 2]]), ("b", .object .mapping [("c", .int 3)])]

/-- After the first of two elements was removed, the second is read in its place, its own place is
missing, and the other member is read as before. -/
theorem reads_after_first_removed :
    let w : World := ⟨listInObject.2, #[]⟩
    let array : Location := ⟨[.key "a"]⟩
    let removal := removeAt Reading.standard.access listInObject.1 (array.child (.index 0)) w
    let after (steps : List Step) :=
      (nodeAt Reading.standard.access listInObject.1 ⟨steps⟩ removal.2).1
    Reading.standard.Unshared w.store listInObject.1 ∧ removal.1 = .ok (.scalar (.int 1)) ∧
      after [.key "a", .index 0, .index 0] = .ok (.scalar (.int 2)) ∧
      after [.key "a", .index 1] = .error (.notFound ⟨[.key "a", .index 1]⟩ 1) ∧
      after [.key "b", .key "c"] = .ok (.scalar (.int 3)) := by
  intro w array removal after
  have unshared : Reading.standard.Unshared w.store listInObject.1 :=
    Reading.unshared_of_store (Store.unshared_load Store.tidy_empty _)
  obtain ⟨-, elements, -⟩ := reads_after_remove Reading.standard listInObject.1 (.scalar (.int 1))
    array (.index 0) w removal.2 unshared rfl
  obtain ⟨through, elsewhere⟩ := elements 0 rfl
  refine ⟨unshared, rfl, ?_, ?_, ?_⟩
  · exact (through 0 ⟨[.index 0]⟩).2 (Nat.le_refl 0)
  · exact (through 1 ⟨[]⟩).2 (Nat.zero_le 1)
  · apply elsewhere
    intro j
    simp [array, Location.child]

end TreeQuery
