import TreeQuery.Proofs.Access.Alike
import TreeQuery.Proofs.Access.Attributes
import TreeQuery.Proofs.Edit.Revision
import TreeQuery.Store.Records

/-!
# Records do like mappings

Nothing in a search or an edit looks at a container but through the access. So a tree of mappings and
lists under the standard reading, and the same tree with records in place of its mappings under the
record reading, give the same results, the same errors and the same events, and an edit leaves two
trees that correspond again. When the records are edited by attributes this stays so but where an edit of
the mappings succeeds at a reserved name: the records refuse it and stay as they are.
-/

namespace TreeQuery

/-- A world with records in place of its mappings. -/
def World.asRecords (w : World) : World := { w with store := w.store.asRecords }

namespace Reading

/-! ### What the two readings see -/

/-- The record reading sees a plain container with records as the standard reading sees the container
itself. -/
theorem sees_asRecords {s : Store} {n : Node}
    (plain : ∀ cell, s.cell? n = some cell → cell.isPlain = true) :
    records.members? s.asRecords n = standard.members? s n ∧
      records.elements? s.asRecords n = standard.elements? s n := by
  unfold members? elements?
  rw [Store.cell?_asRecords]
  cases hc : s.cell? n with
  | none => exact ⟨rfl, rfl⟩
  | some cell =>
    cases cell with
    | array kind items =>
      have list : kind = .list := by simpa [Cell.isPlain] using plain _ hc
      subst list
      exact ⟨rfl, rfl⟩
    | object kind members =>
      have mapping : kind = .mapping := by simpa [Cell.isPlain] using plain _ hc
      subst mapping
      exact ⟨rfl, rfl⟩

/-- A plain tree looks alike when its mappings are records. -/
theorem alike_asRecords {s : Store} {n : Node} (plain : s.Plain n) :
    Alike standard s records s.asRecords n := by
  constructor
  · intro steps m there
    exact (sees_asRecords fun cell => plain m cell ⟨steps, follow?_store there⟩).1
  · intro steps m there
    exact (sees_asRecords fun cell => plain m cell ⟨steps, follow?_store there⟩).2

/-- Plain containers can be edited, and so can records in place of mappings. -/
theorem editable_of_isPlain {cell : Cell} (h : cell.isPlain = true) :
    standard.editable cell = true ∧
      records.counts cell.asRecords = true ∧ records.editable cell.asRecords = true := by
  cases cell with
  | array kind items =>
    have list : kind = .list := by simpa [Cell.isPlain] using h
    subst list
    exact ⟨rfl, rfl, rfl⟩
  | object kind members =>
    have mapping : kind = .mapping := by simpa [Cell.isPlain] using h
    subst mapping
    exact ⟨rfl, rfl, rfl⟩

end Reading

/-! ### Searches and edits -/

section Actions

variable {root : Node} {w : World} (plain : w.store.Plain root)

include plain

theorem resolve_asRecords (o : Options) (e : Expression) :
    resolve Reading.records.access o root e w.asRecords =
      Prod.map id World.asRecords (resolve Reading.standard.access o root e w) := by
  have same := (Reading.alike_asRecords plain).walk_eq o e.segments .root
  simp only [resolve, World.asRecords, same]
  rcases walk Reading.standard.access w.store o e.segments root .root ⟨#[], w.log⟩ with
    ⟨cause | done, trail⟩
  · rfl
  · rfl

theorem nodeAt_asRecords (place : Location) :
    nodeAt Reading.records.access root place w.asRecords =
      Prod.map id World.asRecords (nodeAt Reading.standard.access root place w) := by
  have alike := Reading.alike_asRecords plain
  rw [nodeAt_run, nodeAt_run, World.asRecords, alike.follow?_eq, alike.reach_eq]
  cases Reading.standard.follow? w.store root place.steps <;> rfl

theorem nodeAtD_asRecords (place : Location) (default : Node) :
    nodeAtD Reading.records.access root place default w.asRecords =
      Prod.map id World.asRecords (nodeAtD Reading.standard.access root place default w) := by
  rw [nodeAtD, nodeAtD, Effect.run_tryCatch, Effect.run_tryCatch, nodeAt_asRecords plain]
  rcases nodeAt Reading.standard.access root place w with ⟨cause | n, after⟩
  · cases cause <;> rfl
  · rfl

/-- A location is the root, or both readings miss its slot, or both find it, in a container that they
let an edit change. -/
theorem slot_cases_asRecords (place : Location) :
    place = .root ∨
    (∃ (holder : Location) (last : Step), place = holder.child last ∧
      Reading.standard.follow? w.store root place.steps = none ∧
      Reading.records.follow? w.asRecords.store root place.steps = none) ∨
    ∃ address cell last old,
      Reading.standard.FindsSlot root place w.store address cell last old ∧
      Reading.records.FindsSlot root place w.asRecords.store address cell.asRecords last old ∧
      Reading.standard.editable cell = true ∧ Reading.records.editable cell.asRecords = true := by
  have alike := Reading.alike_asRecords plain
  rcases place.eq_root_or_child with rfl | ⟨holder, last, rfl⟩
  · exact .inl rfl
  cases there : Reading.standard.follow? w.store root (holder.child last).steps with
  | none => exact .inr (.inl ⟨holder, last, rfl, rfl, (alike.follow?_eq _).trans there⟩)
  | some old =>
    obtain ⟨address, cell, hn, hc, seen, slot⟩ := Reading.exists_slot there
    have hp := plain _ cell ⟨_, Reading.follow?_store hn⟩ hc
    obtain ⟨editable, seen', editable'⟩ := Reading.editable_of_isPlain hp
    have hn' := (alike.follow?_eq holder.steps).trans hn
    refine .inr (.inr ⟨address, cell, last, old, ⟨⟨holder, rfl, hn⟩, hc, seen, slot⟩,
      ⟨⟨holder, rfl, hn'⟩, ?_, seen', ?_⟩, editable, editable'⟩)
    · simp [World.asRecords, hc]
    · rw [cell.child?_asRecords, slot]

theorem setAt_asRecords (place : Location) (child : Node) :
    setAt Reading.records.access root place child w.asRecords =
      Prod.map id World.asRecords (setAt Reading.standard.access root place child w) := by
  rcases slot_cases_asRecords plain place with
    rfl | ⟨holder, last, rfl, missing, missing'⟩ |
    ⟨address, cell, last, old, slot, slot', editable, editable'⟩
  · rfl
  · have reach := (Reading.alike_asRecords plain).reach_eq (holder.child last).steps
    rw [setAt_of_missing missing, setAt_of_missing missing', World.asRecords, reach]
    rfl
  · rw [slot.setAt, slot'.setAt, if_pos editable, if_pos editable', cell.put_asRecords]
    simp [World.asRecords, Store.write_asRecords]

theorem removeAt_asRecords (place : Location) :
    removeAt Reading.records.access root place w.asRecords =
      Prod.map id World.asRecords (removeAt Reading.standard.access root place w) := by
  rcases slot_cases_asRecords plain place with
    rfl | ⟨holder, last, rfl, missing, missing'⟩ |
    ⟨address, cell, last, old, slot, slot', editable, editable'⟩
  · rfl
  · have reach := (Reading.alike_asRecords plain).reach_eq (holder.child last).steps
    rw [removeAt_of_missing missing, removeAt_of_missing missing', World.asRecords, reach]
    rfl
  · rw [slot.removeAt, slot'.removeAt, if_pos editable, if_pos editable', cell.drop_asRecords]
    simp [World.asRecords, Store.write_asRecords]

end Actions

/-- A tree of mappings, lists and scalars, however its containers are shared, and the same tree with
records in place of the mappings cannot be told apart by a search or by reading: the second gives by
attributes what the first gives under the standard reading, the same nodes at the same locations, or the
same error. Setting and removing at a location do the same too, and the containers that they leave are
those of the first tree with records in place of the mappings, unless the last step has a reserved name
and the slot is there: the mapping is then edited, and the record refuses and nothing changes. The trees
below the nodes correspond in the same way, and so do trees that are put into a store. -/
theorem records_like_mappings (root : Node) (w : World) (plain : w.store.Plain root) :
    (∀ o e, resolve .attributes o root e w.asRecords =
      Prod.map id World.asRecords (resolve Reading.standard.access o root e w)) ∧
    (∀ place, nodeAt .attributes root place w.asRecords =
      Prod.map id World.asRecords (nodeAt Reading.standard.access root place w)) ∧
    (∀ place default, nodeAtD .attributes root place default w.asRecords =
      Prod.map id World.asRecords (nodeAtD Reading.standard.access root place default w)) ∧
    (∀ place child, setAt .attributes root place child w.asRecords =
      match place.reserved?, setAt Reading.standard.access root place child w with
      | some kept, (.ok (), _) => (.error (.refused (kept.setting w.asRecords.store child)), w.asRecords)
      | _, done => Prod.map id World.asRecords done) ∧
    (∀ place, removeAt .attributes root place w.asRecords =
      match place.reserved?, removeAt Reading.standard.access root place w with
      | some kept, (.ok _, _) => (.error (.refused kept.removal), w.asRecords)
      | _, done => Prod.map id World.asRecords done) ∧
    (∀ (s : Store) n, s.asRecords.value n = (s.value n).asRecords) ∧
    (∀ (s : Store) (v : Value), s.asRecords.load v.asRecords = Prod.map id Store.asRecords (s.load v)) ∧
    ∀ v, v.IsPlain → (Store.empty.load v).2.Plain (Store.empty.load v).1 := by
  have like := Access.looksUpAs_attributes
  refine ⟨?_, ?_, ?_, ?_, ?_, Store.value_asRecords, ?_, ?_⟩
  · intro o e
    rw [like.resolve, resolve_asRecords plain]
  · intro place
    rw [like.nodeAt, nodeAt_asRecords plain]
  · intro place default
    rw [like.nodeAtD, nodeAtD_asRecords plain]
  · intro place child
    rw [setAt_attributes, setAt_asRecords plain]
    rcases setAt Reading.standard.access root place child w with ⟨e | done, v⟩ <;>
      cases place.reserved? <;> rfl
  · intro place
    rw [removeAt_attributes, removeAt_asRecords plain]
    rcases removeAt Reading.standard.access root place w with ⟨e | old, v⟩ <;>
      cases place.reserved? <;> rfl
  · intro s v
    exact Store.load_asRecords v s
  · intro v hv
    exact (Store.allPlain_empty.load hv).plain _

/-- A member of a record in a list is replaced as that of a mapping is. -/
theorem set_member_of_record :
    let tree : Value := .object .mapping [("a", .array .list [.object .mapping [("b", .int 1)]])]
    let loaded := Store.empty.load tree
    let done := setAt .attributes loaded.1 ⟨[.key "a", .index 0, .key "b"]⟩ .null
      (World.asRecords ⟨loaded.2, #[]⟩)
    loaded.2.Plain loaded.1 ∧ done.1 = .ok () ∧ done.2.store.value loaded.1 =
      .object .record [("a", .array .list [.object .record [("b", .null)]])] := by
  intro tree loaded done
  have leaf : Value.IsPlain (.object .mapping [("b", .int 1)]) := .mapping (by simp; exact .scalar _)
  have plain : tree.IsPlain := .mapping (by simp; exact .list (by simpa using leaf))
  have loads : loaded.2.Plain loaded.1 := (Store.allPlain_empty.load plain).plain _
  obtain ⟨-, -, -, set, -, trees, -⟩ := records_like_mappings loaded.1 ⟨loaded.2, #[]⟩ loads
  refine ⟨loads, ?_, ?_⟩
  · rw [show done = _ from set _ _]
    rfl
  · rw [show done = _ from set _ _]
    exact trees _ _

/-- Where a mapping has a member of a reserved name, the member is set, and that of the record is not. -/
theorem record_differs_at_type_member :
    let loaded := Store.empty.load (.object .mapping [("__class__", .int 1)])
    let place : Location := ⟨[.key "__class__"]⟩
    let w : World := ⟨loaded.2, #[]⟩
    loaded.2.Plain loaded.1 ∧
      (setAt Reading.standard.access loaded.1 place (.scalar (.int 5)) w).1 = .ok () ∧
      (setAt .attributes loaded.1 place (.scalar (.int 5)) w.asRecords).1 =
        .error (.refused (.notType "int")) := by
  intro loaded place w
  have plain : Value.IsPlain (.object .mapping [("__class__", .int 1)]) :=
    .mapping (by simp; exact .scalar _)
  have loads : loaded.2.Plain loaded.1 := (Store.allPlain_empty.load plain).plain _
  refine ⟨loads, rfl, ?_⟩
  rw [setAt_attributes, setAt_asRecords loads]
  show Except.error (Error.refused
    (.notType (loaded.2.asRecords.value (.scalar (.int 5))).qualifiedTypeName)) = _
  rw [Store.value_asRecords]
  rfl

end TreeQuery
