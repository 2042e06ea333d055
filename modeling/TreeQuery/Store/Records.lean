import TreeQuery.Store.Sharing

/-!
# Mappings as records

A tree can be held in mappings or, with the same members in the same order, in records. Turning the
mappings of a store into records keeps all addresses, so nodes stay what they are. It goes with every
operation of a store: looking at a container, changing it, putting a tree into the store and reading
one off.
-/

namespace TreeQuery

/-! ### Trees -/

/-- Mappings become records. -/
def ObjectKind.asRecord : ObjectKind → ObjectKind
  | mapping => record
  | frozen => frozen
  | record => record

namespace Value

mutual

/-- A tree with records in place of its mappings. -/
def asRecords : Value → Value
  | scalar content => scalar content
  | array kind items => array kind (asRecordsItems items)
  | object kind members => object kind.asRecord (asRecordsMembers members)

def asRecordsItems : List Value → List Value
  | [] => []
  | item :: rest => asRecords item :: asRecordsItems rest

def asRecordsMembers : List (String × Value) → List (String × Value)
  | [] => []
  | (name, value) :: rest => (name, asRecords value) :: asRecordsMembers rest

end

theorem asRecordsItems_eq_map (items : List Value) :
    asRecordsItems items = items.map asRecords := by
  induction items with
  | nil => rfl
  | cons item rest ih => rw [asRecordsItems, ih, List.map_cons]

theorem asRecordsMembers_eq_map (members : List (String × Value)) :
    asRecordsMembers members = members.map fun e => (e.1, e.2.asRecords) := by
  induction members with
  | nil => rfl
  | cons e rest ih => rw [asRecordsMembers, ih, List.map_cons]

/-- Trees of mappings, lists and scalars. -/
inductive IsPlain : Value → Prop
  | scalar (content : Scalar) : IsPlain (.scalar content)
  | list {items : List Value} (h : ∀ item ∈ items, IsPlain item) : IsPlain (.array .list items)
  | mapping {members : List (String × Value)} (h : ∀ e ∈ members, IsPlain e.2) :
    IsPlain (.object .mapping members)

end Value

/-! ### Containers -/

namespace Cell

def asRecords : Cell → Cell
  | array kind items => array kind items
  | object kind members => object kind.asRecord members

/-- Mappings and lists. -/
def isPlain : Cell → Bool
  | array kind _ => kind = .list
  | object kind _ => kind = .mapping

@[simp] theorem child?_asRecords (cell : Cell) (step : Step) :
    cell.asRecords.child? step = cell.child? step := by
  cases cell <;> cases step <;> rfl

theorem put_asRecords (cell : Cell) (child : Node) (step : Step) :
    cell.asRecords.put child step = (cell.put child step).asRecords := by
  cases cell <;> cases step <;> rfl

theorem drop_asRecords (cell : Cell) (step : Step) :
    cell.asRecords.drop step = (cell.drop step).asRecords := by
  cases cell <;> cases step <;> rfl

end Cell

/-! ### Stores -/

namespace Store

/-- A store with records in place of its mappings. -/
def asRecords (s : Store) : Store := ⟨s.cells.map Cell.asRecords⟩

/-- Everything that is reached from a node is a mapping, a list or a scalar. -/
def Plain (s : Store) (n : Node) : Prop :=
  ∀ m cell, s.Reaches n m → s.cell? m = some cell → cell.isPlain = true

variable (s : Store)

@[simp] theorem cell?_asRecords (n : Node) :
    s.asRecords.cell? n = (s.cell? n).map Cell.asRecords := by
  cases n with
  | scalar content => rfl
  | container address => simp [asRecords, cell?]

theorem write_asRecords (address : Nat) (cell : Cell) :
    s.asRecords.write address cell.asRecords = (s.write address cell).asRecords := by
  simp [asRecords, write, Array.map_setIfInBounds]

theorem push_asRecords (cell : Cell) :
    s.asRecords.push cell.asRecords = ((s.push cell).1, (s.push cell).2.asRecords) := by
  simp [asRecords, push]

mutual

/-- A tree of records is loaded as the tree of mappings is, container by container. -/
theorem load_asRecords : ∀ (v : Value) (s : Store),
    s.asRecords.load v.asRecords = ((s.load v).1, (s.load v).2.asRecords)
  | .scalar content, s => rfl
  | .array kind items, s => by
    simp only [Value.asRecords, load, loadItems_asRecords items s]
    exact push_asRecords _ (.array kind _)
  | .object kind members, s => by
    simp only [Value.asRecords, load, loadMembers_asRecords members s]
    exact push_asRecords _ (.object kind _)

theorem loadItems_asRecords : ∀ (items : List Value) (s : Store),
    s.asRecords.loadItems (Value.asRecordsItems items) =
      ((s.loadItems items).1, (s.loadItems items).2.asRecords)
  | [], s => rfl
  | item :: rest, s => by
    simp only [Value.asRecordsItems, loadItems, load_asRecords item s, loadItems_asRecords rest]

theorem loadMembers_asRecords : ∀ (members : List (String × Value)) (s : Store),
    s.asRecords.loadMembers (Value.asRecordsMembers members) =
      ((s.loadMembers members).1, (s.loadMembers members).2.asRecords)
  | [], s => rfl
  | (name, value) :: rest, s => by
    simp only [Value.asRecordsMembers, loadMembers, load_asRecords value s,
      loadMembers_asRecords rest]

end

theorem treeTo_asRecords (depth : Nat) (n : Node) :
    s.asRecords.treeTo depth n = (s.treeTo depth n).asRecords := by
  induction depth generalizing n with
  | zero => cases n <;> rfl
  | succ depth ih =>
    cases n with
    | scalar content => rfl
    | container address =>
      simp only [treeTo, cell?_asRecords]
      cases s.cell? (.container address) with
      | none => rfl
      | some cell =>
        cases cell with
        | array kind items =>
          simp [Cell.asRecords, Value.asRecords, Value.asRecordsItems_eq_map, ih]
        | object kind members =>
          simp [Cell.asRecords, Value.asRecords, Value.asRecordsMembers_eq_map, ih]

/-- The tree of records below a node is the one of mappings with records in their place. -/
theorem value_asRecords (n : Node) : s.asRecords.value n = (s.value n).asRecords := by
  rw [value, value, treeTo_asRecords, asRecords, Array.size_map]

/-! ### Plain trees -/

variable {s}

/-- All containers of a store are mappings and lists. -/
def AllPlain (s : Store) : Prop := ∀ n cell, s.cell? n = some cell → cell.isPlain = true

theorem AllPlain.plain (h : s.AllPlain) (n : Node) : s.Plain n := fun m cell _ hc => h m cell hc

theorem allPlain_empty : empty.AllPlain := by
  intro n cell hc
  cases n <;> simp [empty, cell?] at hc

theorem AllPlain.push (h : s.AllPlain) {cell : Cell} (plain : cell.isPlain = true) :
    (s.push cell).2.AllPlain := by
  intro n other hn
  rw [cell?_push] at hn
  split at hn
  · cases hn
    exact plain
  · exact h n other hn

theorem AllPlain.loadItems {items : List Value}
    (loads : ∀ item ∈ items, ∀ {s : Store}, s.AllPlain → (s.load item).2.AllPlain)
    (h : s.AllPlain) : (s.loadItems items).2.AllPlain := by
  induction items generalizing s with
  | nil => exact h
  | cons item rest ih =>
    obtain ⟨first, later⟩ := List.forall_mem_cons.1 loads
    exact ih later (first h)

theorem AllPlain.loadMembers {members : List (String × Value)}
    (loads : ∀ e ∈ members, ∀ {s : Store}, s.AllPlain → (s.load e.2).2.AllPlain)
    (h : s.AllPlain) : (s.loadMembers members).2.AllPlain := by
  induction members generalizing s with
  | nil => exact h
  | cons e rest ih =>
    obtain ⟨first, later⟩ := List.forall_mem_cons.1 loads
    exact ih later (first h)

/-- A plain tree brings only mappings and lists into a store. -/
theorem AllPlain.load (h : s.AllPlain) {v : Value} (plain : v.IsPlain) :
    (s.load v).2.AllPlain := by
  induction plain generalizing s with
  | scalar content => exact h
  | list _ ih => exact (h.loadItems ih).push rfl
  | mapping _ ih => exact (h.loadMembers ih).push rfl

end Store

end TreeQuery
