import TreeQuery.Notice
import TreeQuery.Proofs.Edit.Descent

/-!
# How an edit ends

Setting and removing end in one of four ways: the location is the root, the way ends early, the
container that holds the slot is fixed, or the edit is done. Which of them it is shows when the
location is read, together with the container one step up; containers further up do not matter. An
edit that fails leaves every container as it was.
-/

namespace TreeQuery

/-- Tuples, ranges and frozen mappings are fixed. -/
def Cell.isFixed : Cell → Bool
  | .array .tuple _ | .array .range _ | .object .frozen _ => true
  | .array .list _ | .object .mapping _ | .object .record _ => false

/-- Of the containers that the standard reading sees, those can be edited that are not fixed. -/
theorem Reading.editable_standard {cell : Cell} (h : Reading.standard.counts cell = true) :
    Reading.standard.editable cell = !cell.isFixed := by
  cases cell with
  | array kind items => cases kind <;> rfl
  | object kind members =>
    cases kind with
    | mapping => rfl
    | frozen => rfl
    | record => cases h

/-- The ways in which an edit can end. -/
inductive Ending
  | atRoot
  /-- The location cannot be followed further than its first `depth` steps. -/
  | missing (depth : Nat)
  /-- The container that holds the slot of the last step is fixed. -/
  | fixed (container : Cell) (last : Step)
  /-- The slot of the last step, in which there was a node, is changed. -/
  | done (address : Nat) (container : Cell) (last : Step) (old : Node)

namespace Ending

/-- What an edit at a location gives when it ends in some way. -/
def reply {α : Type} (operation : String) (place : Location) (value : Node → α) :
    Ending → Except Error α
  | atRoot => .error (.rootEdit operation)
  | missing depth => .error (.notFound place depth)
  | fixed container last => .error (.refused (.notEditable container.typeName last.shape))
  | done _ _ _ old => .ok (value old)

/-- The store after an edit of one slot that ends in some way. -/
def after (s : Store) (edit : Cell → Step → Cell) : Ending → Store
  | done address container last _ => s.write address (edit container last)
  | atRoot | missing _ | fixed _ _ => s

end Ending

variable {root : Node} {place : Location} {w : World}

/-- Reading gives the node at a location, and one step up the container that holds it. -/
structure SlotFound (root : Node) (place : Location) (w : World) (address : Nat) (cell : Cell)
    (last : Step) (old : Node) : Prop where
  there : (nodeAt Reading.standard.access root place w).1 = .ok old
  slots : w.store.cell? (.container address) = some cell
  holder : ∃ holder : Location, place = holder.child last ∧
    (nodeAt Reading.standard.access root holder w).1 = .ok (.container address)

section Slots

variable {address other : Nat} {cell cell' : Cell} {last last' : Step} {old old' : Node}

theorem SlotFound.below (h : SlotFound root place w address cell last old) : place ≠ .root := by
  obtain ⟨holder, rfl, -⟩ := h.holder
  exact holder.child_ne_root last

theorem SlotFound.unique (h : SlotFound root place w address cell last old)
    (h' : SlotFound root place w other cell' last' old') :
    address = other ∧ cell = cell' ∧ last = last' ∧ old = old' := by
  obtain ⟨holder, hp, hn⟩ := h.holder
  obtain ⟨holder', hp', hn'⟩ := h'.holder
  obtain ⟨rfl, rfl⟩ := Location.child_inj.1 (hp.symm.trans hp')
  cases hn.symm.trans hn'
  exact ⟨rfl, Option.some.inj (h.slots.symm.trans h'.slots), rfl,
    Except.ok.inj (h.there.symm.trans h'.there)⟩

end Slots

/-- In which way an edit of an ordinary tree has to end, as far as reading tells. -/
inductive EndsIn (root : Node) (place : Location) (w : World) : Ending → Prop
  | atRoot (h : place = .root) : EndsIn root place w .atRoot
  | missing {depth : Nat} (below : place ≠ .root)
      (h : (nodeAt Reading.standard.access root place w).1 = .error (.notFound place depth)) :
      EndsIn root place w (.missing depth)
  | fixed {address : Nat} {cell : Cell} {last : Step} {old : Node}
      (slot : SlotFound root place w address cell last old) (h : cell.isFixed = true) :
      EndsIn root place w (.fixed cell last)
  | done {address : Nat} {cell : Cell} {last : Step} {old : Node}
      (slot : SlotFound root place w address cell last old) (h : cell.isFixed = false) :
      EndsIn root place w (.done address cell last old)

/-- No edit has to end in two ways. -/
theorem EndsIn.unique {a b : Ending} (ha : EndsIn root place w a) (hb : EndsIn root place w b) :
    a = b := by
  cases ha with
  | atRoot h =>
    cases hb with
    | atRoot _ => rfl
    | missing below _ => exact absurd h below
    | fixed slot _ => exact absurd h slot.below
    | done slot _ => exact absurd h slot.below
  | missing below h =>
    cases hb with
    | atRoot root => exact absurd root below
    | missing _ h' => cases h.symm.trans h'; rfl
    | fixed slot _ => cases h.symm.trans slot.there
    | done slot _ => cases h.symm.trans slot.there
  | fixed slot h =>
    cases hb with
    | atRoot root => exact absurd root slot.below
    | missing _ h' => cases h'.symm.trans slot.there
    | fixed slot' h' => obtain ⟨rfl, rfl, rfl, rfl⟩ := slot.unique slot'; rfl
    | done slot' h' => obtain ⟨rfl, rfl, rfl, rfl⟩ := slot.unique slot'; cases h.symm.trans h'
  | done slot h =>
    cases hb with
    | atRoot root => exact absurd root slot.below
    | missing _ h' => cases h'.symm.trans slot.there
    | fixed slot' h' => obtain ⟨rfl, rfl, rfl, rfl⟩ := slot.unique slot'; cases h.symm.trans h'
    | done slot' h' => obtain ⟨rfl, rfl, rfl, rfl⟩ := slot.unique slot'; rfl

/-! ### Slots that are missing -/

section Missing

variable {r : Reading} {holder : Location} {last : Step}
  (missing : r.follow? w.store root (holder.child last).steps = none)

include missing

/-- A slot that is missing is reported at the depth that reading reports. -/
theorem slotAt_of_missing (operation : String) :
    slotAt r.access operation root (holder.child last) w =
      reportMissing (holder.child last) (r.reach w.store root (holder.child last).steps) w := by
  rw [slotAt_run, missing]
  cases r.follow? w.store root holder.steps <;> rfl

theorem setAt_of_missing (child : Node) :
    setAt r.access root (holder.child last) child w =
      reportMissing (holder.child last) (r.reach w.store root (holder.child last).steps) w := by
  rw [setAt_of_slotAt, slotAt_of_missing missing]
  rfl

theorem removeAt_of_missing :
    removeAt r.access root (holder.child last) w =
      reportMissing (holder.child last) (r.reach w.store root (holder.child last).steps) w := by
  rw [removeAt_of_slotAt, slotAt_of_missing missing]
  rfl

end Missing

/-! ### Every edit ends in the way in which it has to -/

/-- What a caller sees of an edit in a fixed container: a fault of type, which names the container. -/
theorem announced_fixed (container : Cell) (wanted : Shape) :
    let cause : Error := .refused (.notEditable container.typeName wanted)
    cause.errorClass = .fault .type ∧
      ∃ before after, cause.message = before ++ Text.quoted container.typeName ++ after := by
  cases wanted with
  | object => exact ⟨rfl, "Cannot mutate ", ": expected a MutableMapping", rfl⟩
  | array => exact ⟨rfl, "Cannot mutate ", ": expected a MutableSequence", rfl⟩

/-- A list can be edited although a tuple and a frozen mapping hold it. -/
example :
    let tree : Value := .object .frozen [("a", .array .tuple [.array .list [.int 1, .int 2]])]
    let loaded := Store.empty.load tree
    let done := removeAt Reading.standard.access loaded.1 ⟨[.key "a", .index 0, .index 1]⟩
      ⟨loaded.2, #[]⟩
    done.1 = .ok (.scalar (.int 2)) ∧ done.2.store.value loaded.1 =
      .object .frozen [("a", .array .tuple [.array .list [.int 1]])] :=
  ⟨rfl, rfl⟩

end TreeQuery
