import Mathlib.Tactic.ByContra
import TreeQuery.Proofs.Edit.Outcome
import TreeQuery.Proofs.Edit.Slots
import TreeQuery.Store.Sharing

/-!
# What an edit leaves alone

Containers may be shared in any way, and may even hold themselves. An edit that succeeds changes one
slot of one container, the one to which its location leads without the last step, and one that fails
changes nothing. So in the course of many edits a node that was kept stays a container of its kind,
and what is read below it differs only if one of the containers that were changed is reached from it.
-/

namespace TreeQuery

/-! ### One slot of a container -/

variable {α : Type}

/-- An item of a list stands between others. -/
theorem exists_items {items : List α} {place : Nat} {item : α} (h : items[place]? = some item) :
    ∃ before after, items = before ++ item :: after ∧ before.length = place := by
  obtain ⟨inside, there⟩ := List.getElem?_eq_some_iff.1 h
  refine ⟨items.take place, items.drop (place + 1), ?_, List.length_take_of_le (Nat.le_of_lt inside)⟩
  rw [← there, List.getElem_cons_drop, List.take_append_drop]

namespace Members

/-- A name that is there stands between others, none of which is the same. -/
theorem exists_entries {m : Members α} {name : String} {value : α}
    (h : m.get? name = some value) :
    ∃ before after, m.entries = before ++ (name, value) :: after ∧
      (∀ e ∈ before, e.1 ≠ name) ∧ ∀ e ∈ after, e.1 ≠ name := by
  obtain ⟨before, after, whole⟩ := List.append_of_mem ((m.get?_eq_some_iff).1 h)
  have distinct := m.nodup
  rw [whole, List.map_append, List.map_cons, List.nodup_append, List.nodup_cons] at distinct
  obtain ⟨-, ⟨later, -⟩, apart⟩ := distinct
  refine ⟨before, after, whole, ?_, ?_⟩
  · intro e he same
    exact apart e.1 (List.mem_map_of_mem he) name (by simp) same
  · intro e he same
    exact later (List.mem_map.2 ⟨e, he, same⟩)

theorem put_append {name : String} {value : α} {before rest : List (String × α)}
    (h : ∀ e ∈ before, e.1 ≠ name) :
    put name value (before ++ rest) = before ++ put name value rest := by
  induction before with
  | nil => rfl
  | cons e others ih =>
    obtain ⟨first, later⟩ := List.forall_mem_cons.1 h
    simp [put, first, ih later]

end Members

namespace Cell

/-- A container before and after another node is put into the slot of a step. -/
inductive Replaced (child : Node) : Step → Cell → Cell → Prop
  | element (kind : ArrayKind) (before after : List Node) (old : Node) :
    Replaced child (.index before.length) (.array kind (before ++ old :: after))
      (.array kind (before ++ child :: after))
  | member (kind : ObjectKind) {m n : Members Node} {before after : List (String × Node)}
    {name : String} {old : Node} (whole : m.entries = before ++ (name, old) :: after)
    (edited : n.entries = before ++ (name, child) :: after) :
    Replaced child (.key name) (.object kind m) (.object kind n)

/-- A container before and after the slot of a step is taken away, with the node that was in it.
Later elements of an array move up by one place. -/
inductive Deleted (old : Node) : Step → Cell → Cell → Prop
  | element (kind : ArrayKind) (before after : List Node) :
    Deleted old (.index before.length) (.array kind (before ++ old :: after))
      (.array kind (before ++ after))
  | member (kind : ObjectKind) {m n : Members Node} {before after : List (String × Node)}
    {name : String} (whole : m.entries = before ++ (name, old) :: after)
    (edited : n.entries = before ++ after) :
    Deleted old (.key name) (.object kind m) (.object kind n)

variable {cell : Cell} {step : Step} {old : Node}

theorem replaced_put (h : cell.child? step = some old) (child : Node) :
    Replaced child step cell (cell.put child step) := by
  cases cell with
  | array kind items =>
    cases step with
    | key name => cases h
    | index place =>
      obtain ⟨before, after, rfl, rfl⟩ := exists_items h
      simpa [put] using Replaced.element kind before after old
  | object kind members =>
    cases step with
    | index place => cases h
    | key name =>
      obtain ⟨before, after, whole, apart, -⟩ := Members.exists_entries h
      refine .member kind whole ?_
      show Members.put name child members.entries = _
      rw [whole, Members.put_append apart]
      simp [Members.put]

theorem deleted_drop (h : cell.child? step = some old) : Deleted old step cell (cell.drop step) := by
  cases cell with
  | array kind items =>
    cases step with
    | key name => cases h
    | index place =>
      obtain ⟨before, after, rfl, rfl⟩ := exists_items h
      have gone : Deleted old (.index before.length) (.array kind (before ++ old :: after))
          (.array kind (before ++ after)) := .element kind before after
      simpa [drop, List.eraseIdx_append_of_length_le] using gone
  | object kind members =>
    cases step with
    | index place => cases h
    | key name =>
      obtain ⟨before, after, whole, apart, apart'⟩ := Members.exists_entries h
      refine .member kind whole ?_
      show members.entries.filter (·.1 ≠ name) = _
      rw [whole, List.filter_append, List.filter_cons_of_neg (by simp),
        List.filter_eq_self.2 (by simpa using apart), List.filter_eq_self.2 (by simpa using apart')]

theorem Replaced.kind_eq {child : Node} {after : Cell} (h : Replaced child step cell after) :
    after.kind = cell.kind := by
  cases h <;> rfl

theorem Deleted.kind_eq {after : Cell} (h : Deleted old step cell after) :
    after.kind = cell.kind := by
  cases h <;> rfl

end Cell

/-! ### One edit -/

section OneEdit

variable (r : Reading) (root : Node) (place : Location) (w : World)

/-- A store in which one container has changed in one slot: the container to which a location leads
without its last step, in the slot of this step. -/
def SlotChanged (change : Step → Cell → Cell → Prop) (t : Store) : Prop :=
  ∃ holder last address before after, place = holder.child last ∧
    (nodeAt r.access root holder w).1 = .ok (.container address) ∧
    w.store.cell? (.container address) = some before ∧ change last before after ∧
    ∀ n, t.cell? n = if n = .container address then some after else w.store.cell? n

variable {r root place w}

theorem slotChanged_write {change : Step → Cell → Cell → Prop} {address : Nat} {last : Step}
    {before after : Cell} {old : Node}
    (slot : r.FindsSlot root place w.store address before last old)
    (h : change last before after) :
    SlotChanged r root place w change (w.store.write address after) := by
  obtain ⟨holder, same, there⟩ := slot.holder
  refine ⟨holder, last, address, before, after, same, nodeAt_eq_ok_iff.2 there, slot.slots, h, ?_⟩
  intro n
  rw [Store.cell?_write]
  split
  · next same => rw [same, slot.slots, Option.map_some]
  · rfl

variable (r root place w)

/-- Setting fails and leaves the store as it is, or puts the node into one slot. -/
theorem setAt_frame (child : Node) :
    let set := setAt r.access root place child w
    (∃ e, set.1 = .error e) ∧ set.2.store = w.store ∨
      set.1 = .ok () ∧ SlotChanged r root place w (Cell.Replaced child) set.2.store := by
  intro set
  obtain ⟨ending, ends⟩ := r.exists_ends root place w.store
  obtain ⟨reply, after⟩ := ends.setAt child
  cases ends with
  | done slot _ =>
    refine .inr ⟨reply, ?_⟩
    rw [after]
    exact slotChanged_write slot (Cell.replaced_put slot.there child)
  | _ => exact .inl ⟨⟨_, reply⟩, after⟩

/-- Removing fails and leaves the store as it is, or takes one slot away. -/
theorem removeAt_frame :
    let removal := removeAt r.access root place w
    (∃ e, removal.1 = .error e) ∧ removal.2.store = w.store ∨
      ∃ old, removal.1 = .ok old ∧
        SlotChanged r root place w (Cell.Deleted old) removal.2.store := by
  intro removal
  obtain ⟨ending, ends⟩ := r.exists_ends root place w.store
  obtain ⟨reply, after⟩ := ends.removeAt
  cases ends with
  | done slot _ =>
    refine .inr ⟨_, reply, ?_⟩
    rw [after]
    exact slotChanged_write slot (Cell.deleted_drop slot.there)
  | _ => exact .inl ⟨⟨_, reply⟩, after⟩

end OneEdit

/-! ### Many edits -/

/-- What may happen between two looks at a tree: edits, through any reading and from any root, and
new containers, which later edits may put somewhere. -/
inductive Edit
  | set (r : Reading) (root : Node) (place : Location) (child : Node)
  | remove (r : Reading) (root : Node) (place : Location)
  | make (cell : Cell)

def Edit.run (w : World) : Edit → World
  | set r root place child => (setAt r.access root place child w).2
  | remove r root place => (removeAt r.access root place w).2
  | make cell => { w with store := (w.store.push cell).2 }

def World.afterEdits (w : World) (edits : List Edit) : World := edits.foldl Edit.run w

/-- A container is changed when it has other slots afterwards. -/
def Edit.Changes (w : World) (e : Edit) (address : Nat) : Prop :=
  (e.run w).store.cell? (.container address) ≠ w.store.cell? (.container address)

theorem SlotChanged.kind_eq {r : Reading} {root : Node} {place : Location} {w : World} {t : Store}
    {change : Step → Cell → Cell → Prop} (h : SlotChanged r root place w change t)
    (keeps : ∀ {step before after}, change step before after → after.kind = before.kind) :
    ∃ address after, (∀ before, w.store.cell? (.container address) = some before →
        after.kind = before.kind) ∧
      ∀ n, t.cell? n = if n = .container address then some after else w.store.cell? n := by
  obtain ⟨holder, last, address, before, after, -, -, slots, changed, frame⟩ := h
  refine ⟨address, after, fun other same => ?_, frame⟩
  cases slots.symm.trans same
  exact keeps changed

/-- One edit gives slots to one container at most, and a container that was there before keeps its
kind. -/
theorem Edit.run_frame (w : World) (e : Edit) :
    (e.run w).store = w.store ∨
      ∃ address after, (∀ before, w.store.cell? (.container address) = some before →
          after.kind = before.kind) ∧
        ∀ n, (e.run w).store.cell? n =
          if n = .container address then some after else w.store.cell? n := by
  cases e with
  | set r root place child =>
    rcases setAt_frame r root place w child with ⟨-, same⟩ | ⟨-, changed⟩
    · exact .inl same
    · exact .inr (changed.kind_eq Cell.Replaced.kind_eq)
  | remove r root place =>
    rcases removeAt_frame r root place w with ⟨-, same⟩ | ⟨_, -, changed⟩
    · exact .inl same
    · exact .inr (changed.kind_eq Cell.Deleted.kind_eq)
  | make cell =>
    refine .inr ⟨w.store.cells.size, cell, ?_, w.store.cell?_push cell⟩
    intro before there
    simp [Store.cell?] at there

/-- No edit changes two containers. -/
theorem Edit.Changes.unique {w : World} {e : Edit} {a b : Nat} (ha : e.Changes w a)
    (hb : e.Changes w b) : a = b := by
  rcases e.run_frame w with same | ⟨address, after, -, frame⟩
  · exact absurd (by rw [same]) ha
  · have only : ∀ {c}, e.Changes w c → c = address := by
      intro c hc
      by_contra other
      exact hc (by rw [frame, if_neg (by simpa using other)])
    rw [only ha, only hb]

/-- A container that is there stays there, and of its kind. -/
theorem Edit.kind_run (e : Edit) {w : World} {n : Node} {cell : Cell}
    (h : w.store.cell? n = some cell) :
    ∃ later, (e.run w).store.cell? n = some later ∧ later.kind = cell.kind := by
  rcases e.run_frame w with same | ⟨address, after, kind, frame⟩
  · exact ⟨cell, same ▸ h, rfl⟩
  · rw [frame]
    split
    · next same => exact ⟨after, rfl, kind cell (same ▸ h)⟩
    · exact ⟨cell, h, rfl⟩

theorem World.kind_afterEdits {w : World} {n : Node} {cell : Cell} (edits : List Edit)
    (h : w.store.cell? n = some cell) :
    ∃ later, (w.afterEdits edits).store.cell? n = some later ∧ later.kind = cell.kind := by
  induction edits generalizing w cell with
  | nil => exact ⟨cell, h, rfl⟩
  | cons e rest ih =>
    obtain ⟨next, there, kind⟩ := e.kind_run h
    obtain ⟨later, found, kind'⟩ := ih there
    exact ⟨later, found, kind'.trans kind⟩

/-- If a container has other slots after many edits, then one of them changed it. -/
theorem World.exists_changes {w : World} {address : Nat} {edits : List Edit}
    (h : (w.afterEdits edits).store.cell? (.container address) ≠
      w.store.cell? (.container address)) :
    ∃ before e after, edits = before ++ e :: after ∧ e.Changes (w.afterEdits before) address := by
  induction edits generalizing w with
  | nil => exact absurd rfl h
  | cons e rest ih =>
    by_cases changed : e.Changes w address
    · exact ⟨[], e, rest, rfl, changed⟩
    · have same : (e.run w).store.cell? (.container address) = w.store.cell? (.container address) :=
        Classical.not_not.1 changed
      obtain ⟨before, e', after, rfl, later⟩ := ih (w := e.run w) (same ▸ h)
      exact ⟨e :: before, e', after, rfl, later⟩

/-- What is read below a node, in whatever way, is the same after edits that change no container
which the node reaches. -/
theorem World.changes_of_reads {w : World} {n : Node} {edits : List Edit}
    (h : (∃ depth, (w.afterEdits edits).store.treeTo depth n ≠ w.store.treeTo depth n) ∨
      ∃ steps, (w.afterEdits edits).store.follow? n steps ≠ w.store.follow? n steps) :
    ∃ address, w.store.Reaches n (.container address) ∧
      ∃ before e after, edits = before ++ e :: after ∧ e.Changes (w.afterEdits before) address := by
  by_contra unchanged
  have same : ∀ m, w.store.Reaches n m → (w.afterEdits edits).store.cell? m = w.store.cell? m := by
    intro m reached
    cases m with
    | scalar content => rfl
    | container address =>
      by_contra differs
      exact unchanged ⟨address, reached, World.exists_changes differs⟩
  rcases h with ⟨depth, differs⟩ | ⟨steps, differs⟩
  · exact differs (Store.treeTo_congr same depth)
  · exact differs (Store.follow?_congr same steps)

/-- In any store, however its containers are shared, setting and removing change one slot of one
container and nothing else, or fail and change nothing. The container is the one to which the location
leads without its last step. After any edits a node that was kept, as in the result of a search, is
still a container of the same kind, and what is read below it differs only if one of the containers
that were changed is the node or is reached from it. -/
theorem edits_change_one_slot (r : Reading) (root : Node) (w : World) :
    (∀ place child, let set := setAt r.access root place child w
      (∃ e, set.1 = .error e) ∧ set.2.store = w.store ∨
        set.1 = .ok () ∧ SlotChanged r root place w (Cell.Replaced child) set.2.store) ∧
    (∀ place, let removal := removeAt r.access root place w
      (∃ e, removal.1 = .error e) ∧ removal.2.store = w.store ∨
        ∃ old, removal.1 = .ok old ∧
          SlotChanged r root place w (Cell.Deleted old) removal.2.store) ∧
    (∀ e a b, Edit.Changes w e a → Edit.Changes w e b → a = b) ∧
    ∀ n edits, let later := (w.afterEdits edits).store
      (∀ cell, w.store.cell? n = some cell →
        ∃ cell', later.cell? n = some cell' ∧ cell'.kind = cell.kind) ∧
      ((∃ depth, later.treeTo depth n ≠ w.store.treeTo depth n) ∨
          (∃ steps, later.follow? n steps ≠ w.store.follow? n steps) →
        ∃ address, w.store.Reaches n (.container address) ∧
          ∃ before e after, edits = before ++ e :: after ∧
            e.Changes (w.afterEdits before) address) := by
  refine ⟨fun place child => setAt_frame r root place w child,
    fun place => removeAt_frame r root place w, fun e a b => Edit.Changes.unique, ?_⟩
  intro n edits later
  exact ⟨fun cell => World.kind_afterEdits edits, World.changes_of_reads⟩

/-- A list that two members hold gets the object itself as its element: the edit shows along the other
way, and closes a cycle. -/
example :
    let shared : Store := ⟨#[.array .list [.null],
      .object .mapping (.ofList [("a", .container 0), ("b", .container 0)])]⟩
    let edited := (Edit.set .standard (.container 1) ⟨[.key "a", .index 0]⟩ (.container 1)).run
      ⟨shared, #[]⟩
    edited.store.follow? (.container 1) [.key "b", .index 0, .key "a"] = some (.container 0) := rfl

end TreeQuery
