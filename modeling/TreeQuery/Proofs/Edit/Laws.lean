import TreeQuery.Proofs.Edit.Frame
import TreeQuery.Proofs.Edit.Loading
import TreeQuery.Proofs.Edit.Reads
import TreeQuery.Proofs.Edit.SearchAgain

/-!
# The laws of setting a slot

Reading and setting at a location of an unshared tree are those of a place that holds one node: what was
set is read, setting what was read changes nothing, and of two settings the last one counts. What lies
below the place is then read in the new node, all else is read as before, and settings at places neither
of which lies below the other can change their order.
-/

namespace TreeQuery

theorem Store.write_comm {s : Store} {a b : Nat} (h : a ≠ b) (c d : Cell) :
    (s.write a c).write b d = (s.write b d).write a c := by
  simp [write, Array.setIfInBounds_comm c d h]

theorem Store.write_cell? {s : Store} {address : Nat} {cell : Cell}
    (h : s.cell? (.container address) = some cell) : s.write address cell = s := by
  apply ext_cell?
  intro n
  rw [cell?_write]
  split
  · next same => rw [same, h, Option.map_some]
  · rfl

namespace Cell

variable {cell : Cell} {step other : Step} {old : Node}

/-- Putting a node into a slot that is there replaces this slot alone. -/
theorem put_eq_update (there : cell.child? step = some old) (child : Node) :
    cell.put child step = cell.update fun other => if other = step then some child else none := by
  have put : (cell.update fun _ => none).put child step = _ := put_update (by simp [there]) child
  rwa [update_nothing] at put

theorem update_eq_self {new : Step → Option Node}
    (h : ∀ step old, cell.child? step = some old → (new step).getD old = old) :
    cell.update new = cell := by
  cases cell with
  | array kind items =>
    refine congrArg (array kind) (List.ext_getElem? fun i => ?_)
    rw [List.getElem?_mapIdx]
    cases hi : items[i]? with
    | none => rfl
    | some old => exact congrArg some (h (.index i) old hi)
  | object kind members =>
    refine congrArg (object kind) (Members.ext ?_)
    refine (List.map_congr_left fun e he => ?_).trans members.entries.map_id
    have there : members.get? e.1 = some e.2 := members.get?_eq_some_iff.2 he
    simp only [h (.key e.1) e.2 there, id_eq]

theorem put_child? (there : cell.child? step = some old) : cell.put old step = cell := by
  rw [put_eq_update there]
  apply update_eq_self
  intro other node hother
  by_cases same : other = step
  · subst same
    simp [Option.some.inj (there.symm.trans hother)]
  · simp [same]

theorem put_put (there : cell.child? step = some old) (first second : Node) :
    (cell.put first step).put second step = cell.put second step := by
  rw [put_eq_update there first, put_update (by simp [there]), put_eq_update there second]
  congr 1
  funext s
  by_cases same : s = step <;> simp [same]

theorem put_comm {node : Node} (there : cell.child? step = some old)
    (there' : cell.child? other = some node) (apart : step ≠ other) (a b : Node) :
    (cell.put a step).put b other = (cell.put b other).put a step := by
  rw [put_eq_update there a, put_eq_update there' b, put_update (by simp [there']),
    put_update (by simp [there])]
  congr 1
  funext s
  by_cases first : s = step
  · subst first
    simp [apart]
  · simp [first]

end Cell

theorem Cell.typeName_congr {c d : Cell} (h : c.kind = d.kind) : c.typeName = d.typeName := by
  cases c <;> cases d <;> cases h <;> rfl

/-- An error about a location below a place, as told from the root. -/
def Error.under (place : Location) : Error → Error
  | .notFound below depth => .notFound (place.append below) (place.length + depth)
  | e => e

namespace Reading

/-! ### Slots of other locations -/

section Write

variable {r : Reading} {s : Store} {root : Node} {address : Nat} {cell slots : Cell}
  {q : List Step} (hc : s.cell? (.container address) = some cell) (seen : r.counts cell = true)
  (unshared : r.Unshared s root) (hn : r.follow? s root q = some (.container address))
  (kind : slots.kind = cell.kind) {place : Location}
  (same : ∀ step rest, place.steps = q ++ step :: rest → slots.child? step = cell.child? step)

include hc seen unshared hn kind same

/-- A slot is found as it was if none on the way to it has changed. -/
theorem FindsSlot.write {other : Nat} {holding : Cell} {last : Step} {old : Node}
    (slot : r.FindsSlot root place s other holding last old) :
    r.FindsSlot root place (s.write address slots) other
      (if other = address then slots else holding) last old := by
  obtain ⟨⟨holder, rfl, ho⟩, hh, counts, there⟩ := slot
  have reached : r.follow? (s.write address slots) root holder.steps = some (.container other) := by
    rw [← ho]
    apply follow?_eq_of_lookUp
    apply lookUp_write_untouched hc seen unshared hn kind
    intro step rest through
    exact same step (rest ++ [last]) (by simp [Location.child, through])
  by_cases here : other = address
  · subst here
    cases hc.symm.trans hh
    have children : (r.children? s (.container other)).isSome :=
      isSome_children?_iff.2 ⟨cell, hc, seen⟩
    have way : holder.steps = q := unshared _ _ _ children ho hn
    rw [if_pos rfl]
    refine ⟨⟨holder, rfl, reached⟩, ?_, (counts_congr kind).trans seen, ?_⟩
    · rw [Store.cell?_write, if_pos rfl, hc, Option.map_some]
    · rw [same last [] (by simp [Location.child, way]), there]
  · rw [if_neg here]
    refine ⟨⟨holder, rfl, reached⟩, ?_, counts, there⟩
    rw [Store.cell?_write, if_neg (by simpa using here), hh]

omit seen unshared hn same in
/-- The container that holds a slot is of the kind that it was. -/
theorem FindsSlot.kind_write {other : Nat} {holding : Cell} {last : Step} {old : Node}
    (slot : r.FindsSlot root place s other holding last old) :
    (if other = address then slots else holding).kind = holding.kind := by
  split
  · next here =>
    subst here
    rw [kind, Option.some.inj (hc.symm.trans slot.slots)]
  · rfl

/-- An edit gives what it gave before if no slot on the way has changed. -/
theorem Ends.write {ending : Ending} (ends : r.Ends root place s ending) :
    ∃ later, r.Ends root place (s.write address slots) later ∧
      ∀ operation, later.reply operation place (fun _ => ()) =
        ending.reply operation place fun _ => () := by
  cases ends with
  | atRoot h => exact ⟨_, .atRoot h, fun _ => rfl⟩
  | missing below h =>
    have before : r.lookUp s root place.steps = .error (r.reach s root place.steps) :=
      lookUp_eq_error_iff.2 ⟨h, rfl⟩
    rw [← lookUp_write_untouched hc seen unshared hn kind same, lookUp_eq_error_iff] at before
    refine ⟨_, .missing below before.1, fun _ => ?_⟩
    rw [before.2]
  | fixed slot h =>
    have later := slot.write hc seen unshared hn kind same
    refine ⟨_, .fixed later ((editable_congr (slot.kind_write hc kind)).trans h), fun _ => ?_⟩
    simp only [Ending.reply, Cell.typeName_congr (slot.kind_write hc kind)]
  | done slot h =>
    have later := slot.write hc seen unshared hn kind same
    exact ⟨_, .done later ((editable_congr (slot.kind_write hc kind)).trans h), fun _ => rfl⟩

end Write

/-! ### A slot that was set -/

section Put

variable {r : Reading} {s : Store} {root : Node} {place l : Location} {address : Nat} {cell : Cell}
  {last : Step} {old : Node}

/-- The way to a location that does not lie at or below a place takes no slot that setting the place
changes. -/
theorem put_untouched {holder : Location} (there : cell.child? last = some old)
    (apart : ¬ (holder.child last).steps <+: l.steps) (child : Node) :
    ∀ step rest, l.steps = holder.steps ++ step :: rest →
      (cell.put child last).child? step = cell.child? step := by
  intro step rest through
  rw [Cell.child?_put there, if_neg]
  rintro rfl
  exact apart ⟨rest, by simp [Location.child, through]⟩

variable (slot : r.FindsSlot root place s address cell last old) (unshared : r.Unshared s root)

include slot unshared

/-- The slot that was set holds the new node. -/
theorem FindsSlot.put (child : Node) :
    r.FindsSlot root place (s.write address (cell.put child last)) address (cell.put child last)
      last child := by
  obtain ⟨⟨holder, rfl, hn⟩, hc, seen, there⟩ := slot
  have kind := (Cell.replaced_put there child).kind_eq
  refine ⟨⟨holder, rfl, ?_⟩, ?_, ?_, ?_⟩
  · exact follow?_write_holder hc seen unshared hn
  · rw [Store.cell?_write, if_pos rfl, hc, Option.map_some]
  · exact (counts_congr kind).trans seen
  · rw [Cell.child?_put there, if_pos rfl]

/-- What does not lie at or below the place that was set is read as before. -/
theorem lookUp_put (apart : ¬ place.steps <+: l.steps) (child : Node) :
    r.lookUp (s.write address (cell.put child last)) root l.steps = r.lookUp s root l.steps := by
  obtain ⟨⟨holder, rfl, hn⟩, hc, seen, there⟩ := slot
  exact lookUp_write_untouched hc seen unshared hn (Cell.replaced_put there child).kind_eq
    (put_untouched there apart child)

/-- What lies below the place that was set is read in the new node, if the tree does not hold it. -/
theorem lookUp_put_below {child : Node} (fresh : s.Apart child root) (rest : Location) :
    r.lookUp (s.write address (cell.put child last)) root (place.append rest).steps =
      (r.lookUp s child rest.steps).mapError (place.length + ·) := by
  have set := slot.put unshared child
  obtain ⟨⟨holder, rfl, hn⟩, hc, seen, there⟩ := set
  have untouched : r.lookUp (s.write address (cell.put child last)) child rest.steps =
      r.lookUp s child rest.steps := by
    apply lookUp_congr
    intro p step later _ m hm
    apply child?_write_of_ne
    rintro rfl
    obtain ⟨⟨holder', -, hn'⟩, -⟩ := slot
    exact fresh address ⟨p, follow?_store hm⟩ ⟨holder'.steps, follow?_store hn'⟩
  rw [Location.steps_append_child, lookUp_step hn, child?_of_cell? hc seen, there]
  simp only [untouched, Location.length_child]
  rfl

omit unshared in
/-- Setting a place keeps the order of the slots of all containers. -/
theorem slots_put (child : Node) (n : Node) :
    (r.children? (s.write address (cell.put child last)) n).map (·.map Prod.fst) =
      (r.children? s n).map (·.map Prod.fst) := by
  have updated : ∃ new, (s.write address (cell.put child last)).cell? n =
      (s.cell? n).map fun cell => cell.update new := by
    rw [Store.cell?_write]
    split
    · next same =>
      refine ⟨fun other => if other = last then some child else none, ?_⟩
      rw [same, slot.slots, Option.map_some, Option.map_some, Cell.put_eq_update slot.there]
    · refine ⟨fun _ => none, ?_⟩
      simp only [Cell.update_nothing, Option.map_id']
  obtain ⟨new, h⟩ := updated
  rw [children?_of_update h]
  cases r.children? s n <;> simp

end Put

end Reading

/-! ### Settings in sequence -/

variable {r : Reading} {root : Node} {place l : Location} {w : World}

theorem store_of_setAt_error {child : Node} {e : Error}
    (h : (setAt r.access root place child w).1 = .error e) :
    (setAt r.access root place child w).2.store = w.store := by
  rcases setAt_frame r root place w child with ⟨-, same⟩ | ⟨done, -⟩
  · exact same
  · rw [h] at done
    cases done

theorem Reading.FindsSlot.setAt_ok {address : Nat} {cell : Cell} {last : Step} {old : Node}
    (slot : r.FindsSlot root place w.store address cell last old)
    (editable : r.editable cell = true) (child : Node) :
    TreeQuery.setAt r.access root place child w =
      (.ok (), ⟨w.store.write address (cell.put child last), w.log.push (.changed place)⟩) := by
  rw [slot.setAt, editable, if_pos rfl]

section Twice

variable {s : Store} {a b : Nat} {c d : Cell} {step other : Step} {old node : Node}
  (unshared : r.Unshared s root) (slot : r.FindsSlot root place s a c step old)
  (slot' : r.FindsSlot root l s b d other node) (apart : ¬ place.steps <+: l.steps)

include unshared slot slot' apart

/-- A slot that does not lie at or below a place is still found when the place was set, in a container
of the same kind. -/
theorem Reading.FindsSlot.after_put (child : Node) :
    let later := if b = a then c.put child step else d
    r.FindsSlot root l (s.write a (c.put child step)) b later other node ∧ later.kind = d.kind := by
  obtain ⟨⟨holder, rfl, hn⟩, hc, seen, there⟩ := slot
  have kind := (Cell.replaced_put there child).kind_eq
  exact ⟨slot'.write hc seen unshared hn kind (Reading.put_untouched there apart child),
    slot'.kind_write hc kind⟩

/-- Two slots can be set in any order. -/
theorem write_put_comm (value value' : Node) :
    (s.write a (c.put value step)).write b
        ((if b = a then c.put value step else d).put value' other) =
      (s.write b (d.put value' other)).write a
        ((if a = b then d.put value' other else c).put value step) := by
  by_cases same : a = b
  · subst same
    cases slot.slots.symm.trans slot'.slots
    obtain ⟨⟨holder, rfl, hn⟩, hc, seen, there⟩ := slot
    obtain ⟨⟨holder', rfl, hn'⟩, -, -, there'⟩ := slot'
    have children : (r.children? s (.container a)).isSome :=
      Reading.isSome_children?_iff.2 ⟨c, hc, seen⟩
    have way : holder = holder' := congrArg Location.mk (unshared _ _ _ children hn hn')
    have distinct : step ≠ other := by
      rintro rfl
      exact apart (way ▸ List.prefix_rfl)
    simp only [if_true, Store.write_write, Cell.put_comm there there' distinct]
  · rw [if_neg same, if_neg (Ne.symm same), Store.write_comm same]

end Twice

section Apart

variable (unshared : r.Unshared w.store root) {value : Node}
  (settable : (setAt r.access root place value w).1 = .ok ()) (apart : ¬ place.steps <+: l.steps)

include unshared settable apart

/-- What a setting gives does not change when a place was set at or below which it does not lie. -/
theorem setAt_after_setAt (value' : Node) :
    (setAt r.access root l value' (setAt r.access root place value w).2).1 =
      (setAt r.access root l value' w).1 := by
  obtain ⟨address, cell, last, old, slot, editable⟩ := setAt_eq_ok_iff.1 settable
  obtain ⟨ending, ends⟩ := r.exists_ends root l w.store
  rw [slot.setAt_ok editable]
  obtain ⟨⟨holder, rfl, hn⟩, hc, seen, there⟩ := slot
  obtain ⟨later, ends', same⟩ := ends.write hc seen unshared hn
    (Cell.replaced_put there value).kind_eq (Reading.put_untouched there apart value)
  rw [(ends'.setAt value').1, (ends.setAt value').1, same]

/-- Settings at places neither of which lies below the other lead to the same store in either order, also
when the second of them fails. -/
theorem setAt_comm (apart' : ¬ l.steps <+: place.steps) (value' : Node) :
    let after := setAt r.access root l value' (setAt r.access root place value w).2
    let before := setAt r.access root l value' w
    (setAt r.access root place value before.2).1 = .ok () ∧
      (setAt r.access root place value before.2).2.store = after.2.store := by
  intro after before
  have reply : after.1 = before.1 := setAt_after_setAt unshared settable apart value'
  obtain ⟨address, cell, last, old, slot, editable⟩ := setAt_eq_ok_iff.1 settable
  have run := slot.setAt_ok editable value
  cases outcome : before.1 with
  | error e =>
    have store : before.2.store = w.store := store_of_setAt_error outcome
    have store' : after.2.store = (setAt r.access root place value w).2.store :=
      store_of_setAt_error (reply.trans outcome)
    have again := Reading.FindsSlot.setAt_ok (w := before.2) (store ▸ slot) editable value
    rw [again, store', run, store]
    exact ⟨rfl, rfl⟩
  | ok done =>
    obtain ⟨address', cell', last', old', slot', editable'⟩ := setAt_eq_ok_iff.1 outcome
    obtain ⟨first, kind⟩ := Reading.FindsSlot.after_put unshared slot slot' apart value
    obtain ⟨second, kind'⟩ := Reading.FindsSlot.after_put unshared slot' slot apart' value'
    have alone : before = _ := slot'.setAt_ok editable' value'
    have later : after = _ := (congrArg (fun done => setAt r.access root l value' done.2) run).trans
      (first.setAt_ok
        (w := ⟨w.store.write address (cell.put value last), w.log.push (.changed place)⟩)
        ((Reading.editable_congr kind).trans editable') value')
    have again := second.setAt_ok
      (w := ⟨w.store.write address' (cell'.put value' last'), w.log.push (.changed l)⟩)
      ((Reading.editable_congr kind').trans editable) value
    rw [later, alone, again]
    exact ⟨rfl, (write_put_comm unshared slot slot' apart value value').symm⟩

end Apart

/-- Setting a place of an unshared tree, where it succeeds, obeys the laws of an update. The new node is
read at the place. Setting the place to the node that was read there leaves the store as it is. After a
first setting a second one at the same place succeeds and leaves the store that it leaves alone. If the
new node shares no container with the tree, then reading below the place is reading below this node, and
errors count the steps to the place. All locations that do not lie at or below the place read as
before. Settings at places neither of which lies below the other give the same in either order and lead
to the same store. The slots of all containers keep their number and order. -/
theorem set_laws (r : Reading) (root : Node) (place : Location) (w : World) (value : Node)
    (unshared : r.Unshared w.store root)
    (settable : (setAt r.access root place value w).1 = .ok ()) :
    let read (l : Location) (w : World) := (nodeAt r.access root l w).1
    let set (l : Location) (child : Node) (w : World) := setAt r.access root l child w
    let done := (set place value w).2
    read place done = .ok value ∧
    (∃ old, read place w = .ok old ∧
      (set place old w).1 = .ok () ∧ (set place old w).2.store = w.store) ∧
    (∀ other, (set place other w).1 = .ok () ∧ (set place other done).1 = .ok () ∧
      (set place other done).2.store = (set place other w).2.store) ∧
    (w.store.Apart value root → ∀ rest, read (place.append rest) done =
      (nodeAt r.access value rest w).1.mapError (Error.under place)) ∧
    (∀ l, ¬ place.steps <+: l.steps → read l done = read l w) ∧
    (∀ l other, ¬ place.steps <+: l.steps → ¬ l.steps <+: place.steps →
      (set l other done).1 = (set l other w).1 ∧
        (set place value (set l other w).2).1 = .ok () ∧
        (set place value (set l other w).2).2.store = (set l other done).2.store) ∧
    ∀ n, (r.children? done.store n).map (·.map Prod.fst) =
      (r.children? w.store n).map (·.map Prod.fst) := by
  intro read set done
  obtain ⟨address, cell, last, old, slot, editable⟩ := setAt_eq_ok_iff.1 settable
  have run : ∀ child, set place child w = _ := slot.setAt_ok editable
  have store : done.store = w.store.write address (cell.put value last) :=
    congrArg (fun e => e.2.store) (run value)
  have holds := slot.put unshared value
  rw [← store] at holds
  refine ⟨?_, ⟨old, ?_, ?_, ?_⟩, ?_, ?_, ?_, ?_, ?_⟩
  · exact nodeAt_eq_ok_iff.2 holds.follow?
  · exact nodeAt_eq_ok_iff.2 slot.follow?
  · rw [run old]
  · rw [run old, Cell.put_child? slot.there, Store.write_cell? slot.slots]
  · intro other
    have kind := (Cell.replaced_put slot.there value).kind_eq
    have again := holds.setAt_ok ((Reading.editable_congr kind).trans editable) other
    refine ⟨by rw [run other], congrArg Prod.fst again, ?_⟩
    rw [run other, show set place other done = _ from again, store]
    simp only [Store.write_write, Cell.put_put slot.there]
  · intro fresh rest
    have below := Reading.lookUp_put_below slot unshared fresh rest
    rw [← store] at below
    simp only [read, Reading.nodeAt_lookUp, below]
    cases r.lookUp w.store value rest.steps <;> rfl
  · intro l apart
    apply Reading.nodeAt_of_lookUp
    rw [store, Reading.lookUp_put slot unshared apart]
  · intro l other apart apart'
    exact ⟨setAt_after_setAt unshared settable apart other,
      setAt_comm unshared settable apart apart' other⟩
  · intro n
    rw [store, Reading.slots_put slot]

/-- The tree `{"a": [1, {"b": 2}], "c": 3}`. -/
def objectInList : Value := .object .mapping
  [("a", .array .list [.int 1, .object .mapping [("b", .int 2)]]), ("c", .int 3)]

/-- The tree `{"d": [4]}`. -/
def listInMember : Value := .object .mapping [("d", .array .list [.int 4])]

/-- When an object in a list was replaced, its members are missing, those of the new object are read in
its place, and the other member of the tree is read as before. -/
theorem reads_after_object_replaced :
    let tree := Store.empty.load objectInList
    let value := tree.2.load listInMember
    let w : World := ⟨value.2, #[]⟩
    let place : Location := ⟨[.key "a", .index 1]⟩
    let setting := setAt Reading.standard.access tree.1 place value.1 w
    let after (steps : List Step) := (nodeAt Reading.standard.access tree.1 ⟨steps⟩ setting.2).1
    Reading.standard.Unshared w.store tree.1 ∧ setting.1 = .ok () ∧ w.store.Apart value.1 tree.1 ∧
      after [.key "a", .index 1, .key "d", .index 0] = .ok (.scalar (.int 4)) ∧
      after [.key "a", .index 1, .key "b"] =
        .error (.notFound ⟨[.key "a", .index 1, .key "b"]⟩ 2) ∧
      after [.key "c"] = .ok (.scalar (.int 3)) := by
  intro tree value w place setting after
  have loaded := Store.loaded_load objectInList Store.tidy_empty
  have unshared : Reading.standard.Unshared w.store tree.1 :=
    Reading.unshared_of_store ((Store.loaded_load listInMember loaded.tidy).tidy.unshared tree.1)
  have fresh : w.store.Apart value.1 tree.1 := Store.apart_load Store.tidy_empty _ _
  obtain ⟨-, -, -, below, elsewhere, -⟩ :=
    set_laws Reading.standard tree.1 place w value.1 unshared rfl
  refine ⟨unshared, rfl, fresh, ?_, ?_, ?_⟩
  · exact below fresh ⟨[.key "d", .index 0]⟩
  · exact below fresh ⟨[.key "b"]⟩
  · exact elsewhere ⟨[.key "c"]⟩ (by decide)

end TreeQuery
