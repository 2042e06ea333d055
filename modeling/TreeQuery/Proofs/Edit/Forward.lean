import TreeQuery.Proofs.Edit.Batch
import TreeQuery.Proofs.Edit.Frame
import TreeQuery.Proofs.Edit.Loading
import TreeQuery.Proofs.Search.Composition
import TreeQuery.Proofs.Search.Nulls

/-!
# Removing matches from the first to the last

Every removal in an array moves the later items up. So when the children of an array are removed in
their order, by the places that they had, each removal but the first meets another item than the one
that was matched: the second one meets the third item, and so on, until the places lie beyond the end.
Every other item is left. In an object each removal meets its own member, and nothing is left.
-/

namespace TreeQuery

/-! ### One container -/

namespace Members

variable {α : Type} {name : String}

theorem filter_ne_of_notMem {l : List (String × α)} (h : name ∉ l.map Prod.fst) :
    l.filter (·.1 ≠ name) = l := by
  apply List.filter_eq_self.2
  intro e he
  have : e.1 ≠ name := fun same => h (List.mem_map.2 ⟨e, he, same⟩)
  simpa using this

theorem erase_of_get?_eq_none {m : Members α} (h : m.get? name = none) : m.erase name = m := by
  apply ext
  exact filter_ne_of_notMem (lookup_eq_none_iff.1 h)

theorem entries_erase_first {m : Members α} {value : α} {rest : List (String × α)}
    (h : m.entries = (name, value) :: rest) : (m.erase name).entries = rest := by
  have distinct := m.nodup
  rw [h, List.map_cons, List.nodup_cons] at distinct
  have others : m.entries.filter (·.1 ≠ name) = rest := by
    rw [h, List.filter_cons_of_neg (by simp), filter_ne_of_notMem distinct.1]
  exact others

end Members

theorem itemsWithout_odd {α : Type} (first second : α) (rest : List α) :
    itemsWithout (fun place => place % 2 = 1) (first :: second :: rest) =
      first :: itemsWithout (fun place => place % 2 = 1) rest := by
  have shift : ∀ place, (place + 1 + 1) % 2 = 1 ↔ place % 2 = 1 := by omega
  simp [itemsWithout_cons, shift]

theorem itemsWithout_even {α : Type} (first second : α) (rest : List α) :
    itemsWithout (fun place => place % 2 = 0) (first :: second :: rest) =
      second :: itemsWithout (fun place => place % 2 = 0) rest := by
  have shift : ∀ place, (place + 1 + 1) % 2 = 0 ↔ place % 2 = 0 := by omega
  simp [itemsWithout_cons, shift]

namespace Cell

/-- The steps to the slots of a container with the nodes in them, in order. -/
def slots : Cell → List (Step × Node)
  | array _ items => items.zipIdx.map fun e => (.index e.2, e.1)
  | object _ members => members.entries.map fun e => (.key e.1, e.2)

theorem slots_array_steps (kind : ArrayKind) (items : List Node) :
    (slots (array kind items)).map Prod.fst = (List.range' 0 items.length).map Step.index := by
  rw [← List.zipIdx_map_snd, List.map_map, slots, List.map_map]
  rfl

theorem slots_object_steps (kind : ObjectKind) (members : Members Node) :
    (slots (object kind members)).map Prod.fst = members.entries.map fun e => Step.key e.1 := by
  rw [slots, List.map_map]
  rfl

/-- Dropping a slot that is not there changes nothing. -/
theorem drop_of_missing {cell : Cell} {step : Step} (h : cell.child? step = none) :
    cell.drop step = cell := by
  cases cell with
  | array kind items =>
    cases step with
    | key name => rfl
    | index place =>
      have beyond : items.length ≤ place := List.getElem?_eq_none_iff.1 h
      exact congrArg (array kind) (List.eraseIdx_of_length_le beyond)
  | object kind members =>
    cases step with
    | index place => rfl
    | key name => exact congrArg (object kind) (Members.erase_of_get?_eq_none h)

theorem kind_drop (cell : Cell) (step : Step) : (cell.drop step).kind = cell.kind := by
  cases cell <;> cases step <;> rfl

/-- What the removal of a slot gives, in the container at a location. -/
def removal (holder : Location) (cell : Cell) (step : Step) : Except Error Node :=
  match cell.child? step with
  | some old => .ok old
  | none => .error (.notFound (holder.child step) holder.length)

theorem removal_of_child? {holder : Location} {cell : Cell} {step : Step} {old : Node}
    (h : cell.child? step = some old) : cell.removal holder step = .ok old := by
  rw [removal, h]

theorem removal_of_missing {holder : Location} {cell : Cell} {step : Step}
    (h : cell.child? step = none) :
    cell.removal holder step = .error (.notFound (holder.child step) holder.length) := by
  rw [removal, h]

/-- What removals of slots give one after the other, each of them in what those before it left. -/
def removals (holder : Location) : List Step → Cell → List (Except Error Node)
  | [], _ => []
  | step :: rest, cell => cell.removal holder step :: removals holder rest (cell.drop step)

theorem length_removals (holder : Location) (steps : List Step) (cell : Cell) :
    (removals holder steps cell).length = steps.length := by
  induction steps generalizing cell with
  | nil => rfl
  | cons step rest ih => rw [removals, List.length_cons, List.length_cons, ih]

/-- What the removals of all slots in their order give. In an array they meet the items at even
places, and then there is nothing left at the places that they ask for. -/
def forwardRemovals (holder : Location) (depth : Nat) : Cell → List (Except Error Node)
  | array _ items =>
    (itemsWithout (fun place => place % 2 = 1) items).map .ok ++
      (List.range' ((items.length + 1) / 2) (items.length / 2)).map fun place =>
        .error (.notFound (holder.child (.index place)) depth)
  | object _ members => members.values.map .ok

/-- What the removals of all slots in their order leave: an array keeps the items at odd places. -/
def forwardRest : Cell → Cell
  | array kind items => array kind (itemsWithout (fun place => place % 2 = 0) items)
  | object kind _ => object kind .empty

theorem kind_forwardRest (cell : Cell) : cell.forwardRest.kind = cell.kind := by
  cases cell <;> rfl

/-- At places beyond the end there is nothing to remove. -/
theorem removals_beyond (holder : Location) (kind : ArrayKind) (items : List Node) (extra : Nat)
    {start : Nat} (beyond : items.length ≤ start) :
    removals holder ((List.range' start extra).map .index) (array kind items) =
        (List.range' start extra).map (fun place =>
          .error (.notFound (holder.child (.index place)) holder.length)) ∧
      ((List.range' start extra).map .index).foldl drop (array kind items) = array kind items := by
  induction extra generalizing start with
  | zero => exact ⟨rfl, rfl⟩
  | succ extra ih =>
    have missing : (array kind items).child? (.index start) = none :=
      List.getElem?_eq_none beyond
    obtain ⟨later, left⟩ := ih (Nat.le_succ_of_le beyond)
    rw [List.range'_succ, List.map_cons, List.map_cons, removals, List.foldl_cons,
      drop_of_missing missing, later, left, removal_of_missing missing]
    exact ⟨rfl, rfl⟩

/-- The removal of the item behind some others. -/
theorem removal_behind (holder : Location) (kind : ArrayKind) (passed : List Node) (item : Node)
    (rest : List Node) :
    (array kind (passed ++ item :: rest)).removal holder (.index passed.length) = .ok item ∧
      (array kind (passed ++ item :: rest)).drop (.index passed.length) =
        array kind (passed ++ rest) := by
  simp [removal, child?, drop, List.eraseIdx_append_of_length_le]

/-- The first item behind those that are passed over is met, and the next one takes its place, to be
passed over by the removal that follows. When the items are used up, there may be `extra` removals
still to come. -/
theorem removals_items (holder : Location) (kind : ArrayKind) (extra : Nat) :
    ∀ items passed : List Node,
      let count := (items.length + 1) / 2
      let steps := (List.range' passed.length (count + extra)).map Step.index
      removals holder steps (array kind (passed ++ items)) =
          (itemsWithout (fun place => place % 2 = 1) items).map .ok ++
            (List.range' (passed.length + count) extra).map (fun place =>
              .error (.notFound (holder.child (.index place)) holder.length)) ∧
        steps.foldl drop (array kind (passed ++ items)) =
          array kind (passed ++ itemsWithout (fun place => place % 2 = 0) items)
  | [], passed => by
    have beyond := removals_beyond holder kind passed extra (Nat.le_refl passed.length)
    simpa [itemsWithout] using beyond
  | [last], passed => by
    intro count steps
    have single : count = 1 := by simp [count]
    have one : steps = .index passed.length ::
        (List.range' (passed.length + 1) extra).map Step.index := by
      simp only [steps, single, Nat.add_comm 1, List.range'_succ, List.map_cons]
    obtain ⟨met, dropped⟩ := removal_behind holder kind passed last []
    obtain ⟨given, left⟩ := removals_beyond holder kind passed extra (Nat.le_succ passed.length)
    rw [one, removals, List.foldl_cons, met, dropped, List.append_nil, given, left]
    simp [count, itemsWithout]
  | first :: second :: rest, passed => by
    intro count steps
    have more : count = (rest.length + 1) / 2 + 1 := by
      simp only [count, List.length_cons]
      omega
    have longer : (passed ++ [second]).length = passed.length + 1 := List.length_append
    have one : steps = .index passed.length ::
        (List.range' (passed ++ [second]).length ((rest.length + 1) / 2 + extra)).map Step.index := by
      rw [longer, ← List.map_cons, ← List.range'_succ, ← Nat.add_right_comm, ← more]
    have place : passed.length + count = (passed ++ [second]).length + (rest.length + 1) / 2 := by
      omega
    obtain ⟨met, dropped⟩ := removal_behind holder kind passed first (second :: rest)
    obtain ⟨given, left⟩ := removals_items holder kind extra rest (passed ++ [second])
    rw [List.append_assoc, List.singleton_append] at given left
    rw [one, removals, List.foldl_cons, met, dropped, given, left, itemsWithout_odd,
      itemsWithout_even, place]
    simp

/-- In an object each removal meets its own member. -/
theorem removals_members (holder : Location) (kind : ObjectKind) (members : Members Node) :
    let steps := members.entries.map fun e => Step.key e.1
    removals holder steps (object kind members) = members.values.map .ok ∧
      steps.foldl drop (object kind members) = object kind .empty := by
  generalize h : members.entries = entries
  induction entries generalizing members with
  | nil =>
    have nothing : members = .empty := Members.ext h
    subst nothing
    exact ⟨rfl, rfl⟩
  | cons e rest ih =>
    obtain ⟨name, node⟩ := e
    have there : members.get? name = some node := by
      rw [members.get?_eq_some_iff, h]
      exact List.mem_cons_self
    have others : (members.erase name).entries = rest := Members.entries_erase_first h
    have values : members.values = node :: (members.erase name).values := by
      rw [Members.values, Members.values, h, others, List.map_cons]
    have met : (object kind members).removal holder (.key name) = .ok node :=
      removal_of_child? there
    obtain ⟨given, left⟩ := ih (members.erase name) others
    simp only [List.map_cons, removals, List.foldl_cons, met, drop, given, left, values, true_and]

/-- All slots in their order. -/
theorem removals_slots (holder : Location) (cell : Cell) :
    removals holder (cell.slots.map Prod.fst) cell = cell.forwardRemovals holder holder.length ∧
      (cell.slots.map Prod.fst).foldl drop cell = cell.forwardRest := by
  cases cell with
  | array kind items =>
    have all : (items.length + 1) / 2 + items.length / 2 = items.length := by omega
    have run := removals_items holder kind (items.length / 2) items []
    simpa only [slots_array_steps, forwardRemovals, forwardRest, List.nil_append, List.length_nil,
      Nat.zero_add, all] using run
  | object kind members =>
    rw [slots_object_steps]
    exact removals_members holder kind members

end Cell

namespace Reading

variable {r : Reading} {s : Store} {root : Node} {o : Options}

variable (r s) in
/-- The container that the reading sees at a node. -/
def container? (n : Node) : Option Cell := (s.cell? n).filter r.counts

theorem container?_eq_some_iff {n : Node} {cell : Cell} :
    r.container? s n = some cell ↔ s.cell? n = some cell ∧ r.counts cell = true := by
  rw [container?, Option.filter_eq_some_iff]

theorem children?_eq (n : Node) : r.children? s n = (r.container? s n).map Cell.slots := by
  unfold children? members? elements? container?
  cases hc : s.cell? n with
  | none => rfl
  | some cell =>
    cases cell with
    | array kind items => cases h : r.arrays kind <;> simp [Option.filter, counts, h, Cell.slots]
    | object kind members =>
      cases h : r.objects kind <;> simp [Option.filter, counts, h, Cell.slots]

/-! ### Removals from one container of a tree -/

/-- A change of slots that keeps the kinds of all containers and leaves those above a depth alone. -/
structure ChangesFrom (depth : Nat) (change : List Step → Cell → Cell) : Prop where
  kind_eq : ∀ steps cell, (change steps cell).kind = cell.kind
  above : ∀ steps cell, steps.length < depth → change steps cell = cell

theorem ChangesFrom.drop {holder : Location} {f : List Step → Cell → Cell}
    (h : ChangesFrom holder.length f) (step : Step) :
    ChangesFrom holder.length fun p cell =>
      if p = holder.steps then (f p cell).drop step else f p cell where
  kind_eq p cell := by
    split
    · rw [Cell.kind_drop, h.kind_eq]
    · exact h.kind_eq p cell
  above p cell short := by
    have way : p ≠ holder.steps := by
      rintro rfl
      exact Nat.lt_irrefl _ short
    rw [if_neg way, h.above p cell short]

/-- What leads to a container is above it. -/
theorem Revised.follow?_holder {holder : Location} {f : List Step → Cell → Cell} {t : Store}
    (h : r.Revised s t root f) (deep : ChangesFrom holder.length f) :
    r.follow? t root holder.steps = r.follow? s root holder.steps := by
  apply h.follow?_eq deep.kind_eq
  intro p next rest way n cell _ _
  have short : p.length < holder.length := by
    rw [Location.length, way, List.length_append, List.length_cons]
    omega
  rw [deep.above p cell short]

section Holder

variable {holder : Location} {address : Nat} {cell : Cell} (unshared : r.Unshared s root)
  (hn : r.follow? s root holder.steps = some (.container address))
  (hc : s.cell? (.container address) = some cell) (seen : r.counts cell = true)

include unshared hn hc seen

/-- A removal from a container gives and leaves what the slots there at this time say, if the
containers further up are as they were. -/
theorem Revised.remove_from {f : List Step → Cell → Cell} {v : Workspace}
    (h : r.Revised s v.store root f) (deep : ChangesFrom holder.length f)
    (editable : r.editable cell = true) (step : Step) :
    ∃ v', Finder.remove ⟨r.access, o⟩ root (.location (holder.child step)) v =
        ((f holder.steps cell).removal holder step, v') ∧
      r.Revised s v'.store root fun p cell =>
        if p = holder.steps then (f p cell).drop step else f p cell := by
  have kind := deep.kind_eq holder.steps cell
  have reached : r.follow? v.store root holder.steps = some (.container address) :=
    (h.follow?_holder deep).trans hn
  have now : v.store.cell? (.container address) = some (f holder.steps cell) := h.cell? hn hc
  have counted : r.counts (f holder.steps cell) = true := (counts_congr kind).trans seen
  rw [Finder.remove_run]
  cases slot : (f holder.steps cell).child? step with
  | some old =>
    have run := removeAt_run (w := v.toWorld) reached now counted slot
    rw [editable_congr kind, editable, if_pos rfl] at run
    rw [Cell.removal_of_child? slot, run]
    exact ⟨_, rfl, h.write_holder unshared hn hc seen fun cell => cell.drop step⟩
  | none =>
    have missing : r.child? v.store (.container address) step = none := by
      rw [Reading.child?_eq, now, Option.filter_some, counted]
      exact slot
    have nowhere : r.follow? v.store root (holder.child step).steps = none := by
      rw [Location.child, follow?_concat, reached]
      exact missing
    have depth : r.reach v.store root (holder.child step).steps = holder.length :=
      reach_concat reached missing
    have run := removeAt_of_missing (w := v.toWorld) nowhere
    rw [depth, reportMissing_run] at run
    rw [Cell.removal_of_missing slot, run]
    refine ⟨_, rfl, h.congr ?_⟩
    intro p n other ho hother
    by_cases way : p = holder.steps
    · subst way
      cases hn.symm.trans ho
      cases hc.symm.trans hother
      rw [if_pos rfl, Cell.drop_of_missing slot]
    · rw [if_neg way]

/-- Removals from one container, one after the other. -/
theorem Revised.remove_each {steps : List Step} (editable : steps ≠ [] → r.editable cell = true)
    {f : List Step → Cell → Cell} {v : Workspace} (h : r.Revised s v.store root f)
    (deep : ChangesFrom holder.length f) :
    ∃ v', Finder.atEach (fun place => Finder.remove ⟨r.access, o⟩ root (.location place))
        (steps.map holder.child) v = (.ok (Cell.removals holder steps (f holder.steps cell)), v') ∧
      r.Revised s v'.store root fun p cell =>
        if p = holder.steps then steps.foldl Cell.drop (f p cell) else f p cell := by
  induction steps generalizing f v with
  | nil => exact ⟨v, rfl, h.congr fun _ _ => by simp⟩
  | cons step rest ih =>
    have able : r.editable cell = true := editable (List.cons_ne_nil step rest)
    obtain ⟨u, run, next⟩ := h.remove_from unshared hn hc seen deep able step
    obtain ⟨v', later, revised⟩ := ih (fun _ => able) next (deep.drop step)
    refine ⟨v', ?_, revised.congr ?_⟩
    · rw [if_pos rfl] at later
      rw [List.map_cons, Finder.atEach_cons, run]
      simp only [later, Cell.removals]
      rfl
    · intro p n c _ _
      by_cases way : p = holder.steps <;> simp [way]

end Holder

/-! ### Removals from the containers at several matches -/

variable (r s) in
/-- The children of a match as matches, in order. -/
def below (parent : Match) : List Match :=
  ((r.children? s parent.node).getD []).map fun e => ⟨parent.location.child e.1, e.2⟩

variable (r s) in
/-- What the removals of the children of a match in their order give. -/
def removalsBelow (depth : Nat) (parent : Match) : List (Except Error Node) :=
  match r.container? s parent.node with
  | some cell => cell.forwardRemovals parent.location depth
  | none => []

/-- There is an outcome for each child. -/
theorem length_removalsBelow (parent : Match) :
    (r.removalsBelow s parent.location.length parent).length = (r.below s parent).length := by
  cases hs : r.container? s parent.node with
  | none => simp [removalsBelow, below, children?_eq, hs]
  | some cell =>
    obtain ⟨given, -⟩ := cell.removals_slots parent.location
    have all : r.removalsBelow s parent.location.length parent =
        Cell.removals parent.location (cell.slots.map Prod.fst) cell := by
      rw [removalsBelow, hs, given]
    rw [all, Cell.length_removals, below, children?_eq, hs]
    simp

variable (r) in
/-- What is left of containers when those at some locations have lost all slots that they could lose
in order. -/
def thinning (holders : List Location) (steps : List Step) (cell : Cell) : Cell :=
  if (⟨steps⟩ : Location) ∈ holders ∧ r.counts cell = true then cell.forwardRest else cell

theorem thinning_of_notMem {holders : List Location} {steps : List Step}
    (h : (⟨steps⟩ : Location) ∉ holders) (cell : Cell) : r.thinning holders steps cell = cell :=
  if_neg fun both => h both.1

theorem changesFrom_thinning {holders : List Location} {depth : Nat}
    (deep : ∀ l ∈ holders, l.length = depth) : ChangesFrom depth (r.thinning holders) where
  kind_eq steps cell := by
    unfold thinning
    split
    · exact cell.kind_forwardRest
    · rfl
  above steps cell short := by
    apply thinning_of_notMem
    intro there
    have : steps.length = depth := deep _ there
    omega

theorem thinning_concat (holders : List Location) (holder : Location) (steps : List Step)
    (cell : Cell) :
    r.thinning (holders ++ [holder]) steps cell =
      if steps = holder.steps ∧ r.counts cell = true then cell.forwardRest
      else r.thinning holders steps cell := by
  have same : (⟨steps⟩ : Location) = holder ↔ steps = holder.steps := by
    cases holder
    simp
  by_cases here : steps = holder.steps <;> cases seen : r.counts cell <;>
    simp [thinning, same, here, seen]

/-- A container with a child whose slot can be changed can be edited. -/
theorem editable_of_below {holder : Location} {address : Nat} {cell : Cell}
    (hn : r.follow? s root holder.steps = some (.container address))
    (hs : r.container? s (.container address) = some cell)
    (editable : ∀ m ∈ r.below s ⟨holder, .container address⟩, r.EditableAt s root m.location)
    (some : cell.slots ≠ []) : r.editable cell = true := by
  obtain ⟨e, he⟩ := List.exists_mem_of_ne_nil _ some
  have child : ⟨holder.child e.1, e.2⟩ ∈ r.below s ⟨holder, .container address⟩ := by
    rw [below, children?_eq, hs]
    exact List.mem_map.2 ⟨e, he, rfl⟩
  obtain ⟨holder', last, n, other, same, hn', hc', able⟩ := editable _ child
  obtain ⟨rfl, rfl⟩ := Location.child_inj.1 same
  cases hn.symm.trans hn'
  cases (container?_eq_some_iff.1 hs).1.symm.trans hc'
  exact able

/-- The container at one more match, apart from those that have been thinned out before. -/
theorem Revised.remove_below {done : List Location} {parent : Match} {v : Workspace}
    (h : r.Revised s v.store root (r.thinning done)) (unshared : r.Unshared s root)
    (there : r.follow? s root parent.location.steps = some parent.node)
    (deep : ∀ l ∈ done, l.length = parent.location.length) (fresh : parent.location ∉ done)
    (editable : ∀ m ∈ r.below s parent, r.EditableAt s root m.location) :
    ∃ v', Finder.atEach (fun place => Finder.remove ⟨r.access, o⟩ root (.location place))
        ((r.below s parent).map Match.location) v =
          (.ok (r.removalsBelow s parent.location.length parent), v') ∧
      r.Revised s v'.store root (r.thinning (done ++ [parent.location])) := by
  obtain ⟨holder, node⟩ := parent
  cases hs : r.container? s node with
  | none =>
    -- Nothing is removed below a match that is no container.
    have nothing : r.below s ⟨holder, node⟩ = [] := by simp [below, children?_eq, hs]
    refine ⟨v, ?_, h.congr ?_⟩
    · rw [nothing, removalsBelow, hs]
      rfl
    · intro steps n cell hn hc
      have unseen : ¬(steps = holder.steps ∧ r.counts cell = true) := by
        rintro ⟨rfl, seen⟩
        cases hn.symm.trans there
        cases hs.symm.trans (container?_eq_some_iff.2 ⟨hc, seen⟩)
      rw [thinning_concat, if_neg unseen]
  | some cell =>
    obtain ⟨hc, seen⟩ := container?_eq_some_iff.1 hs
    cases node with
    | scalar content => cases hc
    | container address =>
      have places : (r.below s ⟨holder, .container address⟩).map Match.location =
          (cell.slots.map Prod.fst).map holder.child := by
        simp [below, children?_eq, hs]
      have able : cell.slots.map Prod.fst ≠ [] → r.editable cell = true := by
        intro some
        exact editable_of_below there hs editable fun none => some (by rw [none, List.map_nil])
      obtain ⟨v', run, revised⟩ := Revised.remove_each (o := o) unshared there hc seen able h
        (changesFrom_thinning deep)
      obtain ⟨given, left⟩ := cell.removals_slots holder
      refine ⟨v', ?_, revised.congr ?_⟩
      · rw [places, run, thinning_of_notMem fresh, given, removalsBelow, hs]
      · intro steps n c hn hc'
        rw [thinning_concat]
        by_cases way : steps = holder.steps
        · subst way
          cases hn.symm.trans there
          cases hc.symm.trans hc'
          rw [if_pos rfl, thinning_of_notMem fresh, left, if_pos ⟨rfl, seen⟩]
        · rw [if_neg way, if_neg fun both => way both.1]

/-- A last wildcard finds the children of all matches of what comes before it. -/
theorem found_wildcard (keeps : o.nullAsMissing = false) (front : List Segment) (n : Node) :
    r.found s o (front ++ [.wildcard]) n = (r.found s o front n).flatMap (r.below s) := by
  rw [found_append]
  refine List.flatMap_congr fun m _ => ?_
  have all : r.selected s o m.node .wildcard = (r.children? s m.node).getD [] := by
    simp [selected, Segment.step?, skips_eq_false keeps]
  rw [below, found, all]
  simp [found, Match.under, Location.append, Location.child, Location.root, ← List.map_eq_flatMap]

/-- The containers at the matches of a search, one after the other. -/
theorem remove_below_found {segments : List Segment} (unshared : r.Unshared s root)
    (editable : ∀ parent ∈ r.found s o segments root, ∀ m ∈ r.below s parent,
      r.EditableAt s root m.location) {v : Workspace} (store : v.store = s) :
    ∃ v', Finder.atEach (fun place => Finder.remove ⟨r.access, o⟩ root (.location place))
        ((r.found s o segments root).flatMap fun parent =>
          (r.below s parent).map Match.location) v =
        (.ok ((r.found s o segments root).flatMap (r.removalsBelow s segments.length)), v') ∧
      r.Revised s v'.store root (r.thinning ((r.found s o segments root).map Match.location)) := by
  have deep : ∀ m ∈ r.found s o segments root, m.location.length = segments.length :=
    fun m hm => (mem_found_iff.1 hm).length_eq
  have start : r.Revised s v.store root (r.thinning (([] : List Match).map Match.location)) := by
    rw [store]
    exact Revised.refl.congr fun _ _ => (thinning_of_notMem List.not_mem_nil _).symm
  refine Finder.atEach_flatMap
    (fun done v => r.Revised s v.store root (r.thinning (done.map Match.location))) ?_ start
  intro done parent rest u whole h
  have among : ∀ m ∈ done ++ [parent], m ∈ r.found s o segments root := by
    intro m hm
    rw [whole, List.append_cons]
    exact List.mem_append_left rest hm
  have here := among parent (by simp)
  have same_length : ∀ l ∈ done.map Match.location, l.length = parent.location.length := by
    intro l hl
    obtain ⟨m, hm, rfl⟩ := List.mem_map.1 hl
    rw [deep m (among m (List.mem_append_left _ hm)), deep parent here]
  have fresh : parent.location ∉ done.map Match.location := by
    have distinct := nodup_found (r := r) (s := s) (o := o) segments root
    rw [whole, List.map_append, List.map_cons, List.nodup_append] at distinct
    exact fun hm => distinct.2.2 _ hm _ List.mem_cons_self rfl
  obtain ⟨v', run, revised⟩ := h.remove_below (o := o) unshared (mem_found_iff.1 here).follow?
    same_length fresh (editable parent here)
  rw [deep parent here] at run
  refine ⟨v', run, ?_⟩
  rwa [List.map_append]

end Reading

/-- A search for a path that ends in a wildcard finds the children of the containers to which the
path without it leads. If all matches of an unshared tree are removed in their order, then each object
among these containers gives its own nodes, one for each match in it, and is empty in the end. Of the
items of an array those at even places are given; then nothing is left at the places that are asked
for, which is reported at the last step and changes nothing, and the items at odd places remain. All
other containers are as they were. -/
theorem remove_matches_in_order (r : Reading) (o : Options) (root : Node) (front : List Segment)
    (w : World) (result : Result) (keeps : o.nullAsMissing = false)
    (succeeds : (resolve r.access o root ⟨front ++ [.wildcard]⟩ w).1 = .ok result)
    (unshared : r.Unshared w.store root)
    (editable : ∀ m ∈ result.found, r.EditableAt w.store root m.location) :
    ∃ parents : Result, (resolve r.access o root ⟨front⟩ w).1 = .ok parents ∧
      result.found = parents.found.flatMap (r.below w.store) ∧
      (∀ parent ∈ parents.found,
        (r.removalsBelow w.store front.length parent).length = (r.below w.store parent).length) ∧
      (∀ v : Workspace, v.store = w.store →
        ∃ v', Finder.atEach (fun place => Finder.remove ⟨r.access, o⟩ root (.location place))
            result.locations v =
              (.ok (parents.found.flatMap (r.removalsBelow w.store front.length)), v') ∧
          r.Revised w.store v'.store root (r.thinning parents.locations)) ∧
      ∀ place (v : Workspace) e,
        (Finder.remove ⟨r.access, o⟩ root (.location place) v).1 = .error e →
          (Finder.remove ⟨r.access, o⟩ root (.location place) v).2.store = v.store := by
  obtain ⟨unfailing, rfl⟩ := resolve_eq_ok_iff.1 succeeds
  have found := Reading.found_wildcard (r := r) (s := w.store) keeps front root
  have begun : r.failure? w.store o front root = none := by
    refine Option.eq_none_iff_forall_ne_some.2 fun f hf => ?_
    cases unfailing.symm.trans (Reading.failure?_append_of_eq_some hf [.wildcard])
  refine ⟨_, resolve_eq_ok_iff.2 ⟨begun, rfl⟩, found, ?_, ?_, ?_⟩
  · intro parent hp
    have deep : parent.location.length = front.length := (Reading.mem_found_iff.1 hp).length_eq
    rw [← deep]
    exact Reading.length_removalsBelow parent
  · intro v store
    have able : ∀ parent ∈ r.found w.store o front root, ∀ m ∈ r.below w.store parent,
        r.EditableAt w.store root m.location := by
      intro parent hp m hm
      refine editable m ?_
      simp only [found]
      exact List.mem_flatMap.2 ⟨parent, hp, hm⟩
    have run := Reading.remove_below_found unshared able store
    rwa [← List.map_flatMap, ← found] at run
  · intro place v e failed
    rcases removeAt_frame r root place v.toWorld with ⟨-, same⟩ | ⟨old, done, -⟩
    · exact same
    · cases done.symm.trans failed

/-- The tree `{"a": [1, 2, 3], "b": {"x": 4, "y": null}, "c": 5}`, just loaded. -/
def threeMembers : Node × Store :=
  Store.empty.load <| .object .mapping
    [("a", .array .list [.int 1, .int 2, .int 3]),
      ("b", .object .mapping [("x", .int 4), ("y", .null)]), ("c", .int 5)]

/-- Of a list the second item is left, after its third one has been removed and then is missing, and
nothing is left of an object. -/
theorem remove_children_of_list_and_object :
    let inList (place : Nat) (content : Scalar) : Match :=
      ⟨⟨[.key "a", .index place]⟩, .scalar content⟩
    let inObject (name : String) (content : Scalar) : Match :=
      ⟨⟨[.key "b", .key name]⟩, .scalar content⟩
    let found := [inList 0 (.int 1), inList 1 (.int 2), inList 2 (.int 3), inObject "x" (.int 4),
      inObject "y" .null]
    (resolve Reading.standard.access {} threeMembers.1 ⟨[.wildcard, .wildcard]⟩
        ⟨threeMembers.2, #[]⟩).1 = .ok ⟨⟨[.wildcard, .wildcard]⟩, found⟩ ∧
    Reading.standard.Unshared threeMembers.2 threeMembers.1 ∧
    (∀ m ∈ found, Reading.standard.EditableAt threeMembers.2 threeMembers.1 m.location) ∧
    ∃ after : Workspace,
      Finder.atEach
        (fun place =>
          Finder.remove ⟨Reading.standard.access, {}⟩ threeMembers.1 (.location place))
        (found.map Match.location) ⟨⟨threeMembers.2, #[]⟩, .empty .full 1 Nat.one_pos⟩ =
          (.ok [.ok (.scalar (.int 1)), .ok (.scalar (.int 3)),
            .error (.notFound ⟨[.key "a", .index 2]⟩ 1), .ok (.scalar (.int 4)), .ok .null],
            after) ∧
      after.store.value threeMembers.1 =
        .object .mapping
          [("a", .array .list [.int 2]), ("b", .object .mapping []), ("c", .int 5)] := by
  intro inList inObject found
  have unshared : Reading.standard.Unshared threeMembers.2 threeMembers.1 :=
    Reading.unshared_of_store (Store.unshared_load Store.tidy_empty _)
  have editable : ∀ m ∈ found,
      Reading.standard.EditableAt threeMembers.2 threeMembers.1 m.location := by
    intro m hm
    simp only [found, List.mem_cons, List.not_mem_nil, or_false] at hm
    rcases hm with rfl | rfl | rfl | rfl | rfl
    · exact ⟨⟨[.key "a"]⟩, .index 0, .container 0, _, rfl, rfl, rfl, rfl⟩
    · exact ⟨⟨[.key "a"]⟩, .index 1, .container 0, _, rfl, rfl, rfl, rfl⟩
    · exact ⟨⟨[.key "a"]⟩, .index 2, .container 0, _, rfl, rfl, rfl, rfl⟩
    · exact ⟨⟨[.key "b"]⟩, .key "x", .container 1, _, rfl, rfl, rfl, rfl⟩
    · exact ⟨⟨[.key "b"]⟩, .key "y", .container 1, _, rfl, rfl, rfl, rfl⟩
  obtain ⟨parents, there, -, -, removed, -⟩ := remove_matches_in_order Reading.standard {}
    threeMembers.1 [.wildcard] ⟨threeMembers.2, #[]⟩ ⟨_, found⟩ rfl rfl unshared editable
  obtain ⟨after, run, -⟩ := removed ⟨⟨threeMembers.2, #[]⟩, .empty .full 1 Nat.one_pos⟩ rfl
  cases there
  refine ⟨rfl, unshared, editable, after, run, ?_⟩
  have last := congrArg Prod.snd run
  subst last
  rfl

end TreeQuery
