import TreeQuery.Proofs.Edit.Batch
import TreeQuery.Proofs.Edit.Loading

/-!
# Removing matches of a search

The matches of a search lie at locations of one length in the tree as it was. Removals move the later
elements of an array up, so in one array the later match must go first; between arrays and among the
members of objects any order will do. Then every location still holds its node when its turn comes,
and in the end each container has exactly its other slots, in their order.
-/

namespace TreeQuery

/-- If both locations are places of one array, then the first is the later place. -/
def Location.Descends (a b : Location) : Prop :=
  ∀ (p : Location) (i j : Nat), a = p.child (.index i) → b = p.child (.index j) → j < i

/-- The slots of the container at a way without those at some locations. -/
def removing (gone : List Location) (steps : List Step) (cell : Cell) : Cell :=
  cell.without fun step => decide (Location.child ⟨steps⟩ step ∈ gone)

theorem kind_removing (gone : List Location) (steps : List Step) (cell : Cell) :
    (removing gone steps cell).kind = cell.kind := Cell.kind_without _ cell

theorem removing_nil (steps : List Step) (cell : Cell) : removing [] steps cell = cell := by
  have none : (fun step => decide (Location.child ⟨steps⟩ step ∈ [])) = fun _ => false := by simp
  rw [removing, none, Cell.without_none]

theorem removing_congr {gone others : List Location} (h : ∀ l, l ∈ gone ↔ l ∈ others) :
    removing gone = removing others := by
  funext steps cell
  simp only [removing, h]

/-- What is gone does not touch the way to a location of the same length that is still there and, in
its array, comes before all that are gone. -/
theorem clear_removing {gone : List Location} {place : Location}
    (length : ∀ l ∈ gone, l.length = place.length) (still : place ∉ gone)
    (later : ∀ l ∈ gone, l.Descends place) {p rest : List Step} {step : Step}
    (hp : place.steps = p ++ step :: rest) :
    Cell.Clear (fun step => decide (Location.child ⟨p⟩ step ∈ gone)) step := by
  have last : ∀ other, Location.child ⟨p⟩ other ∈ gone → place = Location.child ⟨p⟩ step :=
    fun other ho => Location.eq_child_of_length hp (length _ ho)
  cases step with
  | key name =>
    simp only [Cell.Clear, decide_eq_false_iff_not]
    intro there
    exact still (last _ there ▸ there)
  | index place =>
    intro i hi
    simp only [decide_eq_false_iff_not]
    intro there
    have := later _ there ⟨p⟩ i place rfl (last _ there)
    omega

namespace Reading

variable {r : Reading} {s t : Store} {o : Options} {root : Node}

/-- A match can be removed after others: it still holds its node. -/
theorem Revised.remove_next {gone : List Location} {place : Location} {old : Node}
    (h : r.Revised s t root (removing gone)) (unshared : r.Unshared s root)
    (there : r.follow? s root place.steps = some old) (editable : r.EditableAt s root place)
    (length : ∀ l ∈ gone, l.length = place.length) (still : place ∉ gone)
    (later : ∀ l ∈ gone, l.Descends place) (log : Array Event) :
    ∃ u, removeAt r.access root place ⟨t, log⟩ = (.ok old, ⟨u, log.push (.removed place)⟩) ∧
      r.Revised s u root (removing (place :: gone)) := by
  obtain ⟨holder, last, address, cell, rfl, hn, hc, seen, slot, he⟩ := editable.slot there
  have same : ∀ p step rest, (holder.child last).steps = p ++ step :: rest → ∀ n cell,
      r.follow? s root p = some n → s.cell? n = some cell →
        (removing gone p cell).child? step = cell.child? step :=
    fun p step rest hp n cell _ _ => Cell.child?_without (clear_removing length still later hp) cell
  obtain ⟨u, run, revised⟩ :=
    h.remove_slot unshared (kind_removing gone) same hn hc seen slot he log
  refine ⟨u, run, revised.congr ?_⟩
  intro p n other ho hother
  by_cases way : p = holder.steps
  · subst way
    cases hn.symm.trans ho
    cases hc.symm.trans hother
    have clear : Cell.Clear (fun step => decide (holder.child step ∈ gone)) last :=
      clear_removing length still later rfl
    have slots := Cell.drop_without clear cell (by simp [slot])
    have siblings : ∀ step, Location.child ⟨holder.steps⟩ step = holder.child step := fun _ => rfl
    simp only [if_true, removing, siblings, slots, List.mem_cons, Location.child_inj, true_and,
      Bool.decide_or]
  · have : ∀ step, Location.child ⟨p⟩ step ≠ holder.child last := by
      intro step same
      exact way (congrArg Location.steps (Location.child_inj.1 same).1)
    simp [way, removing, this]

/-! ### Document order descends when reversed -/

theorem rank?_index {n : Node} {place rank : Nat} (h : r.rank? s n (.index place) = some rank) :
    rank = place := by
  obtain ⟨children, hc, hr⟩ := Option.bind_eq_some_iff.1 h
  obtain ⟨hl, step, -⟩ := List.findIdx?_eq_some_iff_getElem.1 hr
  rw [decide_eq_true_iff] at step
  unfold children? at hc
  split at hc
  · cases hc
    simp at step
  · obtain ⟨array, -, rfl⟩ := Option.map_eq_some_iff.1 hc
    simpa using step

/-- Of two places in one array the one that comes before is the earlier place. -/
theorem Before.index_lt {n : Node} {p : List Step} {i j : Nat}
    (h : r.Before s n (p ++ [.index i]) (p ++ [.index j])) : i < j := by
  induction p generalizing n with
  | nil =>
    cases h with
    | here hi hj lt =>
      rw [← rank?_index hi, ← rank?_index hj]
      exact lt
    | later _ before => cases before
  | cons step rest ih =>
    cases h with
    | here hi hj lt =>
      rw [hi] at hj
      cases hj
      exact absurd lt (Nat.lt_irrefl _)
    | later _ before => exact ih before

theorem Before.descends {n : Node} {a b : Location} (h : r.Before s n a.steps b.steps) :
    b.Descends a := by
  rintro p i j rfl rfl
  exact h.index_lt

end Reading

/-! ### Removing chosen matches -/

variable {r : Reading} {o : Options} {root : Node} {e : Expression} {s : Store} {w : Workspace}

/-- Matches of one search can be removed in any order in which the later of two places of one array
goes first. Each removal gives the node of its match, and the tree loses exactly those slots. -/
theorem remove_run_of_descends {found order : List Match} (store : w.store = s)
    (denoted : ∀ m ∈ found, r.Denotes s o e.segments root m.location.steps m.node)
    (nodup : (order.map Match.location).Nodup) (among : ∀ m ∈ order, m ∈ found)
    (unshared : r.Unshared s root) (editable : ∀ m ∈ order, r.EditableAt s root m.location)
    (descends : order.Pairwise fun a b => a.location.Descends b.location) :
    ∃ w', Finder.atEach (fun place => Finder.remove ⟨r.access, o⟩ root (.location place))
        (order.map Match.location) w = (.ok (order.map fun m => .ok m.node), w') ∧
      r.Revised s w'.store root (removing (order.map Match.location)) := by
  let node (place : Location) : Node := (r.follow? s root place.steps).getD .null
  have there : ∀ m ∈ order, r.follow? s root m.location.steps = some m.node :=
    fun m hm => (denoted m (among m hm)).follow?
  have length : ∀ l ∈ order.map Match.location, l.length = e.segments.length := by
    intro l hl
    obtain ⟨m, hm, rfl⟩ := List.mem_map.1 hl
    exact (denoted m (among m hm)).length_eq
  have ordered : (order.map Match.location).Pairwise fun a b => a ≠ b ∧ a.Descends b :=
    nodup.and (List.pairwise_map.2 descends)
  have step : ∀ gone place (v : Workspace), place ∈ order.map Match.location →
      (∀ l ∈ gone, l ∈ order.map Match.location ∧ l ≠ place ∧ l.Descends place) →
      r.Revised s v.store root (removing gone) →
      ∃ v', Finder.remove ⟨r.access, o⟩ root (.location place) v = (.ok (node place), v') ∧
        r.Revised s v'.store root (removing (place :: gone)) := by
    intro gone place v hp before h
    obtain ⟨m, hm, rfl⟩ := List.mem_map.1 hp
    have same_length : ∀ l ∈ gone, l.length = m.location.length :=
      fun l hl => (length l (before l hl).1).trans (length _ hp).symm
    obtain ⟨u, hu, next⟩ := h.remove_next unshared (there m hm) (editable m hm) same_length
      (fun again => (before _ again).2.1 rfl) (fun l hl => (before l hl).2.2) v.log
    refine ⟨{ v with toWorld := ⟨u, v.log.push (.removed m.location)⟩ }, ?_, next⟩
    simp only [Finder.remove_run, hu, node, there m hm, Option.getD_some]
  have start : r.Revised s w.store root (removing []) := by
    rw [store]
    exact Reading.Revised.refl.congr fun _ _ => (removing_nil _ _).symm
  obtain ⟨w', run, revised⟩ := Finder.atEach_ok ordered step start
  have values : (order.map Match.location).map (fun place => Except.ok (node place)) =
      order.map fun m => (Except.ok m.node : Except Error Node) := by
    rw [List.map_map]
    refine List.map_congr_left fun m hm => ?_
    simp only [Function.comp_apply, node, there m hm, Option.getD_some]
  refine ⟨w', ?_, ?_⟩
  · rw [run, values]
  · rwa [removing_congr fun l => List.mem_reverse] at revised

/-- Matches of a search of an unshared tree can be removed, whichever are chosen, if the containers
that hold them can be edited. In any order in which the later of two places of one array goes first,
each removal gives the node of its match, and in the end every container of the tree has the slots
that it had, in their order, without the chosen ones, while all other containers are as they were.
So the order makes no difference to the result. The reverse of the document order is such an order,
whatever was chosen. What else the search left behind, the record of events and the cache, does not
matter to the removals. -/
theorem remove_matches (r : Reading) (o : Options) (root : Node) (e : Expression) (w : World)
    (result : Result) (succeeds : (resolve r.access o root e w).1 = .ok result)
    (unshared : r.Unshared w.store root) (chosen : List Match)
    (among : chosen.Sublist result.found)
    (editable : ∀ m ∈ chosen, r.EditableAt w.store root m.location) :
    (chosen.reverse.Pairwise fun a b => a.location.Descends b.location) ∧
    ∃ after, r.Revised w.store after root (removing (chosen.map Match.location)) ∧
      ∀ order : List Match, order.Perm chosen →
        (order.Pairwise fun a b => a.location.Descends b.location) →
        ∀ v : Workspace, v.store = w.store →
          ∃ v', Finder.atEach (fun place => Finder.remove ⟨r.access, o⟩ root (.location place))
              (order.map Match.location) v = (.ok (order.map fun m => .ok m.node), v') ∧
            v'.store = after := by
  have descends : chosen.reverse.Pairwise fun a b => a.location.Descends b.location := by
    rw [List.pairwise_reverse]
    exact ((before_of_resolve succeeds).sublist among).imp fun h => h.descends
  have removed : ∀ order : List Match, order.Perm chosen →
      (order.Pairwise fun a b => a.location.Descends b.location) →
      ∀ v : Workspace, v.store = w.store →
        ∃ v', Finder.atEach (fun place => Finder.remove ⟨r.access, o⟩ root (.location place))
            (order.map Match.location) v = (.ok (order.map fun m => .ok m.node), v') ∧
          r.Revised w.store v'.store root (removing (chosen.map Match.location)) := by
    intro order perm ordered v store
    have nodup : (order.map Match.location).Nodup :=
      (perm.map _).nodup_iff.2 ((nodup_of_resolve succeeds).sublist (among.map _))
    obtain ⟨v', run, revised⟩ := remove_run_of_descends store
      (fun m hm => denotes_of_mem_found succeeds hm) nodup
      (fun m hm => among.subset (perm.subset hm)) unshared
      (fun m hm => editable m (perm.subset hm)) ordered
    have locations : ∀ l, l ∈ order.map Match.location ↔ l ∈ chosen.map Match.location :=
      fun l => (perm.map _).mem_iff
    rw [removing_congr locations] at revised
    exact ⟨v', run, revised⟩
  let first : Workspace := ⟨w, .empty .full 1 Nat.one_pos⟩
  obtain ⟨last, -, revised⟩ := removed chosen.reverse (List.reverse_perm chosen) descends first rfl
  refine ⟨descends, last.store, revised, ?_⟩
  intro order perm ordered v store
  obtain ⟨v', run, same⟩ := removed order perm ordered v store
  exact ⟨v', run, same.unique revised⟩

/-- The tree `{"a": [1, 2, 3], "b": [4, null]}`, just loaded. -/
def twoLists : Node × Store :=
  Store.empty.load <| .object .mapping
    [("a", .array .list [.int 1, .int 2, .int 3]), ("b", .array .list [.int 4, .null])]

/-- Of the five items of two lists three are removed, and `{"a": [2], "b": [4]}` is left. -/
theorem remove_items_of_two_lists :
    let item (name : String) (place : Nat) (content : Scalar) : Match :=
      ⟨⟨[.key name, .index place]⟩, .scalar content⟩
    let found := [item "a" 0 (.int 1), item "a" 1 (.int 2), item "a" 2 (.int 3),
      item "b" 0 (.int 4), item "b" 1 .null]
    let chosen := [item "a" 0 (.int 1), item "a" 2 (.int 3), item "b" 1 .null]
    (resolve Reading.standard.access {} twoLists.1 ⟨[.wildcard, .wildcard]⟩ ⟨twoLists.2, #[]⟩).1 =
      .ok ⟨⟨[.wildcard, .wildcard]⟩, found⟩ ∧
    Reading.standard.Unshared twoLists.2 twoLists.1 ∧ chosen.Sublist found ∧
    (∀ m ∈ chosen, Reading.standard.EditableAt twoLists.2 twoLists.1 m.location) ∧
    ∃ after : Workspace,
      Finder.atEach
        (fun place => Finder.remove ⟨Reading.standard.access, {}⟩ twoLists.1 (.location place))
        (chosen.reverse.map Match.location)
        ⟨⟨twoLists.2, #[]⟩, .empty .full 1 Nat.one_pos⟩ =
          (.ok [.ok .null, .ok (.scalar (.int 3)), .ok (.scalar (.int 1))], after) ∧
      after.store.value twoLists.1 =
        .object .mapping [("a", .array .list [.int 2]), ("b", .array .list [.int 4])] := by
  intro item found chosen
  have unshared : Reading.standard.Unshared twoLists.2 twoLists.1 :=
    Reading.unshared_of_store (Store.unshared_load Store.tidy_empty _)
  have among : chosen.Sublist found := by decide
  have editable : ∀ m ∈ chosen,
      Reading.standard.EditableAt twoLists.2 twoLists.1 m.location := by
    intro m hm
    simp only [chosen, List.mem_cons, List.not_mem_nil, or_false] at hm
    rcases hm with rfl | rfl | rfl
    · exact ⟨⟨[.key "a"]⟩, .index 0, .container 0, _, rfl, rfl, rfl, rfl⟩
    · exact ⟨⟨[.key "a"]⟩, .index 2, .container 0, _, rfl, rfl, rfl, rfl⟩
    · exact ⟨⟨[.key "b"]⟩, .index 1, .container 1, _, rfl, rfl, rfl, rfl⟩
  obtain ⟨descends, store, -, removed⟩ := remove_matches Reading.standard {} twoLists.1
    ⟨[.wildcard, .wildcard]⟩ ⟨twoLists.2, #[]⟩ ⟨_, found⟩ rfl unshared chosen among editable
  obtain ⟨after, run, -⟩ := removed chosen.reverse (List.reverse_perm chosen) descends
    ⟨⟨twoLists.2, #[]⟩, .empty .full 1 Nat.one_pos⟩ rfl
  refine ⟨rfl, unshared, among, editable, after, run, ?_⟩
  have last := congrArg Prod.snd run
  subst last
  rfl

end TreeQuery
