import TreeQuery.Proofs.Edit.Batch

/-!
# Setting matches of a search

The matches of a search are set one after the other. A slot that was set lies as deep as all others,
so it is never on the way to one of them, and any order will do. Afterwards the same search sees the
same shape: what was set is only met where the segments end, so the same locations are found, with
the new nodes where they were set and the old ones elsewhere.
-/

namespace TreeQuery

/-- The slots of the container at a way with the nodes that are given for their locations. -/
def replacing (new : Location → Option Node) (steps : List Step) (cell : Cell) : Cell :=
  cell.update fun step => new (Location.child ⟨steps⟩ step)

/-- The nodes for some locations only. -/
def valuesAt (places : List Location) (value : Location → Node) (l : Location) : Option Node :=
  if l ∈ places then some (value l) else none

theorem kind_replacing (new : Location → Option Node) (steps : List Step) (cell : Cell) :
    (replacing new steps cell).kind = cell.kind := Cell.kind_update _ cell

theorem valuesAt_congr {places others : List Location} (h : ∀ l, l ∈ places ↔ l ∈ others)
    (value : Location → Node) : valuesAt places value = valuesAt others value := by
  funext l
  simp only [valuesAt, h]

theorem valuesAt_eq_some_iff {places : List Location} {value : Location → Node} {l : Location}
    {n : Node} : valuesAt places value l = some n ↔ l ∈ places ∧ value l = n := by
  simp [valuesAt]

theorem replacing_nothing (value : Location → Node) (steps : List Step) (cell : Cell) :
    replacing (valuesAt [] value) steps cell = cell := by
  have nothing : (fun step => valuesAt [] value (Location.child ⟨steps⟩ step)) = fun _ => none := by
    simp [valuesAt]
  rw [replacing, nothing, Cell.update_nothing]

namespace Reading

variable {r : Reading} {s t : Store} {o : Options} {root : Node}

/-- A match can be set after others. -/
theorem Revised.set_next {set : List Location} {value : Location → Node} {place : Location}
    {old : Node} (h : r.Revised s t root (replacing (valuesAt set value)))
    (unshared : r.Unshared s root) (there : r.follow? s root place.steps = some old)
    (editable : r.EditableAt s root place) (length : ∀ l ∈ set, l.length = place.length)
    (still : place ∉ set) (log : Array Event) :
    ∃ u, setAt r.access root place (value place) ⟨t, log⟩ =
        (.ok (), ⟨u, log.push (.changed place)⟩) ∧
      r.Revised s u root (replacing (valuesAt (place :: set) value)) := by
  obtain ⟨holder, last, address, cell, rfl, hn, hc, seen, slot, he⟩ := editable.slot there
  -- The slots on the way lie higher than those that were set, and the last one is still to come.
  have untouched : ∀ p step rest, (holder.child last).steps = p ++ step :: rest →
      valuesAt set value (Location.child ⟨p⟩ step) = none := by
    intro p step rest hp
    have missing : Location.child ⟨p⟩ step ∉ set := by
      intro hm
      have whole := Location.eq_child_of_length hp (length _ hm)
      exact still (whole ▸ hm)
    simp [valuesAt, missing]
  have same : ∀ p step rest, (holder.child last).steps = p ++ step :: rest → ∀ n cell,
      r.follow? s root p = some n → s.cell? n = some cell →
        (replacing (valuesAt set value) p cell).child? step = cell.child? step := by
    intro p step rest hp n cell _ _
    rw [replacing, Cell.child?_update, untouched p step rest hp]
    simp
  obtain ⟨u, run, revised⟩ :=
    h.set_slot unshared (kind_replacing _) same hn hc seen slot he (value (holder.child last)) log
  refine ⟨u, run, revised.congr ?_⟩
  intro p n other ho hother
  by_cases way : p = holder.steps
  · subst way
    cases hn.symm.trans ho
    cases hc.symm.trans hother
    have siblings : ∀ step, Location.child ⟨holder.steps⟩ step = holder.child step := fun _ => rfl
    have slots : (cell.update fun step => valuesAt set value (holder.child step)).put
        (value (holder.child last)) last = cell.update fun step =>
          if step = last then some (value (holder.child last))
          else valuesAt set value (holder.child step) :=
      Cell.put_update (by simp [slot]) _
    simp only [if_true, replacing, siblings, slots]
    congr 1
    funext step
    by_cases hs : step = last
    · simp [hs, valuesAt]
    · simp [hs, valuesAt, Location.child_inj]
  · have : ∀ step, Location.child ⟨p⟩ step ≠ holder.child last := by
      intro step same
      exact way (congrArg Location.steps (Location.child_inj.1 same).1)
    simp [way, replacing, valuesAt, this]

end Reading

variable {r : Reading} {o : Options} {root : Node} {e : Expression} {s : Store}
  {w : Workspace}

/-- Matches of one search can be set in any order. -/
theorem set_run_of_matches {found order : List Match} (store : w.store = s)
    (denoted : ∀ m ∈ found, r.Denotes s o e.segments root m.location.steps m.node)
    (nodup : (order.map Match.location).Nodup) (among : ∀ m ∈ order, m ∈ found)
    (unshared : r.Unshared s root)
    (editable : ∀ m ∈ order, r.EditableAt s root m.location) (value : Location → Node) :
    ∃ w', Finder.atEach (fun place => Finder.set ⟨r.access, o⟩ root (.location place) (value place))
        (order.map Match.location) w = (.ok (order.map fun _ => .ok ()), w') ∧
      r.Revised s w'.store root
        (replacing (valuesAt (order.map Match.location) value)) := by
  have length : ∀ l ∈ order.map Match.location, l.length = e.segments.length := by
    intro l hl
    obtain ⟨m, hm, rfl⟩ := List.mem_map.1 hl
    exact (denoted m (among m hm)).length_eq
  have step : ∀ set place (v : Workspace), place ∈ order.map Match.location →
      (∀ l ∈ set, l ∈ order.map Match.location ∧ l ≠ place) →
      r.Revised s v.store root (replacing (valuesAt set value)) →
      ∃ v', Finder.set ⟨r.access, o⟩ root (.location place) (value place) v = (.ok (), v') ∧
        r.Revised s v'.store root (replacing (valuesAt (place :: set) value)) := by
    intro set place v hp before h
    obtain ⟨m, hm, rfl⟩ := List.mem_map.1 hp
    have same_length : ∀ l ∈ set, l.length = m.location.length :=
      fun l hl => (length l (before l hl).1).trans (length _ hp).symm
    obtain ⟨u, hu, next⟩ := h.set_next unshared (denoted m (among m hm)).follow? (editable m hm)
      same_length (fun again => (before _ again).2 rfl) v.log
    refine ⟨{ v with toWorld := ⟨u, v.log.push (.changed m.location)⟩ }, ?_, next⟩
    simp only [Finder.set_run, hu]
  have start : r.Revised s w.store root (replacing (valuesAt [] value)) := by
    rw [store]
    exact Reading.Revised.refl.congr fun _ _ => (replacing_nothing value _ _).symm
  obtain ⟨w', run, revised⟩ := Finder.atEach_ok nodup step start
  refine ⟨w', ?_, ?_⟩
  · rw [run, List.map_map]
    rfl
  · rwa [valuesAt_congr fun l => List.mem_reverse] at revised

end TreeQuery
