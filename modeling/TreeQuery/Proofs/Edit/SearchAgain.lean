import TreeQuery.Proofs.Edit.Loading
import TreeQuery.Proofs.Edit.Update

/-!
# Searching again after matches were set

A search of `n` segments looks into containers that lie less than `n` steps deep and ends at nodes
that lie `n` steps deep. Where only nodes of the latter sort were replaced, by nodes that are not
skipped, the same search takes the same way: it selects the same steps and meets the same obstacles,
and it finds the same locations with the new nodes.
-/

namespace TreeQuery

namespace Reading

variable {r : Reading} {s t : Store} {o : Options} {root : Node}

/-! ### A container some of whose slots have other nodes -/

section Container

variable {n : Node} {new : Step → Option Node}
  (h : t.cell? n = (s.cell? n).map fun cell => cell.update new)

include h

theorem members?_of_update :
    r.members? t n = (r.members? s n).map fun members => members.update fun name => new (.key name) := by
  unfold members?
  rw [h]
  cases s.cell? n with
  | none => rfl
  | some cell =>
    cases cell with
    | array kind items => rfl
    | object kind members => cases ho : r.objects kind <;> simp [Cell.update, ho]

theorem elements?_of_update :
    r.elements? t n = (r.elements? s n).map fun array =>
      (array.1, array.2.mapIdx fun place old => (new (.index place)).getD old) := by
  unfold elements?
  rw [h]
  cases s.cell? n with
  | none => rfl
  | some cell =>
    cases cell with
    | array kind items => cases ha : r.arrays kind <;> simp [Cell.update, ha]
    | object kind members => rfl

theorem child?_of_update (step : Step) :
    r.child? t n step = (r.child? s n step).map fun old => (new step).getD old := by
  cases step with
  | key name =>
    rw [child?, child?, members?_of_update h]
    cases r.members? s n with
    | none => rfl
    | some members => exact members.get?_update _ name
  | index place =>
    rw [child?, child?, elements?_of_update h]
    cases r.elements? s n with
    | none => rfl
    | some array => exact List.getElem?_mapIdx

theorem children?_of_update :
    r.children? t n =
      (r.children? s n).map fun children => children.map fun e => (e.1, (new e.1).getD e.2) := by
  unfold children?
  rw [members?_of_update h, elements?_of_update h]
  cases r.members? s n with
  | some members => simp [Members.update, Function.comp_def]
  | none =>
    cases r.elements? s n with
    | none => rfl
    | some array =>
      refine congrArg some (List.ext_getElem? fun i => ?_)
      simp only [List.getElem?_map, List.getElem?_zipIdx, List.getElem?_mapIdx, Option.map_map,
        Nat.zero_add]
      rfl

variable (kept : ∀ step old value, r.child? s n step = some old → new step = some value →
  o.skips value = o.skips old)

include kept

omit h in
theorem skips_of_update {step : Step} {old : Node} (there : r.child? s n step = some old) :
    o.skips ((new step).getD old) = o.skips old := by
  cases hv : new step with
  | none => rfl
  | some value => exact kept step old value there hv

theorem present_of_update (step : Step) :
    o.present (r.child? t n step) =
      (o.present (r.child? s n step)).map fun old => (new step).getD old := by
  rw [child?_of_update h]
  cases there : r.child? s n step with
  | none => rfl
  | some old =>
    have same := skips_of_update kept there
    cases hs : o.skips old <;> simp [Options.present, Option.filter, same, hs]

theorem obstacle?_of_update (segment : Segment) :
    r.obstacle? t o n segment = r.obstacle? s o n segment := by
  cases segment with
  | key name optional =>
    have present := present_of_update h kept (.key name)
    rw [child?, child?, members?_of_update h] at present
    rw [obstacle?, obstacle?, members?_of_update h]
    cases hm : r.members? s n with
    | none => rfl
    | some members =>
      rw [hm] at present
      simp only [Option.map_some, Option.bind_some] at present ⊢
      rw [present, Option.isSome_map]
  | index place optional =>
    have present := present_of_update h kept (.index place)
    rw [child?, child?, elements?_of_update h] at present
    rw [obstacle?, obstacle?, elements?_of_update h]
    cases he : r.elements? s n with
    | none => rfl
    | some array =>
      rw [he] at present
      simp only [Option.map_some, Option.bind_some] at present ⊢
      rw [present, Option.isSome_map]
  | wildcard => rw [obstacle?_wildcard, obstacle?_wildcard, children?_of_update h, Option.isSome_map]

theorem selected_of_update (segment : Segment) :
    r.selected t o n segment =
      (r.selected s o n segment).map fun e => (e.1, (new e.1).getD e.2) := by
  cases hs : segment.step? with
  | some step =>
    rw [selected, selected, hs]
    simp only [present_of_update h kept]
    cases o.present (r.child? s n step) <;> rfl
  | none =>
    rw [selected, selected, hs]
    simp only [children?_of_update h]
    cases hc : r.children? s n with
    | none => rfl
    | some children =>
      simp only [Option.map_some, Option.getD_some, List.filter_map]
      refine congrArg _ (List.filter_congr fun e he => ?_)
      have there : r.child? s n e.1 = some e.2 := mem_children?_iff.1 (by rw [hc]; exact he)
      simp [skips_of_update kept there]

end Container

/-! ### The search -/

/-- A match that is not the root is not skipped. -/
theorem Denotes.not_skipped {segments : List Segment} {n m : Node} {steps : List Step}
    (h : r.Denotes s o segments n steps m) (below : segments ≠ []) : o.skips m = false := by
  induction h with
  | nil => exact absurd rfl below
  | @cons _ rest _ _ _ _ _ _ _ kept inner ih =>
    cases rest with
    | nil =>
      cases inner
      exact kept
    | cons => exact ih (List.cons_ne_nil _ _)

/-- Where nodes at full depth were replaced by others that are skipped just as they were, the same
locations are found, and a walk that fails meets the same failure. -/
theorem found_of_replacing {new : Location → Option Node}
    (h : r.Revised s t root (replacing new))
    (kept : ∀ l old value, r.follow? s root l.steps = some old → new l = some value →
      o.skips value = o.skips old)
    {segments : List Segment} {place : Location} {n : Node}
    (hn : r.follow? s root place.steps = some n)
    (deep : ∀ l value, new l = some value → l.length = place.length + segments.length) :
    r.found t o segments ((new place).getD n) =
        (r.found s o segments n).map (fun m =>
          ⟨m.location, (new (place.append m.location)).getD m.node⟩) ∧
      r.failure? t o segments ((new place).getD n) = r.failure? s o segments n := by
  induction segments generalizing place n with
  | nil => exact ⟨by simp [found, Location.append, Location.root], rfl⟩
  | cons segment rest ih =>
    -- Only nodes at full depth were replaced, so this one is the same.
    have here : new place = none := by
      refine Option.eq_none_iff_forall_not_mem.2 fun value hv => ?_
      have := deep place value hv
      simp at this
    have cells := h.inside hn
    have keeps : ∀ step old value, r.child? s n step = some old →
        new (place.child step) = some value → o.skips value = o.skips old :=
      fun step old value hc hv =>
        kept _ old value (follow?_concat_eq_some_iff.2 ⟨n, hn, hc⟩) hv
    have below : ∀ e ∈ r.selected s o n segment,
        r.found t o rest ((new (place.child e.1)).getD e.2) =
            (r.found s o rest e.2).map (fun m =>
              ⟨m.location, (new ((place.child e.1).append m.location)).getD m.node⟩) ∧
          r.failure? t o rest ((new (place.child e.1)).getD e.2) = r.failure? s o rest e.2 := by
      intro e he
      obtain ⟨-, there, -⟩ := mem_selected_iff.1 he
      refine ih (follow?_concat_eq_some_iff.2 ⟨n, hn, there⟩) fun l value hv => ?_
      rw [deep l value hv, Location.length_child, List.length_cons]
      omega
    rw [here, Option.getD_none]
    have chosen := selected_of_update cells keeps segment
    constructor
    · rw [found, found, chosen, List.flatMap_map, List.map_flatMap]
      refine List.flatMap_congr fun e he => ?_
      simp only [(below e he).1, List.map_map]
      refine List.map_congr_left fun m _ => ?_
      simp [Match.under, Location.child_eq_append, Location.append_assoc]
    · rcases obstacle_or_child_or_children r s o n segment with
        ⟨obstacle, ho⟩ | ⟨step, child, hs, hp⟩ | ⟨rfl, children, hc⟩
      · have ho' := (obstacle?_of_update cells keeps segment).trans ho
        rw [failure?_of_obstacle ho, failure?_of_obstacle ho']
      · have hp' : o.present (r.child? t n step) = some ((new (place.child step)).getD child) := by
          rw [present_of_update cells keeps, hp]
          rfl
        have selected := selected_of_present hs hp
        rw [failure?_of_present hs hp, failure?_of_present hs hp',
          (below (step, child) (by simp [selected])).2]
      · have hc' := children?_of_update (r := r) cells
        rw [hc, Option.map_some] at hc'
        rw [failure?_wildcard hc, failure?_wildcard hc']

end Reading

variable {r : Reading} {o : Options} {root : Node} {e : Expression}

/-- The search finds the same locations again, with the new nodes at the chosen ones. -/
theorem resolve_of_replacing {w : World} {result : Result} {after : Store} {chosen : List Match}
    {value : Location → Node} (succeeds : (resolve r.access o root e w).1 = .ok result)
    (among : chosen.Sublist result.found) (below : ∀ m ∈ chosen, m.location ≠ .root)
    (revised : r.Revised w.store after root
      (replacing (valuesAt (chosen.map Match.location) value)))
    (visible : o.nullAsMissing = false ∨ ∀ m ∈ chosen, value m.location ≠ .null)
    (log : Array Event) :
    (resolve r.access o root e ⟨after, log⟩).1 = .ok ⟨e, result.found.map fun m =>
      if m ∈ chosen then ⟨m.location, value m.location⟩ else m⟩ := by
  have denoted : ∀ m ∈ chosen, r.Denotes w.store o e.segments root m.location.steps m.node :=
    fun m hm => denotes_of_mem_found succeeds (among.subset hm)
  have here : valuesAt (chosen.map Match.location) value .root = none := by
    have missing : Location.root ∉ chosen.map Match.location := by
      intro hm
      obtain ⟨m, hm, root⟩ := List.mem_map.1 hm
      exact below m hm root
    simp [valuesAt, missing]
  have kept : ∀ l old new, r.follow? w.store root l.steps = some old →
      valuesAt (chosen.map Match.location) value l = some new → o.skips new = o.skips old := by
    intro l old new hl hv
    obtain ⟨hc, rfl⟩ := valuesAt_eq_some_iff.1 hv
    obtain ⟨m, hm, rfl⟩ := List.mem_map.1 hc
    cases hl.symm.trans (denoted m hm).follow?
    have segments : e.segments ≠ [] := by
      intro none
      have length := (denoted m hm).length_eq
      rw [none] at length
      exact below m hm (congrArg Location.mk (List.length_eq_zero_iff.1 length))
    rw [(denoted m hm).not_skipped segments]
    rcases visible with nulls | values
    · rw [Options.skips, nulls, Bool.false_and]
    · have : (value m.location).isNull = false := by simpa [Node.isNull] using values m hm
      rw [Options.skips, this, Bool.and_false]
  have deep : ∀ l new, valuesAt (chosen.map Match.location) value l = some new →
      l.length = Location.root.length + e.segments.length := by
    intro l new hv
    obtain ⟨m, hm, rfl⟩ := List.mem_map.1 (valuesAt_eq_some_iff.1 hv).1
    simpa [Location.root, Location.length] using (denoted m hm).length_eq
  obtain ⟨unfailing, found⟩ := resolve_eq_ok_iff.1 succeeds
  subst found
  obtain ⟨again, failure⟩ := Reading.found_of_replacing revised kept rfl deep
  rw [here, Option.getD_none] at again failure
  refine resolve_eq_ok_iff.2 ⟨failure.trans unfailing, ?_⟩
  rw [again]
  refine congrArg (Result.mk e) (List.map_congr_left fun m hm => ?_)
  have unique : m.location ∈ chosen.map Match.location ↔ m ∈ chosen := by
    refine ⟨fun h => ?_, fun h => List.mem_map_of_mem h⟩
    obtain ⟨m', hm', same⟩ := List.mem_map.1 h
    have nodes : m'.node = m.node :=
      (denoted m' hm').unique (same ▸ Reading.mem_found_iff.1 hm)
    obtain ⟨location, node⟩ := m
    obtain ⟨location', node'⟩ := m'
    simp only at same nodes
    rwa [← same, ← nodes]
  by_cases hc : m ∈ chosen <;> simp [valuesAt, unique, hc]

/-- Matches of a search of an unshared tree can be set, whichever are chosen and to whichever nodes, if
the containers that hold them can be edited. In any order each setting succeeds, and in the end every
container of the tree has the slots that it had, with the new nodes in the chosen ones, while all
other containers are as they were. So the order makes no difference to the result, nor does what else
the search left behind, the record of events and the cache. If nulls count as present, or if none of
the new nodes is null, then the same search succeeds again and finds the same locations in the same
order, with the new nodes at the chosen ones. -/
theorem set_matches (r : Reading) (o : Options) (root : Node) (e : Expression) (w : World)
    (result : Result) (succeeds : (resolve r.access o root e w).1 = .ok result)
    (unshared : r.Unshared w.store root) (chosen : List Match)
    (among : chosen.Sublist result.found)
    (editable : ∀ m ∈ chosen, r.EditableAt w.store root m.location) (value : Location → Node) :
    ∃ after,
      r.Revised w.store after root (replacing (valuesAt (chosen.map Match.location) value)) ∧
      (∀ order : List Match, order.Perm chosen → ∀ v : Workspace, v.store = w.store →
        ∃ v', Finder.atEach
            (fun place => Finder.set ⟨r.access, o⟩ root (.location place) (value place))
            (order.map Match.location) v = (.ok (order.map fun _ => .ok ()), v') ∧
          v'.store = after) ∧
      ((o.nullAsMissing = false ∨ ∀ m ∈ chosen, value m.location ≠ .null) →
        ∀ log, (resolve r.access o root e ⟨after, log⟩).1 = .ok ⟨e, result.found.map fun m =>
          if m ∈ chosen then ⟨m.location, value m.location⟩ else m⟩) := by
  have denoted : ∀ m ∈ result.found, r.Denotes w.store o e.segments root m.location.steps m.node :=
    fun m hm => denotes_of_mem_found succeeds hm
  have set : ∀ order : List Match, order.Perm chosen → ∀ v : Workspace, v.store = w.store →
      ∃ v', Finder.atEach
          (fun place => Finder.set ⟨r.access, o⟩ root (.location place) (value place))
          (order.map Match.location) v = (.ok (order.map fun _ => .ok ()), v') ∧
        r.Revised w.store v'.store root
          (replacing (valuesAt (chosen.map Match.location) value)) := by
    intro order perm v store
    have nodup : (order.map Match.location).Nodup :=
      (perm.map _).nodup_iff.2 ((nodup_of_resolve succeeds).sublist (among.map _))
    obtain ⟨v', run, revised⟩ := set_run_of_matches store denoted nodup
      (fun m hm => among.subset (perm.subset hm)) unshared
      (fun m hm => editable m (perm.subset hm)) value
    have locations : ∀ l, l ∈ order.map Match.location ↔ l ∈ chosen.map Match.location :=
      fun l => (perm.map _).mem_iff
    rw [valuesAt_congr locations] at revised
    exact ⟨v', run, revised⟩
  let first : Workspace := ⟨w, .empty .full 1 Nat.one_pos⟩
  obtain ⟨last, -, revised⟩ := set chosen (.refl chosen) first rfl
  refine ⟨last.store, revised, ?_, ?_⟩
  · intro order perm v store
    obtain ⟨v', run, same⟩ := set order perm v store
    exact ⟨v', run, same.unique revised⟩
  · intro visible log
    have below : ∀ m ∈ chosen, m.location ≠ .root := by
      intro m hm root
      obtain ⟨holder, last, -, -, place, -⟩ := editable m hm
      rw [place] at root
      simp [Location.child, Location.root] at root
    exact resolve_of_replacing succeeds among below revised visible log

/-- The tree `{"a": [1, [2]], "b": {"c": 3}}`, just loaded. -/
def listAndObject : Node × Store :=
  Store.empty.load <| .object .mapping
    [("a", .array .list [.int 1, .array .list [.int 2]]), ("b", .object .mapping [("c", .int 3)])]

/-- A list is set to null and a number to a truth value, and the same search finds the new nodes. -/
theorem set_nodes_of_list_and_object :
    let list : Match := ⟨⟨[.key "a", .index 1]⟩, .container 0⟩
    let number : Match := ⟨⟨[.key "b", .key "c"]⟩, .scalar (.int 3)⟩
    let found : List Match := [⟨⟨[.key "a", .index 0]⟩, .scalar (.int 1)⟩, list, number]
    let value (place : Location) : Node :=
      if place = number.location then .scalar (.bool true) else .null
    (resolve Reading.standard.access {} listAndObject.1 ⟨[.wildcard, .wildcard]⟩
      ⟨listAndObject.2, #[]⟩).1 = .ok ⟨⟨[.wildcard, .wildcard]⟩, found⟩ ∧
    Reading.standard.Unshared listAndObject.2 listAndObject.1 ∧ [list, number].Sublist found ∧
    (∀ m ∈ [list, number],
      Reading.standard.EditableAt listAndObject.2 listAndObject.1 m.location) ∧
    ∃ after : Workspace,
      Finder.atEach
        (fun place =>
          Finder.set ⟨Reading.standard.access, {}⟩ listAndObject.1 (.location place) (value place))
        [number.location, list.location]
        ⟨⟨listAndObject.2, #[]⟩, .empty .full 1 Nat.one_pos⟩ = (.ok [.ok (), .ok ()], after) ∧
      (resolve Reading.standard.access {} listAndObject.1 ⟨[.wildcard, .wildcard]⟩
        ⟨after.store, #[]⟩).1 = .ok ⟨⟨[.wildcard, .wildcard]⟩,
          [⟨⟨[.key "a", .index 0]⟩, .scalar (.int 1)⟩, ⟨list.location, .null⟩,
            ⟨number.location, .scalar (.bool true)⟩]⟩ := by
  intro list number found value
  have unshared : Reading.standard.Unshared listAndObject.2 listAndObject.1 :=
    Reading.unshared_of_store (Store.unshared_load Store.tidy_empty _)
  have among : [list, number].Sublist found := by decide
  have editable : ∀ m ∈ [list, number],
      Reading.standard.EditableAt listAndObject.2 listAndObject.1 m.location := by
    intro m hm
    simp only [List.mem_cons, List.not_mem_nil, or_false] at hm
    rcases hm with rfl | rfl
    · exact ⟨⟨[.key "a"]⟩, .index 1, .container 1, _, rfl, rfl, rfl, rfl⟩
    · exact ⟨⟨[.key "b"]⟩, .key "c", .container 2, _, rfl, rfl, rfl, rfl⟩
  obtain ⟨store, -, set, again⟩ := set_matches Reading.standard {} listAndObject.1
    ⟨[.wildcard, .wildcard]⟩ ⟨listAndObject.2, #[]⟩ ⟨_, found⟩ rfl unshared [list, number] among
    editable value
  obtain ⟨after, run, rfl⟩ := set [number, list] (.swap _ _ _)
    ⟨⟨listAndObject.2, #[]⟩, .empty .full 1 Nat.one_pos⟩ rfl
  exact ⟨rfl, unshared, among, editable, after, run, again (.inl rfl) #[]⟩

end TreeQuery
