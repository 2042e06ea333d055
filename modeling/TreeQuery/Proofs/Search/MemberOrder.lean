import TreeQuery.Proofs.Search.DocumentOrder
import TreeQuery.Proofs.Search.Reordered

/-!
# Searches in trees with their members reordered

The order in which objects keep their members decides the order of the matches and nothing else. A search
ends in the same error or finds matches at the same locations, and the order of these can change only where
a wildcard takes the members of an object in their order.
-/

namespace TreeQuery

namespace Reading

variable {r : Reading} {s s' : Store} {o : Options} {n n' : Node}

/-! ### One step -/

theorem counts_sameSlots {cell cell' : Cell} (h : cell.SameSlots cell') :
    r.counts cell = r.counts cell' := by
  cases h <;> rfl

section Slots

variable (h : Store.Reordered s s' n n')

include h

theorem child?_rel (step : Step) :
    Option.Rel (Store.Reordered s s') (r.child? s n step) (r.child? s' n' step) := by
  have below := h.child? step
  rw [Store.child?, Store.child?] at below
  rw [child?_eq, child?_eq]
  rcases rel_iff.1 h.here.cell? with ⟨hc, hc'⟩ | ⟨cell, cell', hc, hc', same⟩
  · rw [hc, hc']
    exact .none
  · rw [hc, hc'] at below ⊢
    rw [Option.filter_some, Option.filter_some, ← counts_sameSlots same]
    split
    · exact below
    · exact .none

theorem members?_rel :
    Option.Rel (fun m m' => m.names.Perm m'.names) (r.members? s n) (r.members? s' n') := by
  rcases rel_iff.1 h.here.cell? with ⟨hc, hc'⟩ | ⟨cell, cell', hc, hc', same⟩
  · rw [members?, members?, hc, hc']
    exact .none
  · rw [members?, members?, hc, hc']
    cases same with
    | array kind length => exact .none
    | object kind names =>
      dsimp only
      split
      · exact .some names
      · exact .none

theorem elements?_rel : Option.Rel (fun a a' => a.2.length = a'.2.length) (r.elements? s n)
    (r.elements? s' n') := by
  rcases rel_iff.1 h.here.cell? with ⟨hc, hc'⟩ | ⟨cell, cell', hc, hc', same⟩
  · rw [elements?, elements?, hc, hc']
    exact .none
  · rw [elements?, elements?, hc, hc']
    cases same with
    | object kind names => exact .none
    | array kind length =>
      dsimp only
      split
      · exact .some length
      · exact .none

theorem skips_eq : o.skips n = o.skips n' := by
  rw [Options.skips, Options.skips, h.here.isNull_eq]

end Slots

theorem present_rel {child? child'? : Option Node}
    (h : Option.Rel (Store.Reordered s s') child? child'?) :
    Option.Rel (Store.Reordered s s') (o.present child?) (o.present child'?) := by
  cases h with
  | none => exact .none
  | some below =>
    rw [Options.present, Options.present, Option.filter_some, Option.filter_some, skips_eq below]
    split
    · exact .some below
    · exact .none

theorem isSome_children?_eq (h : Store.Reordered s s' n n') :
    (r.children? s n).isSome = (r.children? s' n').isSome := by
  rcases rel_iff.1 (members?_rel (r := r) h) with ⟨hm, hm'⟩ | ⟨members, members', hm, hm', -⟩
  · rw [children?, children?, hm, hm']
    simpa using isSome_eq_of_rel (elements?_rel (r := r) h)
  · simp [children?, hm, hm']

/-- A segment meets the same obstacle. -/
theorem obstacle?_eq (h : Store.Reordered s s' n n') (segment : Segment) :
    r.obstacle? s o n segment = r.obstacle? s' o n' segment := by
  have isSome_eq : ∀ step, (o.present (r.child? s n step)).isSome =
      (o.present (r.child? s' n' step)).isSome := fun step =>
    isSome_eq_of_rel (present_rel (child?_rel h step))
  cases segment with
  | key name optional =>
    have present := isSome_eq (.key name)
    rcases rel_iff.1 (members?_rel (r := r) h) with ⟨hm, hm'⟩ | ⟨members, members', hm, hm', -⟩
    · simp [obstacle?, hm, hm']
    · simp only [child?, hm, hm', Option.bind_some] at present
      simp only [obstacle?, hm, hm', present]
  | index place optional =>
    have present := isSome_eq (.index place)
    rcases rel_iff.1 (elements?_rel (r := r) h) with ⟨he, he'⟩ | ⟨array, array', he, he', -⟩
    · simp [obstacle?, he, he']
    · simp only [child?, he, he', Option.bind_some] at present
      simp only [obstacle?, he, he', present]
  | wildcard => rw [obstacle?_wildcard, obstacle?_wildcard, isSome_children?_eq h]

/-! ### The whole way -/

/-- The same failure ends the walk. -/
theorem failure?_eq (h : Store.Reordered s s' n n') (segments : List Segment) :
    r.failure? s o segments n = r.failure? s' o segments n' := by
  induction segments generalizing n n' with
  | nil => rfl
  | cons segment rest ih =>
    rcases obstacle_or_child_or_children r s o n segment with
      ⟨obstacle, ho⟩ | ⟨step, child, hs, hp⟩ | ⟨rfl, children, hc⟩
    · rw [failure?_of_obstacle ho, failure?_of_obstacle (obstacle?_eq h segment ▸ ho)]
    · obtain ⟨child', hp', below⟩ := exists_of_rel (present_rel (child?_rel h step)) hp
      rw [failure?_of_present hs hp, failure?_of_present hs hp', ih below]
    · obtain ⟨children', hc'⟩ : ∃ children', r.children? s' n' = some children' := by
        rw [← Option.isSome_iff_exists, ← isSome_children?_eq h, hc]
        rfl
      rw [failure?_wildcard hc, failure?_wildcard hc']

/-- Steps that fit the segments lead on in the other tree as well. -/
theorem Denotes.reordered {segments : List Segment} {steps : List Step} {m : Node}
    (denotes : r.Denotes s o segments n steps m) (h : Store.Reordered s s' n n') :
    ∃ m', r.Denotes s' o segments n' steps m' ∧ Store.Reordered s s' m m' := by
  induction denotes generalizing n' with
  | nil n => exact ⟨n', .nil n', h⟩
  | @cons segment segments step steps n child m fits there kept _ ih =>
    obtain ⟨child', there', below⟩ := exists_of_rel (child?_rel h step) there
    obtain ⟨m', denotes', same⟩ := ih below
    exact ⟨m', .cons fits there' (skips_eq below ▸ kept) denotes', same⟩

/-- The matches of the two trees are at the same locations. -/
theorem found_perm (h : Store.Reordered s s' n n') (segments : List Segment) :
    ((r.found s' o segments n').map Match.location).Perm
      ((r.found s o segments n).map Match.location) := by
  have mem : ∀ {s s' n n'}, Store.Reordered s s' n n' → ∀ {place},
      place ∈ (r.found s o segments n).map Match.location →
      place ∈ (r.found s' o segments n').map Match.location := by
    intro s s' n n' h place hp
    obtain ⟨m, hm, rfl⟩ := List.mem_map.1 hp
    obtain ⟨node', denotes, -⟩ := (mem_found_iff.1 hm).reordered h
    exact List.mem_map.2 ⟨⟨m.location, node'⟩, mem_found_iff.2 denotes, rfl⟩
  exact (List.perm_ext_iff_of_nodup (nodup_found segments n') (nodup_found segments n)).2
    fun place => ⟨mem h.symm, mem h⟩

/-- Matches at one location in both trees have nodes of which this holds again. -/
theorem found_reordered (h : Store.Reordered s s' n n') {segments : List Segment} {m m' : Match}
    (hm : m ∈ r.found s o segments n) (hm' : m' ∈ r.found s' o segments n')
    (same : m'.location = m.location) : Store.Reordered s s' m.node m'.node := by
  obtain ⟨node', denotes, below⟩ := (mem_found_iff.1 hm).reordered h
  have there := mem_found_iff.1 hm'
  rw [same] at there
  cases denotes.unique there
  exact below

/-! ### Wildcards on arrays only -/

variable (r s o) in
/-- No wildcard is tried at an object. -/
def ExpandsNoObject (segments : List Segment) (n : Node) : Prop :=
  ∀ before after steps x, segments = before ++ .wildcard :: after →
    r.Denotes s o before n steps x → r.members? s x = none

theorem ExpandsNoObject.below {segment : Segment} {rest : List Segment} {step : Step} {child : Node}
    (h : r.ExpandsNoObject s o (segment :: rest) n)
    (selected : (step, child) ∈ r.selected s o n segment) : r.ExpandsNoObject s o rest child := by
  intro before after steps x parts denotes
  obtain ⟨fits, there, kept⟩ := mem_selected_iff.1 selected
  exact h (segment :: before) after (step :: steps) x (by rw [parts]; rfl)
    (.cons fits there kept denotes)

variable (s s') in
/-- Children in the same slot, below which only the order of members differs. -/
def SameChild (e e' : Step × Node) : Prop := e.1 = e'.1 ∧ Store.Reordered s s' e.2 e'.2

/-- The children of an array stand side by side. -/
theorem children_rel (h : Store.Reordered s s' n n') (plain : r.members? s n = none) :
    List.Forall₂ (SameChild s s') ((r.children? s n).getD []) ((r.children? s' n').getD []) := by
  have plain' : r.members? s' n' = none := by
    have same := isSome_eq_of_rel (members?_rel (r := r) h)
    rwa [plain, eq_comm, Option.isSome_none, Option.isSome_eq_false_iff, Option.isNone_iff_eq_none]
      at same
  rw [children?, children?, plain, plain']
  rcases rel_iff.1 (elements?_rel (r := r) h) with ⟨he, he'⟩ | ⟨array, array', he, he', length⟩
  · rw [he, he']
    exact .nil
  · rw [he, he']
    refine List.forall₂_iff_get.2 ⟨by simpa using length, fun i hi hi' => ?_⟩
    have inside : i < array.2.length := by simpa using hi
    have below := child?_rel (r := r) h (.index i)
    simp only [child?, he, he', Option.bind_some, List.getElem?_eq_getElem inside,
      List.getElem?_eq_getElem (length ▸ inside), Option.rel_some_some] at below
    simpa [SameChild] using below

/-- The children that a segment selects stand side by side, unless it is a wildcard at an object. -/
theorem selected_rel (h : Store.Reordered s s' n n') {segment : Segment}
    (plain : segment = .wildcard → r.members? s n = none) :
    List.Forall₂ (SameChild s s') (r.selected s o n segment) (r.selected s' o n' segment) := by
  cases hs : segment.step? with
  | some step =>
    simp only [selected, hs]
    rcases rel_iff.1 (present_rel (o := o) (child?_rel (r := r) h step)) with
      ⟨hp, hp'⟩ | ⟨child, child', hp, hp', below⟩
    · rw [hp, hp']
      exact .nil
    · rw [hp, hp']
      exact .cons ⟨rfl, below⟩ .nil
  | none =>
    have wildcard : segment = .wildcard := by
      cases segment with
      | wildcard => rfl
      | _ => cases hs
    simp only [selected, hs]
    refine List.rel_filter (fun e e' same => ?_) (children_rel h (plain wildcard))
    simp only [skips_eq same.2]

theorem flatMap_eq_of_rel {α β γ : Type} {R : α → β → Prop} {l : List α} {l' : List β}
    {f : α → List γ} {g : β → List γ} (h : List.Forall₂ R l l')
    (same : ∀ a ∈ l, ∀ b, R a b → f a = g b) : l.flatMap f = l'.flatMap g := by
  induction h with
  | nil => rfl
  | @cons a b l l' hab _ ih =>
    rw [List.flatMap_cons, List.flatMap_cons, same a List.mem_cons_self b hab,
      ih fun a ha => same a (List.mem_cons_of_mem _ ha)]

/-- Where no wildcard is tried at an object, the matches stand in the same order. -/
theorem locations_eq (h : Store.Reordered s s' n n') {segments : List Segment}
    (arrays : r.ExpandsNoObject s o segments n) :
    (r.found s o segments n).map Match.location = (r.found s' o segments n').map Match.location := by
  induction segments generalizing n n' with
  | nil => rfl
  | cons segment rest ih =>
    have plain : segment = .wildcard → r.members? s n = none := by
      rintro rfl
      exact arrays [] rest [] n rfl (.nil n)
    rw [found, found, List.map_flatMap, List.map_flatMap]
    refine flatMap_eq_of_rel (selected_rel h plain) ?_
    rintro ⟨step, child⟩ selected ⟨_, child'⟩ ⟨rfl, below⟩
    have locations := ih below (arrays.below selected)
    have under : ∀ matched : List Match, (matched.map (·.under ⟨[step]⟩)).map Match.location =
        (matched.map Match.location).map (Location.append ⟨[step]⟩) := fun matched => by
      rw [List.map_map, List.map_map]
      rfl
    rw [under, under, locations]

end Reading

/-- Let two trees differ in the order of members only. Then a search in one ends in the same error as in the
other, or both find matches, and these are at the same locations, where the trees differ in the order of
members only. Their own order is the same too if no wildcard is tried at an object. -/
theorem resolve_reordered (r : Reading) (o : Options) (e : Expression) (w w' : World) {root root' : Node}
    (h : Store.Reordered w.store w'.store root root') :
    let outcome := (resolve r.access o root e w).1
    let outcome' := (resolve r.access o root' e w').1
    (∀ error, outcome = .error error ↔ outcome' = .error error) ∧
    (∀ result, outcome = .ok result → ∃ result', outcome' = .ok result' ∧
      result'.locations.Perm result.locations ∧
      (∀ m ∈ result.found, ∀ m' ∈ result'.found, m'.location = m.location →
        Store.Reordered w.store w'.store m.node m'.node ∧
        ∀ depth, (w.store.treeTo depth m.node).Reordered (w'.store.treeTo depth m'.node)) ∧
      (r.ExpandsNoObject w.store o e.segments root → result'.locations = result.locations)) := by
  intro outcome outcome'
  have failure := Reading.failure?_eq (r := r) (o := o) h e.segments
  refine ⟨?_, ?_⟩
  · intro error
    rw [resolve_eq_error_iff, resolve_eq_error_iff, failure]
  · intro result succeeds
    obtain ⟨unfailing, rfl⟩ := resolve_eq_ok_iff.1 succeeds
    refine ⟨_, resolve_eq_ok_iff.2 ⟨failure ▸ unfailing, rfl⟩, Reading.found_perm h e.segments, ?_,
      fun arrays => (Reading.locations_eq h arrays).symm⟩
    intro m hm m' hm' same
    have below := Reading.found_reordered h hm hm' same
    exact ⟨below, below.treeTo⟩

/-- A wildcard takes the members of an object in their order, so another order gives the same locations in
another order; the elements of an array stay in theirs. -/
theorem reordered_object_searched :
    let tree : Value := .object .mapping
      [("b", .object .mapping [("x", .int 1), ("y", .int 2)]), ("a", .array .list [.int 3, .int 4])]
    let tree' : Value := .object .mapping
      [("a", .array .list [.int 3, .int 4]), ("b", .object .mapping [("y", .int 2), ("x", .int 1)])]
    let outcome (tree : Value) (segments : List Segment) :=
      let loaded := Store.empty.load tree
      (resolve Reading.standard.access { strict := true } loaded.1 ⟨segments⟩ ⟨loaded.2, #[]⟩).1
    tree.Reordered tree' ∧
    (∃ result result', outcome tree [.wildcard, .wildcard] = .ok result ∧
      outcome tree' [.wildcard, .wildcard] = .ok result' ∧
      result'.locations.Perm result.locations ∧ result'.locations ≠ result.locations) ∧
    (∃ result result', outcome tree [.key "a" false, .wildcard] = .ok result ∧
      outcome tree' [.key "a" false, .wildcard] = .ok result' ∧
      result'.locations = result.locations ∧ result.count = 2) := by
  intro tree tree' outcome
  have inner : (Value.object .mapping [("x", .int 1), ("y", .int 2)]).Reordered
      (.object .mapping [("y", .int 2), ("x", .int 1)]) := by
    refine .object_of_perm (by decide) ?_ (.swap _ _ _)
    exact .cons ⟨rfl, .scalar _⟩ (.cons ⟨rfl, .scalar _⟩ .nil)
  have items : (Value.array .list [.int 3, .int 4]).Reordered (.array .list [.int 3, .int 4]) :=
    .array_of_rel (.cons (.scalar _) (.cons (.scalar _) .nil))
  have reordered : tree.Reordered tree' := by
    refine .object_of_perm (by decide) ?_ (.swap _ _ _)
    exact .cons ⟨rfl, inner⟩ (.cons ⟨rfl, items⟩ .nil)
  have roots := Store.reordered_load reordered Store.empty Store.empty
  refine ⟨reordered, ?_, ?_⟩
  · obtain ⟨result', found', perm, -⟩ := (resolve_reordered Reading.standard { strict := true }
      ⟨[.wildcard, .wildcard]⟩ ⟨_, #[]⟩ ⟨_, #[]⟩ roots).2 _ rfl
    cases found'
    exact ⟨_, _, rfl, rfl, perm, by decide⟩
  · obtain ⟨result', found', -, -, same⟩ := (resolve_reordered Reading.standard { strict := true }
      ⟨[.key "a" false, .wildcard]⟩ ⟨_, #[]⟩ ⟨_, #[]⟩ roots).2 _ rfl
    cases found'
    refine ⟨_, _, rfl, rfl, same ?_, rfl⟩
    rintro (_ | ⟨first, _ | ⟨second, before⟩⟩) after steps x parts denotes
    · cases parts
    · cases parts
      cases denotes with
      | cons fits there kept below =>
        cases fits
        cases below
        cases there
        rfl
    · simp at parts

end TreeQuery
