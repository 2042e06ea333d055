import TreeQuery.Proofs.Search.FirstFailure

/-!
# How failures are reported

A search path may fail at many places of a tree. A search that insists on its segments meets each of
these failures once: the one that no wildcard comes before ends the search, and any other ends a branch
of the last wildcard before it and is recorded there. The records stand in the order in which the ways
to the failures come in the document.
-/

namespace TreeQuery

namespace Reading

variable (r : Reading) (s : Store) (o : Options)

/-- All failures below a node: those that end branches of wildcards, and the one that ends the walk. -/
def failures (segments : List Segment) (n : Node) : List Failure :=
  r.dropped s o segments n ++ (r.failure? s o segments n).toList

variable {r s o} {segment : Segment} {segments rest : List Segment} {n : Node} {step : Step}
  {steps : List Step} {obstacle : Obstacle}

/-! ### Failure points, from the first segment on -/

theorem not_failsAt_nil : ¬ r.FailsAt s o [] n steps obstacle := by
  rintro ⟨x, segment, h, -⟩
  simp at h

theorem failsAt_cons_nil :
    r.FailsAt s o (segment :: rest) n [] obstacle ↔
      segment.isOptional = false ∧ r.obstacle? s o n segment = some obstacle := by
  constructor
  · rintro ⟨x, target, h, denotes, required, hx⟩
    cases h
    cases denotes
    exact ⟨required, hx⟩
  · rintro ⟨required, h⟩
    exact ⟨n, segment, rfl, .nil n, required, h⟩

theorem failsAt_cons_cons :
    r.FailsAt s o (segment :: rest) n (step :: steps) obstacle ↔
      ∃ child, (step, child) ∈ r.selected s o n segment ∧
        r.FailsAt s o rest child steps obstacle := by
  constructor
  · rintro ⟨x, target, h, denotes, required, hx⟩
    cases denotes with
    | @cons _ _ _ _ _ child _ fits there kept below =>
      exact ⟨child, mem_selected_iff.2 ⟨fits, there, kept⟩, x, target, h, below, required, hx⟩
  · rintro ⟨child, he, x, target, h, below, required, hx⟩
    obtain ⟨fits, there, kept⟩ := mem_selected_iff.1 he
    exact ⟨x, target, h, .cons fits there kept below, required, hx⟩

/-! ### All failures, from the first segment on -/

theorem failures_of_obstacle (h : r.obstacle? s o n segment = some obstacle)
    (rest : List Segment) :
    r.failures s o (segment :: rest) n =
      if o.insists segment.isOptional then [⟨.root, obstacle⟩] else [] := by
  rw [failures, dropped_of_obstacle h, failure?_of_obstacle h]
  cases o.insists segment.isOptional <;> rfl

theorem failures_of_selected (h : r.obstacle? s o n segment = none) (rest : List Segment) :
    r.failures s o (segment :: rest) n =
      (r.selected s o n segment).flatMap fun e =>
        (r.failures s o rest e.2).map (·.under ⟨[e.1]⟩) := by
  rcases obstacle_or_child_or_children r s o n segment with
    ⟨obstacle, ho⟩ | ⟨step, child, hs, hp⟩ | ⟨rfl, children, hc⟩
  · rw [h] at ho
    cases ho
  · rw [failures, dropped_of_present hs hp, failure?_of_present hs hp, selected_of_present hs hp]
    simp [failures, Option.toList_map]
  · simp [failures, dropped, failure?_wildcard hc, Segment.isWildcard]

/-- What insists on its segments meets the failure points of its path, and nothing else. -/
theorem mem_failures_iff (strict : o.strict = true) {f : Failure} :
    f ∈ r.failures s o segments n ↔ r.FailsAt s o segments n f.place.steps f.obstacle := by
  obtain ⟨⟨steps⟩, obstacle⟩ := f
  induction segments generalizing n steps with
  | nil => simp [failures, dropped, failure?, not_failsAt_nil]
  | cons segment rest ih =>
    cases ho : r.obstacle? s o n segment with
    | some met =>
      rw [failures_of_obstacle ho]
      cases steps with
      | nil =>
        cases hs : segment.isOptional <;>
          simp [failsAt_cons_nil, ho, hs, Options.insists, strict, Location.root, eq_comm]
      | cons step steps =>
        have nowhere := selected_of_obstacle ho
        cases hs : segment.isOptional <;>
          simp [failsAt_cons_cons, nowhere, Options.insists, strict, Location.root]
    | none =>
      simp only [failures_of_selected ho, List.mem_flatMap, List.mem_map]
      cases steps with
      | nil => simp [failsAt_cons_nil, ho, Failure.under, Location.append]
      | cons step steps =>
        rw [failsAt_cons_cons]
        constructor
        · rintro ⟨⟨first, child⟩, he, ⟨⟨below⟩, met⟩, hb, same⟩
          cases same
          exact ⟨child, he, ih _ |>.1 hb⟩
        · rintro ⟨child, he, below⟩
          exact ⟨(step, child), he, ⟨⟨steps⟩, obstacle⟩, ih _ |>.2 below, rfl⟩

/-- The failures below a node stand in document order. -/
theorem before_failures (segments : List Segment) (n : Node) :
    (r.failures s o segments n).Pairwise fun a b =>
      r.Before s n a.place.steps b.place.steps := by
  induction segments generalizing n with
  | nil => simp [failures, dropped, failure?]
  | cons segment rest ih =>
    cases ho : r.obstacle? s o n segment with
    | some obstacle =>
      rw [failures_of_obstacle ho]
      cases o.insists segment.isOptional <;> simp
    | none =>
      rw [failures_of_selected ho, List.pairwise_flatMap]
      constructor
      · rintro ⟨step, child⟩ he
        obtain ⟨-, there, -⟩ := mem_selected_iff.1 he
        rw [List.pairwise_map]
        exact (ih child).imp fun h => .later there h
      · apply (ranksBefore_selected n segment).imp
        rintro a b ⟨i, j, hi, hj, lt⟩ x hx y hy
        obtain ⟨x, -, rfl⟩ := List.mem_map.1 hx
        obtain ⟨y, -, rfl⟩ := List.mem_map.1 hy
        exact .here hi hj lt

theorem nodup_failures (segments : List Segment) (n : Node) :
    ((r.failures s o segments n).map Failure.place).Nodup := by
  rw [List.Nodup, List.pairwise_map]
  apply (before_failures segments n).imp
  intro a b before same
  rw [same] at before
  exact before.irrefl

/-- A walk that fails has dropped no branch before, so its failure is all there is. -/
theorem failures_of_failure? {f : Failure} (h : r.failure? s o segments n = some f) :
    r.failures s o segments n = [f] := by
  rw [failures, (nothing_before_failure h).2, h]
  rfl

theorem failures_of_failure?_eq_none (h : r.failure? s o segments n = none) :
    r.failures s o segments n = r.dropped s o segments n := by
  rw [failures, h, Option.toList_none, List.append_nil]

/-- The failure that ends a walk is the failure point that no wildcard comes before. -/
theorem failure?_eq_some_iff_failsAt (strict : o.strict = true) {f : Failure} :
    r.failure? s o segments n = some f ↔
      r.FailsAt s o segments n f.place.steps f.obstacle ∧
        ∀ earlier ∈ segments.take f.place.length, earlier.isWildcard = false := by
  rw [failure?_eq_some_iff strict]
  constructor
  · rintro ⟨segment, ⟨hs, plain, x, denotes, hx⟩, required⟩
    exact ⟨⟨x, segment, hs, denotes, required, hx⟩, plain⟩
  · rintro ⟨⟨x, segment, hs, denotes, required, hx⟩, plain⟩
    exact ⟨segment, ⟨hs, plain, x, denotes, hx⟩, required⟩

/-- Nothing ends a branch where nothing is insisted on. -/
theorem dropped_lenient (h : o.strict = false) (segments : List Segment) (n : Node) :
    r.dropped s o segments n = [] := by
  induction segments generalizing n with
  | nil => rfl
  | cons segment rest ih => simp [dropped, ih, failure?_lenient h]

end Reading

/-- Branches of two wildcards are dropped at different depths, in document order. -/
example :
    let tree : Value := .object .mapping
      [("a", .object .mapping [("x", .int 1)]), ("b", .int 2), ("c", .array .list [.null])]
    let loaded := Store.empty.load tree
    let path : Expression := ⟨[.wildcard, .wildcard, .key "k" false]⟩
    let log := (resolve Reading.standard.access { strict := true } loaded.1 path
      ⟨loaded.2, #[]⟩).2.log
    log = #[.droppedBranch (.unresolved ⟨[.key "a", .key "x"]⟩ .notAnObject),
      .droppedBranch (.unresolved ⟨[.key "b"]⟩ .notAContainer),
      .droppedBranch (.unresolved ⟨[.key "c", .index 0]⟩ .notAnObject), .resolved path 0] := rfl

end TreeQuery
