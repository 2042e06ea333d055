import TreeQuery.Proofs.Search.ExactPlace

/-!
# Search paths in sequence

A path in two parts can be searched for part by part: the second part is a search of its own below every
match of the first. What the second searches find lies below the matches in their order. A second search
that fails counts as a dropped branch if the first part has a wildcard, and otherwise its failure is
that of the whole search, told from the root.
-/

namespace TreeQuery

theorem Match.under_append (k l : Location) (m : Match) :
    m.under (k.append l) = (m.under l).under k := by
  simp [Match.under, Location.append_assoc]

theorem Failure.under_append (k l : Location) (f : Failure) :
    f.under (k.append l) = (f.under l).under k := by
  simp [Failure.under, Location.append_assoc]

namespace Reading

variable {r : Reading} {s : Store} {o : Options} {first second : List Segment} {n : Node}

/-- What a path finds is what its second part finds below the matches of its first part. -/
theorem found_append (first second : List Segment) (n : Node) :
    r.found s o (first ++ second) n =
      (r.found s o first n).flatMap fun m =>
        (r.found s o second m.node).map (·.under m.location) := by
  induction first generalizing n with
  | nil => simp [found]
  | cons segment rest ih =>
    simp only [List.cons_append, found, ih, List.map_flatMap, List.flatMap_assoc, List.flatMap_map,
      List.map_map]
    apply List.flatMap_congr
    intro e _
    apply List.flatMap_congr
    intro m _
    apply List.map_congr_left
    intro below _
    exact (Match.under_append _ _ below).symm

/-- A failure of the first part is one of the whole path. -/
theorem failure?_append_of_eq_some {f : Failure} (h : r.failure? s o first n = some f)
    (second : List Segment) : r.failure? s o (first ++ second) n = some f := by
  induction first generalizing n f with
  | nil => cases h
  | cons segment rest ih =>
    rcases obstacle_or_child_or_children r s o n segment with
      ⟨obstacle, ho⟩ | ⟨step, child, hs, hp⟩ | ⟨rfl, children, hc⟩
    · rw [failure?_of_obstacle ho] at h
      rw [List.cons_append, failure?_of_obstacle ho, h]
    · rw [failure?_of_present hs hp] at h
      obtain ⟨below, hb, rfl⟩ := Option.map_eq_some_iff.1 h
      rw [List.cons_append, failure?_of_present hs hp, ih hb, Option.map_some]
    · rw [failure?_wildcard hc] at h
      cases h

/-- Where the first part succeeds and no failure below one of its matches gets out, the path
succeeds. -/
theorem failure?_append_eq_none (h : r.failure? s o first n = none)
    (below : (∃ segment ∈ first, segment.isWildcard = true) ∨
      ∀ m ∈ r.found s o first n, r.failure? s o second m.node = none) :
    r.failure? s o (first ++ second) n = none := by
  induction first generalizing n with
  | nil =>
    rcases below with ⟨segment, hs, -⟩ | below
    · cases hs
    · exact below ⟨.root, n⟩ (List.mem_singleton.2 rfl)
  | cons segment rest ih =>
    rcases obstacle_or_child_or_children r s o n segment with
      ⟨obstacle, ho⟩ | ⟨step, child, hs, hp⟩ | ⟨rfl, children, hc⟩
    · rw [failure?_of_obstacle ho] at h
      rw [List.cons_append, failure?_of_obstacle ho, h]
    · rw [failure?_of_present hs hp, Option.map_eq_none_iff] at h
      rw [List.cons_append, failure?_of_present hs hp, Option.map_eq_none_iff]
      apply ih h
      rcases below with ⟨other, ho, wild⟩ | below
      · rcases List.mem_cons.1 ho with rfl | ho
        · rw [Segment.isWildcard_eq_false hs] at wild
          cases wild
        · exact .inl ⟨other, ho, wild⟩
      · rw [found_of_present hs hp] at below
        exact .inr fun m hm => below (m.under ⟨[step]⟩) (List.mem_map_of_mem hm)
    · exact failure?_wildcard hc _

/-- Without a wildcard there is one match at most, so a failure below it is that of the path. -/
theorem failure?_append_of_mem_found (plain : ∀ segment ∈ first, segment.isWildcard = false)
    {m : Match} (hm : m ∈ r.found s o first n) {f : Failure}
    (h : r.failure? s o second m.node = some f) :
    r.failure? s o (first ++ second) n = some (f.under m.location) := by
  induction first generalizing n m with
  | nil =>
    cases List.mem_singleton.1 hm
    exact h
  | cons segment rest ih =>
    rcases obstacle_or_child_or_children r s o n segment with
      ⟨obstacle, ho⟩ | ⟨step, child, hs, hp⟩ | ⟨rfl, children, hc⟩
    · rw [found_of_obstacle ho] at hm
      cases hm
    · rw [found_of_present hs hp] at hm
      obtain ⟨below, hb, rfl⟩ := List.mem_map.1 hm
      have inner := ih (fun segment hs => plain segment (List.mem_cons_of_mem _ hs)) hb h
      rw [List.cons_append, failure?_of_present hs hp, inner, Option.map_some]
      rw [← Failure.under_append]
      rfl
    · cases plain .wildcard List.mem_cons_self

end Reading

/-- The matches that a search gives; one that fails gives none. -/
def matchesOf : Except Error Result → List Match
  | .ok result => result.found
  | .error _ => []

theorem matchesOf_resolve (r : Reading) (o : Options) (root : Node) (e : Expression) (w : World) :
    matchesOf (resolve r.access o root e w).1 = r.found w.store o e.segments root := by
  rw [resolve_outcome]
  cases h : r.failure? w.store o e.segments root with
  | some f => exact (Reading.nothing_before_failure h).1.symm
  | none => rfl

/-- Searching for two parts of a path in sequence, the second below every match of the first. A failure of
the first part is that of the whole path. The second searches never fail where nothing is insisted on.
If none of them fails, or if a wildcard in the first part drops those that do, then the whole path finds
what they find, each match told from the root, in the order of the matches of the first part. Otherwise
the whole search fails as a second one does, at the place told from the root. -/
theorem resolve_append (r : Reading) (o : Options) (root : Node) (first second : List Segment)
    (w : World) :
    let outcome := (resolve r.access o root ⟨first⟩ w).1
    let below (m : Match) :=
      (resolve r.access o m.node ⟨second⟩ (resolve r.access o root ⟨first⟩ w).2).1
    let whole := (resolve r.access o root ⟨first ++ second⟩ w).1
    (∀ error, outcome = .error error → whole = .error error) ∧
    ∀ result, outcome = .ok result →
      (o.strict = false → ∀ m ∈ result.found, ∃ part, below m = .ok part) ∧
      ((∃ segment ∈ first, segment.isWildcard = true) ∨
          (∀ m ∈ result.found, ∃ part, below m = .ok part) →
        whole = .ok ⟨⟨first ++ second⟩, result.found.flatMap fun m =>
          (matchesOf (below m)).map (·.under m.location)⟩) ∧
      ((∀ segment ∈ first, segment.isWildcard = false) →
        ∀ m ∈ result.found, ∀ error, below m = .error error → ∃ place obstacle,
          error = .unresolved place obstacle ∧
          whole = .error (.unresolved (m.location.append place) obstacle)) := by
  intro outcome below whole
  have store : (resolve r.access o root ⟨first⟩ w).2.store = w.store :=
    store_resolve r.access o root ⟨first⟩ w
  refine ⟨?_, ?_⟩
  · intro error failed
    obtain ⟨f, hf, rfl⟩ := resolve_eq_error_iff.1 failed
    exact resolve_eq_error_iff.2 ⟨f, Reading.failure?_append_of_eq_some hf second, rfl⟩
  · intro result succeeded
    obtain ⟨unfailing, rfl⟩ := resolve_eq_ok_iff.1 succeeded
    have part : ∀ m, (∃ part, below m = .ok part) ↔ r.failure? w.store o second m.node = none := by
      intro m
      simp only [below, resolve_eq_ok_iff, store, exists_and_left, exists_eq', and_true]
    refine ⟨?_, ?_, ?_⟩
    · intro lenient m _
      exact (part m).2 (Reading.failure?_lenient lenient second m.node)
    · intro kept
      have unfailing' : r.failure? w.store o (first ++ second) root = none :=
        Reading.failure?_append_eq_none unfailing
          (kept.imp_right fun parts m hm => (part m).1 (parts m hm))
      refine resolve_eq_ok_iff.2 ⟨unfailing', ?_⟩
      simp only [below, matchesOf_resolve, store, Reading.found_append]
    · intro plain m hm error failed
      obtain ⟨f, hf, rfl⟩ := resolve_eq_error_iff.1 failed
      rw [store] at hf
      refine ⟨f.place, f.obstacle, rfl, resolve_eq_error_iff.2 ⟨f.under m.location, ?_, rfl⟩⟩
      exact Reading.failure?_append_of_mem_found plain hm hf

end TreeQuery
