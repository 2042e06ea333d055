import TreeQuery.Proofs.Search.DocumentOrder

/-!
# The failure that a search reports

As long as no wildcard has been passed, a search follows a single way, and that way stops at the
first segment that meets an obstacle. A search that insists on its segments fails exactly where
the way stops at one that is not optional, and there nothing is found even without insisting.
What fails below a wildcard never gets out, and no match is lost to it.
-/

namespace TreeQuery

theorem Segment.fits_iff {segment : Segment} {step : Step} (h : segment.isWildcard = false) :
    segment.Fits step ↔ segment.step? = some step := by
  cases segment with
  | wildcard => cases h
  | _ => rfl

namespace Reading

variable (r : Reading) (s : Store) (o : Options)

/-- Steps that satisfy the segments before one of them, without a wildcard among these, lead to a
node where that segment meets an obstacle. -/
def StopsAt (segments : List Segment) (n : Node) (steps : List Step) (segment : Segment)
    (obstacle : Obstacle) : Prop :=
  segments[steps.length]? = some segment ∧
    (∀ earlier ∈ segments.take steps.length, earlier.isWildcard = false) ∧
    ∃ x, r.Denotes s o (segments.take steps.length) n steps x ∧
      r.obstacle? s o x segment = some obstacle

variable {r s o}

theorem not_stopsAt_nil {n : Node} {steps : List Step} {target : Segment} {obstacle : Obstacle} :
    ¬ r.StopsAt s o [] n steps target obstacle := by
  rintro ⟨h, -⟩
  simp at h

theorem stopsAt_cons_nil {segment : Segment} {rest : List Segment} {n : Node} {target : Segment}
    {obstacle : Obstacle} :
    r.StopsAt s o (segment :: rest) n [] target obstacle ↔
      target = segment ∧ r.obstacle? s o n segment = some obstacle := by
  constructor
  · rintro ⟨h, -, x, denotes, hx⟩
    cases h
    cases denotes
    exact ⟨rfl, hx⟩
  · rintro ⟨rfl, h⟩
    exact ⟨rfl, by simp, n, .nil n, h⟩

theorem stopsAt_cons_cons {segment : Segment} {rest : List Segment} {n : Node} {step : Step}
    {steps : List Step} {target : Segment} {obstacle : Obstacle} :
    r.StopsAt s o (segment :: rest) n (step :: steps) target obstacle ↔
      ∃ child, segment.step? = some step ∧ o.present (r.child? s n step) = some child ∧
        r.StopsAt s o rest child steps target obstacle := by
  constructor
  · rintro ⟨h, plain, x, denotes, hx⟩
    cases denotes with
    | @cons _ _ _ _ _ child _ fits there kept below =>
      have hw : segment.isWildcard = false := plain segment (by simp)
      refine ⟨child, (Segment.fits_iff hw).1 fits, Options.present_eq_some_iff.2 ⟨there, kept⟩,
        by simpa using h, fun earlier he => plain earlier ?_, x, below, hx⟩
      exact List.mem_cons_of_mem _ he
  · rintro ⟨child, hs, hp, h, plain, x, denotes, hx⟩
    have hw := Segment.isWildcard_eq_false hs
    obtain ⟨there, kept⟩ := Options.present_eq_some_iff.1 hp
    refine ⟨by simpa using h, ?_, x, .cons ((Segment.fits_iff hw).2 hs) there kept denotes, hx⟩
    intro earlier he
    rcases List.mem_cons.1 he with rfl | he
    · exact hw
    · exact plain earlier he

/-! ### Where the way stops, case by case -/

theorem stopsAt_of_obstacle {segment : Segment} {rest : List Segment} {n : Node}
    {obstacle : Obstacle} (h : r.obstacle? s o n segment = some obstacle) {steps : List Step}
    {target : Segment} {met : Obstacle} :
    r.StopsAt s o (segment :: rest) n steps target met ↔
      steps = [] ∧ target = segment ∧ met = obstacle := by
  cases steps with
  | nil => simp [stopsAt_cons_nil, h, eq_comm]
  | cons step steps =>
    rw [stopsAt_cons_cons]
    constructor
    · rintro ⟨child, hs, hp, -⟩
      rw [(obstacle?_eq_none_iff hs).2 ⟨child, hp⟩] at h
      cases h
    · rintro ⟨h, -⟩
      cases h

theorem stopsAt_of_present {segment : Segment} {rest : List Segment} {n child : Node} {step : Step}
    (hs : segment.step? = some step) (hp : o.present (r.child? s n step) = some child)
    {steps : List Step} {target : Segment} {met : Obstacle} :
    r.StopsAt s o (segment :: rest) n steps target met ↔
      ∃ below, steps = step :: below ∧ r.StopsAt s o rest child below target met := by
  cases steps with
  | nil =>
    have h : r.obstacle? s o n segment = none := (obstacle?_eq_none_iff hs).2 ⟨child, hp⟩
    simp [stopsAt_cons_nil, h]
  | cons first below =>
    rw [stopsAt_cons_cons]
    constructor
    · rintro ⟨other, hs', hp', h⟩
      cases hs.symm.trans hs'
      cases hp.symm.trans hp'
      exact ⟨below, rfl, h⟩
    · rintro ⟨_, ⟨rfl, rfl⟩, h⟩
      exact ⟨child, hs, hp, h⟩

theorem not_stopsAt_wildcard {rest : List Segment} {n : Node} {children : List (Step × Node)}
    (h : r.children? s n = some children) {steps : List Step} {target : Segment} {met : Obstacle} :
    ¬ r.StopsAt s o (.wildcard :: rest) n steps target met := by
  cases steps with
  | nil => simp [stopsAt_cons_nil, obstacle?_wildcard, h]
  | cons step steps => simp [stopsAt_cons_cons, Segment.step?]

/-- The way stops at most once. -/
theorem StopsAt.unique {segments : List Segment} {n : Node} {p q : List Step} {a b : Segment}
    {x y : Obstacle} (h : r.StopsAt s o segments n p a x) (k : r.StopsAt s o segments n q b y) :
    p = q ∧ a = b ∧ x = y := by
  induction segments generalizing n p q with
  | nil => exact (not_stopsAt_nil h).elim
  | cons segment rest ih =>
    rcases obstacle_or_child_or_children r s o n segment with
      ⟨obstacle, ho⟩ | ⟨step, child, hs, hp⟩ | ⟨rfl, children, hc⟩
    · obtain ⟨rfl, rfl, rfl⟩ := (stopsAt_of_obstacle ho).1 h
      obtain ⟨rfl, rfl, rfl⟩ := (stopsAt_of_obstacle ho).1 k
      exact ⟨rfl, rfl, rfl⟩
    · obtain ⟨p, rfl, below⟩ := (stopsAt_of_present hs hp).1 h
      obtain ⟨q, rfl, below'⟩ := (stopsAt_of_present hs hp).1 k
      obtain ⟨rfl, same⟩ := ih below below'
      exact ⟨rfl, same⟩
    · exact (not_stopsAt_wildcard hc h).elim

/-- A walk that insists on its segments ends where its way stops at a segment that is not
optional. -/
theorem failure?_eq_some_iff (strict : o.strict = true) {segments : List Segment} {n : Node}
    {f : Failure} :
    r.failure? s o segments n = some f ↔
      ∃ segment, r.StopsAt s o segments n f.place.steps segment f.obstacle ∧
        segment.isOptional = false := by
  induction segments generalizing n f with
  | nil => simp [failure?, not_stopsAt_nil]
  | cons segment rest ih =>
    rcases obstacle_or_child_or_children r s o n segment with
      ⟨obstacle, ho⟩ | ⟨step, child, hs, hp⟩ | ⟨rfl, children, hc⟩
    · simp only [failure?_of_obstacle ho, stopsAt_of_obstacle ho, Options.insists, strict,
        Bool.true_and]
      constructor
      · intro h
        split at h
        · next required =>
          cases h
          exact ⟨segment, ⟨rfl, rfl, rfl⟩, by simpa using required⟩
        · cases h
      · obtain ⟨⟨steps⟩, met⟩ := f
        rintro ⟨_, ⟨rfl, rfl, rfl⟩, required⟩
        simp [required, Location.root]
    · simp only [failure?_of_present hs hp, stopsAt_of_present hs hp, Option.map_eq_some_iff]
      constructor
      · rintro ⟨below, hb, rfl⟩
        obtain ⟨target, stops, required⟩ := ih.1 hb
        exact ⟨target, ⟨_, rfl, stops⟩, required⟩
      · obtain ⟨⟨steps⟩, met⟩ := f
        rintro ⟨target, ⟨below, rfl, stops⟩, required⟩
        exact ⟨⟨⟨below⟩, met⟩, ih.2 ⟨target, stops, required⟩, rfl⟩
    · simp [failure?_wildcard hc, not_stopsAt_wildcard hc]

end Reading

/-- A search that insists on its segments fails exactly where its way stops at a segment that is not
optional, and the error names that place and the obstacle there. -/
theorem resolve_eq_error_iff_stopsAt {r : Reading} {o : Options} {root : Node} {e : Expression}
    {w : World} (strict : o.strict = true) {error : Error} :
    (resolve r.access o root e w).1 = .error error ↔ ∃ steps segment obstacle,
      r.StopsAt w.store o e.segments root steps segment obstacle ∧
      segment.isOptional = false ∧ error = .unresolved ⟨steps⟩ obstacle := by
  rw [resolve_eq_error_iff]
  constructor
  · rintro ⟨f, hf, rfl⟩
    obtain ⟨segment, stops, required⟩ := (Reading.failure?_eq_some_iff strict).1 hf
    exact ⟨f.place.steps, segment, f.obstacle, stops, required, rfl⟩
  · rintro ⟨steps, segment, obstacle, stops, required, rfl⟩
    have hf : r.failure? w.store o e.segments root = some ⟨⟨steps⟩, obstacle⟩ :=
      (Reading.failure?_eq_some_iff strict).2 ⟨segment, stops, required⟩
    exact ⟨_, hf, rfl⟩

end TreeQuery
