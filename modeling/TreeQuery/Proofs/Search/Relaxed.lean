import TreeQuery.Proofs.Search.DocumentOrder

/-!
# Segments made optional

Some segments of a search path can be made optional. The path then finds what it found before, because
what a segment selects depends on its step alone. A search that insists fails where it failed before,
except at a segment that has become optional: there it ends without a match.
-/

namespace TreeQuery

namespace Segment

/-- A segment in its optional form. A wildcard has none. -/
def relaxed : Segment → Segment
  | key name _ => key name true
  | index position _ => index position true
  | wildcard => wildcard

theorem step?_relaxed (segment : Segment) : segment.relaxed.step? = segment.step? := by
  cases segment <;> rfl

theorem step?_ite_relaxed (p : Prop) [Decidable p] (segment : Segment) :
    (if p then segment.relaxed else segment).step? = segment.step? := by
  split
  · exact segment.step?_relaxed
  · rfl

theorem isOptional_relaxed {segment : Segment} (h : segment.isWildcard = false) :
    segment.relaxed.isOptional = true := by
  cases segment with
  | wildcard => cases h
  | _ => rfl

end Segment

/-- Segments with those at chosen places in their optional form. -/
def relax (chosen : Nat → Bool) (segments : List Segment) : List Segment :=
  segments.mapIdx fun i segment => if chosen i then segment.relaxed else segment

def Expression.relax (chosen : Nat → Bool) (e : Expression) : Expression :=
  ⟨TreeQuery.relax chosen e.segments⟩

theorem relax_cons (chosen : Nat → Bool) (segment : Segment) (rest : List Segment) :
    relax chosen (segment :: rest) =
      (if chosen 0 then segment.relaxed else segment) :: relax (fun i => chosen (i + 1)) rest :=
  List.mapIdx_cons

namespace Reading

variable {r : Reading} {s : Store} {o : Options} {n : Node}

/-- Whether and how a segment is not satisfied depends on its step alone. -/
theorem obstacle?_congr {a b : Segment} (h : a.step? = b.step?) :
    r.obstacle? s o n a = r.obstacle? s o n b := by
  cases a <;> cases b <;> cases h <;> rfl

/-- A path finds the same whichever of its segments are optional. -/
theorem found_relax (chosen : Nat → Bool) (segments : List Segment) (n : Node) :
    r.found s o (relax chosen segments) n = r.found s o segments n := by
  induction segments generalizing chosen n with
  | nil => rfl
  | cons segment rest ih =>
    rw [relax_cons, found, found, selected, selected, Segment.step?_ite_relaxed]
    simp only [ih]

/-- A walk fails as before, unless it failed at a segment that has become optional. -/
theorem failure?_relax {chosen : Nat → Bool} {segments : List Segment}
    (named : ∀ i, chosen i = true → segments[i]? ≠ some .wildcard) (n : Node) :
    r.failure? s o (relax chosen segments) n =
      (r.failure? s o segments n).filter fun f => !chosen f.place.length := by
  induction segments generalizing chosen n with
  | nil => rfl
  | cons segment rest ih =>
    have same := Segment.step?_ite_relaxed (chosen 0 = true) segment
    rw [relax_cons]
    rcases obstacle_or_child_or_children r s o n segment with
      ⟨obstacle, ho⟩ | ⟨step, child, hs, hp⟩ | ⟨rfl, children, hc⟩
    · have ho' := (obstacle?_congr same).trans ho
      rw [failure?_of_obstacle ho, failure?_of_obstacle ho']
      cases first : chosen 0 with
      | true =>
        have plain : segment.isWildcard = false := by
          cases segment with
          | wildcard => exact absurd rfl (named 0 first)
          | _ => rfl
        have optional := Segment.isOptional_relaxed plain
        cases o.insists segment.isOptional <;>
          simp [optional, Options.insists, Option.filter, first, Location.root, Location.length]
      | false =>
        cases insists : o.insists segment.isOptional <;>
          simp [insists, Option.filter, first, Location.root, Location.length]
    · have deeper : ∀ f : Failure, (f.under ⟨[step]⟩).place.length = f.place.length + 1 := by
        intro f
        simp [Failure.under, Location.append, Location.length]
      rw [failure?_of_present hs hp, failure?_of_present (same.trans hs) hp,
        ih fun i hi => by simpa using named (i + 1) hi, Option.filter_map]
      simp only [Function.comp_def, deeper]
    · have first : chosen 0 = false := by
        cases first : chosen 0 with
        | true => exact absurd rfl (named 0 first)
        | false => rfl
      rw [first, failure?_wildcard hc]
      exact failure?_wildcard hc _

/-- A search whose segments are all optional does not fail. -/
theorem failure?_of_optional {segments : List Segment}
    (optional : ∀ segment ∈ segments, segment.isOptional = true) (n : Node) :
    r.failure? s o segments n = none := by
  induction segments generalizing n with
  | nil => rfl
  | cons segment rest ih =>
    obtain ⟨first, later⟩ := List.forall_mem_cons.1 optional
    rw [failure?]
    cases r.obstacle? s o n segment with
    | some obstacle => simp [Options.insists, first]
    | none => simp [ih later]

end Reading

/-- Making some named or indexed segments optional does not change what a search finds that insists on
nothing. A search that insists and succeeds does so again, with the same matches in the same order. One
that fails after some steps succeeds without a match if the segment after these steps has become
optional, and fails with the same error otherwise. So a path of optional segments never makes a search
fail. -/
theorem resolve_relaxed (r : Reading) (nullAsMissing : Bool) (root : Node) (e : Expression) (w : World)
    (chosen : Nat → Bool)
    (named : ∀ i, chosen i = true →
      ∃ segment, e.segments[i]? = some segment ∧ segment.isWildcard = false) :
    let lenient (e : Expression) :=
      (resolve r.access { strict := false, nullAsMissing } root e w).1
    let strict (e : Expression) := (resolve r.access { strict := true, nullAsMissing } root e w).1
    (∃ matched, lenient e = .ok ⟨e, matched⟩ ∧
      lenient (e.relax chosen) = .ok ⟨e.relax chosen, matched⟩) ∧
    (∀ result, strict e = .ok result →
      strict (e.relax chosen) = .ok ⟨e.relax chosen, result.found⟩) ∧
    (∀ error, strict e = .error error → ∃ place obstacle, error = .unresolved place obstacle ∧
      strict (e.relax chosen) =
        if chosen place.length then .ok ⟨e.relax chosen, []⟩ else .error error) ∧
    ((∀ segment ∈ e.segments, segment.isOptional = true) → ∃ result, strict e = .ok result) := by
  intro lenient strict
  have wild : ∀ i, chosen i = true → e.segments[i]? ≠ some .wildcard := by
    intro i hi wildcard
    obtain ⟨segment, there, plain⟩ := named i hi
    cases wildcard.symm.trans there
    cases plain
  have found : ∀ o, r.found w.store o (e.relax chosen).segments root =
      r.found w.store o e.segments root := fun o => Reading.found_relax chosen e.segments root
  have failure : ∀ o, r.failure? w.store o (e.relax chosen).segments root =
      (r.failure? w.store o e.segments root).filter fun f => !chosen f.place.length :=
    fun o => Reading.failure?_relax wild root
  refine ⟨?_, ?_, ?_, ?_⟩
  · refine ⟨_, resolve_eq_found rfl, ?_⟩
    rw [← found]
    exact resolve_eq_found rfl
  · intro result succeeds
    obtain ⟨unfailing, rfl⟩ := resolve_eq_ok_iff.1 succeeds
    refine resolve_eq_ok_iff.2 ⟨?_, ?_⟩
    · rw [failure, unfailing]
      rfl
    · rw [found]
  · intro error fails
    obtain ⟨f, hf, rfl⟩ := resolve_eq_error_iff.1 fails
    refine ⟨f.place, f.obstacle, rfl, ?_⟩
    cases optional : chosen f.place.length with
    | true =>
      refine resolve_eq_ok_iff.2 ⟨?_, ?_⟩
      · rw [failure, hf]
        simp [Option.filter, optional]
      · rw [found, (Reading.nothing_before_failure hf).1]
    | false =>
      refine resolve_eq_error_iff.2 ⟨f, ?_, rfl⟩
      rw [failure, hf]
      simp [Option.filter, optional]
  · intro optional
    exact ⟨_, resolve_eq_ok_iff.2 ⟨Reading.failure?_of_optional optional root, rfl⟩⟩

/-- A search that misses a member fails, finds nothing once that member is optional, and fails in the same
way if the object above it is optional instead. -/
theorem missing_member_relaxed :
    let loaded := Store.empty.load <| .object .mapping [("a", .object .mapping [("b", .int 1)])]
    let path : Expression := ⟨[.key "a" false, .key "c" false, .wildcard]⟩
    let outcome (e : Expression) :=
      (resolve Reading.standard.access { strict := true } loaded.1 e ⟨loaded.2, #[]⟩).1
    let failure : Except Error Result := .error (.unresolved ⟨[.key "a"]⟩ (.missingKey "c"))
    outcome path = failure ∧ outcome (path.relax (· = 1)) = .ok ⟨path.relax (· = 1), []⟩ ∧
      outcome (path.relax (· = 0)) = failure := by
  intro loaded path outcome failure
  have fails : outcome path = failure := rfl
  have named : ∀ place, place < 2 → ∀ i, decide (i = place) = true →
      ∃ segment, path.segments[i]? = some segment ∧ segment.isWildcard = false := by
    intro place hp i hi
    cases of_decide_eq_true hi
    match place, hp with
    | 0, _ => exact ⟨.key "a" false, rfl, rfl⟩
    | 1, _ => exact ⟨.key "c" false, rfl, rfl⟩
  have relaxed (place : Nat) (hp : place < 2) :=
    (resolve_relaxed Reading.standard false loaded.1 path ⟨loaded.2, #[]⟩ (· = place)
      (named place hp)).2.2.1 _ fails
  obtain ⟨_, _, same, quiet⟩ := relaxed 1 (by decide)
  obtain ⟨_, _, same', loud⟩ := relaxed 0 (by decide)
  cases same
  cases same'
  exact ⟨fails, quiet, loud⟩

end TreeQuery
