import TreeQuery.Proofs.Edit.Descent
import TreeQuery.Proofs.Search.DocumentOrder

/-!
# Searching for one exact place

A location is also a search path, one that insists on every step. Following the location and
searching for it are written independently of each other, the one step by step with a count, the
other by recursion on the segments with an obstacle for each kind of mismatch. They agree: on the
node, on whether there is one, and on the depth at which the way ends.
-/

namespace TreeQuery

namespace Reading

variable {r : Reading} {s : Store} {o : Options}

theorem present_of_keeping_nulls (h : o.nullAsMissing = false) (child? : Option Node) :
    o.present child? = child? := by
  have kept : ∀ child, o.skips child = false := by
    intro child
    rw [Options.skips, h, Bool.false_and]
  cases child? with
  | none => rfl
  | some child => simp [Options.present, kept]

variable (h : o.nullAsMissing = false) {n m : Node} {steps : List Step}

include h

/-- Where all steps lead to a node, the path that insists on them finds it and nothing else. -/
theorem found_of_follow? (hf : r.follow? s n steps = some m) :
    r.found s o (steps.map Step.segment) n = [⟨⟨steps⟩, m⟩] := by
  induction steps generalizing n with
  | nil =>
    cases hf
    rfl
  | cons step rest ih =>
    obtain ⟨child, there, below⟩ := Option.bind_eq_some_iff.1 hf
    have hp : o.present (r.child? s n step) = some child := by
      rw [present_of_keeping_nulls h, there]
    rw [List.map_cons, found_of_present step.step?_segment hp, ih below]
    rfl

theorem failure?_of_follow? (hf : r.follow? s n steps = some m) :
    r.failure? s o (steps.map Step.segment) n = none := by
  cases failed : r.failure? s o (steps.map Step.segment) n with
  | none => rfl
  | some f =>
    have nothing := (nothing_before_failure failed).1
    rw [found_of_follow? h hf] at nothing
    cases nothing

/-- A walk that insists on steps fails after the last one that can be taken. -/
theorem failure?_of_follow?_eq_none (strict : o.strict = true)
    (hf : r.follow? s n steps = none) :
    ∃ obstacle, r.failure? s o (steps.map Step.segment) n =
      some ⟨⟨steps.take (r.reach s n steps)⟩, obstacle⟩ := by
  induction steps generalizing n with
  | nil => cases hf
  | cons step rest ih =>
    rw [List.map_cons]
    cases hc : r.child? s n step with
    | none =>
      have met : r.obstacle? s o n step.segment ≠ none := by
        intro none
        obtain ⟨child, hp⟩ := (obstacle?_eq_none_iff step.step?_segment).1 none
        rw [hc] at hp
        cases hp
      obtain ⟨obstacle, ho⟩ := Option.ne_none_iff_exists'.1 met
      have required : step.segment.isOptional = false := by cases step <;> rfl
      refine ⟨obstacle, ?_⟩
      rw [failure?_of_obstacle ho, required]
      simp [Options.insists, strict, reach, hc, Location.root]
    | some child =>
      have hp : o.present (r.child? s n step) = some child := by
        rw [present_of_keeping_nulls h, hc]
      have below : r.follow? s child rest = none := by simpa [follow?, hc] using hf
      obtain ⟨obstacle, hb⟩ := ih below
      refine ⟨obstacle, ?_⟩
      rw [failure?_of_present step.step?_segment hp, hb]
      simp [reach, hc, Failure.under, Location.append]

/-- Where a slot is missing on the way, nothing is found. -/
theorem found_of_follow?_eq_none (hf : r.follow? s n steps = none) :
    r.found s o (steps.map Step.segment) n = [] := by
  let insisting : Options := { o with strict := true }
  have same : o.nullAsMissing = insisting.nullAsMissing := rfl
  obtain ⟨obstacle, failed⟩ :=
    failure?_of_follow?_eq_none (o := insisting) (same ▸ h) rfl hf
  rw [found_congr same]
  exact (nothing_before_failure failed).1

end Reading

variable {r : Reading} {root : Node} {place : Location} {w : World}

/-! ### The search for a location -/

section Search

variable {o : Options} (h : o.nullAsMissing = false)

include h

theorem resolve_of_follow? {n : Node} (hf : r.follow? w.store root place.steps = some n) :
    (resolve r.access o root place.expression w).1 = .ok ⟨place.expression, [⟨place, n⟩]⟩ :=
  resolve_eq_ok_iff.2 ⟨Reading.failure?_of_follow? h hf,
    congrArg (Result.mk place.expression) (Reading.found_of_follow? h hf)⟩

theorem resolve_of_follow?_eq_none (hf : r.follow? w.store root place.steps = none) :
    if o.strict then
      ∃ obstacle, (resolve r.access o root place.expression w).1 =
        .error (.unresolved ⟨place.steps.take (r.reach w.store root place.steps)⟩ obstacle)
    else (resolve r.access o root place.expression w).1 = .ok ⟨place.expression, []⟩ := by
  cases strict : o.strict with
  | true =>
    obtain ⟨obstacle, failed⟩ := Reading.failure?_of_follow?_eq_none h strict hf
    exact ⟨obstacle, resolve_eq_error_iff.2 ⟨_, failed, rfl⟩⟩
  | false =>
    exact resolve_eq_ok_iff.2 ⟨Reading.failure?_lenient strict place.expression.segments root,
      congrArg (Result.mk place.expression) (Reading.found_of_follow?_eq_none h hf)⟩

end Search

/-- A search leaves the store as it is. -/
theorem store_resolve (a : Access) (o : Options) (root : Node) (e : Expression) (w : World) :
    (resolve a o root e w).2.store = w.store := by
  unfold resolve
  split <;> rfl

/-- A match of a search is the node at its location. -/
theorem nodeAt_of_mem_found {o : Options} {e : Expression} {result : Result}
    (hr : (resolve r.access o root e w).1 = .ok result) {m : Match} (hm : m ∈ result.found)
    {v : World} (same : v.store = w.store) :
    (nodeAt r.access root m.location v).1 = .ok m.node := by
  obtain ⟨-, rfl⟩ := resolve_eq_ok_iff.1 hr
  rw [nodeAt_eq_ok_iff, same]
  exact (Reading.mem_found_iff.1 hm).follow?

end TreeQuery
