import TreeQuery.Query.Denotation

/-!
# The outcome of a walk

What a walk records is computed here without a trail: the matches below a node, the failures
that wildcards drop below it, and the failure that ends the walk, if one does. Places are
counted from the node, so the outcome depends neither on how the node was reached nor on what
was recorded before. The main statement is `walk_run`: a walk that fails leaves its trail as it
was, and any other walk adds the matches and the dropped failures to it.
-/

namespace TreeQuery

namespace Location

@[simp] theorem root_append (l : Location) : root.append l = l := rfl

theorem append_assoc (k l m : Location) : (k.append l).append m = k.append (l.append m) := by
  simp [append]

theorem child_eq_append (l : Location) (step : Step) : l.child step = l.append ⟨[step]⟩ := rfl

end Location

/-- A match below a node as one below the root from which a place leads to the node. -/
def Match.under (place : Location) (m : Match) : Match := ⟨place.append m.location, m.node⟩

/-- An obstacle together with the place where it was met. -/
structure Failure where
  place : Location
  obstacle : Obstacle
  deriving DecidableEq

namespace Failure

def under (place : Location) (f : Failure) : Failure := ⟨place.append f.place, f.obstacle⟩

/-- The error by which a failure is reported. -/
def error (f : Failure) : Error := .unresolved f.place f.obstacle

/-- What is recorded of a failure that ends a branch of a wildcard. -/
def event (f : Failure) : Event := .droppedBranch f.error

end Failure

@[simp] theorem Match.under_root (m : Match) : m.under .root = m := rfl

@[simp] theorem Failure.under_root (f : Failure) : f.under .root = f := rfl

theorem Match.under_child (place : Location) (step : Step) (m : Match) :
    m.under (place.child step) = (m.under ⟨[step]⟩).under place := by
  simp [Match.under, Location.child_eq_append, Location.append_assoc]

theorem Failure.under_child (place : Location) (step : Step) (f : Failure) :
    f.under (place.child step) = (f.under ⟨[step]⟩).under place := by
  simp [Failure.under, Location.child_eq_append, Location.append_assoc]

namespace Trail

/-- A trail with further matches and events. -/
def extend (t : Trail) (found : List Match) (log : List Event) : Trail :=
  ⟨t.found ++ found, t.log ++ log⟩

@[simp] theorem extend_nil (t : Trail) : t.extend [] [] = t := by simp [extend]

@[simp] theorem extend_extend (t : Trail) (a b : List Match) (c d : List Event) :
    (t.extend a c).extend b d = t.extend (a ++ b) (c ++ d) := by
  have append_append : ∀ {α : Type} (xs : Array α) (ys zs : List α),
      xs ++ ys ++ zs = xs ++ (ys ++ zs) := fun xs ys zs => Array.ext' (by simp)
  simp only [extend, append_append]

end Trail

theorem Segment.isWildcard_eq_false {segment : Segment} {step : Step}
    (h : segment.step? = some step) : segment.isWildcard = false := by
  cases segment with
  | wildcard => cases h
  | _ => rfl

theorem Options.present_eq_some_iff {o : Options} {child? : Option Node} {child : Node} :
    o.present child? = some child ↔ child? = some child ∧ o.skips child = false := by
  simp [present, Option.filter_eq_some_iff]

namespace Reading

variable (r : Reading) (s : Store) (o : Options)

/-- The children that a segment selects at a node, in order and without skipped ones. -/
def selected (n : Node) (segment : Segment) : List (Step × Node) :=
  match segment.step? with
  | some step => ((o.present (r.child? s n step)).map (step, ·)).toList
  | none => ((r.children? s n).getD []).filter (!o.skips ·.2)

/-- The matches below a node. -/
def found : List Segment → Node → List Match
  | [], n => [⟨.root, n⟩]
  | segment :: rest, n =>
    (r.selected s o n segment).flatMap fun e => (found rest e.2).map (·.under ⟨[e.1]⟩)

/-- The failure that ends a walk from a node. What fails below a wildcard ends a branch only. -/
def failure? : List Segment → Node → Option Failure
  | [], _ => none
  | segment :: rest, n =>
    match r.obstacle? s o n segment with
    | some obstacle => if o.insists segment.isOptional then some ⟨.root, obstacle⟩ else none
    | none =>
      if segment.isWildcard then none
      else (r.selected s o n segment).findSome? fun e =>
        (failure? rest e.2).map (·.under ⟨[e.1]⟩)

/-- The failures that end branches of wildcards below a node. -/
def dropped : List Segment → Node → List Failure
  | [], _ => []
  | segment :: rest, n =>
    (r.selected s o n segment).flatMap fun e =>
      (dropped rest e.2 ++ if segment.isWildcard then (r.failure? s o rest e.2).toList else []).map
        (·.under ⟨[e.1]⟩)

variable {r s o}

/-! ### How a segment fares at a node -/

/-- A segment with a step meets an obstacle exactly where the child is not there to be found. -/
theorem obstacle?_eq_none_iff {n : Node} {segment : Segment} {step : Step}
    (h : segment.step? = some step) :
    r.obstacle? s o n segment = none ↔ ∃ child, o.present (r.child? s n step) = some child := by
  cases segment with
  | key name optional =>
    cases h
    cases hm : r.members? s n with
    | none => simp [obstacle?, child?, hm, Options.present]
    | some members =>
      cases hp : o.present (members.get? name) <;> simp [obstacle?, child?, hm, hp]
  | index place optional =>
    cases h
    cases he : r.elements? s n with
    | none => simp [obstacle?, child?, he, Options.present]
    | some array => cases hp : o.present array.2[place]? <;> simp [obstacle?, child?, he, hp]
  | wildcard => cases h

theorem obstacle?_wildcard (n : Node) :
    r.obstacle? s o n .wildcard = if (r.children? s n).isSome then none else some .notAContainer :=
  rfl

variable (r s o) in
/-- A segment meets an obstacle, finds the child of its step, or is a wildcard with children. -/
theorem obstacle_or_child_or_children (n : Node) (segment : Segment) :
    (∃ obstacle, r.obstacle? s o n segment = some obstacle) ∨
    (∃ step child, segment.step? = some step ∧ o.present (r.child? s n step) = some child) ∨
    (segment = .wildcard ∧ ∃ children, r.children? s n = some children) := by
  rcases Option.eq_none_or_eq_some (r.obstacle? s o n segment) with h | h
  · refine .inr ?_
    cases segment with
    | wildcard =>
      rcases Option.eq_none_or_eq_some (r.children? s n) with hc | hc
      · simp [obstacle?_wildcard, hc] at h
      · exact .inr ⟨rfl, hc⟩
    | key name optional =>
      obtain ⟨child, hp⟩ := (obstacle?_eq_none_iff rfl).1 h
      exact .inl ⟨.key name, child, rfl, hp⟩
    | index place optional =>
      obtain ⟨child, hp⟩ := (obstacle?_eq_none_iff rfl).1 h
      exact .inl ⟨.index place, child, rfl, hp⟩
  · exact .inl h

theorem selected_of_present {n child : Node} {segment : Segment} {step : Step}
    (h : segment.step? = some step) (hp : o.present (r.child? s n step) = some child) :
    r.selected s o n segment = [(step, child)] := by
  simp [selected, h, hp]

theorem selected_wildcard {n : Node} {children : List (Step × Node)}
    (h : r.children? s n = some children) :
    r.selected s o n .wildcard = children.filter (!o.skips ·.2) := by
  simp [selected, Segment.step?, h]

/-- Nothing is selected where a segment meets an obstacle. -/
theorem selected_of_obstacle {n : Node} {segment : Segment} {obstacle : Obstacle}
    (h : r.obstacle? s o n segment = some obstacle) : r.selected s o n segment = [] := by
  cases hs : segment.step? with
  | some step =>
    have hn : o.present (r.child? s n step) = none := by
      rw [← Option.not_isSome_iff_eq_none, Option.isSome_iff_exists,
        ← obstacle?_eq_none_iff hs, h]
      simp
    simp [selected, hs, hn]
  | none =>
    cases segment with
    | key name optional => cases hs
    | index place optional => cases hs
    | wildcard =>
      cases hc : r.children? s n with
      | none => simp [selected, Segment.step?, hc]
      | some children => simp [obstacle?_wildcard, hc] at h

/-! ### The outcome, case by case -/

theorem found_of_obstacle {n : Node} {segment : Segment} {obstacle : Obstacle}
    (h : r.obstacle? s o n segment = some obstacle) (rest : List Segment) :
    r.found s o (segment :: rest) n = [] := by
  simp [found, selected_of_obstacle h]

theorem dropped_of_obstacle {n : Node} {segment : Segment} {obstacle : Obstacle}
    (h : r.obstacle? s o n segment = some obstacle) (rest : List Segment) :
    r.dropped s o (segment :: rest) n = [] := by
  simp [dropped, selected_of_obstacle h]

theorem failure?_of_obstacle {n : Node} {segment : Segment} {obstacle : Obstacle}
    (h : r.obstacle? s o n segment = some obstacle) (rest : List Segment) :
    r.failure? s o (segment :: rest) n =
      if o.insists segment.isOptional then some ⟨.root, obstacle⟩ else none := by
  simp [failure?, h]

section Child

variable {n child : Node} {segment : Segment} {step : Step} (hs : segment.step? = some step)
  (hp : o.present (r.child? s n step) = some child) (rest : List Segment)

include hs hp

theorem found_of_present :
    r.found s o (segment :: rest) n = (r.found s o rest child).map (·.under ⟨[step]⟩) := by
  simp [found, selected_of_present hs hp]

theorem dropped_of_present :
    r.dropped s o (segment :: rest) n = (r.dropped s o rest child).map (·.under ⟨[step]⟩) := by
  simp [dropped, selected_of_present hs hp, Segment.isWildcard_eq_false hs]

theorem failure?_of_present :
    r.failure? s o (segment :: rest) n = (r.failure? s o rest child).map (·.under ⟨[step]⟩) := by
  have h : r.obstacle? s o n segment = none := (obstacle?_eq_none_iff hs).2 ⟨child, hp⟩
  simp [failure?, h, Segment.isWildcard_eq_false hs, selected_of_present hs hp]

end Child

theorem failure?_wildcard {n : Node} {children : List (Step × Node)}
    (h : r.children? s n = some children) (rest : List Segment) :
    r.failure? s o (.wildcard :: rest) n = none := by
  simp [failure?, obstacle?_wildcard, h, Segment.isWildcard]

/-- A walk that fails has found nothing and dropped nothing. -/
theorem nothing_before_failure {segments : List Segment} {n : Node} {f : Failure}
    (h : r.failure? s o segments n = some f) :
    r.found s o segments n = [] ∧ r.dropped s o segments n = [] := by
  induction segments generalizing n f with
  | nil => cases h
  | cons segment rest ih =>
    rcases obstacle_or_child_or_children r s o n segment with
      ⟨obstacle, ho⟩ | ⟨step, child, hs, hp⟩ | ⟨rfl, children, hc⟩
    · exact ⟨found_of_obstacle ho rest, dropped_of_obstacle ho rest⟩
    · rw [failure?_of_present hs hp] at h
      obtain ⟨below, hb, rfl⟩ := Option.map_eq_some_iff.1 h
      obtain ⟨hf, hd⟩ := ih hb
      rw [found_of_present hs hp, dropped_of_present hs hp, hf, hd]
      exact ⟨rfl, rfl⟩
    · rw [failure?_wildcard hc] at h
      cases h

/-- What is found does not depend on whether segments are insisted on. -/
theorem found_congr {a b : Options} (h : a.nullAsMissing = b.nullAsMissing)
    (segments : List Segment) (n : Node) : r.found s a segments n = r.found s b segments n := by
  have skips : a.skips = b.skips := by
    funext child
    rw [Options.skips, Options.skips, h]
  induction segments generalizing n with
  | nil => rfl
  | cons segment rest ih => simp only [found, selected, Options.present, skips, ih]

/-! ### The walk takes the same cases -/

variable (rest : List Segment) (n : Node) (place : Location)

theorem walk_of_obstacle {segment : Segment} {obstacle : Obstacle}
    (h : r.obstacle? s o n segment = some obstacle) :
    walk r.access s o (segment :: rest) n place =
      Walk.fail o segment.isOptional place obstacle := by
  cases segment with
  | key name optional =>
    cases hm : r.members? s n with
    | none => simp_all [walk, obstacle?, Segment.isOptional]
    | some members =>
      cases hp : o.present (members.get? name) <;>
        simp_all [walk, obstacle?, Segment.isOptional, access_member? r s n hm, Walk.read]
  | index position optional =>
    cases he : r.elements? s n with
    | none => simp_all [walk, obstacle?, Segment.isOptional]
    | some array =>
      cases hp : o.present array.2[position]? <;>
        simp_all [walk, obstacle?, Segment.isOptional, access_element? r s n he, Walk.read]
  | wildcard =>
    cases hc : r.children? s n <;> simp_all [walk, obstacle?, Segment.isOptional, Walk.read]

theorem walk_of_present {segment : Segment} {step : Step} {child : Node}
    (hs : segment.step? = some step) (hp : o.present (r.child? s n step) = some child) :
    walk r.access s o (segment :: rest) n place =
      walk r.access s o rest child (place.child step) := by
  cases segment with
  | key name optional =>
    cases hs
    cases hm : r.members? s n with
    | none => simp [child?, hm, Options.present] at hp
    | some members =>
      have hp : o.present (members.get? name) = some child := by simpa [child?, hm] using hp
      simp [walk, hm, access_member? r s n hm, Walk.read, hp]
  | index position optional =>
    cases hs
    cases he : r.elements? s n with
    | none => simp [child?, he, Options.present] at hp
    | some array =>
      have hp : o.present array.2[position]? = some child := by simpa [child?, he] using hp
      simp [walk, he, access_element? r s n he, Walk.read, hp]
  | wildcard => cases hs

theorem walk_wildcard {children : List (Step × Node)} (h : r.children? s n = some children) :
    walk r.access s o (.wildcard :: rest) n place =
      Walk.branches o (fun step child => walk r.access s o rest child (place.child step))
        children := by
  simp [walk, h, Walk.read]

/-! ### Running the walk -/

variable (r s o) in
/-- What a walk comes to when it starts on a trail. -/
def outcome (segments : List Segment) (n : Node) (place : Location) (t : Trail) :
    Except Error Unit × Trail :=
  match r.failure? s o segments n with
  | some f => (.error (f.under place).error, t)
  | none =>
    (.ok (), t.extend ((r.found s o segments n).map (·.under place))
      ((r.dropped s o segments n).map fun f => (f.under place).event))

variable {rest n place}

theorem branch_run {run : Walk Unit} {t : Trail} (h : run t = r.outcome s o rest n place t) :
    Walk.branch run t =
      (.ok (), t.extend ((r.found s o rest n).map (·.under place))
        ((r.dropped s o rest n ++ (r.failure? s o rest n).toList).map
          fun f => (f.under place).event)) := by
  rw [Walk.branch, Effect.run_tryCatch, h, outcome]
  cases hf : r.failure? s o rest n with
  | none => simp
  | some f =>
    obtain ⟨found, dropped⟩ := nothing_before_failure hf
    simp [found, dropped, Failure.error, Failure.event, Walk.record, Effect.run_modify,
      Trail.extend]

theorem branches_run {run : Step → Node → Walk Unit}
    (h : ∀ step child t, run step child t = r.outcome s o rest child (place.child step) t)
    (children : List (Step × Node)) (t : Trail) :
    Walk.branches o run children t =
      (.ok (), t.extend
        ((children.filter (!o.skips ·.2)).flatMap fun e =>
          (r.found s o rest e.2).map (·.under (place.child e.1)))
        ((children.filter (!o.skips ·.2)).flatMap fun e =>
          (r.dropped s o rest e.2 ++ (r.failure? s o rest e.2).toList).map
            fun f => (f.under (place.child e.1)).event)) := by
  induction children generalizing t with
  | nil => simp [Walk.branches, Effect.run_pure]
  | cons e others ih =>
    cases hk : o.skips e.2 with
    | true => simp [Walk.branches, hk, ih]
    | false => simp [Walk.branches, hk, Effect.run_bind, branch_run (h e.1 e.2 t), ih]

/-- A walk comes to its outcome, wherever it starts and whatever was recorded before. -/
theorem walk_run (segments : List Segment) (n : Node) (place : Location) (t : Trail) :
    walk r.access s o segments n place t = r.outcome s o segments n place t := by
  induction segments generalizing n place t with
  | nil => simp [walk, outcome, failure?, found, dropped, Walk.emit, Effect.run_modify,
      Trail.extend, Match.under, Location.append, Location.root]
  | cons segment rest ih =>
    rcases obstacle_or_child_or_children r s o n segment with
      ⟨obstacle, ho⟩ | ⟨step, child, hs, hp⟩ | ⟨rfl, children, hc⟩
    · rw [walk_of_obstacle rest n place ho, outcome, failure?_of_obstacle ho,
        found_of_obstacle ho, dropped_of_obstacle ho, Walk.fail]
      cases o.insists segment.isOptional with
      | true =>
        simp [Effect.run_throw, Failure.error, Failure.under, Location.append, Location.root]
      | false => simp [Effect.run_pure]
    · rw [walk_of_present rest n place hs hp, ih, outcome, outcome, failure?_of_present hs hp,
        found_of_present hs hp, dropped_of_present hs hp]
      cases r.failure? s o rest child with
      | some f => simp [Failure.under_child]
      | none => simp [Match.under_child, Failure.under_child, Function.comp_def]
    · rw [walk_wildcard rest n place hc, branches_run fun step child t => ih child _ t, outcome,
        failure?_wildcard hc]
      simp [found, dropped, selected_wildcard hc, Segment.isWildcard, List.map_flatMap,
        Match.under_child, Failure.under_child, Function.comp_def]

end Reading

/-! ### Searches -/

variable {r : Reading} {o : Options} {root : Node} {e : Expression} {w : World}

/-- A search that fails records nothing. Any other records the failures that end branches, and then how
much it has found. -/
theorem resolve_run :
    resolve r.access o root e w =
      match r.failure? w.store o e.segments root with
      | some f => (.error f.error, w)
      | none =>
        (.ok ⟨e, r.found w.store o e.segments root⟩,
          ⟨w.store, (w.log ++ (r.dropped w.store o e.segments root).map Failure.event).push
            (.resolved e (r.found w.store o e.segments root).length)⟩) := by
  rw [resolve, Reading.walk_run, Reading.outcome]
  cases r.failure? w.store o e.segments root with
  | some f => rfl
  | none => simp [Trail.extend]

/-- A search gives what is found below its root, or the error of the failure that ends it. -/
theorem resolve_outcome :
    (resolve r.access o root e w).1 =
      match r.failure? w.store o e.segments root with
      | some f => .error f.error
      | none => .ok ⟨e, r.found w.store o e.segments root⟩ := by
  rw [resolve_run]
  cases r.failure? w.store o e.segments root <;> rfl

theorem resolve_eq_error_iff {error : Error} :
    (resolve r.access o root e w).1 = .error error ↔
      ∃ f, r.failure? w.store o e.segments root = some f ∧ f.error = error := by
  rw [resolve_outcome]
  cases r.failure? w.store o e.segments root <;> simp

theorem resolve_eq_ok_iff {result : Result} :
    (resolve r.access o root e w).1 = .ok result ↔
      r.failure? w.store o e.segments root = none ∧
        ⟨e, r.found w.store o e.segments root⟩ = result := by
  rw [resolve_outcome]
  cases r.failure? w.store o e.segments root <;> simp

end TreeQuery
