import Mathlib.Data.List.Nodup
import TreeQuery.Proofs.Search.Outcome

/-!
# Matches in document order

Without insisting on anything, a search gives exactly the places that its path denotes: each of
them once, with the node that it leads to, and in document order. The children of a container
stand in the order of their ranks, and a match below an earlier child comes before every match
below a later one.
-/

namespace TreeQuery

namespace Reading

variable {r : Reading} {s : Store} {o : Options}

/-! ### Children and their ranks -/

/-- The children of a node are the nodes in its slots. -/
theorem mem_children?_iff {n child : Node} {step : Step} :
    (step, child) ∈ (r.children? s n).getD [] ↔ r.child? s n step = some child := by
  cases hm : r.members? s n with
  | some members =>
    have he : r.elements? s n = none := r.elements?_eq_none s n hm
    cases step with
    | key name => simp [children?, child?, hm, Members.get?_eq_some_iff]
    | index place => simp [children?, child?, hm, he]
  | none =>
    cases he : r.elements? s n with
    | none => cases step <;> simp [children?, child?, hm, he]
    | some array =>
      cases step with
      | key name => simp [children?, child?, hm, he]
      | index place =>
        simp only [children?, child?, hm, he, Option.map_some, Option.getD_some, Option.bind_some,
          List.mem_map, Prod.mk.injEq, Step.index.injEq, Prod.exists, List.mem_zipIdx_iff_getElem?]
        constructor
        · rintro ⟨_, _, h, rfl, rfl⟩
          exact h
        · intro h
          exact ⟨child, place, h, rfl, rfl⟩

/-- No slot is listed twice among the children of a node. -/
theorem nodup_children {n : Node} {children : List (Step × Node)}
    (h : r.children? s n = some children) : (children.map Prod.fst).Nodup := by
  unfold children? at h
  split at h
  · next members _ =>
    cases h
    have steps : (members.entries.map fun e => (Step.key e.1, e.2)).map Prod.fst =
        members.names.map Step.key := by simp [Members.names]
    rw [steps]
    exact members.nodup.map fun a b hab => Step.key.inj hab
  · obtain ⟨array, -, rfl⟩ := Option.map_eq_some_iff.1 h
    have steps : (array.2.zipIdx.map fun e => (Step.index e.2, e.1)).map Prod.fst =
        (List.range' 0 array.2.length).map Step.index := by
      rw [← List.zipIdx_map_snd, List.map_map, List.map_map]
      rfl
    rw [steps]
    exact (List.nodup_range' 1).map fun a b hab => Step.index.inj hab

variable (r s) in
/-- The first of two slots of a node stands before the other. -/
def RanksBefore (n : Node) (a b : Step) : Prop :=
  ∃ i j, r.rank? s n a = some i ∧ r.rank? s n b = some j ∧ i < j

theorem rank?_getElem {n : Node} {children : List (Step × Node)}
    (h : r.children? s n = some children) {i : Nat} (hi : i < children.length) :
    r.rank? s n children[i].1 = some i := by
  have hd := nodup_children h
  rw [rank?, h, Option.bind_some, List.findIdx?_eq_some_iff_getElem]
  refine ⟨hi, by simp, fun j hj => ?_⟩
  have hne := List.pairwise_iff_getElem.1 (List.pairwise_map.1 hd) j i (Nat.lt_trans hj hi) hi hj
  simpa using hne

theorem ranksBefore_children {n : Node} {children : List (Step × Node)}
    (h : r.children? s n = some children) :
    children.Pairwise fun a b => r.RanksBefore s n a.1 b.1 := by
  rw [List.pairwise_iff_getElem]
  intro i j hi hj hij
  exact ⟨i, j, rank?_getElem h hi, rank?_getElem h hj, hij⟩

/-! ### Selected children -/

/-- A segment selects the children that it fits, skipped ones apart. -/
theorem mem_selected_iff {n child : Node} {segment : Segment} {step : Step} :
    (step, child) ∈ r.selected s o n segment ↔
      segment.Fits step ∧ r.child? s n step = some child ∧ o.skips child = false := by
  cases hs : segment.step? with
  | some own =>
    have hf : segment.Fits step ↔ own = step := by
      cases segment <;> simp_all [Segment.Fits, Segment.step?]
    simp only [selected, hs, Option.mem_toList, Option.map_eq_some_iff,
      Options.present_eq_some_iff, Prod.mk.injEq, hf]
    constructor
    · rintro ⟨a, h, rfl, rfl⟩
      exact ⟨rfl, h⟩
    · rintro ⟨rfl, h⟩
      exact ⟨child, h, rfl, rfl⟩
  | none =>
    have hf : segment.Fits step := by
      cases segment with
      | wildcard => trivial
      | _ => cases hs
    simp [selected, hs, hf, mem_children?_iff]

theorem ranksBefore_selected (n : Node) (segment : Segment) :
    (r.selected s o n segment).Pairwise fun a b => r.RanksBefore s n a.1 b.1 := by
  cases hs : segment.step? with
  | some step => cases hp : o.present (r.child? s n step) <;> simp [selected, hs, hp]
  | none =>
    cases hc : r.children? s n with
    | none => simp [selected, hs, hc]
    | some children =>
      simpa [selected, hs, hc] using (ranksBefore_children hc).filter (!o.skips ·.2)

/-! ### Matches -/

/-- The matches below a node are what the segments denote there. -/
theorem mem_found_iff {segments : List Segment} {n : Node} {m : Match} :
    m ∈ r.found s o segments n ↔ r.Denotes s o segments n m.location.steps m.node := by
  induction segments generalizing n m with
  | nil =>
    obtain ⟨⟨steps⟩, node⟩ := m
    constructor
    · intro h
      cases List.mem_singleton.1 h
      exact .nil n
    · intro h
      cases h
      exact List.mem_singleton.2 rfl
  | cons segment rest ih =>
    simp only [found, List.mem_flatMap, List.mem_map]
    constructor
    · rintro ⟨⟨step, child⟩, he, below, hb, rfl⟩
      obtain ⟨fits, there, kept⟩ := mem_selected_iff.1 he
      exact .cons fits there kept (ih.1 hb)
    · obtain ⟨⟨steps⟩, node⟩ := m
      intro h
      cases h with
      | @cons _ _ step steps _ child _ fits there kept below =>
        exact ⟨(step, child), mem_selected_iff.2 ⟨fits, there, kept⟩, ⟨⟨steps⟩, node⟩,
          ih.2 below, rfl⟩

/-- The matches below a node stand in document order. -/
theorem before_found (segments : List Segment) (n : Node) :
    (r.found s o segments n).Pairwise fun a b =>
      r.Before s n a.location.steps b.location.steps := by
  induction segments generalizing n with
  | nil => simp [found]
  | cons segment rest ih =>
    rw [found, List.pairwise_flatMap]
    constructor
    · rintro ⟨step, child⟩ he
      obtain ⟨-, there, -⟩ := mem_selected_iff.1 he
      rw [List.pairwise_map]
      exact (ih child).imp fun h => .later there h
    · apply (ranksBefore_selected n segment).imp
      rintro a b ⟨i, j, hi, hj, lt⟩ x hx y hy
      obtain ⟨x, -, rfl⟩ := List.mem_map.1 hx
      obtain ⟨y, -, rfl⟩ := List.mem_map.1 hy
      exact .here hi hj lt

theorem nodup_found (segments : List Segment) (n : Node) :
    ((r.found s o segments n).map Match.location).Nodup := by
  rw [List.Nodup, List.pairwise_map]
  apply (before_found segments n).imp
  intro a b h hab
  rw [hab] at h
  exact h.irrefl

/-- Nothing ends a walk that insists on nothing. -/
theorem failure?_lenient (h : o.strict = false) (segments : List Segment) (n : Node) :
    r.failure? s o segments n = none := by
  induction segments generalizing n with
  | nil => rfl
  | cons segment rest ih =>
    rw [failure?]
    cases r.obstacle? s o n segment with
    | some obstacle => simp [Options.insists, h]
    | none => simp [ih]

end Reading

/-- A search that insists on nothing gives what is found below its root. -/
theorem resolve_eq_found {r : Reading} {o : Options} {root : Node} {e : Expression} {w : World}
    (h : o.strict = false) :
    (resolve r.access o root e w).1 = .ok ⟨e, r.found w.store o e.segments root⟩ :=
  resolve_eq_ok_iff.2 ⟨Reading.failure?_lenient h e.segments root, rfl⟩

/-- A search that insists on nothing gives the matches that its path denotes, each place once and
all in document order. The root is a match of the empty path, also when it is null. -/
theorem resolve_lenient (r : Reading) (nullAsMissing : Bool) (root : Node) (e : Expression)
    (w : World) :
    ∃ matched : List Match,
      (resolve r.access { strict := false, nullAsMissing } root e w).1 = .ok ⟨e, matched⟩ ∧
      (∀ m, m ∈ matched ↔ r.Denotes w.store { strict := false, nullAsMissing } e.segments root
        m.location.steps m.node) ∧
      (matched.map Match.location).Nodup ∧
      (matched.Pairwise fun a b => r.Before w.store root a.location.steps b.location.steps) ∧
      (e.segments = [] → matched = [⟨.root, root⟩]) := by
  refine ⟨r.found w.store { strict := false, nullAsMissing } e.segments root, ?_, ?_, ?_, ?_, ?_⟩
  · exact resolve_eq_found rfl
  · intro m
    exact Reading.mem_found_iff
  · exact Reading.nodup_found e.segments root
  · exact Reading.before_found e.segments root
  · intro h
    rw [h]
    rfl

end TreeQuery
