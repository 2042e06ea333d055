import TreeQuery.Proofs.Search.DocumentOrder

/-!
# Nulls that count as missing

Nothing lies below a null, so passing over nulls on the way loses no match that goes on. What it loses are
the matches that are null themselves, the root apart, which is no child of anything. So the option to
take nulls for missing comes to a choice among the matches of the search that keeps them.
-/

namespace TreeQuery

/-- Items that contribute nothing can be left out. -/
theorem flatMap_filter_of_nil {α β : Type} {f : α → List β} {p : α → Bool} {items : List α}
    (h : ∀ a ∈ items, p a = false → f a = []) : (items.filter p).flatMap f = items.flatMap f := by
  induction items with
  | nil => rfl
  | cons a rest ih =>
    obtain ⟨first, later⟩ := List.forall_mem_cons.1 h
    cases hp : p a with
    | true => rw [List.filter_cons_of_pos hp, List.flatMap_cons, List.flatMap_cons, ih later]
    | false =>
      rw [List.filter_cons_of_neg (by simp [hp]), List.flatMap_cons, first hp, List.nil_append,
        ih later]

namespace Reading

variable {r : Reading} {s : Store} {o : Options}

/-- A null has no children to be selected. -/
theorem selected_null (segment : Segment) : r.selected s o .null segment = [] := by
  cases segment <;> rfl

theorem found_null (segment : Segment) (rest : List Segment) :
    r.found s o (segment :: rest) .null = [] := by
  rw [found, selected_null, List.flatMap_nil]

theorem skips_eq_false (keeps : o.nullAsMissing = false) (n : Node) : o.skips n = false := by
  rw [Options.skips, keeps, Bool.false_and]

theorem skips_eq_isNull (skips : o.nullAsMissing = true) (n : Node) : o.skips n = n.isNull := by
  rw [Options.skips, skips, Bool.true_and]

/-- A match below a child is not the root any more, so it counts by its node alone. That makes no
difference, as only the child itself was the root. -/
theorem filter_under {child : Node} (present : child ≠ .null) (step : Step)
    (segments : List Segment) :
    ((r.found s o segments child).map (·.under ⟨[step]⟩)).filter
        (fun m => m.node ≠ .null ∨ m.location = .root) =
      ((r.found s o segments child).filter fun m => m.node ≠ .null ∨ m.location = .root).map
        (·.under ⟨[step]⟩) := by
  rw [List.filter_map]
  refine congrArg _ (List.filter_congr fun m hm => decide_eq_decide.2 ?_)
  have below : (m.under ⟨[step]⟩).location ≠ .root := by
    simp [Match.under, Location.append, Location.root]
  have here : m.location = .root → m.node ≠ .null := by
    intro root
    have there := (mem_found_iff.1 hm).follow?
    rw [root] at there
    cases there
    exact present
  exact (or_iff_left below).trans (or_iff_left_of_imp here).symm

variable {keeping skipping : Options} (keeps : keeping.nullAsMissing = false)
  (skips : skipping.nullAsMissing = true)

include keeps skips

/-- A search that passes over nulls selects the children that are none. -/
theorem selected_skipping (n : Node) (segment : Segment) :
    r.selected s skipping n segment =
      (r.selected s keeping n segment).filter fun e => !e.2.isNull := by
  cases hs : segment.step? with
  | some step =>
    cases hc : r.child? s n step with
    | none => simp [selected, hs, hc, Options.present]
    | some child =>
      cases hn : child.isNull <;>
        simp [selected, hs, hc, Options.present, Option.filter, skips_eq_false keeps,
          skips_eq_isNull skips, hn]
  | none =>
    simp [selected, hs, skips_eq_false keeps, skips_eq_isNull skips]

/-- Passing over nulls on the way drops the matches below the root that are null, and no others. -/
theorem found_skipping (segments : List Segment) (n : Node) :
    r.found s skipping segments n =
      (r.found s keeping segments n).filter fun m => m.node ≠ .null ∨ m.location = .root := by
  induction segments generalizing n with
  | nil => simp [found]
  | cons segment rest ih =>
    rw [found, found, selected_skipping keeps skips, List.filter_flatMap]
    have nothing : ∀ e ∈ r.selected s keeping n segment, (!e.2.isNull) = false →
        ((r.found s keeping rest e.2).map (·.under ⟨[e.1]⟩)).filter
          (fun m => m.node ≠ .null ∨ m.location = .root) = [] := by
      rintro ⟨step, child⟩ - hn
      have hn : child = .null := by simpa [Node.isNull] using hn
      subst hn
      cases rest with
      | nil => rfl
      | cons next rest => simp [found_null]
    rw [← flatMap_filter_of_nil nothing]
    refine List.flatMap_congr fun e he => ?_
    have present : e.2 ≠ .null := by
      simpa [Node.isNull] using (List.mem_filter.1 he).2
    rw [filter_under present, ih]

end Reading

/-- A search that takes nulls for missing and insists on nothing gives those matches of the search that
keeps nulls which are not null or are the root, in the same order. -/
theorem resolve_nulls_missing (r : Reading) (root : Node) (e : Expression) (w : World) :
    ∃ matched : List Match,
      (resolve r.access { strict := false, nullAsMissing := false } root e w).1 = .ok ⟨e, matched⟩ ∧
      (resolve r.access { strict := false, nullAsMissing := true } root e w).1 =
        .ok ⟨e, matched.filter fun m => m.node ≠ .null ∨ m.location = .root⟩ := by
  let keeping : Options := { strict := false, nullAsMissing := false }
  let skipping : Options := { strict := false, nullAsMissing := true }
  have found : r.found w.store skipping e.segments root =
      (r.found w.store keeping e.segments root).filter
        fun m => m.node ≠ .null ∨ m.location = .root :=
    Reading.found_skipping rfl rfl e.segments root
  refine ⟨r.found w.store keeping e.segments root, resolve_eq_found rfl, ?_⟩
  rw [resolve_eq_found rfl, found]

end TreeQuery
