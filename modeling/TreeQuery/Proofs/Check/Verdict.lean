import TreeQuery.Check
import TreeQuery.Notice
import TreeQuery.Proofs.Check.Equality
import TreeQuery.Proofs.Check.Snapshot
import TreeQuery.Proofs.Edit.Revision
import TreeQuery.Proofs.Search.ExactPlace

/-!
# The verdict of a check

A check searches first, so it ends in the error of the search if there is one, whatever was expected. Next
the expected value has to yield items. Then there is a verdict: the check agrees if the trees at the matches
equal the items one by one, and differs otherwise. The order of the members of an object has no part in it.
-/

namespace TreeQuery

open Text (quoted)

namespace Finder

/-! ### Searching -/

section Compile

variable {path : PathArgument} {w w' : Workspace}

/-- Finding out which search path is asked for leaves the trees alone. -/
theorem store_compile {outcome : Except Error Compiled} (h : compile path w = (outcome, w')) :
    w'.store = w.store := by
  have kept : (compile path w).2.store = w.store := by
    cases path with
    | value v =>
      cases v with
      | scalar content => cases content <;> rfl
      | _ => rfl
    | _ => rfl
  rwa [h] at kept

theorem compile_error {error : Error} (h : (compile path w).1 = .error error) :
    (∃ cause, error = .malformed cause) ∨ error = .argument (.notPath path.typeName) := by
  cases path with
  | expression e => cases h
  | location l => exact .inr (Except.error.inj h).symm
  | value v =>
    cases v with
    | scalar content =>
      cases content with
      | text text =>
        change ((Cache.compile text ⟨w.cache, w.log⟩).1.mapError Error.malformed) = _ at h
        cases read : (Cache.compile text ⟨w.cache, w.log⟩).1 with
        | ok compiled => rw [read] at h; cases h
        | error cause => rw [read] at h; exact .inl ⟨cause, (Except.error.inj h).symm⟩
      | _ => exact .inr (Except.error.inj h).symm
    | _ => exact .inr (Except.error.inj h).symm

end Compile

section Resolve

variable {settings : Settings} {root : Node} {path : PathArgument} {w w' : Workspace}

theorem resolve_run :
    resolve settings root path w =
      match compile path w with
      | (.ok compiled, v) =>
        onWorld (TreeQuery.resolve settings.access settings.options root compiled.expression) v
      | (.error error, v) => (.error error, v) := by
  rw [resolve, Effect.run_bind]
  rcases compile path w with ⟨_ | _, _⟩ <;> rfl

/-- A search leaves the trees alone. -/
theorem store_resolve {outcome : Except Error Result}
    (h : resolve settings root path w = (outcome, w')) : w'.store = w.store := by
  rw [resolve_run] at h
  rcases hc : compile path w with ⟨_ | compiled, v⟩
  · rw [hc] at h
    cases h
    exact store_compile hc
  · rw [hc] at h
    cases h
    exact (TreeQuery.store_resolve settings.access settings.options root compiled.expression
      v.toWorld).trans (store_compile hc)

variable {r : Reading} {o : Options}

/-- A search fails because of its path or, if it insists on its segments, at an obstacle. -/
theorem resolve_error {error : Error}
    (h : (resolve ⟨r.access, o⟩ root path w).1 = .error error) :
    (∃ cause, error = .malformed cause) ∨ error = .argument (.notPath path.typeName) ∨
      o.strict = true ∧ ∃ place obstacle, error = .unresolved place obstacle := by
  rw [resolve_run] at h
  rcases hc : compile path w with ⟨cause | compiled, v⟩
  · rw [hc] at h
    cases h
    exact (compile_error (congrArg Prod.fst hc)).imp_right .inl
  · rw [hc] at h
    obtain ⟨f, failed, rfl⟩ := resolve_eq_error_iff.1 h
    refine .inr (.inr ⟨?_, f.place, f.obstacle, rfl⟩)
    cases strict : o.strict with
    | true => rfl
    | false =>
      rw [Reading.failure?_lenient strict] at failed
      cases failed

/-- Matches lie below the root of the search. -/
theorem reaches_of_resolve {result : Result}
    (h : (resolve ⟨r.access, o⟩ root path w).1 = .ok result) {m : Match} (hm : m ∈ result.found) :
    w.store.Reaches root m.node := by
  rw [resolve_run] at h
  rcases hc : compile path w with ⟨cause | compiled, v⟩
  · rw [hc] at h
    cases h
  · rw [hc] at h
    obtain ⟨-, rfl⟩ := resolve_eq_ok_iff.1 h
    have there := (Reading.mem_found_iff.1 hm).follow?
    exact ⟨_, store_compile hc ▸ Reading.follow?_store there⟩

end Resolve

end Finder

/-! ### Comparing -/

section Compare

variable {path : PathArgument} {found : List (Location × Value)} {items : List Value}
  (distinct : ∀ m ∈ found, m.2.NamesDistinct)

include distinct

/-- What was found is compared by the equality of trees. -/
theorem equalItems_found_iff :
    equalItems (found.map Prod.snd) items = true ↔
      List.Forall₂ Value.Equals (found.map Prod.snd) items := by
  refine Value.equalItems_iff (fun value hv other => ?_) items
  obtain ⟨m, hm, rfl⟩ := List.mem_map.1 hv
  exact (distinct m hm).equal_iff other

theorem Verdict.of_eq_agrees_iff :
    Verdict.of path found items = .agrees ↔
      List.Forall₂ Value.Equals (found.map Prod.snd) items := by
  rw [← equalItems_found_iff distinct, Verdict.of]
  split <;> simp [*]

theorem Verdict.of_eq_differs (differ : ¬ List.Forall₂ Value.Equals (found.map Prod.snd) items) :
    Verdict.of path found items = .differs ⟨path, items, found⟩ := by
  rw [← equalItems_found_iff distinct] at differ
  rw [Verdict.of, if_neg differ]

end Compare

namespace Finder

variable {settings : Settings} {root : Node} {path : PathArgument} {expected : Value}
  {w w' : Workspace}

/-- A search that fails decides what becomes of the check. -/
theorem check_of_error {error : Error} (h : resolve settings root path w = (.error error, w')) :
    check settings root path expected w = (.error error, w') := by
  rw [check, Effect.run_bind, h]

variable {result : Result} (h : resolve settings root path w = (.ok result, w'))

include h

theorem check_of_items?_eq_none (itemless : expected.items? = none) :
    check settings root path expected w =
      (.error (.refused (.notIterable expected.qualifiedTypeName)), w') := by
  rw [check, Effect.run_bind, h]
  simp only [Value.items, itemless]
  rfl

/-- Otherwise the trees at the matches are compared with the items. -/
theorem check_of_items? {items : List Value} (yields : expected.items? = some items) :
    check settings root path expected w =
      (.ok (.of path (result.found.map fun m => (m.location, w.store.value m.node)) items), w') := by
  rw [check, Effect.run_bind, h]
  simp only [Value.items, yields, ← store_resolve h]
  rfl

end Finder

/-- A check ends in the error of its search whatever was expected: the text is no path, the argument is no
path at all, or the search insists on its segments and meets an obstacle. After a search that succeeds, an
expected value without items is refused for its type. Any other agrees if and only if the trees at the
matches, which are the trees in the store, equal its items one by one, and otherwise the check reports what
differs. The verdict stays the same when members of objects in the items are put in another order. -/
theorem check_verdict (r : Reading) (o : Options) (root : Node) (path : PathArgument) (w : Workspace) :
    let searched : Except Error Result × Workspace := Finder.resolve ⟨r.access, o⟩ root path w
    let checked (expected : Value) : Except Error Verdict × Workspace :=
      Finder.check ⟨r.access, o⟩ root path expected w
    (∀ error w', searched = (.error error, w') →
      (∀ expected, checked expected = (.error error, w')) ∧
      ((∃ cause, error = .malformed cause) ∨ error = .argument (.notPath path.typeName) ∨
        o.strict = true ∧ ∃ place obstacle, error = .unresolved place obstacle)) ∧
    ∀ result w', searched = (.ok result, w') →
      let values := result.nodes.map w.store.value
      (∀ document, w.store.Represents root document →
        ∀ n ∈ result.nodes, w.store.Represents n (w.store.value n)) ∧
      (∀ expected, expected.items? = none → ∃ error : Error, error.errorClass = .fault .type ∧
        error.message = quoted expected.qualifiedTypeName ++ " object is not iterable" ∧
        checked expected = (.error error, w')) ∧
      (∀ expected items, expected.items? = some items →
        (checked expected = (.ok .agrees, w') ↔ List.Forall₂ Value.Equals values items) ∧
        (¬ List.Forall₂ Value.Equals values items → checked expected =
          (.ok (.differs ⟨path, items, result.locations.zip values⟩), w'))) ∧
      ∀ expected expected' items items', expected.items? = some items →
        expected'.items? = some items' → List.Forall₂ Value.Reordered items items' →
        (checked expected = (.ok .agrees, w') ↔ checked expected' = (.ok .agrees, w')) := by
  intro searched checked
  refine ⟨?_, ?_⟩
  · intro error w' failed
    exact ⟨fun expected => Finder.check_of_error failed,
      Finder.resolve_error (congrArg Prod.fst failed)⟩
  · intro result w' succeeded values
    let found := result.found.map fun m => (m.location, w.store.value m.node)
    have trees : found.map Prod.snd = values := by
      simp [found, values, Result.nodes, Function.comp_def]
    have zipped : found = result.locations.zip values := by
      simp [found, values, Result.locations, Result.nodes, List.zip_map']
    have distinct : ∀ m ∈ found, m.2.NamesDistinct := by
      intro e he
      obtain ⟨m, -, rfl⟩ := List.mem_map.1 he
      exact w.store.namesDistinct_treeTo _ m.node
    have verdict : ∀ expected items, expected.items? = some items →
        checked expected = (.ok (.of path found items), w') :=
      fun expected items yields => Finder.check_of_items? succeeded yields
    have agrees : ∀ expected items, expected.items? = some items →
        (checked expected = (.ok .agrees, w') ↔ List.Forall₂ Value.Equals values items) := by
      intro expected items yields
      rw [verdict expected items yields, ← trees]
      simpa using Verdict.of_eq_agrees_iff distinct
    refine ⟨?_, ?_, ?_, ?_⟩
    · intro document represents n hn
      obtain ⟨m, hm, rfl⟩ := List.mem_map.1 hn
      obtain ⟨part, below⟩ := represents.part
        (Finder.reaches_of_resolve (congrArg Prod.fst succeeded) hm)
      exact below.value
    · intro expected itemless
      exact ⟨_, rfl, rfl, Finder.check_of_items?_eq_none succeeded itemless⟩
    · intro expected items yields
      refine ⟨agrees expected items yields, fun differ => ?_⟩
      rw [verdict expected items yields, Verdict.of_eq_differs distinct (trees ▸ differ), zipped]
    · intro expected expected' items items' yields yields' order
      rw [agrees expected items yields, agrees expected' items' yields']
      exact Value.equals_reordered_iff order

/-- The member that was found is compared with one of another kind of mapping, in which numbers stand for
truth values and the members have another order. -/
theorem check_mapping_with_numbers :
    let loaded := Store.empty.load
      (.array .list [.object .mapping [("x", .scalar (.bool true)), ("y", .text "1")]])
    let path : PathArgument := .expression ⟨[.wildcard]⟩
    let w : Workspace := ⟨⟨loaded.2, #[]⟩, .empty .full Cache.defaultCapacity (by decide)⟩
    let checked (expected : Value) : Except Error Verdict :=
      (Finder.check ⟨Reading.standard.access, {}⟩ loaded.1 path expected w).1
    checked (.array .tuple [.object .frozen [("y", .text "1"), ("x", .int 1)]]) = .ok .agrees ∧
    (∃ report, checked (.text "1") = .ok (.differs report)) ∧
    ∃ error : Error, checked (.int 1) = .error error ∧ error.errorClass = .fault .type := by
  intro loaded path w checked
  obtain ⟨-, succeeded⟩ := check_verdict Reading.standard {} loaded.1 path w
  obtain ⟨-, refused, compared, -⟩ := succeeded _ _ rfl
  obtain ⟨error, sort, -, outcome⟩ := refused (.int 1) rfl
  obtain ⟨agrees, -⟩ :=
    compared (.array .tuple [.object .frozen [("y", .text "1"), ("x", .int 1)]]) _ rfl
  obtain ⟨-, differs⟩ := compared (.text "1") _ rfl
  refine ⟨congrArg Prod.fst (agrees.2 (.cons ?_ .nil)), ⟨_, congrArg Prod.fst (differs ?_)⟩, error,
    congrArg Prod.fst outcome, sort⟩
  · refine (Value.equals_object_iff (by decide)).2 ⟨by decide, rfl, List.forall_mem_cons.2 ⟨?_,
      List.forall_mem_singleton.2 ⟨_, rfl, .text "1"⟩⟩⟩
    exact ⟨_, rfl, .number rfl rfl (by decide)⟩
  · intro same
    cases same with
    | cons first _ => cases first

end TreeQuery
