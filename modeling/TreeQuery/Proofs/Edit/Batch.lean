import TreeQuery.Finder
import TreeQuery.Proofs.Edit.Revision
import TreeQuery.Proofs.Search.DocumentOrder

/-!
# Edits at several locations

Edits are made one after the other, each on the tree that the ones before it left. A run of them
succeeds if each step does, from what the steps before it have established. The locations are those
of matches of one search, so they have the same length, and a slot that is edited never lies on the
way to another one.
-/

namespace TreeQuery

namespace Location

/-- Where a slot on the way to a place has a sibling that lies as deep as the place, the slot is the
place itself. -/
theorem eq_child_of_length {place : Location} {p rest : List Step} {step other : Step}
    (hp : place.steps = p ++ step :: rest)
    (deep : (child ⟨p⟩ other).length = place.length) : place = child ⟨p⟩ step := by
  have nothing : rest = [] := by
    rw [length_child, length, length, hp] at deep
    simpa using deep
  obtain ⟨steps⟩ := place
  simp only at hp
  rw [hp, nothing]
  rfl

end Location

namespace Finder

variable {α : Type} {settings : Settings} {root : Node} {w : Workspace}

theorem remove_run (place : Location) :
    remove settings root (.location place) w =
      let done := removeAt settings.access root place w.toWorld
      (done.1, { w with toWorld := done.2 }) := rfl

theorem set_run (place : Location) (child : Node) :
    set settings root (.location place) child w =
      let done := setAt settings.access root place child w.toWorld
      (done.1, { w with toWorld := done.2 }) := rfl

/-- One location after the other; an error is kept and stops nothing. -/
theorem atEach_cons (run : Location → Finder α) (place : Location) (rest : List Location)
    (w : Workspace) :
    atEach run (place :: rest) w =
      let first := run place w
      let later := atEach run rest first.2
      (later.1.map (first.1 :: ·), later.2) := by
  rw [atEach, Effect.run_bind, Effect.run_tryCatch, Effect.run_bind]
  rcases run place w with ⟨_ | _, u⟩ <;> simp only [Effect.run_pure, Effect.run_bind] <;>
    rcases atEach run rest u with ⟨_ | _, v⟩ <;> rfl

/-- A run over locations in two parts. -/
theorem atEach_append {run : Location → Finder α} {places rest : List Location}
    {outcomes more : List (Except Error α)} {u v : Workspace}
    (first : atEach run places w = (.ok outcomes, u)) (later : atEach run rest u = (.ok more, v)) :
    atEach run (places ++ rest) w = (.ok (outcomes ++ more), v) := by
  induction places generalizing w outcomes with
  | nil =>
    cases first
    exact later
  | cons place places ih =>
    rw [atEach_cons] at first
    rw [List.cons_append, atEach_cons]
    rcases below : atEach run places (run place w).2 with ⟨e | given, t⟩
    · simp only [below] at first
      cases first
    · simp only [below] at first
      cases first
      simp only [ih below]
      rfl

/-- A run over locations succeeds when each step does. What the steps establish may speak of the
locations already done, each of which stands in the relation `R` to those that follow. -/
theorem atEach_ok {run : Location → Finder α} {value : Location → α}
    {established : List Location → Workspace → Prop} {R : Location → Location → Prop}
    {places : List Location} (ordered : places.Pairwise R)
    (step : ∀ done place w, place ∈ places → (∀ d ∈ done, d ∈ places ∧ R d place) →
      established done w →
        ∃ w', run place w = (.ok (value place), w') ∧ established (place :: done) w')
    (start : established [] w) :
    ∃ w', atEach run places w = (.ok (places.map fun place => .ok (value place)), w') ∧
      established places.reverse w' := by
  suffices key : ∀ rest done w, rest.Pairwise R → (∀ d ∈ done, ∀ p ∈ rest, R d p) →
      (∀ p, p ∈ done ∨ p ∈ rest → p ∈ places) → established done w →
        ∃ w', atEach run rest w = (.ok (rest.map fun place => .ok (value place)), w') ∧
          established (rest.reverse ++ done) w' by
    simpa using key places [] w ordered (by simp) (by simp) start
  intro rest
  induction rest with
  | nil =>
    intro done w _ _ _ h
    exact ⟨w, rfl, h⟩
  | cons place rest ih =>
    intro done w hr before among h
    rw [List.pairwise_cons] at hr
    obtain ⟨v, hv, next⟩ := step done place w (among place (.inr List.mem_cons_self))
      (fun d hd => ⟨among d (.inl hd), before d hd place List.mem_cons_self⟩) h
    obtain ⟨w', hw', last⟩ := ih (place :: done) v hr.2
      (fun d hd p hp => by
        rcases List.mem_cons.1 hd with rfl | hd
        · exact hr.1 p hp
        · exact before d hd p (List.mem_cons_of_mem _ hp))
      (fun p hp => among p (by simpa [or_assoc, or_comm, or_left_comm] using hp)) next
    refine ⟨w', ?_, by simpa using last⟩
    simp only [atEach_cons, hv, hw']
    rfl

/-- A run over groups of locations, one group after the other. What a group establishes may speak of
the groups that are done. -/
theorem atEach_flatMap {β : Type} {run : Location → Finder α} {groups : List β}
    {places : β → List Location} {outcomes : β → List (Except Error α)}
    (established : List β → Workspace → Prop)
    (group : ∀ done next rest w, groups = done ++ next :: rest → established done w →
      ∃ w', atEach run (places next) w = (.ok (outcomes next), w') ∧ established (done ++ [next]) w')
    (start : established [] w) :
    ∃ w', atEach run (groups.flatMap places) w = (.ok (groups.flatMap outcomes), w') ∧
      established groups w' := by
  suffices key : ∀ rest done w, groups = done ++ rest → established done w →
      ∃ w', atEach run (rest.flatMap places) w = (.ok (rest.flatMap outcomes), w') ∧
        established (done ++ rest) w' by
    simpa using key groups [] w rfl start
  intro rest
  induction rest with
  | nil =>
    intro done w _ h
    exact ⟨w, rfl, by simpa using h⟩
  | cons next rest ih =>
    intro done w whole h
    obtain ⟨u, first, after⟩ := group done next rest w whole h
    obtain ⟨v, later, last⟩ := ih (done ++ [next]) u (by simp [whole]) after
    refine ⟨v, atEach_append first later, by simpa using last⟩

end Finder

/-! ### The matches of a search -/

section Matches

variable {r : Reading} {o : Options} {root : Node} {e : Expression} {w : World} {result : Result}
  (h : (resolve r.access o root e w).1 = .ok result)

include h

theorem denotes_of_mem_found {m : Match} (hm : m ∈ result.found) :
    r.Denotes w.store o e.segments root m.location.steps m.node := by
  obtain ⟨-, rfl⟩ := resolve_eq_ok_iff.1 h
  exact Reading.mem_found_iff.1 hm

theorem before_of_resolve :
    result.found.Pairwise fun a b => r.Before w.store root a.location.steps b.location.steps := by
  obtain ⟨-, rfl⟩ := resolve_eq_ok_iff.1 h
  exact Reading.before_found e.segments root

theorem nodup_of_resolve : (result.found.map Match.location).Nodup := by
  obtain ⟨-, rfl⟩ := resolve_eq_ok_iff.1 h
  exact Reading.nodup_found e.segments root

end Matches

end TreeQuery
