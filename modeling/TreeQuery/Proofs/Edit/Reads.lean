import TreeQuery.Proofs.Edit.Outcome
import TreeQuery.Proofs.Edit.Revision

/-!
# Reading after a container was given new slots

Reading at a location comes to a node, or to the number of steps that could be taken. When a container
of an unshared tree gets new slots, only the ways that lead through it can come to something else, and
of these only those that take a slot which has changed: a way that takes a slot with an old child goes on
below that child as it did before.
-/

namespace TreeQuery

theorem Location.steps_append_child (holder rest : Location) (step : Step) :
    ((holder.child step).append rest).steps = holder.steps ++ step :: rest.steps := by
  simp [append, child]

theorem mapError_mapError {ε ζ η α : Type} (x : Except ε α) (f : ε → ζ) (g : ζ → η) :
    (x.mapError f).mapError g = x.mapError fun e => g (f e) := by
  cases x <;> rfl

/-- The same error as told of another location. -/
def Error.toldOf (place : Location) : Error → Error
  | .notFound _ depth => .notFound place depth
  | e => e

namespace Reading

section LookUp

variable (r : Reading) (s : Store)

/-- What reading below a node comes to: the node to which steps lead, or how many can be taken. -/
def lookUp (n : Node) (steps : List Step) : Except Nat Node :=
  match r.follow? s n steps with
  | some m => .ok m
  | none => .error (r.reach s n steps)

variable {r s} {n m : Node} {p : List Step}

theorem lookUp_eq_ok_iff : r.lookUp s n p = .ok m ↔ r.follow? s n p = some m := by
  unfold lookUp
  cases r.follow? s n p <;> simp

theorem lookUp_eq_error_iff {depth : Nat} :
    r.lookUp s n p = .error depth ↔ r.follow? s n p = none ∧ r.reach s n p = depth := by
  unfold lookUp
  cases r.follow? s n p <;> simp

theorem lookUp_cons (n : Node) (step : Step) (rest : List Step) :
    r.lookUp s n (step :: rest) =
      match r.child? s n step with
      | some child => (r.lookUp s child rest).mapError (· + 1)
      | none => .error 0 := by
  unfold lookUp
  cases hc : r.child? s n step with
  | none => simp [follow?, reach, hc]
  | some child =>
    simp only [follow?, reach, hc, Option.bind_some]
    cases r.follow? s child rest <;> rfl

/-- Steps after those that lead to a node are read below that node. -/
theorem lookUp_append (h : r.follow? s n p = some m) (rest : List Step) :
    r.lookUp s n (p ++ rest) = (r.lookUp s m rest).mapError (p.length + ·) := by
  induction p generalizing n with
  | nil =>
    cases h
    rw [List.nil_append]
    cases r.lookUp s m rest <;> simp [Except.mapError]
  | cons step p ih =>
    obtain ⟨child, there, below⟩ := Option.bind_eq_some_iff.1 h
    rw [List.cons_append, lookUp_cons, there]
    simp only [ih below, mapError_mapError, List.length_cons, Nat.add_right_comm]

theorem lookUp_step (h : r.follow? s n p = some m) (step : Step) (rest : List Step) :
    r.lookUp s n (p ++ step :: rest) =
      match r.child? s m step with
      | some child => (r.lookUp s child rest).mapError (p.length + 1 + ·)
      | none => .error p.length := by
  rw [lookUp_append h, lookUp_cons]
  cases r.child? s m step with
  | none => rfl
  | some child => simp only [mapError_mapError, Nat.add_assoc, Nat.add_comm 1]

/-- Reading is the same where the same slots are taken. -/
theorem lookUp_congr {t : Store} {steps : List Step}
    (same : ∀ p step rest, steps = p ++ step :: rest → ∀ m, r.follow? s n p = some m →
      r.child? t m step = r.child? s m step) :
    r.lookUp t n steps = r.lookUp s n steps := by
  induction steps generalizing n with
  | nil => rfl
  | cons step rest ih =>
    rw [lookUp_cons, lookUp_cons, same [] step rest rfl n rfl]
    cases hc : r.child? s n step with
    | none => rfl
    | some child =>
      have below : r.lookUp t child rest = r.lookUp s child rest := by
        apply ih
        intro p other later hp m hm
        apply same (step :: p) other later (by rw [hp, List.cons_append])
        simp [follow?, hc, hm]
      simp only [below]

theorem follow?_eq_of_lookUp {t : Store} {q : List Step} {k : Node}
    (h : r.lookUp t k q = r.lookUp s n p) : r.follow? t k q = r.follow? s n p := by
  apply Option.ext
  intro m
  rw [← lookUp_eq_ok_iff, h, lookUp_eq_ok_iff]

end LookUp

/-! ### New slots for a container -/

section Write

variable {r : Reading} {s : Store} {root : Node} {address : Nat} {cell slots : Cell}

theorem child?_write_of_ne {n : Node} (h : n ≠ .container address) (step : Step) :
    r.child? (s.write address slots) n step = r.child? s n step := by
  rw [child?_eq, child?_eq, Store.cell?_write, if_neg h]

variable (hc : s.cell? (.container address) = some cell) (seen : r.counts cell = true)

include hc seen

theorem child?_of_cell? (step : Step) :
    r.child? s (.container address) step = cell.child? step := by
  rw [child?_eq, hc, Option.filter_some_pos seen, Option.bind_some]

theorem child?_write_self (kind : slots.kind = cell.kind) (step : Step) :
    r.child? (s.write address slots) (.container address) step = slots.child? step := by
  apply child?_of_cell?
  · rw [Store.cell?_write, if_pos rfl, hc, Option.map_some]
  · rw [counts_congr kind, seen]

omit hc seen in
/-- The node in a slot that is found is the one to which the location leads. -/
theorem FindsSlot.follow? {place : Location} {last : Step} {old : Node}
    (slot : r.FindsSlot root place s address cell last old) :
    r.follow? s root place.steps = some old := by
  obtain ⟨⟨holder, rfl, hn⟩, hc, seen, there⟩ := slot
  refine follow?_concat_eq_some_iff.2 ⟨_, hn, ?_⟩
  rw [child?_of_cell? hc seen, there]

variable (unshared : r.Unshared s root) {q : List Step}
  (hn : r.follow? s root q = some (.container address))

include unshared hn

/-- Ways that take no slot of the container are not affected. -/
theorem lookUp_write_elsewhere {steps : List Step} (apart : ∀ step rest, steps ≠ q ++ step :: rest) :
    r.lookUp (s.write address slots) root steps = r.lookUp s root steps := by
  apply lookUp_congr
  intro p step rest hp m hm
  apply child?_write_of_ne
  rintro rfl
  have children : (r.children? s (.container address)).isSome :=
    isSome_children?_iff.2 ⟨cell, hc, seen⟩
  exact apart step rest (unshared _ p q children hm hn ▸ hp)

/-- The container is reached as it was. -/
theorem follow?_write_holder :
    r.follow? (s.write address slots) root q = some (.container address) := by
  rw [← hn]
  apply follow?_eq_of_lookUp
  apply lookUp_write_elsewhere hc seen unshared hn
  intro step rest
  simp

/-- The container is not found again below one of its children. -/
theorem follow?_ne_holder {step : Step} {child : Node} (there : cell.child? step = some child)
    (rest : List Step) : r.follow? s child rest ≠ some (.container address) := by
  intro again
  have children : (r.children? s (.container address)).isSome :=
    isSome_children?_iff.2 ⟨cell, hc, seen⟩
  have twice : r.follow? s root (q ++ step :: rest) = some (.container address) := by
    rw [follow?_append, hn, Option.bind_some, follow?, child?_of_cell? hc seen, there,
      Option.bind_some, again]
  simpa using unshared _ _ _ children twice hn

/-- Nothing changes below the children that the container had. -/
theorem lookUp_write_below {step : Step} {child : Node} (there : cell.child? step = some child)
    (rest : List Step) : r.lookUp (s.write address slots) child rest = r.lookUp s child rest := by
  apply lookUp_congr
  intro p other later _ m hm
  apply child?_write_of_ne
  rintro rfl
  exact follow?_ne_holder hc seen unshared hn there p hm

variable (kind : slots.kind = cell.kind)

include kind

/-- A way through a new slot that holds an old child is what the way through the old slot was. -/
theorem lookUp_write_moved {step other : Step} (same : slots.child? step = cell.child? other)
    (rest : List Step) :
    r.lookUp (s.write address slots) root (q ++ step :: rest) =
      r.lookUp s root (q ++ other :: rest) := by
  rw [lookUp_step (follow?_write_holder hc seen unshared hn), lookUp_step hn,
    child?_write_self hc seen kind, child?_of_cell? hc seen, same]
  cases there : cell.child? other with
  | none => rfl
  | some child => simp only [lookUp_write_below hc seen unshared hn there]

/-- Ways that take no changed slot are not affected. -/
theorem lookUp_write_untouched {steps : List Step}
    (same : ∀ step rest, steps = q ++ step :: rest → slots.child? step = cell.child? step) :
    r.lookUp (s.write address slots) root steps = r.lookUp s root steps := by
  by_cases through : ∃ step rest, steps = q ++ step :: rest
  · obtain ⟨step, rest, rfl⟩ := through
    exact lookUp_write_moved hc seen unshared hn kind (same step rest rfl) rest
  · apply lookUp_write_elsewhere hc seen unshared hn
    intro step rest h
    exact through ⟨step, rest, h⟩

/-- A way through a slot that is gone ends there. -/
theorem lookUp_write_missing {step : Step} (gone : slots.child? step = none) (rest : List Step) :
    r.lookUp (s.write address slots) root (q ++ step :: rest) = .error q.length := by
  rw [lookUp_step (follow?_write_holder hc seen unshared hn), child?_write_self hc seen kind, gone]

end Write

/-! ### Reading at locations -/

variable {r : Reading} {root other : Node} {place there : Location} {w w' : World}

theorem nodeAt_lookUp (r : Reading) (root : Node) (place : Location) (w : World) :
    (nodeAt r.access root place w).1 =
      (r.lookUp w.store root place.steps).mapError (.notFound place) := by
  rw [nodeAt_run, lookUp]
  cases r.follow? w.store root place.steps <;> rfl

theorem nodeAt_of_lookUp
    (h : r.lookUp w'.store root place.steps = r.lookUp w.store other place.steps) :
    (nodeAt r.access root place w').1 = (nodeAt r.access other place w).1 := by
  rw [nodeAt_lookUp, nodeAt_lookUp, h]

/-- Locations at which reading comes to the same give the same node, or errors that tell of the same
depth. -/
theorem nodeAt_toldOf
    (h : r.lookUp w'.store root place.steps = r.lookUp w.store root there.steps) :
    (nodeAt r.access root place w').1 =
      (nodeAt r.access root there w).1.mapError (Error.toldOf place) := by
  rw [nodeAt_lookUp, nodeAt_lookUp, h]
  cases r.lookUp w.store root there.steps <;> rfl

end Reading

/-! ### Edits that succeed -/

variable {r : Reading} {root : Node} {place : Location} {w : World}

/-- Setting succeeds where the slot is found in a container that can be edited. -/
theorem setAt_eq_ok_iff {child : Node} :
    (setAt r.access root place child w).1 = .ok () ↔ ∃ address cell last old,
      r.FindsSlot root place w.store address cell last old ∧ r.editable cell = true := by
  constructor
  · intro h
    obtain ⟨ending, ends⟩ := r.exists_ends root place w.store
    rw [(ends.setAt child).1] at h
    cases ends with
    | done slot editable => exact ⟨_, _, _, _, slot, editable⟩
    | _ => cases h
  · rintro ⟨address, cell, last, old, slot, editable⟩
    rw [slot.setAt, editable]
    rfl

/-- Removing gives the node in the slot, which is found in a container that can be edited. -/
theorem removeAt_eq_ok_iff {old : Node} :
    (removeAt r.access root place w).1 = .ok old ↔ ∃ address cell last,
      r.FindsSlot root place w.store address cell last old ∧ r.editable cell = true := by
  constructor
  · intro h
    obtain ⟨ending, ends⟩ := r.exists_ends root place w.store
    rw [ends.removeAt.1] at h
    cases ends with
    | done slot editable =>
      cases h
      exact ⟨_, _, _, slot, editable⟩
    | _ => cases h
  · rintro ⟨address, cell, last, slot, editable⟩
    rw [slot.removeAt, editable]
    rfl

end TreeQuery
