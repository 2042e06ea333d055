import TreeQuery.Query.Denotation
import TreeQuery.Query.Edit

/-!
# Following a location

Every action at a location follows its steps from the root. What that comes to depends on the
store alone: the node to which all steps lead or, where a slot is missing, the number of steps
that could be taken. The equations here give the outcome of each action together with the world
that it leaves, so later proofs need not open the actions again.
-/

namespace TreeQuery

namespace Reading

variable (r : Reading) (s : Store)

/-- How many steps can be taken from a node before a slot is missing. -/
def reach : Node → List Step → Nat
  | _, [] => 0
  | n, step :: rest =>
    match r.child? s n step with
    | some child => reach child rest + 1
    | none => 0

variable {r s}

/-- Steps lead nowhere when not all of them can be taken. -/
theorem follow?_eq_none_iff {n : Node} {steps : List Step} :
    r.follow? s n steps = none ↔ r.reach s n steps < steps.length := by
  induction steps generalizing n with
  | nil => simp [follow?]
  | cons step rest ih =>
    cases h : r.child? s n step with
    | none => simp [follow?, reach, h]
    | some child => simpa [follow?, reach, h] using ih

/-- One more step leads to the child in its slot. -/
theorem follow?_concat {n : Node} {steps : List Step} {step : Step} :
    r.follow? s n (steps ++ [step]) = (r.follow? s n steps).bind (r.child? s · step) := by
  rw [follow?_append]
  cases r.follow? s n steps with
  | none => rfl
  | some m => simp [follow?]

theorem follow?_concat_eq_some_iff {n m : Node} {steps : List Step} {step : Step} :
    r.follow? s n (steps ++ [step]) = some m ↔
      ∃ holder, r.follow? s n steps = some holder ∧ r.child? s holder step = some m := by
  rw [follow?_concat, Option.bind_eq_some_iff]

/-- Where the last of some steps finds no slot, all steps before it could be taken. -/
theorem reach_concat {n holder : Node} {steps : List Step} {step : Step}
    (hf : r.follow? s n steps = some holder) (hc : r.child? s holder step = none) :
    r.reach s n (steps ++ [step]) = steps.length := by
  induction steps generalizing n with
  | nil =>
    cases hf
    simp [reach, hc]
  | cons first rest ih =>
    obtain ⟨child, there, below⟩ := Option.bind_eq_some_iff.1 hf
    simp [reach, there, ih below]

/-- Steps that lead nowhere reach as far as they do with further ones after them. -/
theorem reach_append {n : Node} {p q : List Step} (h : r.follow? s n p = none) :
    r.reach s n (p ++ q) = r.reach s n p := by
  induction p generalizing n with
  | nil => cases h
  | cons first rest ih =>
    cases hc : r.child? s n first with
    | none => simp [reach, hc]
    | some child =>
      have below : r.follow? s child rest = none := by simpa [follow?, hc] using h
      simp [reach, hc, ih below]

/-- The child in a slot is what the container holds there, if the reading sees the container. -/
theorem child?_eq_some_iff {n child : Node} {step : Step} :
    r.child? s n step = some child ↔
      ∃ cell, s.cell? n = some cell ∧ r.counts cell = true ∧ cell.child? step = some child := by
  simp [child?_eq, Option.bind_eq_some_iff, Option.filter_eq_some_iff, and_assoc]

/-- A node at a location below the root lies in a slot of a container that the reading sees. -/
theorem exists_slot {root old : Node} {holder : Location} {last : Step}
    (h : r.follow? s root (holder.child last).steps = some old) :
    ∃ address cell, r.follow? s root holder.steps = some (.container address) ∧
      s.cell? (.container address) = some cell ∧ r.counts cell = true ∧
      cell.child? last = some old := by
  obtain ⟨n, hn, hs⟩ := follow?_concat_eq_some_iff.1 h
  obtain ⟨cell, hc, seen, slot⟩ := child?_eq_some_iff.1 hs
  cases n with
  | scalar content => cases hc
  | container address => exact ⟨address, cell, hn, hc, seen, slot⟩

end Reading

/-! ### Running the actions -/

theorem reportMissing_run {α : Type} (place : Location) (depth : Nat) (w : World) :
    (reportMissing place depth : Action α) w =
      (.error (.notFound place depth), { w with log := w.log.push (.notFound place depth) }) := rfl

section Access

variable {a : Access} {root : Node} {place : Location} {w : World}

/-- A slot that is found is that of the last step, and it holds a child. -/
theorem slot_of_slotAt {operation : String} {holder : Node} {last : Step} {v : World}
    (h : slotAt a operation root place w = (.ok (holder, last), v)) :
    place.last? = some last ∧ ∃ old, a.child? v.store holder last = .ok (some old) := by
  cases found : place.last? with
  | none =>
    rw [slotAt, found] at h
    cases h
  | some step =>
    rw [slotAt, found] at h
    obtain ⟨n, t, -, h⟩ := Effect.run_bind_eq_ok.1 h
    rw [Effect.run_bind, Action.read_run] at h
    cases child : a.child? t.store n step with
    | error cause =>
      simp only [child] at h
      cases h
    | ok child? =>
      cases child? with
      | none =>
        simp only [child, reportMissing_run] at h
        cases h
      | some old =>
        simp only [child, Effect.run_pure] at h
        cases h
        exact ⟨rfl, old, child⟩

/-- Setting a node is finding the slot and changing it. -/
theorem setAt_of_slotAt (child : Node) :
    setAt a root place child w =
      match slotAt a "replace" root place w with
      | (.error e, v) => (.error e, v)
      | (.ok (holder, last), v) =>
        match a.setChild v.store holder child last with
        | .ok s => (.ok (), ⟨s, v.log.push (.changed place)⟩)
        | .error cause => (.error (.refused cause), v) := by
  rw [setAt, Effect.run_bind]
  rcases slotAt a "replace" root place w with ⟨e | ⟨holder, last⟩, v⟩
  · rfl
  · simp only [Effect.run_bind, Action.read_run]
    cases a.setChild v.store holder child last <;> rfl

/-- Removing a node is finding the slot and taking it away. -/
theorem removeAt_of_slotAt :
    removeAt a root place w =
      match slotAt a "remove" root place w with
      | (.error e, v) => (.error e, v)
      | (.ok (holder, last), v) =>
        match a.removeChild v.store holder last with
        | .ok (old, s) => (.ok old, ⟨s, v.log.push (.removed place)⟩)
        | .error cause => (.error (.refused cause), v) := by
  rw [removeAt, Effect.run_bind]
  rcases slotAt a "remove" root place w with ⟨e | ⟨holder, last⟩, v⟩
  · rfl
  · simp only [Effect.run_bind, Action.read_run]
    cases a.removeChild v.store holder last <;> rfl

end Access

variable {r : Reading} {place : Location} {root : Node} {w : World}

/-- Following steps ends at the node to which they lead, or is reported where they stop. -/
theorem descend_run (place : Location) (steps : List Step) (depth : Nat) (n : Node) (w : World) :
    descend r.access place steps depth n w =
      match r.follow? w.store n steps with
      | some m => (.ok m, w)
      | none => reportMissing place (depth + r.reach w.store n steps) w := by
  induction steps generalizing n depth with
  | nil => rfl
  | cons step rest ih =>
    rw [descend, Effect.run_bind, Action.read_run, Reading.access_child?]
    cases hc : r.child? w.store n step with
    | none => simp [Reading.follow?, Reading.reach, hc]
    | some child =>
      simp only [Reading.follow?, Reading.reach, hc, Option.bind_some, ih, Nat.add_assoc,
        Nat.add_comm 1]

/-- The node at a location is the one to which its steps lead. -/
theorem nodeAt_run (r : Reading) (root : Node) (place : Location) (w : World) :
    nodeAt r.access root place w =
      match r.follow? w.store root place.steps with
      | some n => (.ok n, w)
      | none => reportMissing place (r.reach w.store root place.steps) w := by
  rw [nodeAt, descend_run, Nat.zero_add]

theorem nodeAt_eq_ok_iff {n : Node} :
    (nodeAt r.access root place w).1 = .ok n ↔ r.follow? w.store root place.steps = some n := by
  rw [nodeAt_run]
  cases r.follow? w.store root place.steps with
  | none => simp [reportMissing_run]
  | some m => simp

theorem nodeAt_eq_error_iff {e : Error} :
    (nodeAt r.access root place w).1 = .error e ↔
      r.follow? w.store root place.steps = none ∧
        e = .notFound place (r.reach w.store root place.steps) := by
  rw [nodeAt_run]
  cases r.follow? w.store root place.steps with
  | none => simp [reportMissing_run, eq_comm]
  | some m => simp

/-- A default stands in exactly where the location cannot be followed. -/
theorem nodeAtD_eq_ok_iff {default n : Node} :
    (nodeAtD r.access root place default w).1 = .ok n ↔
      r.follow? w.store root place.steps = some n ∨
        r.follow? w.store root place.steps = none ∧ n = default := by
  rw [nodeAtD, Effect.run_tryCatch, nodeAt_run]
  cases r.follow? w.store root place.steps with
  | none => simp [reportMissing_run, Effect.run_pure, eq_comm]
  | some m => simp

/-- The slot at a location below the root is there when the whole location can be followed. -/
theorem slotAt_run (operation : String) (holder : Location) (last : Step) :
    slotAt r.access operation root (holder.child last) w =
      match r.follow? w.store root holder.steps, r.follow? w.store root (holder.child last).steps with
      | some n, some _ => (.ok (n, last), w)
      | _, _ => reportMissing (holder.child last)
          (r.reach w.store root (holder.child last).steps) w := by
  have before : (holder.child last).steps.dropLast = holder.steps := by simp [Location.child]
  have whole : (holder.child last).steps = holder.steps ++ [last] := rfl
  rw [slotAt, Location.last?_child, before]
  simp only
  rw [Effect.run_bind, descend_run, Nat.zero_add]
  cases hf : r.follow? w.store root holder.steps with
  | none => simp [reportMissing_run, whole, Reading.reach_append hf]
  | some n =>
    simp only [Effect.run_bind, Action.read_run, Reading.access_child?]
    cases hc : r.child? w.store n last with
    | some child =>
      have there := Reading.follow?_concat_eq_some_iff.2 ⟨n, hf, hc⟩
      simp [whole, there, Effect.run_pure]
    | none =>
      have missing : r.follow? w.store root (holder.steps ++ [last]) = none := by
        simp [Reading.follow?_concat, hf, hc]
      simp [whole, missing, Reading.reach_concat hf hc, Location.length]

/-! ### Edits of a slot that is there -/

section Edits

variable {holder : Location} {last : Step} {address : Nat} {cell : Cell} {old : Node}
  (hf : r.follow? w.store root holder.steps = some (.container address))
  (hc : w.store.cell? (.container address) = some cell) (seen : r.counts cell = true)
  (there : cell.child? last = some old)

include hf hc seen there

/-- A slot that is there is found, in the container that holds it. -/
theorem slotAt_of_child? (operation : String) :
    slotAt r.access operation root (holder.child last) w = (.ok (.container address, last), w) := by
  have child : r.child? w.store (.container address) last = some old :=
    Reading.child?_eq_some_iff.2 ⟨cell, hc, seen, there⟩
  have whole : r.follow? w.store root (holder.child last).steps = some old :=
    Reading.follow?_concat_eq_some_iff.2 ⟨_, hf, child⟩
  rw [slotAt_run, hf, whole]

theorem setAt_run (child : Node) :
    setAt r.access root (holder.child last) child w =
      if r.editable cell then
        (.ok (), ⟨w.store.write address (cell.put child last),
          w.log.push (.changed (holder.child last))⟩)
      else (.error (.refused (.notEditable cell.typeName last.shape)), w) := by
  have slot := slotAt_of_child? hf hc seen there "replace"
  have edit := r.access_setChild w.store hc there child
  rw [setAt_of_slotAt, slot]
  simp only [edit]
  cases r.editable cell <;> rfl

theorem removeAt_run :
    removeAt r.access root (holder.child last) w =
      if r.editable cell then
        (.ok old, ⟨w.store.write address (cell.drop last),
          w.log.push (.removed (holder.child last))⟩)
      else (.error (.refused (.notEditable cell.typeName last.shape)), w) := by
  have slot := slotAt_of_child? hf hc seen there "remove"
  have edit := r.access_removeChild w.store hc there
  rw [removeAt_of_slotAt, slot]
  simp only [edit]
  cases r.editable cell <;> rfl

end Edits

end TreeQuery
