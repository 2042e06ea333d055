import Mathlib.Data.List.Induction
import TreeQuery.Proofs.Edit.Descent
import TreeQuery.Proofs.Edit.Slots
import TreeQuery.Store.Sharing

/-!
# What edits make of a tree

A revision of a tree says of every container what became of its slots, by the way that leads to it,
and that all other containers are as they were; so it determines the store. In a tree without shared
containers a single write revises the slots at one way only. Steps lead where they led before as
long as no slot on their way is changed.
-/

namespace TreeQuery

theorem Store.ext_cell? {s t : Store} (h : ∀ n, s.cell? n = t.cell? n) : s = t := by
  obtain ⟨cells⟩ := s
  obtain ⟨others⟩ := t
  congr 1
  exact Array.ext_getElem? fun address => h (.container address)

namespace Reading

variable {r : Reading} {s t : Store} {root : Node}

theorem counts_congr {c d : Cell} (h : c.kind = d.kind) : r.counts c = r.counts d := by
  cases c <;> cases d <;> cases h <;> rfl

theorem editable_congr {c d : Cell} (h : c.kind = d.kind) : r.editable c = r.editable d := by
  cases c <;> cases d <;> cases h <;> rfl

/-- A node has children, be it none at all, when it is a container that the reading sees. -/
theorem isSome_children?_iff {n : Node} :
    (r.children? s n).isSome ↔ ∃ cell, s.cell? n = some cell ∧ r.counts cell = true := by
  unfold children? members? elements?
  cases hc : s.cell? n with
  | none => simp
  | some cell =>
    cases cell with
    | array kind items => cases h : r.arrays kind <;> simp [counts, h]
    | object kind members => cases h : r.objects kind <;> simp [counts, h]

variable (r s) in
/-- No container that the reading sees is reached along two ways. -/
def Unshared (n : Node) : Prop :=
  ∀ m p q, (r.children? s m).isSome → r.follow? s n p = some m → r.follow? s n q = some m → p = q

/-- Steps that the reading takes lead to the same node in the store. -/
theorem follow?_store {n m : Node} {steps : List Step} (h : r.follow? s n steps = some m) :
    s.follow? n steps = some m := by
  induction steps generalizing n with
  | nil => exact h
  | cons step rest ih =>
    obtain ⟨child, there, below⟩ := Option.bind_eq_some_iff.1 h
    obtain ⟨cell, hc, -, hs⟩ := child?_eq_some_iff.1 there
    have : s.child? n step = some child := by simp [Store.child?, hc, hs]
    rw [Store.follow?, this, Option.bind_some, ih below]

theorem unshared_of_store {n : Node} (h : s.Unshared n) : r.Unshared s n := by
  intro m p q hm hp hq
  obtain ⟨cell, hc, -⟩ := isSome_children?_iff.1 hm
  cases m with
  | scalar content => cases hc
  | container address => exact h address p q (follow?_store hp) (follow?_store hq)

variable (r s t root) in
/-- The containers of a tree have the slots that `change` makes of their old ones at the way that
leads to them, and all other containers have their old slots. -/
structure Revised (change : List Step → Cell → Cell) : Prop where
  inside : ∀ {steps n}, r.follow? s root steps = some n → t.cell? n = (s.cell? n).map (change steps)
  outside : ∀ {n}, (∀ steps, r.follow? s root steps ≠ some n) → t.cell? n = s.cell? n

namespace Revised

variable {f g : List Step → Cell → Cell}

theorem refl : r.Revised s s root fun _ cell => cell where
  inside _ := by simp
  outside _ := rfl

theorem congr (h : r.Revised s t root f)
    (same : ∀ {steps n cell}, r.follow? s root steps = some n → s.cell? n = some cell →
      f steps cell = g steps cell) : r.Revised s t root g where
  outside := h.outside
  inside {steps n} hn := by
    rw [h.inside hn]
    cases hc : s.cell? n with
    | none => rfl
    | some cell => exact congrArg some (same hn hc)

/-- A revision determines the store. -/
theorem unique {u : Store} (h : r.Revised s t root f) (k : r.Revised s u root f) : t = u := by
  refine Store.ext_cell? fun n => ?_
  by_cases hn : ∃ steps, r.follow? s root steps = some n
  · obtain ⟨steps, hn⟩ := hn
    rw [h.inside hn, k.inside hn]
  · have apart : ∀ steps, r.follow? s root steps ≠ some n := not_exists.1 hn
    rw [h.outside apart, k.outside apart]

/-- A container that is reached has the slots of its way. -/
theorem cell? (h : r.Revised s t root f) {steps : List Step} {n : Node} {cell : Cell}
    (hn : r.follow? s root steps = some n) (hc : s.cell? n = some cell) :
    t.cell? n = some (f steps cell) := by
  rw [h.inside hn, hc, Option.map_some]

/-- A slot that keeps its node, in a container that keeps its kind, holds the same child. -/
theorem child?_eq (h : r.Revised s t root f) (kinds : ∀ steps cell, (f steps cell).kind = cell.kind)
    {steps : List Step} {n : Node} {step : Step} (hn : r.follow? s root steps = some n)
    (same : ∀ cell, s.cell? n = some cell → (f steps cell).child? step = cell.child? step) :
    r.child? t n step = r.child? s n step := by
  rw [Reading.child?_eq, Reading.child?_eq, h.inside hn]
  cases hc : s.cell? n with
  | none => rfl
  | some cell =>
    have counts : r.counts (f steps cell) = r.counts cell := counts_congr (kinds steps cell)
    cases hs : r.counts cell <;> simp [Option.filter, counts, hs, same cell hc]

/-- Steps lead where they led if every slot on the way keeps its node. -/
theorem follow?_eq (h : r.Revised s t root f) (kinds : ∀ steps cell, (f steps cell).kind = cell.kind)
    {steps : List Step} (same : ∀ p step rest, steps = p ++ step :: rest → ∀ n cell,
      r.follow? s root p = some n → s.cell? n = some cell →
        (f p cell).child? step = cell.child? step) :
    r.follow? t root steps = r.follow? s root steps := by
  induction steps using List.reverseRecOn with
  | nil => rfl
  | append_singleton p step ih =>
    have before : r.follow? t root p = r.follow? s root p := by
      refine ih fun q first rest hp => same q first (rest ++ [step]) ?_
      rw [hp, List.append_assoc, List.cons_append]
    rw [follow?_concat, follow?_concat, before]
    cases hn : r.follow? s root p with
    | none => rfl
    | some n => exact h.child?_eq kinds hn fun cell hc => same p step [] rfl n cell hn hc

/-- Giving a container of an unshared tree new slots changes the slots at its way only. -/
theorem write (h : r.Revised s t root f) (unshared : r.Unshared s root) {steps : List Step}
    {address : Nat} (hn : r.follow? s root steps = some (.container address))
    (seen : (r.children? s (.container address)).isSome) (slots : Cell) :
    r.Revised s (t.write address slots) root
      fun p cell => if p = steps then slots else f p cell where
  inside {p m} hm := by
    rw [Store.cell?_write]
    by_cases same : m = .container address
    · have way : p = steps := unshared m p steps (same ▸ seen) hm (same ▸ hn)
      simp [way, ← same, h.inside hm, Function.comp_def]
    · have way : p ≠ steps := by
        rintro rfl
        exact same (Option.some.inj (hm.symm.trans hn))
      simp [way, same, h.inside hm]
  outside {m} apart := by
    have other : m ≠ .container address := by
      rintro rfl
      exact apart steps hn
    rw [Store.cell?_write, if_neg other, h.outside apart]

end Revised

/-! ### One more edit -/

variable (r s root) in
/-- The slot at a location is in a container that can be edited. -/
def EditableAt (place : Location) : Prop :=
  ∃ (holder : Location) (last : Step) (n : Node) (cell : Cell), place = holder.child last ∧
    r.follow? s root holder.steps = some n ∧ s.cell? n = some cell ∧ r.editable cell = true

/-- A location with a node, in a container that can be edited, has a slot in a container that the
reading sees. -/
theorem EditableAt.slot {place : Location} {old : Node} (h : r.EditableAt s root place)
    (there : r.follow? s root place.steps = some old) :
    ∃ (holder : Location) (last : Step) (address : Nat) (cell : Cell), place = holder.child last ∧
      r.follow? s root holder.steps = some (.container address) ∧
      s.cell? (.container address) = some cell ∧ r.counts cell = true ∧
      cell.child? last = some old ∧ r.editable cell = true := by
  obtain ⟨holder, last, n, cell, rfl, hf, hc, he⟩ := h
  obtain ⟨address, _, hf', hc', seen, slot⟩ := exists_slot there
  cases hf.symm.trans hf'
  cases hc.symm.trans hc'
  exact ⟨holder, last, address, cell, rfl, hf, hc, seen, slot, he⟩

namespace Revised

variable {f : List Step → Cell → Cell} {holder : Location} {last : Step} {address : Nat}
  {cell : Cell} {old : Node} (h : r.Revised s t root f) (unshared : r.Unshared s root)
  (kinds : ∀ steps cell, (f steps cell).kind = cell.kind)
  (same : ∀ p step rest, (holder.child last).steps = p ++ step :: rest → ∀ n cell,
    r.follow? s root p = some n → s.cell? n = some cell → (f p cell).child? step = cell.child? step)
  (hn : r.follow? s root holder.steps = some (.container address))
  (hc : s.cell? (.container address) = some cell) (seen : r.counts cell = true)
  (slot : cell.child? last = some old) (editable : r.editable cell = true)

include h hn

include unshared hc in
/-- New slots for the holder of a location revise the tree once more, at one way. -/
theorem write_holder (seen : r.counts cell = true) (edit : Cell → Cell) :
    r.Revised s (t.write address (edit (f holder.steps cell))) root fun p cell =>
      if p = holder.steps then edit (f p cell) else f p cell := by
  have children : (r.children? s (.container address)).isSome :=
    isSome_children?_iff.2 ⟨cell, hc, seen⟩
  refine (h.write unshared hn children _).congr ?_
  intro p n other ho hother
  by_cases way : p = holder.steps
  · subst way
    cases hn.symm.trans ho
    cases hc.symm.trans hother
    simp
  · simp [way]

include kinds same

/-- A container on a way that is as it was is still reached. -/
theorem holder_eq : r.follow? t root holder.steps = some (.container address) := by
  rw [h.follow?_eq kinds, hn]
  intro p step rest hp
  exact same p step (rest ++ [last]) (by simp [Location.child, hp])

include unshared hc seen slot editable

/-- Setting a slot whose way is as it was succeeds and revises the tree once more. -/
theorem set_slot (child : Node) (log : Array Event) :
    ∃ u, setAt r.access root (holder.child last) child ⟨t, log⟩ =
        (.ok (), ⟨u, log.push (.changed (holder.child last))⟩) ∧
      r.Revised s u root fun p cell =>
        if p = holder.steps then (f p cell).put child last else f p cell := by
  have kind := kinds holder.steps cell
  have hs : (f holder.steps cell).child? last = some old := by
    rw [same holder.steps last [] rfl _ _ hn hc, slot]
  have run := setAt_run (w := ⟨t, log⟩) (h.holder_eq kinds same hn) (h.cell? hn hc)
    ((counts_congr kind).trans seen) hs child
  rw [editable_congr kind, editable] at run
  exact ⟨_, run, h.write_holder unshared hn hc seen fun cell => cell.put child last⟩

/-- Removing a slot whose way is as it was gives its node and revises the tree once more. -/
theorem remove_slot (log : Array Event) :
    ∃ u, removeAt r.access root (holder.child last) ⟨t, log⟩ =
        (.ok old, ⟨u, log.push (.removed (holder.child last))⟩) ∧
      r.Revised s u root fun p cell =>
        if p = holder.steps then (f p cell).drop last else f p cell := by
  have kind := kinds holder.steps cell
  have hs : (f holder.steps cell).child? last = some old := by
    rw [same holder.steps last [] rfl _ _ hn hc, slot]
  have run := removeAt_run (w := ⟨t, log⟩) (h.holder_eq kinds same hn) (h.cell? hn hc)
    ((counts_congr kind).trans seen) hs
  rw [editable_congr kind, editable] at run
  exact ⟨_, run, h.write_holder unshared hn hc seen fun cell => cell.drop last⟩

end Revised

end Reading

end TreeQuery
