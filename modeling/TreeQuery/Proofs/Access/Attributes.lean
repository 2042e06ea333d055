import TreeQuery.Attributes
import TreeQuery.Proofs.Access.Lookups
import TreeQuery.Proofs.Edit.Outcome

/-!
# Edits of attributes

The access by attributes looks up as the record reading does, so only an edit can tell the two apart.
It does so in one way: where the record reading would edit a slot of a reserved name, the edit is
refused and nothing changes.
-/

namespace TreeQuery

theorem Access.looksUpAs_attributes : attributes.LooksUpAs Reading.records.access where
  isObject _ _ := rfl
  isArray _ _ := rfl
  member? _ _ := rfl
  element? _ _ := rfl
  children? _ _ := rfl

/-- Whatever counts as a container under the record reading can be edited. -/
theorem Reading.editable_records {cell : Cell} (h : Reading.records.counts cell = true) :
    Reading.records.editable cell = true := by
  cases cell <;> exact h

variable {root : Node} {place : Location} {w : World}

/-- Under the record reading a slot that is found can be edited. -/
theorem edits_of_slotAt_records {operation : String} {holder : Node} {last : Step} {v : World}
    (h : slotAt Reading.records.access operation root place w = (.ok (holder, last), v)) :
    v = w ∧ (∀ child, ∃ s, Reading.records.access.setChild w.store holder child last = .ok s) ∧
      ∃ done, Reading.records.access.removeChild w.store holder last = .ok done := by
  rcases place.eq_root_or_child with rfl | ⟨above, step, rfl⟩
  · cases h
  obtain ⟨-, old, there⟩ := slot_of_slotAt h
  rw [slotAt_run] at h
  split at h
  · cases h
    rw [Reading.access_child?] at there
    obtain ⟨cell, hc, seen, slot⟩ := Reading.child?_eq_some_iff.1 (Except.ok.inj there)
    cases holder with
    | scalar content => cases hc
    | container address =>
      refine ⟨rfl, fun child => ?_, ?_⟩
      · rw [Reading.access_setChild _ _ hc slot, if_pos (Reading.editable_records seen)]
        exact ⟨_, rfl⟩
      · rw [Reading.access_removeChild _ _ hc slot, if_pos (Reading.editable_records seen)]
        exact ⟨_, rfl⟩
  · cases h

/-- A slot of a reserved name is not set; all else is done as under the record reading. -/
theorem setAt_attributes (root : Node) (place : Location) (child : Node) (w : World) :
    setAt .attributes root place child w =
      match place.reserved?, setAt Reading.records.access root place child w with
      | some kept, (.ok _, _) => (.error (.refused (kept.setting w.store child)), w)
      | _, done => done := by
  cases reserved : place.reserved? with
  | none =>
    refine congrFun (Access.looksUpAs_attributes.setAt ?_) w
    intro s n last old last? _
    have free : last.reserved? = none := by simpa [Location.reserved?, last?] using reserved
    rw [Access.setChild_attributes, free]
  | some kept =>
    rw [setAt_of_slotAt, setAt_of_slotAt, Access.looksUpAs_attributes.slotAt]
    rcases slot : slotAt Reading.records.access "replace" root place w with ⟨e | ⟨holder, last⟩, v⟩
    · rfl
    · obtain ⟨rfl, sets, -⟩ := edits_of_slotAt_records slot
      obtain ⟨s, set⟩ := sets child
      have taken : last.reserved? = some kept := by
        simpa [Location.reserved?, (slot_of_slotAt slot).1] using reserved
      simp only [Access.setChild_attributes, taken, set]

/-- A slot of a reserved name is not removed; all else is done as under the record reading. -/
theorem removeAt_attributes (root : Node) (place : Location) (w : World) :
    removeAt .attributes root place w =
      match place.reserved?, removeAt Reading.records.access root place w with
      | some kept, (.ok _, _) => (.error (.refused kept.removal), w)
      | _, done => done := by
  cases reserved : place.reserved? with
  | none =>
    refine congrFun (Access.looksUpAs_attributes.removeAt ?_) w
    intro s n last old last? _
    have free : last.reserved? = none := by simpa [Location.reserved?, last?] using reserved
    rw [Access.removeChild_attributes, free]
  | some kept =>
    rw [removeAt_of_slotAt, removeAt_of_slotAt, Access.looksUpAs_attributes.slotAt]
    rcases slot : slotAt Reading.records.access "remove" root place w with ⟨e | ⟨holder, last⟩, v⟩
    · rfl
    · obtain ⟨rfl, -, done, removed⟩ := edits_of_slotAt_records slot
      have taken : last.reserved? = some kept := by
        simpa [Location.reserved?, (slot_of_slotAt slot).1] using reserved
      simp only [Access.removeChild_attributes, taken, removed]

end TreeQuery
