import TreeQuery.Proofs.Edit.Descent

/-!
# Accesses that look up alike

Searches and edits reach the nodes of a tree only by looking for children. Two accesses that find the
same children wherever they are asked for some may reply otherwise to any other call, and may edit in
ways of their own. A search then does the same through both, and so does reading; an edit comes to the
same slot, and differs only if the slot is changed differently.
-/

namespace TreeQuery

namespace Access

/-- An access finds the same objects, arrays and children as another one. -/
structure LooksUpAs (b a : Access) : Prop where
  isObject : ∀ s n, b.isObject s n = a.isObject s n
  isArray : ∀ s n, b.isArray s n = a.isArray s n
  member? : ∀ {s n}, a.isObject s n = true → ∀ name, b.member? s n name = a.member? s n name
  element? : ∀ {s n}, a.isArray s n = true → ∀ place, b.element? s n place = a.element? s n place
  children? : ∀ s n, b.children? s n = a.children? s n

namespace LooksUpAs

variable {a b : Access} (h : b.LooksUpAs a)

include h

theorem child? (s : Store) (n : Node) (step : Step) : b.child? s n step = a.child? s n step := by
  cases step with
  | key name =>
    simp only [Access.child?, h.isObject]
    split
    · next object => exact h.member? object name
    · rfl
  | index place =>
    simp only [Access.child?, h.isArray]
    split
    · next array => exact h.element? array place
    · rfl

/-! ### Searches -/

theorem walk (s : Store) (o : Options) (segments : List Segment) (n : Node) (place : Location) :
    TreeQuery.walk b s o segments n place = TreeQuery.walk a s o segments n place := by
  induction segments generalizing n place with
  | nil => rfl
  | cons segment rest ih =>
    cases segment with
    | key name optional =>
      simp only [TreeQuery.walk, h.isObject, ih]
      split
      · next object => rw [h.member? object]
      · rfl
    | index position optional =>
      simp only [TreeQuery.walk, h.isArray, ih]
      split
      · next array => rw [h.element? array]
      · rfl
    | wildcard => simp only [TreeQuery.walk, h.children?, ih]

theorem resolve (o : Options) (root : Node) (e : Expression) :
    TreeQuery.resolve b o root e = TreeQuery.resolve a o root e := by
  funext w
  rw [TreeQuery.resolve, TreeQuery.resolve, h.walk]

/-! ### Reading and editing -/

theorem descend (place : Location) (steps : List Step) (depth : Nat) (n : Node) :
    TreeQuery.descend b place steps depth n = TreeQuery.descend a place steps depth n := by
  induction steps generalizing depth n with
  | nil => rfl
  | cons step rest ih => simp only [TreeQuery.descend, h.child?, ih]

theorem nodeAt (root : Node) (place : Location) :
    TreeQuery.nodeAt b root place = TreeQuery.nodeAt a root place :=
  h.descend place place.steps 0 root

theorem nodeAtD (root : Node) (place : Location) (default : Node) :
    TreeQuery.nodeAtD b root place default = TreeQuery.nodeAtD a root place default := by
  rw [TreeQuery.nodeAtD, TreeQuery.nodeAtD, h.nodeAt]

theorem slotAt (operation : String) (root : Node) (place : Location) :
    TreeQuery.slotAt b operation root place = TreeQuery.slotAt a operation root place := by
  simp only [TreeQuery.slotAt, h.descend, h.child?]

section Edits

variable {root : Node} {place : Location}

/-- Setting does the same through both if they set a child that is there in the same way. -/
theorem setAt {child : Node}
    (same : ∀ {s n last old}, place.last? = some last → a.child? s n last = .ok (some old) →
      b.setChild s n child last = a.setChild s n child last) :
    TreeQuery.setAt b root place child = TreeQuery.setAt a root place child := by
  funext w
  rw [setAt_of_slotAt, setAt_of_slotAt, h.slotAt]
  rcases slot : TreeQuery.slotAt a "replace" root place w with ⟨e | ⟨holder, last⟩, v⟩
  · rfl
  · obtain ⟨last?, old, there⟩ := slot_of_slotAt slot
    simp only [same last? there]

/-- Removing does the same through both if they remove a child that is there in the same way. -/
theorem removeAt
    (same : ∀ {s n last old}, place.last? = some last → a.child? s n last = .ok (some old) →
      b.removeChild s n last = a.removeChild s n last) :
    TreeQuery.removeAt b root place = TreeQuery.removeAt a root place := by
  funext w
  rw [removeAt_of_slotAt, removeAt_of_slotAt, h.slotAt]
  rcases slot : TreeQuery.slotAt a "remove" root place w with ⟨e | ⟨holder, last⟩, v⟩
  · rfl
  · obtain ⟨last?, old, there⟩ := slot_of_slotAt slot
    simp only [same last? there]

end Edits

end LooksUpAs

end Access

end TreeQuery
