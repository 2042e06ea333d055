import TreeQuery.Proofs.Access.Attributes
import TreeQuery.Proofs.Search.FirstFailure

/-!
# Every call is allowed

Most operations of an access may be called only where it is known that they can do what they are
asked for. A guarded access looks at that first and refuses any other call, with a cause of one's
choice. Searches and edits do the same through it as without the guard, whatever the access is: they
never call an operation where it is not allowed. So under a reading only few errors can arise.
-/

namespace TreeQuery

namespace Access

/-- A call of an operation that not every node allows. -/
inductive Call
  | hasMember (name : String)
  | member (name : String)
  | members
  | length
  | element (place : Nat)
  | elements
  | setMember (name : String)
  | setElement (place : Nat)
  | removeMember (name : String)
  | removeElement (place : Nat)

variable (a : Access) (s : Store) (n : Node)

/-- Whether a node is an object that has a name, as far as the access tells. -/
def hasName (name : String) : Bool :=
  a.isObject s n &&
    match a.hasMember s n name with
    | .ok there => there
    | .error _ => false

/-- Whether a node is an array that reaches beyond a place, as far as the access tells. -/
def hasPlace (place : Nat) : Bool :=
  a.isArray s n &&
    match a.length s n with
    | .ok count => place < count
    | .error _ => false

/-- Where the operations may be called. -/
def allows : Call → Bool
  | .hasMember _ | .members => a.isObject s n
  | .length | .elements => a.isArray s n
  | .member name | .setMember name | .removeMember name => a.hasName s n name
  | .element place | .setElement place | .removeElement place => a.hasPlace s n place

/-- The reply to a call that is allowed. -/
def check {α : Type} (breach : Refusal) (call : Call) (reply : Except Refusal α) :
    Except Refusal α :=
  if a.allows s n call then reply else .error breach

/-- The access that refuses every call that is not allowed. -/
def guarded (breach : Refusal) : Access where
  isObject := a.isObject
  isArray := a.isArray
  hasMember s n name := a.check s n breach (.hasMember name) (a.hasMember s n name)
  member s n name := a.check s n breach (.member name) (a.member s n name)
  members s n := a.check s n breach .members (a.members s n)
  length s n := a.check s n breach .length (a.length s n)
  element s n place := a.check s n breach (.element place) (a.element s n place)
  elements s n := a.check s n breach .elements (a.elements s n)
  setMember s n name child := a.check s n breach (.setMember name) (a.setMember s n name child)
  setElement s n place child := a.check s n breach (.setElement place) (a.setElement s n place child)
  removeMember s n name := a.check s n breach (.removeMember name) (a.removeMember s n name)
  removeElement s n place := a.check s n breach (.removeElement place) (a.removeElement s n place)

variable {a s n} {breach : Refusal}

theorem check_of_allows {α : Type} {call : Call} (h : a.allows s n call = true)
    (reply : Except Refusal α) : a.check s n breach call reply = reply := if_pos h

/-! ### One call -/

variable (breach) in
theorem member?_guarded (h : a.isObject s n = true) (name : String) :
    (a.guarded breach).member? s n name = a.member? s n name := by
  have object : a.allows s n (.hasMember name) = true := h
  simp only [member?, guarded, check_of_allows object]
  cases there : a.hasMember s n name with
  | error cause => rfl
  | ok there? =>
    cases there? with
    | false => rfl
    | true =>
      have known : a.allows s n (.member name) = true := by simp [allows, hasName, h, there]
      rw [check_of_allows known]

variable (breach) in
theorem element?_guarded (h : a.isArray s n = true) (place : Nat) :
    (a.guarded breach).element? s n place = a.element? s n place := by
  have array : a.allows s n .length = true := h
  simp only [element?, guarded, check_of_allows array]
  cases length : a.length s n with
  | error cause => rfl
  | ok count =>
    show (if place < count then _ else _) = if place < count then _ else _
    split
    · next inside =>
      have known : a.allows s n (.element place) = true := by
        simp [allows, hasPlace, h, length, inside]
      rw [check_of_allows known]
    · rfl

variable (a breach s n) in
theorem children?_guarded : (a.guarded breach).children? s n = a.children? s n := by
  cases object : a.isObject s n with
  | true =>
    have known : a.allows s n .members = true := object
    simp [children?, guarded, object, check_of_allows known]
  | false =>
    cases array : a.isArray s n with
    | true =>
      have known : a.allows s n .elements = true := array
      simp [children?, guarded, object, array, check_of_allows known]
    | false => simp [children?, guarded, object, array]

/-- A child is only found under a name of an object or at a place of an array. -/
theorem has_of_child? {step : Step} {old : Node} (h : a.child? s n step = .ok (some old)) :
    match step with
    | .key name => a.hasName s n name = true
    | .index place => a.hasPlace s n place = true := by
  cases step with
  | key name =>
    cases object : a.isObject s n with
    | false => simp [child?, object, pure, Except.pure] at h
    | true =>
      cases there : a.hasMember s n name with
      | error cause => simp [child?, member?, object, there, bind, Except.bind] at h
      | ok there? =>
        cases there? with
        | true => simp [hasName, object, there]
        | false => simp [child?, member?, object, there, bind, Except.bind, pure, Except.pure] at h
  | index place =>
    cases array : a.isArray s n with
    | false => simp [child?, array, pure, Except.pure] at h
    | true =>
      cases length : a.length s n with
      | error cause => simp [child?, element?, array, length, bind, Except.bind] at h
      | ok count =>
        by_cases inside : place < count
        · simp [hasPlace, array, length, inside]
        · simp [child?, element?, array, length, inside, bind, Except.bind, pure, Except.pure] at h

section Edits

variable {step : Step} {old : Node} (h : a.child? s n step = .ok (some old))

include h

theorem setChild_guarded (child : Node) :
    (a.guarded breach).setChild s n child step = a.setChild s n child step := by
  have has := has_of_child? h
  cases step with
  | key name =>
    have known : a.allows s n (.setMember name) = true := has
    exact check_of_allows known _
  | index place =>
    have known : a.allows s n (.setElement place) = true := has
    exact check_of_allows known _

theorem removeChild_guarded :
    (a.guarded breach).removeChild s n step = a.removeChild s n step := by
  have has := has_of_child? h
  cases step with
  | key name =>
    have known : a.allows s n (.removeMember name) = true := has
    exact check_of_allows known _
  | index place =>
    have known : a.allows s n (.removeElement place) = true := has
    exact check_of_allows known _

end Edits

/-! ### Searches and edits -/

section Guarded

variable (a : Access) (breach : Refusal)

theorem looksUpAs_guarded : LooksUpAs (a.guarded breach) a where
  isObject _ _ := rfl
  isArray _ _ := rfl
  member? object := member?_guarded breach object
  element? array := element?_guarded breach array
  children? s n := children?_guarded a s n breach

theorem setAt_guarded (root : Node) (place : Location) (child : Node) :
    setAt (a.guarded breach) root place child = setAt a root place child := by
  apply (looksUpAs_guarded a breach).setAt
  intro s n last old _ there
  exact setChild_guarded there child

theorem removeAt_guarded (root : Node) (place : Location) :
    removeAt (a.guarded breach) root place = removeAt a root place := by
  apply (looksUpAs_guarded a breach).removeAt
  intro s n last old _ there
  exact removeChild_guarded there

end Guarded

end Access

/-! ### The errors that are left -/

/-- How an edit can fail under a reading: at the root, at a missing slot, or in a container that
counts but cannot be edited. -/
inductive EditError (r : Reading) (operation : String) (place : Location) : Error → Prop
  | root : EditError r operation place (.rootEdit operation)
  | missing (depth : Nat) : EditError r operation place (.notFound place depth)
  | fixed (cell : Cell) (last : Step) (seen : r.counts cell = true)
    (fixed : r.editable cell = false) :
    EditError r operation place (.refused (.notEditable cell.typeName last.shape))

theorem Reading.Ends.editError {α : Type} {r : Reading} {root : Node} {place : Location} {s : Store}
    {ending : Ending} (h : r.Ends root place s ending) {operation : String} {value : Node → α}
    {error : Error} (failed : ending.reply operation place value = .error error) :
    EditError r operation place error := by
  cases h with
  | atRoot =>
    cases failed
    exact .root
  | missing =>
    cases failed
    exact .missing _
  | fixed slot fixed =>
    cases failed
    exact .fixed _ _ slot.seen fixed
  | done => cases failed

/-- An edit that is refused is announced as a fault of type, with a text that says that the container
cannot be changed. -/
theorem EditError.announced {r : Reading} {operation : String} {place : Location} {cause : Refusal}
    (h : EditError r operation place (.refused cause)) :
    (Error.refused cause).errorClass = .fault .type ∧
      ∃ rest, (Error.refused cause).message = "Cannot mutate " ++ rest := by
  cases h with
  | fixed cell last seen fixed =>
    cases last <;> exact ⟨rfl, _, String.append_assoc⟩

/-- How an edit of attributes can fail: as under the record reading, or at a reserved name. -/
inductive AttributeEditError (operation : String) (refusal : Reserved → Refusal) (place : Location) :
    Error → Prop
  | plain {error : Error} (h : EditError .records operation place error) :
    AttributeEditError operation refusal place error
  | reserved {kept : Reserved} (h : place.reserved? = some kept) :
    AttributeEditError operation refusal place (.refused (refusal kept))

/-- From a root in a world, a search through an access fails only if it is strict and meets an obstacle,
and reading fails only at a missing slot, for which a default can stand in. Setting and removing fail
only in the given ways. -/
structure Access.FailsOnly (a : Access) (root : Node) (w : World)
    (setting : Location → Node → Error → Prop) (removing : Location → Error → Prop) : Prop where
  search : ∀ o e error, (resolve a o root e w).1 = .error error →
    o.strict = true ∧ ∃ place obstacle, error = .unresolved place obstacle
  read : ∀ place error, (nodeAt a root place w).1 = .error error →
    ∃ depth, error = .notFound place depth
  readWithDefault : ∀ place default, ∃ n, (nodeAtD a root place default w).1 = .ok n
  set : ∀ place child error, (setAt a root place child w).1 = .error error →
    setting place child error
  remove : ∀ place error, (removeAt a root place w).1 = .error error → removing place error

theorem Reading.failsOnly (r : Reading) (root : Node) (w : World) :
    r.access.FailsOnly root w (fun place _ => EditError r "replace" place)
      (EditError r "remove") where
  search o e error failed := by
    obtain ⟨f, hf, rfl⟩ := resolve_eq_error_iff.1 failed
    refine ⟨?_, f.place, f.obstacle, rfl⟩
    cases strict : o.strict with
    | true => rfl
    | false =>
      rw [Reading.failure?_lenient strict] at hf
      cases hf
  read place error failed := ⟨_, (nodeAt_eq_error_iff.1 failed).2⟩
  readWithDefault place default := by
    cases there : r.follow? w.store root place.steps with
    | some n => exact ⟨n, nodeAtD_eq_ok_iff.2 (.inl there)⟩
    | none => exact ⟨default, nodeAtD_eq_ok_iff.2 (.inr ⟨there, rfl⟩)⟩
  set place child error failed := by
    obtain ⟨ending, ends⟩ := r.exists_ends root place w.store
    exact ends.editError ((ends.setAt child).1.symm.trans failed)
  remove place error failed := by
    obtain ⟨ending, ends⟩ := r.exists_ends root place w.store
    exact ends.editError (ends.removeAt.1.symm.trans failed)

/-- Through the access by attributes all is found as under the record reading, and what an edit refuses
besides is a reserved name. -/
theorem Access.failsOnly_attributes (root : Node) (w : World) :
    attributes.FailsOnly root w
      (fun place child => AttributeEditError "replace" (Reserved.setting w.store child) place)
      (AttributeEditError "remove" Reserved.removal) where
  search o e error failed := by
    rw [looksUpAs_attributes.resolve] at failed
    exact (Reading.records.failsOnly root w).search o e error failed
  read place error failed := by
    rw [looksUpAs_attributes.nodeAt] at failed
    exact (Reading.records.failsOnly root w).read place error failed
  readWithDefault place default := by
    rw [looksUpAs_attributes.nodeAtD]
    exact (Reading.records.failsOnly root w).readWithDefault place default
  set place child error failed := by
    rw [setAt_attributes] at failed
    split at failed
    · next kept _ reserved _ =>
      cases failed
      exact .reserved reserved
    · exact .plain ((Reading.records.failsOnly root w).set place child error failed)
  remove place error failed := by
    rw [removeAt_attributes] at failed
    split at failed
    · next kept _ _ reserved _ =>
      cases failed
      exact .reserved reserved
    · exact .plain ((Reading.records.failsOnly root w).remove place error failed)

end TreeQuery
