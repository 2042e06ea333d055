import Mathlib.Data.List.Perm.Subperm
import TreeQuery.Data.Equality
import TreeQuery.Proofs.Search.Reordered

/-!
# Equal trees

Two trees are equal when numbers have the same exact value, arrays of one kind equal elements place by
place, and objects the same names with equal values. The comparison that is run goes through the members of
the first object and looks each up in the second. It decides this relation as soon as no object of the
first tree has two members of one name, and trees that are read off a store never have. The order of the
members does not count, at any depth.
-/

namespace TreeQuery

/-- Trees that are equal. The undefined number equals nothing, itself included. -/
inductive Value.Equals : Value → Value → Prop
  | null : Equals (.scalar .null) (.scalar .null)
  | number {a b : Scalar} {number : Number} (first : a.number? = some number)
      (second : b.number? = some number) (defined : number ≠ .undefined) :
      Equals (.scalar a) (.scalar b)
  | text (value : String) : Equals (.scalar (.text value)) (.scalar (.text value))
  | bytes {a b : Scalar} {data : List UInt8} (first : a.data? = some data)
      (second : b.data? = some data) : Equals (.scalar a) (.scalar b)
  | array {kind : ArrayKind} {items items' : List Value} (length : items.length = items'.length)
      (below : ∀ {place : Nat} {item item' : Value}, items[place]? = some item →
        items'[place]? = some item' → Equals item item') :
      Equals (.array kind items) (.array kind items')
  | object {kind kind' : ObjectKind} {members members' : List (String × Value)}
      (comparable : kind = .record ↔ kind' = .record)
      (names : (members.map Prod.fst).Perm (members'.map Prod.fst))
      (below : ∀ {name value value'}, (name, value) ∈ members → (name, value') ∈ members' →
        Equals value value') :
      Equals (.object kind members) (.object kind' members')

/-- No object of a tree has two members of one name. -/
inductive Value.NamesDistinct : Value → Prop
  | scalar (content : Scalar) : NamesDistinct (.scalar content)
  | array {kind : ArrayKind} {items : List Value} (below : ∀ item ∈ items, NamesDistinct item) :
    NamesDistinct (.array kind items)
  | object {kind : ObjectKind} {members : List (String × Value)}
    (nodup : (members.map Prod.fst).Nodup) (below : ∀ e ∈ members, NamesDistinct e.2) :
    NamesDistinct (.object kind members)

/-- Lists that are related at every place are related place by place. -/
theorem forall₂_iff_getElem? {α β : Type} {R : α → β → Prop} {l : List α} {l' : List β} :
    List.Forall₂ R l l' ↔ l.length = l'.length ∧ ∀ {place : Nat} {a : α} {b : β},
      l[place]? = some a → l'[place]? = some b → R a b := by
  constructor
  · intro h
    exact ⟨h.length_eq, rel_of_getElem? h⟩
  · rintro ⟨length, below⟩
    refine List.forall₂_iff_get.2 ⟨length, fun place inside inside' => ?_⟩
    exact below (List.getElem?_eq_getElem inside) (List.getElem?_eq_getElem inside')

namespace Value

/-! ### The comparison that is run -/

theorem number?_eq_none_of_data? {a : Scalar} {data : List UInt8} (h : a.data? = some data) :
    a.number? = none := by
  cases a <;> first | rfl | cases h

/-- Scalars are compared by number, else by the bytes that they hold, else as they are. -/
theorem scalar_equal_iff {a b : Scalar} : a.equal b = true ↔ (scalar a).Equals (scalar b) := by
  constructor
  · intro h
    unfold Scalar.equal at h
    split at h
    · next x y first second =>
      obtain ⟨rfl, defined⟩ := Number.equal_iff.1 h
      exact .number first second defined
    · next noNumber _ =>
      split at h
      · next first second =>
        cases eq_of_beq h
        exact .bytes first second
      · next noData =>
        cases of_decide_eq_true h
        cases a with
        | null => exact .null
        | text value => exact .text value
        | bytes data => exact (noData data data rfl rfl).elim
        | buffer data => exact (noData data data rfl rfl).elim
        | _ => cases noNumber
    · cases h
  · intro h
    cases h with
    | null => rfl
    | number first second defined =>
      simp [Scalar.equal, first, second, Number.equal_iff, defined]
    | text value => simp [Scalar.equal, Scalar.number?, Scalar.data?]
    | bytes first second =>
      simp [Scalar.equal, number?_eq_none_of_data? first, number?_eq_none_of_data? second, first,
        second]

/-- Two sequences are compared item by item. -/
theorem equalItems_iff {items : List Value}
    (below : ∀ item ∈ items, ∀ other, item.equal other = true ↔ item.Equals other)
    (items' : List Value) : equalItems items items' = true ↔ List.Forall₂ Equals items items' := by
  induction items generalizing items' with
  | nil => cases items' <;> simp [equalItems]
  | cons item rest ih =>
    obtain ⟨first, later⟩ := List.forall_mem_cons.1 below
    cases items' with
    | nil => simp [equalItems]
    | cons item' rest' => simp [equalItems, first, ih later]

/-- Every member of the first object is looked up by its name in the second. -/
theorem equalMembers_iff {members : List (String × Value)}
    (below : ∀ e ∈ members, ∀ other, e.2.equal other = true ↔ e.2.Equals other)
    (members' : List (String × Value)) :
    equalMembers members members' = true ↔
      ∀ e ∈ members, ∃ other, Members.lookup e.1 members' = some other ∧ e.2.Equals other := by
  induction members with
  | nil => simp [equalMembers]
  | cons e rest ih =>
    obtain ⟨first, later⟩ := List.forall_mem_cons.1 below
    obtain ⟨name, value⟩ := e
    rw [equalMembers, Bool.and_eq_true, ih later, List.forall_mem_cons]
    cases Members.lookup name members' <;> simp [first]

theorem equals_array_iff {kind kind' : ArrayKind} {items items' : List Value} :
    (array kind items).Equals (array kind' items') ↔
      kind = kind' ∧ List.Forall₂ Equals items items' := by
  rw [forall₂_iff_getElem?]
  constructor
  · intro h
    cases h with
    | array length below => exact ⟨rfl, length, below⟩
  · rintro ⟨rfl, length, below⟩
    exact .array length below

/-- An object without repeated names equals another one of its size in which it finds all its members. -/
theorem equals_object_iff {kind kind' : ObjectKind} {members members' : List (String × Value)}
    (nodup : (members.map Prod.fst).Nodup) :
    (object kind members).Equals (object kind' members') ↔
      (kind = .record ↔ kind' = .record) ∧ members.length = members'.length ∧
      ∀ e ∈ members, ∃ other, Members.lookup e.1 members' = some other ∧ e.2.Equals other := by
  constructor
  · intro h
    cases h with
    | object comparable names below =>
      refine ⟨comparable, by simpa using names.length_eq, fun e he => ?_⟩
      have there : e.1 ∈ members'.map Prod.fst := names.mem_iff.1 (List.mem_map_of_mem he)
      obtain ⟨other, found⟩ := Option.ne_none_iff_exists'.1
        (mt Members.lookup_eq_none_iff.1 (not_not_intro there))
      exact ⟨other, found, below he (Members.mem_of_lookup found)⟩
  · rintro ⟨comparable, length, found⟩
    have names : (members.map Prod.fst).Perm (members'.map Prod.fst) := by
      refine (List.subperm_of_subset nodup fun name hn => ?_).perm_of_length_le (by simp [length])
      obtain ⟨e, he, rfl⟩ := List.mem_map.1 hn
      obtain ⟨other, there, -⟩ := found e he
      exact List.mem_map.2 ⟨_, Members.mem_of_lookup there, rfl⟩
    refine .object comparable names fun here here' => ?_
    obtain ⟨other, there, equals⟩ := found _ here
    rw [Members.lookup_of_mem (names.nodup_iff.1 nodup) here'] at there
    cases there
    exact equals

/-- The comparison decides whether trees are equal. -/
theorem NamesDistinct.equal_iff {v : Value} (h : v.NamesDistinct) (w : Value) :
    v.equal w = true ↔ v.Equals w := by
  induction h generalizing w with
  | scalar content =>
    cases w with
    | scalar other => exact scalar_equal_iff
    | _ => exact ⟨fun h => (by cases h), fun h => (by cases h)⟩
  | array _ ih =>
    cases w with
    | array kind' items' =>
      rw [equal, Bool.and_eq_true, decide_eq_true_iff, equalItems_iff ih, equals_array_iff]
    | _ => exact ⟨fun h => (by cases h), fun h => (by cases h)⟩
  | object nodup _ ih =>
    cases w with
    | object kind' members' =>
      rw [equal, Bool.and_eq_true, Bool.and_eq_true, decide_eq_true_iff, equalMembers_iff ih,
        ObjectKind.comparable, decide_eq_true_iff, equals_object_iff nodup, and_assoc]
    | _ => exact ⟨fun h => (by cases h), fun h => (by cases h)⟩

/-! ### Members in another order -/

/-- A tree equals all trees that differ in the order of members from one that it equals. -/
theorem Equals.reordered {v w w' : Value} (h : v.Equals w) (order : w.Reordered w') :
    v.Equals w' := by
  induction h generalizing w' with
  | null =>
    cases order
    exact .null
  | number first second defined =>
    cases order
    exact .number first second defined
  | text value =>
    cases order
    exact .text value
  | bytes first second =>
    cases order
    exact .bytes first second
  | @array kind items items' length _ ih =>
    cases order with
    | @array _ _ items'' length' below' =>
      refine .array (length.trans length') fun {place _ _} here here' => ?_
      have inside : place < items'.length := length' ▸ (List.getElem?_eq_some_iff.1 here').1
      have between := List.getElem?_eq_getElem inside
      exact ih here between (below' between here')
  | @object kind kind' members members' comparable names _ ih =>
    cases order with
    | @object _ _ members'' names' below' =>
      refine .object comparable (names.trans names') fun {name _ _} here here' => ?_
      have there : name ∈ members'.map Prod.fst := names'.mem_iff.2 (List.mem_map_of_mem here')
      obtain ⟨⟨_, between⟩, hb, rfl⟩ := List.mem_map.1 there
      exact ih here hb (below' hb here')

/-- Items whose members are put in another order equal the same trees. -/
theorem equals_reordered_iff {values items items' : List Value}
    (order : List.Forall₂ Reordered items items') :
    List.Forall₂ Equals values items ↔ List.Forall₂ Equals values items' := by
  induction order generalizing values with
  | nil => rfl
  | cons first _ ih =>
    cases values with
    | nil => simp
    | cons value rest =>
      rw [List.forall₂_cons, List.forall₂_cons, ih]
      exact and_congr_left fun _ => ⟨(·.reordered first), (·.reordered first.symm)⟩

end Value

/-! ### Trees read off a store -/

theorem Store.namesDistinct_treeTo (s : Store) (depth : Nat) (n : Node) :
    (s.treeTo depth n).NamesDistinct := by
  induction depth generalizing n with
  | zero => cases n <;> exact .scalar _
  | succ depth ih =>
    cases n with
    | scalar content => exact .scalar content
    | container address =>
      simp only [treeTo]
      cases s.cell? (.container address) with
      | none => exact .scalar .null
      | some cell =>
        cases cell with
        | array kind items =>
          refine .array fun item hi => ?_
          obtain ⟨child, -, rfl⟩ := List.mem_map.1 hi
          exact ih child
        | object kind members =>
          refine .object (by simpa [Function.comp_def] using members.nodup) fun e he => ?_
          obtain ⟨slot, -, rfl⟩ := List.mem_map.1 he
          exact ih slot.2

end TreeQuery
