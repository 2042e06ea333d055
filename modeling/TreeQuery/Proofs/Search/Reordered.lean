import Mathlib.Data.List.Forall2
import Mathlib.Data.List.Perm.Basic
import TreeQuery.Store.Sharing

/-!
# Members in another order

Two trees may differ in nothing but the order in which their objects keep the members, at any depth. In a
store, where trees may share containers, this means that the same steps lead to nodes in both, which are
the same scalar or containers of one kind with the same slots. The trees that are read off such nodes
differ in the order of members only, and so do trees that are put into stores and did before.
-/

namespace TreeQuery

/-- Trees that differ in the order of members only, at any depth. Members are compared by name, elements
by place. -/
inductive Value.Reordered : Value → Value → Prop
  | scalar (content : Scalar) : Reordered (.scalar content) (.scalar content)
  | array {kind : ArrayKind} {items items' : List Value} (length : items.length = items'.length)
      (below : ∀ {place : Nat} {item item' : Value}, items[place]? = some item →
        items'[place]? = some item' → Reordered item item') :
      Reordered (.array kind items) (.array kind items')
  | object {kind : ObjectKind} {members members' : List (String × Value)}
      (names : (members.map Prod.fst).Perm (members'.map Prod.fst))
      (below : ∀ {name value value'}, (name, value) ∈ members → (name, value') ∈ members' →
        Reordered value value') :
      Reordered (.object kind members) (.object kind members')

section Option

variable {α β : Type} {R : α → β → Prop} {a? : Option α} {b? : Option β}

theorem rel_iff : Option.Rel R a? b? ↔
    (a? = none ∧ b? = none) ∨ ∃ a b, a? = some a ∧ b? = some b ∧ R a b := by
  cases a? <;> cases b? <;> simp

theorem rel_of_isSome (same : a?.isSome = b?.isSome)
    (below : ∀ {a b}, a? = some a → b? = some b → R a b) : Option.Rel R a? b? := by
  cases a? with
  | none =>
    cases b? with
    | none => exact .none
    | some b => cases same
  | some a =>
    cases b? with
    | none => cases same
    | some b => exact .some (below rfl rfl)

theorem isSome_eq_of_rel (h : Option.Rel R a? b?) : a?.isSome = b?.isSome := by
  cases h <;> rfl

theorem exists_of_rel {a : α} (h : Option.Rel R a? b?) (ha : a? = some a) :
    ∃ b, b? = some b ∧ R a b := by
  cases h with
  | none => cases ha
  | @some _ b related =>
    cases ha
    exact ⟨b, rfl, related⟩

theorem rel_swap {R' : β → α → Prop} (h : Option.Rel R a? b?) (swap : ∀ {a b}, R a b → R' b a) :
    Option.Rel R' b? a? := by
  cases h with
  | none => exact .none
  | some related => exact .some (swap related)

end Option

/-- Lists that are related place by place have related elements at every place. -/
theorem rel_of_getElem? {α β : Type} {R : α → β → Prop} {l : List α} {l' : List β}
    (h : List.Forall₂ R l l') {place : Nat} {a : α} {b : β} (ha : l[place]? = some a)
    (hb : l'[place]? = some b) : R a b := by
  obtain ⟨inside, rfl⟩ := List.getElem?_eq_some_iff.1 ha
  obtain ⟨inside', rfl⟩ := List.getElem?_eq_some_iff.1 hb
  exact h.get inside inside'

namespace Members

variable {α : Type}

theorem mem_names_ofList {entries : List (String × α)} {name : String} :
    name ∈ (ofList entries).names ↔ name ∈ entries.map Prod.fst := by
  have key : ∀ (l : List (String × α)) (m : Members α),
      name ∈ (l.foldl (fun m e => m.insert e.1 e.2) m).names ↔
        name ∈ m.names ∨ name ∈ l.map Prod.fst := by
    intro l
    induction l with
    | nil => simp
    | cons e rest ih =>
      intro m
      have inserted : name ∈ (m.insert e.1 e.2).names ↔ name = e.1 ∨ name ∈ m.names := mem_names_put
      rw [List.foldl_cons, ih, inserted, List.map_cons, List.mem_cons]
      constructor
      · rintro ((h | h) | h) <;> simp [h]
      · rintro (h | h | h) <;> simp [h]
  simpa [names, empty, ofList] using key entries empty

theorem names_ofList_perm {entries entries' : List (String × α)}
    (h : (entries.map Prod.fst).Perm (entries'.map Prod.fst)) :
    (ofList entries).names.Perm (ofList entries').names := by
  refine (List.perm_ext_iff_of_nodup (ofList entries).nodup (ofList entries').nodup).2 fun name => ?_
  exact mem_names_ofList.trans (h.mem_iff.trans mem_names_ofList.symm)

variable {β : Type} {R : α → β → Prop}

/-- Dictionaries with the same names have values under the same names. -/
theorem isSome_get?_eq {m : Members α} {m' : Members β} {name : String}
    (h : name ∈ m.names ↔ name ∈ m'.names) : (m.get? name).isSome = (m'.get? name).isSome :=
  Bool.eq_iff_iff.2 (m.contains_iff.trans (h.trans m'.contains_iff.symm))

theorem exists_get?_of_names {m : Members α} {m' : Members β} {name : String} {a : α}
    (same : m.names = m'.names) (h : m.get? name = some a) : ∃ b, m'.get? name = some b := by
  have both : name ∈ m.names ↔ name ∈ m'.names := by rw [same]
  rw [← Option.isSome_iff_exists, ← isSome_get?_eq both, h]
  rfl

/-! ### Entries side by side -/

/-- Two entries have the same name, and their values are related. -/
structure SameName (R : α → β → Prop) (e : String × α) (e' : String × β) : Prop where
  name : e.1 = e'.1
  value : R e.2 e'.2

theorem put_rel {l : List (String × α)} {l' : List (String × β)}
    (h : List.Forall₂ (SameName R) l l') {e : String × α} {e' : String × β} (he : SameName R e e') :
    List.Forall₂ (SameName R) (put e.1 e.2 l) (put e'.1 e'.2 l') := by
  induction h with
  | nil => exact .cons he .nil
  | @cons d d' rest rest' hd below ih =>
    rw [put, put, ← hd.name, ← he.name]
    split
    · exact .cons ⟨rfl, he.value⟩ below
    · exact .cons ⟨rfl, hd.value⟩ (he.name ▸ ih)

theorem ofList_rel {l : List (String × α)} {l' : List (String × β)}
    (h : List.Forall₂ (SameName R) l l') :
    List.Forall₂ (SameName R) (ofList l).entries (ofList l').entries := by
  have key : ∀ (m : Members α) (m' : Members β), List.Forall₂ (SameName R) m.entries m'.entries →
      List.Forall₂ (SameName R) (l.foldl (fun m e => m.insert e.1 e.2) m).entries
        (l'.foldl (fun m e => m.insert e.1 e.2) m').entries := by
    induction h with
    | nil => exact fun m m' same => same
    | cons he _ ih => exact fun m m' same => ih _ _ (put_rel same he)
  exact key empty empty .nil

theorem lookup_rel {l : List (String × α)} {l' : List (String × β)}
    (h : List.Forall₂ (SameName R) l l') (name : String) :
    Option.Rel R (lookup name l) (lookup name l') := by
  induction h with
  | nil => exact .none
  | @cons e e' _ _ he _ ih =>
    rw [lookup, lookup, ← he.name]
    split
    · exact .some he.value
    · exact ih

theorem map_fst_eq_of_rel {l : List (String × α)} {l' : List (String × β)}
    (h : List.Forall₂ (SameName R) l l') : l.map Prod.fst = l'.map Prod.fst := by
  induction h with
  | nil => rfl
  | cons he _ ih => rw [List.map_cons, List.map_cons, he.name, ih]

end Members

namespace Value.Reordered

theorem symm {v w : Value} (h : v.Reordered w) : w.Reordered v := by
  induction h with
  | scalar content => exact .scalar content
  | array length _ ih => exact .array length.symm fun here here' => ih here' here
  | object names _ ih => exact .object names.symm fun here here' => ih here' here

/-- Arrays are compared element by element. -/
theorem array_of_rel {kind : ArrayKind} {items items' : List Value}
    (h : List.Forall₂ Reordered items items') :
    Reordered (.array kind items) (.array kind items') :=
  .array h.length_eq (rel_of_getElem? h)

/-- The members of an object may be exchanged for ones that differ in order themselves, and then permuted. -/
theorem object_of_perm {kind : ObjectKind} {members exchanged members' : List (String × Value)}
    (nodup : (members.map Prod.fst).Nodup)
    (h : List.Forall₂ (Members.SameName Reordered) members exchanged) (perm : exchanged.Perm members') :
    Reordered (.object kind members) (.object kind members') := by
  have names := Members.map_fst_eq_of_rel h
  refine .object (names ▸ perm.map Prod.fst) fun {name _ _} here here' => ?_
  have below := Members.lookup_rel h name
  rw [Members.lookup_of_mem nodup here,
    Members.lookup_of_mem (names ▸ nodup) (perm.mem_iff.2 here')] at below
  exact Option.rel_some_some.1 below

end Value.Reordered

/-! ### In a store -/

/-- Containers of one kind that have the same slots, those of an object in any order. -/
inductive Cell.SameSlots : Cell → Cell → Prop
  | array (kind : ArrayKind) {items items' : List Node} (length : items.length = items'.length) :
      SameSlots (.array kind items) (.array kind items')
  | object (kind : ObjectKind) {members members' : Members Node}
      (names : members.names.Perm members'.names) :
      SameSlots (.object kind members) (.object kind members')

theorem Cell.SameSlots.symm {cell cell' : Cell} (h : cell.SameSlots cell') :
    cell'.SameSlots cell := by
  cases h with
  | array kind length => exact .array kind length.symm
  | object kind names => exact .object kind names.symm

namespace Store

variable (s s' : Store)

/-- The same scalar, or containers with the same slots. -/
inductive SameShape : Node → Node → Prop
  | scalar (content : Scalar) : SameShape (.scalar content) (.scalar content)
  | container {address address' : Nat} (slots : Option.Rel Cell.SameSlots
      (s.cell? (.container address)) (s'.cell? (.container address'))) :
      SameShape (.container address) (.container address')

/-- The same steps lead from two nodes to nodes of the same shape or to nothing in both stores, so the
trees below differ in the order of members only. -/
def Reordered (n n' : Node) : Prop :=
  ∀ steps, Option.Rel (SameShape s s') (s.follow? n steps) (s'.follow? n' steps)

variable {s s'} {n n' : Node}

theorem SameShape.cell? (h : SameShape s s' n n') :
    Option.Rel Cell.SameSlots (s.cell? n) (s'.cell? n') := by
  cases h with
  | scalar content => exact .none
  | container slots => exact slots

theorem SameShape.isNull_eq (h : SameShape s s' n n') : n.isNull = n'.isNull := by
  cases h <;> rfl

theorem SameShape.symm (h : SameShape s s' n n') : SameShape s' s n' n := by
  cases h with
  | scalar content => exact .scalar content
  | container slots => exact .container (rel_swap slots Cell.SameSlots.symm)

namespace Reordered

theorem here (h : Reordered s s' n n') : SameShape s s' n n' := Option.rel_some_some.1 (h [])

theorem symm (h : Reordered s s' n n') : Reordered s' s n' n := by
  intro steps
  exact rel_swap (h steps) SameShape.symm

/-- Trees that differ in the order of members have the same slots at the root, and below these they differ
in that way again. -/
theorem child? (h : Reordered s s' n n') (step : Step) :
    Option.Rel (Reordered s s') (s.child? n step) (s'.child? n' step) := by
  have first : Option.Rel (SameShape s s') (s.child? n step) (s'.child? n' step) := by
    simpa [follow?] using h [step]
  have below := fun steps => h (step :: steps)
  simp only [follow?] at below
  rcases rel_iff.1 first with ⟨hc, hc'⟩ | ⟨child, child', hc, hc', -⟩
  · rw [hc, hc']
    exact .none
  · rw [hc, hc'] at below ⊢
    exact .some below

theorem of_child? (here : SameShape s s' n n')
    (below : ∀ step, Option.Rel (Reordered s s') (s.child? n step) (s'.child? n' step)) :
    Reordered s s' n n' := by
  intro steps
  cases steps with
  | nil => exact .some here
  | cons step rest =>
    rw [follow?, follow?]
    rcases rel_iff.1 (below step) with ⟨hc, hc'⟩ | ⟨child, child', hc, hc', reordered⟩
    · rw [hc, hc']
      exact .none
    · rw [hc, hc']
      exact reordered rest

/-- Arrays whose elements differ in the order of members. -/
theorem of_arrays {address address' : Nat} {kind : ArrayKind} {nodes nodes' : List Node}
    (cell : s.cell? (.container address) = some (.array kind nodes))
    (cell' : s'.cell? (.container address') = some (.array kind nodes'))
    (length : nodes.length = nodes'.length)
    (below : ∀ {place : Nat} {child child' : Node}, nodes[place]? = some child →
      nodes'[place]? = some child' → Reordered s s' child child') :
    Reordered s s' (.container address) (.container address') := by
  refine .of_child? (.container ?_) fun step => ?_
  · rw [cell, cell']
    exact .some (.array kind length)
  · rw [Store.child?, Store.child?, cell, cell']
    cases step with
    | key name => exact .none
    | index place =>
      have same : nodes[place]?.isSome = nodes'[place]?.isSome := by
        by_cases inside : place < nodes.length
        · rw [List.getElem?_eq_getElem inside, List.getElem?_eq_getElem (length ▸ inside)]
          rfl
        · rw [List.getElem?_eq_none (by omega), List.getElem?_eq_none (by omega)]
      exact rel_of_isSome same below

/-- Objects whose members differ in their order and in that of their own members. -/
theorem of_objects {address address' : Nat} {kind : ObjectKind} {nodes nodes' : Members Node}
    (cell : s.cell? (.container address) = some (.object kind nodes))
    (cell' : s'.cell? (.container address') = some (.object kind nodes'))
    (names : nodes.names.Perm nodes'.names)
    (below : ∀ {name : String} {child child' : Node}, nodes.get? name = some child →
      nodes'.get? name = some child' → Reordered s s' child child') :
    Reordered s s' (.container address) (.container address') := by
  refine .of_child? (.container ?_) fun step => ?_
  · rw [cell, cell']
    exact .some (.object kind names)
  · rw [Store.child?, Store.child?, cell, cell']
    cases step with
    | index place => exact .none
    | key name => exact rel_of_isSome (Members.isSome_get?_eq names.mem_iff) below

/-- Children of the two roots in the same slot differ in the order of members only. -/
theorem below (h : Reordered s s' n n') (step : Step) {child child' : Node}
    (hc : s.child? n step = some child) (hc' : s'.child? n' step = some child') :
    Reordered s s' child child' := by
  have related := h.child? step
  rw [hc, hc'] at related
  exact Option.rel_some_some.1 related

/-- The trees that are read off differ in the order of members only, down to every depth. -/
theorem treeTo (h : Reordered s s' n n') (depth : Nat) :
    (s.treeTo depth n).Reordered (s'.treeTo depth n') := by
  induction depth generalizing n n' with
  | zero => cases h.here <;> exact .scalar _
  | succ depth ih =>
    cases h.here with
    | scalar content => exact .scalar content
    | container slots =>
      rcases rel_iff.1 slots with ⟨hc, hc'⟩ | ⟨cell, cell', hc, hc', same⟩
      · simp only [Store.treeTo, hc, hc']
        exact .scalar _
      · simp only [Store.treeTo, hc, hc']
        cases same with
        | array kind length =>
          refine .array (by simpa using length) fun {place} _ _ hi hi' => ?_
          rw [List.getElem?_map, Option.map_eq_some_iff] at hi hi'
          obtain ⟨child, hi, rfl⟩ := hi
          obtain ⟨child', hi', rfl⟩ := hi'
          exact ih (h.below (.index place) (by simp [Store.child?, hc, Cell.child?, hi])
            (by simp [Store.child?, hc', Cell.child?, hi']))
        | @object kind members members' names =>
          refine .object (by simpa [Members.names, Function.comp_def] using names)
            fun he he' => ?_
          obtain ⟨⟨name, child⟩, hm, same⟩ := List.mem_map.1 he
          cases same
          obtain ⟨⟨_, child'⟩, hm', same⟩ := List.mem_map.1 he'
          cases same
          refine ih (h.below (.key name) ?_ ?_)
          · simp [Store.child?, hc, Cell.child?, members.get?_eq_some_iff, hm]
          · simp [Store.child?, hc', Cell.child?, members'.get?_eq_some_iff, hm']

end Reordered

/-! ### Loading -/

/-- The containers below a node represent a tree. Of members with one name the last one counts. -/
inductive Represents (s : Store) : Node → Value → Prop
  | scalar (content : Scalar) : Represents s (.scalar content) (.scalar content)
  | array {address : Nat} {kind : ArrayKind} {nodes : List Node} {items : List Value}
      (cell : s.cell? (.container address) = some (.array kind nodes))
      (length : nodes.length = items.length)
      (below : ∀ {place : Nat} {node : Node} {item : Value}, nodes[place]? = some node →
        items[place]? = some item → Represents s node item) :
      Represents s (.container address) (.array kind items)
  | object {address : Nat} {kind : ObjectKind} {nodes : Members Node}
      {members : List (String × Value)}
      (cell : s.cell? (.container address) = some (.object kind nodes))
      (names : nodes.names = (Members.ofList members).names)
      (below : ∀ {name : String} {node : Node} {value : Value}, nodes.get? name = some node →
        (Members.ofList members).get? name = some value → Represents s node value) :
      Represents s (.container address) (.object kind members)

/-- A tree is still represented when containers are added. -/
theorem Represents.mono {t : Store} {v : Value} (h : s.Represents n v)
    (grown : ∀ {m cell}, s.cell? m = some cell → t.cell? m = some cell) : t.Represents n v := by
  induction h with
  | scalar content => exact .scalar content
  | array cell length _ ih => exact .array (grown cell) length ih
  | object cell names _ ih => exact .object (grown cell) names ih

/-- Nodes that represent trees which differ in the order of members only are roots of such trees. -/
theorem Represents.reordered {v v' : Value} (h : v.Reordered v') (copy : s.Represents n v)
    (copy' : s'.Represents n' v') : Reordered s s' n n' := by
  induction h generalizing n n' with
  | scalar content =>
    cases copy
    cases copy'
    exact .of_child? (.scalar content) fun step => .none
  | @array kind items items' length below ih =>
    cases copy with
    | array cell length_nodes below_nodes =>
      cases copy' with
      | array cell' length_nodes' below_nodes' =>
        refine .of_arrays cell cell' (by omega) fun here here' => ?_
        have inside := (List.getElem?_eq_some_iff.1 here).1
        have item := List.getElem?_eq_getElem (length_nodes ▸ inside)
        have item' := List.getElem?_eq_getElem (length ▸ length_nodes ▸ inside)
        exact ih item item' (below_nodes here item) (below_nodes' here' item')
  | @object kind members members' names below ih =>
    cases copy with
    | object cell names_nodes below_nodes =>
      cases copy' with
      | object cell' names_nodes' below_nodes' =>
        have perm := names_nodes ▸ names_nodes' ▸ Members.names_ofList_perm names
        refine .of_objects cell cell' perm fun here here' => ?_
        obtain ⟨value, there⟩ := Members.exists_get?_of_names names_nodes here
        obtain ⟨value', there'⟩ := Members.exists_get?_of_names names_nodes' here'
        exact ih (Members.mem_of_get?_ofList there) (Members.mem_of_get?_ofList there')
          (below_nodes here there) (below_nodes' here' there')

theorem cell?_push_self (s : Store) (cell : Cell) : (s.push cell).2.cell? (s.push cell).1 = some cell := by
  rw [cell?_push, if_pos rfl]

variable (s) in
theorem cell?_push_of_some (cell : Cell) {m : Node} {old : Cell} (h : s.cell? m = some old) :
    (s.push cell).2.cell? m = some old := by
  rw [cell?_push, if_neg, h]
  rintro rfl
  simp [cell?, push] at h

mutual

/-- Loading keeps the containers that are there. -/
theorem cell?_load : ∀ (v : Value) {s : Store} {m : Node} {cell : Cell}, s.cell? m = some cell →
    (s.load v).2.cell? m = some cell
  | .scalar _, _, _, _, h => h
  | .array _ items, _, _, _, h => cell?_push_of_some _ _ (cell?_loadItems items h)
  | .object _ members, _, _, _, h => cell?_push_of_some _ _ (cell?_loadMembers members h)

theorem cell?_loadItems : ∀ (items : List Value) {s : Store} {m : Node} {cell : Cell},
    s.cell? m = some cell → (s.loadItems items).2.cell? m = some cell
  | [], _, _, _, h => h
  | item :: rest, _, _, _, h => cell?_loadItems rest (cell?_load item h)

theorem cell?_loadMembers : ∀ (members : List (String × Value)) {s : Store} {m : Node} {cell : Cell},
    s.cell? m = some cell → (s.loadMembers members).2.cell? m = some cell
  | [], _, _, _, h => h
  | (_, value) :: rest, _, _, _, h => cell?_loadMembers rest (cell?_load value h)

end

/-- A new container represents an array whose items its nodes represent. -/
theorem Represents.push_array {nodes : List Node} {items : List Value}
    (h : List.Forall₂ s.Represents nodes items) (kind : ArrayKind) :
    (s.push (.array kind nodes)).2.Represents (s.push (.array kind nodes)).1 (.array kind items) := by
  refine .array (cell?_push_self _ _) h.length_eq fun here there => ?_
  exact (rel_of_getElem? h here there).mono (cell?_push_of_some _ _)

theorem Represents.push_object {entries : List (String × Node)} {members : List (String × Value)}
    (h : List.Forall₂ (Members.SameName s.Represents) entries members) (kind : ObjectKind) :
    (s.push (.object kind (.ofList entries))).2.Represents (s.push (.object kind (.ofList entries))).1
      (.object kind members) := by
  have same := Members.ofList_rel h
  refine .object (cell?_push_self _ _) (Members.map_fst_eq_of_rel same) fun {name _ _} here there => ?_
  have values : Option.Rel s.Represents ((Members.ofList entries).get? name)
      ((Members.ofList members).get? name) := Members.lookup_rel same name
  rw [here, there] at values
  exact (Option.rel_some_some.1 values).mono (cell?_push_of_some _ _)

mutual

/-- The node that loading gives represents the tree that was loaded. -/
theorem represents_load : ∀ (v : Value) (s : Store), (s.load v).2.Represents (s.load v).1 v
  | .scalar content, _ => .scalar content
  | .array kind items, s => .push_array (represents_loadItems items s) kind
  | .object kind members, s => .push_object (represents_loadMembers members s) kind

theorem represents_loadItems : ∀ (items : List Value) (s : Store),
    List.Forall₂ (s.loadItems items).2.Represents (s.loadItems items).1 items
  | [], _ => .nil
  | item :: rest, s =>
    .cons ((represents_load item s).mono (cell?_loadItems rest))
      (represents_loadItems rest (s.load item).2)

theorem represents_loadMembers : ∀ (members : List (String × Value)) (s : Store),
    List.Forall₂ (Members.SameName (s.loadMembers members).2.Represents)
      (s.loadMembers members).1 members
  | [], _ => .nil
  | (_, value) :: rest, s =>
    .cons ⟨rfl, (represents_load value s).mono (cell?_loadMembers rest)⟩
      (represents_loadMembers rest (s.load value).2)

end

/-- Trees that differ in the order of members only do so when they are put into stores. -/
theorem reordered_load {v v' : Value} (h : v.Reordered v') (s s' : Store) :
    Reordered (s.load v).2 (s'.load v').2 (s.load v).1 (s'.load v').1 :=
  (represents_load v s).reordered h (represents_load v' s')

end Store

end TreeQuery
