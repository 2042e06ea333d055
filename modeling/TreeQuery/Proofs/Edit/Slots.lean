import TreeQuery.Store.Basic

/-!
# Several slots of a container at once

An edit changes one slot. What a run of edits makes of a container is said here at once: its slots
without some of them, the others in their order, or its slots with other nodes in some of them. Both
keep the kind. A single edit adds one slot to those that are gone or replaced; an array is read and
edited at the places it had before as long as only later places are gone.
-/

namespace TreeQuery

variable {α : Type}

/-! ### Items of arrays -/

/-- The items of a list without those at some places. -/
def itemsWithout (gone : Nat → Bool) (items : List α) : List α :=
  (items.zipIdx.filter fun e => !gone e.2).map Prod.fst

theorem itemsWithout_cons (gone : Nat → Bool) (item : α) (rest : List α) :
    itemsWithout gone (item :: rest) =
      if gone 0 then itemsWithout (fun place => gone (place + 1)) rest
      else item :: itemsWithout (fun place => gone (place + 1)) rest := by
  have shift : ((rest.zipIdx 1).filter fun e => !gone e.2).map Prod.fst =
      itemsWithout (fun place => gone (place + 1)) rest := by
    rw [List.zipIdx_succ, List.filter_map, List.map_map]
    rfl
  rw [itemsWithout, List.zipIdx_cons, List.filter_cons]
  cases gone 0 with
  | true => exact shift
  | false => exact congrArg (item :: ·) shift

theorem itemsWithout_none (items : List α) : itemsWithout (fun _ => false) items = items := by
  have all : (items.zipIdx.filter fun _ => !false) = items.zipIdx :=
    List.filter_eq_self.2 fun _ _ => rfl
  rw [itemsWithout, all, List.zipIdx_map_fst]

/-- Places before all that are gone hold what they held. -/
theorem getElem?_itemsWithout {gone : Nat → Bool} {items : List α} {place : Nat}
    (h : ∀ i ≤ place, gone i = false) : (itemsWithout gone items)[place]? = items[place]? := by
  induction items generalizing gone place with
  | nil => rfl
  | cons item rest ih =>
    rw [itemsWithout_cons, h 0 (Nat.zero_le place)]
    cases place with
    | zero => rfl
    | succ place => exact ih fun i hi => h (i + 1) (Nat.succ_le_succ hi)

/-- The item at a place before all that are gone can go next. -/
theorem eraseIdx_itemsWithout {gone : Nat → Bool} {items : List α} {place : Nat}
    (h : ∀ i ≤ place, gone i = false) :
    (itemsWithout gone items).eraseIdx place =
      itemsWithout (fun i => decide (i = place) || gone i) items := by
  induction items generalizing gone place with
  | nil => rfl
  | cons item rest ih =>
    rw [itemsWithout_cons, itemsWithout_cons, h 0 (Nat.zero_le place)]
    cases place with
    | zero => simp
    | succ place =>
      have kept : ∀ i ≤ place, gone (i + 1) = false := fun i hi => h (i + 1) (Nat.succ_le_succ hi)
      simp [ih kept]

/-! ### Members of objects -/

namespace Members

/-- The members without those under some names. -/
def without (gone : String → Bool) (m : Members α) : Members α :=
  ⟨m.entries.filter fun e => !gone e.1, m.nodup.sublist (List.filter_sublist.map _)⟩

/-- The members with other values under some of their names. -/
def update (new : String → Option α) (m : Members α) : Members α :=
  ⟨m.entries.map fun e => (e.1, (new e.1).getD e.2), by
    simpa [Function.comp_def] using m.nodup⟩

@[simp] theorem names_update (new : String → Option α) (m : Members α) :
    (m.update new).names = m.names := by
  simp [names, update, Function.comp_def]

theorem get?_without (gone : String → Bool) (m : Members α) (name : String) :
    (m.without gone).get? name = if gone name then none else m.get? name := by
  have there : ∀ value, (m.without gone).get? name = some value ↔
      gone name = false ∧ m.get? name = some value := by
    intro value
    simp [get?_eq_some_iff, without, and_comm]
  cases h : gone name with
  | true =>
    refine Option.eq_none_iff_forall_not_mem.2 fun value hv => ?_
    simpa [h] using (there value).1 hv
  | false =>
    refine Option.ext fun value => ?_
    simp [there, h]

theorem get?_update (new : String → Option α) (m : Members α) (name : String) :
    (m.update new).get? name = (m.get? name).map fun old => (new name).getD old := by
  refine Option.ext fun value => ?_
  simp only [get?_eq_some_iff, update, List.mem_map, Option.map_eq_some_iff, Prod.mk.injEq]
  constructor
  · rintro ⟨⟨_, old⟩, hm, rfl, rfl⟩
    exact ⟨old, hm, rfl⟩
  · rintro ⟨old, hm, rfl⟩
    exact ⟨_, hm, rfl, rfl⟩

theorem erase_without (gone : String → Bool) (m : Members α) (name : String) :
    (m.without gone).erase name = m.without fun key => decide (key = name) || gone key := by
  apply ext
  simp [erase, without, List.filter_filter]

/-- A name that is there takes a value at its place. -/
theorem put_eq_map {name : String} {value : α} {l : List (String × α)}
    (hd : (l.map Prod.fst).Nodup) (hm : name ∈ l.map Prod.fst) :
    put name value l = l.map fun e => (e.1, if e.1 = name then value else e.2) := by
  induction l with
  | nil => cases hm
  | cons e rest ih =>
    obtain ⟨key, old⟩ := e
    rw [List.map_cons, List.nodup_cons] at hd
    by_cases hk : key = name
    · subst hk
      have others : rest.map (fun e => (e.1, if e.1 = key then value else e.2)) = rest := by
        refine (List.map_congr_left fun e he => ?_).trans rest.map_id
        have : e.1 ≠ key := fun same => hd.1 (List.mem_map.2 ⟨e, he, same⟩)
        simp [this]
      simp [put, others]
    · have below := ih hd.2 ((List.mem_cons.1 hm).resolve_left (Ne.symm hk))
      simp [put, hk, below]

theorem insert_update {new : String → Option α} {m : Members α} {name : String} {value : α}
    (h : (m.get? name).isSome) :
    (m.update new).insert name value =
      m.update fun key => if key = name then some value else new key := by
  have hm : name ∈ (m.update new).names := by
    rw [names_update, ← m.contains_iff]
    exact h
  apply ext
  refine (put_eq_map (m.update new).nodup hm).trans ?_
  simp only [update, List.map_map]
  refine List.map_congr_left fun e _ => ?_
  by_cases he : e.1 = name <;> simp [he]

end Members

/-! ### Slots -/

namespace Cell

/-- What decides how a container counts and whether it can be edited. -/
def kind : Cell → ArrayKind ⊕ ObjectKind
  | array kind _ => .inl kind
  | object kind _ => .inr kind

/-- The slots without those of some steps. -/
def without (gone : Step → Bool) : Cell → Cell
  | array kind items => array kind (itemsWithout (fun place => gone (.index place)) items)
  | object kind members => object kind (members.without fun name => gone (.key name))

/-- The slots with other nodes in those of some steps. -/
def update (new : Step → Option Node) : Cell → Cell
  | array kind items => array kind (items.mapIdx fun place old => (new (.index place)).getD old)
  | object kind members => object kind (members.update fun name => new (.key name))

@[simp] theorem kind_without (gone : Step → Bool) (cell : Cell) :
    (cell.without gone).kind = cell.kind := by
  cases cell <;> rfl

@[simp] theorem kind_update (new : Step → Option Node) (cell : Cell) :
    (cell.update new).kind = cell.kind := by
  cases cell <;> rfl

theorem without_none (cell : Cell) : cell.without (fun _ => false) = cell := by
  cases cell with
  | array kind items => exact congrArg (array kind) (itemsWithout_none items)
  | object kind members =>
    refine congrArg (object kind) (Members.ext ?_)
    exact List.filter_eq_self.2 fun _ _ => rfl

/-- A slot that is still there, in an array with nothing gone before it. -/
def Clear (gone : Step → Bool) : Step → Prop
  | .key name => gone (.key name) = false
  | .index place => ∀ i ≤ place, gone (.index i) = false

theorem child?_without {gone : Step → Bool} {step : Step} (h : Clear gone step) (cell : Cell) :
    (cell.without gone).child? step = cell.child? step := by
  cases cell with
  | array kind items =>
    cases step with
    | key name => rfl
    | index place => exact getElem?_itemsWithout h
  | object kind members =>
    cases step with
    | index place => rfl
    | key name =>
      have kept : gone (.key name) = false := h
      simp [without, child?, Members.get?_without, kept]

theorem drop_without {gone : Step → Bool} {step : Step} (h : Clear gone step) (cell : Cell)
    (there : (cell.child? step).isSome) :
    (cell.without gone).drop step = cell.without fun other => decide (other = step) || gone other := by
  cases cell with
  | array kind items =>
    cases step with
    | key name => cases there
    | index place =>
      simp only [without, drop]
      rw [eraseIdx_itemsWithout h]
      simp
  | object kind members =>
    cases step with
    | index place => cases there
    | key name => simp [without, drop, Members.erase_without]

theorem update_nothing (cell : Cell) : cell.update (fun _ => none) = cell := by
  cases cell with
  | array kind items =>
    refine congrArg (array kind) (List.ext_getElem? fun i => ?_)
    rw [List.getElem?_mapIdx]
    cases items[i]? <;> rfl
  | object kind members =>
    refine congrArg (object kind) (Members.ext ?_)
    exact members.entries.map_id

theorem child?_update (new : Step → Option Node) (cell : Cell) (step : Step) :
    (cell.update new).child? step = (cell.child? step).map fun old => (new step).getD old := by
  cases cell with
  | array kind items => cases step <;> simp [update, child?]
  | object kind members => cases step <;> simp [update, child?, Members.get?_update]

theorem put_update {new : Step → Option Node} {cell : Cell} {step : Step}
    (there : (cell.child? step).isSome) (child : Node) :
    (cell.update new).put child step =
      cell.update fun other => if other = step then some child else new other := by
  cases cell with
  | array kind items =>
    cases step with
    | key name => cases there
    | index place =>
      have items_eq : (items.mapIdx fun i old => (new (.index i)).getD old).set place child =
          items.mapIdx fun i old =>
            (if Step.index i = .index place then some child else new (.index i)).getD old := by
        refine List.ext_getElem? fun i => ?_
        rw [List.getElem?_set, List.getElem?_mapIdx, List.getElem?_mapIdx]
        by_cases h : i = place
        · subst h
          obtain ⟨old, ho⟩ := Option.isSome_iff_exists.1 there
          obtain ⟨hi, -⟩ := List.getElem?_eq_some_iff.1 ho
          simp [hi]
        · simp [h, Ne.symm h]
      exact congrArg (array kind) items_eq
  | object kind members =>
    cases step with
    | index place => cases there
    | key name => simp [update, put, Members.insert_update there]

end Cell

end TreeQuery
