/-!
# Ordered members

The members of an object: values under distinct names, kept in the order in which the names
first came. Giving a name a new value keeps its place, and a removed name that comes back
goes to the end. The view of a dictionary is its look-up `get?`; the lemmas say what every
operation does to it.
-/

namespace TreeQuery

variable {α β : Type}

/-- Values under distinct names, oldest name first. -/
structure Members (α : Type) where
  entries : List (String × α)
  nodup : (entries.map Prod.fst).Nodup

namespace Members

@[ext] theorem ext {m n : Members α} (h : m.entries = n.entries) : m = n := by
  cases m; cases n; cases h; rfl

instance [DecidableEq α] : DecidableEq (Members α) := fun m n =>
  decidable_of_iff (m.entries = n.entries) ⟨ext, fun h => h ▸ rfl⟩

/-- The first value under a name. -/
def lookup (name : String) : List (String × α) → Option α
  | [] => none
  | (key, value) :: rest => if key = name then some value else lookup name rest

/-- Puts a value under a name, at the place of the name or else at the end. -/
def put (name : String) (value : α) : List (String × α) → List (String × α)
  | [] => [(name, value)]
  | (key, old) :: rest =>
    if key = name then (key, value) :: rest else (key, old) :: put name value rest

theorem mem_names_put {name key : String} {value : α} {l : List (String × α)} :
    key ∈ (put name value l).map Prod.fst ↔ key = name ∨ key ∈ l.map Prod.fst := by
  induction l with
  | nil => simp [put]
  | cons e rest ih =>
    obtain ⟨k, old⟩ := e
    by_cases h : k = name
    · subst h; simp [put]
    · simp only [put, if_neg h, List.map_cons, List.mem_cons, ih]
      constructor
      · rintro (h | h | h) <;> simp [h]
      · rintro (h | h | h) <;> simp [h]

theorem nodup_put {name : String} {value : α} {l : List (String × α)}
    (h : (l.map Prod.fst).Nodup) : ((put name value l).map Prod.fst).Nodup := by
  induction l with
  | nil => simp [put]
  | cons e rest ih =>
    obtain ⟨k, old⟩ := e
    rw [List.map_cons, List.nodup_cons] at h
    by_cases hk : k = name
    · subst hk; simpa [put] using h
    · simp only [put, if_neg hk, List.map_cons, List.nodup_cons, mem_names_put]
      exact ⟨fun hc => hc.elim hk h.1, ih h.2⟩

def empty : Members α := ⟨[], List.nodup_nil⟩

/-- The value under a name. -/
def get? (m : Members α) (name : String) : Option α := lookup name m.entries

def contains (m : Members α) (name : String) : Bool := (m.get? name).isSome

/-- Gives a name a value; a new name goes to the end. -/
def insert (m : Members α) (name : String) (value : α) : Members α :=
  ⟨put name value m.entries, nodup_put m.nodup⟩

/-- Drops a name and keeps the order of the others. -/
def erase (m : Members α) (name : String) : Members α :=
  ⟨m.entries.filter (·.1 ≠ name), m.nodup.sublist ((List.filter_sublist).map _)⟩

/-- Reads entries from left to right: a repeated name keeps its first place and takes the
last value. -/
def ofList (entries : List (String × α)) : Members α :=
  entries.foldl (fun m e => m.insert e.1 e.2) empty

def names (m : Members α) : List String := m.entries.map Prod.fst

def values (m : Members α) : List α := m.entries.map Prod.snd

def size (m : Members α) : Nat := m.entries.length

/-- Changes every value and keeps the names. -/
def map (f : α → β) (m : Members α) : Members β :=
  ⟨m.entries.map fun e => (e.1, f e.2), by
    simpa [Function.comp_def] using m.nodup⟩

theorem lookup_put {name key : String} {value : α} {l : List (String × α)} :
    lookup key (put name value l) = if name = key then some value else lookup key l := by
  induction l with
  | nil => simp [put, lookup]
  | cons e rest ih =>
    obtain ⟨k, old⟩ := e
    by_cases hk : k = name
    · subst hk
      by_cases h : k = key <;> simp [put, lookup, h]
    · by_cases h : k = key
      · subst h
        simp [put, lookup, hk, Ne.symm hk]
      · simp [put, lookup, hk, h, ih]

theorem lookup_filter_ne {name key : String} {l : List (String × α)} :
    lookup key (l.filter (·.1 ≠ name)) = if name = key then none else lookup key l := by
  induction l with
  | nil => simp [lookup]
  | cons e rest ih =>
    obtain ⟨k, old⟩ := e
    by_cases hk : k = name
    · subst hk
      by_cases h : k = key <;> simp_all [lookup]
    · by_cases h : k = key
      · subst h
        simp [lookup, hk, Ne.symm hk]
      · simp_all [lookup]

theorem mem_of_lookup {name : String} {value : α} {l : List (String × α)}
    (h : lookup name l = some value) : (name, value) ∈ l := by
  induction l with
  | nil => simp [lookup] at h
  | cons e rest ih =>
    obtain ⟨k, old⟩ := e
    by_cases hk : k = name
    · subst hk; simp_all [lookup]
    · simp only [lookup, if_neg hk] at h
      exact List.mem_cons_of_mem _ (ih h)

theorem lookup_of_mem {name : String} {value : α} {l : List (String × α)}
    (hd : (l.map Prod.fst).Nodup) (h : (name, value) ∈ l) : lookup name l = some value := by
  induction l with
  | nil => simp at h
  | cons e rest ih =>
    obtain ⟨k, old⟩ := e
    rw [List.map_cons, List.nodup_cons] at hd
    rcases List.mem_cons.1 h with h | h
    · cases h; simp [lookup]
    · have : k ≠ name := fun hk => hd.1 (List.mem_map.2 ⟨_, h, hk.symm⟩)
      simp [lookup, this, ih hd.2 h]

theorem lookup_eq_none_iff {name : String} {l : List (String × α)} :
    lookup name l = none ↔ name ∉ l.map Prod.fst := by
  induction l with
  | nil => simp [lookup]
  | cons e rest ih =>
    obtain ⟨k, old⟩ := e
    by_cases hk : k = name
    · simp [lookup, hk]
    · simp [lookup, hk, ih, Ne.symm hk]

@[simp] theorem get?_empty (name : String) : (empty : Members α).get? name = none := rfl

@[simp] theorem get?_insert (m : Members α) (name key : String) (value : α) :
    (m.insert name value).get? key = if name = key then some value else m.get? key :=
  lookup_put

@[simp] theorem get?_erase (m : Members α) (name key : String) :
    (m.erase name).get? key = if name = key then none else m.get? key :=
  lookup_filter_ne

theorem get?_eq_some_iff (m : Members α) {name : String} {value : α} :
    m.get? name = some value ↔ (name, value) ∈ m.entries :=
  ⟨mem_of_lookup, lookup_of_mem m.nodup⟩

theorem contains_iff (m : Members α) {name : String} : m.contains name = true ↔ name ∈ m.names := by
  simp only [contains, Option.isSome_iff_exists, m.get?_eq_some_iff, names, List.mem_map]
  constructor
  · rintro ⟨v, h⟩; exact ⟨_, h, rfl⟩
  · rintro ⟨⟨_, v⟩, h, rfl⟩; exact ⟨v, h⟩

@[simp] theorem get?_map (f : α → β) (m : Members α) (name : String) :
    (m.map f).get? name = (m.get? name).map f := by
  have key : ∀ l : List (String × α),
      lookup name (l.map fun e => (e.1, f e.2)) = (lookup name l).map f := by
    intro l
    induction l with
    | nil => rfl
    | cons e rest ih => by_cases h : e.1 = name <;> simp [lookup, h, ih]
  exact key m.entries

/-- A name that is there keeps its place when it gets a new value. -/
theorem names_insert_of_contains (m : Members α) {name : String} {value : α}
    (h : m.contains name = true) : (m.insert name value).names = m.names := by
  have key : ∀ l : List (String × α), name ∈ l.map Prod.fst →
      (put name value l).map Prod.fst = l.map Prod.fst := by
    intro l
    induction l with
    | nil => simp
    | cons e rest ih =>
      obtain ⟨k, old⟩ := e
      intro hm
      by_cases hk : k = name
      · simp [put, hk]
      · simp only [List.map_cons, List.mem_cons] at hm
        simp [put, hk, ih (hm.resolve_left (Ne.symm hk))]
  exact key m.entries (m.contains_iff.1 h)

@[simp] theorem names_erase (m : Members α) (name : String) :
    (m.erase name).names = m.names.filter (· ≠ name) := by
  simp [names, erase, List.filter_map, Function.comp_def]

/-- Reading entries makes up no values. -/
theorem mem_of_get?_ofList {entries : List (String × α)} {name : String} {value : α}
    (h : (ofList entries).get? name = some value) : (name, value) ∈ entries := by
  have key : ∀ (l : List (String × α)) (m : Members α),
      (l.foldl (fun m e => m.insert e.1 e.2) m).get? name = some value →
        m.get? name = some value ∨ (name, value) ∈ l := by
    intro l
    induction l with
    | nil => exact fun m hm => .inl hm
    | cons e rest ih =>
      intro m hm
      rcases ih _ hm with before | later
      · by_cases same : e.1 = name
        · rw [get?_insert, if_pos same] at before
          exact .inr (by simp [← same, ← Option.some.inj before])
        · rw [get?_insert, if_neg same] at before
          exact .inl before
      · exact .inr (List.mem_cons_of_mem e later)
  simpa using key entries empty h

/-- A dictionary is read back from its own entries. -/
theorem ofList_entries (m : Members α) : ofList m.entries = m := by
  have put_new : ∀ (name : String) (value : α) (l : List (String × α)),
      name ∉ l.map Prod.fst → put name value l = l ++ [(name, value)] := by
    intro name value l
    induction l with
    | nil => intro _; rfl
    | cons e rest ih =>
      intro h
      simp only [List.map_cons, List.mem_cons, not_or] at h
      simp [put, Ne.symm h.1, ih h.2]
  have key : ∀ (l : List (String × α)) (acc : Members α),
      ((acc.entries ++ l).map Prod.fst).Nodup →
      (l.foldl (fun m e => m.insert e.1 e.2) acc).entries = acc.entries ++ l := by
    intro l
    induction l with
    | nil => simp
    | cons e rest ih =>
      intro acc h
      have hnew : e.1 ∉ acc.entries.map Prod.fst := by
        rw [List.map_append, List.nodup_append] at h
        exact fun hc => h.2.2 _ hc _ (by simp) rfl
      have hput : (acc.insert e.1 e.2).entries = acc.entries ++ [e] := put_new _ _ _ hnew
      rw [List.foldl_cons, ih (acc.insert e.1 e.2) (by rw [hput]; simpa using h), hput]
      simp
  exact ext (key m.entries empty m.nodup)

end Members

end TreeQuery
