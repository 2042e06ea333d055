import TreeQuery.Data.Members

/-!
# Bounded memories

A bounded memory keeps values under texts, up to a capacity. The cache of read paths works with any
such memory and knows it only by its operations. A memory goes by least recent use when its contents
can be listed, the latest use in front, so that these laws hold: fetching a text that is known is a
use of it, keeping a new text is one too, and in a full memory it drives out the text whose use lies
back furthest. Asking whether a text is known is no use. A list can serve as such a memory.
-/

namespace TreeQuery

variable {α : Type}

/-- What can be done with a bounded memory. Its states are those under some capacity. -/
structure Memory (α : Type) where
  State : (capacity : Nat) → Type
  empty : (capacity : Nat) → State capacity
  /-- The value under a text, if it is known. -/
  fetch : {capacity : Nat} → State capacity → String → Option α × State capacity
  /-- Puts a value under a text. -/
  keep : {capacity : Nat} → State capacity → String → α → State capacity
  contains : {capacity : Nat} → State capacity → String → Bool
  size : {capacity : Nat} → State capacity → Nat
  clear : {capacity : Nat} → State capacity → State capacity

namespace Memory

/-- Entries with one of them at the front, under a text that they then hold once. -/
def toFront (text : String) (value : α) (entries : List (String × α)) : List (String × α) :=
  (text, value) :: entries.filter (·.1 ≠ text)

theorem names_toFront (text : String) (value : α) (entries : List (String × α)) :
    (toFront text value entries).map Prod.fst =
      text :: (entries.map Prod.fst).filter (· ≠ text) := by
  rw [toFront, List.map_cons, List.filter_map]
  rfl

/-- The laws of a memory whose contents are listed by their use, the latest first. -/
structure LeastRecent (m : Memory α)
    (uses : {capacity : Nat} → m.State capacity → List (String × α)) : Prop where
  empty (capacity : Nat) : uses (m.empty capacity) = []
  clear {capacity : Nat} (s : m.State capacity) : uses (m.clear s) = []
  size {capacity : Nat} (s : m.State capacity) : m.size s = (uses s).length
  contains {capacity : Nat} (s : m.State capacity) (text : String) :
    m.contains s text = (Members.lookup text (uses s)).isSome
  fetch {capacity : Nat} (s : m.State capacity) (text : String) :
    (m.fetch s text).1 = Members.lookup text (uses s)
  fetch_known {capacity : Nat} {s : m.State capacity} {text : String} {value : α} :
    Members.lookup text (uses s) = some value →
      uses (m.fetch s text).2 = toFront text value (uses s)
  fetch_unknown {capacity : Nat} {s : m.State capacity} {text : String} :
    Members.lookup text (uses s) = none → uses (m.fetch s text).2 = uses s
  keep_room {capacity : Nat} {s : m.State capacity} {text : String} (value : α) :
    Members.lookup text (uses s) = none → (uses s).length < capacity →
      uses (m.keep s text value) = (text, value) :: uses s
  keep_full {capacity : Nat} {s : m.State capacity} {text : String} (value : α) :
    Members.lookup text (uses s) = none → (uses s).length = capacity → 0 < capacity →
      uses (m.keep s text value) = (text, value) :: (uses s).dropLast

/-- Whether the memory is full or not, a new text comes to the front of what there is room for. -/
theorem LeastRecent.keep_new {m : Memory α}
    {uses : {capacity : Nat} → m.State capacity → List (String × α)} (h : m.LeastRecent uses)
    {capacity : Nat} {s : m.State capacity} {text : String} (value : α)
    (new : Members.lookup text (uses s) = none) (bound : (uses s).length ≤ capacity)
    (pos : 0 < capacity) :
    uses (m.keep s text value) = (text, value) :: (uses s).take (capacity - 1) := by
  rcases Nat.lt_or_eq_of_le bound with room | full
  · rw [h.keep_room value new room, List.take_of_length_le (by omega)]
  · rw [h.keep_full value new full pos, List.dropLast_eq_take, full]

/-- The list of entries, the latest use first, cut to the capacity. -/
def recent (α : Type) : Memory α where
  State _ := List (String × α)
  empty _ := []
  fetch entries text :=
    match Members.lookup text entries with
    | some value => (some value, toFront text value entries)
    | none => (none, entries)
  keep {capacity} entries text value := (toFront text value entries).take capacity
  contains entries text := (Members.lookup text entries).isSome
  size entries := entries.length
  clear _ := []

/-- A new text goes to the front and nothing else moves. -/
theorem toFront_of_lookup {text : String} {entries : List (String × α)}
    (h : Members.lookup text entries = none) (value : α) :
    toFront text value entries = (text, value) :: entries := by
  have others : entries.filter (·.1 ≠ text) = entries := by
    rw [List.filter_eq_self]
    intro e he
    have : e.1 ≠ text := fun same =>
      Members.lookup_eq_none_iff.1 h (same ▸ List.mem_map_of_mem he)
    simpa using this
  rw [toFront, others]

theorem take_toFront_room {text : String} {entries : List (String × α)} {capacity : Nat}
    (new : Members.lookup text entries = none) (room : entries.length < capacity) (value : α) :
    (toFront text value entries).take capacity = (text, value) :: entries := by
  rw [toFront_of_lookup new]
  exact List.take_of_length_le room

theorem take_toFront_full {text : String} {entries : List (String × α)} {capacity : Nat}
    (new : Members.lookup text entries = none) (full : entries.length = capacity)
    (pos : 0 < capacity) (value : α) :
    (toFront text value entries).take capacity = (text, value) :: entries.dropLast := by
  obtain ⟨last, rfl⟩ : ∃ last, capacity = last + 1 := ⟨capacity - 1, by omega⟩
  rw [toFront_of_lookup new, List.take_succ_cons, List.dropLast_eq_take, full]
  rfl

/-- A text that is held comes to the front and takes no more room. -/
theorem take_toFront_known {text : String} {value : α} {entries : List (String × α)} {capacity : Nat}
    (known : Members.lookup text entries = some value) (bound : entries.length ≤ capacity) :
    (toFront text value entries).take capacity = toFront text value entries := by
  refine List.take_of_length_le ?_
  have shorter : (entries.filter (·.1 ≠ text)).length < entries.length :=
    List.length_filter_lt_length_iff_exists.2 ⟨_, Members.mem_of_lookup known, by simp⟩
  rw [toFront, List.length_cons]
  omega

theorem leastRecent_recent : (recent α).LeastRecent fun entries => entries where
  empty _ := rfl
  clear _ := rfl
  size _ := rfl
  contains _ _ := rfl
  fetch entries text := by
    simp only [recent]
    cases Members.lookup text entries <;> rfl
  fetch_known h := by simp only [recent, h]
  fetch_unknown h := by
    simp only [recent, h]
    rfl
  keep_room value new room := take_toFront_room new room value
  keep_full value new full pos := take_toFront_full new full pos value

end Memory

end TreeQuery
