import TreeQuery.Path.Spelling
import TreeQuery.Proofs.Edit.Descent

/-!
# Reading pointers

A pointer is read by cutting it at its slashes and by turning, in every token, `~1` into `/` and after
that `~0` into `~`. This gives back the texts of the steps, whatever the names are. A pointer does not
tell a position from the name with the same digits. Within a tree it need not: a container has elements
or members, never both.
-/

namespace TreeQuery

/-! ### Tokens -/

/-- Wherever two characters follow each other, from left to right, another one takes their place. -/
def joinPairs (first second joined : Char) : List Char → List Char
  | a :: b :: rest =>
    if a = first ∧ b = second then joined :: joinPairs first second joined rest
    else a :: joinPairs first second joined (b :: rest)
  | rest => rest

/-- The text that a token of a pointer stands for. -/
def unescapeToken (token : List Char) : List Char :=
  joinPairs '~' '0' '~' (joinPairs '~' '1' '/' token)

/-- A token with `~0` for `~` that still has its slashes. -/
def escapeTilde (token : List Char) : List Char :=
  token.flatMap fun c => if c = '~' then ['~', '0'] else [c]

section JoinPairs

variable {first second joined : Char}

theorem joinPairs_pair (rest : List Char) :
    joinPairs first second joined (first :: second :: rest) =
      joined :: joinPairs first second joined rest := by
  simp [joinPairs]

theorem joinPairs_cons_of_ne {a : Char} (h : a ≠ first) (rest : List Char) :
    joinPairs first second joined (a :: rest) = a :: joinPairs first second joined rest := by
  cases rest <;> simp [joinPairs, h]

theorem joinPairs_cons_cons_of_ne {b : Char} (h : b ≠ second) (a : Char) (rest : List Char) :
    joinPairs first second joined (a :: b :: rest) =
      a :: joinPairs first second joined (b :: rest) := by
  simp [joinPairs, h]

end JoinPairs

/-- Reading `~1` as `/` undoes the escaping of slashes: a `~` of the token itself has a `0` after it. -/
theorem joinPairs_escapeToken (token : List Char) :
    joinPairs '~' '1' '/' (escapeToken token) = escapeTilde token := by
  induction token with
  | nil => rfl
  | cons c rest ih =>
    rw [escapeToken, List.flatMap_cons, ← escapeToken, escapeTilde, List.flatMap_cons, ← escapeTilde,
      ← ih]
    by_cases tilde : c = '~'
    · simp only [if_pos tilde, List.cons_append, List.nil_append]
      rw [joinPairs_cons_cons_of_ne (by decide), joinPairs_cons_of_ne (by decide)]
    · by_cases slash : c = '/'
      · simp only [if_neg tilde, if_pos slash, List.cons_append, List.nil_append]
        rw [joinPairs_pair, slash]
      · simp only [if_neg tilde, if_neg slash, List.cons_append, List.nil_append]
        rw [joinPairs_cons_of_ne tilde]

theorem joinPairs_escapeTilde (token : List Char) :
    joinPairs '~' '0' '~' (escapeTilde token) = token := by
  induction token with
  | nil => rfl
  | cons c rest ih =>
    rw [escapeTilde, List.flatMap_cons, ← escapeTilde]
    by_cases tilde : c = '~'
    · simp only [if_pos tilde, List.cons_append, List.nil_append]
      rw [joinPairs_pair, ih, tilde]
    · simp only [if_neg tilde, List.cons_append, List.nil_append]
      rw [joinPairs_cons_of_ne tilde, ih]

/-- Every token is read back as the text that it was made of. -/
theorem unescapeToken_escapeToken (token : List Char) : unescapeToken (escapeToken token) = token := by
  rw [unescapeToken, joinPairs_escapeToken, joinPairs_escapeTilde]

theorem slash_notMem_escapeToken (token : List Char) : '/' ∉ escapeToken token := by
  intro h
  obtain ⟨c, -, hc⟩ := List.mem_flatMap.1 h
  by_cases tilde : c = '~'
  · simp [if_pos tilde] at hc
  · by_cases slash : c = '/'
    · simp [if_neg tilde, if_pos slash] at hc
    · simp only [if_neg tilde, if_neg slash, List.mem_singleton] at hc
      exact slash hc.symm

/-! ### Whole pointers -/

/-- A separator before each token is one in front and one between any two of them. -/
theorem flatMap_cons_eq_intercalate {α : Type} (separator : α) {tokens : List (List α)}
    (h : tokens ≠ []) :
    tokens.flatMap (separator :: ·) = separator :: [separator].intercalate tokens := by
  induction tokens with
  | nil => exact absurd rfl h
  | cons token rest ih =>
    cases rest with
    | nil => simp
    | cons next rest =>
      rw [List.flatMap_cons, ih (List.cons_ne_nil _ _)]
      simp

namespace Location

/-- The tokens of a pointer, as they are written. -/
def tokens (place : Location) : List (List Char) := place.steps.map fun step => escapeToken step.chars

theorem pointerChars_eq (place : Location) :
    place.pointerChars = place.tokens.flatMap ('/' :: ·) := by
  simp [pointerChars, tokens, List.flatMap_map]

theorem unescape_tokens (place : Location) :
    place.tokens.map unescapeToken = place.steps.map Step.chars := by
  simp [tokens, unescapeToken_escapeToken, Function.comp_def]

theorem pointer_eq_empty_iff {place : Location} : place.pointer = "" ↔ place.length = 0 := by
  rw [pointer, ← String.toList_inj, String.toList_ofList]
  obtain ⟨steps⟩ := place
  cases steps <;> simp [pointerChars, length]

/-- A pointer that is not empty is cut into its tokens. -/
theorem exists_pointer_tokens {place : Location} (h : place.length ≠ 0) :
    ∃ rest, place.pointer.toList = '/' :: rest ∧ rest.splitOn '/' = place.tokens := by
  have some_token : place.tokens ≠ [] := by
    intro none
    exact h (by simpa [tokens, length] using none)
  have clean : ∀ token ∈ place.tokens, '/' ∉ token := by
    intro token ht
    obtain ⟨step, -, rfl⟩ := List.mem_map.1 ht
    exact slash_notMem_escapeToken step.chars
  refine ⟨['/'].intercalate place.tokens, ?_, List.splitOn_intercalate '/' clean some_token⟩
  rw [pointer, String.toList_ofList, pointerChars_eq, flatMap_cons_eq_intercalate '/' some_token]

/-- A pointer tells the texts of the steps and nothing else. -/
theorem pointer_eq_iff {p q : Location} :
    p.pointer = q.pointer ↔ p.steps.map Step.chars = q.steps.map Step.chars := by
  constructor
  · intro h
    by_cases root : p.length = 0
    · have root' : q.length = 0 := by
        rw [← pointer_eq_empty_iff, ← h, pointer_eq_empty_iff]
        exact root
      rw [List.length_eq_zero_iff.1 root, List.length_eq_zero_iff.1 root']
    · have root' : q.length ≠ 0 := by
        rw [Ne, ← pointer_eq_empty_iff, ← h, pointer_eq_empty_iff]
        exact root
      obtain ⟨rest, hp, tokens⟩ := exists_pointer_tokens root
      obtain ⟨rest', hq, tokens'⟩ := exists_pointer_tokens root'
      rw [h, hq] at hp
      cases hp
      rw [← unescape_tokens, ← tokens, tokens', unescape_tokens]
  · intro h
    have tokens : p.tokens = q.tokens := by
      simpa [Location.tokens, Function.comp_def] using congrArg (List.map escapeToken) h
    rw [pointer, pointer, pointerChars_eq, pointerChars_eq, tokens]

end Location

/-! ### Pointers within a tree -/

namespace Reading

variable {r : Reading} {s : Store} {n : Node}

/-- A node that has a member counts as an object and has no element. -/
theorem child?_index_eq_none {name : String} {child : Node}
    (h : r.child? s n (.key name) = some child) (place : Nat) :
    r.child? s n (.index place) = none := by
  obtain ⟨members, hm, -⟩ := Option.bind_eq_some_iff.1 h
  rw [child?, r.elements?_eq_none s n hm]
  rfl

/-- Two slots of one container that are there have different texts. -/
theorem step_eq_of_chars_eq {a b : Step} {child child' : Node} (ha : r.child? s n a = some child)
    (hb : r.child? s n b = some child') (same : a.chars = b.chars) : a = b := by
  cases a with
  | key name =>
    cases b with
    | key name' => exact congrArg Step.key (String.toList_inj.1 same)
    | index place =>
      rw [child?_index_eq_none ha] at hb
      cases hb
  | index place =>
    cases b with
    | key name =>
      rw [child?_index_eq_none hb] at ha
      cases ha
    | index place' =>
      have digits := congrArg (Nat.ofDigitChars 10 · 0) same
      simp only [Step.chars, Nat.ofDigitChars_ten_toDigits] at digits
      exact congrArg Step.index digits

/-- Steps that can be taken from a node are known by their texts. -/
theorem steps_eq_of_chars_eq {m m' : Node} {p q : List Step} (hp : r.follow? s n p = some m)
    (hq : r.follow? s n q = some m') (same : p.map Step.chars = q.map Step.chars) : p = q := by
  induction p generalizing n q with
  | nil => exact (List.map_eq_nil_iff.1 same.symm).symm
  | cons step rest ih =>
    cases q with
    | nil => cases same
    | cons step' rest' =>
      obtain ⟨first, later⟩ := List.cons.inj same
      obtain ⟨child, there, below⟩ := Option.bind_eq_some_iff.1 hp
      obtain ⟨child', there', below'⟩ := Option.bind_eq_some_iff.1 hq
      cases step_eq_of_chars_eq there there' first
      cases there.symm.trans there'
      rw [ih below below' later]

end Reading

/-- Locations of different trees may have the same pointer. -/
example : Location.pointer ⟨[.index 0]⟩ = Location.pointer ⟨[.key "0"]⟩ := rfl

end TreeQuery
