/-!
# Search paths and locations

A search path is a sequence of segments, each of which selects children of the nodes reached
so far: the member of a name, the element at a position, or every child. A location is a
sequence of exact steps and addresses one node at most. Whether a segment applies to an
object or to an array is decided by the tree, not by the path.
-/

namespace TreeQuery

/-- One segment of a search path. An optional segment may find nothing. -/
inductive Segment
  | key (name : String) (optional : Bool)
  | index (position : Nat) (optional : Bool)
  | wildcard
  deriving DecidableEq

/-- One exact step into an object or an array. -/
inductive Step
  | key (name : String)
  | index (position : Nat)
  deriving DecidableEq

/-- A search path; the empty one denotes the root. -/
structure Expression where
  segments : List Segment
  deriving DecidableEq

/-- The place of one node below a root; the empty one is the root itself. -/
structure Location where
  steps : List Step
  deriving DecidableEq

/-- The five kinds of segment. -/
inductive Segment.Kind
  | key
  | optionalKey
  | index
  | optionalIndex
  | wildcard
  deriving DecidableEq

namespace Segment.Kind

/-- The word for a kind. -/
def word : Kind → String
  | key => "key"
  | optionalKey => "optional_key"
  | index => "index"
  | optionalIndex => "optional_index"
  | wildcard => "wildcard"

def all : List Kind := [key, optionalKey, index, optionalIndex, wildcard]

def ofWord? (word : String) : Option Kind := all.find? (·.word = word)

theorem ofWord?_word (kind : Kind) : ofWord? kind.word = some kind := by
  cases kind <;> decide

end Segment.Kind

namespace Segment

def kind : Segment → Kind
  | key _ false => .key
  | key _ true => .optionalKey
  | index _ false => .index
  | index _ true => .optionalIndex
  | wildcard => .wildcard

def isKey : Segment → Bool
  | key _ _ => true
  | _ => false

def isIndex : Segment → Bool
  | index _ _ => true
  | _ => false

def isWildcard : Segment → Bool
  | wildcard => true
  | _ => false

def isOptional : Segment → Bool
  | key _ optional | index _ optional => optional
  | wildcard => false

/-- A segment that selects at most one child and insists on it. -/
def isConcrete (s : Segment) : Bool := !s.isWildcard && !s.isOptional

/-- The step that a named or indexed segment takes. -/
def step? : Segment → Option Step
  | key name _ => some (.key name)
  | index position _ => some (.index position)
  | wildcard => none

end Segment

namespace Step

/-- The segment that insists on this step. -/
def segment : Step → Segment
  | key name => .key name false
  | index position => .index position false

@[simp] theorem step?_segment (s : Step) : s.segment.step? = some s := by
  cases s <;> rfl

@[simp] theorem isConcrete_segment (s : Step) : s.segment.isConcrete = true := by
  cases s <;> rfl

end Step

namespace Expression

def length (e : Expression) : Nat := e.segments.length

/-- A concrete path has no wildcard and no optional segment. -/
def isConcrete (e : Expression) : Bool := e.segments.all Segment.isConcrete

/-- The steps of the segments; wildcards have none. -/
def location (e : Expression) : Location := ⟨e.segments.filterMap Segment.step?⟩

end Expression

namespace Location

def root : Location := ⟨[]⟩

def length (l : Location) : Nat := l.steps.length

/-- The location of a child. -/
def child (l : Location) (s : Step) : Location := ⟨l.steps ++ [s]⟩

/-- The location of what lies below. -/
def append (l m : Location) : Location := ⟨l.steps ++ m.steps⟩

/-- The location one step up; the root has none. -/
def parent? (l : Location) : Option Location :=
  if l.steps.isEmpty then none else some ⟨l.steps.dropLast⟩

def last? (l : Location) : Option Step := l.steps.getLast?

/-- The search path that insists on every step. -/
def expression (l : Location) : Expression := ⟨l.steps.map Step.segment⟩

@[simp] theorem location_expression (l : Location) : l.expression.location = l := by
  obtain ⟨steps⟩ := l
  simp only [expression, Expression.location]
  congr 1
  induction steps with
  | nil => rfl
  | cons s rest ih => simp [ih]

@[simp] theorem isConcrete_expression (l : Location) : l.expression.isConcrete = true := by
  simp [expression, Expression.isConcrete]

@[simp] theorem length_expression (l : Location) : l.expression.length = l.length := by
  simp [expression, Expression.length, length]

@[simp] theorem length_child (l : Location) (s : Step) : (l.child s).length = l.length + 1 := by
  simp [child, length]

@[simp] theorem parent?_child (l : Location) (s : Step) : (l.child s).parent? = some l := by
  simp [child, parent?]

@[simp] theorem last?_child (l : Location) (s : Step) : (l.child s).last? = some s := by
  simp [child, last?]

theorem child_inj {p q : Location} {a b : Step} : p.child a = q.child b ↔ p = q ∧ a = b := by
  obtain ⟨p⟩ := p
  obtain ⟨q⟩ := q
  simp [child]

/-- A location is the root or that of a child. -/
theorem eq_root_or_child (l : Location) : l = root ∨ ∃ p s, l = child p s := by
  obtain ⟨steps⟩ := l
  rcases List.eq_nil_or_concat steps with rfl | ⟨before, last, rfl⟩
  · exact .inl rfl
  · exact .inr ⟨⟨before⟩, last, by simp [child]⟩

theorem child_ne_root (l : Location) (s : Step) : l.child s ≠ root := by
  simp [child, root]

end Location

/-- A concrete search path is the one that its location insists on. -/
theorem Expression.expression_location {e : Expression} (h : e.isConcrete = true) :
    e.location.expression = e := by
  obtain ⟨segments⟩ := e
  simp only [location, Location.expression]
  congr 1
  induction segments with
  | nil => rfl
  | cons s rest ih =>
    simp only [isConcrete, List.all_cons, Bool.and_eq_true] at h
    have hs := h.1
    cases s <;> simp_all [Segment.isConcrete, Segment.isWildcard, Segment.isOptional,
      Segment.step?, Step.segment, isConcrete]

end TreeQuery
