import Mathlib.Data.List.Induction
import Mathlib.Data.List.Pairwise
import TreeQuery.Store.Sharing

/-!
# Trees put into a store

A tree that is put into a store gets a new container for each of its own, made after those that it
holds. So slots hold older containers, and no two slots hold the same one. Ways through such a store
can be walked back from where they end, and so no container is reached along two of them.
-/

namespace TreeQuery

namespace Store

variable {s t u : Store}

theorem child?_eq_some_iff {n m : Node} {step : Step} :
    s.child? n step = some m ↔
      ∃ address cell, n = .container address ∧ s.cell? n = some cell ∧ cell.child? step = some m := by
  cases n with
  | scalar content => simp [child?]
  | container address => simp [child?, Option.bind_eq_some_iff]

theorem follow?_concat_eq_some_iff {n m : Node} {steps : List Step} {step : Step} :
    s.follow? n (steps ++ [step]) = some m ↔
      ∃ holder, s.follow? n steps = some holder ∧ s.child? holder step = some m := by
  simp [follow?_append, follow?, Option.bind_eq_some_iff]

theorem follow?_scalar_ne_container (content : Scalar) (steps : List Step) (address : Nat) :
    s.follow? (.scalar content) steps ≠ some (.container address) := by
  cases steps with
  | nil => simp
  | cons step rest => simp [follow?, child?]

/-- A slot after a container was added is one of the new container or of an old one. -/
theorem child?_push_eq_some {cell : Cell} {n m : Node} {step : Step}
    (h : (s.push cell).2.child? n step = some m) :
    n = .container s.cells.size ∧ cell.child? step = some m ∨ s.child? n step = some m := by
  rw [child?, cell?_push] at h
  by_cases new : n = (s.push cell).1
  · rw [if_pos new] at h
    exact .inl ⟨new, h⟩
  · rw [if_neg new] at h
    exact .inr h

variable (s) in
/-- A container is loose while no slot holds it. -/
def Loose (address : Nat) : Prop := ∀ n step, s.child? n step ≠ some (.container address)

variable (s) in
/-- Slots hold older containers, and no two slots hold the same one. -/
structure Tidy : Prop where
  older : ∀ {parent step child},
    s.child? (.container parent) step = some (.container child) → child < parent
  once : ∀ {m n step other child}, s.child? m step = some (.container child) →
    s.child? n other = some (.container child) → m = n ∧ step = other

theorem tidy_empty : empty.Tidy where
  older h := by simp [child?, empty, cell?] at h
  once {m n step other child} h := by
    obtain ⟨address, cell, rfl, hc, -⟩ := child?_eq_some_iff.1 h
    simp [empty, cell?] at hc

/-- Every step leads to an older container. -/
theorem Tidy.length_le (h : s.Tidy) {parent child : Nat} {steps : List Step}
    (hs : s.follow? (.container parent) steps = some (.container child)) :
    child + steps.length ≤ parent := by
  induction steps using List.reverseRecOn generalizing child with
  | nil =>
    cases hs
    exact Nat.le_refl _
  | append_singleton steps step ih =>
    obtain ⟨holder, before, slot⟩ := follow?_concat_eq_some_iff.1 hs
    obtain ⟨address, -, rfl, -⟩ := child?_eq_some_iff.1 slot
    have above := ih before
    have below := h.older slot
    simp only [List.length_append, List.length_singleton]
    omega

/-- Of two ways that end in one container, one is the end of the other. -/
theorem Tidy.follow?_back (h : s.Tidy) {m n : Node} {address : Nat} {p q : List Step}
    (hp : s.follow? m p = some (.container address))
    (hq : s.follow? n q = some (.container address)) :
    (∃ way, p = way ++ q ∧ s.follow? m way = some n) ∨
      ∃ way, q = way ++ p ∧ s.follow? n way = some m := by
  induction p using List.reverseRecOn generalizing address q with
  | nil =>
    cases hp
    exact .inr ⟨q, (List.append_nil q).symm, hq⟩
  | append_singleton p step ih =>
    rcases List.eq_nil_or_concat q with rfl | ⟨q, other, rfl⟩
    · cases hq
      exact .inl ⟨p ++ [step], (List.append_nil _).symm, hp⟩
    · rw [List.concat_eq_append] at hq ⊢
      obtain ⟨holder, before, slot⟩ := follow?_concat_eq_some_iff.1 hp
      obtain ⟨holder', before', slot'⟩ := follow?_concat_eq_some_iff.1 hq
      obtain ⟨rfl, rfl⟩ := h.once slot slot'
      obtain ⟨parent, -, rfl, -⟩ := child?_eq_some_iff.1 slot
      rcases ih before before' with ⟨way, rfl, hw⟩ | ⟨way, rfl, hw⟩
      · exact .inl ⟨way, List.append_assoc _ _ _, hw⟩
      · exact .inr ⟨way, List.append_assoc _ _ _, hw⟩

/-- In a tidy store nothing is shared. -/
theorem Tidy.unshared (h : s.Tidy) (n : Node) : s.Unshared n := by
  intro address p q hp hq
  cases n with
  | scalar content => exact absurd hp (follow?_scalar_ne_container content p address)
  | container root =>
    have round : ∀ {way}, s.follow? (.container root) way = some (.container root) → way = [] := by
      intro way hw
      have := h.length_le hw
      exact List.length_eq_zero_iff.1 (by omega)
    rcases h.follow?_back hp hq with ⟨way, rfl, hw⟩ | ⟨way, rfl, hw⟩
    · rw [round hw, List.nil_append]
    · rw [round hw, List.nil_append]

/-- No step leads to a loose container. -/
theorem Loose.eq_nil {address : Nat} (h : s.Loose address) {n : Node} {way : List Step}
    (hw : s.follow? n way = some (.container address)) : way = [] := by
  rcases List.eq_nil_or_concat way with rfl | ⟨way, last, rfl⟩
  · rfl
  · rw [List.concat_eq_append] at hw
    obtain ⟨holder, -, slot⟩ := follow?_concat_eq_some_iff.1 hw
    exact absurd slot (h holder last)

/-- Two loose containers of a tidy store have no container below them in common. -/
theorem Tidy.apart (h : s.Tidy) {first second : Nat} (loose : s.Loose first)
    (loose' : s.Loose second) (distinct : first ≠ second) :
    s.Apart (.container first) (.container second) := by
  rintro address ⟨p, hp⟩ ⟨q, hq⟩
  rcases h.follow?_back hp hq with ⟨way, -, hw⟩ | ⟨way, -, hw⟩
  · cases loose'.eq_nil hw
    cases hw
    exact distinct rfl
  · cases loose.eq_nil hw
    cases hw
    exact distinct rfl

/-- A new container may hold loose ones, each in one slot. -/
theorem Tidy.push (h : s.Tidy) {cell : Cell}
    (loose : ∀ {step child}, cell.child? step = some (.container child) →
      child < s.cells.size ∧ s.Loose child)
    (apart : ∀ {step other child}, cell.child? step = some (.container child) →
      cell.child? other = some (.container child) → step = other) : (s.push cell).2.Tidy where
  older {parent step child} hs := by
    rcases child?_push_eq_some hs with ⟨new, slot⟩ | old
    · cases new
      exact (loose slot).1
    · exact h.older old
  once {m n step other child} hm hn := by
    rcases child?_push_eq_some hm with ⟨rfl, slot⟩ | old <;>
      rcases child?_push_eq_some hn with ⟨rfl, slot'⟩ | old'
    · exact ⟨rfl, apart slot slot'⟩
    · exact absurd old' ((loose slot).2 _ _)
    · exact absurd old ((loose slot').2 _ _)
    · exact h.once old old'

/-- A loose container that is not put into a new one stays loose. -/
theorem Loose.push {address : Nat} (h : s.Loose address) {cell : Cell}
    (out : ∀ step, cell.child? step ≠ some (.container address)) :
    (s.push cell).2.Loose address := by
  intro n step hs
  rcases child?_push_eq_some hs with ⟨-, slot⟩ | old
  · exact out step slot
  · exact h n step old

/-- No slot holds what is not there yet. -/
theorem Tidy.loose_size (h : s.Tidy) {address : Nat} (high : s.cells.size ≤ address) :
    s.Loose address := by
  intro n step hs
  obtain ⟨parent, cell, rfl, hc, -⟩ := child?_eq_some_iff.1 hs
  have low := (Array.getElem?_eq_some_iff.1 hc).1
  have := h.older hs
  omega

/-! ### Loading -/

variable (s t) in
/-- A store has grown to another one by nodes: their containers are new, loose and distinct, and what
was loose is still so. -/
structure Loaded (nodes : List Node) : Prop where
  tidy : t.Tidy
  size_le : s.cells.size ≤ t.cells.size
  loose : ∀ {address}, address < s.cells.size → s.Loose address → t.Loose address
  fresh : ∀ {address}, .container address ∈ nodes →
    s.cells.size ≤ address ∧ address < t.cells.size ∧ t.Loose address
  distinct : nodes.Pairwise fun m n => ∀ address, m = .container address → n ≠ .container address

namespace Loaded

variable {nodes : List Node}

theorem scalar (h : s.Tidy) (content : Scalar) : Loaded s s [.scalar content] where
  tidy := h
  size_le := Nat.le_refl _
  loose _ h := h
  fresh h := by simp at h
  distinct := List.pairwise_singleton _ _

theorem nil (h : s.Tidy) : Loaded s s [] where
  tidy := h
  size_le := Nat.le_refl _
  loose _ h := h
  fresh h := by simp at h
  distinct := .nil

theorem cons {n : Node} (h : Loaded s t [n]) (k : Loaded t u nodes) : Loaded s u (n :: nodes) where
  tidy := k.tidy
  size_le := Nat.le_trans h.size_le k.size_le
  loose ha hl := k.loose (Nat.lt_of_lt_of_le ha h.size_le) (h.loose ha hl)
  fresh {address} ha := by
    have smaller := h.size_le
    have larger := k.size_le
    rcases List.mem_cons.1 ha with rfl | ha
    · obtain ⟨low, high, loose⟩ := h.fresh (List.mem_singleton.2 rfl)
      exact ⟨low, by omega, k.loose high loose⟩
    · obtain ⟨low, high, loose⟩ := k.fresh ha
      exact ⟨by omega, high, loose⟩
  distinct := by
    refine List.pairwise_cons.2 ⟨?_, k.distinct⟩
    rintro m hm address rfl rfl
    have first := (h.fresh (List.mem_singleton.2 rfl)).2.1
    have second := (k.fresh hm).1
    omega

/-- A new container takes the nodes in, each into one slot. -/
theorem push (h : Loaded s t nodes) {cell : Cell}
    (slots : ∀ {step n}, cell.child? step = some n → n ∈ nodes)
    (apart : ∀ {step other address}, cell.child? step = some (.container address) →
      cell.child? other = some (.container address) → step = other) :
    Loaded s (t.push cell).2 [(t.push cell).1] where
  tidy := h.tidy.push (fun slot => (h.fresh (slots slot)).2) apart
  size_le := by
    have := h.size_le
    simp only [Store.push, Array.size_push]
    omega
  loose {address} low loose := by
    refine (h.loose low loose).push fun step slot => ?_
    have := (h.fresh (slots slot)).1
    omega
  fresh {address} ha := by
    cases List.mem_singleton.1 ha
    refine ⟨h.size_le, by simp [Store.push], ?_⟩
    refine (h.tidy.loose_size (Nat.le_refl _)).push fun step slot => ?_
    have := (h.fresh (slots slot)).2.1
    omega
  distinct := List.pairwise_singleton _ _

/-- Distinct nodes of an array lie in distinct slots. -/
theorem push_array (h : Loaded s t nodes) (kind : ArrayKind) :
    Loaded s (t.push (.array kind nodes)).2 [(t.push (.array kind nodes)).1] := by
  refine h.push ?_ ?_
  · intro step n hs
    cases step with
    | key name => cases hs
    | index place => exact List.mem_of_getElem? hs
  · intro step other address hs ho
    cases step with
    | key name => cases hs
    | index i =>
      cases other with
      | key name => cases ho
      | index j =>
        obtain ⟨hi, first⟩ := List.getElem?_eq_some_iff.1 hs
        obtain ⟨hj, second⟩ := List.getElem?_eq_some_iff.1 ho
        rcases Nat.lt_trichotomy i j with lt | rfl | lt
        · exact absurd second (List.pairwise_iff_getElem.1 h.distinct i j hi hj lt address first)
        · rfl
        · exact absurd first (List.pairwise_iff_getElem.1 h.distinct j i hj hi lt address second)

/-- Distinct nodes of an object lie under distinct names. -/
theorem push_object {entries : List (String × Node)} (h : Loaded s t (entries.map Prod.snd))
    (kind : ObjectKind) :
    Loaded s (t.push (.object kind (.ofList entries))).2
      [(t.push (.object kind (.ofList entries))).1] := by
  refine h.push ?_ ?_
  · intro step n hs
    cases step with
    | key name => exact List.mem_map_of_mem (Members.mem_of_get?_ofList hs)
    | index place => cases hs
  · intro step other address hs ho
    cases step with
    | index place => cases hs
    | key name =>
      cases other with
      | index place => cases ho
      | key name' =>
        have symmetric : Std.Symm fun (a b : String × Node) =>
            ∀ address, a.2 = .container address → b.2 ≠ .container address :=
          ⟨fun a b apart address hb ha => apart address ha hb⟩
        have distinct := List.pairwise_map.1 h.distinct
        by_contra different
        have parts : (name, Node.container address) ≠ (name', .container address) := by
          intro same
          exact different (congrArg Step.key (congrArg Prod.fst same))
        exact distinct.forall (Members.mem_of_get?_ofList hs) (Members.mem_of_get?_ofList ho) parts
          address rfl rfl

end Loaded

mutual

/-- Loading a tree keeps a store tidy, and its root is a new container that no slot holds. -/
theorem loaded_load : ∀ (v : Value) {s : Store}, s.Tidy → Loaded s (s.load v).2 [(s.load v).1]
  | .scalar content, _, h => .scalar h content
  | .array kind items, _, h => (loaded_loadItems items h).push_array kind
  | .object kind members, _, h => (loaded_loadMembers members h).push_object kind

theorem loaded_loadItems : ∀ (items : List Value) {s : Store}, s.Tidy →
    Loaded s (s.loadItems items).2 (s.loadItems items).1
  | [], _, h => .nil h
  | item :: rest, _, h =>
    have first := loaded_load item h
    .cons first (loaded_loadItems rest first.tidy)

theorem loaded_loadMembers : ∀ (members : List (String × Value)) {s : Store}, s.Tidy →
    Loaded s (s.loadMembers members).2 ((s.loadMembers members).1.map Prod.snd)
  | [], _, h => .nil h
  | (_, value) :: rest, _, h =>
    have first := loaded_load value h
    .cons first (loaded_loadMembers rest first.tidy)

end

/-- A tree that is put into a tidy store is unshared. -/
theorem unshared_load (h : s.Tidy) (v : Value) : (s.load v).2.Unshared (s.load v).1 :=
  (loaded_load v h).tidy.unshared _

/-- A tree that is put into a tidy store has no container of a tree that was put there before. -/
theorem apart_load (h : s.Tidy) (old new : Value) :
    let earlier := s.load old
    let later := earlier.2.load new
    later.2.Apart later.1 earlier.1 := by
  intro earlier later
  have first := loaded_load old h
  have second := loaded_load new first.tidy
  cases root : earlier.1 with
  | scalar content =>
    rintro address - ⟨steps, hs⟩
    exact follow?_scalar_ne_container content steps address hs
  | container below =>
    cases node : later.1 with
    | scalar content =>
      rintro address ⟨steps, hs⟩
      exact absurd hs (follow?_scalar_ne_container content steps address)
    | container above =>
      obtain ⟨-, high, loose⟩ := first.fresh (List.mem_singleton.2 root.symm)
      obtain ⟨low, -, loose'⟩ := second.fresh (List.mem_singleton.2 node.symm)
      exact second.tidy.apart loose' (second.loose high loose) (by omega)

end Store

end TreeQuery
