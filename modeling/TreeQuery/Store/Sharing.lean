import TreeQuery.Store.Basic

/-!
# Reaching containers

Steps lead from node to node through the slots of containers, of whatever kind. A tree is
unshared when no container of it is reached along two ways; such a tree holds no cycle. Two
trees are apart when they have no container in common. A container that is not reached from a
node can get any new slots, and nothing changes below that node.
-/

namespace TreeQuery

namespace Store

/-- The node in the slot of a step. -/
def child? (s : Store) (n : Node) (step : Step) : Option Node :=
  (s.cell? n).bind (·.child? step)

/-- The node to which steps lead. -/
def follow? (s : Store) (n : Node) : List Step → Option Node
  | [] => some n
  | step :: rest => (s.child? n step).bind (s.follow? · rest)

/-- A node is reached when some steps lead to it. -/
def Reaches (s : Store) (n m : Node) : Prop := ∃ steps, s.follow? n steps = some m

/-- No container is reached along two ways. -/
def Unshared (s : Store) (n : Node) : Prop :=
  ∀ address p q, s.follow? n p = some (.container address) →
    s.follow? n q = some (.container address) → p = q

/-- No container is reached from both nodes. -/
def Apart (s : Store) (m n : Node) : Prop :=
  ∀ address, s.Reaches m (.container address) → ¬ s.Reaches n (.container address)

@[simp] theorem follow?_nil (s : Store) (n : Node) : s.follow? n [] = some n := rfl

theorem follow?_append (s : Store) (n : Node) (p q : List Step) :
    s.follow? n (p ++ q) = (s.follow? n p).bind (s.follow? · q) := by
  induction p generalizing n with
  | nil => rfl
  | cons step rest ih =>
    simp only [List.cons_append, follow?]
    cases s.child? n step with
    | none => rfl
    | some child => exact ih child

theorem Reaches.refl (s : Store) (n : Node) : s.Reaches n n := ⟨[], rfl⟩

theorem Reaches.trans {s : Store} {l m n : Node} (h : s.Reaches l m) (k : s.Reaches m n) :
    s.Reaches l n := by
  obtain ⟨p, hp⟩ := h
  obtain ⟨q, hq⟩ := k
  exact ⟨p ++ q, by rw [follow?_append, hp, Option.bind_some, hq]⟩

/-- What lies below a node of an unshared tree is unshared. -/
theorem Unshared.below {s : Store} {m n : Node} (h : s.Unshared m) (k : s.Reaches m n) :
    s.Unshared n := by
  obtain ⟨l, hl⟩ := k
  intro address p q hp hq
  have := h address (l ++ p) (l ++ q) (by rw [follow?_append, hl, Option.bind_some, hp])
    (by rw [follow?_append, hl, Option.bind_some, hq])
  exact List.append_cancel_left this

/-- No container of an unshared tree lies below itself. -/
theorem Unshared.acyclic {s : Store} {n : Node} {address : Nat} {p q : List Step}
    (h : s.Unshared n) (hp : s.follow? n p = some (.container address))
    (hq : s.follow? (.container address) q = some (.container address)) : q = [] := by
  have := h address p (p ++ q) hp (by rw [follow?_append, hp, Option.bind_some, hq])
  simpa using this

/-! ### What is read below a node -/

section Congr

variable {s t : Store} {n : Node} (h : ∀ m, s.Reaches n m → t.cell? m = s.cell? m)

include h

/-- Steps lead to the same nodes where all containers on the way have the same slots. -/
theorem follow?_congr (steps : List Step) : t.follow? n steps = s.follow? n steps := by
  induction steps generalizing n with
  | nil => rfl
  | cons step rest ih =>
    simp only [follow?, child?, h n (Reaches.refl s n)]
    cases hc : (s.cell? n).bind (·.child? step) with
    | none => rfl
    | some child =>
      have there : s.follow? n [step] = some child := by simp [follow?, child?, hc]
      exact ih fun m hm => h m (Reaches.trans ⟨[step], there⟩ hm)

/-- A tree is the same where all containers of it have the same slots. -/
theorem treeTo_congr (depth : Nat) : t.treeTo depth n = s.treeTo depth n := by
  induction depth generalizing n with
  | zero => cases n <;> rfl
  | succ depth ih =>
    cases n with
    | scalar content => rfl
    | container address =>
      have below : ∀ step child, s.child? (.container address) step = some child →
          t.treeTo depth child = s.treeTo depth child := fun step child hc =>
        ih fun m hm => h m (Reaches.trans ⟨[step], by simp [follow?, hc]⟩ hm)
      simp only [treeTo, h _ (Reaches.refl s _)]
      cases hc : s.cell? (.container address) with
      | none => rfl
      | some cell =>
        cases cell with
        | array kind items =>
          refine congrArg (Value.array kind) (List.map_congr_left fun child hm => ?_)
          obtain ⟨i, hi⟩ := List.mem_iff_getElem?.1 hm
          exact below (.index i) child (by simp [child?, hc, Cell.child?, hi])
        | object kind members =>
          refine congrArg (Value.object kind) (List.map_congr_left fun e hm => ?_)
          rw [below (.key e.1) e.2]
          simp [child?, hc, Cell.child?, members.get?_eq_some_iff, hm]

end Congr

/-- New slots of a container do not show where the container is not reached. -/
theorem cell?_write_of_not_reaches {s : Store} {n : Node} {address : Nat} (cell : Cell)
    (h : ¬ s.Reaches n (.container address)) (m : Node) (hm : s.Reaches n m) :
    (s.write address cell).cell? m = s.cell? m := by
  rw [cell?_write, if_neg]
  rintro rfl
  exact h hm

/-- New slots of a container leave the trees alone that do not hold it. -/
theorem treeTo_write {s : Store} {n : Node} {address : Nat} (cell : Cell)
    (h : ¬ s.Reaches n (.container address)) (depth : Nat) :
    (s.write address cell).treeTo depth n = s.treeTo depth n :=
  treeTo_congr (cell?_write_of_not_reaches cell h) depth

theorem value_write {s : Store} {n : Node} {address : Nat} (cell : Cell)
    (h : ¬ s.Reaches n (.container address)) : (s.write address cell).value n = s.value n := by
  rw [value, value, size_write, treeTo_write cell h]

end Store

end TreeQuery
