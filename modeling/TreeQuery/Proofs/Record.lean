import TreeQuery.Query.Edit

/-!
# The record is only written

Searches and edits record events but never look at what was recorded. Work sees a state only through
a view if states that look the same give it the same outcome and look the same afterwards. Each
building block is shown to see only what it works with: a walk its matches, a search or an edit the
store. This holds for every access, whatever it makes of the store.
-/

namespace TreeQuery

namespace Effect

variable {ε σ τ α β : Type}

/-- Work that sees its state only through a view. -/
def SeesOnly (view : σ → τ) (x : Effect ε σ α) : Prop :=
  ∀ t u, view t = view u → (x t).1 = (x u).1 ∧ view (x t).2 = view (x u).2

variable {view : σ → τ}

theorem seesOnly_pure (a : α) : SeesOnly view (pure a : Effect ε σ α) :=
  fun _ _ same => ⟨rfl, same⟩

theorem seesOnly_throw (e : ε) : SeesOnly view (throw e : Effect ε σ α) :=
  fun _ _ same => ⟨rfl, same⟩

theorem seesOnly_modify {f : σ → σ} (h : ∀ t u, view t = view u → view (f t) = view (f u)) :
    SeesOnly view (modify f : Effect ε σ PUnit) :=
  fun t u same => ⟨rfl, h t u same⟩

theorem SeesOnly.bind {x : Effect ε σ α} {f : α → Effect ε σ β} (hx : SeesOnly view x)
    (hf : ∀ a, SeesOnly view (f a)) : SeesOnly view (x >>= f) := by
  intro t u same
  obtain ⟨outcome, after⟩ := hx t u same
  rw [run_bind, run_bind]
  rcases hxt : x t with ⟨e | a, t'⟩ <;> rcases hxu : x u with ⟨e' | b, u'⟩ <;>
    rw [hxt, hxu] at outcome after
  · exact ⟨congrArg Except.error (Except.error.inj outcome), after⟩
  · cases outcome
  · cases outcome
  · cases outcome
    exact hf a t' u' after

theorem SeesOnly.tryCatch {x : Effect ε σ α} {handle : ε → Effect ε σ α} (hx : SeesOnly view x)
    (hh : ∀ e, SeesOnly view (handle e)) : SeesOnly view (tryCatch x handle) := by
  intro t u same
  obtain ⟨outcome, after⟩ := hx t u same
  rw [run_tryCatch, run_tryCatch]
  rcases hxt : x t with ⟨e | a, t'⟩ <;> rcases hxu : x u with ⟨e' | b, u'⟩ <;>
    rw [hxt, hxu] at outcome after
  · cases outcome
    exact hh e t' u' after
  · cases outcome
  · cases outcome
  · exact ⟨outcome, after⟩

end Effect

open Effect

/-! ### Walks and searches -/

namespace Walk

theorem seesOnly_read {α : Type} (x : Except Refusal α) : SeesOnly Trail.found (read x) := by
  cases x with
  | ok a => exact seesOnly_pure a
  | error cause => exact seesOnly_throw _

theorem seesOnly_fail (o : Options) (optional : Bool) (place : Location) (obstacle : Obstacle) :
    SeesOnly Trail.found (fail o optional place obstacle) := by
  unfold fail
  split
  · exact seesOnly_throw _
  · exact seesOnly_pure _

theorem seesOnly_emit (m : Match) : SeesOnly Trail.found (emit m) :=
  seesOnly_modify fun _ _ same => congrArg (·.push m) same

theorem seesOnly_record (e : Event) : SeesOnly Trail.found (record e) :=
  seesOnly_modify fun _ _ same => same

theorem seesOnly_branch {run : Walk Unit} (h : SeesOnly Trail.found run) :
    SeesOnly Trail.found (branch run) := by
  refine h.tryCatch fun e => ?_
  cases e with
  | unresolved place obstacle => exact seesOnly_record _
  | _ => exact seesOnly_throw _

theorem seesOnly_branches (o : Options) {run : Step → Node → Walk Unit}
    (h : ∀ step child, SeesOnly Trail.found (run step child)) (children : List (Step × Node)) :
    SeesOnly Trail.found (branches o run children) := by
  induction children with
  | nil => exact seesOnly_pure _
  | cons next others ih =>
    obtain ⟨step, child⟩ := next
    simp only [branches]
    split
    · exact ih
    · exact (seesOnly_branch (h step child)).bind fun _ => ih

end Walk

variable (a : Access)

theorem seesOnly_walk (s : Store) (o : Options) (segments : List Segment) (n : Node)
    (place : Location) : SeesOnly Trail.found (walk a s o segments n place) := by
  induction segments generalizing n place with
  | nil => exact Walk.seesOnly_emit _
  | cons segment rest ih =>
    cases segment with
    | key name optional =>
      simp only [walk]
      split
      · refine (Walk.seesOnly_read _).bind fun child? => ?_
        split
        · exact ih _ _
        · exact Walk.seesOnly_fail _ _ _ _
      · exact Walk.seesOnly_fail _ _ _ _
    | index position optional =>
      simp only [walk]
      split
      · refine (Walk.seesOnly_read _).bind fun child? => ?_
        split
        · exact ih _ _
        · exact Walk.seesOnly_fail _ _ _ _
      · exact Walk.seesOnly_fail _ _ _ _
    | wildcard =>
      refine (Walk.seesOnly_read _).bind fun children? => ?_
      cases children? with
      | some children => exact Walk.seesOnly_branches o (fun step child => ih child _) children
      | none => exact Walk.seesOnly_fail _ _ _ _

theorem seesOnly_resolve (o : Options) (root : Node) (e : Expression) :
    SeesOnly World.store (resolve a o root e) := by
  intro w v same
  obtain ⟨outcome, found⟩ :=
    seesOnly_walk a w.store o e.segments root .root ⟨#[], w.log⟩ ⟨#[], v.log⟩ rfl
  simp only [resolve, ← same]
  rcases hw : walk a w.store o e.segments root .root ⟨#[], w.log⟩ with ⟨_ | ⟨⟩, t⟩ <;>
    rcases hv : walk a w.store o e.segments root .root ⟨#[], v.log⟩ with ⟨_ | ⟨⟩, u⟩ <;>
    rw [hw, hv] at outcome found
  · cases outcome
    exact ⟨rfl, rfl⟩
  · cases outcome
  · cases outcome
  · have found : t.found = u.found := found
    exact ⟨by simp only [found], rfl⟩

/-! ### Edits -/

namespace Action

theorem seesOnly_record (e : Event) : SeesOnly World.store (record e) :=
  seesOnly_modify fun _ _ same => same

theorem seesOnly_write (s : Store) : SeesOnly World.store (write s) :=
  seesOnly_modify fun _ _ _ => rfl

theorem seesOnly_read {α : Type} (f : Store → Except Refusal α) :
    SeesOnly World.store (read f) := by
  intro w v same
  rw [read_run, read_run, ← same]
  split
  · exact ⟨rfl, same⟩
  · exact ⟨rfl, same⟩

end Action

theorem seesOnly_reportMissing {α : Type} (place : Location) (depth : Nat) :
    SeesOnly World.store (reportMissing place depth : Action α) :=
  (Action.seesOnly_record _).bind fun _ => seesOnly_throw _

theorem seesOnly_descend (place : Location) (steps : List Step) (depth : Nat) (n : Node) :
    SeesOnly World.store (descend a place steps depth n) := by
  induction steps generalizing depth n with
  | nil => exact seesOnly_pure _
  | cons step rest ih =>
    refine (Action.seesOnly_read _).bind fun child? => ?_
    cases child? with
    | some child => exact ih _ _
    | none => exact seesOnly_reportMissing _ _

theorem seesOnly_nodeAt (root : Node) (place : Location) :
    SeesOnly World.store (nodeAt a root place) :=
  seesOnly_descend a _ _ _ _

theorem seesOnly_nodeAtD (root : Node) (place : Location) (default : Node) :
    SeesOnly World.store (nodeAtD a root place default) := by
  refine (seesOnly_nodeAt a root place).tryCatch fun e => ?_
  cases e with
  | notFound place depth => exact seesOnly_pure _
  | _ => exact seesOnly_throw _

theorem seesOnly_slotAt (operation : String) (root : Node) (place : Location) :
    SeesOnly World.store (slotAt a operation root place) := by
  unfold slotAt
  split
  · exact seesOnly_throw _
  · refine (seesOnly_descend a _ _ _ _).bind fun holder => ?_
    refine (Action.seesOnly_read _).bind fun child? => ?_
    cases child? with
    | some child => exact seesOnly_pure _
    | none => exact seesOnly_reportMissing _ _

theorem seesOnly_setAt (root : Node) (place : Location) (child : Node) :
    SeesOnly World.store (setAt a root place child) :=
  (seesOnly_slotAt a _ _ _).bind fun _ => (Action.seesOnly_read _).bind fun _ =>
    (Action.seesOnly_write _).bind fun _ => Action.seesOnly_record _

theorem seesOnly_removeAt (root : Node) (place : Location) :
    SeesOnly World.store (removeAt a root place) :=
  (seesOnly_slotAt a _ _ _).bind fun _ => (Action.seesOnly_read _).bind fun _ =>
    (Action.seesOnly_write _).bind fun _ => (Action.seesOnly_record _).bind fun _ =>
      seesOnly_pure _

end TreeQuery
