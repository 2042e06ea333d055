/-!
# Work that keeps its state when it fails

Searches and edits work on a state and may fail. A failure does not undo what was done before
it: the state that was reached is kept beside the error. The equations say how each building
block runs from a state.
-/

namespace TreeQuery

/-- Work on states of type `σ` that may fail with an error of type `ε`. -/
abbrev Effect (ε σ : Type) := ExceptT ε (StateM σ)

namespace Effect

variable {ε σ α β : Type}

theorem run_pure (a : α) (t : σ) : (pure a : Effect ε σ α) t = (.ok a, t) := rfl

theorem run_throw (e : ε) (t : σ) : (throw e : Effect ε σ α) t = (.error e, t) := rfl

theorem run_get (t : σ) : (get : Effect ε σ σ) t = (.ok t, t) := rfl

theorem run_modify (f : σ → σ) (t : σ) : (modify f : Effect ε σ PUnit) t = (.ok ⟨⟩, f t) := rfl

theorem run_bind (x : Effect ε σ α) (f : α → Effect ε σ β) (t : σ) :
    (x >>= f) t = match x t with
      | (.ok a, t') => f a t'
      | (.error e, t') => (.error e, t') := by
  simp only [bind, ExceptT.bind, ExceptT.mk, StateT.bind, ExceptT.bindCont]
  rcases x t with ⟨_ | _, _⟩ <;> rfl

/-- Two pieces of work in sequence succeed when each of them does. -/
theorem run_bind_eq_ok {x : Effect ε σ α} {f : α → Effect ε σ β} {b : β} {t u : σ} :
    (x >>= f) t = (.ok b, u) ↔ ∃ a t', x t = (.ok a, t') ∧ f a t' = (.ok b, u) := by
  rw [run_bind]
  rcases x t with ⟨e | a, t'⟩
  · exact ⟨fun h => (by cases h), fun ⟨_, _, h, _⟩ => (by cases h)⟩
  · exact ⟨fun h => ⟨a, t', rfl, h⟩, fun ⟨_, _, h, k⟩ => (by cases h; exact k)⟩

theorem run_tryCatch (x : Effect ε σ α) (handle : ε → Effect ε σ α) (t : σ) :
    (tryCatch x handle) t = match x t with
      | (.ok a, t') => (.ok a, t')
      | (.error e, t') => handle e t' := by
  simp only [tryCatch, tryCatchThe, MonadExceptOf.tryCatch, ExceptT.tryCatch, ExceptT.mk, bind,
    StateT.bind]
  rcases x t with ⟨_ | _, _⟩ <;> rfl

end Effect

end TreeQuery
