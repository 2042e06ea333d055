import TreeQuery.Finder
import TreeQuery.Proofs.Cache.Recency
import TreeQuery.Proofs.Record
import TreeQuery.Reading

/-!
# The cache does not show

A finder is asked for searches and edits, one after the other, while the trees may change in between.
Whatever it was asked before, it answers and leaves the trees as one with an empty cache would. The
invariant is that every entry of the cache is what reading its text gives: it holds of an empty cache
and is kept by every request, whether it succeeds or fails. Only a search for a text that is a path
changes the contents, even if the search then fails: the text comes to the front.
-/

namespace TreeQuery

/-! ### Requests -/

/-- What a finder can be asked for. -/
inductive Request
  | compile (path : PathArgument)
  | resolve (root : Node) (path : PathArgument)
  | find (root : Node) (path : PathArgument)
  | first (root : Node) (path : PathArgument)
  | get (root : Node) (path : PathArgument) (default : Option Node)
  | set (root : Node) (path : PathArgument) (child : Node)
  | remove (root : Node) (path : PathArgument)

/-- What a request gives. Of a compiled path only what it denotes counts, not which object it is. -/
inductive Answer
  | path (e : Expression)
  | result (r : Result)
  | nodes (nodes : List Node)
  | first (found : Option Match)
  | node (n : Node)
  | done

variable {m : Memory Compiled}

def Request.run (settings : Settings) : Request → Finder Answer m
  | compile path => return .path (← Finder.compile path).expression
  | resolve root path => return .result (← Finder.resolve settings root path)
  | find root path => return .nodes (← Finder.find settings root path)
  | first root path => return .first (← Finder.first settings root path)
  | get root path default => return .node (← Finder.get settings root path default)
  | set root path child => do
    Finder.set settings root path child
    return .done
  | remove root path => return .node (← Finder.remove settings root path)

/-- The text of a search path that is handed in as one. -/
def PathArgument.searchText? : PathArgument → Option String
  | value (.scalar (.text text)) => some text
  | _ => none

/-- The text that a request searches for. Edits search for nothing. -/
def Request.searchText? : Request → Option String
  | compile path | resolve _ path | find _ path | first _ path => path.searchText?
  | get _ _ _ | set _ _ _ | remove _ _ => none

/-- A request, or a change of the trees by their owner. -/
inductive Move
  | ask (q : Request)
  | change (store : Store)

def Move.run (settings : Settings) (w : Workspace m) : Move → Workspace m
  | ask q => (q.run settings w).2
  | change store => { w with store }

def Workspace.after (settings : Settings) (w : Workspace m) (moves : List Move) : Workspace m :=
  moves.foldl (Move.run settings) w

/-! ### Requests without a cache -/

/-- The search path that is handed in, or that the text handed in denotes. -/
def PathArgument.toExpression : PathArgument → Except Error Expression
  | expression e => .ok e
  | value (.scalar (.text text)) => (Expression.read .full text).mapError .malformed
  | argument => .error (.argument (.notPath argument.typeName))

namespace Action

def ofExcept {α : Type} (x : Except Error α) : Action α := fun w => (x, w)

theorem seesOnly_ofExcept {α : Type} (x : Except Error α) :
    Effect.SeesOnly World.store (ofExcept x) :=
  fun _ _ same => ⟨rfl, same⟩

end Action

section Uncached

variable (settings : Settings) (root : Node) (path : PathArgument)

def resolveAnew : Action Result := do
  resolve settings.access settings.options root (← Action.ofExcept path.toExpression)

def getAnew (default : Option Node) : Action Node := do
  let place ← Action.ofExcept path.toLocation
  match default with
  | none => nodeAt settings.access root place
  | some default => nodeAtD settings.access root place default

def setAnew (child : Node) : Action Unit := do
  setAt settings.access root (← Action.ofExcept path.toLocation) child

def removeAnew : Action Node := do
  removeAt settings.access root (← Action.ofExcept path.toLocation)

/-- What a request comes to when every text is read anew. -/
def Request.uncached : Request → Action Answer
  | compile path => return .path (← Action.ofExcept path.toExpression)
  | resolve root path => return .result (← resolveAnew settings root path)
  | find root path => return .nodes (← resolveAnew settings root path).nodes
  | first root path => return .first (← resolveAnew settings root path).first?
  | get root path default => return .node (← getAnew settings root path default)
  | set root path child => do
    setAnew settings root path child
    return .done
  | remove root path => return .node (← removeAnew settings root path)

end Uncached

/-! ### Entries are what reading gives -/

variable (uses : {capacity : Nat} → m.State capacity → List (String × Compiled))

/-- The entries of a cache, no more than there is room for, are what reading their texts gives. -/
structure Cache.Faithful (capacity : Nat) (c : Cache m) : Prop where
  mode : c.mode = .full
  capacity_eq : c.capacity = capacity
  length_le : (uses c.memory).length ≤ capacity
  sound : ∀ e ∈ uses c.memory, Expression.read .full e.1 = .ok e.2.expression

/-- What compiling a text makes of the contents: a path comes to the front of what there is room for,
and all else leaves them as they are. -/
def Compiles (text : String) (capacity : Nat) (before after : List (String × Compiled)) : Prop :=
  (∀ cause, Expression.read .full text = .error cause → after = before) ∧
  ∀ e, Expression.read .full text = .ok e →
    ∃ path : Compiled, path.expression = e ∧ after = (Memory.toFront text path before).take capacity

variable {uses} {capacity : Nat} {desk : Desk m}

/-- Compiling keeps the entries what reading their texts gives. -/
theorem Cache.Faithful.after_compile (h : desk.cache.Faithful uses capacity) {text : String}
    (contents : Compiles text capacity (desk.entries uses)
      ((compile text desk).2.entries uses)) :
    (compile text desk).2.cache.Faithful uses capacity := by
  have mode := (compile_mode text desk).trans h.mode
  have size := (compile_capacity text desk).trans h.capacity_eq
  obtain ⟨malformed, valid⟩ := contents
  cases hr : Expression.read .full text with
  | error cause =>
    have same : uses (compile text desk).2.cache.memory = uses desk.cache.memory :=
      malformed cause hr
    exact ⟨mode, size, same ▸ h.length_le, same ▸ h.sound⟩
  | ok e =>
    obtain ⟨path, rfl, entries⟩ := valid e hr
    have entries : uses (compile text desk).2.cache.memory =
        (Memory.toFront text path (uses desk.cache.memory)).take capacity := entries
    refine ⟨mode, size, ?_, ?_⟩ <;> rw [entries]
    · exact List.length_take_le _ _
    · intro entry he
      rcases List.mem_cons.1 (List.mem_of_mem_take he) with rfl | he
      · exact hr
      · exact h.sound entry (List.mem_filter.1 he).1

variable (lru : m.LeastRecent uses)

include lru

theorem Cache.faithful_empty (pos : 0 < capacity) :
    Cache.Faithful uses capacity (.empty .full capacity pos) := by
  have none : uses (Cache.empty (m := m) .full capacity pos).memory = [] := lru.empty capacity
  refine ⟨rfl, rfl, ?_, ?_⟩ <;> simp [none]

/-- Compiling a text gives what reading it gives, whether it is held or not. -/
theorem Cache.Faithful.compile (h : desk.cache.Faithful uses capacity) (text : String) :
    (compile text desk).1.map Compiled.expression = Expression.read .full text ∧
      Compiles text capacity (desk.entries uses) ((compile text desk).2.entries uses) := by
  have bound : (desk.entries uses).length ≤ capacity := h.length_le
  cases hl : Members.lookup text (desk.entries uses) with
  | some path =>
    have valid : Expression.read .full text = .ok path.expression :=
      h.sound _ (Members.mem_of_lookup hl)
    obtain ⟨next, hn, -, -, entries⟩ := compile_known lru hl
    rw [hn, valid]
    refine ⟨rfl, fun cause hr => (by cases hr.symm.trans valid), fun e hr => ?_⟩
    cases hr.symm.trans valid
    exact ⟨path, rfl, entries.trans (Memory.take_toFront_known hl bound).symm⟩
  | none =>
    cases hr : Expression.read .full text with
    | error cause =>
      obtain ⟨next, hn, -, -, entries⟩ := compile_malformed lru hl (h.mode ▸ hr)
      rw [hn]
      exact ⟨rfl, fun _ _ => entries, fun e valid => (by cases valid.symm.trans hr)⟩
    | ok e =>
      obtain ⟨next, hn, -, -, entries⟩ :=
        compile_valid lru hl (h.capacity_eq ▸ bound) (h.mode ▸ hr)
      rw [hn]
      refine ⟨rfl, fun cause bad => (by cases bad.symm.trans hr), fun f valid => ?_⟩
      cases valid.symm.trans hr
      refine ⟨⟨e, some desk.cache.readings⟩, rfl, ?_⟩
      rw [entries, Memory.toFront_of_lookup hl, ← h.capacity_eq,
        List.take_cons desk.cache.capacity_pos]

omit lru

/-! ### One request -/

variable (uses capacity) in
/-- What searching for a text, if there is one, makes of a cache. -/
structure Searched (text? : Option String) (before after : Cache m) : Prop where
  none : text? = none → after = before
  some : ∀ text, text? = some text → Compiles text capacity (uses before.memory) (uses after.memory)

variable (uses capacity) in
/-- From a cache whose entries are what reading gives, a finder does what an action does that has no
cache and does not look at the record, and its cache is that after one search at most. -/
structure Finder.Agrees {α : Type} (text? : Option String) (x : Finder α m) (y : Action α) :
    Prop where
  unrecorded : Effect.SeesOnly World.store y
  run : ∀ w : Workspace m, w.cache.Faithful uses capacity →
    (x w).1 = (y w.toWorld).1 ∧ (x w).2.store = (y w.toWorld).2.store ∧
      (x w).2.cache.Faithful uses capacity ∧ Searched uses capacity text? w.cache (x w).2.cache

namespace Finder.Agrees

open Effect

variable {α β : Type} {text? : Option String} {x : Finder α m} {y : Action α}

theorem onWorld {act : Action α} (h : SeesOnly World.store act) :
    Agrees uses capacity none (Finder.onWorld (m := m) act) act :=
  ⟨h, fun _ hw => ⟨rfl, rfl, hw, ⟨fun _ => rfl, fun _ some => (by cases some)⟩⟩⟩

theorem pure (a : α) : Agrees uses capacity none (pure a : Finder α m) (pure a) :=
  onWorld (seesOnly_pure a)

theorem ofExcept (outcome : Except Error α) :
    Agrees uses capacity none (Finder.ofExcept (m := m) outcome) (Action.ofExcept outcome) := by
  cases outcome with
  | ok a => exact pure a
  | error e => exact onWorld (seesOnly_throw e)

/-- After a search more can be done that leaves the cache alone. -/
theorem bind {f : α → Finder β m} {g : α → Action β} (h : Agrees uses capacity text? x y)
    (hf : ∀ a, Agrees uses capacity none (f a) (g a)) :
    Agrees uses capacity text? (x >>= f) (y >>= g) := by
  refine ⟨h.unrecorded.bind fun a => (hf a).unrecorded, fun w hw => ?_⟩
  obtain ⟨outcome, store, faithful, searched⟩ := h.run w hw
  rw [run_bind, run_bind]
  rcases hx : x w with ⟨e | a, w'⟩ <;> rcases hy : y w.toWorld with ⟨e' | b, v⟩ <;>
    rw [hx] at outcome store faithful searched <;> rw [hy] at outcome store
  · cases outcome
    exact ⟨rfl, store, faithful, searched⟩
  · cases outcome
  · cases outcome
  · cases outcome
    obtain ⟨answer, left, kept, same⟩ := (hf a).run w' faithful
    obtain ⟨answer', left'⟩ := (hf a).unrecorded w'.toWorld v store
    have unchanged : (f a w').2.cache = w'.cache := same.none rfl
    exact ⟨answer.trans answer', left.trans left', kept, unchanged ▸ searched⟩

theorem map (h : Agrees uses capacity text? x y) (f : α → β) :
    Agrees uses capacity text? (do return f (← x)) (do return f (← y)) :=
  h.bind fun a => pure (f a)

include lru

theorem compileText (text : String) :
    Agrees uses capacity (some text)
      (do return (← Finder.compileText (m := m) text).expression)
      (Action.ofExcept ((Expression.read .full text).mapError .malformed)) := by
  refine ⟨Action.seesOnly_ofExcept _, fun w hw => ?_⟩
  have hw : (⟨w.cache, w.log⟩ : Desk m).cache.Faithful uses capacity := hw
  obtain ⟨outcome, contents⟩ := hw.compile lru text
  have kept := hw.after_compile contents
  have run : (do return (← Finder.compileText (m := m) text).expression : Finder Expression m) w =
      let done := Cache.compile text ⟨w.cache, w.log⟩
      ((done.1.map Compiled.expression).mapError .malformed,
        { w with cache := done.2.cache, log := done.2.log }) := by
    rw [run_bind, Finder.compileText]
    rcases Cache.compile text ⟨w.cache, w.log⟩ with ⟨_ | path, desk⟩ <;> rfl
  rw [run, ← outcome]
  refine ⟨rfl, rfl, kept, ⟨fun none => (by cases none), fun text' same => ?_⟩⟩
  cases same
  exact contents

theorem compile (path : PathArgument) :
    Agrees uses capacity path.searchText? (do return (← Finder.compile (m := m) path).expression)
      (Action.ofExcept path.toExpression) := by
  cases path with
  | expression e => exact pure e
  | location l => exact onWorld (seesOnly_throw _)
  | value v =>
    cases v with
    | scalar content =>
      cases content with
      | text text => exact compileText lru text
      | _ => exact onWorld (seesOnly_throw _)
    | _ => exact onWorld (seesOnly_throw _)

variable (settings : Settings) (root : Node) (path : PathArgument)

theorem resolve : Agrees uses capacity path.searchText? (Finder.resolve (m := m) settings root path)
    (resolveAnew settings root path) := by
  have split : Finder.resolve (m := m) settings root path =
      (do return (← Finder.compile (m := m) path).expression) >>= fun e =>
        Finder.onWorld (TreeQuery.resolve settings.access settings.options root e) := by
    simp only [Finder.resolve, bind_assoc, pure_bind]
  rw [split]
  exact (compile lru path).bind fun e => onWorld (seesOnly_resolve _ _ _ _)

omit lru

theorem get (default : Option Node) :
    Agrees uses capacity none (Finder.get (m := m) settings root path default)
      (getAnew settings root path default) := by
  refine (ofExcept _).bind fun place => ?_
  cases default with
  | none => exact onWorld (seesOnly_nodeAt _ _ _)
  | some default => exact onWorld (seesOnly_nodeAtD _ _ _ _)

theorem set (child : Node) :
    Agrees uses capacity none (Finder.set (m := m) settings root path child)
      (setAnew settings root path child) :=
  (ofExcept _).bind fun _ => onWorld (seesOnly_setAt _ _ _ _)

theorem remove :
    Agrees uses capacity none (Finder.remove (m := m) settings root path)
      (removeAnew settings root path) :=
  (ofExcept _).bind fun _ => onWorld (seesOnly_removeAt _ _ _)

end Finder.Agrees

variable (settings : Settings)

include lru in
/-- Every request does what it does without a cache. -/
theorem Request.agrees (q : Request) :
    Finder.Agrees uses capacity q.searchText? (q.run (m := m) settings) (q.uncached settings) := by
  cases q with
  | compile path =>
    have agrees : Finder.Agrees uses capacity path.searchText? _ _ :=
      (Finder.Agrees.compile lru path).map Answer.path
    simpa only [run, uncached, searchText?, bind_assoc, pure_bind] using agrees
  | resolve root path => exact (Finder.Agrees.resolve lru settings root path).map Answer.result
  | find root path =>
    have agrees : Finder.Agrees uses capacity path.searchText? _ _ :=
      (Finder.Agrees.resolve lru settings root path).map fun r => Answer.nodes r.nodes
    simpa only [run, uncached, searchText?, Finder.find, bind_assoc, pure_bind] using agrees
  | first root path =>
    have agrees : Finder.Agrees uses capacity path.searchText? _ _ :=
      (Finder.Agrees.resolve lru settings root path).map fun r => Answer.first r.first?
    simpa only [run, uncached, searchText?, Finder.first, bind_assoc, pure_bind] using agrees
  | get root path default => exact (Finder.Agrees.get settings root path default).map Answer.node
  | set root path child =>
    exact (Finder.Agrees.set settings root path child).map fun _ => Answer.done
  | remove root path => exact (Finder.Agrees.remove settings root path).map Answer.node

/-! ### Histories -/

include lru in
theorem Move.faithful {w : Workspace m} (h : w.cache.Faithful uses capacity) (move : Move) :
    (move.run settings w).cache.Faithful uses capacity := by
  cases move with
  | ask q =>
    obtain ⟨-, -, kept, -⟩ := (q.agrees lru settings).run w h
    exact kept
  | change store => exact h

include lru in
/-- Whatever a finder is asked, the entries of its cache stay what reading their texts gives. -/
theorem Workspace.faithful_after {w : Workspace m} (h : w.cache.Faithful uses capacity)
    (moves : List Move) : (w.after settings moves).cache.Faithful uses capacity := by
  induction moves generalizing w with
  | nil => exact h
  | cons move rest ih => exact ih (Move.faithful lru settings h move)

omit settings

/-- After any history a request is answered as by a finder with an empty cache on the same trees,
whatever was recorded before, and it leaves the trees as that one does. The cache is left alone by
every request that searches for no text. A text that is no path leaves its contents as they are, and
one that is a path comes to the front with what it denotes, whatever becomes of the search. -/
theorem cache_transparent (m : Memory Compiled)
    (uses : {capacity : Nat} → m.State capacity → List (String × Compiled))
    (lru : m.LeastRecent uses) (settings : Settings) (capacity : Nat) (pos : 0 < capacity)
    (world : World) (moves : List Move) (q : Request) (log : Array Event) :
    let w := (⟨world, .empty .full capacity pos⟩ : Workspace m).after settings moves
    let fresh : Workspace m := ⟨⟨w.store, log⟩, .empty .full Cache.defaultCapacity (by decide)⟩
    (q.run settings w).1 = (q.run settings fresh).1 ∧
    (q.run settings w).2.store = (q.run settings fresh).2.store ∧
    (q.searchText? = none → (q.run settings w).2.cache = w.cache) ∧
    ∀ text, q.searchText? = some text →
      (∀ cause, Expression.read .full text = .error cause →
        uses (q.run settings w).2.cache.memory = uses w.cache.memory) ∧
      (∀ e, Expression.read .full text = .ok e → ∃ path : Compiled, path.expression = e ∧
        uses (q.run settings w).2.cache.memory =
          (Memory.toFront text path (uses w.cache.memory)).take capacity) := by
  intro w fresh
  have faithful : w.cache.Faithful uses capacity :=
    Workspace.faithful_after lru settings (Cache.faithful_empty lru pos) moves
  have faithful' : fresh.cache.Faithful uses Cache.defaultCapacity := Cache.faithful_empty lru _
  have agrees : Finder.Agrees uses capacity q.searchText? _ _ := q.agrees lru settings
  obtain ⟨answer, store, -, searched⟩ := agrees.run w faithful
  obtain ⟨answer', store', -, -⟩ := (q.agrees lru settings).run fresh faithful'
  obtain ⟨outcome, left⟩ := agrees.unrecorded w.toWorld fresh.toWorld rfl
  refine ⟨answer.trans (outcome.trans answer'.symm), store.trans (left.trans store'.symm),
    searched.none, ?_⟩
  intro text ht
  exact searched.some text ht

/-- The tree `{"a": null}`, just loaded. -/
def nullMember : Node × Store := Store.empty.load (.object .mapping [("a", .scalar .null)])

/-- A search for a missing member fails as before when its text was driven out and the tree was put
back, and its text is then the one that a cache for a single text holds. -/
theorem failed_search_is_remembered :
    let settings : Settings := ⟨Reading.standard.access, { strict := true }⟩
    let search (text : String) : Request := .resolve nullMember.1 (.value (.scalar (.text text)))
    let moves : List Move :=
      [.ask (search "b"), .ask (search "a"), .ask (search "b."),
        .ask (.remove nullMember.1 (.value (.scalar (.text "a")))), .change nullMember.2]
    let w := (⟨⟨nullMember.2, #[]⟩, .empty .full 1 Nat.one_pos⟩ : Workspace).after settings moves
    let fresh : Workspace := ⟨⟨w.store, #[]⟩, .empty .full Cache.defaultCapacity (by decide)⟩
    (Memory.recent Compiled).LeastRecent (fun entries => entries) ∧ 0 < 1 ∧
    ((search "b").run settings fresh).1 = .error (.unresolved .root (.missingKey "b")) ∧
    ((search "b").run settings w).1 = .error (.unresolved .root (.missingKey "b")) ∧
    ∃ path : Compiled, path.expression = ⟨[.key "b" false]⟩ ∧
      ((search "b").run settings w).2.cache.memory = [("b", path)] := by
  intro settings search moves w fresh
  have denotes : Expression.read .full "b" = .ok ⟨[.key "b" false]⟩ := by decide +kernel
  have fails :
      ((search "b").run settings fresh).1 = .error (.unresolved .root (.missingKey "b")) := by
    have agrees := ((search "b").agrees Memory.leastRecent_recent settings).run fresh
      (Cache.faithful_empty Memory.leastRecent_recent _)
    refine agrees.1.trans ?_
    simp only [search, Request.uncached, resolveAnew, PathArgument.toExpression, denotes]
    rfl
  obtain ⟨answer, -, -, contents⟩ := cache_transparent (.recent Compiled) (fun entries => entries)
    Memory.leastRecent_recent settings 1 Nat.one_pos ⟨nullMember.2, #[]⟩ moves (search "b") #[]
  obtain ⟨path, same, entries⟩ := (contents "b" rfl).2 _ denotes
  exact ⟨Memory.leastRecent_recent, Nat.one_pos, fails, answer.trans fails, path, same, entries⟩

end TreeQuery
