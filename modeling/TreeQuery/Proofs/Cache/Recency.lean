import TreeQuery.Proofs.Cache.History

/-!
# What a cache holds

Over a memory that goes by least recent use, a cache holds after any history of calls exactly the
texts that the history leaves to be remembered, the latest use first, with what reading them gives.
The invariant is this list; a call changes it and the history in the same way. That a text comes with
the object that its last reading made follows from one more: an entry is never replaced while its
text is held.
-/

namespace TreeQuery

variable {m : Memory Compiled}

/-- What a cache holds, the latest use first. -/
def Desk.entries (uses : {capacity : Nat} → m.State capacity → List (String × Compiled))
    (desk : Desk m) : List (String × Compiled) := uses desk.cache.memory

variable {uses : {capacity : Nat} → m.State capacity → List (String × Compiled)}

/-! ### One text -/

namespace Cache

theorem compile_mode (text : String) (desk : Desk m) :
    (compile text desk).2.cache.mode = desk.cache.mode := by
  simp only [compile, readAndKeep]
  split
  · rfl
  · split <;> rfl

theorem compile_capacity (text : String) (desk : Desk m) :
    (compile text desk).2.cache.capacity = desk.cache.capacity := by
  simp only [compile, readAndKeep]
  split
  · rfl
  · split <;> rfl

end Cache

theorem Call.run_mode (call : Call) (desk : Desk m) :
    (call.run desk).2.cache.mode = desk.cache.mode := by
  cases call with
  | compile text => exact Cache.compile_mode text desk
  | contains value => rfl
  | clear => rfl

theorem Call.run_capacity (call : Call) (desk : Desk m) :
    (call.run desk).2.cache.capacity = desk.cache.capacity := by
  cases call with
  | compile text => exact Cache.compile_capacity text desk
  | contains value => rfl
  | clear => rfl

namespace Cache

variable (lru : m.LeastRecent uses) {desk : Desk m} {text : String}

include lru

/-- A text that is held is not read, and compiling it is a use. -/
theorem compile_known {path : Compiled}
    (h : Members.lookup text (desk.entries uses) = some path) :
    ∃ next, compile text desk = (.ok path, next) ∧ next.log = desk.log ∧
      next.cache.readings = desk.cache.readings ∧
      next.entries uses = Memory.toFront text path (desk.entries uses) := by
  have value := (lru.fetch desk.cache.memory text).trans h
  let memory := (m.fetch desk.cache.memory text).2
  refine ⟨⟨{ desk.cache with memory }, desk.log⟩, ?_, rfl, rfl, lru.fetch_known h⟩
  simp only [compile, value, memory]

/-- A text that is not held is recorded as a miss and read. -/
theorem compile_unknown (h : Members.lookup text (desk.entries uses) = none) :
    ∃ memory, uses memory = desk.entries uses ∧
      compile text desk =
        (({ desk.cache with memory }.readAndKeep text).1,
          ⟨({ desk.cache with memory }.readAndKeep text).2,
            desk.log.push (.cacheMiss (.text text))⟩) := by
  have value := (lru.fetch desk.cache.memory text).trans h
  refine ⟨_, lru.fetch_unknown h, ?_⟩
  simp only [compile, value]

/-- What is no path is refused and leaves the contents as they are. -/
theorem compile_malformed (h : Members.lookup text (desk.entries uses) = none)
    {cause : Malformed} (bad : Expression.read desk.cache.mode text = .error cause) :
    ∃ next, compile text desk = (.error cause, next) ∧
      next.log = desk.log.push (.cacheMiss (.text text)) ∧
      next.cache.readings = desk.cache.readings + 1 ∧
      next.entries uses = desk.entries uses := by
  obtain ⟨memory, same, run⟩ := compile_unknown lru h
  simp only [readAndKeep, bad] at run
  exact ⟨_, run, rfl, rfl, same⟩

/-- A new path comes in, to the front of those for which there is still room. -/
theorem compile_valid (h : Members.lookup text (desk.entries uses) = none)
    (bound : (desk.entries uses).length ≤ desk.cache.capacity) {e : Expression}
    (good : Expression.read desk.cache.mode text = .ok e) :
    ∃ next, compile text desk = (.ok ⟨e, some desk.cache.readings⟩, next) ∧
      next.log = desk.log.push (.cacheMiss (.text text)) ∧
      next.cache.readings = desk.cache.readings + 1 ∧
      next.entries uses = (text, ⟨e, some desk.cache.readings⟩) ::
        (desk.entries uses).take (desk.cache.capacity - 1) := by
  obtain ⟨memory, same, run⟩ := compile_unknown lru h
  simp only [readAndKeep, good] at run
  refine ⟨_, run, rfl, rfl, ?_⟩
  have kept := lru.keep_new ⟨e, some desk.cache.readings⟩ (same ▸ h) (same ▸ bound)
    desk.cache.capacity_pos
  exact kept.trans (by rw [same])

end Cache

/-! ### Histories -/

/-- A path was made by a call that read its text, and the text has been held ever since. -/
def KeptSince (start : Desk m) (calls : List Call) (text : String) (path : Compiled) : Prop :=
  ∃ before later, calls = before ++ .compile text :: later ∧
    text ∉ remembered start.cache.mode start.cache.capacity before ∧
    (Cache.compile text (start.after before)).1 = .ok path ∧
    ∀ between, between <+: later →
      text ∈ remembered start.cache.mode start.cache.capacity (before ++ .compile text :: between)

/-- A text that stays held through one more call keeps its object. -/
theorem KeptSince.concat {start : Desk m} {calls : List Call} {text : String} {path : Compiled}
    (h : KeptSince start calls text path) {call : Call}
    (still : text ∈ remembered start.cache.mode start.cache.capacity (calls ++ [call])) :
    KeptSince start (calls ++ [call]) text path := by
  obtain ⟨before, later, rfl, miss, made, held⟩ := h
  refine ⟨before, later ++ [call], by simp, miss, made, ?_⟩
  intro between hb
  rcases List.prefix_concat_iff.1 hb with rfl | earlier
  · simpa using still
  · exact held between earlier

variable (uses) in
/-- After some calls the cache lists what they leave to be remembered, each text with what reading it
gives, in the object that was made when it came in. -/
structure Holds (start : Desk m) (calls : List Call) : Prop where
  mode : (start.after calls).cache.mode = start.cache.mode
  capacity : (start.after calls).cache.capacity = start.cache.capacity
  texts : ((start.after calls).entries uses).map Prod.fst =
    remembered start.cache.mode start.cache.capacity calls
  sound : ∀ e ∈ (start.after calls).entries uses,
    Expression.read start.cache.mode e.1 = .ok e.2.expression
  kept : ∀ e ∈ (start.after calls).entries uses, KeptSince start calls e.1 e.2

namespace Holds

variable {start : Desk m} {calls : List Call} {text : String}

theorem notMem_iff (h : Holds uses start calls) :
    text ∉ remembered start.cache.mode start.cache.capacity calls ↔
      Members.lookup text ((start.after calls).entries uses) = none := by
  rw [← h.texts, Members.lookup_eq_none_iff]

theorem mem_iff (h : Holds uses start calls) :
    text ∈ remembered start.cache.mode start.cache.capacity calls ↔
      ∃ path, Members.lookup text ((start.after calls).entries uses) = some path := by
  rw [← not_not (a := text ∈ _), h.notMem_iff, ← ne_eq, Option.ne_none_iff_exists']

theorem length_le (h : Holds uses start calls) :
    ((start.after calls).entries uses).length ≤ (start.after calls).cache.capacity := by
  rw [h.capacity, ← List.length_map Prod.fst, h.texts]
  exact List.length_take_le _ _

/-- For one more call it is enough to know the texts that are then held, and that every entry is an
old one or was made by the call. -/
theorem concat (h : Holds uses start calls) {call : Call}
    (texts : ((call.run (start.after calls)).2.entries uses).map Prod.fst =
      remembered start.cache.mode start.cache.capacity (calls ++ [call]))
    (entries : ∀ e ∈ (call.run (start.after calls)).2.entries uses,
      e ∈ (start.after calls).entries uses ∨
        call = .compile e.1 ∧ e.1 ∉ remembered start.cache.mode start.cache.capacity calls ∧
          Expression.read start.cache.mode e.1 = .ok e.2.expression ∧
          (Cache.compile e.1 (start.after calls)).1 = .ok e.2) :
    Holds uses start (calls ++ [call]) := by
  have held : ∀ e ∈ (call.run (start.after calls)).2.entries uses,
      e.1 ∈ remembered start.cache.mode start.cache.capacity (calls ++ [call]) :=
    fun e he => texts ▸ List.mem_map_of_mem he
  refine ⟨?_, ?_, ?_, ?_, ?_⟩ <;> rw [Desk.after_concat]
  · rw [Call.run_mode, h.mode]
  · rw [Call.run_capacity, h.capacity]
  · exact texts
  · intro e he
    rcases entries e he with old | ⟨-, -, valid, -⟩
    · exact h.sound e old
    · exact valid
  -- An old entry was kept through the call; a new one starts a stay of its own.
  · intro e he
    rcases entries e he with old | ⟨rfl, miss, -, made⟩
    · exact (h.kept e old).concat (held e he)
    · refine ⟨calls, [], rfl, miss, made, ?_⟩
      intro between hb
      rw [List.prefix_nil.1 hb]
      exact held e he

variable (lru : m.LeastRecent uses)

include lru

theorem contains_eq (h : Holds uses start calls) (text : String) :
    (start.after calls).cache.contains text =
      decide (text ∈ remembered start.cache.mode start.cache.capacity calls) := by
  have known : (start.after calls).cache.contains text =
      (Members.lookup text ((start.after calls).entries uses)).isSome := lru.contains _ text
  rw [known, Bool.eq_iff_iff, decide_eq_true_iff, h.mem_iff, Option.isSome_iff_exists]

/-- Compiling a text keeps the invariant. -/
theorem compile (h : Holds uses start calls) (text : String) :
    Holds uses start (calls ++ [.compile text]) := by
  have pos : 0 < start.cache.capacity := start.cache.capacity_pos
  have run : ((Call.compile text).run (start.after calls)).2 =
      (Cache.compile text (start.after calls)).2 := rfl
  cases hl : Members.lookup text ((start.after calls).entries uses) with
  | some path =>
    have there := Members.mem_of_lookup hl
    obtain ⟨next, hn, -, -, entries⟩ := Cache.compile_known lru hl
    refine h.concat ?_ ?_ <;> rw [run, hn, entries]
    · rw [Memory.names_toFront, h.texts,
        remembered_known calls pos (h.sound _ there) (h.mem_iff.2 ⟨path, hl⟩)]
    · intro entry he
      rcases List.mem_cons.1 he with rfl | he
      · exact .inl there
      · exact .inl (List.mem_filter.1 he).1
  | none =>
    have new := h.notMem_iff.2 hl
    cases hr : Expression.read start.cache.mode text with
    | error cause =>
      obtain ⟨next, hn, -, -, entries⟩ := Cache.compile_malformed lru hl (h.mode ▸ hr)
      refine h.concat ?_ ?_ <;> rw [run, hn, entries]
      · rw [h.texts, remembered, remembered, recentTexts_malformed calls hr]
      · exact fun entry he => .inl he
    | ok e =>
      obtain ⟨next, hn, -, -, entries⟩ := Cache.compile_valid lru hl h.length_le (h.mode ▸ hr)
      refine h.concat ?_ ?_ <;> rw [run, hn, entries]
      · rw [List.map_cons, List.map_take, h.texts, h.capacity, remembered_new calls pos hr new]
      · intro entry he
        rcases List.mem_cons.1 he with rfl | he
        · exact .inr ⟨rfl, new, hr, congrArg Prod.fst hn⟩
        · exact .inl (List.mem_of_mem_take he)

/-- Every call keeps the invariant. -/
theorem step (h : Holds uses start calls) (call : Call) : Holds uses start (calls ++ [call]) := by
  cases call with
  | compile text => exact h.compile lru text
  | contains value =>
    refine h.concat ?_ fun e he => .inl he
    rw [remembered, recentTexts_contains]
    exact h.texts
  | clear =>
    have none : (Call.clear.run (start.after calls)).2.entries uses = [] := lru.clear _
    refine h.concat ?_ ?_
    · rw [none, remembered, recentTexts_clear, List.map_nil, List.take_nil]
    · intro e he
      rw [none] at he
      cases he

/-- A cache that starts empty holds after any calls what they leave to be remembered. -/
theorem run (mode : Mode) (capacity : Nat) (pos : 0 < capacity) (log : Array Event)
    (calls : List Call) : Holds uses (⟨.empty mode capacity pos, log⟩ : Desk m) calls := by
  induction calls using List.reverseRecOn with
  | nil =>
    have none : (⟨.empty mode capacity pos, log⟩ : Desk m).entries uses = [] := lru.empty capacity
    refine ⟨rfl, rfl, ?_, ?_, ?_⟩ <;> simp [Desk.after, none, remembered, recentTexts_nil]
  | append_singleton calls call ih => exact ih.step lru call

end Holds

/-- A cache of any positive capacity, over a memory that goes by least recent use, after any calls.
It holds the valid texts compiled since all was forgotten last, by their latest compilation and as
many of them as there is room for, each with what it denotes. Looking for a text tells whether it is
one of them and changes nothing. Compiling one of them reads nothing, records nothing and gives the
very object that was made when the text was read, since when it has been held. Compiling another text
is recorded as a miss and reads it. A text that is no path is refused, every time with what the reader
says, and the contents and their order stay. -/
theorem cache_remembers (m : Memory Compiled)
    (uses : {capacity : Nat} → m.State capacity → List (String × Compiled))
    (lru : m.LeastRecent uses) (mode : Mode) (capacity : Nat) (pos : 0 < capacity)
    (log : Array Event) (calls : List Call) :
    let start : Desk m := ⟨.empty mode capacity pos, log⟩
    let desk := start.after calls
    let held := remembered mode capacity calls
    (desk.entries uses).map Prod.fst = held ∧
    desk.cache.size = min capacity (recentTexts mode calls).length ∧
    (∀ e ∈ desk.entries uses, Expression.read mode e.1 = .ok e.2.expression) ∧
    ∀ text,
      (Call.contains (.text text)).run desk = (.contained (.ok (decide (text ∈ held))), desk) ∧
      (text ∈ held →
        (Cache.compile text desk).2.cache.readings = desk.cache.readings ∧
        (Cache.compile text desk).2.log = desk.log ∧
        ∃ path, (Cache.compile text desk).1 = .ok path ∧ KeptSince start calls text path) ∧
      (text ∉ held →
        (Cache.compile text desk).2.cache.readings = desk.cache.readings + 1 ∧
        (Cache.compile text desk).2.log = desk.log.push (.cacheMiss (.text text)) ∧
        (Cache.compile text desk).1 =
          (Expression.read mode text).map fun e => ⟨e, some desk.cache.readings⟩) ∧
      ∀ cause, Expression.read mode text = .error cause →
        (Cache.compile text desk).1 = .error cause ∧
        (Cache.compile text desk).2.entries uses = desk.entries uses := by
  intro start desk held
  have h : Holds uses start calls := Holds.run lru mode capacity pos log calls
  have same_mode : desk.cache.mode = mode := h.mode
  refine ⟨h.texts, ?_, h.sound, ?_⟩
  · have names := congrArg List.length h.texts
    rw [List.length_map] at names
    exact (lru.size _).trans (names.trans List.length_take)
  intro text
  refine ⟨?_, ?_, ?_, ?_⟩
  · have known : desk.cache.contains text = decide (text ∈ held) := h.contains_eq lru text
    rw [← known]
    rfl
  · intro hm
    obtain ⟨path, hl⟩ := h.mem_iff.1 hm
    obtain ⟨next, hn, log, readings, -⟩ := Cache.compile_known lru hl
    rw [hn]
    exact ⟨readings, log, path, rfl, h.kept _ (Members.mem_of_lookup hl)⟩
  · intro hm
    have hl := h.notMem_iff.1 hm
    cases hr : Expression.read mode text with
    | error cause =>
      obtain ⟨next, hn, log, readings, -⟩ := Cache.compile_malformed lru hl (same_mode ▸ hr)
      rw [hn]
      exact ⟨readings, log, rfl⟩
    | ok e =>
      obtain ⟨next, hn, log, readings, -⟩ := Cache.compile_valid lru hl h.length_le (same_mode ▸ hr)
      rw [hn]
      exact ⟨readings, log, rfl⟩
  -- Only valid texts are ever held, so a malformed one is not.
  · intro cause hr
    have hl : Members.lookup text (desk.entries uses) = none := by
      cases hl : Members.lookup text (desk.entries uses) with
      | none => rfl
      | some path =>
        have valid := h.sound _ (Members.mem_of_lookup hl)
        cases hr.symm.trans valid
    obtain ⟨next, hn, -, -, entries⟩ := Cache.compile_malformed lru hl (same_mode ▸ hr)
    rw [hn]
    exact ⟨rfl, entries⟩

/-- In a cache for two texts the root stays, since it is used again before a third text comes in, and
it comes with the object of its first reading. -/
theorem root_stays_cached :
    let calls : List Call :=
      [.compile "$", .compile "a", .compile "a.", .compile "$", .compile "b"]
    let start : Desk := ⟨.empty .full 2 Nat.two_pos, #[]⟩
    (Memory.recent Compiled).LeastRecent (fun entries => entries) ∧
    ((start.after calls).entries fun entries => entries).map Prod.fst = ["b", "$"] ∧
    (Cache.compile "$" (start.after calls)).1 = .ok ⟨⟨[]⟩, some 0⟩ ∧
    KeptSince start calls "$" ⟨⟨[]⟩, some 0⟩ := by
  intro calls start
  have held : remembered .full 2 calls = ["b", "$"] := by decide +kernel
  have made : (Cache.compile "$" (start.after calls)).1 = .ok ⟨⟨[]⟩, some 0⟩ := by decide +kernel
  obtain ⟨texts, -, -, use⟩ := cache_remembers (.recent Compiled) (fun entries => entries)
    Memory.leastRecent_recent .full 2 Nat.two_pos #[] calls
  obtain ⟨-, hit, -, -⟩ := use "$"
  obtain ⟨-, -, path, again, kept⟩ := hit (by rw [held]; decide)
  cases made.symm.trans again
  exact ⟨Memory.leastRecent_recent, texts.trans held, made, kept⟩

end TreeQuery
