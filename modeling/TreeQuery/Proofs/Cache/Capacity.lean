import TreeQuery.Proofs.Cache.Recency

/-!
# More room is never worse

Two caches of different capacities are asked for the same. They hold first parts of one list, the
texts by their latest compilation, so the smaller one never holds a text that the larger one does
not. What either gives for a text is what reading it gives. A text that the larger one has to read
is therefore new to the smaller one as well, and no history makes the larger one read more often.
-/

namespace TreeQuery

variable {m : Memory Compiled} {uses : {capacity : Nat} → m.State capacity → List (String × Compiled)}

theorem remembered_mono (mode : Mode) {few many : Nat} (le : few ≤ many) (calls : List Call) :
    remembered mode few calls <+: remembered mode many calls := by
  unfold remembered
  exact List.take_prefix_take_left le

namespace Holds

variable (lru : m.LeastRecent uses) {start : Desk m} {calls : List Call}

include lru

/-- Compiling gives what reading gives, and counts as a reading unless the text is remembered. -/
theorem compile_spec (h : Holds uses start calls) (text : String) :
    (Cache.compile text (start.after calls)).1.map Compiled.expression =
        Expression.read start.cache.mode text ∧
      (Cache.compile text (start.after calls)).2.cache.readings =
        (start.after calls).cache.readings +
          if text ∈ remembered start.cache.mode start.cache.capacity calls then 0 else 1 := by
  cases hl : Members.lookup text ((start.after calls).entries uses) with
  | some path =>
    have valid := h.sound _ (Members.mem_of_lookup hl)
    obtain ⟨next, run, -, readings, -⟩ := Cache.compile_known lru hl
    rw [run, valid, readings, if_pos (h.mem_iff.2 ⟨path, hl⟩)]
    exact ⟨rfl, rfl⟩
  | none =>
    have new := h.notMem_iff.2 hl
    rw [if_neg new]
    cases hr : Expression.read start.cache.mode text with
    | error cause =>
      obtain ⟨next, run, -, readings, -⟩ := Cache.compile_malformed lru hl (h.mode ▸ hr)
      rw [run, readings]
      exact ⟨rfl, rfl⟩
    | ok e =>
      obtain ⟨next, run, -, readings, -⟩ := Cache.compile_valid lru hl h.length_le (h.mode ▸ hr)
      rw [run, readings]
      exact ⟨rfl, rfl⟩

/-- A call does not make the cache with more room catch up with the readings of the other one. -/
theorem readings_step {other : Desk m} (small : Holds uses start calls)
    (large : Holds uses other calls) (le : start.cache.capacity ≤ other.cache.capacity)
    (mode : start.cache.mode = other.cache.mode) (call : Call)
    (before : (other.after calls).cache.readings ≤ (start.after calls).cache.readings) :
    (other.after (calls ++ [call])).cache.readings ≤
      (start.after (calls ++ [call])).cache.readings := by
  rw [Desk.after_concat, Desk.after_concat]
  cases call with
  | compile text =>
    have few := (small.compile_spec lru text).2
    have many := (large.compile_spec lru text).2
    have inherited : text ∈ remembered start.cache.mode start.cache.capacity calls →
        text ∈ remembered other.cache.mode other.cache.capacity calls := by
      intro h
      rw [← mode]
      exact (remembered_mono _ le calls).subset h
    change (Cache.compile text (other.after calls)).2.cache.readings ≤
      (Cache.compile text (start.after calls)).2.cache.readings
    rw [few, many]
    by_cases known : text ∈ remembered start.cache.mode start.cache.capacity calls
    · rw [if_pos known, if_pos (inherited known)]
      omega
    · rw [if_neg known]
      split <;> omega
  | contains value => exact before
  | clear => exact before

/-- No history makes a cache with more room read more often. -/
theorem readings_run (mode : Mode) {few many : Nat} (pos : 0 < few) (pos' : 0 < many)
    (le : few ≤ many) (log log' : Array Event) (calls : List Call) :
    ((⟨.empty mode many pos', log'⟩ : Desk m).after calls).cache.readings ≤
      ((⟨.empty mode few pos, log⟩ : Desk m).after calls).cache.readings := by
  induction calls using List.reverseRecOn with
  | nil => exact Nat.le_refl 0
  | append_singleton calls call ih =>
    have small := Holds.run lru mode few pos log calls
    have large := Holds.run lru mode many pos' log' calls
    exact readings_step lru small large le rfl call ih

end Holds

/-- Two caches over memories that go by least recent use, empty at first and asked for the same, in
whatever order and however long. The texts that the smaller one holds are the first ones of those that
the larger one holds, both listed by their latest compilation. The larger one has read texts at most
as often, those included that are no paths. Both give equal paths for a text or refuse it for the same
cause. -/
theorem larger_cache_no_worse (m : Memory Compiled)
    (uses : {capacity : Nat} → m.State capacity → List (String × Compiled))
    (lru : m.LeastRecent uses) (mode : Mode) (few many : Nat) (pos : 0 < few) (le : few ≤ many)
    (log log' : Array Event) (calls : List Call) :
    let small := (⟨.empty mode few pos, log⟩ : Desk m).after calls
    let large := (⟨.empty mode many (Nat.lt_of_lt_of_le pos le), log'⟩ : Desk m).after calls
    (small.entries uses).map Prod.fst <+: (large.entries uses).map Prod.fst ∧
    (∀ text, small.cache.contains text = true → large.cache.contains text = true) ∧
    large.cache.readings ≤ small.cache.readings ∧
    ∀ text, (Cache.compile text small).1.map Compiled.expression =
      (Cache.compile text large).1.map Compiled.expression := by
  intro small large
  have pos' : 0 < many := Nat.lt_of_lt_of_le pos le
  have h := Holds.run lru mode few pos log calls
  have h' := Holds.run lru mode many pos' log' calls
  refine ⟨?_, ?_, ?_, ?_⟩
  · rw [h.texts, h'.texts]
    exact remembered_mono mode le calls
  · intro text
    rw [h.contains_eq lru, h'.contains_eq lru, decide_eq_true_iff, decide_eq_true_iff]
    intro held
    exact (remembered_mono mode le calls).subset held
  · exact Holds.readings_run lru mode pos pos' le log log' calls
  · intro text
    rw [(h.compile_spec lru text).1, (h'.compile_spec lru text).1]
    rfl

/-- Two texts in turn are read again and again where there is room for one, and once each where there is
room for both. A text that is no path is read by either cache, and neither takes it in. -/
theorem room_for_two_texts :
    let calls : List Call :=
      [.compile "a", .compile "$.b", .compile "a", .compile "a.", .compile "$.b"]
    let small := (⟨.empty .full 1 Nat.one_pos, #[]⟩ : Desk).after calls
    let large := (⟨.empty .full 2 Nat.two_pos, #[]⟩ : Desk).after calls
    (Memory.recent Compiled).LeastRecent (fun entries => entries) ∧ 0 < 1 ∧ 1 ≤ 2 ∧
    (small.entries fun entries => entries).map Prod.fst = ["$.b"] ∧
    (large.entries fun entries => entries).map Prod.fst = ["$.b", "a"] ∧
    small.cache.readings = 5 ∧ large.cache.readings ≤ 5 ∧
    (Cache.compile "a." small).1.map Compiled.expression =
      (Cache.compile "a." large).1.map Compiled.expression := by
  intro calls small large
  have read : small.cache.readings = 5 := by decide +kernel
  obtain ⟨-, -, fewer, same⟩ := larger_cache_no_worse (.recent Compiled) (fun entries => entries)
    Memory.leastRecent_recent .full 1 2 Nat.one_pos (by decide) #[] #[] calls
  exact ⟨Memory.leastRecent_recent, by decide, by decide, by decide +kernel, by decide +kernel, read,
    read ▸ fewer, same "a."⟩

end TreeQuery
