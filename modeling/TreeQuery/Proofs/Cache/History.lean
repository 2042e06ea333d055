import Mathlib.Data.List.Induction
import TreeQuery.Cache

/-!
# Histories of a cache

A cache is used by calls: a text is compiled, a value is looked for, or all is forgotten. What a
history of calls leaves to be remembered is said here from the calls alone: the valid texts that
were compiled since all was forgotten last, each once, the one compiled last in front, and of these
as many as there is room for. One more call changes this as follows: a valid text comes to the front.
-/

namespace TreeQuery

/-! ### Lists without repetition -/

section Lists

variable {α : Type} [DecidableEq α]

theorem eraseDups_filter (p : α → Bool) (l : List α) :
    (l.filter p).eraseDups = l.eraseDups.filter p := by
  cases l with
  | nil => simp
  | cons a rest =>
    have below := eraseDups_filter p (rest.filter fun b => !b == a)
    rw [List.eraseDups_cons, List.filter_cons, List.filter_cons]
    by_cases hp : p a
    · have swapped : (rest.filter p).filter (fun b => !b == a) =
          (rest.filter fun b => !b == a).filter p := by
        rw [List.filter_filter, List.filter_filter]
        exact List.filter_congr fun b _ => Bool.and_comm _ _
      rw [if_pos hp, if_pos hp, List.eraseDups_cons, ← below, swapped]
    · have others : (rest.filter fun b => !b == a).filter p = rest.filter p := by
        rw [List.filter_filter]
        refine List.filter_congr fun b _ => ?_
        by_cases hb : b = a <;> simp [hb, hp]
      rw [if_neg hp, if_neg hp, ← below, others]
termination_by l.length
decreasing_by
  have := List.length_filter_le (fun b => !b == a) rest
  simp only [List.length_cons]
  omega

/-- The last occurrence to be put in front is the one that stays. -/
theorem eraseDups_cons_eq (a : α) (l : List α) :
    (a :: l).eraseDups = a :: l.eraseDups.filter (· ≠ a) := by
  have same : (fun b => !b == a) = fun b => decide (b ≠ a) := by
    funext b
    by_cases h : b = a <;> simp [h]
  rw [List.eraseDups_cons, same, eraseDups_filter]

/-- An item among the first can be dropped before or after they are cut off. -/
theorem filter_take_of_mem {a : α} {l : List α} {n : Nat} (nodup : l.Nodup)
    (h : a ∈ l.take (n + 1)) :
    (l.take (n + 1)).filter (· ≠ a) = (l.filter (· ≠ a)).take n := by
  induction l generalizing n with
  | nil => simp at h
  | cons b rest ih =>
    rw [List.nodup_cons] at nodup
    by_cases hb : b = a
    · subst hb
      have rest_eq : rest.filter (· ≠ b) = rest := by
        refine List.filter_eq_self.2 fun c hc => ?_
        simpa using fun same : c = b => nodup.1 (same ▸ hc)
      have take_eq : (rest.take n).filter (· ≠ b) = rest.take n := by
        refine List.filter_eq_self.2 fun c hc => ?_
        simpa using fun same : c = b => nodup.1 (same ▸ List.mem_of_mem_take hc)
      rw [List.take_succ_cons, List.filter_cons_of_neg (by simp), take_eq,
        List.filter_cons_of_neg (by simp), rest_eq]
    · have later : a ∈ rest.take n := by
        simpa [Ne.symm hb] using h
      cases n with
      | zero => simp at later
      | succ n =>
        rw [List.take_succ_cons, List.filter_cons_of_pos (by simpa using hb), ih nodup.2 later,
          List.filter_cons_of_pos (by simpa using hb), List.take_succ_cons]

/-- What is not among the first does not keep others from being so. -/
theorem take_filter_of_notMem {a : α} {l : List α} {n : Nat} (h : a ∉ l.take n) :
    (l.filter (· ≠ a)).take n = l.take n := by
  induction l generalizing n with
  | nil => rfl
  | cons b rest ih =>
    cases n with
    | zero => rfl
    | succ n =>
      rw [List.take_succ_cons, List.mem_cons, not_or] at h
      rw [List.filter_cons_of_pos (by simpa using Ne.symm h.1), List.take_succ_cons, ih h.2,
        List.take_succ_cons]

end Lists

/-! ### Calls -/

/-- What a cache can be asked. -/
inductive Call
  | compile (text : String)
  | contains (value : Value)
  | clear

inductive Reply
  | compiled (outcome : Except Malformed Compiled)
  | contained (outcome : Except Refusal Bool)
  | cleared

namespace Call

variable {m : Memory Compiled}

/-- What a call gives, and what it makes of the cache and the record. -/
def run (desk : Desk m) : Call → Reply × Desk m
  | compile text =>
    let (outcome, desk) := Cache.compile text desk
    (.compiled outcome, desk)
  | contains value => (.contained (desk.cache.containsValue value), desk)
  | clear => (.cleared, { desk with cache := desk.cache.clear })

def isClear : Call → Bool
  | clear => true
  | _ => false

/-- The text that a call compiles, if it is a path. -/
def validText? (mode : Mode) : Call → Option String
  | compile text => if (Expression.read mode text).isOk then some text else none
  | _ => none

end Call

/-- Runs calls one after the other. -/
def Desk.after {m : Memory Compiled} (desk : Desk m) (calls : List Call) : Desk m :=
  calls.foldl (fun desk call => (call.run desk).2) desk

theorem Desk.after_concat {m : Memory Compiled} (desk : Desk m) (calls : List Call) (call : Call) :
    desk.after (calls ++ [call]) = (call.run (desk.after calls)).2 := by
  rw [after, List.foldl_append]
  rfl

/-- The valid texts compiled since all was forgotten last, each of them once, the one compiled last
in front. -/
def recentTexts (mode : Mode) (calls : List Call) : List String :=
  ((calls.reverse.takeWhile (!·.isClear)).filterMap (Call.validText? mode)).eraseDups

/-- The recent texts for which a cache of some capacity has room. -/
def remembered (mode : Mode) (capacity : Nat) (calls : List Call) : List String :=
  (recentTexts mode calls).take capacity

section Steps

variable (mode : Mode) (calls : List Call)

theorem recentTexts_nil : recentTexts mode [] = [] := rfl

theorem recentTexts_clear : recentTexts mode (calls ++ [.clear]) = [] := by
  rw [recentTexts, List.reverse_concat, List.takeWhile_cons_of_neg (by simp [Call.isClear])]
  rfl

theorem recentTexts_contains (value : Value) :
    recentTexts mode (calls ++ [.contains value]) = recentTexts mode calls := by
  rw [recentTexts, List.reverse_concat, List.takeWhile_cons_of_pos rfl,
    List.filterMap_cons_none rfl, recentTexts]

variable {mode} {text : String}

theorem recentTexts_malformed {cause : Malformed} (h : Expression.read mode text = .error cause) :
    recentTexts mode (calls ++ [.compile text]) = recentTexts mode calls := by
  have none : (Call.compile text).validText? mode = none := by
    rw [Call.validText?, h]
    rfl
  rw [recentTexts, List.reverse_concat, List.takeWhile_cons_of_pos rfl,
    List.filterMap_cons_none none, recentTexts]

theorem recentTexts_valid {e : Expression} (h : Expression.read mode text = .ok e) :
    recentTexts mode (calls ++ [.compile text]) =
      text :: (recentTexts mode calls).filter (· ≠ text) := by
  have front : (Call.compile text).validText? mode = some text := by
    rw [Call.validText?, h]
    rfl
  rw [recentTexts, List.reverse_concat, List.takeWhile_cons_of_pos rfl,
    List.filterMap_cons_some front, eraseDups_cons_eq, recentTexts]

theorem nodup_recentTexts : (recentTexts mode calls).Nodup := by
  induction calls using List.reverseRecOn with
  | nil => exact .nil
  | append_singleton calls call ih =>
    cases call with
    | compile text =>
      cases h : Expression.read mode text with
      | error cause => rwa [recentTexts_malformed calls h]
      | ok e =>
        rw [recentTexts_valid calls h]
        exact List.nodup_cons.2 ⟨by simp, ih.filter _⟩
    | contains value => rwa [recentTexts_contains]
    | clear =>
      rw [recentTexts_clear]
      exact .nil

variable {capacity : Nat} (pos : 0 < capacity) {e : Expression}
  (valid : Expression.read mode text = .ok e)

include pos valid

/-- A remembered text that is compiled again comes to the front. -/
theorem remembered_known (h : text ∈ remembered mode capacity calls) :
    remembered mode capacity (calls ++ [.compile text]) =
      text :: (remembered mode capacity calls).filter (· ≠ text) := by
  obtain ⟨room, rfl⟩ : ∃ room, capacity = room + 1 := ⟨capacity - 1, by omega⟩
  rw [remembered, recentTexts_valid calls valid, List.take_succ_cons, remembered,
    filter_take_of_mem (nodup_recentTexts calls) h]

/-- A new text comes to the front of those for which there is still room. -/
theorem remembered_new (h : text ∉ remembered mode capacity calls) :
    remembered mode capacity (calls ++ [.compile text]) =
      text :: (remembered mode capacity calls).take (capacity - 1) := by
  obtain ⟨room, rfl⟩ : ∃ room, capacity = room + 1 := ⟨capacity - 1, by omega⟩
  have first : text ∉ (recentTexts mode calls).take room := fun there =>
    h (List.take_subset_take_left _ (Nat.le_succ room) there)
  rw [remembered, recentTexts_valid calls valid, List.take_succ_cons, remembered, List.take_take,
    take_filter_of_notMem first, Nat.add_sub_cancel, Nat.min_eq_left (Nat.le_succ room)]

end Steps

end TreeQuery
