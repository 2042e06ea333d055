import TreeQuery.Proofs.Path.Language

/-!
# The canonical text of a path

The canonical text spells every segment in one form. That form is valid and means the segment, so
the text of a search path means that path, whatever its names are, and is read back as it. Reading
a text and spelling what was read again therefore changes nothing the second time.
-/

namespace TreeQuery

namespace QuotedChar

/-- How a character is written between double quotes. -/
def canonical (c : Char) : QuotedChar := if c = '\\' ∨ c = '"' then escaped c else plain c

@[simp] theorem meaning_canonical (c : Char) : (canonical c).meaning = c := by
  unfold canonical
  split <;> rfl

theorem valid_canonical (c : Char) : (canonical c).Valid '"' := by
  unfold canonical
  split
  · next h => exact h.elim (fun h => .inr (.inr h)) .inl
  · next h => exact ⟨fun hc => h (.inr hc), fun hc => h (.inl hc)⟩

theorem flatMap_canonical (name : List Char) :
    (name.map canonical).flatMap chars = escapeName name := by
  have h : ∀ c, (canonical c).chars = if c = '\\' ∨ c = '"' then ['\\', c] else [c] := by
    intro c
    unfold canonical
    split <;> rfl
  simp only [List.flatMap_map, escapeName, h]

end QuotedChar

/-- Digits of a number other than zero have no zero in front. -/
theorem head?_toDigits_ne {n : Nat} (h : 0 < n) : (Nat.toDigits 10 n).head? ≠ some '0' := by
  induction n using Nat.strongRecOn with
  | ind n ih =>
    by_cases hn : n < 10
    · rw [Nat.toDigits_of_lt_base hn]
      have hd : ∀ d : Fin 10, 0 < d.val → d.val.digitChar ≠ '0' := by decide
      simpa using hd ⟨n, hn⟩ h
    · have hs : 0 < n / 10 := by omega
      obtain ⟨d, ds, hd⟩ := List.exists_cons_of_ne_nil
        (Nat.toDigits_ne_nil : Nat.toDigits 10 (n / 10) ≠ [])
      have smaller := ih (n / 10) (by omega) hs
      rw [Nat.toDigits_of_base_le (by decide) (by omega), hd]
      rwa [hd] at smaller

namespace Segment

/-- The form in which the canonical text spells a segment. -/
def form : Segment → StepForm
  | key name optional =>
    if isIdentifier name.toList then .identifier name.toList optional
    else .quoted '"' (name.toList.map QuotedChar.canonical) optional
  | index position optional => .position (Nat.toDigits 10 position) optional
  | wildcard => .bracketedAsterisk

theorem valid_form (s : Segment) : s.form.Valid := by
  cases s with
  | key name optional =>
    cases h : isIdentifier name.toList with
    | true =>
      rw [form, if_pos h]
      exact h
    | false =>
      rw [form, if_neg (by simp [h])]
      refine ⟨.inl rfl, fun q hq => ?_⟩
      obtain ⟨c, -, rfl⟩ := List.mem_map.1 hq
      exact QuotedChar.valid_canonical c
  | index position optional =>
    refine ⟨Nat.toDigits_ne_nil, ?_, fun h => ?_⟩
    · exact List.all_eq_true.2 fun c hc => Nat.isDigit_of_mem_toDigits (by decide) (by decide) hc
    · rcases Nat.eq_zero_or_pos position with rfl | hp
      · exact Nat.toDigits_zero 10
      · exact (head?_toDigits_ne hp h).elim
  | wildcard => trivial

theorem segment_form (s : Segment) : s.form.segment = s := by
  cases s with
  | key name optional =>
    cases h : isIdentifier name.toList <;> simp [form, h, StepForm.segment, Function.comp_def]
  | index position optional => simp [form, StepForm.segment, Nat.ofDigitChars_ten_toDigits]
  | wildcard => rfl

theorem chars_form (s : Segment) : s.form.chars = s.spelling := by
  cases s with
  | key name optional =>
    cases h : isIdentifier name.toList <;> cases optional <;>
      simp [form, h, StepForm.chars, spelling, body, isOptional, StepForm.mark,
        QuotedChar.flatMap_canonical]
  | index position optional =>
    cases optional <;> simp [form, StepForm.chars, spelling, body, isOptional, StepForm.mark]
  | wildcard => rfl

theorem isBracketed_form (s : Segment) : s.form.isBracketed = !s.isBare := by
  cases s with
  | key name optional =>
    cases h : isIdentifier name.toList <;> simp [form, h, StepForm.isBracketed, isBare]
  | index position optional => rfl
  | wildcard => rfl

/-- How the canonical text spells a segment that follows another one. -/
def written (s : Segment) : WrittenStep := ⟨s.isBare, s.form⟩

theorem follows_written (s : Segment) : s.written.Follows := by
  refine ⟨s.valid_form, ?_⟩
  cases h : s.isBare <;> simp [written, h, isBracketed_form]

end Segment

/-- How the canonical text spells a path. -/
def written : List Segment → WrittenPath
  | [] => ⟨false, []⟩
  | s :: rest => ⟨false, ⟨false, s.form⟩ :: rest.map Segment.written⟩

theorem valid_written (segments : List Segment) : (written segments).Valid := by
  cases segments with
  | nil => trivial
  | cons s rest =>
    refine ⟨⟨s.valid_form, rfl⟩, fun w hw => ?_⟩
    obtain ⟨t, -, rfl⟩ := List.mem_map.1 hw
    exact t.follows_written

theorem segments_written (segments : List Segment) : (written segments).segments = segments := by
  cases segments with
  | nil => rfl
  | cons s rest =>
    simp [written, WrittenPath.segments, Segment.segment_form, Segment.written, Function.comp_def]

theorem chars_tail (segments : List Segment) :
    (segments.map Segment.written).flatMap WrittenStep.chars = spellTail segments := by
  induction segments with
  | nil => rfl
  | cons s rest ih =>
    simp [spellTail, ih, Segment.written, WrittenStep.chars, Segment.chars_form]

theorem chars_written (segments : List Segment) : (written segments).chars = spell segments := by
  cases segments with
  | nil => rfl
  | cons s rest =>
    simp [written, WrittenPath.chars, WrittenStep.chars, spell, Segment.chars_form, chars_tail]

/-- The canonical spelling of segments means them. -/
theorem means_spell (segments : List Segment) : Means (spell segments) segments :=
  ⟨written segments, valid_written segments, chars_written segments, segments_written segments⟩

namespace Expression

theorem read_text (e : Expression) : read .full e.text = .ok e := by
  rw [read_full_eq_ok_iff, text, String.toList_ofList]
  exact means_spell e.segments

theorem text_injective {a b : Expression} (h : a.text = b.text) : a = b := by
  have read := a.read_text
  rw [h, b.read_text] at read
  exact (Except.ok.inj read).symm

end Expression

end TreeQuery
