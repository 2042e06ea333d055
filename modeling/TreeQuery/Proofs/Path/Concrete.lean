import TreeQuery.Proofs.Path.Position

/-!
# Reading in concrete mode

Concrete mode is full mode kept to concrete paths. It reads a text as full mode does if the path is
concrete, and it reports what full mode reports unless it stops at an asterisk or a question mark of
a step that is not concrete. The two runs agree up to there, and full mode gets further: with this
character the text can still be completed to some path.
-/

namespace TreeQuery

/-- A break of concrete mode that is not about concrete steps is a break in full mode as well. -/
theorem StepBreak.full {written rest : List Char} {e : Expectation}
    (h : StepBreak .concrete written e rest) (he : e ≠ .concreteStep) :
    StepBreak .full written e rest := by
  cases h with
  | start stopped => exact .start stopped
  | digit hd => exact .digit hd
  | content stopped => exact .content stopped
  | minus => exact .minus
  | zero hd => exact .zero hd
  | position valid stopped => exact .position valid stopped
  | openQuote valid => exact .openQuote valid
  | backslash valid stopped => exact .backslash valid stopped
  | quoted valid opened => exact .quoted valid opened
  | bracketedAsterisk hm | wildcard _ hm => cases hm
  | concreteAsterisk | concreteMark => exact absurd rfl he

theorem TailBreak.full {written rest : List Char} {e : Expectation}
    (h : TailBreak .concrete written e rest) (he : e ≠ .concreteStep) :
    TailBreak .full written e rest := by
  induction h with
  | separator hd hb => exact .separator hd hb
  | dot => exact .dot
  | afterDot broken more => exact .afterDot (broken.full he) more
  | bracket broken => exact .bracket (broken.full he)
  | later step follows _ ends _ ih => exact .later step follows (Mode.takes_full _) ends (ih he)

theorem PathBreak.full {written rest : List Char} {e : Expectation}
    (h : PathBreak .concrete written e rest) (he : e ≠ .concreteStep) :
    PathBreak .full written e rest := by
  cases h with
  | root broken => exact .root (broken.full he)
  | first broken more unmarked => exact .first (broken.full he) more unmarked
  | later form valid _ ends broken =>
    exact .later form valid (Mode.takes_full _) ends (broken.full he)

/-- A question mark makes a concrete form optional. -/
theorem StepForm.exists_marked {form : StepForm} (valid : form.Valid)
    (hf : form.segment.isConcrete = true) :
    ∃ marked : StepForm, marked.Valid ∧ marked.chars = form.chars ++ ['?'] := by
  cases form with
  | asterisk | bracketedAsterisk => cases hf
  | identifier name optional =>
    cases optional with
    | true => cases hf
    | false => exact ⟨.identifier name true, valid, by simp [chars, mark]⟩
  | position digits optional =>
    cases optional with
    | true => cases hf
    | false => exact ⟨.position digits true, valid, by simp [chars, mark]⟩
  | quoted quote name optional =>
    cases optional with
    | true => cases hf
    | false => exact ⟨.quoted quote name true, valid, by simp [chars, mark]⟩

/-- Where a concrete step is expected, a wildcard begins or a question mark makes the step optional,
and in full mode the step goes on with it. -/
theorem StepBreak.begun_full {mode : Mode} {written rest : List Char}
    (h : StepBreak mode written .concreteStep rest) :
    ∃ c more, rest = c :: more ∧ (c = '*' ∨ c = '?') ∧ StepBegun .full (written ++ [c]) := by
  cases h with
  | concreteAsterisk hm hw =>
    refine ⟨'*', _, rfl, .inl rfl, ?_⟩
    rcases hw with rfl | rfl
    · exact ⟨.asterisk, trivial, Mode.takes_full _, by decide⟩
    · exact ⟨.bracketedAsterisk, trivial, Mode.takes_full _, by decide⟩
  | concreteMark hm valid hf =>
    obtain ⟨marked, valid', spelled⟩ := StepForm.exists_marked valid hf
    exact ⟨'?', _, rfl, .inr rfl, marked, valid', Mode.takes_full _, spelled ▸ List.prefix_rfl⟩

theorem PathBreak.completable_full {mode : Mode} {written rest : List Char}
    (h : PathBreak mode written .concreteStep rest) :
    ∃ c more, rest = c :: more ∧ (c = '*' ∨ c = '?') ∧ Completable .full (written ++ [c]) := by
  obtain ⟨part, -, broken⟩ := h.last (by decide)
  obtain ⟨c, more, rfl, hc, -⟩ := broken.begun_full
  refine ⟨c, more, rfl, hc, h.completable_append (fun s _ => Mode.takes_full s) ?_ ?_⟩
  · rintro (between | between) <;> cases between
  intro part broken
  obtain ⟨d, others, same, -, begun⟩ := broken.begun_full
  cases same
  exact begun

namespace Expression

/-- An error is not reported before the end of what can be completed, leading zeros apart. -/
theorem le_position_of_completable {mode : Mode} {text : String} {cause : Malformed} {n : Nat}
    (h : read mode text = .error cause) (hn : n ≤ text.toList.length)
    (begun : Completable mode (text.toList.take n)) :
    n ≤ cause.position + cause.expected.leniency := by
  obtain ⟨written, rest, whole, broken, -, position⟩ := read_eq_error_iff.1 h
  rw [whole, List.length_append] at hn
  refine Nat.le_of_not_lt fun beyond => ?_
  have stopped := broken.not_completable (by omega)
  refine stopped (begun.of_prefix ?_)
  rw [whole, ← List.take_length_add_append]
  exact List.take_prefix_take_left (by omega)

theorem getElem?_position_of_leadingZeros {mode : Mode} {text : String} {cause : Malformed}
    (h : read mode text = .error cause) (zeros : cause.expected = .indexWithoutLeadingZeros) :
    text.toList[cause.position]? = some '0' := by
  obtain ⟨written, rest, whole, broken, -, position⟩ := read_eq_error_iff.1 h
  rw [zeros] at broken
  obtain ⟨before, d, more, rfl, rfl, -⟩ := broken.leadingZeros
  rw [whole, position, List.getElem?_append_right (Nat.le_refl _), Nat.sub_self]
  rfl

theorem read_concrete_eq_ok_iff {text : String} {e : Expression} :
    read .concrete text = .ok e ↔ read .full text = .ok e ∧ e.isConcrete = true := by
  rw [read_eq_ok_iff, read_full_eq_ok_iff]
  simp [Mode.Takes, isConcrete]

end Expression

end TreeQuery
