import TreeQuery.Proofs.Path.Breaks

/-!
# The position of a malformed text

A text can be completed if some text that begins with it is read. Up to the position that a reader
reports a text can be completed, and with the next character it cannot. Only a position with leading
zeros is reported one character early, at its first digit, since the zero alone could have stood.

Both halves follow from where the text breaks off. What is written up to there begins a path, and a
break depends on the next characters only, so every text with the same ones breaks off there too.
-/

namespace TreeQuery

/-- Some text that begins with these characters is read. -/
def Completable (mode : Mode) (cs : List Char) : Prop :=
  ∃ text e, cs <+: text.toList ∧ Expression.read mode text = .ok e

theorem Completable.of_prefix {mode : Mode} {cs more : List Char} (h : Completable mode more)
    (hp : cs <+: more) : Completable mode cs := by
  obtain ⟨text, e, begins, read⟩ := h
  exact ⟨text, e, hp.trans begins, read⟩

/-! ### What breaks off could have been completed -/

/-- A step of the mode begins with these characters. -/
def StepBegun (mode : Mode) (cs : List Char) : Prop :=
  ∃ form : StepForm, form.Valid ∧ mode.Takes form.segment ∧ cs <+: form.chars

/-- Steps of the mode that follow others begin with these characters. -/
def TailBegun (mode : Mode) (cs : List Char) : Prop :=
  ∃ steps : List WrittenStep, (∀ w ∈ steps, w.Follows) ∧ (∀ w ∈ steps, mode.Takes w.form.segment) ∧
    cs <+: steps.flatMap WrittenStep.chars

theorem StepBegun.of_form {mode : Mode} (form : StepForm) (valid : form.Valid)
    (hf : form.segment.isConcrete = true) {cs : List Char} (h : cs <+: form.chars) :
    StepBegun mode cs :=
  ⟨form, valid, fun _ => hf, h⟩

theorem stepBegun_nil (mode : Mode) : StepBegun mode [] :=
  .of_form (.identifier ['a'] false) (by decide) rfl List.nil_prefix

theorem stepBegun_bracket (mode : Mode) : StepBegun mode ['['] :=
  .of_form (.position ['0'] false) (by decide) rfl (by decide)

/-- What is written of a step that breaks off begins a step, and so does what is not to blame. -/
theorem StepBreak.begun {mode : Mode} {written rest : List Char} {e : Expectation}
    (h : StepBreak mode written e rest) : StepBegun mode (written ++ rest.take e.leniency) := by
  cases h with
  | start | digit => simpa [Expectation.leniency] using stepBegun_nil mode
  | content | minus => simpa [Expectation.leniency] using stepBegun_bracket mode
  | zero =>
    exact .of_form (.position ['0'] false) (by decide) rfl
      (by simp [Expectation.leniency, StepForm.chars])
  | position valid => exact .of_form _ valid rfl (by simp [Expectation.leniency, StepForm.chars])
  | bracketedAsterisk hm =>
    exact ⟨.bracketedAsterisk, trivial, hm ▸ Mode.takes_full _,
      by simp [Expectation.leniency, StepForm.chars]⟩
  | openQuote valid => exact .of_form _ valid rfl (by simp [Expectation.leniency, StepForm.chars])
  | @backslash quote name rest valid =>
    -- After the backslash a quote could have stood.
    have more : (StepForm.quoted quote (name ++ [.escaped '"']) false).Valid := by
      refine ⟨valid.1, fun q hq => ?_⟩
      rcases List.mem_append.1 hq with hq | hq
      · exact valid.2 q hq
      · rw [List.mem_singleton.1 hq]
        exact .inl rfl
    exact .of_form _ more rfl (by simp [Expectation.leniency, StepForm.chars, QuotedChar.chars])
  | quoted valid => exact .of_form _ valid rfl (by simp [Expectation.leniency, StepForm.chars])
  | wildcard form hm hf =>
    refine ⟨form, StepForm.valid_of_wildcard hf, hm ▸ Mode.takes_full _, ?_⟩
    simp [Expectation.leniency]
  | concreteAsterisk hm hw =>
    rcases hw with rfl | rfl
    · simpa [Expectation.leniency] using stepBegun_nil mode
    · simpa [Expectation.leniency] using stepBegun_bracket mode
  | concreteMark hm valid hf => exact .of_form _ valid hf (by simp [Expectation.leniency])

/-- If the step that breaks off could have been read on with some characters, so could the steps,
also in another mode that takes all the segments of the first one. -/
theorem TailBreak.begun {mode other : Mode} (weaker : ∀ s, mode.Takes s → other.Takes s)
    {written rest next : List Char} {e : Expectation} (h : TailBreak mode written e rest)
    (between : e = .separator ∨ e = .stepAfterDot → next = [])
    (inside : ∀ {part}, StepBreak mode part e rest → StepBegun other (part ++ next)) :
    TailBegun other (written ++ next) := by
  induction h with
  | separator =>
    rw [between (.inl rfl)]
    exact ⟨[], by simp, by simp, List.nil_prefix⟩
  | dot =>
    rw [between (.inr rfl)]
    obtain ⟨form, valid, taken, -⟩ := stepBegun_nil other
    refine ⟨[⟨true, form⟩], by simp [WrittenStep.Follows, valid], by simp [taken], ?_⟩
    simp [WrittenStep.chars]
  | afterDot broken =>
    obtain ⟨form, valid, taken, started⟩ := inside broken
    refine ⟨[⟨true, form⟩], by simp [WrittenStep.Follows, valid], by simp [taken], ?_⟩
    simpa [WrittenStep.chars] using started
  | @bracket written rest e broken =>
    obtain ⟨form, valid, taken, more, started⟩ := inside broken
    have whole : '[' :: (written ++ next ++ more) = form.chars ++ [] := by
      rw [List.append_nil, ← started]
      rfl
    have bracketed := Reader.isBracketed_of_head valid whole
    refine ⟨[⟨false, form⟩], by simp [WrittenStep.Follows, valid, bracketed], by simp [taken],
      more, ?_⟩
    simpa [WrittenStep.chars] using started
  | @later step written rest e follows taken ends broken ih =>
    obtain ⟨steps, follow, takes, begun⟩ := ih between inside
    refine ⟨step :: steps, List.forall_mem_cons.2 ⟨follows, follow⟩,
      List.forall_mem_cons.2 ⟨weaker _ taken, takes⟩, ?_⟩
    rw [List.append_assoc, List.flatMap_cons]
    exact (List.prefix_append_right_inj _).2 begun

theorem completable_of_path {mode : Mode} {w : WrittenPath} (valid : w.Valid)
    (takes : ∀ s ∈ w.segments, mode.Takes s) {cs : List Char} (h : cs <+: w.chars) :
    Completable mode cs := by
  refine ⟨String.ofList w.chars, ⟨w.segments⟩, by simpa using h, ?_⟩
  exact Expression.read_eq_ok_iff.2 ⟨⟨w, valid, by simp, rfl⟩, takes⟩

theorem PathBreak.completable_append {mode other : Mode}
    (weaker : ∀ s, mode.Takes s → other.Takes s) {written rest next : List Char} {e : Expectation}
    (h : PathBreak mode written e rest) (between : e = .separator ∨ e = .stepAfterDot → next = [])
    (inside : ∀ {part}, StepBreak mode part e rest → StepBegun other (part ++ next)) :
    Completable other (written ++ next) := by
  cases h with
  | root broken =>
    obtain ⟨steps, follow, takes, begun⟩ := broken.begun weaker between inside
    refine completable_of_path (w := ⟨true, steps⟩) follow ?_ ?_
    · simpa [WrittenPath.segments] using takes
    · simpa [WrittenPath.chars] using begun
  | first broken =>
    obtain ⟨form, valid, taken, begun⟩ := inside broken
    refine completable_of_path (w := ⟨false, [⟨false, form⟩]⟩) ⟨⟨valid, rfl⟩, by simp⟩ ?_ ?_
    · simpa [WrittenPath.segments] using taken
    · simpa [WrittenPath.chars, WrittenStep.chars] using begun
  | @later form written rest e valid taken ends broken =>
    obtain ⟨steps, follow, takes, begun⟩ := broken.begun weaker between inside
    refine completable_of_path (w := ⟨false, ⟨false, form⟩ :: steps⟩) ⟨⟨valid, rfl⟩, follow⟩ ?_ ?_
    · simpa [WrittenPath.segments] using ⟨weaker _ taken, takes⟩
    · have whole : (WrittenPath.mk false (⟨false, form⟩ :: steps)).chars =
          form.chars ++ steps.flatMap WrittenStep.chars := by
        simp [WrittenPath.chars, WrittenStep.chars]
      rw [whole, List.append_assoc]
      exact (List.prefix_append_right_inj _).2 begun

/-- What is written up to a break can be completed, and so can the zero before other digits. -/
theorem PathBreak.completable {mode : Mode} {written rest : List Char} {e : Expectation}
    (h : PathBreak mode written e rest) : Completable mode (written ++ rest.take e.leniency) := by
  refine h.completable_append (fun _ taken => taken) ?_ StepBreak.begun
  rintro (rfl | rfl) <;> rfl

/-! ### A break depends on the next characters only -/

theorem head?_eq_of_take {rest other : List Char} {n : Nat}
    (same : other.take (n + 1) = rest.take (n + 1)) : other.head? = rest.head? := by
  simpa [List.head?_take] using congrArg List.head? same

theorem head?_append_congr {written rest other : List Char} (same : other.head? = rest.head?) :
    (written ++ other).head? = (written ++ rest).head? := by
  rw [List.head?_append, List.head?_append, same]

theorem append_ne_nil_congr {written rest other : List Char} (same : other.head? = rest.head?)
    (h : written ++ rest ≠ []) : written ++ other ≠ [] := by
  rw [Ne, ← List.head?_eq_none_iff] at h ⊢
  rwa [head?_append_congr same]

theorem StepBreak.congr {mode : Mode} {written rest other : List Char} {e : Expectation}
    (h : StepBreak mode written e rest)
    (same : other.take (e.leniency + 1) = rest.take (e.leniency + 1)) :
    StepBreak mode written e other := by
  have head := head?_eq_of_take same
  cases h with
  | start stopped => exact .start (stopped.congr head)
  | content stopped => exact .content (stopped.congr head)
  | position valid stopped => exact .position valid (stopped.congr head)
  | bracketedAsterisk hm opened => exact .bracketedAsterisk hm (opened.congr head)
  | backslash valid stopped => exact .backslash valid (stopped.congr head)
  | quoted valid opened => exact .quoted valid (opened.congr head)
  | openQuote valid =>
    obtain rfl : other = [] := List.head?_eq_none_iff.1 head
    exact .openQuote valid
  | digit hd =>
    obtain ⟨others, rfl⟩ := List.head?_eq_some_iff.1 head
    exact .digit hd
  | minus =>
    obtain ⟨others, rfl⟩ := List.head?_eq_some_iff.1 head
    exact .minus
  | wildcard form hm hf =>
    obtain ⟨others, rfl⟩ := List.head?_eq_some_iff.1 head
    exact .wildcard form hm hf
  | concreteAsterisk hm hw =>
    obtain ⟨others, rfl⟩ := List.head?_eq_some_iff.1 head
    exact .concreteAsterisk hm hw
  | concreteMark hm valid hf =>
    obtain ⟨others, rfl⟩ := List.head?_eq_some_iff.1 head
    exact .concreteMark hm valid hf
  | zero hd =>
    obtain ⟨others, rfl⟩ := List.head?_eq_some_iff.1 head
    cases others with
    | nil => cases same
    | cons d others =>
      obtain rfl : d = _ := by simpa [Expectation.leniency] using same
      exact .zero hd

theorem TailBreak.congr {mode : Mode} {written rest other : List Char} {e : Expectation}
    (h : TailBreak mode written e rest)
    (same : other.take (e.leniency + 1) = rest.take (e.leniency + 1)) :
    TailBreak mode written e other := by
  have head := head?_eq_of_take same
  induction h with
  | separator hd hb =>
    obtain ⟨others, rfl⟩ := List.head?_eq_some_iff.1 head
    exact .separator hd hb
  | dot =>
    obtain rfl : other = [] := List.head?_eq_none_iff.1 head
    exact .dot
  | afterDot broken more =>
    exact .afterDot (broken.congr same) (append_ne_nil_congr head more)
  | bracket broken => exact .bracket (broken.congr same)
  | later step follows taken ends broken ih =>
    exact .later step follows taken (ends.congr (head?_append_congr head)) (ih same head)

theorem PathBreak.congr {mode : Mode} {written rest other : List Char} {e : Expectation}
    (h : PathBreak mode written e rest)
    (same : other.take (e.leniency + 1) = rest.take (e.leniency + 1)) :
    PathBreak mode written e other := by
  have head := head?_eq_of_take same
  cases h with
  | root broken => exact .root (broken.congr same)
  | first broken more unmarked =>
    refine .first (broken.congr same) (append_ne_nil_congr head more) ?_
    rwa [head?_append_congr head]
  | later form valid taken ends broken =>
    exact .later form valid taken (ends.congr (head?_append_congr head)) (broken.congr same)

/-! ### What breaks off is a step, or the text between two -/

theorem TailBreak.last {mode : Mode} {written rest : List Char} {e : Expectation}
    (h : TailBreak mode written e rest) (inside : e ≠ .separator ∧ e ≠ .stepAfterDot) :
    ∃ part, part <:+ written ∧ StepBreak mode part e rest := by
  induction h with
  | separator => exact absurd rfl inside.1
  | dot => exact absurd rfl inside.2
  | afterDot broken => exact ⟨_, List.suffix_cons _ _, broken⟩
  | bracket broken => exact ⟨_, List.suffix_rfl, broken⟩
  | later _ _ _ _ _ ih =>
    obtain ⟨part, suffix, broken⟩ := ih inside
    exact ⟨part, List.suffix_append_of_suffix suffix, broken⟩

theorem PathBreak.last {mode : Mode} {written rest : List Char} {e : Expectation}
    (h : PathBreak mode written e rest) (inside : e ≠ .separator ∧ e ≠ .stepAfterDot) :
    ∃ part, part <:+ written ∧ StepBreak mode part e rest := by
  cases h with
  | root broken =>
    obtain ⟨part, suffix, broken⟩ := broken.last inside
    exact ⟨part, suffix.trans (List.suffix_cons _ _), broken⟩
  | first broken => exact ⟨_, List.suffix_rfl, broken⟩
  | later _ _ _ _ broken =>
    obtain ⟨part, suffix, broken⟩ := broken.last inside
    exact ⟨part, List.suffix_append_of_suffix suffix, broken⟩

/-- Leading zeros are those of the first digits in brackets. -/
theorem PathBreak.leadingZeros {mode : Mode} {written rest : List Char}
    (h : PathBreak mode written .indexWithoutLeadingZeros rest) :
    ∃ before d more, written = before ++ ['['] ∧ rest = '0' :: d :: more ∧ d.isDigit = true := by
  obtain ⟨part, ⟨before, rfl⟩, broken⟩ := h.last (by decide)
  cases broken with
  | zero hd => exact ⟨before, _, _, rfl, rfl, hd⟩

/-! ### The reported position -/

/-- Where something is left that a break depends on, no text with the same characters is read. -/
theorem PathBreak.not_completable {mode : Mode} {written rest : List Char} {e : Expectation}
    (h : PathBreak mode written e rest) (left : e.leniency < rest.length) :
    ¬ Completable mode (written ++ rest.take (e.leniency + 1)) := by
  rintro ⟨text, read, ⟨more, hmore⟩, hread⟩
  have same : (rest.take (e.leniency + 1) ++ more).take (e.leniency + 1) =
      rest.take (e.leniency + 1) := by
    have length : (rest.take (e.leniency + 1)).length = e.leniency + 1 := by
      rw [List.length_take]
      omega
    rw [List.take_append_of_le_length (by omega), List.take_take, Nat.min_self]
  have stopped := Reader.path_of_pathBreak (h.congr same)
  rw [← List.append_assoc, hmore] at stopped
  simp [Expression.read, stopped] at hread

end TreeQuery
