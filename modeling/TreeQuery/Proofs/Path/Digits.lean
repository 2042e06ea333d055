import Mathlib.Algebra.Group.Nat.Defs
import TreeQuery.Notice
import TreeQuery.Proofs.Path.Normal

/-!
# Paths within a limit on digits

A text is read if it is one of the language and the limit admits the positions that it means. A position
that is not admitted is refused, so there are texts of the language that cannot be read, and search paths
that have no text. Within the limit reading undoes printing.
-/

namespace TreeQuery

/-! ### Positions in a text -/

/-- Somewhere in a text a number of digits stands between brackets. -/
def HasPosition (text : List Char) (count : Nat) : Prop :=
  ∃ digits : List Char, digits.all Char.isDigit = true ∧ digits.length = count ∧
    '[' :: digits ++ [']'] <:+: text

/-- A position has as many digits as are written for it. -/
theorem StepForm.digitCount_segment {digits : List Char} {optional : Bool}
    (valid : (position digits optional).Valid) :
    (position digits optional).segment.digitCount = digits.length := by
  rw [segment, Segment.digitCount, toDigits_ofDigitChars valid]

theorem StepForm.hasPosition {form : StepForm} (valid : form.Valid)
    (some_digit : 0 < form.segment.digitCount) :
    HasPosition form.chars form.segment.digitCount := by
  cases form with
  | position digits optional =>
    refine ⟨digits, valid.2.1, (digitCount_segment valid).symm, ⟨[], mark optional, ?_⟩⟩
    simp [chars]
  | _ => cases some_digit

theorem HasPosition.mono {text whole : List Char} {count : Nat} (h : HasPosition text count)
    (within : text <:+: whole) : HasPosition whole count := by
  obtain ⟨digits, all, length, stand⟩ := h
  exact ⟨digits, all, length, stand.trans within⟩

namespace Spelled

variable {mode : Mode} {cs rest : List Char} {form : StepForm} {s : Segment}
  (h : Spelled mode cs form s rest)

include h

theorem stands : form.chars <:+: cs := ⟨[], rest, h.chars_eq.symm⟩

theorem rest_suffix : rest <:+ cs := ⟨form.chars, h.chars_eq.symm⟩

end Spelled

namespace Reader

theorem suffix_of_separator {c : Char} {cs rest : List Char} (h : separator c cs = .ok rest) :
    rest <:+ c :: cs := by
  rcases separator_eq_ok_iff.1 h with ⟨-, -, rfl⟩ | ⟨-, rfl⟩
  · exact List.suffix_cons c _
  · exact List.suffix_rfl

/-- Every segment that is read stands in the text in one of its forms. -/
theorem exists_form_of_mem_scanTail {mode : Mode} {cs : List Char} {s : Segment}
    (hs : s ∈ (scanTail mode cs).segments) :
    ∃ form : StepForm, form.Valid ∧ form.segment = s ∧ form.chars <:+: cs := by
  fun_induction scanTail mode cs with
  | case4 c cs first hsep t rest hseg ih =>
    have behind := suffix_of_separator hsep
    obtain ⟨form, spelled, -⟩ := segment_sound hseg
    rcases List.mem_cons.1 hs with rfl | later
    · exact ⟨form, spelled.valid, spelled.segment_eq,
        spelled.stands.trans behind.isInfix⟩
    · obtain ⟨other, valid, meaning, stands⟩ := ih later
      exact ⟨other, valid, meaning, stands.trans (spelled.rest_suffix.trans behind).isInfix⟩
  | _ => cases hs

theorem exists_form_of_mem_scan {mode : Mode} {cs : List Char} {s : Segment}
    (hs : s ∈ (scan mode cs).segments) :
    ∃ form : StepForm, form.Valid ∧ form.segment = s ∧ form.chars <:+: cs := by
  cases cs with
  | nil => cases hs
  | cons c cs =>
    rw [scan] at hs
    split at hs
    · obtain ⟨form, valid, meaning, stands⟩ := exists_form_of_mem_scanTail hs
      exact ⟨form, valid, meaning, stands.trans (List.suffix_cons c cs).isInfix⟩
    · split at hs
      · cases hs
      · next hseg =>
        obtain ⟨form, spelled, -⟩ := segment_sound hseg
        rcases List.mem_cons.1 hs with rfl | later
        · exact ⟨form, spelled.valid, spelled.segment_eq, spelled.stands⟩
        · obtain ⟨other, valid, meaning, stands⟩ := exists_form_of_mem_scanTail later
          exact ⟨other, valid, meaning, stands.trans spelled.rest_suffix.isInfix⟩

end Reader

namespace Expression

variable {limit : DigitLimit} {mode : Mode} {text : String} {e : Expression}

/-! ### Reading -/

theorem mapError_eq_ok_iff {α ε δ : Type} {x : Except ε α} {f : ε → δ} {a : α} :
    x.mapError f = .ok a ↔ x = .ok a := by
  cases x with
  | error e => exact ⟨fun h => (by cases h), fun h => (by cases h)⟩
  | ok b => exact ⟨fun h => (by cases h; rfl), fun h => (by cases h; rfl)⟩

theorem readValue_text : readValue limit mode (.text text) = readWithin limit mode text := rfl

theorem segments_scan (h : read mode text = .ok e) :
    (Reader.scan mode text.toList).segments = e.segments := by
  unfold read at h
  split at h
  · next segments whole =>
    cases h
    exact Reader.Scan.segments_of_outcome whole
  · cases h

theorem readWithin_eq_ok_iff :
    readWithin limit mode text = .ok e ↔
      read mode text = .ok e ∧ ∀ s ∈ e.segments, limit.admits s = true := by
  rw [readWithin]
  constructor
  · intro h
    split at h
    · cases h
    · next admitted =>
      have whole := mapError_eq_ok_iff.1 h
      refine ⟨whole, ?_⟩
      rw [← segments_scan whole]
      exact DigitLimit.findSome?_refusal?_eq_none_iff.1 admitted
  · rintro ⟨whole, admitted⟩
    rw [segments_scan whole, DigitLimit.findSome?_refusal?_eq_none_iff.2 admitted, whole]
    rfl

/-- Reading fails as it does without a limit, or because of a position that stands in the text. -/
theorem error_of_readWithin {error : Error} (h : readWithin limit mode text = .error error) :
    (∃ cause, read mode text = .error cause ∧ error = .malformed cause) ∨
      ∃ most count, limit = .upTo most ∧ most < count ∧ HasPosition text.toList count ∧
        error = .refused (.tooManyDigits most count) := by
  rw [readWithin] at h
  split at h
  · next refusal refused =>
    cases h
    obtain ⟨s, hs, hr⟩ := List.exists_of_findSome?_eq_some refused
    obtain ⟨most, rfl, beyond, rfl⟩ := DigitLimit.refusal?_eq_some_iff.1 hr
    obtain ⟨form, valid, rfl, stands⟩ := Reader.exists_form_of_mem_scan hs
    exact .inr ⟨most, _, rfl, beyond, (form.hasPosition valid (by omega)).mono stands, rfl⟩
  · cases whole : read mode text with
    | ok e =>
      rw [whole] at h
      cases h
    | error cause =>
      rw [whole] at h
      cases h
      exact .inl ⟨cause, rfl, rfl⟩

/-- A text is read if it is one of the language and all positions that it means are within the limit. It
then means what is read and nothing else. Reading fails with one of two errors: the text is malformed,
which no text of the language is, or it has a position with more digits than the limit admits. -/
theorem readValue_within (limit : DigitLimit) (text : String) :
    (∀ e, readValue limit .full (.text text) = .ok e ↔
      Means text.toList e.segments ∧ ∀ s ∈ e.segments, limit.admits s = true) ∧
    (∀ a b, Means text.toList a → Means text.toList b → a = b) ∧
    ∀ error, readValue limit .full (.text text) = .error error →
      (∃ cause : Malformed, cause.text = text ∧ error = .malformed cause ∧
        ¬ ∃ segments, Means text.toList segments) ∨
      ∃ most count, limit = .upTo most ∧ most < count ∧ HasPosition text.toList count ∧
        error = .refused (.tooManyDigits most count) := by
  rw [readValue_text]
  refine ⟨?_, ?_, ?_⟩
  · intro e
    rw [readWithin_eq_ok_iff, read_full_eq_ok_iff]
  · intro a b ha hb
    exact ha.unique hb
  · intro error failed
    refine (error_of_readWithin failed).imp_left ?_
    rintro ⟨cause, malformed, rfl⟩
    refine ⟨cause, text_of_read_eq_error malformed, rfl, fun ⟨segments, means⟩ => ?_⟩
    have whole : read .full text = .ok ⟨segments⟩ := read_full_eq_ok_iff.2 means
    cases malformed.symm.trans whole

/-- The text of a single position with too many digits is one of the language, but is refused. -/
theorem readWithin_position {digits : List Char} {most : Nat}
    (valid : (StepForm.position digits false).Valid) (beyond : most < digits.length) :
    let text := String.ofList ('[' :: digits ++ [']'])
    (∃ segments, Means text.toList segments) ∧
      readWithin (.upTo most) .full text =
        .error (.refused (.tooManyDigits most digits.length)) := by
  intro text
  have means : Means text.toList [(StepForm.position digits false).segment] := by
    rw [String.toList_ofList]
    exact ⟨⟨false, [⟨false, .position digits false⟩]⟩, ⟨⟨valid, rfl⟩, by simp⟩,
      by simp [WrittenPath.chars, WrittenStep.chars, StepForm.chars, StepForm.mark], rfl⟩
  have whole : read .full text = .ok ⟨[(StepForm.position digits false).segment]⟩ :=
    read_full_eq_ok_iff.2 means
  have count := StepForm.digitCount_segment valid
  have refused : (DigitLimit.upTo most).refusal? .tooManyDigits
      (StepForm.position digits false).segment = some (.tooManyDigits most digits.length) :=
    DigitLimit.refusal?_eq_some_iff.2 ⟨most, rfl, count ▸ beyond, by rw [count]⟩
  refine ⟨⟨_, means⟩, ?_⟩
  rw [readWithin, segments_scan whole, List.findSome?_cons, refused]

theorem readWithin_ones {most n : Nat} (beyond : most < n + 1) :
    let text := String.ofList ('[' :: List.replicate (n + 1) '1' ++ [']'])
    (∃ segments, Means text.toList segments) ∧
      readWithin (.upTo most) .full text = .error (.refused (.tooManyDigits most (n + 1))) := by
  intro text
  have length : (List.replicate (n + 1) '1').length = n + 1 := List.length_replicate
  have valid : (StepForm.position (List.replicate (n + 1) '1') false).Valid := by
    refine ⟨by simp, by simp [List.all_replicate], fun zero => ?_⟩
    rw [List.head?_replicate] at zero
    cases zero
  obtain ⟨means, refused⟩ := readWithin_position valid (length.symm ▸ beyond)
  rw [length] at refused
  exact ⟨means, refused⟩

/-- The text of a list index with one digit more than the standard limit admits is one of the language.
It is refused for its value, and the error does not tell a position in the text. -/
theorem long_position_refused :
    let text := String.ofList ('[' :: List.replicate (4300 + 1) '1' ++ [']'])
    let error := Error.refused (.tooManyDigits 4300 (4300 + 1))
    (∃ segments, Means text.toList segments) ∧
      readValue .standard .full (.text text) = .error error ∧
      error.errorClass = .fault .value ∧ error.details = [] := by
  intro text error
  obtain ⟨means, refused⟩ := readWithin_ones (Nat.lt_succ_self 4300)
  refine ⟨means, ?_, rfl, rfl⟩
  rw [readValue_text, DigitLimit.standard]
  exact refused

/-! ### Printing -/

/-- The canonical text of the path that a text is read as. -/
def normalize (limit : DigitLimit) (t : String) : Except Error String := do
  ((← readWithin limit .full t).print limit).mapError .refused

theorem print_of_admits (admitted : ∀ s ∈ e.segments, limit.admits s = true) :
    e.print limit = .ok e.text := print_eq_ok_iff.2 ⟨admitted, rfl⟩

theorem readWithin_text (admitted : ∀ s ∈ e.segments, limit.admits s = true) :
    readWithin limit .full e.text = .ok e := readWithin_eq_ok_iff.2 ⟨e.read_text, admitted⟩

theorem normalize_of_readWithin {t : String} (h : readWithin limit .full t = .ok e) :
    normalize limit t = .ok e.text := by
  simp only [normalize, h, bind, Except.bind, print_of_admits (readWithin_eq_ok_iff.1 h).2]
  rfl

/-- Every search path with positions within the limit has a text, which is read back as that path. No two
paths have one text. Any text that can be read is normalized to one that stays as it is, and two such
texts are read as the same path exactly when they are normalized to the same text. -/
theorem readWithin_print (limit : DigitLimit) :
    (∀ e : Expression, (∀ s ∈ e.segments, limit.admits s = true) →
      ∃ text, e.print limit = .ok text ∧ readWithin limit .full text = .ok e) ∧
    (∀ (a b : Expression) text, a.print limit = .ok text → b.print limit = .ok text → a = b) ∧
    (∀ t e, readWithin limit .full t = .ok e →
      ∃ u, normalize limit t = .ok u ∧ normalize limit u = .ok u) ∧
    ∀ t u a b, readWithin limit .full t = .ok a → readWithin limit .full u = .ok b →
      (a = b ↔ normalize limit t = normalize limit u) := by
  refine ⟨?_, ?_, ?_, ?_⟩
  · intro e admitted
    exact ⟨e.text, print_of_admits admitted, readWithin_text admitted⟩
  · intro a b text ha hb
    exact text_injective ((print_eq_ok_iff.1 ha).2.trans (print_eq_ok_iff.1 hb).2.symm)
  · intro t e h
    have again := readWithin_text (readWithin_eq_ok_iff.1 h).2
    exact ⟨e.text, normalize_of_readWithin h, normalize_of_readWithin again⟩
  · intro t u a b ha hb
    rw [normalize_of_readWithin ha, normalize_of_readWithin hb, Except.ok.injEq]
    exact ⟨congrArg text, text_injective⟩

theorem print_index_power {most : Nat} (positive : 0 < most) :
    let e : Expression := ⟨[.index (10 ^ most) false]⟩
    e.print (.upTo most) = .error (.tooLargeToWrite most) ∧
      ∀ text, readWithin (.upTo most) .full text ≠ .ok e := by
  intro e
  have beyond : most < (Segment.index (10 ^ most) false).digitCount := by
    rw [Segment.digitCount, ← Nat.not_le, Nat.length_toDigits_le_iff (by decide) positive]
    exact Nat.lt_irrefl _
  constructor
  · have refused : (DigitLimit.upTo most).refusal? (fun most _ => .tooLargeToWrite most)
        (.index (10 ^ most) false) = some (.tooLargeToWrite most) :=
      DigitLimit.refusal?_eq_some_iff.2 ⟨most, rfl, beyond, rfl⟩
    rw [print, List.findSome?_cons, refused]
  · intro text read
    have admitted := (readWithin_eq_ok_iff.1 read).2 _ List.mem_cons_self
    exact absurd (of_decide_eq_true admitted) (Nat.not_le.2 beyond)

/-- The search path to a list index with one digit more than the standard limit admits has no text, and
there is no text that is read as it. -/
theorem huge_index_without_text :
    let e : Expression := ⟨[.index (10 ^ 4300) false]⟩
    e.print .standard = .error (.tooLargeToWrite 4300) ∧
      ∀ text, readWithin .standard .full text ≠ .ok e :=
  print_index_power (by decide)

end Expression

end TreeQuery
