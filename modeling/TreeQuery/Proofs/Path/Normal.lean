import Mathlib.Logic.ExistsUnique
import TreeQuery.Proofs.Path.Canonical

/-!
# Texts that are canonical

Every text of the language has one spelling. It is normal if it has no root mark, no dot before a
bracket, no bare asterisk, and if every quoted name stands between double quotes, is no identifier and
has no backslash before an apostrophe. The canonical text of a path is spelled so, and for each
sequence of segments there is only one normal spelling. Hence a text is the canonical text of what it
is read as if and only if its spelling is normal.
-/

namespace TreeQuery

/-! ### Digits -/

theorem digitChar_of_isDigit {c : Char} (h : c.isDigit = true) :
    c.toNat - '0'.toNat < 10 ∧ (c.toNat - '0'.toNat).digitChar = c := by
  simp only [Char.isDigit, Bool.and_eq_true, decide_eq_true_eq] at h
  have low : 48 ≤ c.toNat := UInt32.le_iff_toNat_le.1 h.1
  have high : c.toNat ≤ 57 := UInt32.le_iff_toNat_le.1 h.2
  have small : c.toNat - '0'.toNat < 10 := by
    change c.toNat - 48 < 10
    omega
  refine ⟨small, ?_⟩
  have value := Nat.toNat_digitChar_of_lt_ten small
  apply Char.toNat_inj.1
  rw [value]
  change 48 + (c.toNat - 48) = c.toNat
  omega

/-- Digits that follow those of a positive number are digits of the number that they make up with it. -/
theorem toDigits_append_digits {digits : List Char} (h : digits.all Char.isDigit = true) {n : Nat}
    (pos : 0 < n) : Nat.toDigits 10 n ++ digits = Nat.toDigits 10 (Nat.ofDigitChars 10 digits n) := by
  induction digits generalizing n with
  | nil => simp
  | cons c rest ih =>
    rw [List.all_cons, Bool.and_eq_true] at h
    obtain ⟨small, same⟩ := digitChar_of_isDigit h.1
    have joined := Nat.toDigits_append_toDigits (by decide) pos small
    rw [Nat.toDigits_of_lt_base small, same] at joined
    have positive : 0 < 10 * n + (c.toNat - '0'.toNat) := by omega
    rw [Nat.ofDigitChars_cons, ← ih h.2 positive, ← joined, List.append_assoc]
    rfl

/-- Digits without a leading zero are those of the number that they stand for. -/
theorem toDigits_ofDigitChars {digits : List Char} {optional : Bool}
    (h : (StepForm.position digits optional).Valid) :
    Nat.toDigits 10 (Nat.ofDigitChars 10 digits 0) = digits := by
  obtain ⟨some_digit, all, no_zero⟩ := h
  cases digits with
  | nil => exact absurd rfl some_digit
  | cons c rest =>
    rw [List.all_cons, Bool.and_eq_true] at all
    obtain ⟨small, same⟩ := digitChar_of_isDigit all.1
    by_cases zero : c = '0'
    · rw [no_zero (congrArg some zero)]
      rfl
    · have pos : 0 < c.toNat - '0'.toNat := by
        refine Nat.pos_of_ne_zero fun none => zero ?_
        rw [← same, none]
        rfl
      rw [Nat.ofDigitChars_cons, Nat.mul_zero, Nat.zero_add, ← toDigits_append_digits all.2 pos,
        Nat.toDigits_of_lt_base small, same]
      rfl

/-! ### One spelling for a text -/

/-- Characters between quotes are written in one way. -/
theorem QuotedChar.unique {quote : Char} (backslash : quote ≠ '\\') {a b : List QuotedChar}
    (ha : ∀ q ∈ a, q.Valid quote) (hb : ∀ q ∈ b, q.Valid quote) {rest rest' : List Char}
    (same : a.flatMap chars ++ quote :: rest = b.flatMap chars ++ quote :: rest') : a = b := by
  induction a generalizing b with
  | nil =>
    cases b with
    | nil => rfl
    | cons q b =>
      have valid := hb q List.mem_cons_self
      cases q with
      | plain c => exact absurd (List.cons.inj same).1.symm valid.1
      | escaped c => exact absurd (List.cons.inj same).1 backslash
  | cons p a ih =>
    obtain ⟨hp, others⟩ := List.forall_mem_cons.1 ha
    cases b with
    | nil =>
      cases p with
      | plain c => exact absurd (List.cons.inj same).1 hp.1
      | escaped c => exact absurd (List.cons.inj same).1.symm backslash
    | cons q b =>
      obtain ⟨hq, others'⟩ := List.forall_mem_cons.1 hb
      rw [List.flatMap_cons, List.flatMap_cons, List.append_assoc, List.append_assoc] at same
      cases p with
      | plain c =>
        cases q with
        | plain d =>
          obtain ⟨rfl, tail⟩ := List.cons.inj same
          rw [ih others others' tail]
        | escaped d => exact absurd (List.cons.inj same).1 hp.2
      | escaped c =>
        cases q with
        | plain d => exact absurd (List.cons.inj same).1.symm hq.2
        | escaped d =>
          obtain ⟨rfl, tail⟩ := List.cons.inj (List.cons.inj same).2
          rw [ih others others' tail]

namespace StepForm

/-- Forms of one segment with the same characters are the same form. -/
theorem eq_of_chars_eq {f g : StepForm} (hf : f.Valid) (hg : g.Valid) (same : f.chars = g.chars)
    (segments : f.segment = g.segment) : f = g := by
  have brackets : f.isBracketed = g.isBracketed := by
    obtain ⟨c, cs, hc, first, -⟩ := Reader.chars_eq_cons hf
    obtain ⟨d, ds, hd, first', -⟩ := Reader.chars_eq_cons hg
    rw [hc, hd] at same
    rw [Bool.eq_iff_iff, first, first', (List.cons.inj same).1]
  cases f with
  | identifier name optional =>
    cases g with
    | identifier name' optional' =>
      simp only [segment, Segment.key.injEq, String.ofList_inj] at segments
      rw [segments.1, segments.2]
    | quoted _ _ _ => cases brackets
    | _ => cases segments
  | asterisk =>
    cases g with
    | asterisk => rfl
    | bracketedAsterisk => cases brackets
    | _ => cases segments
  | position digits optional =>
    cases g with
    | position digits' optional' =>
      obtain ⟨-, rfl⟩ := Segment.index.inj segments
      have digits_eq : digits = digits' := by simpa [chars] using same
      rw [digits_eq]
    | _ => cases segments
  | bracketedAsterisk =>
    cases g with
    | asterisk => cases brackets
    | bracketedAsterisk => rfl
    | _ => cases segments
  | quoted quote name optional =>
    cases g with
    | identifier _ _ => cases brackets
    | quoted quote' name' optional' =>
      obtain ⟨-, rfl⟩ := Segment.key.inj segments
      obtain ⟨rfl, characters⟩ := List.cons.inj (List.cons.inj same).2
      have backslash : quote ≠ '\\' := by
        rcases hf.1 with rfl | rfl <;> decide
      rw [QuotedChar.unique backslash hf.2 hg.2 characters]
    | _ => cases segments

/-- A text begins with one form that ends before the rest. -/
theorem unique {f g : StepForm} (hf : f.Valid) (hg : g.Valid) {rest rest' : List Char}
    (ends : f.EndsBefore rest) (ends' : g.EndsBefore rest')
    (same : f.chars ++ rest = g.chars ++ rest') : f = g ∧ rest = rest' := by
  have read := Reader.segment_complete hf (Mode.takes_full _) ends
  rw [same, Reader.segment_complete hg (Mode.takes_full _) ends'] at read
  obtain ⟨segments, rfl⟩ := Prod.mk.inj (Except.ok.inj read)
  exact ⟨eq_of_chars_eq hf hg (List.append_cancel_right same) segments.symm, rfl⟩

end StepForm

attribute [ext] WrittenStep

/-- Whether a dot stands before a step shows at its first character. -/
theorem WrittenStep.dotted_iff {w : WrittenStep} (h : w.Follows) (rest : List Char) :
    w.dotted = true ↔ (w.chars ++ rest).head? = some '.' := by
  obtain ⟨dotted, form⟩ := w
  cases dotted with
  | true => exact iff_of_true rfl rfl
  | false =>
    obtain ⟨c, cs, hc, bracketed, -⟩ := Reader.chars_eq_cons h.1
    obtain rfl : c = '[' := bracketed.1 (h.2.resolve_left (by simp))
    refine iff_of_false (by simp) ?_
    simp [chars, hc]

theorem WrittenStep.chars_ne_nil {w : WrittenStep} (h : w.form.Valid) : w.chars ≠ [] := by
  obtain ⟨c, cs, hc, -, -⟩ := Reader.chars_eq_cons h
  simp [chars, hc]

/-- Steps that follow each other are spelled in one way. -/
theorem steps_unique {a b : List WrittenStep} (ha : ∀ w ∈ a, w.Follows) (hb : ∀ w ∈ b, w.Follows)
    (same : a.flatMap WrittenStep.chars = b.flatMap WrittenStep.chars) : a = b := by
  induction a generalizing b with
  | nil =>
    cases b with
    | nil => rfl
    | cons v b =>
      have nothing := (List.append_eq_nil_iff.1 same.symm).1
      exact absurd nothing (WrittenStep.chars_ne_nil (hb v List.mem_cons_self).1)
  | cons w a ih =>
    obtain ⟨hw, follow⟩ := List.forall_mem_cons.1 ha
    cases b with
    | nil =>
      have nothing := (List.append_eq_nil_iff.1 same).1
      exact absurd nothing (WrittenStep.chars_ne_nil hw.1)
    | cons v b =>
      obtain ⟨hv, follow'⟩ := List.forall_mem_cons.1 hb
      rw [List.flatMap_cons, List.flatMap_cons] at same
      have dots : w.dotted = v.dotted := by
        rw [Bool.eq_iff_iff, WrittenStep.dotted_iff hw, WrittenStep.dotted_iff hv, same]
      have forms : w.form.chars ++ a.flatMap WrittenStep.chars =
          v.form.chars ++ b.flatMap WrittenStep.chars := by
        rw [WrittenStep.chars, WrittenStep.chars, dots, List.append_assoc, List.append_assoc] at same
        exact List.append_cancel_left same
      obtain ⟨form, rest⟩ := StepForm.unique hw.1 hv.1
        ((Reader.atStepEnd_chars follow).endsBefore _)
        ((Reader.atStepEnd_chars follow').endsBefore _) forms
      rw [WrittenStep.ext dots form, ih follow follow' rest]

namespace WrittenPath

/-- A root mark shows at the first character. -/
theorem rootMark_iff {w : WrittenPath} (h : w.Valid) :
    w.rootMark = true ↔ w.chars.head? = some '$' := by
  obtain ⟨rootMark, steps⟩ := w
  cases rootMark with
  | true => exact iff_of_true rfl rfl
  | false =>
    refine iff_of_false (by simp) ?_
    cases steps with
    | nil => simp [chars]
    | cons first rest =>
      obtain ⟨⟨valid, undotted⟩, -⟩ := h
      obtain ⟨c, cs, hc, -, dollar⟩ := Reader.chars_eq_cons valid
      simp [chars, WrittenStep.chars, undotted, hc, dollar]

/-- After a dot a step that begins a text is one that follows. -/
theorem follow_of_begins {first : WrittenStep} {rest : List WrittenStep}
    (h : (WrittenPath.mk false (first :: rest)).Valid) :
    (∀ w ∈ (⟨true, first.form⟩ : WrittenStep) :: rest, w.Follows) ∧
      ((⟨true, first.form⟩ : WrittenStep) :: rest).flatMap WrittenStep.chars =
        '.' :: (WrittenPath.mk false (first :: rest)).chars := by
  obtain ⟨⟨valid, undotted⟩, follow⟩ := h
  refine ⟨List.forall_mem_cons.2 ⟨⟨valid, .inl rfl⟩, follow⟩, ?_⟩
  simp [chars, WrittenStep.chars, undotted]

/-- A text has one spelling at most. -/
theorem unique {w v : WrittenPath} (hw : w.Valid) (hv : v.Valid) (same : w.chars = v.chars) :
    w = v := by
  have marks : w.rootMark = v.rootMark := by
    rw [Bool.eq_iff_iff, rootMark_iff hw, rootMark_iff hv, same]
  obtain ⟨rootMark, steps⟩ := w
  obtain ⟨rootMark', steps'⟩ := v
  obtain rfl : rootMark = rootMark' := marks
  have characters : steps.flatMap WrittenStep.chars = steps'.flatMap WrittenStep.chars :=
    List.append_cancel_left same
  cases rootMark with
  | true => exact congrArg (mk true) (steps_unique hw hv characters)
  | false =>
    cases steps with
    | nil =>
      cases steps' with
      | nil => rfl
      | cons first rest =>
        have nothing := (List.append_eq_nil_iff.1 characters.symm).1
        exact absurd nothing (WrittenStep.chars_ne_nil hv.1.1)
    | cons first rest =>
      cases steps' with
      | nil =>
        have nothing := (List.append_eq_nil_iff.1 characters).1
        exact absurd nothing (WrittenStep.chars_ne_nil hw.1.1)
      | cons first' rest' =>
        obtain ⟨follow, dotted⟩ := follow_of_begins hw
        obtain ⟨follow', dotted'⟩ := follow_of_begins hv
        have steps := steps_unique follow follow' (by rw [dotted, dotted', same])
        obtain ⟨form, rfl⟩ := List.cons.inj steps
        have begins : first = first' :=
          WrittenStep.ext (hw.1.2.trans hv.1.2.symm) (WrittenStep.mk.inj form).2
        rw [begins]

end WrittenPath

/-! ### Normal spellings -/

namespace StepForm

/-- Whether a step is spelled in the form that canonical texts have for it. -/
def Normal : StepForm → Prop
  | identifier _ _ | position _ _ | bracketedAsterisk => True
  | asterisk => False
  | quoted quote name _ =>
    quote = '"' ∧ isIdentifier (name.map QuotedChar.meaning) = false ∧ .escaped Text.apostrophe ∉ name

instance : DecidablePred Normal
  | identifier _ _ | position _ _ | bracketedAsterisk => inferInstanceAs (Decidable True)
  | asterisk => inferInstanceAs (Decidable False)
  | quoted _ _ _ => inferInstanceAs (Decidable (_ ∧ _ ∧ _))

end StepForm

/-- A spelling without a root mark, without dots before brackets, and with all steps in normal form. -/
structure WrittenPath.Normal (w : WrittenPath) : Prop where
  unmarked : w.rootMark = false
  undotted : ∀ s ∈ w.steps, s.form.isBracketed = true → s.dotted = false
  forms : ∀ s ∈ w.steps, s.form.Normal

instance (w : WrittenPath) : Decidable w.Normal :=
  decidable_of_iff (w.rootMark = false ∧
      (∀ s ∈ w.steps, s.form.isBracketed = true → s.dotted = false) ∧ ∀ s ∈ w.steps, s.form.Normal)
    ⟨fun ⟨unmarked, undotted, forms⟩ => ⟨unmarked, undotted, forms⟩,
      fun h => ⟨h.unmarked, h.undotted, h.forms⟩⟩

/-- Between double quotes a character has a backslash if it needs one, or if it is an apostrophe. -/
theorem QuotedChar.canonical_meaning {q : QuotedChar} (valid : q.Valid '"')
    (h : q ≠ .escaped Text.apostrophe) : canonical q.meaning = q := by
  cases q with
  | plain c =>
    have bare : ¬ (c = '\\' ∨ c = '"') := by
      rintro (rfl | rfl)
      · exact valid.2 rfl
      · exact valid.1 rfl
    rw [meaning, canonical, if_neg bare]
  | escaped c =>
    have needed : c = '\\' ∨ c = '"' := by
      rcases valid with quote | apostrophe | backslash
      · exact .inr quote
      · exact absurd (congrArg escaped apostrophe) h
      · exact .inl backslash
    rw [meaning, canonical, if_pos needed]

namespace Segment

theorem normal_form (s : Segment) : s.form.Normal := by
  cases s with
  | key name optional =>
    cases h : isIdentifier name.toList with
    | true =>
      rw [form, if_pos h]
      trivial
    | false =>
      rw [form, if_neg (by simp [h])]
      refine ⟨rfl, by simp [Function.comp_def, h], fun there => ?_⟩
      obtain ⟨c, -, hc⟩ := List.mem_map.1 there
      unfold QuotedChar.canonical at hc
      split at hc
      · next needed =>
        cases hc
        exact absurd needed (by decide)
      · cases hc
  | index position optional => trivial
  | wildcard => trivial

end Segment

/-- A normal form is the one that canonical texts have for its segment. -/
theorem StepForm.eq_form {f : StepForm} (valid : f.Valid) (normal : f.Normal) : f.segment.form = f := by
  cases f with
  | identifier name optional =>
    have identifier : isIdentifier name = true := valid
    simp [segment, Segment.form, identifier]
  | asterisk => exact normal.elim
  | position digits optional =>
    simp only [segment, Segment.form, toDigits_ofDigitChars valid]
  | bracketedAsterisk => rfl
  | quoted quote name optional =>
    obtain ⟨rfl, noIdentifier, noApostrophe⟩ := normal
    have characters : (name.map QuotedChar.meaning).map QuotedChar.canonical = name := by
      rw [List.map_map]
      refine (List.map_congr_left fun q hq => ?_).trans name.map_id
      exact QuotedChar.canonical_meaning (valid.2 q hq) fun same => noApostrophe (same ▸ hq)
    simp only [segment, Segment.form, String.toList_ofList, noIdentifier, characters]
    rfl

theorem WrittenStep.eq_written {w : WrittenStep} (follows : w.Follows)
    (undotted : w.form.isBracketed = true → w.dotted = false) (normal : w.form.Normal) :
    w.form.segment.written = w := by
  have form := StepForm.eq_form follows.1 normal
  refine WrittenStep.ext ?_ form
  change w.form.segment.isBare = w.dotted
  have brackets := w.form.segment.isBracketed_form
  rw [form] at brackets
  cases h : w.form.isBracketed with
  | true =>
    rw [undotted h]
    simpa [h] using brackets
  | false =>
    have dotted : w.dotted = true := follows.2.resolve_right (by simp [h])
    rw [dotted]
    simpa [h] using brackets

theorem normal_written (segments : List Segment) : (written segments).Normal := by
  have undotted : ∀ s : Segment, s.form.isBracketed = true → s.isBare = false := by
    intro s h
    simpa [h] using s.isBracketed_form
  cases segments with
  | nil => exact ⟨rfl, by simp [written], by simp [written]⟩
  | cons first rest =>
    refine ⟨rfl, List.forall_mem_cons.2 ⟨fun _ => rfl, ?_⟩,
      List.forall_mem_cons.2 ⟨first.normal_form, ?_⟩⟩
    · intro w hw
      obtain ⟨s, -, rfl⟩ := List.mem_map.1 hw
      exact undotted s
    · intro w hw
      obtain ⟨s, -, rfl⟩ := List.mem_map.1 hw
      exact s.normal_form

/-- A normal spelling is the one that canonical texts have for its segments. -/
theorem WrittenPath.eq_written {w : WrittenPath} (valid : w.Valid) (normal : w.Normal) :
    written w.segments = w := by
  obtain ⟨rootMark, steps⟩ := w
  obtain ⟨unmarked, undotted, forms⟩ := normal
  obtain rfl : rootMark = false := unmarked
  cases steps with
  | nil => rfl
  | cons first rest =>
    obtain ⟨begins, follow⟩ := valid
    have later : (rest.map (·.form.segment)).map Segment.written = rest := by
      rw [List.map_map]
      refine (List.map_congr_left fun w hw => ?_).trans rest.map_id
      have inside := List.mem_cons_of_mem first hw
      exact WrittenStep.eq_written (follow w hw) (undotted w inside) (forms w inside)
    have start : (⟨false, first.form.segment.form⟩ : WrittenStep) = first :=
      WrittenStep.ext begins.2.symm
        (StepForm.eq_form begins.1 (forms first List.mem_cons_self))
    simp only [segments, List.map_cons, written, start, later]

namespace Expression

/-- A text that is read as a path has one spelling, and it is the canonical text of that path if and
only if this spelling is normal: there is no root mark, no dot before a bracket and no bare asterisk,
and each quoted name stands between double quotes, is no identifier and has no backslash before an
apostrophe. The canonical text of the path is spelled so. The empty text has no steps to be spelled
and is normal. -/
theorem text_eq_iff_normal (t : String) (e : Expression) (h : read .full t = .ok e) :
    (∃! w : WrittenPath, w.Valid ∧ w.chars = t.toList) ∧
    (∀ w : WrittenPath, w.Valid → w.chars = t.toList → (e.text = t ↔ w.Normal)) ∧
    ∃ w : WrittenPath, w.Valid ∧ w.chars = e.text.toList ∧ w.Normal := by
  obtain ⟨spelling, valid, chars, segments⟩ := read_full_eq_ok_iff.1 h
  have canonical : (written e.segments).chars = e.text.toList := by
    rw [chars_written, text, String.toList_ofList]
  have same : ∀ w : WrittenPath, w.Valid → w.chars = t.toList → w = spelling :=
    fun w hw hc => WrittenPath.unique hw valid (hc.trans chars.symm)
  refine ⟨⟨spelling, ⟨valid, chars⟩, fun w hw => same w hw.1 hw.2⟩, ?_,
    ⟨_, valid_written e.segments, canonical, normal_written e.segments⟩⟩
  intro w hw hc
  rw [same w hw hc]
  constructor
  · intro he
    have whole : written e.segments = spelling := by
      refine WrittenPath.unique (valid_written _) valid ?_
      rw [canonical, he, chars]
    rw [← whole]
    exact normal_written e.segments
  · intro normal
    have whole := WrittenPath.eq_written valid normal
    rw [segments] at whole
    rw [← String.toList_inj, ← canonical, whole, chars]

/-- A name with an apostrophe and with double quotes is read from either sort of quotes. Only between
double quotes, with a backslash before these alone, does the text stay as it is. -/
theorem text_of_name_with_quotes :
    let e : Expression := ⟨[.key "it's \"b\"" true, .wildcard, .index 10 false]⟩
    let double := "[\"it's \\\"b\\\"\"]?[*][10]"
    let single := "['it\\'s \"b\"']?[*][10]"
    read .full double = .ok e ∧ read .full single = .ok e ∧
    e.text = double ∧ e.text ≠ single := by
  intro e double single
  let name (quote : Char) : List QuotedChar := "it's \"b\"".toList.map fun c =>
    if c = quote then .escaped c else .plain c
  let spelled (quote : Char) : WrittenPath :=
    ⟨false, [⟨false, .quoted quote (name quote) true⟩, ⟨false, .bracketedAsterisk⟩,
      ⟨false, .position ['1', '0'] false⟩]⟩
  have valid : (spelled '"').Valid ∧ (spelled Text.apostrophe).Valid := by decide +kernel
  have chars : (spelled '"').chars = double.toList := by decide +kernel
  have chars' : (spelled Text.apostrophe).chars = single.toList := by decide +kernel
  have meaning : ∀ quote, (name quote).map QuotedChar.meaning = "it's \"b\"".toList := by
    intro quote
    have same : ∀ c, (if c = quote then QuotedChar.escaped c else .plain c).meaning = c := by
      intro c
      split <;> rfl
    simp only [name, List.map_map, Function.comp_def, same, List.map_id']
  have segments : ∀ quote, (spelled quote).segments = e.segments := by
    intro quote
    simp only [spelled, WrittenPath.segments, List.map_cons, List.map_nil, StepForm.segment,
      meaning, String.ofList_toList]
    rfl
  have denotes : read .full double = .ok e :=
    read_full_eq_ok_iff.2 ⟨spelled '"', valid.1, chars, segments _⟩
  have denotes' : read .full single = .ok e :=
    read_full_eq_ok_iff.2 ⟨spelled Text.apostrophe, valid.2, chars', segments _⟩
  obtain ⟨-, canonical, -⟩ := text_eq_iff_normal double e denotes
  obtain ⟨-, canonical', -⟩ := text_eq_iff_normal single e denotes'
  refine ⟨denotes, denotes', (canonical _ valid.1 chars).2 (by decide +kernel), fun same => ?_⟩
  exact absurd ((canonical' _ valid.2 chars').1 same) (by decide +kernel)

end Expression

end TreeQuery
