import TreeQuery.Path.Checked
import TreeQuery.Path.Grammar

/-!
# The reader takes exactly the language of paths

Every reader is compared with the forms that a text can be written in: what it takes up is such
a form, and a form that stands before the next step, or before the end of the text, is taken up
whole. A text is read as segments if and only if it means them, and so it means one sequence of
segments at most. In concrete mode the segments must be concrete as well.
-/

namespace TreeQuery

/-- A segment other than a wildcard is taken unless it is optional in concrete mode. -/
theorem Mode.takes_iff {mode : Mode} {s : Segment} (hw : s.isWildcard = false) :
    mode.Takes s ↔ (mode = .concrete → s.isOptional = false) := by
  simp [Mode.Takes, Segment.isConcrete, hw]

/-- Nothing follows, or the separator of a later step. -/
def AtStepEnd (rest : List Char) : Prop := ∀ c, rest.head? = some c → c = '.' ∨ c = '['

/-- A form without a question mark ends where none follows and, if it is a bare name, no character
of names either. -/
theorem StepForm.endsBefore_iff {form : StepForm} {rest : List Char} :
    form.EndsBefore rest ↔ (form.segment.isOptional = false → rest.head? ≠ some '?' ∧
      (form.isBareName = true → NextNot isNameChar rest)) := by
  constructor
  · intro h unmarked
    refine ⟨fun hq => ?_, fun bare c hc => ?_⟩
    · simpa [goesOn, unmarked] using h '?' hq
    · have other : c ≠ '?' ∧ isNameChar c = false := by simpa [goesOn, unmarked, bare] using h c hc
      exact other.2
  · intro h c hc
    cases unmarked : form.segment.isOptional with
    | true => simp [goesOn, unmarked]
    | false =>
      obtain ⟨hq, hn⟩ := h unmarked
      have other : c ≠ '?' := by
        rintro rfl
        exact hq hc
      cases bare : form.isBareName with
      | false => simp [goesOn, bare, other]
      | true => simp [goesOn, other, hn bare c hc]

theorem AtStepEnd.endsBefore {rest : List Char} (h : AtStepEnd rest) (form : StepForm) :
    form.EndsBefore rest := by
  refine StepForm.endsBefore_iff.2 fun _ => ⟨fun hq => ?_, fun _ c hc => ?_⟩
  · rcases h '?' hq with h | h <;> cases h
  · rcases h c hc with rfl | rfl <;> decide

/-- A text begins with a form, which stands for a segment that a reader takes. -/
structure Spelled (mode : Mode) (cs : List Char) (form : StepForm) (s : Segment)
    (rest : List Char) : Prop where
  valid : form.Valid
  chars_eq : cs = form.chars ++ rest
  segment_eq : form.segment = s
  taken : mode.Takes s

namespace Reader

open Text (apostrophe)

/-! ### Question marks and brackets -/

theorem closeBracket_eq_ok_iff {cs rest : List Char} :
    closeBracket cs = .ok rest ↔ cs = ']' :: rest := by
  constructor
  · intro h
    unfold closeBracket at h
    split at h <;> cases h
    rfl
  · rintro rfl
    rfl

theorem optionalMark_sound {mode : Mode} {cs rest : List Char} {optional : Bool}
    (h : optionalMark mode cs = .ok (optional, rest)) :
    cs = StepForm.mark optional ++ rest ∧ (mode = .concrete → optional = false) ∧
      (optional = false → rest.head? ≠ some '?') := by
  unfold optionalMark at h
  split at h
  · cases mode <;> cases h
    exact ⟨rfl, fun h => (by cases h), fun h => (by cases h)⟩
  · next unmarked =>
    cases h
    refine ⟨rfl, fun _ => rfl, fun _ hq => ?_⟩
    obtain ⟨after, rfl⟩ := List.head?_eq_some_iff.1 hq
    exact unmarked after rfl

theorem optionalMark_complete {mode : Mode} {rest : List Char} {optional : Bool}
    (hm : mode = .concrete → optional = false) (hr : optional = false → rest.head? ≠ some '?') :
    optionalMark mode (StepForm.mark optional ++ rest) = .ok (optional, rest) := by
  cases optional with
  | true =>
    cases mode with
    | full => rfl
    | concrete => cases hm rfl
  | false =>
    unfold optionalMark
    split
    · next heq => simp [StepForm.mark] at heq; simp [heq] at hr
    · rfl

theorem bracketEnd_sound {mode : Mode} {f : Bool → Segment} {cs rest : List Char} {s : Segment}
    (h : bracketEnd mode f cs = .ok (s, rest)) :
    ∃ optional, f optional = s ∧ cs = ']' :: StepForm.mark optional ++ rest ∧
      (mode = .concrete → optional = false) ∧ (optional = false → rest.head? ≠ some '?') := by
  obtain ⟨after, hc, h⟩ := bind_eq_ok_iff.1 h
  obtain ⟨⟨optional, _⟩, ho, h⟩ := bind_eq_ok_iff.1 h
  cases h
  obtain ⟨rfl, hm, hr⟩ := optionalMark_sound ho
  exact ⟨optional, rfl, closeBracket_eq_ok_iff.1 hc, hm, hr⟩

theorem bracketEnd_complete {mode : Mode} (f : Bool → Segment) {rest : List Char} {optional : Bool}
    (hm : mode = .concrete → optional = false) (hr : optional = false → rest.head? ≠ some '?') :
    bracketEnd mode f (']' :: StepForm.mark optional ++ rest) = .ok (f optional, rest) := by
  have marked := optionalMark_complete hm hr
  exact bind_eq_ok_iff.2 ⟨_, closeBracket_eq_ok_iff.2 rfl, bind_eq_ok_iff.2 ⟨_, marked, rfl⟩⟩

/-! ### Quoted names -/

theorem isEscapable_iff {c : Char} :
    isEscapable c = true ↔ c = '"' ∨ c = apostrophe ∨ c = '\\' := by
  simp [isEscapable, or_assoc]

theorem quotedName_sound {quote : Char} {cs name rest : List Char}
    (h : quotedName quote cs = .ok (name, rest)) :
    ∃ written : List QuotedChar, (∀ q ∈ written, q.Valid quote) ∧
      cs = written.flatMap QuotedChar.chars ++ quote :: rest ∧
      written.map QuotedChar.meaning = name := by
  fun_induction quotedName quote cs generalizing name rest with
  | case2 => cases h; exact ⟨[], by simp, rfl, rfl⟩
  | case4 d cs hd others after hr _ ih =>
    cases h
    obtain ⟨written, valid, hcs, hname⟩ := ih hr
    refine ⟨.escaped d :: written, ?_, by simp [hcs, QuotedChar.chars], by
      simp [hname, QuotedChar.meaning]⟩
    exact List.forall_mem_cons.2 ⟨isEscapable_iff.1 hd, valid⟩
  | case7 c cs hq hb others after hr ih =>
    cases h
    obtain ⟨written, valid, hcs, hname⟩ := ih hr
    refine ⟨.plain c :: written, ?_, by simp [hcs, QuotedChar.chars], by
      simp [hname, QuotedChar.meaning]⟩
    exact List.forall_mem_cons.2 ⟨⟨hq, hb⟩, valid⟩
  | _ => cases h

/-- Characters that are written as they should be are taken up one by one. -/
theorem quotedName_append {quote : Char} (hq : quote ≠ '\\') {written : List QuotedChar}
    (valid : ∀ q ∈ written, q.Valid quote) (rest : List Char) :
    quotedName quote (written.flatMap QuotedChar.chars ++ rest) =
      (quotedName quote rest).map fun p => (written.map QuotedChar.meaning ++ p.1, p.2) := by
  induction written with
  | nil => cases h : quotedName quote rest <;> simp [h, Except.map]
  | cons q others ih =>
    obtain ⟨hq', others'⟩ := List.forall_mem_cons.1 valid
    have read := ih others'
    cases q with
    | plain c =>
      obtain ⟨hne, hb⟩ := hq'
      simp only [List.flatMap_cons, QuotedChar.chars, List.cons_append, List.nil_append]
      conv => lhs; unfold quotedName
      simp only [hne, hb, if_false, read]
      cases quotedName quote rest <;> rfl
    | escaped d =>
      have hd : isEscapable d = true := isEscapable_iff.2 hq'
      simp only [List.flatMap_cons, QuotedChar.chars, List.cons_append, List.nil_append]
      conv => lhs; unfold quotedName
      simp only [hq.symm, if_false, if_true, hd, read]
      cases quotedName quote rest <;> rfl

theorem quotedName_quote (quote : Char) (rest : List Char) :
    quotedName quote (quote :: rest) = .ok ([], rest) := by
  unfold quotedName
  exact if_pos rfl

/-! ### Digits and identifiers -/

/-- A test that every character of a text passes takes the text up to where the rest fails it. -/
theorem takeWhile_append_stop {p : Char → Bool} {cs rest : List Char} (passes : cs.all p = true)
    (stop : NextNot p rest) : (cs ++ rest).takeWhile p = cs := by
  rw [List.takeWhile_append_of_pos (List.all_eq_true.1 passes)]
  cases rest with
  | nil => simp
  | cons c rest => simp [stop c rfl]

theorem dropWhile_append_stop {p : Char → Bool} {cs rest : List Char} (passes : cs.all p = true)
    (stop : NextNot p rest) : (cs ++ rest).dropWhile p = rest := by
  have whole := List.takeWhile_append_dropWhile (p := p) (l := cs ++ rest)
  rw [takeWhile_append_stop passes stop] at whole
  exact List.append_cancel_left whole

theorem nextNot_dropWhile (p : Char → Bool) (cs : List Char) : NextNot p (cs.dropWhile p) := by
  intro c hc
  simpa [hc] using List.head?_dropWhile_not p cs

/-- An identifier is a first character that may start one, and characters that may follow. -/
theorem isIdentifier_iff {name : List Char} :
    isIdentifier name = true ↔
      name.all isNameChar = true ∧ ∃ c, name.head? = some c ∧ isNameStart c = true := by
  cases name with
  | nil => simp [isIdentifier]
  | cons c rest =>
    simp only [isIdentifier, List.all_cons, Bool.and_eq_true, List.head?_cons, Option.some.injEq,
      exists_eq_left']
    constructor
    · rintro ⟨hs, hr⟩
      exact ⟨⟨isNameChar_of_isNameStart hs, hr⟩, hs⟩
    · rintro ⟨⟨-, hr⟩, hs⟩
      exact ⟨hs, hr⟩

theorem isIdentifier_takeWhile {c : Char} {cs : List Char} (hc : isNameStart c = true) :
    isIdentifier ((c :: cs).takeWhile isNameChar) = true := by
  refine isIdentifier_iff.2 ⟨List.all_takeWhile, c, ?_, hc⟩
  simp [isNameChar_of_isNameStart hc]

theorem bareName_sound {mode : Mode} {c : Char} {cs rest : List Char} {s : Segment}
    (hc : isNameStart c = true) (h : bareName mode (c :: cs) = .ok (s, rest)) :
    ∃ form, Spelled mode (c :: cs) form s rest ∧ form.EndsBefore rest := by
  obtain ⟨⟨optional, _⟩, ho, h⟩ := bind_eq_ok_iff.1 h
  cases h
  obtain ⟨hcs, hm, hr⟩ := optionalMark_sound ho
  refine ⟨.identifier ((c :: cs).takeWhile isNameChar) optional,
    ⟨isIdentifier_takeWhile hc, ?_, rfl, (Mode.takes_iff rfl).2 hm⟩,
    StepForm.endsBefore_iff.2 fun unmarked => ?_⟩
  · rw [StepForm.chars, List.append_assoc, ← hcs, List.takeWhile_append_dropWhile]
  · cases unmarked
    have left : (c :: cs).dropWhile isNameChar = rest := hcs
    exact ⟨hr rfl, fun _ => left ▸ nextNot_dropWhile isNameChar (c :: cs)⟩

/-! ### Segments -/

theorem asterisk_sound {mode : Mode} {close : List Char → Except Stop (List Char)}
    {cs rest : List Char} {s : Segment} (h : asterisk mode close cs = .ok (s, rest)) :
    s = .wildcard ∧ close cs = .ok rest ∧ mode.Takes s ∧ rest.head? ≠ some '?' := by
  cases mode with
  | concrete => cases h
  | full =>
    obtain ⟨after, hc, h⟩ := bind_eq_ok_iff.1 h
    unfold afterWildcard at h
    split at h
    · cases h
    · next unmarked =>
      cases h
      refine ⟨rfl, hc, fun h => (by cases h), fun hq => ?_⟩
      obtain ⟨others, rfl⟩ := List.head?_eq_some_iff.1 hq
      exact unmarked others rfl

theorem asterisk_complete {mode : Mode} {close : List Char → Except Stop (List Char)}
    {cs rest : List Char} (hc : close cs = .ok rest) (hm : mode.Takes .wildcard)
    (hr : rest.head? ≠ some '?') : asterisk mode close cs = .ok (.wildcard, rest) := by
  cases mode with
  | concrete => cases hm rfl
  | full =>
    refine bind_eq_ok_iff.2 ⟨rest, hc, ?_⟩
    unfold afterWildcard
    split
    · simp at hr
    · rfl

theorem digits_valid {c : Char} {cs : List Char} (hd : c.isDigit = true)
    (hz : ¬ (c = '0' ∧ 1 < ((c :: cs).takeWhile Char.isDigit).length)) (optional : Bool) :
    (StepForm.position ((c :: cs).takeWhile Char.isDigit) optional).Valid := by
  rw [List.takeWhile_cons_of_pos hd] at hz ⊢
  refine ⟨by simp, by simp [hd, List.all_takeWhile], fun h0 => ?_⟩
  cases Option.some.inj h0
  have none : cs.takeWhile Char.isDigit = [] := by simpa using hz
  rw [none]

theorem position_sound {mode : Mode} {c : Char} {cs rest : List Char} {s : Segment}
    (hd : c.isDigit = true)
    (hz : ¬ (c = '0' ∧ 1 < ((c :: cs).takeWhile Char.isDigit).length))
    (h : bracketEnd mode (.index (Nat.ofDigitChars 10 ((c :: cs).takeWhile Char.isDigit) 0))
      ((c :: cs).dropWhile Char.isDigit) = .ok (s, rest)) :
    ∃ form, Spelled mode ('[' :: c :: cs) form s rest ∧ form.EndsBefore rest := by
  obtain ⟨optional, rfl, hcs, hm, hr⟩ := bracketEnd_sound h
  have whole : '[' :: c :: cs =
      (StepForm.position ((c :: cs).takeWhile Char.isDigit) optional).chars ++ rest := by
    rw [StepForm.chars, List.cons_append, List.cons_append, List.append_assoc, ← hcs,
      List.takeWhile_append_dropWhile]
  exact ⟨_, ⟨digits_valid hd hz optional, whole, rfl, (Mode.takes_iff rfl).2 hm⟩,
    StepForm.endsBefore_iff.2 fun h => ⟨hr h, fun bare => by cases bare⟩⟩

theorem quoted_sound {mode : Mode} {quote : Char} {cs name after rest : List Char} {s : Segment}
    (hq : quote = '"' ∨ quote = apostrophe) (hn : quotedName quote cs = .ok (name, after))
    (h : bracketEnd mode (.key (String.ofList name)) after = .ok (s, rest)) :
    ∃ form, Spelled mode ('[' :: quote :: cs) form s rest ∧ form.EndsBefore rest := by
  obtain ⟨written, valid, rfl, rfl⟩ := quotedName_sound hn
  obtain ⟨optional, rfl, rfl, hm, hr⟩ := bracketEnd_sound h
  refine ⟨.quoted quote written optional, ⟨⟨hq, valid⟩, ?_, rfl, (Mode.takes_iff rfl).2 hm⟩,
    StepForm.endsBefore_iff.2 fun h => ⟨hr h, fun bare => by cases bare⟩⟩
  simp [StepForm.chars]

theorem bracketed_sound {mode : Mode} {cs rest : List Char} {s : Segment}
    (h : bracketed mode cs = .ok (s, rest)) :
    ∃ form, Spelled mode ('[' :: cs) form s rest ∧ form.EndsBefore rest := by
  cases cs with
  | nil => cases h
  | cons c cs =>
    simp only [bracketed] at h
    split at h
    · next hc =>
      obtain ⟨rfl, hcs, hm, hr⟩ := asterisk_sound h
      rw [hc, closeBracket_eq_ok_iff.1 hcs]
      exact ⟨.bracketedAsterisk, ⟨trivial, rfl, rfl, hm⟩,
        StepForm.endsBefore_iff.2 fun _ => ⟨hr, fun bare => by cases bare⟩⟩
    · split at h
      · next hd =>
        split at h
        · cases h
        · next hz => exact position_sound hd hz h
      · split at h
        · cases h
        · split at h
          · next hq =>
            obtain ⟨⟨name, after⟩, hn, h⟩ := bind_eq_ok_iff.1 h
            exact quoted_sound hq hn h
          · cases h

/-- What a reader takes as a segment goes as far as it can. -/
theorem segment_sound {mode : Mode} {cs rest : List Char} {s : Segment}
    (h : segment mode cs = .ok (s, rest)) :
    ∃ form, Spelled mode cs form s rest ∧ form.EndsBefore rest := by
  cases cs with
  | nil => cases h
  | cons c cs =>
    simp only [segment] at h
    split at h
    · next hc =>
      rw [hc]
      exact bracketed_sound h
    · split at h
      · next ha =>
        obtain ⟨rfl, hcs, hm, hr⟩ := asterisk_sound h
        cases hcs
        exact ⟨.asterisk, ⟨trivial, by rw [ha]; rfl, rfl, hm⟩,
          StepForm.endsBefore_iff.2 fun _ => ⟨hr, fun bare => by cases bare⟩⟩
      · split at h
        · next hn => exact bareName_sound hn h
        · split at h <;> cases h

/-- What a form of a step begins with, and whether a dot is needed before it. -/
theorem chars_eq_cons {form : StepForm} (valid : form.Valid) :
    ∃ c cs, form.chars = c :: cs ∧ (form.isBracketed = true ↔ c = '[') ∧ c ≠ '$' := by
  cases form with
  | identifier name optional =>
    obtain ⟨-, c, hc, hs⟩ := isIdentifier_iff.1 valid
    obtain ⟨cs, rfl⟩ := List.head?_eq_some_iff.1 hc
    refine ⟨c, _, rfl, ⟨fun h => (by cases h), ?_⟩, ?_⟩
    all_goals
      rintro rfl
      exact absurd hs (by decide)
  | asterisk => exact ⟨'*', [], rfl, by decide, by decide⟩
  | position digits optional => exact ⟨'[', _, rfl, by simp [StepForm.isBracketed], by decide⟩
  | bracketedAsterisk => exact ⟨'[', _, rfl, by decide, by decide⟩
  | quoted quote name optional => exact ⟨'[', _, rfl, by simp [StepForm.isBracketed], by decide⟩

theorem isBracketed_of_head {form : StepForm} (valid : form.Valid) {cs more : List Char}
    (h : '[' :: cs = form.chars ++ more) : form.isBracketed = true := by
  obtain ⟨c, others, hc, bracketed, -⟩ := chars_eq_cons valid
  rw [hc, List.cons_append] at h
  exact bracketed.2 (List.cons.inj h).1.symm

/-- A reader takes an identifier whole and then looks for a question mark. -/
theorem segment_identifier (mode : Mode) {name rest : List Char} (hn : isIdentifier name = true)
    (stop : NextNot isNameChar rest) :
    segment mode (name ++ rest) = do
      let (optional, rest) ← optionalMark mode rest
      return (.key (String.ofList name) optional, rest) := by
  obtain ⟨named, c, hc, hs⟩ := isIdentifier_iff.1 hn
  have hb : c ≠ '[' := by rintro rfl; exact absurd hs (by decide)
  have ha : c ≠ '*' := by rintro rfl; exact absurd hs (by decide)
  have taken := takeWhile_append_stop named stop
  have left := dropWhile_append_stop named stop
  obtain ⟨cs, rfl⟩ := List.head?_eq_some_iff.1 hc
  rw [List.cons_append] at taken left ⊢
  rw [segment, if_neg hb, if_neg ha, if_pos hs, bareName, taken, left]

/-- A reader takes the digits of a position whole and then looks for the bracket. -/
theorem segment_position (mode : Mode) {digits rest : List Char} {optional : Bool}
    (valid : (StepForm.position digits optional).Valid) (stop : NextNot Char.isDigit rest) :
    segment mode ('[' :: digits ++ rest) =
      bracketEnd mode (.index (Nat.ofDigitChars 10 digits 0)) rest := by
  obtain ⟨hne, hd, hz⟩ := valid
  have taken := takeWhile_append_stop hd stop
  have left := dropWhile_append_stop hd stop
  obtain ⟨c, ds, rfl⟩ := List.exists_cons_of_ne_nil hne
  have hc : c.isDigit = true := List.all_eq_true.1 hd c (by simp)
  have ha : c ≠ '*' := by rintro rfl; exact absurd hc (by decide)
  have hz' : ¬ (c = '0' ∧ 1 < (c :: ds).length) := by
    rintro ⟨rfl, h⟩
    rw [hz rfl] at h
    exact absurd h (by decide)
  rw [List.cons_append] at taken left
  simp only [List.cons_append, segment, bracketed, if_true, ha, if_false, hc, taken, left, hz']

/-- A reader takes the quoted characters and reads the name on from there. -/
theorem segment_quoted (mode : Mode) {quote : Char} {name : List QuotedChar} {optional : Bool}
    (valid : (StepForm.quoted quote name optional).Valid) (rest : List Char) :
    segment mode ('[' :: quote :: name.flatMap QuotedChar.chars ++ rest) =
      quotedName quote rest >>= fun (more, rest) =>
        bracketEnd mode (.key (String.ofList (name.map QuotedChar.meaning ++ more))) rest := by
  obtain ⟨hq, hv⟩ := valid
  have ha : quote ≠ '*' := by rcases hq with rfl | rfl <;> decide
  have hd : quote.isDigit = false := by rcases hq with rfl | rfl <;> decide
  have hm : quote ≠ '-' := by rcases hq with rfl | rfl <;> decide
  have hb : quote ≠ '\\' := by rcases hq with rfl | rfl <;> decide
  simp only [List.cons_append, segment, bracketed, if_true, ha, if_false, hd, hm, hq,
    quotedName_append hb hv, Bool.false_eq_true]
  cases quotedName quote rest <;> rfl

theorem segment_complete {mode : Mode} {form : StepForm} (valid : form.Valid)
    (hm : mode.Takes form.segment) {rest : List Char} (hr : form.EndsBefore rest) :
    segment mode (form.chars ++ rest) = .ok (form.segment, rest) := by
  have unmarked : form.segment.isOptional = false → rest.head? ≠ some '?' :=
    fun h => (StepForm.endsBefore_iff.1 hr h).1
  cases form with
  | identifier name optional =>
    have stop : NextNot isNameChar (StepForm.mark optional ++ rest) := by
      intro c hc
      cases optional with
      | true =>
        cases hc
        decide
      | false => exact (StepForm.endsBefore_iff.1 hr rfl).2 rfl c hc
    have marked : optionalMark mode (StepForm.mark optional ++ rest) = .ok (optional, rest) :=
      optionalMark_complete ((Mode.takes_iff rfl).1 hm) unmarked
    rw [StepForm.chars, List.append_assoc, segment_identifier mode valid stop, marked]
    rfl
  | asterisk => exact asterisk_complete rfl hm (unmarked rfl)
  | bracketedAsterisk =>
    simp only [StepForm.chars, List.cons_append, List.nil_append, segment, bracketed, if_true]
    exact asterisk_complete rfl hm (unmarked rfl)
  | position digits optional =>
    have stop : NextNot Char.isDigit (']' :: StepForm.mark optional ++ rest) := by
      intro d h
      cases h
      decide
    rw [StepForm.chars, List.append_assoc, segment_position mode valid stop]
    exact bracketEnd_complete _ ((Mode.takes_iff rfl).1 hm) unmarked
  | quoted quote name optional =>
    rw [StepForm.chars, List.append_assoc, segment_quoted mode valid, List.cons_append,
      quotedName_quote]
    simp only [bind, Except.bind, List.append_nil]
    exact bracketEnd_complete _ ((Mode.takes_iff rfl).1 hm) unmarked

/-! ### Steps and whole paths -/

theorem separator_eq_ok_iff {c : Char} {cs rest : List Char} :
    separator c cs = .ok rest ↔
      (c = '.' ∧ cs ≠ [] ∧ rest = cs) ∨ (c = '[' ∧ rest = c :: cs) := by
  unfold separator
  by_cases hd : c = '.'
  · subst hd
    cases cs <;> simp [eq_comm]
  · by_cases hb : c = '[' <;> simp [hd, hb, eq_comm]

theorem tail_sound {mode : Mode} {cs : List Char} {segments : List Segment}
    (h : tail mode cs = .ok segments) :
    ∃ steps : List WrittenStep, (∀ w ∈ steps, w.Follows) ∧ steps.flatMap WrittenStep.chars = cs ∧
      steps.map (·.form.segment) = segments ∧ ∀ s ∈ segments, mode.Takes s := by
  rw [tail] at h
  fun_induction scanTail mode cs generalizing segments with
  | case1 =>
    cases h
    exact ⟨[], by simp, rfl, rfl, by simp⟩
  | case4 c cs first hsep s rest hseg ih =>
    rw [Scan.outcome_cons] at h
    obtain ⟨others, htail, h⟩ := bind_eq_ok_iff.1 h
    cases h
    obtain ⟨steps, follow, rfl, rfl, takes⟩ := ih htail
    obtain ⟨form, ⟨valid, hfirst, rfl, taken⟩, -⟩ := segment_sound hseg
    have takes' := List.forall_mem_cons.2 ⟨taken, takes⟩
    rcases separator_eq_ok_iff.1 hsep with ⟨rfl, -, rfl⟩ | ⟨rfl, rfl⟩
    · refine ⟨⟨true, form⟩ :: steps, List.forall_mem_cons.2 ⟨⟨valid, .inl rfl⟩, follow⟩, ?_, rfl,
        takes'⟩
      simp [WrittenStep.chars, hfirst]
    · have bracketed := isBracketed_of_head valid hfirst
      refine ⟨⟨false, form⟩ :: steps,
        List.forall_mem_cons.2 ⟨⟨valid, .inr bracketed⟩, follow⟩, ?_, rfl, takes'⟩
      simp [WrittenStep.chars, hfirst]
  | _ => cases h

/-- A step that follows another one begins with a separator. -/
theorem separator_chars {w : WrittenStep} (h : w.Follows) (rest : List Char) :
    ∃ c cs, w.chars ++ rest = c :: cs ∧ (c = '.' ∨ c = '[') ∧
      separator c cs = .ok (w.form.chars ++ rest) := by
  obtain ⟨dotted, form⟩ := w
  obtain ⟨valid, needed⟩ := h
  obtain ⟨c, cs, hc, bracketed, -⟩ := chars_eq_cons valid
  cases dotted with
  | true =>
    refine ⟨'.', form.chars ++ rest, rfl, .inl rfl, separator_eq_ok_iff.2 (.inl ⟨rfl, ?_, rfl⟩)⟩
    simp [hc]
  | false =>
    obtain rfl : c = '[' := bracketed.1 (needed.resolve_left (by simp))
    refine ⟨'[', cs ++ rest, ?_, .inr rfl, separator_eq_ok_iff.2 (.inr ⟨rfl, ?_⟩)⟩
    · simp [WrittenStep.chars, hc]
    · simp [hc]

theorem atStepEnd_chars {steps : List WrittenStep} (follow : ∀ w ∈ steps, w.Follows) :
    AtStepEnd (steps.flatMap WrittenStep.chars) := by
  intro d hd
  cases steps with
  | nil => cases hd
  | cons w others =>
    obtain ⟨c, cs, hcs, hc, -⟩ := separator_chars (follow w (by simp))
      (others.flatMap WrittenStep.chars)
    rw [List.flatMap_cons, hcs] at hd
    cases hd
    exact hc

theorem tail_complete {mode : Mode} {steps : List WrittenStep} (follow : ∀ w ∈ steps, w.Follows)
    (takes : ∀ w ∈ steps, mode.Takes w.form.segment) :
    tail mode (steps.flatMap WrittenStep.chars) = .ok (steps.map (·.form.segment)) := by
  induction steps with
  | nil => exact tail_nil mode
  | cons w others ih =>
    obtain ⟨hw, follow⟩ := List.forall_mem_cons.1 follow
    obtain ⟨taken, takes⟩ := List.forall_mem_cons.1 takes
    obtain ⟨c, cs, hcs, -, hsep⟩ := separator_chars hw (others.flatMap WrittenStep.chars)
    have read := segment_complete hw.1 taken ((atStepEnd_chars follow).endsBefore _)
    rw [List.flatMap_cons, hcs, tail_cons]
    exact bind_eq_ok_iff.2 ⟨_, hsep, bind_eq_ok_iff.2 ⟨_, read,
      bind_eq_ok_iff.2 ⟨_, ih follow takes, rfl⟩⟩⟩

theorem path_sound {mode : Mode} {cs : List Char} {segments : List Segment}
    (h : path mode cs = .ok segments) : Means cs segments ∧ ∀ s ∈ segments, mode.Takes s := by
  cases cs with
  | nil =>
    rw [path_nil] at h
    cases h
    exact ⟨⟨⟨false, []⟩, trivial, rfl, rfl⟩, by simp⟩
  | cons c cs =>
    rw [path_cons] at h
    split at h
    · next hc =>
      obtain ⟨steps, follow, rfl, rfl, takes⟩ := tail_sound h
      exact ⟨⟨⟨true, steps⟩, follow, by rw [hc]; rfl, rfl⟩, takes⟩
    · obtain ⟨⟨s, rest⟩, hseg, h⟩ := bind_eq_ok_iff.1 h
      obtain ⟨others, htail, h⟩ := bind_eq_ok_iff.1 h
      cases h
      obtain ⟨steps, follow, rfl, rfl, takes⟩ := tail_sound htail
      obtain ⟨form, ⟨valid, hcs, rfl, taken⟩, -⟩ := segment_sound hseg
      refine ⟨⟨⟨false, ⟨false, form⟩ :: steps⟩, ⟨⟨valid, rfl⟩, follow⟩, ?_, rfl⟩,
        List.forall_mem_cons.2 ⟨taken, takes⟩⟩
      simp [WrittenPath.chars, WrittenStep.chars, hcs]

theorem path_complete {mode : Mode} {w : WrittenPath} (valid : w.Valid)
    (takes : ∀ s ∈ w.segments, mode.Takes s) : path mode w.chars = .ok w.segments := by
  obtain ⟨rootMark, steps⟩ := w
  have taken : ∀ w ∈ steps, mode.Takes w.form.segment := by
    simpa [WrittenPath.segments] using takes
  cases rootMark with
  | true => exact tail_complete valid taken
  | false =>
    cases steps with
    | nil => rfl
    | cons first others =>
      obtain ⟨⟨hf, hd⟩, follow⟩ := valid
      obtain ⟨firstTaken, othersTaken⟩ := List.forall_mem_cons.1 taken
      obtain ⟨c, cs, hc, -, hroot⟩ := chars_eq_cons hf
      have read := segment_complete hf firstTaken ((atStepEnd_chars follow).endsBefore _)
      have whole : (WrittenPath.mk false (first :: others)).chars =
          first.form.chars ++ others.flatMap WrittenStep.chars := by
        simp [WrittenPath.chars, WrittenStep.chars, hd]
      rw [whole]
      rw [hc, List.cons_append] at read ⊢
      rw [path_cons, if_neg hroot]
      exact bind_eq_ok_iff.2 ⟨_, read, bind_eq_ok_iff.2 ⟨_, tail_complete follow othersTaken, rfl⟩⟩

/-- A text is read as segments when it means them and the mode takes each of them. -/
theorem path_eq_ok_iff {mode : Mode} {cs : List Char} {segments : List Segment} :
    path mode cs = .ok segments ↔ Means cs segments ∧ ∀ s ∈ segments, mode.Takes s := by
  refine ⟨path_sound, ?_⟩
  rintro ⟨⟨w, valid, rfl, rfl⟩, takes⟩
  exact path_complete valid takes

end Reader

theorem Mode.takes_full (s : Segment) : Mode.full.Takes s := by
  intro h
  cases h

/-- A text means one sequence of segments at most. -/
theorem Means.unique {cs : List Char} {a b : List Segment} (ha : Means cs a) (hb : Means cs b) :
    a = b := by
  have ra := Reader.path_eq_ok_iff.2 ⟨ha, fun s _ => Mode.takes_full s⟩
  have rb := Reader.path_eq_ok_iff.2 ⟨hb, fun s _ => Mode.takes_full s⟩
  exact Except.ok.inj (ra.symm.trans rb)

namespace Expression

theorem read_eq_ok_iff {mode : Mode} {text : String} {e : Expression} :
    read mode text = .ok e ↔ Means text.toList e.segments ∧ ∀ s ∈ e.segments, mode.Takes s := by
  obtain ⟨segments⟩ := e
  rw [← Reader.path_eq_ok_iff, read]
  cases Reader.path mode text.toList <;> simp

theorem read_full_eq_ok_iff {text : String} {e : Expression} :
    read .full text = .ok e ↔ Means text.toList e.segments := by
  rw [read_eq_ok_iff, and_iff_left fun s _ => Mode.takes_full s]

/-- A text that is not read is reported with an error about this text. -/
theorem text_of_read_eq_error {mode : Mode} {text : String} {cause : Malformed}
    (h : read mode text = .error cause) : cause.text = text := by
  unfold read at h
  split at h <;> cases h
  rfl

end Expression

end TreeQuery
