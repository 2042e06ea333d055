import TreeQuery.Path.Break
import TreeQuery.Proofs.Path.Language

/-!
# Readers stop where texts break off

What a reader reports when it stops is a break of the text: what it has taken up, what it expected,
and the rest. And where a text breaks off, the reader stops and reports this break. So a text has one
break at most, and it has one if and only if it is no path.
-/

namespace TreeQuery

namespace Reader

open Text (apostrophe)

/-- Two readers in sequence stop where one of them does. -/
theorem bind_eq_error_iff {α β : Type} {x : Except Stop α} {f : α → Except Stop β} {stop : Stop} :
    x >>= f = .error stop ↔ x = .error stop ∨ ∃ a, x = .ok a ∧ f a = .error stop := by
  cases x with
  | error other =>
    constructor
    · intro h
      cases h
      exact .inl rfl
    · rintro (h | ⟨_, h, _⟩) <;> cases h
      rfl
  | ok a =>
    constructor
    · intro h
      exact .inr ⟨a, rfl, h⟩
    · rintro (h | ⟨_, h, k⟩) <;> cases h
      exact k

/-! ### Question marks and brackets -/

theorem closeBracket_eq_error_iff {cs : List Char} {stop : Stop} :
    closeBracket cs = .error stop ↔ NextNot (· = ']') cs ∧ stop = ⟨.closingBracket, cs⟩ := by
  unfold closeBracket
  split
  · next rest =>
    refine ⟨fun h => (by cases h), fun ⟨h, _⟩ => ?_⟩
    exact absurd (h ']' rfl) (by decide)
  · next opened =>
    constructor
    · intro h
      cases h
      refine ⟨fun c hc => decide_eq_false ?_, rfl⟩
      rintro rfl
      obtain ⟨rest, rfl⟩ := List.head?_eq_some_iff.1 hc
      exact opened rest rfl
    · rintro ⟨-, rfl⟩
      rfl

theorem optionalMark_eq_error_iff {mode : Mode} {cs : List Char} {stop : Stop} :
    optionalMark mode cs = .error stop ↔
      mode = .concrete ∧ (∃ rest, cs = '?' :: rest) ∧ stop = ⟨.concreteStep, cs⟩ := by
  unfold optionalMark
  split
  · next rest => cases mode <;> simp [eq_comm]
  · next unmarked =>
    refine ⟨fun h => (by cases h), fun ⟨_, ⟨rest, h⟩, _⟩ => ?_⟩
    exact absurd h (unmarked rest)

theorem afterWildcard_eq_error_iff {cs : List Char} {stop : Stop} :
    afterWildcard cs = .error stop ↔
      (∃ rest, cs = '?' :: rest) ∧ stop = ⟨.separatorAfterWildcard, cs⟩ := by
  unfold afterWildcard
  split
  · simp [eq_comm]
  · next unmarked =>
    refine ⟨fun h => (by cases h), fun ⟨⟨rest, h⟩, _⟩ => ?_⟩
    exact absurd h (unmarked rest)

theorem bracketEnd_eq_error_iff {mode : Mode} {f : Bool → Segment} {cs : List Char} {stop : Stop} :
    bracketEnd mode f cs = .error stop ↔
      NextNot (· = ']') cs ∧ stop = ⟨.closingBracket, cs⟩ ∨
      mode = .concrete ∧ ∃ rest, cs = ']' :: '?' :: rest ∧ stop = ⟨.concreteStep, '?' :: rest⟩ := by
  unfold bracketEnd
  simp only [bind_eq_error_iff, closeBracket_eq_error_iff, closeBracket_eq_ok_iff,
    optionalMark_eq_error_iff]
  constructor
  · rintro (h | ⟨after, rfl, ⟨hm, ⟨rest, rfl⟩, rfl⟩ | ⟨_, _, h⟩⟩)
    · exact .inl h
    · exact .inr ⟨hm, rest, rfl, rfl⟩
    · cases h
  · rintro (h | ⟨hm, rest, rfl, rfl⟩)
    · exact .inl h
    · exact .inr ⟨_, rfl, .inl ⟨hm, ⟨rest, rfl⟩, rfl⟩⟩

theorem asterisk_eq_error_iff {mode : Mode} {close : List Char → Except Stop (List Char)}
    {cs : List Char} {stop : Stop} :
    asterisk mode close cs = .error stop ↔
      mode = .concrete ∧ stop = ⟨.concreteStep, '*' :: cs⟩ ∨
      mode = .full ∧ (close cs = .error stop ∨
        ∃ rest, close cs = .ok ('?' :: rest) ∧ stop = ⟨.separatorAfterWildcard, '?' :: rest⟩) := by
  cases mode with
  | concrete => simp [asterisk, eq_comm]
  | full =>
    simp only [asterisk, bind_eq_error_iff, afterWildcard_eq_error_iff]
    constructor
    · rintro (h | ⟨after, hc, ⟨rest, rfl⟩, rfl⟩)
      · exact .inr ⟨trivial, .inl h⟩
      · exact .inr ⟨trivial, .inr ⟨rest, hc, rfl⟩⟩
    · rintro (⟨h, -⟩ | ⟨-, h | ⟨rest, hc, rfl⟩⟩)
      · cases h
      · exact .inl h
      · exact .inr ⟨_, hc, ⟨rest, rfl⟩, rfl⟩

/-! ### Quoted names -/

/-- A quoted name stops at the end of the text, or after a backslash that escapes nothing. -/
theorem quotedName_error {quote : Char} {cs : List Char} {stop : Stop}
    (h : quotedName quote cs = .error stop) :
    ∃ name : List QuotedChar, (∀ q ∈ name, q.Valid quote) ∧
      (cs = name.flatMap QuotedChar.chars ∧ stop = ⟨.closingQuote quote, []⟩ ∨
        cs = name.flatMap QuotedChar.chars ++ '\\' :: stop.rest ∧ stop.expected = .escapable ∧
          NextNot isEscapable stop.rest) := by
  fun_induction quotedName quote cs generalizing stop with
  | case1 =>
    cases h
    exact ⟨[], by simp, .inl ⟨rfl, rfl⟩⟩
  | case3 =>
    cases h
    exact ⟨[], by simp, .inr ⟨rfl, rfl, by simp [NextNot]⟩⟩
  | case5 d cs hd other hr _ ih =>
    cases h
    obtain ⟨name, valid, broken⟩ := ih hr
    refine ⟨.escaped d :: name, List.forall_mem_cons.2 ⟨isEscapable_iff.1 hd, valid⟩, ?_⟩
    simpa [QuotedChar.chars] using broken
  | case6 d cs hd =>
    cases h
    exact ⟨[], by simp, .inr ⟨rfl, rfl, by simpa [NextNot] using hd⟩⟩
  | case8 c cs hq hb other hr ih =>
    cases h
    obtain ⟨name, valid, broken⟩ := ih hr
    refine ⟨.plain c :: name, List.forall_mem_cons.2 ⟨⟨hq, hb⟩, valid⟩, ?_⟩
    simpa [QuotedChar.chars] using broken
  | _ => cases h

theorem quotedName_nil (quote : Char) : quotedName quote [] = .error ⟨.closingQuote quote, []⟩ := by
  unfold quotedName
  rfl

theorem quotedName_backslash {quote : Char} (hq : quote ≠ '\\') {rest : List Char}
    (h : NextNot isEscapable rest) :
    quotedName quote ('\\' :: rest) = .error ⟨.escapable, rest⟩ := by
  unfold quotedName
  rw [if_neg hq.symm, if_pos rfl]
  cases rest with
  | nil => rfl
  | cons d rest => simp [h d rfl]

/-! ### Segments -/

/-- What a reader stops at inside a segment is where the segment breaks off. -/
def BreaksOff (mode : Mode) (cs : List Char) (stop : Stop) : Prop :=
  ∃ written, cs = written ++ stop.rest ∧ StepBreak mode written stop.expected stop.rest

theorem bracketEnd_breaksOff {mode : Mode} {f : Bool → Segment} {cs written : List Char}
    {stop : Stop} (h : bracketEnd mode f cs = .error stop)
    (close : NextNot (· = ']') cs → StepBreak mode written .closingBracket cs)
    (mark : ∀ rest, cs = ']' :: '?' :: rest → mode = .concrete →
      StepBreak mode (written ++ [']']) .concreteStep ('?' :: rest)) :
    BreaksOff mode (written ++ cs) stop := by
  rcases bracketEnd_eq_error_iff.1 h with ⟨stopped, rfl⟩ | ⟨hm, rest, rfl, rfl⟩
  · exact ⟨written, rfl, close stopped⟩
  · exact ⟨written ++ [']'], by simp, mark rest rfl hm⟩

theorem leadingZero_breaksOff (mode : Mode) {cs : List Char}
    (h : 1 < (('0' :: cs).takeWhile Char.isDigit).length) :
    BreaksOff mode ('[' :: '0' :: cs) ⟨.indexWithoutLeadingZeros, '0' :: cs⟩ := by
  cases cs with
  | nil => exact absurd h (by decide)
  | cons d rest =>
    cases hd : d.isDigit with
    | true => exact ⟨['['], rfl, .zero hd⟩
    | false => simp [hd] at h

theorem position_breaksOff {mode : Mode} {c : Char} {cs : List Char} {stop : Stop}
    (hd : c.isDigit = true) (hz : ¬ (c = '0' ∧ 1 < ((c :: cs).takeWhile Char.isDigit).length))
    (h : bracketEnd mode (.index (Nat.ofDigitChars 10 ((c :: cs).takeWhile Char.isDigit) 0))
      ((c :: cs).dropWhile Char.isDigit) = .error stop) :
    BreaksOff mode ('[' :: c :: cs) stop := by
  have valid := digits_valid hd hz false
  have whole : '[' :: c :: cs =
      '[' :: (c :: cs).takeWhile Char.isDigit ++ (c :: cs).dropWhile Char.isDigit := by
    rw [List.cons_append, List.takeWhile_append_dropWhile]
  rw [whole]
  refine bracketEnd_breaksOff h (fun opened => ?_) (fun rest _ hm => ?_)
  · exact .position valid (nextNot_or.2 ⟨opened, nextNot_dropWhile _ _⟩)
  · exact .concreteMark hm valid rfl

theorem quoted_breaksOff {mode : Mode} {quote : Char} {cs : List Char} {stop : Stop}
    (hq : quote = '"' ∨ quote = apostrophe)
    (h : (quotedName quote cs >>= fun (name, rest) =>
      bracketEnd mode (.key (String.ofList name)) rest) = .error stop) :
    BreaksOff mode ('[' :: quote :: cs) stop := by
  rcases bind_eq_error_iff.1 h with h | ⟨⟨name, rest⟩, hn, hend⟩
  · obtain ⟨name, valid, ⟨rfl, rfl⟩ | ⟨rfl, he, stopped⟩⟩ := quotedName_error h
    · exact ⟨_, (List.append_nil _).symm, .openQuote ⟨hq, valid⟩⟩
    · refine ⟨'[' :: quote :: name.flatMap QuotedChar.chars ++ ['\\'], by simp, ?_⟩
      rw [he]
      exact .backslash ⟨hq, valid⟩ stopped
  · obtain ⟨written, valid, rfl, -⟩ := quotedName_sound hn
    have whole : '[' :: quote :: (written.flatMap QuotedChar.chars ++ quote :: rest) =
        '[' :: quote :: written.flatMap QuotedChar.chars ++ [quote] ++ rest := by simp
    rw [whole]
    refine bracketEnd_breaksOff hend (fun opened => .quoted ⟨hq, valid⟩ opened) ?_
    intro rest _ hm
    have marked : '[' :: quote :: written.flatMap QuotedChar.chars ++ [quote] ++ [']'] =
        (StepForm.quoted quote written false).chars := by simp [StepForm.chars, StepForm.mark]
    rw [marked]
    exact .concreteMark hm ⟨hq, valid⟩ rfl

theorem bareName_breaksOff {mode : Mode} {c : Char} {cs : List Char} {stop : Stop}
    (hc : isNameStart c = true) (h : bareName mode (c :: cs) = .error stop) :
    BreaksOff mode (c :: cs) stop := by
  rcases bind_eq_error_iff.1 h with h | ⟨_, _, h⟩
  · obtain ⟨hm, ⟨rest, hr⟩, rfl⟩ := optionalMark_eq_error_iff.1 h
    have valid : (StepForm.identifier ((c :: cs).takeWhile isNameChar) false).Valid :=
      isIdentifier_takeWhile hc
    refine ⟨(c :: cs).takeWhile isNameChar, List.takeWhile_append_dropWhile.symm, ?_⟩
    rw [hr]
    simpa [StepForm.chars, StepForm.mark] using StepBreak.concreteMark hm valid rfl
  · cases h

theorem bracketed_breaksOff {mode : Mode} {cs : List Char} {stop : Stop}
    (h : bracketed mode cs = .error stop) : BreaksOff mode ('[' :: cs) stop := by
  cases cs with
  | nil =>
    cases h
    exact ⟨['['], rfl, .content (by simp [NextNot])⟩
  | cons c cs =>
    simp only [bracketed] at h
    split at h
    · next hc =>
      rw [hc]
      rcases asterisk_eq_error_iff.1 h with ⟨hm, rfl⟩ | ⟨hm, h | ⟨rest, hcs, rfl⟩⟩
      · exact ⟨['['], rfl, .concreteAsterisk hm (.inr rfl)⟩
      · obtain ⟨opened, rfl⟩ := closeBracket_eq_error_iff.1 h
        exact ⟨['[', '*'], rfl, .bracketedAsterisk hm opened⟩
      · rw [closeBracket_eq_ok_iff.1 hcs]
        exact ⟨['[', '*', ']'], rfl, .wildcard .bracketedAsterisk hm rfl⟩
    · next ha =>
      split at h
      · next hd =>
        split at h
        · next hz =>
          cases h
          obtain ⟨rfl, more⟩ := hz
          exact leadingZero_breaksOff mode more
        · next hz => exact position_breaksOff hd hz h
      · next hd =>
        split at h
        · next hm =>
          cases h
          rw [hm]
          exact ⟨['['], rfl, .minus⟩
        · next hm =>
          split at h
          · next hq => exact quoted_breaksOff hq h
          · next hq =>
            cases h
            exact ⟨['['], rfl, .content (by simp_all [NextNot])⟩

theorem segment_breaksOff {mode : Mode} {cs : List Char} {stop : Stop}
    (h : segment mode cs = .error stop) : BreaksOff mode cs stop := by
  cases cs with
  | nil =>
    cases h
    exact ⟨[], rfl, .start (by simp [NextNot])⟩
  | cons c cs =>
    simp only [segment] at h
    split at h
    · next hc =>
      rw [hc]
      exact bracketed_breaksOff h
    · next hb =>
      split at h
      · next ha =>
        rw [ha]
        rcases asterisk_eq_error_iff.1 h with ⟨hm, rfl⟩ | ⟨hm, h | ⟨rest, hcs, rfl⟩⟩
        · exact ⟨[], rfl, .concreteAsterisk hm (.inl rfl)⟩
        · cases h
        · cases hcs
          exact ⟨['*'], rfl, .wildcard .asterisk hm rfl⟩
      · next ha =>
        split at h
        · next hn => exact bareName_breaksOff hn h
        · next hn =>
          split at h
          · next hd =>
            cases h
            exact ⟨[], rfl, .digit hd⟩
          · next hd =>
            cases h
            exact ⟨[], rfl, .start (by simp_all [NextNot])⟩

theorem isNameStart_of_isDigit {c : Char} (h : c.isDigit = true) : isNameStart c = false := by
  have digits : ∀ n < 58, 48 ≤ n → isNameStart (Char.ofNat n) = false := by decide
  obtain ⟨low, high⟩ := Char.isDigit_iff_toNat.1 h
  rw [← Char.ofNat_toNat c]
  exact digits c.toNat (Nat.lt_succ_of_le high) low

theorem bracketEnd_of_nextNot {mode : Mode} {f : Bool → Segment} {rest : List Char}
    (opened : NextNot (· = ']') rest) : bracketEnd mode f rest = .error ⟨.closingBracket, rest⟩ :=
  bracketEnd_eq_error_iff.2 (.inl ⟨opened, rfl⟩)

/-- In concrete mode a segment that could be optional stops before its question mark. -/
theorem segment_concreteMark {form : StepForm} (valid : form.Valid)
    (hf : form.segment.isConcrete = true) (rest : List Char) :
    segment .concrete (form.chars ++ '?' :: rest) = .error ⟨.concreteStep, '?' :: rest⟩ := by
  cases form with
  | asterisk => cases hf
  | bracketedAsterisk => cases hf
  | identifier name optional =>
    cases optional with
    | true => cases hf
    | false =>
      have stop : NextNot isNameChar ('?' :: rest) := by
        intro c hc
        cases hc
        decide
      rw [StepForm.chars, List.append_assoc]
      exact segment_identifier .concrete valid stop
  | position digits optional =>
    cases optional with
    | true => cases hf
    | false =>
      have stop : NextNot Char.isDigit (']' :: '?' :: rest) := by
        intro c hc
        cases hc
        decide
      rw [StepForm.chars, List.append_assoc]
      exact segment_position .concrete valid stop
  | quoted quote name optional =>
    cases optional with
    | true => cases hf
    | false =>
      rw [StepForm.chars, List.append_assoc, segment_quoted .concrete valid]
      exact bind_eq_error_iff.2 (.inr ⟨_, quotedName_quote _ _, rfl⟩)

theorem segment_of_stepBreak {mode : Mode} {written rest : List Char} {e : Expectation}
    (h : StepBreak mode written e rest) : segment mode (written ++ rest) = .error ⟨e, rest⟩ := by
  cases h with
  | start stopped =>
    cases rest with
    | nil => rfl
    | cons c rest =>
      have hc := stopped c rfl
      simp only [Bool.or_eq_false_iff, decide_eq_false_iff_not] at hc
      simp [segment, hc]
  | @digit c rest hd =>
    have hb : c ≠ '[' := by rintro rfl; exact absurd hd (by decide)
    have ha : c ≠ '*' := by rintro rfl; exact absurd hd (by decide)
    simp [segment, hb, ha, isNameStart_of_isDigit hd, hd]
  | content stopped =>
    cases rest with
    | nil => rfl
    | cons c rest =>
      have hc := stopped c rfl
      simp only [Bool.or_eq_false_iff, decide_eq_false_iff_not] at hc
      simp [segment, bracketed, hc]
  | minus => rfl
  | @zero d rest hd => simp [segment, bracketed, hd]
  | position valid stopped =>
    obtain ⟨opened, ended⟩ := nextNot_or.1 stopped
    rw [segment_position mode valid ended, bracketEnd_of_nextNot opened]
  | bracketedAsterisk hm opened =>
    subst hm
    exact asterisk_eq_error_iff.2 (.inr ⟨rfl, .inl (closeBracket_eq_error_iff.2 ⟨opened, rfl⟩)⟩)
  | openQuote valid =>
    rw [segment_quoted mode valid, quotedName_nil]
    rfl
  | @backslash quote name rest valid stopped =>
    have hb : quote ≠ '\\' := by rcases valid.1 with rfl | rfl <;> decide
    rw [List.append_assoc, segment_quoted mode valid]
    exact bind_eq_error_iff.2 (.inl (quotedName_backslash hb stopped))
  | quoted valid opened =>
    rw [List.append_assoc, segment_quoted mode valid]
    exact bind_eq_error_iff.2 (.inr ⟨_, quotedName_quote _ _, bracketEnd_of_nextNot opened⟩)
  | wildcard form hm hf =>
    subst hm
    cases form with
    | asterisk => rfl
    | bracketedAsterisk => rfl
    | _ => cases hf
  | concreteAsterisk hm hw =>
    subst hm
    rcases hw with rfl | rfl <;> rfl
  | concreteMark hm valid hf =>
    subst hm
    exact segment_concreteMark valid hf _

/-! ### Steps and whole paths -/

theorem separator_eq_error_iff {c : Char} {cs : List Char} {stop : Stop} :
    separator c cs = .error stop ↔
      (c = '.' ∧ cs = [] ∧ stop = ⟨.stepAfterDot, []⟩) ∨
        (c ≠ '.' ∧ c ≠ '[' ∧ stop = ⟨.separator, c :: cs⟩) := by
  unfold separator
  by_cases hd : c = '.'
  · subst hd
    cases cs <;> simp [eq_comm]
  · by_cases hb : c = '[' <;> simp [hd, hb, eq_comm]

theorem stepBreak_bracket {mode : Mode} {cs written rest : List Char} {e : Expectation}
    (h : StepBreak mode written e rest) (hcs : '[' :: cs = written ++ rest) :
    ∃ more, written = '[' :: more := by
  cases written with
  | cons c more => exact ⟨more, by rw [(List.cons.inj hcs).1]⟩
  | nil =>
    exfalso
    rw [List.nil_append] at hcs
    subst hcs
    generalize hw : ([] : List Char) = written at h
    cases h with
    | start stopped => exact absurd (stopped '[' rfl) (by decide)
    | digit hd => exact absurd hd (by decide)
    | _ => cases hw

theorem tail_breaksOff {mode : Mode} {cs : List Char} {stop : Stop}
    (h : tail mode cs = .error stop) :
    ∃ written, cs = written ++ stop.rest ∧ TailBreak mode written stop.expected stop.rest := by
  rw [tail] at h
  fun_induction scanTail mode cs generalizing stop with
  | case2 c cs other hsep =>
    cases h
    rcases separator_eq_error_iff.1 hsep with ⟨rfl, rfl, rfl⟩ | ⟨hd, hb, rfl⟩
    · exact ⟨['.'], rfl, .dot⟩
    · exact ⟨[], rfl, .separator hd hb⟩
  | case3 c cs first hsep other hseg =>
    cases h
    obtain ⟨written, hcs, broken⟩ := segment_breaksOff hseg
    rcases separator_eq_ok_iff.1 hsep with ⟨rfl, more, rfl⟩ | ⟨rfl, rfl⟩
    · exact ⟨'.' :: written, by rw [hcs]; rfl, .afterDot broken (hcs ▸ more)⟩
    · obtain ⟨more, rfl⟩ := stepBreak_bracket broken hcs
      exact ⟨'[' :: more, hcs, .bracket broken⟩
  | case4 c cs first hsep s rest hseg ih =>
    rw [Scan.outcome_cons] at h
    obtain htail | ⟨_, _, h⟩ := bind_eq_error_iff.1 h
    case inr => cases h
    obtain ⟨written, rfl, broken⟩ := ih htail
    obtain ⟨form, ⟨valid, hfirst, rfl, taken⟩, ends⟩ := segment_sound hseg
    rcases separator_eq_ok_iff.1 hsep with ⟨rfl, -, rfl⟩ | ⟨rfl, rfl⟩
    · refine ⟨_, ?_, .later ⟨true, form⟩ ⟨valid, .inl rfl⟩ taken ends broken⟩
      simp [WrittenStep.chars, hfirst]
    · have bracketed := isBracketed_of_head valid hfirst
      refine ⟨_, ?_, .later ⟨false, form⟩ ⟨valid, .inr bracketed⟩ taken ends broken⟩
      simp [WrittenStep.chars, hfirst]
  | _ => cases h

theorem tail_of_segment {mode : Mode} {c : Char} {cs rest : List Char} {stop : Stop}
    (hsep : separator c cs = .ok rest) (hseg : segment mode rest = .error stop) :
    tail mode (c :: cs) = .error stop := by
  rw [tail_cons]
  exact bind_eq_error_iff.2 (.inr ⟨_, hsep, bind_eq_error_iff.2 (.inl hseg)⟩)

theorem tail_of_tailBreak {mode : Mode} {written rest : List Char} {e : Expectation}
    (h : TailBreak mode written e rest) : tail mode (written ++ rest) = .error ⟨e, rest⟩ := by
  induction h with
  | separator hd hb =>
    rw [List.nil_append, tail_cons]
    exact bind_eq_error_iff.2 (.inl (separator_eq_error_iff.2 (.inr ⟨hd, hb, rfl⟩)))
  | dot =>
    rw [List.append_nil, tail_cons]
    rfl
  | afterDot broken more =>
    exact tail_of_segment (separator_eq_ok_iff.2 (.inl ⟨rfl, more, rfl⟩))
      (segment_of_stepBreak broken)
  | bracket broken => exact tail_of_segment rfl (segment_of_stepBreak broken)
  | @later step written rest e follows taken ends broken ih =>
    obtain ⟨c, cs, hcs, -, hsep⟩ := separator_chars follows (written ++ rest)
    have read := segment_complete follows.1 taken ends
    rw [List.append_assoc, hcs, tail_cons]
    exact bind_eq_error_iff.2 (.inr ⟨_, hsep, bind_eq_error_iff.2 (.inr ⟨_, read,
      bind_eq_error_iff.2 (.inl ih)⟩)⟩)

theorem path_breaksOff {mode : Mode} {cs : List Char} {stop : Stop}
    (h : path mode cs = .error stop) :
    ∃ written, cs = written ++ stop.rest ∧ PathBreak mode written stop.expected stop.rest := by
  cases cs with
  | nil => cases h
  | cons c cs =>
    rw [path_cons] at h
    split at h
    · next hc =>
      obtain ⟨written, rfl, broken⟩ := tail_breaksOff h
      exact ⟨'$' :: written, by rw [hc]; rfl, .root broken⟩
    · next hc =>
      rcases bind_eq_error_iff.1 h with h | ⟨⟨s, rest⟩, hseg, h⟩
      · obtain ⟨written, hcs, broken⟩ := segment_breaksOff h
        refine ⟨written, hcs, .first broken ?_ ?_⟩
        all_goals rw [← hcs]
        · exact List.cons_ne_nil c cs
        · simpa using hc
      · rcases bind_eq_error_iff.1 h with h | ⟨_, _, h⟩
        · obtain ⟨written, rfl, broken⟩ := tail_breaksOff h
          obtain ⟨form, ⟨valid, hcs, rfl, taken⟩, ends⟩ := segment_sound hseg
          refine ⟨form.chars ++ written, ?_, .later form valid taken ends broken⟩
          rw [hcs, List.append_assoc]
        · cases h

theorem path_of_pathBreak {mode : Mode} {written rest : List Char} {e : Expectation}
    (h : PathBreak mode written e rest) : path mode (written ++ rest) = .error ⟨e, rest⟩ := by
  cases h with
  | root broken => exact tail_of_tailBreak broken
  | first broken more unmarked =>
    have stopped := segment_of_stepBreak broken
    obtain ⟨c, cs, hcs⟩ := List.exists_cons_of_ne_nil more
    rw [hcs] at unmarked stopped ⊢
    have hc : c ≠ '$' := by simpa using unmarked
    rw [path_cons, if_neg hc]
    exact bind_eq_error_iff.2 (.inl stopped)
  | @later form written rest e valid taken ends broken =>
    obtain ⟨c, cs, hc, -, hroot⟩ := chars_eq_cons valid
    have read := segment_complete valid taken ends
    rw [List.append_assoc]
    rw [hc, List.cons_append] at read ⊢
    rw [path_cons, if_neg hroot]
    exact bind_eq_error_iff.2 (.inr ⟨_, read,
      bind_eq_error_iff.2 (.inl (tail_of_tailBreak broken))⟩)

/-- Reading a path stops exactly where the text breaks off. -/
theorem path_eq_error_iff {mode : Mode} {cs : List Char} {stop : Stop} :
    path mode cs = .error stop ↔
      ∃ written, cs = written ++ stop.rest ∧ PathBreak mode written stop.expected stop.rest := by
  refine ⟨path_breaksOff, ?_⟩
  rintro ⟨written, rfl, broken⟩
  exact path_of_pathBreak broken

end Reader

/-- A malformed text is reported with the break: the position counts what is written up to it. -/
theorem Expression.read_eq_error_iff {mode : Mode} {text : String} {cause : Malformed} :
    read mode text = .error cause ↔ ∃ written rest, text.toList = written ++ rest ∧
      PathBreak mode written cause.expected rest ∧ cause.text = text ∧
      cause.position = written.length := by
  have position {written rest : List Char} (h : text.toList = written ++ rest) :
      text.toList.length - rest.length = written.length := by
    rw [h, List.length_append, Nat.add_sub_cancel]
  constructor
  · intro h
    unfold read at h
    split at h
    · cases h
    · next stop stopped =>
      cases h
      obtain ⟨written, whole, broken⟩ := Reader.path_eq_error_iff.1 stopped
      exact ⟨written, stop.rest, whole, broken, rfl, position whole⟩
  · rintro ⟨written, rest, whole, broken, rfl, hp⟩
    have stopped := Reader.path_of_pathBreak broken
    rw [← whole] at stopped
    unfold read
    rw [stopped]
    simp only [position whole, ← hp]

end TreeQuery
