import Variants.Proofs.Recleaning

/-!
# Blanks in cleaned source

Outside of its literals a cleaned source has no other blanks than line breaks and single spaces, and
no space opens it or stands behind a `#` or a slash (`HasUniformBlanks`). The cleaner decides from
the segment that it has read last whether it drops a blank, and not from the character that it has
written last. The two go together all the same: where a blank is kept, the last character written is
one that takes a space behind it (`uniformFrom_cleaned`).

A text in which the blanks are uniform and no comment is opened is cut into literals and single
characters, and each of these stays as it is (`cleaned_eq_text`). So these texts, as far as they
have no carriage return, are those that cleaning does not change.

Main statements: `hasUniformBlanks_read`, `read_eq_self_iff`.
-/

namespace Variants.Source

/-! ## 1. Uniform blanks -/

/-- Whether a space may stand behind a character. At the start of a text there is none. -/
def TakesSpace (previous : Option Char) : Prop := ∃ c ∈ previous, c ≠ ' ' ∧ c ≠ '#' ∧ c ≠ '/'

/-- Whether the blanks outside of literals are uniform in a text that starts in some state, behind
some character. -/
def UniformFrom (s : Literal.State) (previous : Option Char) (t : Text) : Prop :=
  ∀ before c rest, t = before ++ c :: rest → s.after before = .outside → isBlank c = true →
    c = '\n' ∨ c = ' ' ∧ TakesSpace (before.getLast?.or previous)

/-- Whether the blanks of a text are uniform. Those outside of literals are line breaks and spaces,
and no space stands at the start of the text or right behind a space, a `#` or a slash. -/
def HasUniformBlanks (t : Text) : Prop :=
  ∀ before c rest, t = before ++ c :: rest → Literal.State.after .outside before = .outside →
    isBlank c = true → c = '\n' ∨ c = ' ' ∧ TakesSpace before.getLast?

theorem hasUniformBlanks_iff {t : Text} : HasUniformBlanks t ↔ UniformFrom .outside none t := by
  simp only [HasUniformBlanks, UniformFrom, Option.or_none]

section Uniform

variable {s : Literal.State} {previous : Option Char} {c : Char} {t : Text}

theorem not_takesSpace_none : ¬ TakesSpace none := by
  rintro ⟨_, h, _⟩
  cases h

theorem takesSpace_some : TakesSpace (some c) ↔ c ≠ ' ' ∧ c ≠ '#' ∧ c ≠ '/' := by
  simp [TakesSpace]

theorem uniformFrom_nil : UniformFrom s previous [] := by
  intro before c rest h
  cases before <;> cases h

theorem uniformFrom_cons : UniformFrom s previous (c :: t) ↔
    (s = .outside → isBlank c = true → c = '\n' ∨ c = ' ' ∧ TakesSpace previous) ∧
      UniformFrom (s.next c) (some c) t := by
  have hlast (before : Text) :
      (c :: before).getLast?.or previous = before.getLast?.or (some c) := by
    rw [List.getLast?_cons]
    cases before.getLast? <;> rfl
  constructor
  · intro h
    refine ⟨fun hs => h [] c t rfl hs, fun before d rest ht hstate hblank => ?_⟩
    rw [← hlast]
    exact h (c :: before) d rest (by rw [ht]; rfl) hstate hblank
  · rintro ⟨hfirst, hrest⟩ before d rest ht hstate hblank
    cases before with
    | nil =>
      obtain ⟨rfl, rfl⟩ := List.cons.inj ht
      exact hfirst hstate hblank
    | cons e before =>
      obtain ⟨rfl, rfl⟩ := List.cons.inj ht
      rw [hlast]
      exact hrest before d rest rfl hstate hblank

/-- Outside of literals, a character that is no quote. -/
theorem uniformFrom_char (h : Literal.isQuote c = false) :
    UniformFrom .outside previous (c :: t) ↔
      (isBlank c = true → c = '\n' ∨ c = ' ' ∧ TakesSpace previous) ∧
        UniformFrom .outside (some c) t := by
  rw [uniformFrom_cons, Literal.State.next_outside h]
  exact and_congr_left fun _ => ⟨fun hblank => hblank rfl, fun hblank _ => hblank⟩

/-- Line breaks may stand anywhere. -/
theorem uniformFrom_blank (h : ∀ previous, UniformFrom .outside previous t) (n : Nat)
    (previous : Option Char) : UniformFrom .outside previous (Text.blank n ++ t) := by
  induction n generalizing previous with
  | zero => exact h previous
  | succ n ih => exact (uniformFrom_char rfl).2 ⟨fun _ => Or.inl rfl, ih _⟩

/-- In a literal any blank may stand. -/
theorem uniformFrom_inside (quote : Literal.Quote) {body : Text} (h : Literal.IsBody quote body) :
    UniformFrom (.inside quote) previous (body ++ quote.1 :: t) ↔
      UniformFrom .outside (some quote.1) t := by
  have hquote := Literal.ne_backslash_of_isQuote quote.2
  induction h generalizing previous with
  | nil => simp [uniformFrom_cons, Literal.State.next, hquote]
  | plain hback hne _ ih => simp [uniformFrom_cons, Literal.State.next, hback, hne, ih]
  | escape c _ ih => simp [uniformFrom_cons, Literal.State.next, ih]

theorem uniformFrom_isUnclosed (quote : Literal.Quote) (h : Literal.IsUnclosed quote t) :
    UniformFrom (.inside quote) previous t := by
  induction h generalizing previous with
  | nil => exact uniformFrom_nil
  | backslash => simp [uniformFrom_cons, uniformFrom_nil]
  | plain hback hne _ ih => simp [uniformFrom_cons, Literal.State.next, hback, hne, ih]
  | escape c _ ih => simp [uniformFrom_cons, Literal.State.next, ih]

/-- A quote is no blank, and behind it a literal goes on. -/
theorem uniformFrom_quote (h : Literal.isQuote c = true) :
    UniformFrom .outside previous (c :: t) ↔ UniformFrom (.inside ⟨c, h⟩) (some c) t := by
  rw [uniformFrom_cons, Literal.State.next_quote h, and_iff_right]
  intro _ hblank
  rw [isBlank_of_isQuote h] at hblank
  cases hblank

theorem uniformFrom_literal (hquote : Literal.isQuote c = true) {body : Text}
    (h : Literal.IsBody c body) :
    UniformFrom .outside previous (c :: body ++ [c] ++ t) ↔ UniformFrom .outside (some c) t := by
  rw [List.append_assoc, List.cons_append, uniformFrom_quote hquote]
  exact uniformFrom_inside ⟨c, hquote⟩ h

theorem uniformFrom_unclosed (hquote : Literal.isQuote c = true) (h : Literal.IsUnclosed c t) :
    UniformFrom .outside previous (c :: t) := by
  rw [uniformFrom_quote hquote]
  exact uniformFrom_isUnclosed ⟨c, hquote⟩ h

end Uniform

/-! ## 2. Blanks in a cleaned source -/

/-- A space may stand behind a quote. -/
theorem takesSpace_of_isQuote {c : Char} (h : Literal.isQuote c = true) : TakesSpace (some c) := by
  rw [takesSpace_some]
  refine ⟨?_, ?_, ?_⟩ <;> (rintro rfl; cases h)

/-- Where the cleaner keeps a blank behind a character, a space may stand there. -/
theorem takesSpace_of_dropsBlankAfter {c : Char} (h : dropsBlankAfter (some (.char c)) = false) :
    TakesSpace (some c) := by
  rw [takesSpace_some]
  refine ⟨?_, ?_, ?_⟩ <;> (rintro rfl; revert h; decide)

/-- **A cleaned segment has uniform blanks** before a text that has them, if a blank is kept before
it only where a space may stand. -/
theorem uniformFrom_cleaned {segment : Segment} {after t : Text} (h : segment.IsFirst after)
    (ht : after = [] → t = []) {before : Option Segment} {previous : Option Char}
    (hbefore : dropsBlankAfter before = false → TakesSpace previous)
    (hlater : ∀ last, (dropsBlankAfter (some segment) = false → TakesSpace last) →
      UniformFrom .outside last t) :
    UniformFrom .outside previous (segment.cleaned before ++ t) := by
  cases segment with
  | lineComment written =>
    exact uniformFrom_blank (fun last => hlater last fun hkept => by cases hkept) 1 previous
  | blockComment written closed =>
    rw [Segment.cleaned, filter_newline]
    exact uniformFrom_blank (fun last => hlater last fun hkept => by cases hkept) _ previous
  | literal written closed =>
    cases closed with
    | true =>
      obtain ⟨quote, body, hquote, hbody, rfl⟩ := h
      exact (uniformFrom_literal hquote hbody).2 (hlater _ fun _ => takesSpace_of_isQuote hquote)
    | false =>
      obtain ⟨quote, body, hquote, hbody, rfl, hrest⟩ := h
      rw [Segment.cleaned, ht hrest, List.append_nil]
      exact uniformFrom_unclosed hquote hbody
  | char c =>
    by_cases hgap : (Segment.char c).IsGap
    · have hnext (last : Option Char) : UniformFrom .outside last t := hlater last fun hkept => by
        rw [dropsBlankAfter_of_isGap hgap] at hkept
        cases hkept
      rw [cleaned_char_of_isGap hgap]
      split
      · exact hnext previous
      · rename_i hkept
        have htakes := hbefore (Bool.not_eq_true _ ▸ hkept)
        exact (uniformFrom_char rfl).2 ⟨fun _ => Or.inr ⟨rfl, htakes⟩, hnext _⟩
    · rw [cleaned_char_of_not_isGap hgap, List.singleton_append, uniformFrom_char h.1]
      refine ⟨fun hblank => Or.inl ?_, hlater _ takesSpace_of_dropsBlankAfter⟩
      exact Classical.byContradiction fun hc => hgap ⟨hblank, hc⟩

theorem uniformFrom_cleanedText {t : Text} {list : List Segment} (h : Cut t list)
    {before : Option Segment} {previous : Option Char}
    (hbefore : dropsBlankAfter before = false → TakesSpace previous) :
    UniformFrom .outside previous (cleanedText before list) := by
  induction h generalizing before previous with
  | nil => exact uniformFrom_nil
  | cons hfirst hmore ih =>
    rw [cleanedText]
    exact uniformFrom_cleaned hfirst (cleanedText_of_nil hmore _) hbefore fun last hlast => ih hlast

/-- The blanks of a cleaned source are uniform. -/
theorem uniformFrom_read (source : Text) : UniformFrom .outside none (read source) := by
  have hstart : dropsBlankAfter none = false → TakesSpace none := nofun
  rw [read_eq_cleanedText_segments]
  exact uniformFrom_cleanedText (cut_segments _) hstart

/-! ## 3. Texts that stay as they are -/

/-- **A segment stays as it is** in a text that opens no comment and has uniform blanks, if a blank
is kept before it wherever a space may stand. What follows it is such a text again. -/
theorem cleaned_eq_text {segment : Segment} {after : Text} (h : segment.IsFirst after)
    {before : Option Segment} {previous : Option Char}
    (hbefore : TakesSpace previous → dropsBlankAfter before = false)
    (hopens : ∀ rest, ¬ OpensFrom .outside (segment.text ++ after) rest)
    (hblanks : UniformFrom .outside previous (segment.text ++ after)) :
    segment.cleaned before = segment.text ∧ (∀ rest, ¬ OpensFrom .outside after rest) ∧
      ∃ last, (TakesSpace last → dropsBlankAfter (some segment) = false) ∧
        UniformFrom .outside last after := by
  cases segment with
  | lineComment written =>
    obtain ⟨body, _, rfl | ⟨rfl, _⟩⟩ := h
    · exact absurd ⟨[], rfl, rfl, Or.inl rfl⟩ (hopens _)
    · exact absurd ⟨[], rfl, rfl, Or.inl rfl⟩ (hopens _)
  | blockComment written closed =>
    cases closed with
    | true =>
      obtain ⟨body, _, rfl⟩ := h
      exact absurd ⟨[], rfl, rfl, Or.inr rfl⟩ (hopens _)
    | false =>
      obtain ⟨body, _, rfl, _⟩ := h
      exact absurd ⟨[], rfl, rfl, Or.inr rfl⟩ (hopens _)
  | literal written closed =>
    cases closed with
    | true =>
      obtain ⟨quote, body, hquote, hbody, rfl⟩ := h
      exact ⟨rfl, fun rest => mt (opensFrom_literal hquote hbody).2 (hopens rest), some quote,
        fun _ => rfl, (uniformFrom_literal hquote hbody).1 hblanks⟩
    | false =>
      obtain ⟨quote, body, _, _, _, rfl⟩ := h
      exact ⟨rfl, not_opensFrom_nil _, none, fun _ => rfl, uniformFrom_nil⟩
  | char c =>
    rw [Segment.text, List.singleton_append] at hopens hblanks
    obtain ⟨hblank, hafter⟩ := (uniformFrom_char h.1).1 hblanks
    refine ⟨?_, fun rest hopen => hopens rest ((opensFrom_char h.1).2 (Or.inr hopen)), some c,
      fun htakes => ?_, hafter⟩
    · by_cases hgap : (Segment.char c).IsGap
      · obtain ⟨rfl, htakes⟩ := (hblank hgap.1).resolve_left hgap.2
        rw [cleaned_char_of_isGap hgap, hbefore htakes]
        rfl
      · exact cleaned_char_of_not_isGap hgap before
    · obtain ⟨hspace, hhash, hslash⟩ := takesSpace_some.1 htakes
      by_cases hc : c = '\n'
      · rw [hc]
        rfl
      · have hplain : isBlank c = false := by
          rw [← Bool.not_eq_true]
          exact fun hb => hspace ((hblank hb).resolve_left hc).1
        simp [dropsBlankAfter_char hc, hplain, hhash, hslash]

theorem cleanedText_eq_self {t : Text} {list : List Segment} (h : Cut t list)
    {before : Option Segment} {previous : Option Char}
    (hbefore : TakesSpace previous → dropsBlankAfter before = false)
    (hopens : ∀ rest, ¬ OpensFrom .outside t rest) (hblanks : UniformFrom .outside previous t) :
    cleanedText before list = t := by
  induction h generalizing before previous with
  | nil => rfl
  | cons hfirst _ ih =>
    obtain ⟨hsame, hafter, last, hlast, hrest⟩ := cleaned_eq_text hfirst hbefore hopens hblanks
    rw [cleanedText, hsame, ih hlast hafter hrest]

/-! ## 4. Whole sources -/

/-- **The blanks of a cleaned source.** -/
theorem hasUniformBlanks_read (source : Text) : HasUniformBlanks (read source) :=
  hasUniformBlanks_iff.2 (uniformFrom_read source)

/-- **The sources that cleaning does not change** are those without carriage returns in which,
outside of literals, no slash has a slash or a star right behind it and the blanks are uniform. -/
theorem read_eq_self_iff (source : Text) :
    read source = source ↔ '\r' ∉ source ∧
      (∀ rest, ¬ OpensFrom .outside source rest) ∧ HasUniformBlanks source := by
  constructor
  · intro h
    have hreturn : '\r' ∉ source := fun hmem => by
      rw [← h, ← unifyBreaks_read] at hmem
      exact cr_not_mem_unifyBreaks _ hmem
    refine ⟨hreturn, fun rest hopens => ?_, hasUniformBlanks_iff.2 (h ▸ uniformFrom_read source)⟩
    -- a comment would make the cleaned text shorter
    have hlt := (length_cleanedText (cut_segments source) none).2 rest hopens
    rw [read_eq_cleanedText_segments, unifyBreaks_eq_self hreturn] at h
    rw [h] at hlt
    exact Nat.lt_irrefl _ hlt
  · rintro ⟨hreturn, hopens, hblanks⟩
    rw [read_eq_cleanedText_segments, unifyBreaks_eq_self hreturn]
    exact cleanedText_eq_self (cut_segments source) (absurd · not_takesSpace_none) hopens
      (hasUniformBlanks_iff.1 hblanks)

end Variants.Source
