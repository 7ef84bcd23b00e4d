import Variants.Proofs.Cleaning
import Variants.Proofs.Literals

/-!
# Cleaning again

No comment of a source is left in its cleaned form, but the cleaner drops blanks behind a slash and
takes block comments out, and so it can put a slash right before another one or before a star that
stood apart from it (`RunsTogether`). These are the only openings of comments in a cleaned source
(`opensFrom_cleanedText`). Without one, cleaning again cuts the text into the same literals and
characters and changes nothing (`cleanedText_again`); with one, it takes a comment out
(`length_cleanedText`).

Main statement: `read_read_eq_iff`.
-/

namespace Variants.Source

/-! ## 1. Openings of comments -/

/-- Whether a slash right before a text opens a comment. -/
def OpensBehindSlash (t : Text) : Prop := t.head? = some '/' ∨ t.head? = some '*'

/-- Whether a comment is opened in a text with `rest` right behind its first slash, if literals are
skipped and the text starts in some state. -/
def OpensFrom (s : Literal.State) (t rest : Text) : Prop :=
  ∃ before, t = before ++ '/' :: rest ∧ s.after before = .outside ∧ OpensBehindSlash rest

section Openings

variable {s : Literal.State} {c : Char} {t rest : Text}

theorem not_opensFrom_nil (s : Literal.State) (rest : Text) : ¬ OpensFrom s [] rest := by
  rintro ⟨before, h, _⟩
  cases before <;> cases h

/-- A comment is opened at the start of a text or behind its first character. -/
theorem opensFrom_cons : OpensFrom s (c :: t) rest ↔
    (s = .outside ∧ c = '/' ∧ t = rest ∧ OpensBehindSlash t) ∨ OpensFrom (s.next c) t rest := by
  constructor
  · rintro ⟨before, h, hstate, hopens⟩
    cases before with
    | nil =>
      obtain ⟨rfl, rfl⟩ := List.cons.inj h
      exact Or.inl ⟨hstate, rfl, rfl, hopens⟩
    | cons d before =>
      obtain ⟨rfl, rfl⟩ := List.cons.inj h
      exact Or.inr ⟨before, rfl, hstate, hopens⟩
  · rintro (⟨hstate, rfl, rfl, hopens⟩ | ⟨before, rfl, hstate, hopens⟩)
    · exact ⟨[], rfl, hstate, hopens⟩
    · exact ⟨c :: before, rfl, hstate, hopens⟩

/-- A character that is no quote opens a comment only as a slash. -/
theorem opensFrom_char (h : Literal.isQuote c = false) : OpensFrom .outside (c :: t) rest ↔
    (c = '/' ∧ t = rest ∧ OpensBehindSlash t) ∨ OpensFrom .outside t rest := by
  rw [opensFrom_cons, Literal.State.next_outside h]
  simp

theorem opensFrom_plain (h : Literal.isQuote c = false) (hc : c ≠ '/') :
    OpensFrom .outside (c :: t) rest ↔ OpensFrom .outside t rest := by
  rw [opensFrom_char h, or_iff_right fun hslash => hc hslash.1]

theorem opensFrom_blank (n : Nat) :
    OpensFrom .outside (Text.blank n ++ t) rest ↔ OpensFrom .outside t rest := by
  induction n with
  | zero => rfl
  | succ n ih =>
    rw [← ih]
    exact opensFrom_plain rfl (by decide)

/-- In a literal no comment is opened. -/
theorem opensFrom_inside (quote : Literal.Quote) {body : Text} (h : Literal.IsBody quote body) :
    OpensFrom (.inside quote) (body ++ quote.1 :: t) rest ↔ OpensFrom .outside t rest := by
  have hquote := Literal.ne_backslash_of_isQuote quote.2
  induction h with
  | nil => simp [opensFrom_cons, Literal.State.next, hquote]
  | plain hback hne _ ih => simp [opensFrom_cons, Literal.State.next, hback, hne, ih]
  | escape c _ ih => simp [opensFrom_cons, Literal.State.next, ih]

theorem not_opensFrom_inside (quote : Literal.Quote) (h : Literal.IsUnclosed quote t) :
    ¬ OpensFrom (.inside quote) t rest := by
  induction h with
  | nil => exact not_opensFrom_nil _ rest
  | backslash => simp [opensFrom_cons, not_opensFrom_nil]
  | plain hback hne _ ih => simp [opensFrom_cons, Literal.State.next, hback, hne, ih]
  | escape c _ ih => simp [opensFrom_cons, Literal.State.next, ih]

/-- Behind a quote a literal goes on. -/
theorem opensFrom_quote (h : Literal.isQuote c = true) :
    OpensFrom .outside (c :: t) rest ↔ OpensFrom (.inside ⟨c, h⟩) t rest := by
  rw [opensFrom_cons, Literal.State.next_quote h]
  refine or_iff_right fun hslash => ?_
  rw [hslash.2.1] at h
  cases h

/-- A literal is skipped. -/
theorem opensFrom_literal (hquote : Literal.isQuote c = true) {body : Text}
    (h : Literal.IsBody c body) :
    OpensFrom .outside (c :: body ++ [c] ++ t) rest ↔ OpensFrom .outside t rest := by
  rw [List.append_assoc, List.cons_append, opensFrom_quote hquote]
  exact opensFrom_inside ⟨c, hquote⟩ h

theorem not_opensFrom_unclosed (hquote : Literal.isQuote c = true) (h : Literal.IsUnclosed c t) :
    ¬ OpensFrom .outside (c :: t) rest := by
  rw [opensFrom_quote hquote]
  exact not_opensFrom_inside ⟨c, hquote⟩ h

end Openings

/-! ## 2. Characters that run together -/

/-- Whether a segment leaves nothing between a slash before it and what follows: a blank, or a
block comment without a line break. -/
def Segment.IsGap : Segment → Prop
  | .char c => isBlank c = true ∧ c ≠ '\n'
  | .blockComment written _ => '\n' ∉ written
  | _ => False

/-- Whether the first segment that is no gap is a slash or a star. -/
def MeetsMark (list : List Segment) : Prop :=
  ∃ gap c behind, list = gap ++ .char c :: behind ∧ (c = '/' ∨ c = '*') ∧
    ∀ segment ∈ gap, segment.IsGap

/-- Whether a slash with the segments `behind` it, none of them and not the slash itself taken from
comments and literals, comes together with a slash or a star. -/
def RunsTogether (list behind : List Segment) : Prop :=
  ∃ before, list = before ++ .char '/' :: behind ∧ MeetsMark behind

section Segments

variable {segment : Segment} {more behind : List Segment}

theorem not_meetsMark_nil : ¬ MeetsMark [] := by
  rintro ⟨gap, c, behind, h, _⟩
  cases gap <;> cases h

theorem meetsMark_cons : MeetsMark (segment :: more) ↔
    (segment = .char '/' ∨ segment = .char '*') ∨ (segment.IsGap ∧ MeetsMark more) := by
  constructor
  · rintro ⟨gap, c, behind, h, hc, hgap⟩
    cases gap with
    | nil =>
      obtain ⟨rfl, rfl⟩ := List.cons.inj h
      exact Or.inl (hc.imp (congrArg _) (congrArg _))
    | cons first gap =>
      obtain ⟨rfl, rfl⟩ := List.cons.inj h
      obtain ⟨hfirst, hgap⟩ := List.forall_mem_cons.1 hgap
      exact Or.inr ⟨hfirst, gap, c, behind, rfl, hc, hgap⟩
  · rintro ((rfl | rfl) | ⟨hfirst, gap, c, behind, rfl, hc, hgap⟩)
    · exact ⟨[], '/', more, rfl, Or.inl rfl, fun _ h => absurd h List.not_mem_nil⟩
    · exact ⟨[], '*', more, rfl, Or.inr rfl, fun _ h => absurd h List.not_mem_nil⟩
    · exact ⟨segment :: gap, c, behind, rfl, hc, List.forall_mem_cons.2 ⟨hfirst, hgap⟩⟩

theorem not_runsTogether_nil : ¬ RunsTogether [] behind := by
  rintro ⟨before, h, _⟩
  cases before <;> cases h

theorem runsTogether_cons : RunsTogether (segment :: more) behind ↔
    (segment = .char '/' ∧ more = behind ∧ MeetsMark more) ∨ RunsTogether more behind := by
  constructor
  · rintro ⟨before, h, hmeets⟩
    cases before with
    | nil =>
      obtain ⟨rfl, rfl⟩ := List.cons.inj h
      exact Or.inl ⟨rfl, rfl, hmeets⟩
    | cons first before =>
      obtain ⟨rfl, rfl⟩ := List.cons.inj h
      exact Or.inr ⟨before, rfl, hmeets⟩
  · rintro (⟨rfl, rfl, hmeets⟩ | ⟨before, rfl, hmeets⟩)
    · exact ⟨[], rfl, hmeets⟩
    · exact ⟨segment :: before, rfl, hmeets⟩

theorem dropsBlankAfter_of_isGap (h : segment.IsGap) : dropsBlankAfter (some segment) = true := by
  cases segment with
  | lineComment written => rfl
  | blockComment written closed => rfl
  | literal written closed => exact h.elim
  | char c => rw [dropsBlankAfter_char h.2, h.1, Bool.true_or, Bool.true_or]

end Segments

/-! ## 3. Openings in cleaned source -/

section Char

variable {c : Char}

theorem cleaned_char_of_isGap (h : (Segment.char c).IsGap) (before : Option Segment) :
    (Segment.char c).cleaned before = if dropsBlankAfter before then [] else [' '] := by
  rw [Segment.cleaned, if_neg h.2, if_pos h.1]

theorem cleaned_char_of_not_isGap (h : ¬ (Segment.char c).IsGap) (before : Option Segment) :
    (Segment.char c).cleaned before = [c] := by
  rw [Segment.cleaned]
  split
  · rename_i hc
    rw [hc]
  · rename_i hc
    rw [if_neg fun hblank => h ⟨hblank, hc⟩]

/-- A slash and a star are no blanks. -/
theorem not_mark_of_isGap (h : (Segment.char c).IsGap) : c ≠ '/' ∧ c ≠ '*' := by
  refine ⟨?_, ?_⟩
  · rintro rfl
    exact absurd h.1 (by decide)
  · rintro rfl
    exact absurd h.1 (by decide)

end Char

section Step

variable {segment : Segment} {after t rest : Text} (h : segment.IsFirst after)

include h

/-- **A cleaned segment opens no comment**, but a slash may do so with the text behind it. -/
theorem opensFrom_cleaned (ht : after = [] → t = []) (before : Option Segment) :
    OpensFrom .outside (segment.cleaned before ++ t) rest ↔
      (segment = .char '/' ∧ t = rest ∧ OpensBehindSlash t) ∨ OpensFrom .outside t rest := by
  cases segment with
  | lineComment written =>
    exact (opensFrom_plain rfl (by decide)).trans (by simp)
  | blockComment written closed =>
    rw [Segment.cleaned, filter_newline, opensFrom_blank]
    simp
  | literal written closed =>
    cases closed with
    | true =>
      obtain ⟨quote, body, hquote, hbody, rfl⟩ := h
      rw [Segment.cleaned, opensFrom_literal hquote hbody]
      simp
    | false =>
      obtain ⟨quote, body, hquote, hbody, rfl, hrest⟩ := h
      rw [Segment.cleaned, ht hrest, List.append_nil]
      simp [not_opensFrom_unclosed hquote hbody, not_opensFrom_nil]
  | char c =>
    obtain ⟨hquote, _⟩ := h
    by_cases hgap : (Segment.char c).IsGap
    · have hslash := (not_mark_of_isGap hgap).1
      rw [cleaned_char_of_isGap hgap]
      split
      · simp [hslash]
      · rw [List.singleton_append, opensFrom_plain rfl (by decide)]
        simp [hslash]
    · rw [cleaned_char_of_not_isGap hgap, List.singleton_append, opensFrom_char hquote]
      simp

/-- Where blanks are dropped, a cleaned segment starts with a slash or a star only if it is one, and
nothing stands there for a gap. -/
theorem opensBehindSlash_cleaned {before : Option Segment}
    (hdrops : dropsBlankAfter before = true) :
    OpensBehindSlash (segment.cleaned before ++ t) ↔
      (segment = .char '/' ∨ segment = .char '*') ∨ (segment.IsGap ∧ OpensBehindSlash t) := by
  cases segment with
  | lineComment written => simp [Segment.cleaned, OpensBehindSlash, Segment.IsGap]
  | blockComment written closed =>
    rw [Segment.cleaned, filter_newline]
    cases hbreaks : Text.breaks written with
    | zero => simp [Text.blank, Segment.IsGap, Text.breaks_eq_zero.1 hbreaks]
    | succ n =>
      have hsome : '\n' ∈ written := Classical.byContradiction fun hnone => by
        rw [Text.breaks_eq_zero.2 hnone] at hbreaks
        cases hbreaks
      simp [Text.blank, List.replicate_succ, OpensBehindSlash, Segment.IsGap, hsome]
  | literal written closed =>
    have hhead : ∃ quote body, Literal.isQuote quote = true ∧ written = quote :: body := by
      cases closed with
      | true =>
        obtain ⟨quote, body, hquote, _, rfl⟩ := h
        exact ⟨quote, body ++ [quote], hquote, rfl⟩
      | false =>
        obtain ⟨quote, body, hquote, _, rfl, _⟩ := h
        exact ⟨quote, body, hquote, rfl⟩
    obtain ⟨quote, body, hquote, rfl⟩ := hhead
    have hslash : quote ≠ '/' ∧ quote ≠ '*' := by
      refine ⟨?_, ?_⟩ <;> (rintro rfl; cases hquote)
    simp [Segment.cleaned, OpensBehindSlash, Segment.IsGap, hslash]
  | char c =>
    by_cases hgap : (Segment.char c).IsGap
    · rw [cleaned_char_of_isGap hgap, if_pos hdrops]
      simp [hgap, not_mark_of_isGap hgap]
    · rw [cleaned_char_of_not_isGap hgap]
      simp [hgap, OpensBehindSlash]

end Step

/-- Nothing comes from the end of a source. -/
theorem cleanedText_of_nil {t : Text} {list : List Segment} (h : Cut t list)
    (before : Option Segment) (ht : t = []) : cleanedText before list = [] := by
  subst ht
  rw [cut_iff.1 h, segments, cleanedText]

section Run

variable {t : Text} {list : List Segment} (h : Cut t list)

include h

theorem opensBehindSlash_cleanedText {before : Option Segment}
    (hdrops : dropsBlankAfter before = true) :
    OpensBehindSlash (cleanedText before list) ↔ MeetsMark list := by
  induction h generalizing before with
  | nil => simp [cleanedText, OpensBehindSlash, not_meetsMark_nil]
  | cons hfirst _ ih =>
    rw [cleanedText, opensBehindSlash_cleaned hfirst hdrops, meetsMark_cons]
    exact or_congr_right (and_congr_right fun hgap => ih (dropsBlankAfter_of_isGap hgap))

/-- **The openings of comments in a cleaned source** are the slashes that run together with what
follows them. -/
theorem opensFrom_cleanedText (before : Option Segment) (rest : Text) :
    OpensFrom .outside (cleanedText before list) rest ↔
      ∃ behind, RunsTogether list behind ∧ rest = cleanedText (some (.char '/')) behind := by
  induction h generalizing before with
  | nil => simp [cleanedText, not_opensFrom_nil, not_runsTogether_nil]
  | @cons segment after more hfirst hmore ih =>
    rw [cleanedText, opensFrom_cleaned hfirst (cleanedText_of_nil hmore _), ih]
    simp only [runsTogether_cons, or_and_right, exists_or]
    refine or_congr_left ?_
    constructor
    · rintro ⟨rfl, rfl, hopens⟩
      exact ⟨more, ⟨rfl, rfl, (opensBehindSlash_cleanedText hmore rfl).1 hopens⟩, rfl⟩
    · rintro ⟨behind, ⟨rfl, rfl, hmeets⟩, rfl⟩
      exact ⟨rfl, rfl, (opensBehindSlash_cleanedText hmore rfl).2 hmeets⟩

end Run

/-! ## 4. Cleaning a cleaned source -/

theorem segments_text_append {segment : Segment} {rest : Text} (h : segment.IsFirst rest) :
    segments (segment.text ++ rest) = segment :: segments rest :=
  (cut_iff.1 (Cut.cons h (cut_segments rest))).symm

theorem segments_char {c : Char} {t : Text} (hquote : Literal.isQuote c = false)
    (hslash : ¬ (c = '/' ∧ OpensBehindSlash t)) : segments (c :: t) = .char c :: segments t :=
  segments_text_append (show (Segment.char c).IsFirst t from ⟨hquote, hslash⟩)

/-- Line breaks stay as they are. -/
theorem exists_cleanedText_blank (again : Option Segment) (n : Nat) (t : Text) :
    ∃ last, cleanedText again (segments (Text.blank n ++ t)) =
      Text.blank n ++ cleanedText last (segments t) := by
  induction n generalizing again with
  | zero => exact ⟨again, rfl⟩
  | succ n ih =>
    obtain ⟨last, hlast⟩ := ih (some (.char '\n'))
    refine ⟨last, ?_⟩
    show cleanedText again (segments ('\n' :: (Text.blank n ++ t))) = _
    rw [segments_char rfl (by simp), cleanedText, hlast]
    rfl

/-- **A cleaned segment stays as it is**, where no blank is dropped that was not dropped before, and
no comment is opened. Behind it again no such blank is dropped. -/
theorem exists_cleanedText_again {segment : Segment} {after t : Text} (h : segment.IsFirst after)
    (ht : after = [] → t = []) {before again : Option Segment}
    (hdrops : dropsBlankAfter again = true → dropsBlankAfter before = true)
    (hapart : ¬ (segment = .char '/' ∧ OpensBehindSlash t)) :
    ∃ last, (dropsBlankAfter last = true → dropsBlankAfter (some segment) = true) ∧
      cleanedText again (segments (segment.cleaned before ++ t)) =
        segment.cleaned before ++ cleanedText last (segments t) := by
  cases segment with
  | lineComment written =>
    obtain ⟨last, hlast⟩ := exists_cleanedText_blank again 1 t
    exact ⟨last, fun _ => rfl, hlast⟩
  | blockComment written closed =>
    rw [Segment.cleaned, filter_newline]
    obtain ⟨last, hlast⟩ := exists_cleanedText_blank again (Text.breaks written) t
    exact ⟨last, fun _ => rfl, hlast⟩
  | literal written closed =>
    have hfirst : (Segment.literal written closed).IsFirst t := by
      cases closed with
      | true => exact h
      | false =>
        obtain ⟨quote, body, hquote, hbody, hwritten, hrest⟩ := h
        exact ⟨quote, body, hquote, hbody, hwritten, ht hrest⟩
    refine ⟨some (.literal written closed), id, ?_⟩
    exact congrArg (cleanedText again) (segments_text_append hfirst)
  | char c =>
    by_cases hgap : (Segment.char c).IsGap
    · rw [cleaned_char_of_isGap hgap]
      split
      · exact ⟨again, fun _ => dropsBlankAfter_of_isGap hgap, rfl⟩
      · rename_i hkept
        refine ⟨some (.char ' '), fun _ => dropsBlankAfter_of_isGap hgap, ?_⟩
        rw [List.singleton_append, segments_char rfl (by simp), cleanedText,
          cleaned_char_of_isGap ⟨by decide, by decide⟩, if_neg fun hagain => hkept (hdrops hagain)]
    · refine ⟨some (.char c), id, ?_⟩
      have hslash : ¬ (c = '/' ∧ OpensBehindSlash t) := fun hslash =>
        hapart ⟨by rw [hslash.1], hslash.2⟩
      rw [cleaned_char_of_not_isGap hgap, List.singleton_append, segments_char h.1 hslash,
        cleanedText, cleaned_char_of_not_isGap hgap]

/-- **Cleaning again changes nothing** where nothing runs together. -/
theorem cleanedText_again {t : Text} {list : List Segment} (h : Cut t list)
    {before again : Option Segment}
    (hdrops : dropsBlankAfter again = true → dropsBlankAfter before = true)
    (hapart : ∀ behind, ¬ RunsTogether list behind) :
    cleanedText again (segments (cleanedText before list)) = cleanedText before list := by
  induction h generalizing before again with
  | nil => rw [cleanedText, segments, cleanedText]
  | @cons segment after more hfirst hmore ih =>
    have hmoreApart : ∀ behind, ¬ RunsTogether more behind := fun behind hruns =>
      hapart behind (runsTogether_cons.2 (Or.inr hruns))
    have hslash : ¬ (segment = .char '/' ∧ OpensBehindSlash (cleanedText (some segment) more)) := by
      rintro ⟨rfl, hopens⟩
      have hmeets := (opensBehindSlash_cleanedText hmore rfl).1 hopens
      exact hapart more (runsTogether_cons.2 (Or.inl ⟨rfl, rfl, hmeets⟩))
    obtain ⟨last, hlast, hsame⟩ :=
      exists_cleanedText_again hfirst (cleanedText_of_nil hmore _) hdrops hslash
    rw [cleanedText, hsame, ih hlast hmoreApart]

/-! ## 5. Cleaning a text with comments -/

/-- **A comment becomes shorter**, and nothing becomes longer. -/
theorem length_cleaned {segment : Segment} {after : Text} (h : segment.IsFirst after)
    (before : Option Segment) :
    (segment.cleaned before).length < segment.text.length ∨
      ((segment.cleaned before).length ≤ segment.text.length ∧ ∀ rest,
        OpensFrom .outside (segment.text ++ after) rest → OpensFrom .outside after rest) := by
  cases segment with
  | lineComment written =>
    obtain ⟨body, _, rfl | ⟨rfl, _⟩⟩ := h <;> exact Or.inl (by simp [Segment.cleaned, Segment.text])
  | blockComment written closed =>
    have hslash : '/' ∈ written := by
      cases closed with
      | true =>
        obtain ⟨body, _, rfl⟩ := h
        exact List.mem_cons_self
      | false =>
        obtain ⟨body, _, rfl, _⟩ := h
        exact List.mem_cons_self
    exact Or.inl (List.length_filter_lt_length_iff_exists.2 ⟨'/', hslash, by decide⟩)
  | literal written closed =>
    refine Or.inr ⟨Nat.le_refl _, fun rest => ?_⟩
    cases closed with
    | true =>
      obtain ⟨quote, body, hquote, hbody, rfl⟩ := h
      exact (opensFrom_literal hquote hbody).1
    | false =>
      obtain ⟨quote, body, hquote, hbody, rfl, rfl⟩ := h
      rw [List.append_nil]
      exact fun hopens => absurd hopens (not_opensFrom_unclosed hquote hbody)
  | char c =>
    refine Or.inr ⟨?_, fun rest hopens => ((opensFrom_char h.1).1 hopens).resolve_left ?_⟩
    · by_cases hgap : (Segment.char c).IsGap
      · rw [cleaned_char_of_isGap hgap]
        split <;> simp [Segment.text]
      · rw [cleaned_char_of_not_isGap hgap]
        exact Nat.le_refl _
    · exact fun hslash => h.2 ⟨hslash.1, hslash.2.2⟩

theorem length_cleanedText {t : Text} {list : List Segment} (h : Cut t list)
    (before : Option Segment) :
    (cleanedText before list).length ≤ t.length ∧
      ∀ rest, OpensFrom .outside t rest → (cleanedText before list).length < t.length := by
  induction h generalizing before with
  | nil => exact ⟨Nat.le_refl _, fun rest hopens => absurd hopens (not_opensFrom_nil _ rest)⟩
  | @cons segment after more hfirst _ ih =>
    obtain ⟨hle, hlt⟩ := ih (some segment)
    rw [cleanedText, List.length_append, List.length_append]
    rcases length_cleaned hfirst before with hshorter | ⟨hkept, hopens⟩
    · exact ⟨by omega, fun _ _ => by omega⟩
    · refine ⟨by omega, fun rest hopen => ?_⟩
      have hmore := hlt rest (hopens rest hopen)
      omega

/-! ## 6. Whole sources -/

theorem cr_not_mem_unifyBreaks (t : Text) : '\r' ∉ unifyBreaks t := by
  fun_induction unifyBreaks t with
  | case1 => exact List.not_mem_nil
  | case2 t hhead ih => exact ih
  | case3 t hhead ih => exact List.not_mem_cons_of_ne_of_not_mem (by decide) ih
  | case4 c t hc ih => exact List.not_mem_cons_of_ne_of_not_mem (Ne.symm hc) ih

theorem unifyBreaks_eq_self {t : Text} (h : '\r' ∉ t) : unifyBreaks t = t := by
  induction t with
  | nil => rfl
  | cons c t ih =>
    have hc : c ≠ '\r' := (List.ne_of_not_mem_cons h).symm
    rw [unifyBreaks, if_neg hc, ih (List.not_mem_of_not_mem_cons h)]

/-- A cleaned segment has characters of the segment, line breaks and spaces. -/
theorem mem_cleaned {segment : Segment} {before : Option Segment} {d : Char}
    (h : d ∈ segment.cleaned before) : d ∈ segment.text ∨ d = '\n' ∨ d = ' ' := by
  cases segment with
  | lineComment written => exact Or.inr (Or.inl (List.mem_singleton.1 h))
  | blockComment written closed => exact Or.inl (List.mem_filter.1 h).1
  | literal written closed => exact Or.inl h
  | char c =>
    by_cases hgap : (Segment.char c).IsGap
    · rw [cleaned_char_of_isGap hgap] at h
      split at h
      · cases h
      · exact Or.inr (Or.inr (List.mem_singleton.1 h))
    · rw [cleaned_char_of_not_isGap hgap] at h
      exact Or.inl h

theorem mem_cleanedText {t : Text} {list : List Segment} (h : Cut t list) {before : Option Segment}
    {d : Char} (hd : d ∈ cleanedText before list) : d ∈ t ∨ d = '\n' ∨ d = ' ' := by
  induction h generalizing before with
  | nil => exact Or.inl hd
  | cons hfirst _ ih =>
    rw [cleanedText] at hd
    rcases List.mem_append.1 hd with hd | hd
    · exact (mem_cleaned hd).imp_left (List.mem_append_left _)
    · exact (ih hd).imp_left (List.mem_append_right _)

/-- A source is cleaned segment by segment. -/
theorem read_eq_cleanedText_segments (source : Text) :
    read source = cleanedText none (segments (unifyBreaks source)) :=
  cleanSegments_eq none _

/-- A cleaned source has the line breaks of one system. -/
theorem unifyBreaks_read (source : Text) : unifyBreaks (read source) = read source := by
  refine unifyBreaks_eq_self fun hmem => ?_
  rw [read_eq_cleanedText_segments] at hmem
  rcases mem_cleanedText (cut_segments _) hmem with hsource | hbreak | hspace
  · exact cr_not_mem_unifyBreaks source hsource
  · cases hbreak
  · cases hspace

/-- **The comments in a cleaned source.** Outside of literals, a slash in a cleaned source has a
slash or a star right behind it exactly where in the source a slash that is none of a comment or
literal is followed by such a slash or star with nothing but blanks and block comments, all without
line breaks, in between. Cleaning the cleaned source again changes nothing exactly when there is no
such place. -/
theorem read_read_eq_iff (source : Text) :
    (∀ rest, OpensFrom .outside (read source) rest ↔
        ∃ behind, RunsTogether (segments (unifyBreaks source)) behind ∧
          rest = cleanedText (some (.char '/')) behind) ∧
      (read (read source) = read source ↔
        ∀ behind, ¬ RunsTogether (segments (unifyBreaks source)) behind) := by
  have hcut := cut_segments (unifyBreaks source)
  have hread := read_eq_cleanedText_segments source
  have hopens := opensFrom_cleanedText hcut none
  rw [← hread] at hopens
  have hagain : read (read source) = cleanedText none (segments (read source)) := by
    rw [read_eq_cleanedText_segments, unifyBreaks_read]
  refine ⟨hopens, fun hsame behind hruns => ?_, fun hapart => ?_⟩
  · have hopen := (hopens _).2 ⟨behind, hruns, rfl⟩
    have hlt := (length_cleanedText (cut_segments (read source)) none).2 _ hopen
    rw [← hagain, hsame] at hlt
    exact Nat.lt_irrefl _ hlt
  · rw [hagain, hread, cleanedText_again hcut id hapart]

/-- A blank behind a slash is dropped, and the slash then opens a comment that the source does not
have. -/
theorem read_read_ne :
    OpensFrom .outside (read "a/ /b".toList) "/b".toList ∧
      read (read "a/ /b".toList) ≠ read "a/ /b".toList := by
  have hread : read "a/ /b".toList = "a//b".toList := by decide +kernel
  rw [hread]
  exact ⟨⟨['a'], rfl, rfl, Or.inl rfl⟩, by decide +kernel⟩

end Variants.Source
