import Variants.Proofs.Segmentation
import Variants.Source.Clean

/-!
# Cleaning, segment by segment and character by character

A cleaned source is put together from its segments: each stands for a text of its own
(`Segment.cleaned`), and only a blank has to know what comes before it. The same text comes from one
pass over the source (`readCode`) that looks one character ahead, has one loop for each kind of
segment that can be longer, and carries a flag that says whether a blank is dropped. Dropping a
blank never moves the border of a segment (`readCode_text_append`), so the pass follows the one cut
of the source.

Main statement: `read_eq_cleanedText`.
-/

namespace Variants.Source

/-! ## 1. Segment by segment -/

/-- Whether a blank right behind a segment is dropped. -/
def Segment.dropsBlank : Segment → Bool
  | .lineComment _ => true
  | .blockComment _ _ => true
  | .literal _ _ => false
  | .char c => c != '\n' && (isBlank c || c == '#' || c == '/')

/-- Whether a blank is dropped behind a segment, or at the start of the text. -/
def dropsBlankAfter (before : Option Segment) : Bool := before.all Segment.dropsBlank

/-- What a segment becomes behind another one, or at the start of the text. -/
def Segment.cleaned (before : Option Segment) : Segment → Text
  | .lineComment _ => ['\n']
  | .blockComment written _ => written.filter (· == '\n')
  | .literal written _ => written
  | .char c =>
    if c = '\n' then ['\n']
    else if isBlank c then if dropsBlankAfter before then [] else [' ']
    else [c]

/-- What some segments become behind another one, or at the start of the text. -/
def cleanedText (before : Option Segment) : List Segment → Text
  | [] => []
  | segment :: more => segment.cleaned before ++ cleanedText (some segment) more

theorem filter_newline (t : Text) : t.filter (· == '\n') = Text.blank (Text.breaks t) :=
  List.filter_beq '\n'

theorem dropsBlankAfter_char {c : Char} (h : c ≠ '\n') :
    dropsBlankAfter (some (.char c)) = (isBlank c || c == '#' || c == '/') := by
  simp [dropsBlankAfter, Segment.dropsBlank, h]

/-- The flag of the cleaner says whether a blank is dropped behind the last segment. -/
theorem cleanSegments_eq (before : Option Segment) (list : List Segment) :
    cleanSegments (dropsBlankAfter before) list = cleanedText before list := by
  induction list generalizing before with
  | nil => rfl
  | cons segment more ih =>
    have hmore := ih (some segment)
    rw [cleanedText, ← hmore]
    cases segment with
    | lineComment written => rfl
    | blockComment written closed =>
      rw [Segment.cleaned, filter_newline]
      rfl
    | literal written closed => rfl
    | char c =>
      by_cases hnewline : c = '\n'
      · subst hnewline
        rfl
      rw [dropsBlankAfter_char hnewline]
      by_cases hblank : isBlank c = true
      · by_cases hskip : dropsBlankAfter before = true
        · simp [cleanSegments, Segment.cleaned, hnewline, hblank, hskip]
        · simp [cleanSegments, Segment.cleaned, hnewline, hblank, hskip]
      · simp [cleanSegments, Segment.cleaned, hnewline, hblank]

/-! ## 2. Character by character -/

mutual

/-- Reads on outside of comments and literals. `skip` says that a blank is dropped here. -/
def readCode (skip : Bool) : Text → Text
  | [] => []
  | c :: t =>
    if c ≠ '\n' ∧ isBlank c = true then
      if skip then readCode true t else ' ' :: readCode true t
    else if c = '/' ∧ t.head? = some '/' then '\n' :: readLineComment t
    else if c = '/' ∧ t.head? = some '*' then
      match t with
      | [] => []
      | _ :: u => readBlockComment none u
    else if Literal.isQuote c then c :: readLiteral c t
    else c :: readCode (c == '#' || c == '/') t

/-- Reads on in a line comment. -/
def readLineComment : Text → Text
  | [] => []
  | c :: t => if c = '\n' then readCode true t else readLineComment t

/-- Reads on in a block comment behind one of its characters, or behind the two that open it. -/
def readBlockComment (previous : Option Char) : Text → Text
  | [] => []
  | c :: t =>
    if c = '\n' then '\n' :: readBlockComment (some c) t
    else if previous = some '*' ∧ c = '/' then readCode true t
    else readBlockComment (some c) t

/-- Reads on in a literal. -/
def readLiteral (quote : Char) : Text → Text
  | [] => []
  | c :: t =>
    if c = '\\' then
      match t with
      | [] => [c]
      | d :: u => c :: d :: readLiteral quote u
    else if c = quote then c :: readCode false t
    else c :: readLiteral quote t

end

theorem readLineComment_append {body : Text} (h : '\n' ∉ body) (rest : Text) :
    readLineComment (body ++ '\n' :: rest) = readCode true rest := by
  induction body with
  | nil => rw [List.nil_append, readLineComment, if_pos rfl]
  | cons c body ih =>
    have hc : c ≠ '\n' := (List.ne_of_not_mem_cons h).symm
    rw [List.cons_append, readLineComment, if_neg hc, ih (List.not_mem_of_not_mem_cons h)]

theorem readLineComment_of_not_mem {t : Text} (h : '\n' ∉ t) : readLineComment t = [] := by
  induction t with
  | nil => rw [readLineComment]
  | cons c t ih =>
    have hc : c ≠ '\n' := (List.ne_of_not_mem_cons h).symm
    rw [readLineComment, if_neg hc, ih (List.not_mem_of_not_mem_cons h)]

/-- A character that does not end a block comment is taken out of it, unless it is a line break. -/
theorem readBlockComment_cons {previous : Option Char} {c : Char}
    (h : ¬ (previous = some '*' ∧ c = '/')) (t : Text) :
    readBlockComment previous (c :: t) =
      [c].filter (· == '\n') ++ readBlockComment (some c) t := by
  rw [readBlockComment]
  by_cases hc : c = '\n'
  · simp [hc]
  · simp [hc, h]

/-- Where no end of a comment stands behind a character, the next one does not make an end with
it. -/
theorem not_blockEnd_infix_cons {previous : Option Char} {c : Char} {t : Text}
    (h : ¬ blockEnd <:+: previous.toList ++ c :: t) :
    ¬ (previous = some '*' ∧ c = '/') ∧ ¬ blockEnd <:+: (some c).toList ++ t := by
  refine ⟨fun hend => h ?_, fun hin => h (hin.trans (List.suffix_append _ _).isInfix)⟩
  rw [hend.1, hend.2]
  exact (List.prefix_append blockEnd t).isInfix

/-- The first star and slash end a block comment, and its line breaks are kept. -/
theorem readBlockComment_append (previous : Option Char) {body : Text}
    (h : ¬ blockEnd <:+: previous.toList ++ (body ++ ['*'])) (rest : Text) :
    readBlockComment previous (body ++ '*' :: '/' :: rest) =
      body.filter (· == '\n') ++ readCode true rest := by
  induction body generalizing previous with
  | nil =>
    rw [List.nil_append, readBlockComment_cons (by simp), readBlockComment]
    rfl
  | cons c body ih =>
    obtain ⟨hc, hbody⟩ := not_blockEnd_infix_cons h
    rw [List.cons_append, readBlockComment_cons hc, ih (some c) hbody, ← List.append_assoc,
      ← List.filter_append, List.singleton_append]

theorem readBlockComment_of_not_infix (previous : Option Char) {t : Text}
    (h : ¬ blockEnd <:+: previous.toList ++ t) :
    readBlockComment previous t = t.filter (· == '\n') := by
  induction t generalizing previous with
  | nil => rw [readBlockComment, List.filter_nil]
  | cons c t ih =>
    obtain ⟨hc, ht⟩ := not_blockEnd_infix_cons h
    rw [readBlockComment_cons hc, ih (some c) ht, ← List.filter_append, List.singleton_append]

/-- A literal is copied up to its closing quote. -/
theorem readLiteral_append {quote : Char} (hquote : quote ≠ '\\') {body : Text}
    (h : Literal.IsBody quote body) (rest : Text) :
    readLiteral quote (body ++ quote :: rest) = body ++ quote :: readCode false rest := by
  induction h with
  | nil =>
    rw [List.nil_append, readLiteral.eq_def]
    simp [hquote]
  | plain hback hne _ ih =>
    rw [List.cons_append, readLiteral.eq_def]
    simp [hback, hne, ih]
  | escape c _ ih =>
    rw [List.cons_append, List.cons_append, readLiteral.eq_def]
    simp [ih]

theorem readLiteral_of_isUnclosed {quote : Char} {t : Text} (h : Literal.IsUnclosed quote t) :
    readLiteral quote t = t := by
  induction h with
  | nil => rw [readLiteral]
  | backslash => rw [readLiteral, if_pos rfl]
  | plain hback hne _ ih =>
    rw [readLiteral.eq_def]
    simp [hback, hne, ih]
  | escape c _ ih =>
    rw [readLiteral.eq_def]
    simp [ih]

/-! ## 3. The pass follows the cut -/

theorem readCode_slash (skip : Bool) (c : Char) (t : Text) :
    readCode skip ('/' :: c :: t) =
      if c = '/' then '\n' :: readLineComment (c :: t)
      else if c = '*' then readBlockComment none t
      else '/' :: readCode true (c :: t) := by
  rw [readCode, if_neg (by decide)]
  simp [Literal.isQuote]

theorem isBlank_of_isQuote {quote : Char} (h : Literal.isQuote quote = true) :
    isBlank quote = false := by
  rcases Bool.or_eq_true_iff.1 h with hdouble | hsingle
  · rw [beq_iff_eq.1 hdouble]
    decide
  · rw [beq_iff_eq.1 hsingle]
    decide

theorem readCode_quote {quote : Char} (h : Literal.isQuote quote = true) (skip : Bool) (t : Text) :
    readCode skip (quote :: t) = quote :: readLiteral quote t := by
  have hslash : quote ≠ '/' := by
    rintro rfl
    cases h
  rw [readCode.eq_def]
  simp [isBlank_of_isQuote h, hslash, h]

/-- **One segment**: the pass reads it to its end, whatever the flag says there. -/
theorem readCode_text_append (before : Option Segment) {segment : Segment} {rest : Text}
    (h : segment.IsFirst rest) :
    readCode (dropsBlankAfter before) (segment.text ++ rest) =
      segment.cleaned before ++ readCode (dropsBlankAfter (some segment)) rest := by
  cases segment with
  | lineComment written =>
    obtain ⟨body, hbody, rfl | ⟨rfl, rfl⟩⟩ := h
    · have hslash : '\n' ∉ '/' :: body := List.not_mem_cons_of_ne_of_not_mem (by decide) hbody
      have hread := readLineComment_append hslash rest
      simp only [List.cons_append] at hread
      simp [Segment.text, readCode_slash, hread, Segment.cleaned, dropsBlankAfter,
        Segment.dropsBlank]
    · have hslash : '\n' ∉ '/' :: body := List.not_mem_cons_of_ne_of_not_mem (by decide) hbody
      simp [Segment.text, readCode_slash, readLineComment_of_not_mem hslash, Segment.cleaned,
        readCode]
  | blockComment written closed =>
    cases closed with
    | true =>
      obtain ⟨body, hbody, rfl⟩ := h
      have hread := readBlockComment_append none hbody rest
      simp [Segment.text, readCode_slash, blockEnd, hread, Segment.cleaned, dropsBlankAfter,
        Segment.dropsBlank]
    | false =>
      obtain ⟨body, hbody, rfl, rfl⟩ := h
      have hread := readBlockComment_of_not_infix none hbody
      simp [Segment.text, readCode_slash, hread, Segment.cleaned, readCode]
  | literal written closed =>
    cases closed with
    | true =>
      obtain ⟨quote, body, hquote, hbody, rfl⟩ := h
      have hread := readLiteral_append (Literal.ne_backslash_of_isQuote hquote) hbody rest
      simp [Segment.text, readCode_quote hquote, hread, Segment.cleaned, dropsBlankAfter,
        Segment.dropsBlank]
    | false =>
      obtain ⟨quote, body, hquote, hbody, rfl, rfl⟩ := h
      simp [Segment.text, readCode_quote hquote, readLiteral_of_isUnclosed hbody, Segment.cleaned,
        readCode]
  | char c =>
    obtain ⟨hquote, hslash⟩ := h
    rw [Segment.text, List.singleton_append, readCode.eq_def, Segment.cleaned]
    by_cases hnewline : c = '\n'
    · subst hnewline
      rfl
    rw [dropsBlankAfter_char hnewline]
    by_cases hblank : isBlank c = true
    · by_cases hskip : dropsBlankAfter before = true
      · simp [hnewline, hblank, hskip]
      · simp [hnewline, hblank, hskip]
    · have hline : ¬ (c = '/' ∧ rest.head? = some '/') := fun h => hslash ⟨h.1, Or.inl h.2⟩
      have hblock : ¬ (c = '/' ∧ rest.head? = some '*') := fun h => hslash ⟨h.1, Or.inr h.2⟩
      simp [hnewline, hblank, hline, hblock, hquote]

/-- **All segments.** -/
theorem readCode_of_cut {t : Text} {list : List Segment} (h : Cut t list)
    (before : Option Segment) : readCode (dropsBlankAfter before) t = cleanedText before list := by
  induction h generalizing before with
  | nil => rw [readCode, cleanedText]
  | cons hfirst _ ih => rw [readCode_text_append before hfirst, ih, cleanedText]

/-- **Cleaning follows one cut of the source.** There is one way to cut a source into comments,
literals and other characters; its cleaned form is what the segments become, one after the other;
and one pass over the characters comes to the same. -/
theorem read_eq_cleanedText (source : Text) : ∃ list : List Segment,
    (∀ other, Cut (unifyBreaks source) other ↔ other = list) ∧
      read source = cleanedText none list ∧
      read source = readCode true (unifyBreaks source) := by
  have hread : read source = cleanedText none (segments (unifyBreaks source)) :=
    cleanSegments_eq none _
  refine ⟨segments (unifyBreaks source), fun _ => cut_iff, hread, ?_⟩
  rw [hread, ← readCode_of_cut (cut_segments _) none]
  rfl

/-- No comment starts in a literal and no literal in a comment, also right behind a slash. -/
example : read "a /\"/*\" /*\"*/ '//'".toList = "a /\"/*\" '//'".toList := by decide +kernel

end Variants.Source
