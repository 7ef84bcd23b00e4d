import Variants.Proofs.Recleaning
import Variants.Proofs.Relexing

/-!
# The literals that cleaning copies

Cleaning and scanning each find the literals of a text for themselves: the one in a source with its
comments, the other in the cleaned text, where blanks are gone and names, numbers and punctuators
are told apart. What cleaning writes for a comment or a character has no quotes, and a literal is
written as it is, so that the cleaned text has the marks of the copied literals and no others
(`marks_cleanedText`).

Main statement: `shapes_literals_read`.
-/

namespace Variants

/-! ## 1. The literals of a cut -/

namespace Source

/-- The literal that a segment is. -/
def Segment.literal? : Segment → Option Text
  | .literal written _ => some written
  | _ => none

/-- What cleaning writes for a character has no quotes. -/
theorem isUnquoted_cleaned_char {c : Char} (h : Literal.isQuote c = false)
    (before : Option Segment) : Literal.IsUnquoted ((Segment.char c).cleaned before) := by
  rw [Segment.cleaned]
  split
  · exact List.forall_mem_singleton.2 rfl
  · split
    · split
      · exact fun d hd => absurd hd List.not_mem_nil
      · exact List.forall_mem_singleton.2 rfl
    · exact List.forall_mem_singleton.2 h

/-- **One segment**: only a literal leaves marks, and these are its own. -/
theorem marks_cleaned {segment : Segment} {after t : Text} (h : segment.IsFirst after)
    (ht : after = [] → t = []) (before : Option Segment) :
    Literal.marks .outside (segment.cleaned before ++ t) =
      segment.literal?.toList.flatMap Literal.marksOf ++ Literal.marks .outside t := by
  cases segment with
  | lineComment written =>
    have hbreak : Literal.IsUnquoted ['\n'] := List.forall_mem_singleton.2 rfl
    exact hbreak.marks_append t
  | blockComment written closed =>
    refine Literal.IsUnquoted.marks_append (fun c hc => ?_) t
    rw [beq_iff_eq.1 (List.mem_filter.1 hc).2]
    rfl
  | literal written closed =>
    cases closed with
    | true =>
      obtain ⟨quote, body, hquote, hbody, rfl⟩ := h
      have hclose := Literal.close_of_isBody (Literal.ne_backslash_of_isQuote hquote) hbody t
      rw [Segment.cleaned, List.append_assoc, List.cons_append, List.singleton_append,
        Literal.marks_quote hquote, Literal.marks_of_close hclose]
      simp [Segment.literal?, Literal.marksOf]
    | false =>
      obtain ⟨quote, body, hquote, hbody, rfl, hrest⟩ := h
      rw [Segment.cleaned, ht hrest, List.append_nil, Literal.marks_quote hquote,
        Literal.marks_of_not_close (Literal.close_eq_none_iff.2 hbody)]
      simp [Segment.literal?, Literal.marksOf, Literal.marks]
  | char c => exact (isUnquoted_cleaned_char h.1 before).marks_append t

/-- **All segments.** -/
theorem marks_cleanedText {t : Text} {list : List Segment} (h : Cut t list)
    (before : Option Segment) :
    Literal.marks .outside (cleanedText before list) =
      (list.filterMap Segment.literal?).flatMap Literal.marksOf := by
  induction h generalizing before with
  | nil => rfl
  | @cons segment after more hfirst hmore ih =>
    rw [cleanedText, marks_cleaned hfirst (cleanedText_of_nil hmore _), ih]
    cases hliteral : segment.literal? with
    | none => rw [List.filterMap_cons_none hliteral]; rfl
    | some written => rw [List.filterMap_cons_some hliteral, List.flatMap_cons]; simp

/-- The literals of a cut are not empty. -/
theorem ne_nil_of_literal? {t : Text} {list : List Segment} (h : Cut t list) :
    ∀ l ∈ list.filterMap Segment.literal?, l ≠ [] := by
  induction h with
  | nil => exact fun l hl => absurd hl List.not_mem_nil
  | @cons segment after more hfirst _ ih =>
    cases segment with
    | lineComment written => exact ih
    | blockComment written closed => exact ih
    | literal written closed => exact List.forall_mem_cons.2 ⟨hfirst.text_ne_nil, ih⟩
    | char c => exact ih

end Source

/-! ## 2. Kinds of literals -/

namespace Token

/-- The kind of a literal, by its quote. -/
def literalKind (l : Text) : TokenKind := if l.head? = some '"' then .string else .character

/-- A literal is a string in double quotes and a character in single ones. -/
theorem shape_of_isLiteral {t : Text} {token : Token} (h : token ∈ tokens t)
    (hliteral : isLiteral token = true) :
    token.shape = (literalKind token.lexeme, token.lexeme) := by
  obtain ⟨c, u, hlexeme, _, hscan⟩ := isValid_token h
  have hquote : Literal.isQuote c = true := by
    rw [← Bool.not_eq_false]
    intro hplain
    obtain ⟨_, hstring, hcharacter⟩ := isUnquoted_scan hplain u
    rw [hscan] at hstring hcharacter
    rcases Bool.or_eq_true_iff.1 hliteral with hkind | hkind
    · exact hstring (beq_iff_eq.1 hkind)
    · exact hcharacter (beq_iff_eq.1 hkind)
  have hkind : (scan c u).1 = literalKind (c :: u) := by
    rcases Bool.or_eq_true_iff.1 hquote with hdouble | hsingle
    · rw [beq_iff_eq.1 hdouble]
      rfl
    · rw [beq_iff_eq.1 hsingle]
      rfl
  rw [hscan] at hkind
  exact Prod.ext (hkind.trans (hlexeme ▸ rfl)) rfl

theorem shapes_literals (t : Text) :
    ((tokens t).filter isLiteral).map shape = (literals t).map fun l => (literalKind l, l) := by
  rw [literals, List.map_map]
  refine List.map_congr_left fun token htoken => ?_
  obtain ⟨hmem, hliteral⟩ := List.mem_filter.1 htoken
  exact shape_of_isLiteral hmem hliteral

end Token

/-! ## 3. The cleaned text -/

namespace Source

/-- **The literals of a cleaned source are those that cleaning copied.** There is one way to cut a
source into comments, literals and other characters, and its cleaned form is what the segments
become. The literal tokens of the cleaned form are, in order, the literal segments as they are
written, one that is not closed included, and each is of the kind that its quote says. -/
theorem shapes_literals_read (source : Text) : ∃ list : List Segment,
    (∀ other, Cut (unifyBreaks source) other ↔ other = list) ∧
      read source = cleanedText none list ∧
      ((Token.tokens (read source)).filter Token.isLiteral).map Token.shape =
        (list.filterMap Segment.literal?).map fun l => (Token.literalKind l, l) := by
  have hcut := cut_segments (unifyBreaks source)
  have hread := read_eq_cleanedText_segments source
  have hliterals : Token.literals (read source) =
      (segments (unifyBreaks source)).filterMap Segment.literal? := by
    refine Token.literals_eq_of_flatMap_marksOf (ne_nil_of_literal? hcut) ?_
    rw [hread, marks_cleanedText hcut]
  exact ⟨_, fun _ => cut_iff, hread, by rw [Token.shapes_literals, hliterals]⟩

/-- No quote in a comment opens a literal, and a literal that is not closed runs to the end. -/
example : Token.literals (read "/*'*/ x'\\'' /'\"' \"// y".toList) =
    ["'\\''".toList, "'\"'".toList, "\"// y".toList] := by decide +kernel

end Source

end Variants
