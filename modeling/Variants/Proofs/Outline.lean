import Variants.Macro.Use
import Variants.Proofs.Nesting

/-!
# The outline of a text

The outline of a text says for each piece between its line breaks which conditional directive it is,
with the symbol that an `#ifdef` or `#ifndef` tests, but not with the expression of an `#if` or
`#elif`. Sections nest by their outline alone.

What a line is as a directive is decided where its keyword ends. A macro is used behind no word
character and on no line of an `#ifdef` or `#ifndef`, and so the keyword stands before the use,
unless the use comes first on the line or right after a `#` there (`outlineOfLine_append`).
-/

namespace Variants

open Macro

/-! ## 1. Outlines -/

/-- A directive without its expression. -/
def Directive.outline : Directive → Directive
  | .opening .expression _ => .opening .expression .never
  | .elif _ => .elif .never
  | directive => directive

/-- The conditional directive that a line is, without its expression. -/
def outlineOfLine (line : Text) : Option Directive :=
  (Directive.conditional? line).map Directive.outline

/-- The outline of a text. -/
def outline (t : Text) : List (Option Directive) := (t.splitOn '\n').map outlineOfLine

/-- An empty piece at the end is no line and has no place in an outline. -/
theorem bind_outlineOfLine_lines (t : Text) (i : Nat) :
    (Text.lines t)[i]?.bind outlineOfLine = (outline t)[i]?.bind id := by
  have hpieces : (t.splitOn '\n')[i]?.bind outlineOfLine = (outline t)[i]?.bind id := by
    rw [outline, List.getElem?_map]
    cases (t.splitOn '\n')[i]? <;> rfl
  rw [← hpieces, Text.lines]
  split
  · rename_i hlast
    rw [List.getElem?_dropLast]
    split
    · rfl
    · rename_i hi
      rcases Nat.lt_or_ge i (t.splitOn '\n').length with hlt | hge
      · have hindex : i = (t.splitOn '\n').length - 1 := by omega
        rw [List.getLast?_eq_getElem?, ← hindex] at hlast
        rw [hlast]
        rfl
      · rw [List.getElem?_eq_none hge]
  · rfl

/-- A definition has no place in an outline. -/
theorem outlineOfLine_define {line : Text} (h : Directive.ofLine? line = some .define) :
    outlineOfLine line = none := by
  rw [outlineOfLine, Directive.conditional?, h]
  rfl

/-! ## 2. Where the keyword of a line is decided -/

/-- The start of a line after which a macro may be used without another keyword for the line. -/
structure IsSettled (start : Text) : Prop where
  ne_nil : start ≠ []
  ne_hash : start ≠ ['#']
  word : start.getLast?.any Text.isWordChar = false
  test : (testOpenings.any fun opening => opening.isPrefixOf start) = false

/-- After its `#`, a keyword has word characters only. -/
theorem Keyword.all_isWordChar_tail (k : Keyword) : k.text.tail.all Text.isWordChar = true := by
  cases k with
  | opening form => cases form <;> decide
  | elif => decide
  | otherwise => decide
  | endif => decide
  | define => decide

theorem Keyword.text_eq_cons (k : Keyword) : k.text = '#' :: k.text.tail := by
  cases k with
  | opening form => cases form <;> rfl
  | elif => rfl
  | otherwise => rfl
  | endif => rfl
  | define => rfl

/-- A settled start is no part of a keyword. -/
theorem IsSettled.not_prefix {start : Text} (h : IsSettled start) (k : Keyword) :
    ¬ start <+: k.text := by
  rintro ⟨more, hmore⟩
  obtain ⟨first, tail, rfl⟩ := List.exists_cons_of_ne_nil h.ne_nil
  rw [Keyword.text_eq_cons k, List.cons_append] at hmore
  obtain ⟨rfl, htail⟩ := List.cons.inj hmore
  have hne : tail ≠ [] := fun e => h.ne_hash (by rw [e])
  have hlast := h.word
  rw [List.getLast?_cons, List.getLast?_eq_some_getLast hne] at hlast
  have hword := List.all_eq_true.1 k.all_isWordChar_tail (tail.getLast hne)
    (htail ▸ List.mem_append_left _ (List.getLast_mem hne))
  simp [hword] at hlast

/-- What follows a keyword is decided by a settled start. -/
theorem IsSettled.rest?_append {start : Text} (h : IsSettled start) (k : Keyword) (t : Text) :
    k.rest? (start ++ t) = (k.rest? start).map (· ++ t) := by
  unfold Keyword.rest?
  cases hstart : k.text.isPrefixOf? start with
  | none =>
    have hnone : k.text.isPrefixOf? (start ++ t) = none := by
      rw [Option.eq_none_iff_forall_ne_some]
      intro rest hrest
      have hprefix : k.text <+: start ++ t := ⟨rest, (Text.isPrefixOf?_eq_some_iff.1 hrest).symm⟩
      rcases List.prefix_or_prefix_of_prefix hprefix (List.prefix_append start t) with hk | hk
      · obtain ⟨more, hmore⟩ := hk
        rw [Text.isPrefixOf?_eq_some_iff.2 hmore.symm] at hstart
        cases hstart
      · exact h.not_prefix k hk
    rw [hnone]
    rfl
  | some rest =>
    have happend := Text.isPrefixOf?_eq_some_iff.1 hstart
    have hne : rest ≠ [] := by
      rintro rfl
      exact h.not_prefix k ⟨[], by rw [happend, List.append_nil, List.append_nil]⟩
    have hrest : k.text.isPrefixOf? (start ++ t) = some (rest ++ t) :=
      Text.isPrefixOf?_eq_some_iff.2 (by rw [happend, List.append_assoc])
    obtain ⟨first, more, rfl⟩ := List.exists_cons_of_ne_nil hne
    rw [hrest]
    show (if k.allows first then some _ else none) =
      Option.map _ (if k.allows first then _ else none)
    split <;> rfl

/-- A settled start is none of an `#ifdef` or `#ifndef`. -/
theorem IsSettled.isExpression {start rest : Text} {form : Opening} (h : IsSettled start)
    (hrest : (Keyword.opening form).rest? start = some rest) : form = .expression := by
  unfold Keyword.rest? at hrest
  split at hrest
  · cases hrest
  · rename_i tail htail
    split at hrest
    · rename_i hallows
      have hstart := Text.isPrefixOf?_eq_some_iff.1 htail
      cases tail with
      | nil => exact absurd ⟨[], hstart ▸ by simp⟩ (h.not_prefix (.opening form))
      | cons c more =>
        by_cases hform : form = .expression
        · exact hform
        · -- a space follows, and the line is one in which no macro is used
          have hspace : c = ' ' := by
            cases form with
            | expression => exact absurd rfl hform
            | ifdef => simpa [Keyword.allows, Keyword.takesExpression] using hallows
            | ifndef => simpa [Keyword.allows, Keyword.takesExpression] using hallows
          have hopening : (Keyword.opening form).text ++ [' '] ∈ testOpenings := by
            cases form with
            | expression => exact absurd rfl hform
            | ifdef => decide
            | ifndef => decide
          have hprefix : (Keyword.opening form).text ++ [' '] <+: start :=
            ⟨more, by rw [hstart, hspace, List.append_assoc, List.singleton_append]⟩
          have htest := List.any_eq_false.1 h.test _ hopening
          exact absurd (List.isPrefixOf_iff_prefix.2 hprefix) htest
    · cases hrest

/-- The outline of a line does not depend on what stands behind a settled start of it. -/
theorem outlineOfLine_append {start : Text} (h : IsSettled start) (s t : Text) :
    outlineOfLine (start ++ s) = outlineOfLine (start ++ t) := by
  unfold outlineOfLine Directive.conditional? Directive.ofLine?
  induction Keyword.all with
  | nil => rfl
  | cons k keywords ih =>
    rw [List.findSome?_cons, List.findSome?_cons, h.rest?_append k s, h.rest?_append k t]
    cases hrest : k.rest? start with
    | none => exact ih
    | some rest =>
      cases k with
      | opening form =>
        cases h.isExpression hrest
        rfl
      | elif => rfl
      | otherwise => rfl
      | endif => rfl
      | define => rfl

end Variants
