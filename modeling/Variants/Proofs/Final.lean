import Variants.Proofs.Enumeration
import Variants.Proofs.Selection

/-!
# Selected code is final

Whatever directives a text holds, matched or not, the code that is selected from it has the lines of
the text, each as it is or empty, and none of them looks like a conditional directive. A text that
has no such lines has only the baseline, and every key selects all of it (`enumerate_eq_nil`,
`selectLines_eq_self`). So selecting leaves nothing to select (`select_final`).
-/

namespace Variants.Configuration

/-! ## 1. Line by line -/

theorem length_selectLines (symbols : List Text) : ∀ (sections : List Section) (ls : List Text),
    (selectLines symbols sections ls).length = ls.length
  | _, [] => rfl
  | sections, line :: rest => by
    rw [selectLines, List.length_cons, length_selectLines symbols, List.length_cons]

theorem selectLine_eq_nil_or (sections : List Section) (line : Text) :
    selectLine sections line = [] ∨ selectLine sections line = line := by
  unfold selectLine
  split
  · exact Or.inr rfl
  · exact Or.inl rfl

/-- What is kept of a line does not look like a conditional directive. -/
theorem looksConditional_selectLine (sections : List Section) (line : Text) :
    looksConditional (selectLine sections line) = false := by
  unfold selectLine
  split
  · rename_i h
    rw [Bool.and_eq_true, Bool.not_eq_true'] at h
    exact h.2
  · rfl

/-- A selected line is empty or the line of its number. -/
theorem getElem?_selectLines (symbols : List Text) : ∀ (sections : List Section) (ls : List Text)
    (i : Nat), (selectLines symbols sections ls)[i]? = some [] ∨
      (selectLines symbols sections ls)[i]? = ls[i]?
  | _, [], _ => Or.inr rfl
  | sections, line :: rest, 0 => by
    rw [selectLines, List.getElem?_cons_zero, List.getElem?_cons_zero]
    exact (selectLine_eq_nil_or _ line).imp (congrArg some) (congrArg some)
  | sections, line :: rest, i + 1 => by
    rw [selectLines, List.getElem?_cons_succ, List.getElem?_cons_succ]
    exact getElem?_selectLines symbols _ rest i

/-- Every selected line is what some open sections keep of a line. -/
theorem exists_of_mem_selectLines {symbols : List Text} {out : Text} :
    ∀ {sections : List Section} {ls : List Text}, out ∈ selectLines symbols sections ls →
      ∃ around, ∃ line ∈ ls, out = selectLine around line
  | _, [], h => absurd h List.not_mem_nil
  | sections, line :: rest, h => by
    rcases List.mem_cons.1 h with rfl | h
    · exact ⟨_, line, List.mem_cons_self, rfl⟩
    · obtain ⟨around, other, hother, hout⟩ := exists_of_mem_selectLines h
      exact ⟨around, other, List.mem_cons_of_mem line hother, hout⟩

/-- A selected line has no line break. -/
theorem newline_not_mem_selectLines {t out : Text} {symbols : List Text} {sections : List Section}
    (h : out ∈ selectLines symbols sections (Text.lines t)) : '\n' ∉ out := by
  obtain ⟨around, line, hline, rfl⟩ := exists_of_mem_selectLines h
  rcases selectLine_eq_nil_or around line with hkept | hkept
  · rw [hkept]
    exact List.not_mem_nil
  · rw [hkept]
    exact Text.newline_not_mem_line hline

/-- **The lines of the selected code** are the selected lines. -/
theorem lines_select_eq (t key : Text) :
    Text.lines (select t key) = selectLines (segments key) [] (Text.lines t) :=
  Text.lines_flatMap fun _ hout => newline_not_mem_selectLines hout

/-- The selected code has a line break for every line of the text. -/
theorem breaks_select (t key : Text) :
    Text.breaks (select t key) = (Text.lines t).length := by
  rw [select, Text.breaks_flatMap fun _ hout => newline_not_mem_selectLines hout,
    length_selectLines]

theorem looksConditional_of_mem_select {t key line : Text}
    (h : line ∈ Text.lines (select t key)) : looksConditional line = false := by
  rw [lines_select_eq] at h
  obtain ⟨around, other, _, rfl⟩ := exists_of_mem_selectLines h
  exact looksConditional_selectLine around other

/-! ## 2. Text without conditional directives -/

theorem conditional?_eq_none {line : Text} (h : looksConditional line = false) :
    Directive.conditional? line = none := by
  rw [Option.eq_none_iff_forall_ne_some]
  intro directive hdirective
  rw [looksConditional_of_conditional? hdirective] at h
  cases h

section Plain

variable {ls : List Text} (h : ∀ line ∈ ls, looksConditional line = false)

include h

/-- Outside all sections, every key keeps such lines as they are. -/
theorem selectLines_eq_self (symbols : List Text) : selectLines symbols [] ls = ls := by
  induction ls with
  | nil => rfl
  | cons line rest ih =>
    have hline := h line List.mem_cons_self
    have hkept : selectLine [] line = line := by
      rw [selectLine, hline]
      rfl
    rw [selectLines, advanceLine_plain (conditional?_eq_none hline), hkept,
      ih fun other hother => h other (List.mem_cons_of_mem line hother)]

/-- Such lines start no branch. -/
theorem branchPaths_eq_nil (path : List Condition) :
    branchPaths path (Directive.ofLines ls) = [] := by
  induction ls with
  | nil => rfl
  | cons line rest ih =>
    rw [branchPaths_plain (conditional?_eq_none (h line List.mem_cons_self)),
      ih fun other hother => h other (List.mem_cons_of_mem line hother)]

end Plain

/-- A text without conditional directives has only the baseline. -/
theorem enumerate_eq_nil {t : Text} (h : ∀ line ∈ Text.lines t, looksConditional line = false) :
    enumerate t = [[]] := by
  rw [enumerate, branchKeys, branchPaths_eq_nil h]
  rfl

/-! ## 3. Selecting again -/

/-- **Selected code is final.** For any text it is made of as many ended lines as the text has, each
of them empty or the line of its number, and none starts like a conditional directive. Its only
configuration is the baseline, and selecting any key from it changes nothing. -/
theorem select_final (t key other : Text) :
    (select t key = (Text.lines (select t key)).flatMap fun line => line ++ ['\n']) ∧
      (Text.lines (select t key)).length = (Text.lines t).length ∧
      (∀ i : Nat, (Text.lines (select t key))[i]? = some [] ∨
        (Text.lines (select t key))[i]? = (Text.lines t)[i]?) ∧
      (∀ line ∈ Text.lines (select t key), ∀ opening ∈ ["#if", "#el", "#endif"],
        ¬ opening.toList <+: line) ∧
      enumerate (select t key) = [[]] ∧ select (select t key) other = select t key := by
  have hlines := lines_select_eq t key
  have hended : select t key = (Text.lines (select t key)).flatMap fun line => line ++ ['\n'] := by
    rw [hlines, select]
  have hplain : ∀ line ∈ Text.lines (select t key), looksConditional line = false :=
    fun line => looksConditional_of_mem_select
  refine ⟨hended, ?_, ?_, ?_, enumerate_eq_nil hplain, ?_⟩
  · rw [hlines, length_selectLines]
  · rw [hlines]
    exact getElem?_selectLines (segments key) [] (Text.lines t)
  · intro line hline opening hopening hprefix
    have hlooks : looksConditional line = true := by
      refine List.any_eq_true.2 ⟨opening.toList, ?_, List.isPrefixOf_iff_prefix.2 hprefix⟩
      exact List.mem_map_of_mem hopening
    rw [hplain line hline] at hlooks
    cases hlooks
  · rw [select, selectLines_eq_self hplain, ← hended]

end Variants.Configuration
