import Variants.Process
import Variants.Proofs.Final
import Variants.Proofs.LayoutLines
import Variants.Proofs.Reading
import Variants.Proofs.Structure

/-!
# Line breaks from source to variants

Every stage says what it does to the line breaks of its text: reading may end the last line of a
source, the layout keeps them, and expanding puts them back for every definition, except for an
unfinished one, which takes its own with it (`breaks_expand`).

An unfinished definition has line breaks only if it goes on in the next line, and after the layout
no definition does (`finishesDefinitions_prepare`). So it takes none away, unless a use of a macro
has put a backslash at the end of a definition (`breaks_process`).
-/

namespace Variants

open Macro

/-! ## 1. Definitions stay finished -/

/-- What a use puts in continues no definition, and so the text behind it keeps its own. -/
theorem finishesDefinitions_replace {before written text rest : Text}
    (hnew : EndsDefinitions (before ++ text ++ rest.takeWhile (· != '\n')))
    (h : FinishesDefinitions (before ++ (written ++ rest))) :
    FinishesDefinitions (before ++ (text ++ rest)) := by
  obtain ⟨later, hlater⟩ := Text.splitOn_append_line rest
  rw [← List.append_assoc, FinishesDefinitions, hlater] at h ⊢
  cases later with
  | nil =>
    rw [List.append_nil]
    exact hnew.finishes
  | cons next later =>
    rw [List.dropLast_append_of_ne_nil (List.cons_ne_nil next later), List.forall_mem_append] at h ⊢
    exact ⟨hnew, h.2⟩

/-- A pass continues no definition if no use does. -/
theorem finishesDefinitions_expandUses {m : Macro} {line t : Text}
    (huses : ∀ use ∈ m.uses line t, EndsDefinitions use.new)
    (h : FinishesDefinitions (line.reverse ++ t)) :
    FinishesDefinitions (line.reverse ++ (m.expandUses line t).text) := by
  fun_induction expandUses m line t with
  | case1 => exact h
  | case2 => exact h
  | case3 line c t kept rest hstep ih =>
    rw [uses_keep hstep] at huses
    rw [append_of_keep hstep] at h
    obtain ⟨done, hdone⟩ := splitOn_lineAfter line kept
    rw [finishesDefinitions_iff_of_splitOn (hdone _)] at h
    rw [Pass.keeping, finishesDefinitions_iff_of_splitOn (hdone _)]
    exact ⟨h.1, ih huses h.2⟩
  | case4 line c t text rest hstep ih =>
    obtain ⟨_, _, written, hwritten, _⟩ := of_replace hstep
    rw [uses_replace hstep hwritten] at huses
    obtain ⟨hfirst, hlater⟩ := List.forall_mem_cons.1 huses
    rw [hwritten] at h
    have hput := finishesDefinitions_replace hfirst h
    obtain ⟨done, hdone⟩ := splitOn_lineAfter line text
    rw [finishesDefinitions_iff_of_splitOn (hdone _)] at hput
    rw [Pass.replacing, finishesDefinitions_iff_of_splitOn (hdone _)]
    exact ⟨hput.1, ih hlater hput.2⟩

theorem finishesDefinitions_define {enabled : Bool} {definition rest : Text}
    (huses : ∀ use ∈ usesAfter enabled definition rest, EndsDefinitions use.new)
    (h : FinishesDefinitions rest) :
    FinishesDefinitions (define enabled definition rest).1 := by
  rcases define_cases enabled definition rest with hsame | ⟨m, _, hafter, htext⟩
  · rw [hsame]
    exact h
  · rw [hafter] at huses
    rw [htext]
    exact finishesDefinitions_expandUses huses h

/-! ## 2. The line breaks of an expanded text -/

namespace Macro

/-- The text that expanding cuts off: an unfinished definition at the end. -/
def cutOff (enabled : Bool) (t : Text) : Text := (expand enabled t).unfinished.getD []

/-- **Expanding keeps the line breaks that it does not cut off.** -/
theorem breaks_expand (enabled : Bool) (t : Text) :
    Text.breaks (expand enabled t).text + Text.breaks (cutOff enabled t) = Text.breaks t := by
  unfold cutOff
  fun_induction expand enabled t with
  | case1 => rfl
  | case2 t before behind hbefore hbody =>
    rw [cutBefore_append hbefore, Text.breaks_append]
    rfl
  | case3 t before behind hbefore body hbody defined later ih =>
    obtain ⟨hone, hbreaks⟩ := breaks_cutBody hbody
    have hdefined : Text.breaks defined.1 = Text.breaks body.rest :=
      breaks_define enabled body.rest hone
    have hkeyword : Text.breaks Keyword.define.text = 0 := rfl
    have ht : t = before ++ (Keyword.define.text ++ behind) := cutBefore_append hbefore
    have hlater : Text.breaks later.text + Text.breaks (later.unfinished.getD []) =
        Text.breaks defined.1 := ih
    simp only [ht, Text.breaks_append, Text.breaks_blank, hkeyword, hbreaks]
    omega

/-- Nothing is used when macros are not expanded. -/
theorem expansionUses_false (t : Text) : expansionUses false t = [] := by
  fun_induction expansionUses false t with
  | case1 => rfl
  | case2 => rfl
  | case3 t before behind hbefore body hbody ih =>
    rw [ih, List.append_nil, usesAfter]
    split <;> rfl

end Macro

/-- **What is cut off has no line break** if no definition goes on in the next line, neither in the
text nor after a use. -/
theorem breaks_cutOff {enabled : Bool} {t : Text} (hfinished : FinishesDefinitions t)
    (huses : ∀ use ∈ expansionUses enabled t, EndsDefinitions use.new) :
    Text.breaks (cutOff enabled t) = 0 := by
  unfold cutOff
  fun_induction expand enabled t with
  | case1 => rfl
  | case2 t before behind hbefore hbody =>
    obtain ⟨line, _, hbreak, ⟨ht, _⟩ | ⟨_, _, _, _, hsome⟩⟩ :=
      exists_line_of_cutBefore hbefore hfinished
    · -- what is cut off is the last line of the text
      have hline : Keyword.define.text ++ behind = line :=
        List.append_cancel_left ((cutBefore_append hbefore).symm.trans ht)
      rw [Option.getD_some, hline]
      exact Text.breaks_eq_zero.2 hbreak
    · cases hbody.symm.trans hsome
  | case3 t before behind hbefore body hbody defined later ih =>
    obtain ⟨line, _, hbreak, ⟨_, hnone⟩ | ⟨d, rest, ht, _, hsome⟩⟩ :=
      exists_line_of_cutBefore hbefore hfinished
    · cases hbody.symm.trans hnone
    cases hbody.symm.trans hsome
    -- the definition takes one line, and its uses continue none of the definitions after it
    obtain ⟨done, hpieces⟩ := exists_splitOn_of_line hbefore ht hbreak
    have hrest := ((finishesDefinitions_iff_of_splitOn hpieces).1 hfinished).2
    rw [expansionUses_defined hbefore hsome, List.forall_mem_append] at huses
    exact ih (finishesDefinitions_define huses.1 hrest) huses.2

/-! ## 3. The line breaks of a processed source -/

/-- The layout leaves no definition that goes on in the next line. -/
theorem finishesDefinitions_prepare (source : Text) : FinishesDefinitions (prepare source) := by
  rintro line hline ⟨_, hback⟩
  have hends := Layout.isContinued_normalize (Source.read source) line hline
  rw [Layout.isContinued, hback] at hends
  cases hends

/-- The line breaks of the text whose macros are expanded. -/
theorem breaks_prepare (source : Text) :
    Text.breaks (prepare source) = Text.breaks (Source.unifyBreaks source) +
      if Source.endsInLineComment (Source.unifyBreaks source) = true then 1 else 0 := by
  rw [prepare, Layout.breaks_normalize, Source.breaks_read]

/-- **Line breaks end to end.** A processed source has the line breaks of the source, one more if
it ends in a line comment, less those of the unfinished definition that expanding cuts off. So none
is lost unless a use of a macro continues a definition in the next line. The code of every
configuration has a line break for every line of the processed text. -/
theorem breaks_process (options : Options) (source : Text) :
    Text.breaks (process options source).text +
          Text.breaks (cutOff options.expandMacros (prepare source)) =
        Text.breaks (Source.unifyBreaks source) +
          (if Source.endsInLineComment (Source.unifyBreaks source) = true then 1 else 0) ∧
      (options.expandMacros = false ∨
          (∀ use ∈ expansionUses options.expandMacros (prepare source), EndsDefinitions use.new) →
        Text.breaks (Source.unifyBreaks source) ≤ Text.breaks (process options source).text) ∧
      ∀ key : Text, Text.breaks ((process options source).code key) =
        (Text.lines (process options source).text).length := by
  have htotal : Text.breaks (process options source).text +
      Text.breaks (cutOff options.expandMacros (prepare source)) =
        Text.breaks (Source.unifyBreaks source) +
          if Source.endsInLineComment (Source.unifyBreaks source) = true then 1 else 0 :=
    (breaks_expand options.expandMacros (prepare source)).trans (breaks_prepare source)
  refine ⟨htotal, fun hcase => ?_, Configuration.breaks_select _⟩
  have huses : ∀ use ∈ expansionUses options.expandMacros (prepare source),
      EndsDefinitions use.new := by
    rcases hcase with hoff | huses
    · rw [hoff, expansionUses_false]
      exact fun use huse => absurd huse List.not_mem_nil
    · exact huses
  have hnone := breaks_cutOff (finishesDefinitions_prepare source) huses
  omega

/-- A definition and a call over two lines each, and a line comment at the end. -/
theorem breaks_process_call :
    (∀ use ∈ expansionUses true (prepare "#define F(x) \\\nx\nF(1\n) // end".toList),
        EndsDefinitions use.new) ∧
      (process .standard "#define F(x) \\\nx\nF(1\n) // end".toList).text = "\n\n1\n\n".toList ∧
      3 ≤ Text.breaks (process .standard "#define F(x) \\\nx\nF(1\n) // end".toList).text := by
  have huses : ∀ use ∈ expansionUses true (prepare "#define F(x) \\\nx\nF(1\n) // end".toList),
      EndsDefinitions use.new := by
    decide +kernel
  exact ⟨huses, by decide +kernel, (breaks_process .standard _).2.1 (Or.inr huses)⟩

/-- A use that continues the last definition takes a line break away. -/
theorem breaks_process_lt :
    Text.breaks (process .standard "#define F(x) \\x\n#define Y F()\n".toList).text <
      Text.breaks (Source.unifyBreaks "#define F(x) \\x\n#define Y F()\n".toList) := by
  decide +kernel

end Variants
