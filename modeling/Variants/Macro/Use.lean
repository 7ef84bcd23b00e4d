import Variants.Macro.Basic
import Variants.Macro.Call
import Variants.Text.Number

/-!
# One pass of a macro over a text

A pass goes over the text once, from left to right, and replaces the uses of one macro. It takes one
`Step` after the other: it keeps a character, or at an occurrence of the name it keeps the name,
replaces the use, or ends because the macro is redefined. The next step starts behind what was kept
or replaced, so nothing that was put in is looked at again.

Main statements: every step shortens the text that is left (`length_step_lt`), and a pass keeps the
number of line breaks (`breaks_expandUses`), since those inside a call are put behind its
replacement.
-/

namespace Variants.Macro

/-! ## 1. Steps -/

/-- What stands before the name on a line that redefines a macro. -/
def redefinition : Text := ['#', 'd', 'e', 'f', 'i', 'n', 'e', ' ']

/-- The starts of lines in which no macro is used. -/
def testOpenings : List Text :=
  [['#', 'i', 'f', 'd', 'e', 'f', ' '], ['#', 'i', 'f', 'n', 'd', 'e', 'f', ' ']]

/-- A step of a pass: some text is kept, some text is put in for a use, or the pass ends. `rest` is
the text that is left after the step. -/
inductive Step where
  | keep (kept rest : Text)
  | replace (text rest : Text)
  | stop
  deriving DecidableEq, Repr

/-- Whether a text goes on with a word character. -/
def startsWithWord (t : Text) : Bool := t.head?.any Text.isWordChar

/-- The step at an occurrence of the name. `line` is the line before it, from its end to its start,
and `rest` is the text behind the name. -/
def stepAtName (m : Macro) (line rest : Text) : Step :=
  if startsWithWord line then .keep m.name rest
  else if line.reverse = redefinition then
    if startsWithWord rest then .keep m.name rest else .stop
  else if testOpenings.any (·.isPrefixOf line.reverse) then .keep m.name rest
  else if m.isFunctionLike then
    match Call.read? rest with
    | none => .keep m.name rest
    | some call =>
      if call.arguments.length = m.parameters.length then
        .replace (m.replacement call.arguments ++ Text.blank (Text.breaks m.name + call.breaks))
          call.rest
      else .keep m.name rest
  else if startsWithWord rest then .keep m.name rest
  else .replace (m.replacement [] ++ Text.blank (Text.breaks m.name)) rest

/-- The step at the text `c :: t`. -/
def step (m : Macro) (line : Text) (c : Char) (t : Text) : Step :=
  match m.name.isPrefixOf? (c :: t) with
  | none => .keep [c] t
  | some rest => if m.name = [] then .keep [c] t else m.stepAtName line rest

/-! ## 2. What a step leaves -/

/-- The text that is left after a step. -/
def Step.rest? : Step → Option Text
  | .keep _ rest => some rest
  | .replace _ rest => some rest
  | .stop => none

/-- The text of a step, kept or put in. -/
def Step.text : Step → Text
  | .keep kept _ => kept
  | .replace text _ => text
  | .stop => []

theorem length_stepAtName_le {m : Macro} {line rest after : Text}
    (h : (m.stepAtName line rest).rest? = some after) : after.length ≤ rest.length := by
  unfold stepAtName at h
  repeat' split at h
  all_goals simp only [Step.rest?, Option.some.injEq, reduceCtorEq] at h
  all_goals subst h
  all_goals try exact Nat.le_refl _
  rename_i call hcall _
  exact Nat.le_of_lt (Call.length_rest_lt hcall)

/-- **Every step shortens the text that is left.** -/
theorem length_step_lt {m : Macro} {line t after : Text} {c : Char}
    (h : (m.step line c t).rest? = some after) : after.length < (c :: t).length := by
  unfold step at h
  split at h
  · simp only [Step.rest?, Option.some.injEq] at h
    subst h
    simp
  · rename_i rest hrest
    split at h
    · simp only [Step.rest?, Option.some.injEq] at h
      subst h
      simp
    · rename_i hname
      have hle := length_stepAtName_le h
      have hsplit := congrArg List.length (Text.isPrefixOf?_eq_some_iff.1 hrest)
      have hpos := List.length_pos_iff.2 hname
      simp only [List.length_append] at hsplit
      omega

/-! ## 3. The pass -/

/-- The line that ends with some text, from its end to its start, where `line` stands before it. -/
def lineAfter (line written : Text) : Text :=
  written.foldl (fun before c => if c = '\n' then [] else c :: before) line

/-- The outcome of a pass: the new text, the number of uses replaced, and whether the pass ended at
a redefinition. -/
structure Pass where
  text : Text
  count : Nat
  redefined : Bool
  deriving DecidableEq, Repr

namespace Pass

/-- Puts kept text in front. -/
def keeping (written : Text) (pass : Pass) : Pass :=
  ⟨written ++ pass.text, pass.count, pass.redefined⟩

/-- Puts a replacement in front. -/
def replacing (written : Text) (pass : Pass) : Pass :=
  ⟨written ++ pass.text, pass.count + 1, pass.redefined⟩

end Pass

/-- Replaces the uses of a macro in a text. `line` is the line before the text, from its end to its
start. -/
def expandUses (m : Macro) (line : Text) : Text → Pass
  | [] => ⟨[], 0, false⟩
  | c :: t =>
    match _hstep : m.step line c t with
    | .stop => ⟨c :: t, 0, true⟩
    | .keep kept rest => (expandUses m (lineAfter line kept) rest).keeping kept
    | .replace text rest => (expandUses m (lineAfter line text) rest).replacing text
termination_by t => t.length
decreasing_by
  · exact length_step_lt (by rw [_hstep]; rfl)
  · exact length_step_lt (by rw [_hstep]; rfl)

section Steps

variable {m : Macro} {line t kept text rest : Text} {c : Char}

theorem expandUses_stop (h : m.step line c t = .stop) :
    m.expandUses line (c :: t) = ⟨c :: t, 0, true⟩ := by
  rw [expandUses]
  split
  · rfl
  · rename_i hstep
    cases h.symm.trans hstep
  · rename_i hstep
    cases h.symm.trans hstep

theorem expandUses_keep (h : m.step line c t = .keep kept rest) :
    m.expandUses line (c :: t) = (m.expandUses (lineAfter line kept) rest).keeping kept := by
  rw [expandUses]
  split
  · rename_i hstep
    cases h.symm.trans hstep
  · rename_i hstep
    cases h.symm.trans hstep
    rfl
  · rename_i hstep
    cases h.symm.trans hstep

theorem expandUses_replace (h : m.step line c t = .replace text rest) :
    m.expandUses line (c :: t) = (m.expandUses (lineAfter line text) rest).replacing text := by
  rw [expandUses]
  split
  · rename_i hstep
    cases h.symm.trans hstep
  · rename_i hstep
    cases h.symm.trans hstep
  · rename_i hstep
    cases h.symm.trans hstep
    rfl

end Steps

/-! ## 4. Line breaks in a pass -/

theorem breaks_stepAtName {m : Macro} {line rest after : Text}
    (hbody : ∀ token ∈ m.body, Text.breaks token.lexeme = 0)
    (h : (m.stepAtName line rest).rest? = some after) :
    Text.breaks (m.stepAtName line rest).text + Text.breaks after =
      Text.breaks m.name + Text.breaks rest := by
  revert h
  unfold stepAtName
  repeat' split
  all_goals simp only [Step.rest?, Step.text, Option.some.injEq, reduceCtorEq, false_implies]
  all_goals intro h; subst h
  all_goals try rfl
  · rename_i call hcall _
    have hargs : ∀ argument ∈ call.arguments, Text.breaks argument = 0 := by
      intro argument hmem
      obtain ⟨piece, _, rfl⟩ := List.mem_map.1 hmem
      exact Call.breaks_argument piece
    have := Call.breaks_add hcall
    simp only [Text.breaks_append, breaks_replacement hbody hargs, Text.breaks_blank]
    omega
  · have hargs : ∀ argument ∈ ([] : List Text), Text.breaks argument = 0 := by simp
    simp only [Text.breaks_append, breaks_replacement hbody hargs, Text.breaks_blank]
    omega

/-- The text of a step and the text that is left have the line breaks of the text before it. -/
theorem breaks_step {m : Macro} {line t after : Text} {c : Char}
    (hbody : ∀ token ∈ m.body, Text.breaks token.lexeme = 0)
    (h : (m.step line c t).rest? = some after) :
    Text.breaks (m.step line c t).text + Text.breaks after = Text.breaks (c :: t) := by
  have hkeep : Text.breaks [c] + Text.breaks t = Text.breaks (c :: t) := by
    rw [← Text.breaks_append, List.singleton_append]
  revert h
  unfold step
  split
  · intro h
    simp only [Step.rest?, Option.some.injEq] at h
    subst h
    exact hkeep
  · rename_i rest hrest
    split
    · intro h
      simp only [Step.rest?, Option.some.injEq] at h
      subst h
      exact hkeep
    · intro h
      rw [breaks_stepAtName hbody h, Text.isPrefixOf?_eq_some_iff.1 hrest, Text.breaks_append]

/-- **A pass keeps the number of line breaks.** -/
theorem breaks_expandUses {m : Macro} (hbody : ∀ token ∈ m.body, Text.breaks token.lexeme = 0)
    (line t : Text) : Text.breaks (m.expandUses line t).text = Text.breaks t := by
  fun_induction expandUses m line t with
  | case1 => rfl
  | case2 => rfl
  | case3 line c t kept rest hstep ih =>
    have := breaks_step hbody (show (m.step line c t).rest? = some rest by rw [hstep]; rfl)
    rw [hstep] at this
    simpa only [Pass.keeping, Text.breaks_append, ih, Step.text] using this
  | case4 line c t text rest hstep ih =>
    have := breaks_step hbody (show (m.step line c t).rest? = some rest by rw [hstep]; rfl)
    rw [hstep] at this
    simpa only [Pass.replacing, Text.breaks_append, ih, Step.text] using this

end Variants.Macro
