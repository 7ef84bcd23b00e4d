import Variants.Macro.Use
import Variants.Proofs.DefinitionLine

/-!
# What the uses of a macro do to the outline

A pass goes over the text and puts something in for every use (`Macro.uses`). A use may come first
on a line or take in line breaks, and then it can make a directive, rename it or take it away. A use
is harmless when it does none of this to its own lines and leaves no definition with a backslash at
its end, which would go on in the next line (`Use.IsHarmless`).

* A use in the middle of a line leaves the outline alone (`outline_new`).
* So does a pass with harmless uses, and it leaves no such definition (`keepsOutline_expandUses`).
-/

namespace Variants

open Macro

/-! ## 1. Uses -/

/-- A use of a macro: what stands before it on its line, what is replaced, what is put in, and what
stands behind it on the line where it ends. -/
structure Use where
  before : Text
  written : Text
  text : Text
  behind : Text
  deriving DecidableEq, Repr

namespace Use

/-- The lines of a use before the replacement. -/
def old (use : Use) : Text := use.before ++ use.written ++ use.behind

/-- The lines of a use after the replacement. -/
def new (use : Use) : Text := use.before ++ use.text ++ use.behind

end Use

/-- A use is harmless when, at the start of a line, behind a `#` there or with a line break in it,
it keeps the outline of its lines, and when the definitions in these lines end there. -/
def Use.IsHarmless (use : Use) : Prop :=
  (use.before = [] ∨ use.before = ['#'] ∨ '\n' ∈ use.written → outline use.new = outline use.old) ∧
    EndsDefinitions use.new

instance (use : Use) : Decidable use.IsHarmless :=
  inferInstanceAs (Decidable ((_ → _) ∧ _))

namespace Macro

/-- The uses of a macro in a text, as a pass meets them. `line` is the line before the text, from
its end to its start. -/
def uses (m : Macro) (line : Text) : Text → List Use
  | [] => []
  | c :: t =>
    match _hstep : m.step line c t with
    | .stop => []
    | .keep kept rest => uses m (lineAfter line kept) rest
    | .replace text rest =>
      ⟨line.reverse, (c :: t).take ((c :: t).length - rest.length), text,
        rest.takeWhile (· != '\n')⟩ :: uses m (lineAfter line text) rest
termination_by t => t.length
decreasing_by
  · exact length_step_lt (by rw [_hstep]; rfl)
  · exact length_step_lt (by rw [_hstep]; rfl)

variable {m : Macro} {line t kept text rest : Text} {c : Char}

theorem uses_stop (h : m.step line c t = .stop) : m.uses line (c :: t) = [] := by
  rw [uses]
  split
  · rfl
  · rename_i hstep
    cases h.symm.trans hstep
  · rename_i hstep
    cases h.symm.trans hstep

theorem uses_keep (h : m.step line c t = .keep kept rest) :
    m.uses line (c :: t) = m.uses (lineAfter line kept) rest := by
  rw [uses]
  split
  · rename_i hstep
    cases h.symm.trans hstep
  · rename_i hstep
    cases h.symm.trans hstep
    rfl
  · rename_i hstep
    cases h.symm.trans hstep

theorem uses_replace (h : m.step line c t = .replace text rest) {written : Text}
    (hwritten : c :: t = written ++ rest) :
    m.uses line (c :: t) =
      ⟨line.reverse, written, text, rest.takeWhile (· != '\n')⟩ ::
        m.uses (lineAfter line text) rest := by
  have htake : (c :: t).take ((c :: t).length - rest.length) = written := by
    rw [hwritten, List.length_append, Nat.add_sub_cancel, List.take_left]
  rw [uses]
  split
  · rename_i hstep
    cases h.symm.trans hstep
  · rename_i hstep
    cases h.symm.trans hstep
  · rename_i hstep
    cases h.symm.trans hstep
    rw [htake]

/-! ## 2. What a step replaces -/

/-- Kept text is the text that stands there. -/
theorem append_of_keep (h : m.step line c t = .keep kept rest) : c :: t = kept ++ rest := by
  unfold step at h
  split at h
  · cases h
    rfl
  · rename_i behind hbehind
    have hname := Text.isPrefixOf?_eq_some_iff.1 hbehind
    split at h
    · cases h
      rfl
    · unfold stepAtName at h
      repeat' split at h
      all_goals cases h
      all_goals exact hname

/-- A use stands behind no word character and on no line that tests a symbol, and it is written with
the name of the macro, perhaps with a call behind it. -/
theorem of_replace (h : m.step line c t = .replace text rest) :
    startsWithWord line = false ∧
      (testOpenings.any fun opening => opening.isPrefixOf line.reverse) = false ∧
      ∃ written, c :: t = written ++ rest ∧ (written = m.name ∨ written.getLast? = some ')') := by
  unfold step at h
  split at h
  · cases h
  · rename_i behind hbehind
    have hname := Text.isPrefixOf?_eq_some_iff.1 hbehind
    split at h
    · cases h
    · unfold stepAtName at h
      repeat' split at h
      all_goals cases h
      · rename_i hword _ htest _ _ call hcall _
        refine ⟨Bool.not_eq_true _ ▸ hword, Bool.not_eq_true _ ▸ htest,
          m.name ++ ('(' :: call.inside ++ [')']), ?_, Or.inr ?_⟩
        · rw [hname, ← Call.read?_append hcall]
          simp
        · rw [← List.append_assoc, List.getLast?_concat]
      · rename_i hword _ htest _ _
        exact ⟨Bool.not_eq_true _ ▸ hword, Bool.not_eq_true _ ▸ htest, m.name, hname, Or.inl rfl⟩

/-- What stands before a use is settled, unless the use comes first on its line or behind a `#`. -/
theorem isSettled_of_replace (h : m.step line c t = .replace text rest)
    (hnil : line.reverse ≠ []) (hhash : line.reverse ≠ ['#']) : IsSettled line.reverse := by
  obtain ⟨hword, htest, _⟩ := of_replace h
  refine ⟨hnil, hhash, ?_, htest⟩
  rw [List.getLast?_reverse]
  exact hword

end Macro

/-! ## 3. Texts of one outline -/

/-- The pieces before the line that some text ends with, whatever follows the text. -/
theorem splitOn_lineAfter (line written : Text) : ∃ done, ∀ t : Text,
    (line.reverse ++ (written ++ t)).splitOn '\n' =
      done ++ ((lineAfter line written).reverse ++ t).splitOn '\n' := by
  induction written generalizing line with
  | nil => exact ⟨[], fun t => rfl⟩
  | cons c written ih =>
    by_cases hc : c = '\n'
    · obtain ⟨done, hdone⟩ := ih []
      refine ⟨line.reverse.splitOn '\n' ++ done, fun t => ?_⟩
      have hafter : lineAfter line (c :: written) = lineAfter [] written := by
        rw [lineAfter, List.foldl_cons, if_pos hc, lineAfter]
      rw [hafter, List.append_assoc, ← hdone t, hc, List.cons_append,
        List.splitOn_append_cons_self, List.reverse_nil, List.nil_append]
    · obtain ⟨done, hdone⟩ := ih (c :: line)
      refine ⟨done, fun t => ?_⟩
      have hafter : lineAfter line (c :: written) = lineAfter (c :: line) written := by
        rw [lineAfter, List.foldl_cons, if_neg hc, lineAfter]
      rw [hafter, ← hdone t, List.reverse_cons, List.append_assoc, List.singleton_append,
        List.cons_append]

/-- A text has the outline of another one, and its definitions end on their lines if those of the
other one do. -/
structure KeepsOutline (s t : Text) : Prop where
  outline_eq : outline t = outline s
  ends : EndsDefinitions s → EndsDefinitions t

namespace KeepsOutline

theorem refl (t : Text) : KeepsOutline t t := ⟨rfl, id⟩

theorem trans {r s t : Text} (h : KeepsOutline r s) (h' : KeepsOutline s t) : KeepsOutline r t :=
  ⟨h'.outline_eq.trans h.outline_eq, h'.ends ∘ h.ends⟩

/-- The pieces before the same last line change nothing. -/
theorem of_lineAfter {line written s t : Text}
    (h : KeepsOutline ((lineAfter line written).reverse ++ s)
      ((lineAfter line written).reverse ++ t)) :
    KeepsOutline (line.reverse ++ (written ++ s)) (line.reverse ++ (written ++ t)) := by
  obtain ⟨done, hdone⟩ := splitOn_lineAfter line written
  obtain ⟨hsame, hends⟩ := h
  refine ⟨?_, ?_⟩
  · rw [outline, outline, hdone, hdone, List.map_append, List.map_append]
    exact congrArg _ hsame
  · intro hs piece hpiece
    rw [EndsDefinitions, hdone] at hs
    rw [hdone] at hpiece
    rcases List.mem_append.1 hpiece with hpiece | hpiece
    · exact hs piece (List.mem_append_left _ hpiece)
    · exact hends (fun other hother => hs other (List.mem_append_right _ hother)) piece hpiece

end KeepsOutline

/-! ## 4. A single use -/

section Single

variable {m : Macro} {line t text rest written : Text} {c : Char}
  (hbody : ∀ token ∈ m.body, Text.breaks token.lexeme = 0)
  (hline : '\n' ∉ line) (hstep : m.step line c t = .replace text rest)
  (hwritten : c :: t = written ++ rest)

include hbody hline hstep hwritten

/-- **A harmless use keeps the outline of its lines.** -/
theorem outline_new
    (h : Use.IsHarmless ⟨line.reverse, written, text, rest.takeWhile (· != '\n')⟩) :
    outline (line.reverse ++ text ++ rest.takeWhile (· != '\n')) =
      outline (line.reverse ++ written ++ rest.takeWhile (· != '\n')) := by
  by_cases hguard : line.reverse = [] ∨ line.reverse = ['#'] ∨ '\n' ∈ written
  · exact h.1 hguard
  · obtain ⟨hnil, hguard⟩ := not_or.1 hguard
    obtain ⟨hhash, hin⟩ := not_or.1 hguard
    have hsettled := isSettled_of_replace hstep hnil hhash
    have hput : '\n' ∉ text := by
      have hrest : (m.step line c t).rest? = some rest := by rw [hstep]; rfl
      have hbreaks := breaks_step hbody hrest
      rw [hstep, hwritten, Text.breaks_append, Nat.add_right_cancel_iff] at hbreaks
      rw [← Text.breaks_eq_zero]
      exact hbreaks.trans (Text.breaks_eq_zero.2 hin)
    have hbehind := Text.newline_not_mem_takeWhile rest
    have hsingle : ∀ s : Text, '\n' ∉ s →
        outline (line.reverse ++ s ++ rest.takeWhile (· != '\n')) =
          [outlineOfLine (line.reverse ++ (s ++ rest.takeWhile (· != '\n')))] := by
      intro s hs
      rw [outline, List.append_assoc, List.splitOn_eq_singleton, List.map_singleton]
      rw [List.mem_append, List.mem_append, List.mem_reverse]
      exact fun hmem => hmem.elim hline fun hmem => hmem.elim hs hbehind
    rw [hsingle text hput, hsingle written hin]
    exact congrArg (fun o => [o]) (outlineOfLine_append hsettled _ _)

/-- The same with the text behind the use. -/
theorem keepsOutline_replace
    (h : Use.IsHarmless ⟨line.reverse, written, text, rest.takeWhile (· != '\n')⟩) :
    KeepsOutline (line.reverse ++ (written ++ rest)) (line.reverse ++ (text ++ rest)) := by
  obtain ⟨later, hlater⟩ := Text.splitOn_append_line rest
  have hsame := outline_new hbody hline hstep hwritten h
  rw [← List.append_assoc, ← List.append_assoc]
  refine ⟨?_, ?_⟩
  · rw [outline, outline, hlater, hlater, List.map_append, List.map_append]
    exact congrArg (· ++ later.map outlineOfLine) hsame
  · intro hends piece hpiece
    rw [EndsDefinitions, hlater] at hends
    rw [hlater] at hpiece
    rcases List.mem_append.1 hpiece with hpiece | hpiece
    · exact h.2 piece hpiece
    · exact hends piece (List.mem_append_right _ hpiece)

end Single

/-! ## 5. A pass -/

section Pass

variable {m : Macro}

/-- The uses are those that the pass counts. -/
theorem length_uses (line t : Text) : (m.uses line t).length = (m.expandUses line t).count := by
  fun_induction expandUses m line t with
  | case1 => rw [uses, List.length_nil]
  | case2 line c t hstep => rw [uses_stop hstep, List.length_nil]
  | case3 line c t kept rest hstep ih =>
    rw [uses_keep hstep, ih]
    rfl
  | case4 line c t text rest hstep ih =>
    obtain ⟨_, _, written, hwritten, _⟩ := of_replace hstep
    rw [uses_replace hstep hwritten, List.length_cons, ih]
    rfl

theorem newline_not_mem_lineAfter {line : Text} (h : '\n' ∉ line) (written : Text) :
    '\n' ∉ lineAfter line written := by
  induction written generalizing line with
  | nil => exact h
  | cons c written ih =>
    rw [lineAfter, List.foldl_cons]
    split
    · exact ih List.not_mem_nil
    · rename_i hc
      exact ih (List.not_mem_cons_of_ne_of_not_mem (fun e => hc e.symm) h)

/-- **A pass with harmless uses keeps the outline.** -/
theorem keepsOutline_expandUses (hbody : ∀ token ∈ m.body, Text.breaks token.lexeme = 0)
    {line t : Text} (hline : '\n' ∉ line) (h : ∀ use ∈ m.uses line t, use.IsHarmless) :
    KeepsOutline (line.reverse ++ t) (line.reverse ++ (m.expandUses line t).text) := by
  fun_induction expandUses m line t with
  | case1 => exact KeepsOutline.refl _
  | case2 => exact KeepsOutline.refl _
  | case3 line c t kept rest hstep ih =>
    rw [uses_keep hstep] at h
    rw [append_of_keep hstep]
    exact KeepsOutline.of_lineAfter (ih (newline_not_mem_lineAfter hline kept) h)
  | case4 line c t text rest hstep ih =>
    obtain ⟨_, _, written, hwritten, _⟩ := of_replace hstep
    rw [uses_replace hstep hwritten] at h
    obtain ⟨hfirst, hlater⟩ := List.forall_mem_cons.1 h
    rw [hwritten]
    refine (keepsOutline_replace hbody hline hstep hwritten hfirst).trans ?_
    exact KeepsOutline.of_lineAfter (ih (newline_not_mem_lineAfter hline text) hlater)

/-- A pass keeps the line break at the end of a text. -/
theorem getLast?_expandUses (hname : '\n' ∉ m.name) {line t : Text} (h : t.getLast? = some '\n') :
    (m.expandUses line t).text.getLast? = some '\n' := by
  fun_induction expandUses m line t with
  | case1 => exact h
  | case2 => exact h
  | case3 line c t kept rest hstep ih =>
    rw [append_of_keep hstep, List.getLast?_append] at h
    rw [Pass.keeping, List.getLast?_append]
    cases hrest : rest.getLast? with
    | none =>
      rw [List.getLast?_eq_none_iff] at hrest
      subst hrest
      rw [expandUses]
      exact h
    | some d =>
      rw [hrest] at h
      rw [ih (hrest.trans h)]
      rfl
  | case4 line c t text rest hstep ih =>
    obtain ⟨_, _, written, hwritten, hend⟩ := of_replace hstep
    rw [hwritten, List.getLast?_append] at h
    rw [Pass.replacing, List.getLast?_append]
    cases hrest : rest.getLast? with
    | none =>
      rw [hrest, Option.none_or] at h
      rcases hend with rfl | hend
      · exact absurd (List.mem_of_getLast? h) hname
      · cases hend.symm.trans h
    | some d =>
      rw [hrest] at h
      rw [ih (hrest.trans h)]
      rfl

end Pass

end Variants
