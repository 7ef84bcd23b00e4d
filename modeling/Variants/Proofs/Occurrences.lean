import Variants.Macro.Use

/-!
# The occurrences of a name

A pass looks at every character, but it decides something only where the name of its macro stands.
`Text.cutAt` finds the first such place, and with it a pass goes from one occurrence of the name to
the next one: what stands before the occurrence is kept, and the rest is up to the step at the name
(`Macro.expandUses_of_cutAt`).
-/

namespace Variants

namespace Text

/-! ## 1. The first occurrence -/

/-- Cuts a text at the first place where a name stands: what comes before it, and what comes behind
it. An empty name stands nowhere. -/
def cutAt (name : Text) : Text → Option (Text × Text)
  | [] => none
  | c :: t =>
    match if name = [] then none else name.isPrefixOf? (c :: t) with
    | some behind => some ([], behind)
    | none => (cutAt name t).map fun cut => (c :: cut.1, cut.2)

/-- Nothing is lost: what comes before the name, the name and what comes behind it. -/
theorem cutAt_append {name t : Text} {cut : Text × Text} (h : cutAt name t = some cut) :
    t = cut.1 ++ (name ++ cut.2) := by
  induction t generalizing cut with
  | nil => cases h
  | cons c t ih =>
    unfold cutAt at h
    split at h
    · rename_i behind hbehind
      cases h
      split at hbehind
      · cases hbehind
      · have hname : c :: t = name ++ behind := isPrefixOf?_eq_some_iff.1 hbehind
        exact hname
    · obtain ⟨inner, hin, rfl⟩ := Option.map_eq_some_iff.1 h
      rw [List.cons_append, ← ih hin]

/-- A name that is found is not empty. -/
theorem name_ne_nil_of_cutAt {name t : Text} {cut : Text × Text} (h : cutAt name t = some cut) :
    name ≠ [] := by
  rintro rfl
  induction t generalizing cut with
  | nil => cases h
  | cons c t ih =>
    obtain ⟨inner, hin, _⟩ := Option.map_eq_some_iff.1 h
    exact ih hin

/-- What comes behind an occurrence is shorter than the text. -/
theorem length_lt_of_cutAt {name t : Text} {cut : Text × Text} (h : cutAt name t = some cut) :
    cut.2.length < t.length := by
  have hpos := List.length_pos_iff.2 (name_ne_nil_of_cutAt h)
  have hlength := congrArg List.length (cutAt_append h)
  rw [List.length_append, List.length_append] at hlength
  omega

end Text

namespace Macro

/-! ## 2. A pass from occurrence to occurrence -/

theorem lineAfter_append (line s t : Text) :
    lineAfter line (s ++ t) = lineAfter (lineAfter line s) t :=
  List.foldl_append

/-- A pass from an occurrence of the name on, with the text `behind` after the name. -/
def expandAt (m : Macro) (line behind : Text) : Pass :=
  match m.stepAtName line behind with
  | .stop => ⟨m.name ++ behind, 0, true⟩
  | .keep kept rest => (m.expandUses (lineAfter line kept) rest).keeping kept
  | .replace text rest => (m.expandUses (lineAfter line text) rest).replacing text

variable {m : Macro} {t : Text}

/-- Where the name does not stand, a step keeps a character. -/
theorem step_keep {c : Char}
    (h : (if m.name = [] then none else m.name.isPrefixOf? (c :: t)) = none) (line : Text) :
    m.step line c t = .keep [c] t := by
  unfold step
  split
  · rfl
  · rename_i behind hbehind
    split at h
    · rename_i hname
      exact if_pos hname
    · cases hbehind.symm.trans h

/-- A text without the name is left as it is. -/
theorem expandUses_of_cutAt_eq_none (h : Text.cutAt m.name t = none) (line : Text) :
    m.expandUses line t = ⟨t, 0, false⟩ := by
  induction t generalizing line with
  | nil => rw [expandUses]
  | cons c t ih =>
    unfold Text.cutAt at h
    split at h
    · cases h
    · rename_i hhere
      rw [expandUses_keep (step_keep hhere line), ih (Option.map_eq_none_iff.1 h)]
      rfl

/-- **From one occurrence to the next one**: a pass keeps the text before the first occurrence of
the name and goes on there. -/
theorem expandUses_of_cutAt {gap behind : Text} (h : Text.cutAt m.name t = some (gap, behind))
    (line : Text) :
    m.expandUses line t = (m.expandAt (lineAfter line gap) behind).keeping gap := by
  induction t generalizing line gap with
  | nil => cases h
  | cons c t ih =>
    unfold Text.cutAt at h
    split at h
    · rename_i rest hrest
      cases h
      split at hrest
      · cases hrest
      · rename_i hname
        have hstep : m.step line c t = m.stepAtName line behind := by
          unfold step
          rw [hrest]
          exact if_neg hname
        show _ = m.expandAt line behind
        unfold expandAt
        cases hat : m.stepAtName line behind with
        | stop =>
          rw [expandUses_stop (hstep.trans hat), ← Text.isPrefixOf?_eq_some_iff.1 hrest]
        | keep kept rest => exact expandUses_keep (hstep.trans hat)
        | replace text rest => exact expandUses_replace (hstep.trans hat)
    · rename_i hhere
      obtain ⟨inner, hin, hcut⟩ := Option.map_eq_some_iff.1 h
      cases hcut
      rw [expandUses_keep (step_keep hhere line), ih hin]
      rfl

end Macro

end Variants
