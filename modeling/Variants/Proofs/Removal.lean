import Variants.Macro.Expand
import Variants.Proofs.DefinitionLine

/-!
# No definition is left

Expanding goes from one definition to the next, and what it leaves behind has none: the text before
a definition has none of its own (`cutBefore_before`), the definition leaves empty lines, and the
text after it is expanded in turn, whatever the uses have put into it. So an expanded text has no
definition on any line, and expanding it again does nothing (`expand_final`).
-/

namespace Variants

open Macro

/-- Whether a line starts a definition. -/
def StartsDefinition (line : Text) : Prop :=
  line = Keyword.define.text ∨ Keyword.define.text ++ [' '] <+: line

instance (line : Text) : Decidable (StartsDefinition line) :=
  inferInstanceAs (Decidable (_ ∨ _))

theorem not_startsDefinition_nil : ¬ StartsDefinition [] := by
  rintro (h | ⟨more, h⟩)
  · cases h
  · cases h

namespace Macro

/-! ## 1. Texts without definitions -/

theorem definition?_eq_some_iff {t rest : Text} :
    definition? t = some rest ↔ t = Keyword.define.text ++ rest ∧
      rest.head?.all (fun c => c == ' ' || c == '\n') = true := by
  unfold definition?
  constructor
  · intro h
    split at h
    · cases h
    · rename_i tail htail
      split at h
      · rename_i hhead
        cases h
        exact ⟨Text.isPrefixOf?_eq_some_iff.1 htail, hhead⟩
      · cases h
  · rintro ⟨ht, hhead⟩
    rw [Text.isPrefixOf?_eq_some_iff.2 ht]
    exact if_pos hhead

/-- A text starts with a definition exactly when its first line does. -/
theorem exists_definition?_iff {line tail : Text} (hline : '\n' ∉ line)
    (htail : tail.head?.all (· == '\n') = true) :
    (∃ rest, definition? (line ++ tail) = some rest) ↔ StartsDefinition line := by
  simp only [definition?_eq_some_iff]
  constructor
  · rintro ⟨rest, happend, hhead⟩
    rcases List.append_eq_append_iff.1 happend with ⟨more, hkeyword, htail'⟩ | ⟨more, hmore, hrest⟩
    · cases more with
      | nil => exact Or.inl (by rw [hkeyword, List.append_nil])
      | cons c more =>
        rw [htail', List.cons_append, List.head?_cons, Option.all_some, beq_iff_eq] at htail
        have hmem : '\n' ∈ Keyword.define.text := by simp [hkeyword, htail]
        exact absurd hmem (by decide)
    · cases more with
      | nil => exact Or.inl (by rw [hmore, List.append_nil])
      | cons c more =>
        rw [hrest, List.cons_append, List.head?_cons, Option.all_some, Bool.or_eq_true, beq_iff_eq,
          beq_iff_eq] at hhead
        rcases hhead with hspace | hbreak
        · exact Or.inr ⟨more, by simp [hmore, hspace]⟩
        · exact absurd (by simp [hmore, hbreak]) hline
  · rintro (rfl | ⟨more, rfl⟩)
    · refine ⟨tail, rfl, ?_⟩
      cases tail with
      | nil => rfl
      | cons c tail => exact Bool.or_eq_true_iff.2 (Or.inr htail)
    · exact ⟨' ' :: (more ++ tail), by simp, rfl⟩

/-- The first definition stands at the start of the text or behind its first character. -/
theorem cutBefore_cons_eq_none_iff {atStart : Bool} {c : Char} {t : Text} :
    cutBefore atStart (c :: t) = none ↔
      (atStart = true → definition? (c :: t) = none) ∧ cutBefore (c == '\n') t = none := by
  rw [cutBefore]
  cases atStart with
  | false => simp
  | true => cases definition? (c :: t) <;> simp

/-- **A text has no definition when none of its lines starts one.** In a text that does not start a
line, the first piece is the rest of one. -/
theorem cutBefore_eq_none_iff {atStart : Bool} {t : Text} :
    cutBefore atStart t = none ↔
      ∀ line ∈ if atStart then t.splitOn '\n' else (t.splitOn '\n').tail,
        ¬ StartsDefinition line := by
  induction t generalizing atStart with
  | nil => cases atStart <;> simp [cutBefore, not_startsDefinition_nil]
  | cons c t ih =>
    obtain ⟨line, later, hpieces⟩ := List.exists_cons_of_ne_nil (List.splitOn_ne_nil '\n' t)
    obtain ⟨hline, tail, ht, htail⟩ := Text.eq_append_of_splitOn hpieces
    rw [cutBefore_cons_eq_none_iff, ih, List.splitOn_cons_eq_if_modifyHead, hpieces]
    by_cases hc : c = '\n'
    · -- the line break ends an empty piece
      have hnone : definition? ('\n' :: t) = none := rfl
      rw [hc, hnone]
      cases atStart <;> simp [not_startsDefinition_nil]
    · have hfalse : (c == '\n') = false := beq_false_of_ne hc
      have hfirst := exists_definition?_iff (List.not_mem_cons_of_ne_of_not_mem (Ne.symm hc) hline)
        htail
      have hnone : definition? (c :: t) = none ↔ ¬ StartsDefinition (c :: line) := by
        rw [← hfirst, ht, Option.eq_none_iff_forall_ne_some, not_exists]
        rfl
      rw [hnone, hfalse]
      cases atStart <;> simp

/-- What stands before the first definition has none. -/
theorem cutBefore_before {atStart : Bool} {t : Text} {cut : Text × Text}
    (h : cutBefore atStart t = some cut) : cutBefore atStart cut.1 = none := by
  induction t generalizing atStart cut with
  | nil => cases h
  | cons c t ih =>
    unfold cutBefore at h
    split at h
    · cases h
      rfl
    · rename_i hnone
      obtain ⟨inner, hin, rfl⟩ := Option.map_eq_some_iff.1 h
      refine cutBefore_cons_eq_none_iff.2 ⟨fun hstart => ?_, ih hin⟩
      rw [if_pos hstart] at hnone
      -- a definition here would be one of the whole text
      rw [Option.eq_none_iff_forall_ne_some]
      intro rest hrest
      obtain ⟨hkeyword, hhead⟩ := definition?_eq_some_iff.1 hrest
      have ht : c :: t = Keyword.define.text ++ (rest ++ (Keyword.define.text ++ inner.2)) := by
        rw [← List.append_assoc, ← hkeyword, List.cons_append, ← cutBefore_append hin]
      cases rest with
      | nil =>
        rw [List.append_nil] at hkeyword
        rcases cutBefore_start hin with ⟨hnil, _⟩ | ⟨s, hs⟩
        · rw [hnil] at hkeyword
          cases hkeyword
        · have hlast := congrArg List.getLast? hkeyword
          rw [hs, ← List.cons_append, List.getLast?_concat] at hlast
          cases hlast
      | cons d rest =>
        rw [definition?_eq_some_iff.2 ⟨ht, hhead⟩] at hnone
        cases hnone

/-- The lines before the first definition start none, whatever stands from there on. -/
theorem not_startsDefinition_of_cutBefore {t before behind : Text}
    (h : cutBefore true t = some (before, behind)) :
    ∃ done, (∀ s : Text, (before ++ s).splitOn '\n' = done ++ s.splitOn '\n') ∧
      ∀ line ∈ done, ¬ StartsDefinition line := by
  obtain ⟨done, hdone⟩ := splitOn_of_cutBefore h
  refine ⟨done, hdone, fun line hline => ?_⟩
  have hbefore := cutBefore_eq_none_iff.1 (cutBefore_before h)
  refine hbefore line ?_
  have hpieces := hdone []
  rw [List.append_nil] at hpieces
  rw [if_pos rfl, hpieces]
  exact List.mem_append_left _ hline

/-! ## 2. Expanded texts -/

/-- **No line of an expanded text starts a definition.** -/
theorem not_startsDefinition_expand (enabled : Bool) (t : Text) :
    ∀ line ∈ (expand enabled t).text.splitOn '\n', ¬ StartsDefinition line := by
  fun_induction expand enabled t with
  | case1 t hbefore => exact cutBefore_eq_none_iff.1 hbefore
  | case2 t before behind hbefore hbody =>
    exact cutBefore_eq_none_iff.1 (cutBefore_before hbefore)
  | case3 t before behind hbefore body hbody defined later ih =>
    obtain ⟨done, hdone, hnone⟩ := not_startsDefinition_of_cutBefore hbefore
    show ∀ line ∈ (before ++ Text.blank (body.joins + 1) ++ later.text).splitOn '\n', _
    rw [List.append_assoc, hdone, Text.splitOn_blank_append]
    simp only [List.forall_mem_append]
    refine ⟨hnone, fun line hline => ?_, ih⟩
    rw [List.eq_of_mem_replicate hline]
    exact not_startsDefinition_nil

end Macro

/-- **No definition survives, and expanding is final.** However macros are expanded, no line of an
expanded text is the keyword of a definition or starts with it and a space, not even one that a use
has put in; and expanding it again, in either way, takes out nothing and changes nothing. -/
theorem expand_final (enabled : Bool) (t : Text) :
    (∀ line ∈ (expand enabled t).text.splitOn '\n',
        line ≠ "#define".toList ∧ ¬ "#define ".toList <+: line) ∧
      ∀ again : Bool, expand again (expand enabled t).text = ⟨(expand enabled t).text, [], none⟩ := by
  have hlines := not_startsDefinition_expand enabled t
  refine ⟨fun line hline => not_or.1 (hlines line hline), fun again => ?_⟩
  exact expand_eq_self (cutBefore_eq_none_iff.2 hlines) again

end Variants
