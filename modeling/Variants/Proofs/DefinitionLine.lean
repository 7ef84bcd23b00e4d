import Variants.Macro.Definition
import Variants.Proofs.Outline
import Variants.Proofs.TextLines

/-!
# The lines of definitions

A definition starts its line, and it goes on in the next line only if its line ends with a
backslash (`IsContinued`). In a text where no definition before the last line does, the first one is
a line of the text, and it is taken out with that line alone (`exists_line_of_cutBefore`).
-/

namespace Variants

open Macro

/-! ## 1. Definitions that go on -/

/-- Whether a line is a definition that goes on in the next line. -/
def IsContinued (line : Text) : Prop :=
  Directive.ofLine? line = some .define ∧ line.getLast? = some '\\'

instance (line : Text) : Decidable (IsContinued line) :=
  inferInstanceAs (Decidable (_ ∧ _))

/-- Every definition of a text ends on its line. -/
def EndsDefinitions (t : Text) : Prop := ∀ line ∈ t.splitOn '\n', ¬ IsContinued line

instance (t : Text) : Decidable (EndsDefinitions t) :=
  inferInstanceAs (Decidable (∀ line ∈ t.splitOn '\n', _))

/-- Every definition of a text before its last line ends on its line. -/
def FinishesDefinitions (t : Text) : Prop := ∀ line ∈ (t.splitOn '\n').dropLast, ¬ IsContinued line

theorem EndsDefinitions.finishes {t : Text} (h : EndsDefinitions t) : FinishesDefinitions t :=
  fun line hline => h line ((List.dropLast_sublist _).subset hline)

/-- The lines before a text that starts a line come before its own. -/
theorem finishesDefinitions_iff_of_splitOn {s t : Text} {done : List Text}
    (h : s.splitOn '\n' = done ++ t.splitOn '\n') :
    FinishesDefinitions s ↔ (∀ line ∈ done, ¬ IsContinued line) ∧ FinishesDefinitions t := by
  rw [FinishesDefinitions, h, List.dropLast_append_of_ne_nil (List.splitOn_ne_nil '\n' t),
    List.forall_mem_append, FinishesDefinitions]

/-- In a text without a backslash at the end of a line, and without a definition in an unended line,
every definition ends on its line. -/
theorem endsDefinitions_of {t : Text} (hjoined : ¬ ['\\', '\n'] <:+: t)
    (hlast : (t.splitOn '\n').getLast?.bind Directive.ofLine? ≠ some .define) :
    EndsDefinitions t := by
  rintro line hline ⟨hdefine, hback⟩
  have hne := List.splitOn_ne_nil '\n' t
  rw [← List.dropLast_concat_getLast hne] at hline
  rcases List.mem_append.1 hline with hline | hline
  · obtain ⟨start, rfl⟩ := List.getLast?_eq_some_iff.1 hback
    refine hjoined (List.IsInfix.trans ?_ (Text.piece_append_infix hline))
    rw [List.append_assoc]
    exact (List.suffix_append start _).isInfix
  · rw [List.getLast?_eq_some_getLast hne, ← List.mem_singleton.1 hline] at hlast
    exact hlast hdefine

namespace Macro

/-! ## 2. Cuts at the start and at the end of a line -/

/-- What stands before a definition is empty or ends with a line break. -/
theorem cutBefore_start {atStart : Bool} {t : Text} {cut : Text × Text}
    (h : cutBefore atStart t = some cut) :
    (cut.1 = [] ∧ atStart = true) ∨ ∃ s, cut.1 = s ++ ['\n'] := by
  induction t generalizing atStart cut with
  | nil => cases h
  | cons c t ih =>
    unfold cutBefore at h
    split at h
    · rename_i rest hrest
      cases h
      cases atStart with
      | true => exact Or.inl ⟨rfl, rfl⟩
      | false => cases hrest
    · obtain ⟨inner, hin, rfl⟩ := Option.map_eq_some_iff.1 h
      rcases ih hin with ⟨hnil, hc⟩ | ⟨s, hs⟩
      · exact Or.inr ⟨[], by rw [hnil, beq_iff_eq.1 hc, List.nil_append]⟩
      · exact Or.inr ⟨c :: s, by rw [hs, List.cons_append]⟩

/-- Behind the keyword of a definition stands a space, or its line ends. -/
theorem head?_of_cutBefore {atStart : Bool} {t : Text} {cut : Text × Text}
    (h : cutBefore atStart t = some cut) :
    cut.2.head?.all (fun c => c == ' ' || c == '\n') = true := by
  induction t generalizing atStart cut with
  | nil => cases h
  | cons c t ih =>
    unfold cutBefore at h
    split at h
    · rename_i rest hrest
      cases h
      cases atStart with
      | false => cases hrest
      | true =>
        rw [if_pos rfl] at hrest
        unfold definition? at hrest
        split at hrest
        · cases hrest
        · split at hrest
          · rename_i hhead
            cases hrest
            exact hhead
          · cases hrest
    · obtain ⟨inner, hin, rfl⟩ := Option.map_eq_some_iff.1 h
      have hinner : inner.2.head?.all (fun c => c == ' ' || c == '\n') = true := ih hin
      exact hinner

/-- A definition without a backslash at the end of its line ends there. -/
theorem cutBody_line {d : Text} (rest : Text) (hd : '\n' ∉ d) (hlast : d.getLast? ≠ some '\\') :
    cutBody (d ++ '\n' :: rest) = some ⟨d, 0, rest⟩ := by
  induction d with
  | nil =>
    unfold cutBody
    rfl
  | cons c d ih =>
    have hc : c ≠ '\n' := fun e => hd (e ▸ List.mem_cons_self)
    have hd : '\n' ∉ d := fun e => hd (List.mem_cons_of_mem _ e)
    have hmore : d.getLast? ≠ some '\\' := by
      intro h
      rw [List.getLast?_cons, h] at hlast
      exact hlast rfl
    have hinner := ih hd hmore
    cases d with
    | nil =>
      have hback : c ≠ '\\' := fun e => hlast (by rw [e]; rfl)
      rw [List.nil_append] at hinner
      rw [List.cons_append, List.nil_append, cutBody, if_neg hc, if_neg fun e => hback e.1, hinner]
      rfl
    | cons e d =>
      have he : e ≠ '\n' := fun h => hd (h ▸ List.mem_cons_self)
      rw [List.cons_append] at hinner
      rw [List.cons_append, List.cons_append, cutBody, if_neg hc, if_neg fun h => he h.2, hinner]
      rfl

/-- A definition without a line break is unfinished. -/
theorem cutBody_eq_none {t : Text} (h : '\n' ∉ t) : cutBody t = none := by
  rw [Option.eq_none_iff_forall_ne_some]
  intro body hbody
  have hbreaks := (breaks_cutBody hbody).2
  rw [Text.breaks_eq_zero.2 h] at hbreaks
  omega

/-! ## 3. The first definition of a text -/

theorem ofLine?_define {d : Text} (h : d.head?.all (· == ' ') = true) :
    Directive.ofLine? (Keyword.define.text ++ d) = some .define := by
  cases d with
  | nil => rfl
  | cons c d =>
    rw [List.head?_cons, Option.all_some, beq_iff_eq] at h
    rw [h]
    rfl

section First

variable {t before behind : Text} (h : cutBefore true t = some (before, behind))

include h

/-- The pieces before a definition, whatever stands from its keyword on. -/
theorem splitOn_of_cutBefore :
    ∃ done, ∀ s : Text, (before ++ s).splitOn '\n' = done ++ s.splitOn '\n' := by
  rcases cutBefore_start h with ⟨hnil, _⟩ | ⟨start, hstart⟩
  · have hbefore : before = [] := hnil
    rw [hbefore]
    exact ⟨[], fun s => rfl⟩
  · have hbefore : before = start ++ ['\n'] := hstart
    rw [hbefore]
    refine ⟨start.splitOn '\n', fun s => ?_⟩
    rw [List.append_assoc, List.singleton_append, List.splitOn_append_cons_self]

/-- The pieces up to the end of the first line from there on, and those behind it. -/
theorem exists_splitOn_of_line {line rest : Text} (ht : t = before ++ (line ++ '\n' :: rest))
    (hline : '\n' ∉ line) :
    ∃ done, t.splitOn '\n' = (done ++ [line]) ++ rest.splitOn '\n' := by
  obtain ⟨done, hdone⟩ := splitOn_of_cutBefore h
  exact ⟨done, by
    rw [ht, hdone, List.splitOn_append_cons_self_of_not_mem hline, List.append_cons]⟩

/-- The line of a definition is the keyword and what stands behind it on the line. -/
theorem ofLine?_of_cutBefore {d : Text} (hd : d <+: behind) (hbreak : '\n' ∉ d) :
    Directive.ofLine? (Keyword.define.text ++ d) = some .define := by
  refine ofLine?_define ?_
  obtain ⟨rest, hrest⟩ := hd
  cases d with
  | nil => rfl
  | cons c d =>
    have hhead : behind.head?.all (fun c => c == ' ' || c == '\n') = true := head?_of_cutBefore h
    rw [← hrest, List.cons_append, List.head?_cons, Option.all_some, Bool.or_eq_true] at hhead
    rcases hhead with hspace | hnewline
    · exact hspace
    · exact absurd (beq_iff_eq.1 hnewline ▸ List.mem_cons_self) hbreak

/-- The first definition stands on a line of its own, and it is unfinished or ends there. -/
theorem exists_line_of_cutBefore (hends : FinishesDefinitions t) :
    ∃ line, Directive.ofLine? line = some .define ∧ '\n' ∉ line ∧
      ((t = before ++ line ∧ cutBody behind = none) ∨
        ∃ d rest, t = before ++ (line ++ '\n' :: rest) ∧ '\n' ∉ d ∧
          cutBody behind = some ⟨d, 0, rest⟩) := by
  have ht : t = before ++ (Keyword.define.text ++ behind) := cutBefore_append h
  have hline : ∀ {d : Text}, '\n' ∉ d → '\n' ∉ Keyword.define.text ++ d := fun hd =>
    Text.newline_not_mem_append (by decide) hd
  by_cases hmem : '\n' ∈ behind
  · obtain ⟨d, rest, hbehind, hbreak⟩ := List.eq_append_cons_of_mem hmem
    have hdefine := ofLine?_of_cutBefore h ⟨'\n' :: rest, hbehind.symm⟩ hbreak
    rw [hbehind, ← List.append_assoc Keyword.define.text] at ht
    refine ⟨_, hdefine, hline hbreak, Or.inr ⟨d, rest, ht, hbreak, ?_⟩⟩
    have hlast : d.getLast? ≠ some '\\' := by
      intro hback
      obtain ⟨done, hpieces⟩ := exists_splitOn_of_line h ht (hline hbreak)
      refine ((finishesDefinitions_iff_of_splitOn hpieces).1 hends).1 (Keyword.define.text ++ d)
        (List.mem_append_right _ (List.mem_singleton_self _)) ⟨hdefine, ?_⟩
      rw [List.getLast?_append, hback]
      rfl
    rw [hbehind]
    exact cutBody_line rest hbreak hlast
  · exact ⟨_, ofLine?_of_cutBefore h (List.prefix_refl behind) hmem, hline hmem,
      Or.inl ⟨ht, cutBody_eq_none hmem⟩⟩

end First

end Macro

end Variants
