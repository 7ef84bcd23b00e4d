import Variants.Proofs.Removal

/-!
# Expanding no macros filters lines

Where macros are not expanded, only the lines of a text matter (`blankDefinitions`). A line that
starts a definition opens a group, and as long as its last line ends with a backslash the next line
belongs to it too (`cutGroup`). A group becomes as many empty lines, and all other lines stay. A
group that no line break ends cuts the text off where it starts.

Main statement: `text_expand_false`.
-/

namespace Variants

open Macro

/-! ## 1. Groups of lines -/

/-- Cuts lines behind the group that the first one opens: the number of its lines, and the lines
after it. The last line has no line break, so a group that takes it in is not ended. -/
def cutGroup : List Text → Option (Nat × List Text)
  | [] => none
  | [_] => none
  | line :: next :: later =>
    if line.getLast? = some '\\' then
      (cutGroup (next :: later)).map fun cut => (cut.1 + 1, cut.2)
    else some (1, next :: later)

/-- A group has a line of its own. -/
theorem length_lt_of_cutGroup {ls rest : List Text} {n : Nat} (h : cutGroup ls = some (n, rest)) :
    rest.length < ls.length := by
  fun_induction cutGroup ls generalizing n with
  | case1 => cases h
  | case2 => cases h
  | case3 line next later hback ih =>
    obtain ⟨inner, hin, hsame⟩ := Option.map_eq_some_iff.1 h
    cases hsame
    exact Nat.lt_succ_of_lt (ih hin)
  | case4 line next later hback =>
    cases h
    exact Nat.lt_succ_self _

/-- The lines of a text without its definitions. -/
def blankDefinitions : List Text → List Text
  | [] => []
  | line :: later =>
    if StartsDefinition line then
      match _hcut : cutGroup (line :: later) with
      | some (n, rest) => List.replicate n [] ++ blankDefinitions rest
      | none => [[]]
    else line :: blankDefinitions later
termination_by ls => ls.length
decreasing_by
  · exact length_lt_of_cutGroup _hcut
  · exact Nat.lt_succ_self _

section Equations

variable {line : Text} {later rest : List Text}

theorem blankDefinitions_group {n : Nat} (hline : StartsDefinition line)
    (hcut : cutGroup (line :: later) = some (n, rest)) :
    blankDefinitions (line :: later) = List.replicate n [] ++ blankDefinitions rest := by
  rw [blankDefinitions, if_pos hline]
  split
  · rename_i h
    cases hcut.symm.trans h
    rfl
  · rename_i h
    cases hcut.symm.trans h

/-- A group that is not ended cuts the text off. -/
theorem blankDefinitions_unended (hline : StartsDefinition line)
    (hcut : cutGroup (line :: later) = none) : blankDefinitions (line :: later) = [[]] := by
  rw [blankDefinitions, if_pos hline]
  split
  · rename_i h
    cases hcut.symm.trans h
  · rfl

/-- Other lines stay. -/
theorem blankDefinitions_append {ls : List Text} (h : ∀ line ∈ ls, ¬ StartsDefinition line)
    (later : List Text) : blankDefinitions (ls ++ later) = ls ++ blankDefinitions later := by
  induction ls with
  | nil => rfl
  | cons line ls ih =>
    obtain ⟨hline, hls⟩ := List.forall_mem_cons.1 h
    rw [List.cons_append, blankDefinitions, if_neg hline, ih hls, List.cons_append]

end Equations

/-! ## 2. The lines of a definition -/

/-- **A definition takes up a group of lines**, one for each continuation and one for its end. `s`
is what stands on its first line before `t`. -/
theorem cutGroup_splitOn {s t : Text} (hs : '\n' ∉ s)
    (hback : ¬ (s.getLast? = some '\\' ∧ t.head? = some '\n')) :
    cutGroup ((s ++ t).splitOn '\n') =
      (cutBody t).map fun body => (body.joins + 1, body.rest.splitOn '\n') := by
  fun_induction cutBody t generalizing s with
  | case1 =>
    rw [List.append_nil, List.splitOn_eq_singleton hs]
    rfl
  | case2 t =>
    obtain ⟨next, later, hpieces⟩ := List.exists_cons_of_ne_nil (List.splitOn_ne_nil '\n' t)
    have hlast : s.getLast? ≠ some '\\' := fun h => hback ⟨h, rfl⟩
    rw [List.splitOn_append_cons_self_of_not_mem hs, hpieces, cutGroup, if_neg hlast, ← hpieces]
    rfl
  | case3 c hc =>
    have hline := Text.newline_not_mem_append hs (mt List.mem_singleton.1 (Ne.symm hc))
    rw [List.splitOn_eq_singleton hline]
    rfl
  | case4 c hc d u hcd ih =>
    obtain ⟨rfl, rfl⟩ := hcd
    obtain ⟨next, later, hpieces⟩ := List.exists_cons_of_ne_nil (List.splitOn_ne_nil '\n' u)
    have hline := Text.newline_not_mem_append hs (show '\n' ∉ ['\\'] by decide)
    have hu := ih (s := []) List.not_mem_nil (by simp)
    rw [List.nil_append, hpieces] at hu
    rw [List.append_cons, List.splitOn_append_cons_self_of_not_mem hline, hpieces, cutGroup,
      if_pos List.getLast?_concat, hu, Option.map_map, Option.map_map]
    rfl
  | case5 c hc d u hcd ih =>
    have hline := Text.newline_not_mem_append hs (mt List.mem_singleton.1 (Ne.symm hc))
    have hmore : ¬ ((s ++ [c]).getLast? = some '\\' ∧ (d :: u).head? = some '\n') := by
      rw [List.getLast?_concat]
      exact fun h => hcd ⟨Option.some.inj h.1, Option.some.inj h.2⟩
    rw [List.append_cons, ih hline hmore, Option.map_map]
    rfl

section First

variable {t before behind : Text} (h : cutBefore true t = some (before, behind))

include h

/-- The first line from a definition on starts it. -/
theorem exists_splitOn_of_cutBefore : ∃ line later,
    (Keyword.define.text ++ behind).splitOn '\n' = line :: later ∧ StartsDefinition line := by
  obtain ⟨line, later, hpieces⟩ :=
    List.exists_cons_of_ne_nil (List.splitOn_ne_nil '\n' (Keyword.define.text ++ behind))
  obtain ⟨hline, tail, htext, htail⟩ := Text.eq_append_of_splitOn hpieces
  refine ⟨line, later, hpieces, (exists_definition?_iff hline htail).1 ⟨behind, ?_⟩⟩
  rw [← htext]
  exact definition?_eq_some_iff.2 ⟨rfl, head?_of_cutBefore h⟩

/-- The lines before the first definition stay, and its group is taken from the lines behind
them. -/
theorem exists_cutGroup_of_cutBefore : ∃ done line later,
    (∀ s : Text, (before ++ s).splitOn '\n' = done ++ s.splitOn '\n') ∧
      StartsDefinition line ∧
      cutGroup (line :: later) =
        (cutBody behind).map (fun body => (body.joins + 1, body.rest.splitOn '\n')) ∧
      blankDefinitions (t.splitOn '\n') = done ++ blankDefinitions (line :: later) := by
  obtain ⟨done, hdone, hplain⟩ := not_startsDefinition_of_cutBefore h
  obtain ⟨line, later, hpieces, hline⟩ := exists_splitOn_of_cutBefore h
  have ht : t = before ++ (Keyword.define.text ++ behind) := cutBefore_append h
  refine ⟨done, line, later, hdone, hline, ?_, ?_⟩
  · rw [← hpieces]
    exact cutGroup_splitOn (by decide) fun hback => absurd hback.1 (by decide)
  · rw [ht, hdone, hpieces, blankDefinitions_append hplain]

end First

/-! ## 3. Whole texts -/

theorem splitOn_expand_false (t : Text) :
    (expand false t).text.splitOn '\n' = blankDefinitions (t.splitOn '\n') := by
  fun_induction expand false t with
  | case1 t hbefore =>
    have hall := blankDefinitions_append (cutBefore_eq_none_iff.1 hbefore) []
    simp only [if_true, List.append_nil, blankDefinitions] at hall
    exact hall.symm
  | case2 t before behind hbefore hbody =>
    obtain ⟨done, line, later, hdone, hline, hgroup, hlines⟩ := exists_cutGroup_of_cutBefore hbefore
    have hbefore' := hdone []
    rw [hbody] at hgroup
    rw [List.append_nil] at hbefore'
    rw [hlines, blankDefinitions_unended hline hgroup]
    exact hbefore'
  | case3 t before behind hbefore body hbody defined later ih =>
    obtain ⟨done, line, more, hdone, hline, hgroup, hlines⟩ := exists_cutGroup_of_cutBefore hbefore
    rw [hbody] at hgroup
    have hrest : later.text.splitOn '\n' = blankDefinitions (body.rest.splitOn '\n') := by
      rw [ih, show defined = define false body.text body.rest from rfl, define_false]
    show (before ++ Text.blank (body.joins + 1) ++ later.text).splitOn '\n' = _
    rw [hlines, blankDefinitions_group hline hgroup, List.append_assoc, hdone,
      Text.splitOn_blank_append, hrest]

/-- **Where macros are not expanded, expanding is a filter of lines.** -/
theorem text_expand_false (t : Text) :
    (expand false t).text = ['\n'].intercalate (blankDefinitions (t.splitOn '\n')) := by
  rw [← splitOn_expand_false, List.intercalate_splitOn]

/-- A group that takes in another definition, and one that runs out of lines. -/
example : (expand false "a\n#define B \\\n#define C\nd\n#define E \\\ne".toList).text =
    "a\n\n\nd\n".toList := by
  decide +kernel

end Variants
