import Variants.Layout.Normal
import Variants.Proofs.TextLines

/-!
# The lines of a laid out text

Every step of the layout keeps the number of line breaks (`breaks_normalize`). The steps on spaces
work on characters. Joining and shortening work on the pieces between line breaks: they put as many
pieces back as they took, and none of them has a line break. After joining no piece before the last
one ends in a backslash, and shortening does not change that (`isContinued_normalize`).
-/

namespace Variants.Layout

/-! ## 1. Spaces -/

theorem breaks_expandTabs (t : Text) : Text.breaks (expandTabs t) = Text.breaks t := by
  induction t with
  | nil => rfl
  | cons c t ih =>
    rw [expandTabs] at ih ⊢
    rw [List.map_cons, Text.breaks_cons, Text.breaks_cons, ih]
    by_cases hc : c = '\t'
    · rw [if_pos hc, hc]
      rfl
    · rw [if_neg hc]

theorem breaks_trimStart (t : Text) : Text.breaks (trimStart t) = Text.breaks t := by
  induction t with
  | nil => rfl
  | cons c t ih =>
    rw [trimStart] at ih ⊢
    rw [List.dropWhile_cons]
    split
    · rename_i hspace
      rw [ih, Text.breaks_cons, beq_iff_eq.1 hspace]
      rfl
    · rfl

theorem breaks_tightenFrom (afterBreak : Bool) (t : Text) :
    Text.breaks (tightenFrom afterBreak t) = Text.breaks t := by
  fun_induction tightenFrom afterBreak t with
  | case1 => rfl
  | case2 afterBreak c t hdropped ih =>
    rw [ih, hdropped.1, Text.breaks_cons]
    rfl
  | case3 afterBreak c t hkept ih => rw [Text.breaks_cons, ih, Text.breaks_cons]

theorem breaks_trimmed (t : Text) : Text.breaks (trimmed t) = Text.breaks t := by
  rw [trimmed, tighten, breaks_tightenFrom, breaks_trimStart, breaks_expandTabs]

/-! ## 2. Continued lines -/

/-- What stands in place of a backslash is no backslash. -/
theorem isContinued_dropBackslash (first : Bool) (line : Text) :
    isContinued (dropBackslash first line) = false := by
  rw [dropBackslash]
  split
  · rename_i hkept
    rcases hkept with hspace | ⟨_, hempty⟩
    · rw [isContinued, hspace]
      rfl
    · rw [hempty]
      rfl
  · rw [isContinued, List.getLast?_concat]
    rfl

/-- Two lines put together go on as the second one does, if there is anything in it. -/
theorem isContinued_append {line next : Text} (hline : isContinued line = false)
    (hnext : isContinued next = false) : isContinued (line ++ next) = false := by
  rw [isContinued, List.getLast?_append]
  cases hlast : next.getLast? with
  | none => exact hline
  | some c => rwa [isContinued, hlast] at hnext

theorem isContinued_joinLast (first : Bool) (line last : Text) :
    isContinued (joinLast first line last) = false := by
  rw [joinLast]
  cases hlast : isContinued last with
  | true => exact isContinued_dropBackslash first _
  | false => exact isContinued_append (isContinued_dropBackslash first line) hlast

theorem length_joinLines (first : Bool) (ls : List Text) :
    (joinLines first ls).length = ls.length := by
  fun_induction joinLines first ls with
  | case1 => rfl
  | case2 => rfl
  | case3 => rfl
  | case4 first line _ next after later ih =>
    obtain ⟨joined, more, hjoined⟩ := List.exists_cons_of_length_eq_add_one ih
    rw [hjoined] at ih ⊢
    rw [joinInto, List.length_cons, List.length_cons, List.length_cons, ← ih, List.length_cons]
  | case5 first line rest _ ih => rw [List.length_cons, ih, List.length_cons]

/-- **After joining no line goes on**, the last one apart. -/
theorem isContinued_joinLines (first : Bool) (ls : List Text) :
    ∀ line ∈ (joinLines first ls).dropLast, isContinued line = false := by
  fun_induction joinLines first ls with
  | case1 => exact fun line hline => absurd hline List.not_mem_nil
  | case2 => exact fun line hline => absurd hline List.not_mem_nil
  | case3 first line _ last =>
    intro joined hjoined
    rw [List.mem_singleton.1 hjoined]
    exact isContinued_joinLast first line last
  | case4 first line _ next after later ih =>
    -- at least two lines are left, so the first of them is none that may go on
    have hlength := length_joinLines false (next :: after :: later)
    obtain ⟨head, more, hmore⟩ := List.exists_cons_of_length_eq_add_one hlength
    obtain ⟨second, tail, rfl⟩ : ∃ second tail, more = second :: tail := by
      rw [hmore] at hlength
      exact List.exists_cons_of_length_eq_add_one (Nat.succ.inj hlength)
    rw [hmore] at ih ⊢
    intro joined hjoined
    rw [joinInto, List.dropLast_cons_cons, List.dropLast_cons_cons] at hjoined
    rcases List.mem_cons.1 hjoined with rfl | hjoined
    · exact isContinued_append (isContinued_dropBackslash first line) (ih head List.mem_cons_self)
    · rcases List.mem_cons.1 hjoined with rfl | hjoined
      · rfl
      · exact ih joined (List.mem_cons_of_mem head hjoined)
  | case5 first line rest hline ih =>
    intro other hother
    cases hrest : joinLines false rest with
    | nil =>
      rw [hrest] at hother
      exact absurd hother List.not_mem_nil
    | cons head more =>
      rw [hrest] at hother ih
      rcases List.mem_cons.1 hother with rfl | hother
      · exact Bool.not_eq_true _ ▸ hline
      · exact ih other hother

theorem mem_dropBackslash {first : Bool} {line : Text} {c : Char}
    (h : c ∈ dropBackslash first line) : c ∈ line ∨ c = ' ' := by
  rw [dropBackslash] at h
  split at h
  · exact Or.inl ((List.dropLast_sublist line).subset h)
  · rcases List.mem_append.1 h with h | h
    · exact Or.inl ((List.dropLast_sublist line).subset h)
    · exact Or.inr (List.mem_singleton.1 h)

theorem newline_not_mem_dropBackslash {first : Bool} {line : Text} (h : '\n' ∉ line) :
    '\n' ∉ dropBackslash first line := by
  intro hmem
  rcases mem_dropBackslash hmem with hmem | hspace
  · exact h hmem
  · cases hspace

/-- A joined line is one line. -/
theorem newline_not_mem_joinLines {first : Bool} {ls : List Text}
    (h : ∀ line ∈ ls, '\n' ∉ line) : ∀ line ∈ joinLines first ls, '\n' ∉ line := by
  fun_induction joinLines first ls with
  | case1 => exact h
  | case2 => exact h
  | case3 first line _ last =>
    have hline : '\n' ∉ dropBackslash first line :=
      newline_not_mem_dropBackslash (h line List.mem_cons_self)
    have hlast := h last (List.mem_cons_of_mem _ List.mem_cons_self)
    intro joined hjoined
    rcases List.mem_cons.1 hjoined with rfl | hjoined
    · rw [joinLast]
      split
      · exact newline_not_mem_dropBackslash (Text.newline_not_mem_append hline hlast)
      · exact Text.newline_not_mem_append hline hlast
    · rw [List.mem_singleton.1 hjoined]
      exact List.not_mem_nil
  | case4 first line _ next after later ih =>
    have hline : '\n' ∉ dropBackslash first line :=
      newline_not_mem_dropBackslash (h line List.mem_cons_self)
    have hrest := ih fun other hother => h other (List.mem_cons_of_mem _ hother)
    intro joined hjoined
    cases hmore : joinLines false (next :: after :: later) with
    | nil =>
      rw [hmore] at hjoined
      rwa [List.mem_singleton.1 hjoined]
    | cons head more =>
      rw [hmore] at hjoined hrest
      rcases List.mem_cons.1 hjoined with rfl | hjoined
      · exact Text.newline_not_mem_append hline (hrest head List.mem_cons_self)
      · rcases List.mem_cons.1 hjoined with rfl | hjoined
        · exact List.not_mem_nil
        · exact hrest joined (List.mem_cons_of_mem head hjoined)
  | case5 first line rest _ ih =>
    intro other hother
    rcases List.mem_cons.1 hother with rfl | hother
    · exact h other List.mem_cons_self
    · exact ih (fun line hline => h line (List.mem_cons_of_mem _ hline)) other hother

/-- The pieces of a joined text are the joined pieces of the text. -/
theorem splitOn_joinContinuations (t : Text) :
    (joinContinuations t).splitOn '\n' = joinLines true (t.splitOn '\n') := by
  refine List.splitOn_intercalate '\n' ?_ ?_
  · exact newline_not_mem_joinLines fun line hline => Text.separator_not_mem_piece hline
  · intro hnil
    have hlength := length_joinLines true (t.splitOn '\n')
    rw [hnil, Text.length_splitOn] at hlength
    cases hlength

/-! ## 3. Shortened tests -/

/-- The name of a shortened test has word characters only. -/
theorem all_isWordChar_of_definedName? {line name : Text} (h : definedName? line = some name) :
    name.all Text.isWordChar = true := by
  unfold definedName? at h
  split at h
  · cases h
  · simp only at h
    split at h
    · cases h
      exact List.all_takeWhile
    · cases h

theorem newline_not_mem_shortenLine {line : Text} (h : '\n' ∉ line) : '\n' ∉ shortenLine line := by
  unfold shortenLine
  split
  · rename_i name hname
    refine Text.newline_not_mem_append (by decide) fun hmem => ?_
    have hword := List.all_eq_true.1 (all_isWordChar_of_definedName? hname) _ hmem
    revert hword
    decide
  · exact h

/-- A shortened test does not go on in the next line. -/
theorem isContinued_shortenLine {line : Text} (h : isContinued line = false) :
    isContinued (shortenLine line) = false := by
  unfold shortenLine
  split
  · rename_i name hname
    refine isContinued_append (by decide) ?_
    rw [isContinued, beq_eq_false_iff_ne]
    intro hlast
    have hword := List.all_eq_true.1 (all_isWordChar_of_definedName? hname) _
      (List.mem_of_getLast? hlast)
    revert hword
    decide
  · exact h

theorem splitOn_shortenTests (t : Text) :
    (shortenTests t).splitOn '\n' = (t.splitOn '\n').map shortenLine := by
  refine List.splitOn_intercalate '\n' ?_ ?_
  · intro line hline
    obtain ⟨piece, hpiece, rfl⟩ := List.mem_map.1 hline
    exact newline_not_mem_shortenLine (Text.separator_not_mem_piece hpiece)
  · exact fun hnil => List.splitOn_ne_nil '\n' t (List.map_eq_nil_iff.1 hnil)

/-! ## 4. The layout as a whole -/

theorem splitOn_normalize (t : Text) :
    (normalize t).splitOn '\n' =
      (joinLines true ((trimmed t).splitOn '\n')).map shortenLine := by
  rw [normalize, splitOn_shortenTests, splitOn_joinContinuations]

/-- **The layout keeps the number of line breaks.** -/
theorem breaks_normalize (t : Text) : Text.breaks (normalize t) = Text.breaks t := by
  have hlength := Text.length_splitOn (normalize t)
  rw [splitOn_normalize, List.length_map, length_joinLines, Text.length_splitOn,
    breaks_trimmed] at hlength
  exact (Nat.succ.inj hlength).symm

/-- **No line of the layout goes on**, the last one apart. -/
theorem isContinued_normalize (t : Text) :
    ∀ line ∈ ((normalize t).splitOn '\n').dropLast, isContinued line = false := by
  intro line hline
  rw [splitOn_normalize, ← List.map_dropLast] at hline
  obtain ⟨joined, hjoined, rfl⟩ := List.mem_map.1 hline
  exact isContinued_shortenLine (isContinued_joinLines _ _ joined hjoined)

end Variants.Layout
