import Variants.Proofs.LayoutLines
import Variants.Proofs.Literals

/-!
# Literals in the layout

The steps of the layout go by single characters and lines and know nothing of literals. A literal
comes through them if it has no tabs and no spaces beside line breaks, if no line is joined with the
next one within it, and if no line of it looks like a test of one symbol (`SparesLiterals`). All
else that the layout changes stands outside of literals and has no quotes
(`SparesLiterals.sameLiterals`).
-/

namespace Variants

open Literal

namespace Layout

/-! ## 1. Spaces -/

/-- Turning tabs into spaces leaves literals without tabs alone. -/
theorem sameLiterals_expandTabs {s : State} {t : Text} (h : ∀ mark ∈ marks s t, mark.2 ≠ '\t') :
    SameLiterals s t (expandTabs t) := by
  induction t generalizing s with
  | nil => exact SameLiterals.refl s []
  | cons c t ih =>
    obtain ⟨hmark, hrest⟩ := List.forall_mem_append.1 h
    have hlater : SameLiterals (s.next c) t (expandTabs t) := ih hrest
    by_cases hc : c = '\t'
    · have hs : s = .outside := by
        refine Classical.byContradiction fun hs => ?_
        rw [State.mark_of_ne hs] at hmark
        exact hmark (false, c) List.mem_cons_self hc
      subst hs hc
      exact (SameLiterals.of_unquoted (t := ['\t']) (u := [' ']) (by decide) (by decide)).append
        hlater
    · have hsame : expandTabs (c :: t) = c :: expandTabs t := by
        rw [expandTabs, List.map_cons, if_neg hc, expandTabs]
      rw [hsame]
      exact hlater.cons c

theorem sameLiterals_trimStart (t : Text) : SameLiterals .outside t (trimStart t) := by
  induction t with
  | nil => exact SameLiterals.refl _ []
  | cons c t ih =>
    rw [trimStart, List.dropWhile_cons]
    split
    · rename_i hc
      obtain rfl := beq_iff_eq.1 hc
      exact (SameLiterals.of_unquoted (t := [' ']) (u := []) (by decide) (by decide)).append ih
    · exact SameLiterals.refl _ (c :: t)

/-- Marks without a space beside a line break. -/
structure IsTight (marks : List (Bool × Char)) : Prop where
  before : ¬ [(false, ' '), (false, '\n')] <:+: marks
  behind : ¬ [(false, '\n'), (false, ' ')] <:+: marks

theorem IsTight.of_append {first second : List (Bool × Char)} (h : IsTight (first ++ second)) :
    IsTight second :=
  ⟨fun hin => h.before (hin.trans (List.suffix_append first second).isInfix),
    fun hin => h.behind (hin.trans (List.suffix_append first second).isInfix)⟩

/-- Dropping the spaces beside line breaks leaves literals without such spaces alone. A line break
before the text belongs to the literal that is open at its start. -/
theorem sameLiterals_tightenFrom {s : State} {afterBreak : Bool} {t : Text}
    (h : IsTight
      ((if afterBreak = true ∧ s ≠ .outside then [(false, '\n')] else []) ++ marks s t)) :
    SameLiterals s t (tightenFrom afterBreak t) := by
  fun_induction tightenFrom afterBreak t generalizing s with
  | case1 => exact SameLiterals.refl s []
  | case2 afterBreak c t hdropped ih =>
    obtain ⟨rfl, hbeside⟩ := hdropped
    -- such a space does not stand in a literal
    have hs : s = .outside := by
      refine Classical.byContradiction fun hs => ?_
      have hnext : s.next ' ' ≠ .outside := State.next_ne_outside hs rfl
      rcases hbeside with hbefore | hbehind
      · rw [if_pos ⟨hbefore, hs⟩, marks, State.mark_of_ne hs] at h
        exact h.behind ⟨[], marks (s.next ' ') t, rfl⟩
      · obtain ⟨u, rfl⟩ := List.head?_eq_some_iff.1 hbehind
        have htight := h.of_append
        rw [marks, State.mark_of_ne hs, marks, State.mark_of_ne hnext] at htight
        exact htight.before ⟨[], marks ((s.next ' ').next '\n') u, rfl⟩
    subst hs
    refine (SameLiterals.of_unquoted (t := [' ']) (u := []) (by decide) (by decide)).append (ih ?_)
    rw [if_neg (fun h => h.2 rfl)]
    exact h.of_append.of_append
  | case3 afterBreak c t hkept ih =>
    refine (ih ?_).cons c
    have htight := h.of_append
    by_cases hbreak : (c == '\n') = true ∧ s.next c ≠ .outside
    · obtain rfl := beq_iff_eq.1 hbreak.1
      have hs : s ≠ .outside := by
        rintro rfl
        exact hbreak.2 rfl
      rw [if_pos hbreak]
      rwa [marks, State.mark_of_ne hs] at htight
    · rw [if_neg hbreak]
      exact htight.of_append

/-! ## 2. Continued lines -/

/-- No join has to do with a literal: where a line goes on in the next one, neither of the two ends
in a literal. -/
def JoinsOutside (s : State) : List Text → Prop
  | [] => True
  | line :: rest =>
    (∀ next ∈ rest.head?, isContinued line = true →
      s.after line = .outside ∧ State.after .outside next = .outside) ∧
      JoinsOutside (s.after (line ++ ['\n'])) rest

instance decidableJoinsOutside : (s : State) → (ls : List Text) → Decidable (JoinsOutside s ls)
  | _, [] => inferInstanceAs (Decidable True)
  | s, line :: rest =>
    have := decidableJoinsOutside (s.after (line ++ ['\n'])) rest
    inferInstanceAs (Decidable ((∀ next ∈ rest.head?, _ → _) ∧ _))

theorem sameLiterals_dropBackslash {s : State} {line : Text} (first : Bool)
    (hline : isContinued line = true) (hs : s.after line = .outside) :
    SameLiterals s line (dropBackslash first line) := by
  obtain ⟨kept, rfl⟩ := List.getLast?_eq_some_iff.1 (beq_iff_eq.1 hline)
  have hkept : s.after kept = .outside := by
    refine Classical.byContradiction fun hkept => ?_
    rw [State.after_append] at hs
    exact State.next_ne_outside hkept (c := '\\') rfl hs
  have hspace : SameLiterals (s.after kept) ['\\'] [' '] := by
    rw [hkept]
    exact SameLiterals.of_unquoted (by decide) (by decide)
  have hnone : SameLiterals (s.after kept) ['\\'] [] := by
    rw [hkept]
    exact SameLiterals.of_unquoted (by decide) (by decide)
  rw [dropBackslash, List.dropLast_concat]
  split
  · have hsame := (SameLiterals.refl s kept).append hnone
    rwa [List.append_nil] at hsame
  · exact (SameLiterals.refl s kept).append hspace

/-- A line break outside of literals may stand or not. -/
theorem sameLiterals_break {s : State} (hs : s = .outside) (t : Text) :
    SameLiterals s ('\n' :: t) t := by
  subst hs
  exact (SameLiterals.of_unquoted (t := ['\n']) (u := []) (by decide) (by decide)).append
    (SameLiterals.refl _ t)

theorem sameLiterals_joinLast {s : State} {line last : Text} (first : Bool)
    (hline : isContinued line = true) (hs : s.after line = .outside)
    (hlast : State.after .outside last = .outside) :
    SameLiterals s (line ++ '\n' :: last) (joinLast first line last) ∧
      s.after (joinLast first line last) = .outside := by
  have hdrop := sameLiterals_dropBackslash first hline hs
  have hjoined : SameLiterals s (line ++ '\n' :: last) (dropBackslash first line ++ last) :=
    hdrop.append (sameLiterals_break hs last)
  have hend : s.after (dropBackslash first line ++ last) = .outside := by
    rw [State.after_append, ← hdrop.after_eq, hs, hlast]
  rw [joinLast]
  by_cases hmore : isContinued last = true
  · obtain ⟨kept, hkept⟩ := List.getLast?_eq_some_iff.1 (beq_iff_eq.1 hmore)
    have hcontinued : isContinued (dropBackslash first line ++ last) = true := by
      rw [isContinued, hkept, ← List.append_assoc, List.getLast?_concat]
      rfl
    have hlater := sameLiterals_dropBackslash first hcontinued hend
    rw [if_pos hmore]
    exact ⟨hjoined.trans hlater, hlater.after_eq.symm.trans hend⟩
  · rw [if_neg hmore]
    exact ⟨hjoined, hend⟩

theorem after_break {s : State} {line : Text} (h : s.after line = .outside) :
    s.after (line ++ ['\n']) = .outside := by
  rw [State.after_append, h]
  rfl

/-- Where the first of some lines ends outside of literals, it still does when it is joined. -/
theorem after_joinLines {s : State} {first : Bool} {ls : List Text} (h : JoinsOutside s ls)
    (hhead : ∀ line ∈ ls.head?, s.after line = .outside) :
    ∀ line ∈ (joinLines first ls).head?, s.after line = .outside := by
  fun_induction joinLines first ls generalizing s with
  | case1 => exact hhead
  | case2 => exact hhead
  | case3 first line hline last =>
    obtain ⟨hs, hlast⟩ := h.1 last rfl hline
    rintro _ ⟨⟩
    exact (sameLiterals_joinLast first hline hs hlast).2
  | case4 first line hline next after later ih =>
    obtain ⟨hs, hnext⟩ := h.1 next rfl hline
    have hlater := h.2
    rw [after_break hs] at hlater
    obtain ⟨head, more, hjoined⟩ : ∃ head more, joinLines false (next :: after :: later) =
        head :: more := List.exists_cons_of_length_eq_add_one (length_joinLines false _)
    rw [hjoined] at ih ⊢
    rintro _ ⟨⟩
    rw [State.after_append, ← (sameLiterals_dropBackslash first hline hs).after_eq, hs]
    exact ih hlater (by rintro _ ⟨⟩; exact hnext) head rfl
  | case5 first line rest hline ih => exact hhead

/-- **Joining lines leaves literals alone** that have nothing to do with it. -/
theorem sameLiterals_joinLines {s : State} (first : Bool) {ls : List Text} (h : JoinsOutside s ls) :
    SameLiterals s (['\n'].intercalate ls) (['\n'].intercalate (joinLines first ls)) := by
  fun_induction joinLines first ls generalizing s with
  | case1 => exact SameLiterals.refl s _
  | case2 => exact SameLiterals.refl s _
  | case3 first line hline last =>
    obtain ⟨hs, hlast⟩ := h.1 last rfl hline
    obtain ⟨hsame, hend⟩ := sameLiterals_joinLast first hline hs hlast
    have hbreak := (SameLiterals.refl s (joinLast first line last)).append
      (sameLiterals_break hend []).symm
    rw [List.append_nil] at hbreak
    simpa using hsame.trans hbreak
  | case4 first line hline next after later ih =>
    obtain ⟨hs, hnext⟩ := h.1 next rfl hline
    have hlater := h.2
    rw [after_break hs] at hlater
    have hends : ∀ head ∈ (joinLines false (next :: after :: later)).head?,
        State.after .outside head = .outside :=
      after_joinLines hlater (by rintro _ ⟨⟩; exact hnext)
    have hsame := ih hlater
    have hlength := length_joinLines false (next :: after :: later)
    obtain ⟨head, rest, hjoined⟩ := List.exists_cons_of_length_eq_add_one hlength
    rw [hjoined] at hends hsame hlength ⊢
    obtain ⟨second, more, rfl⟩ := List.exists_cons_of_length_eq_add_one (Nat.succ.inj hlength)
    have hhead : State.after .outside head = .outside := hends head rfl
    have hdrop := sameLiterals_dropBackslash first hline hs
    rw [List.intercalate_cons_cons, List.append_assoc] at hsame
    -- the line break that goes into the text stands outside of literals
    have hopened : SameLiterals .outside (['\n'].intercalate (next :: after :: later))
        (head ++ '\n' :: '\n' :: ['\n'].intercalate (second :: more)) :=
      hsame.trans ((SameLiterals.refl _ head).append (sameLiterals_break hhead _).symm)
    have hjoin : SameLiterals s (line ++ '\n' :: ['\n'].intercalate (next :: after :: later))
        (dropBackslash first line ++ ['\n'].intercalate (next :: after :: later)) :=
      hdrop.append (sameLiterals_break hs _)
    have hafter : s.after (dropBackslash first line) = .outside := hdrop.after_eq.symm.trans hs
    have hall := hjoin.trans ((SameLiterals.refl s (dropBackslash first line)).append
      (hafter.symm ▸ hopened))
    rw [joinInto, List.intercalate_cons_cons, List.intercalate_cons_cons,
      List.intercalate_cons_cons]
    simpa using hall
  | case5 first line rest hline ih =>
    cases rest with
    | nil => exact SameLiterals.refl s _
    | cons next later =>
      obtain ⟨head, more, hjoined⟩ : ∃ head more, joinLines false (next :: later) = head :: more :=
        List.exists_cons_of_length_eq_add_one (length_joinLines false _)
      have hsame := ih h.2
      rw [hjoined] at hsame ⊢
      rw [List.intercalate_cons_cons, List.intercalate_cons_cons]
      exact (SameLiterals.refl s (line ++ ['\n'])).append hsame

/-! ## 3. Tests of one symbol -/

/-- No test of one symbol stands in a literal. -/
def TestsOutside (s : State) : List Text → Prop
  | [] => True
  | line :: rest =>
    ((definedName? line).isSome = true → s = .outside) ∧
      TestsOutside (s.after (line ++ ['\n'])) rest

instance decidableTestsOutside : (s : State) → (ls : List Text) → Decidable (TestsOutside s ls)
  | _, [] => inferInstanceAs (Decidable True)
  | s, line :: rest =>
    have := decidableTestsOutside (s.after (line ++ ['\n'])) rest
    inferInstanceAs (Decidable ((_ → _) ∧ _))

theorem isUnquoted_of_dropSpace {t : Text} (h : IsUnquoted (dropSpace t)) : IsUnquoted t := by
  cases t with
  | nil => exact h
  | cons c t =>
    rw [dropSpace] at h
    split at h
    · rename_i hc
      exact List.forall_mem_cons.2 ⟨hc ▸ rfl, h⟩
    · exact h

/-- A test of one symbol has no quotes. -/
theorem isUnquoted_of_definedName? {line name : Text} (h : definedName? line = some name) :
    IsUnquoted line ∧ IsUnquoted name := by
  unfold definedName? at h
  split at h
  · cases h
  · rename_i operand hoperand
    dsimp only at h
    split at h
    · rename_i hform
      cases h
      have hname : IsUnquoted ((dropSpace operand).takeWhile Text.isWordChar) := fun c hc =>
        Token.isQuote_eq_false (by decide) (by decide) (List.all_eq_true.1 List.all_takeWhile c hc)
      have hclose : IsUnquoted ((dropSpace operand).dropWhile Text.isWordChar) :=
        isUnquoted_of_dropSpace (by rw [hform.2]; decide)
      refine ⟨?_, hname⟩
      rw [Text.isPrefixOf?_eq_some_iff.1 hoperand]
      refine IsUnquoted.append (by decide) (isUnquoted_of_dropSpace ?_)
      rw [← List.takeWhile_append_dropWhile (p := Text.isWordChar) (l := dropSpace operand)]
      exact hname.append hclose
    · cases h

theorem sameLiterals_shortenLine {s : State} {line : Text}
    (h : (definedName? line).isSome = true → s = .outside) :
    SameLiterals s line (shortenLine line) := by
  unfold shortenLine
  split
  · rename_i name hname
    obtain ⟨hline, hshort⟩ := isUnquoted_of_definedName? hname
    obtain rfl := h (by rw [hname]; rfl)
    exact SameLiterals.of_unquoted hline (IsUnquoted.append (by decide) hshort)
  · exact SameLiterals.refl s line

/-- **Shortening tests leaves literals alone** that hold none. -/
theorem sameLiterals_shortenLines {s : State} {ls : List Text} (h : TestsOutside s ls) :
    SameLiterals s (['\n'].intercalate ls) (['\n'].intercalate (ls.map shortenLine)) := by
  induction ls generalizing s with
  | nil => exact SameLiterals.refl s _
  | cons line rest ih =>
    have hline := sameLiterals_shortenLine h.1
    cases rest with
    | nil => simpa using hline
    | cons next later =>
      have hlater := ih h.2
      rw [List.map_cons] at hlater ⊢
      rw [List.map_cons, List.intercalate_cons_cons, List.intercalate_cons_cons]
      exact (hline.append (SameLiterals.refl _ ['\n'])).append hlater

/-! ## 4. The layout -/

/-- A literal without tabs and without spaces beside line breaks. -/
def IsSteady (literal : Text) : Prop :=
  '\t' ∉ literal ∧ ¬ [' ', '\n'] <:+: literal ∧ ¬ ['\n', ' '] <:+: literal

instance (literal : Text) : Decidable (IsSteady literal) := inferInstanceAs (Decidable (_ ∧ _))

/-- A text whose literals have nothing to do with what the layout changes. -/
structure SparesLiterals (t : Text) : Prop where
  steady : ∀ literal ∈ Token.literals t, IsSteady literal
  joins : JoinsOutside .outside ((trimmed t).splitOn '\n')
  tests : TestsOutside .outside ((joinContinuations (trimmed t)).splitOn '\n')

/-- **The layout leaves literals alone** that have nothing to do with what it changes. -/
theorem SparesLiterals.sameLiterals {t : Text} (h : SparesLiterals t) :
    SameLiterals .outside t (normalize t) := by
  have htabs : SameLiterals .outside t (expandTabs t) := by
    refine sameLiterals_expandTabs fun mark hmark => ?_
    obtain ⟨literal, hliteral, hmem⟩ := Token.exists_literal_of_mark hmark
    exact fun htab => (h.steady literal hliteral).1 (htab ▸ hmem)
  have hstart : SameLiterals .outside t (trimStart (expandTabs t)) :=
    htabs.trans (sameLiterals_trimStart _)
  have htight : IsTight (marks .outside (trimStart (expandTabs t))) := by
    rw [← hstart.marks_eq]
    refine ⟨fun hin => ?_, fun hin => ?_⟩
    · obtain ⟨literal, hliteral, hinfix⟩ := Token.exists_literal_of_marks hin
      exact (h.steady literal hliteral).2.1 hinfix
    · obtain ⟨literal, hliteral, hinfix⟩ := Token.exists_literal_of_marks hin
      exact (h.steady literal hliteral).2.2 hinfix
  have htrimmed : SameLiterals .outside t (trimmed t) :=
    hstart.trans (sameLiterals_tightenFrom htight)
  have hjoined : SameLiterals .outside (trimmed t) (joinContinuations (trimmed t)) := by
    have hjoin := sameLiterals_joinLines true h.joins
    rwa [List.intercalate_splitOn] at hjoin
  have htests : SameLiterals .outside (joinContinuations (trimmed t)) (normalize t) := by
    have hshort := sameLiterals_shortenLines h.tests
    rwa [List.intercalate_splitOn] at hshort
  exact htrimmed.trans (hjoined.trans htests)

end Layout

end Variants
