import Variants.Proofs.Confinement
import Variants.Proofs.LineCount
import Variants.Proofs.Selection

/-!
# Code that is never selected

The lines of an `#if` that is never taken are empty in the code of every key, as long as they are
well nested (`selectLines_dead`). But macros are expanded before anything is selected, and so
disabled lines may still define a macro for the code behind them, end a call or turn into an
`#endif`. Where they keep to themselves (`IsSelfContained`) nothing around them depends on them
(`select_expand_dead`).
-/

namespace Variants

namespace Configuration

/-! ## 1. Lines in a branch that is not chosen -/

theorem selectLines_append (symbols : List Text) (sections : List Section) (ls more : List Text) :
    selectLines symbols sections (ls ++ more) = selectLines symbols sections ls ++
      selectLines symbols (ls.foldl (advanceLine symbols) sections) more := by
  induction ls generalizing sections with
  | nil => rfl
  | cons line ls ih =>
    rw [List.cons_append, selectLines, selectLines, List.foldl_cons, ih, List.cons_append]

/-- A branch that is chosen or not, as a section says. -/
def Section.branch (s : Section) : Branch := ⟨if s.active then [] else [.always], .always⟩

theorem agrees_branch (key : Text) (sections : List Section) :
    Agrees key sections (sections.map Section.branch) := by
  rw [Agrees, List.map_map]
  refine List.map_congr_left fun s _ => ?_
  obtain ⟨active, taken⟩ := s
  cases active <;> rfl

mutual

/-- The lines of a tree are dead where a branch around the tree is not chosen. -/
theorem not_isLive_nesting {key : Text} {line : PlacedLine} : ∀ {around : List Branch}
    (tree : Nesting), around.all (Branch.isChosen key) = false → line ∈ tree.placed around →
    line.isLive key = false
  | _, .nil, _, h => by cases h
  | around, .plain _ rest, hdead, h => by
    rcases List.mem_cons.1 h with rfl | h
    · exact hdead
    · exact not_isLive_nesting rest hdead h
  | around, .opening form condition _ body others rest, hdead, h => by
    have hbody : (Branch.first form condition :: around).all (Branch.isChosen key) = false := by
      rw [List.all_cons, hdead, Bool.and_false]
    rcases List.mem_cons.1 h with rfl | h
    · exact hdead
    rcases List.mem_append.1 h with h | h
    · exact not_isLive_nesting body hbody h
    rcases List.mem_append.1 h with h | h
    · exact not_isLive_branches others hdead h
    · exact not_isLive_nesting rest hdead h

theorem not_isLive_branches {key : Text} {line : PlacedLine} : ∀ {around : List Branch}
    {earlier : List Test} (others : Branches), around.all (Branch.isChosen key) = false →
    line ∈ others.placed earlier around → line.isLive key = false
  | _, _, .endif _, hdead, h => by
    cases List.mem_singleton.1 h
    exact hdead
  | around, earlier, .elif condition _ body others, hdead, h => by
    have hbody : (⟨earlier, .holds condition⟩ :: around).all (Branch.isChosen key) = false := by
      rw [List.all_cons, hdead, Bool.and_false]
    rcases List.mem_cons.1 h with rfl | h
    · exact hdead
    rcases List.mem_append.1 h with h | h
    · exact not_isLive_nesting body hbody h
    · exact not_isLive_branches others hdead h
  | around, earlier, .otherwise _ body _, hdead, h => by
    have hbody : (⟨earlier, .always⟩ :: around).all (Branch.isChosen key) = false := by
      rw [List.all_cons, hdead, Bool.and_false]
    rcases List.mem_cons.1 h with rfl | h
    · exact hdead
    rcases List.mem_append.1 h with h | h
    · exact not_isLive_nesting body hbody h
    · cases List.mem_singleton.1 h
      exact hdead

end

/-- **Well-nested lines in a branch that is not chosen are all emptied**, and change nothing behind
them. -/
theorem selectLines_dead (key : Text) (tree : Nesting) {sections : List Section}
    (hdead : sections.all Section.active = false) (rest : List Text) :
    selectLines (segments key) sections (tree.lines ++ rest) =
      List.replicate tree.lines.length [] ++ selectLines (segments key) sections rest := by
  have hagrees := agrees_branch key sections
  have haround : (sections.map Section.branch).all (Branch.isChosen key) = false := by
    have hid := congrArg (fun flags => flags.all id) hagrees
    simp only [List.all_map, Function.id_comp] at hid
    rw [List.all_map, ← hid]
    exact hdead
  have hlength : tree.lines.length = (tree.placed (sections.map Section.branch)).length := by
    rw [← tree.map_text_placed (sections.map Section.branch), List.length_map]
  rw [selectLines_nesting key tree hagrees rest, hlength, ← List.map_const']
  congr 1
  refine List.map_congr_left fun line hline => ?_
  rw [PlacedLine.kept, not_isLive_nesting tree haround hline, Bool.false_and]
  rfl

/-! ## 2. Texts that differ in a branch that is never taken -/

/-- The directive that opens a section whose first branch is never taken. -/
def never : Directive := .opening .expression .never

/-- The conditional directive on the last line of a text. -/
def lastDirective? (t : Text) : Option Directive :=
  (Text.lines t).getLast?.bind Directive.conditional?

/-- After a section was opened whose first branch is never taken, the lines are dead. -/
theorem all_active_of_never {t : Text} (h : lastDirective? t = some never) (symbols : List Text)
    (sections : List Section) :
    ((Text.lines t).foldl (advanceLine symbols) sections).all Section.active = false := by
  obtain ⟨line, hline, hdirective⟩ := Option.bind_eq_some_iff.1 h
  obtain ⟨start, hstart⟩ := List.getLast?_eq_some_iff.1 hline
  rw [hstart, List.foldl_append, List.foldl_cons, List.foldl_nil,
    advanceLine_conditional hdirective]
  rfl

/-- The code of a text with well-nested lines in such a branch. -/
theorem select_append_dead {start d : Text} (hstart : Text.IsWhole start)
    (hopens : lastDirective? start = some never) (hd : Text.IsWhole d) (hnested : WellNested d)
    (t key : Text) : select (start ++ (d ++ t)) key =
      (selectLines (segments key) [] (Text.lines start) ++ (List.replicate (Text.breaks d) [] ++
        selectLines (segments key) ((Text.lines start).foldl (advanceLine (segments key)) [])
          (Text.lines t))).flatMap fun line => line ++ ['\n'] := by
  obtain ⟨tree, htree⟩ := hnested
  have hdead := all_active_of_never hopens (segments key) []
  rw [select, Text.lines_append hstart, Text.lines_append hd, selectLines_append, ← htree,
    selectLines_dead key tree hdead, htree, hd.length_lines]

end Configuration

namespace Macro

open Variants.Configuration

/-! ## 3. Dead lines where macros are not expanded -/

/-- A definition in whole lines of which the last one does not go on ends in them. -/
theorem cutBody_ne_none {s : Text} (hs : s.getLast? = some '\n') (hjoin : ¬ ['\\', '\n'] <:+ s) :
    cutBody s ≠ none := by
  fun_induction cutBody s with
  | case1 => cases hs
  | case2 => exact Option.some_ne_none _
  | case3 c hc => exact absurd (Option.some.inj hs) hc
  | case4 c hc d u hcd ih =>
    obtain ⟨rfl, rfl⟩ := hcd
    have hu : u.getLast? = some '\n' := by
      cases u with
      | nil => exact absurd (List.suffix_refl _) hjoin
      | cons e u => exact hs
    have hmore := ih hu fun h => hjoin (h.trans (List.suffix_append ['\\', '\n'] u))
    exact fun h => hmore (Option.map_eq_none_iff.1 h)
  | case5 c hc d u hcd ih =>
    have hmore := ih hs fun h => hjoin (h.trans (List.suffix_cons c (d :: u)))
    exact fun h => hmore (Option.map_eq_none_iff.1 h)

/-- **Where macros are not expanded**, whole lines of which the last one does not go on are expanded
by themselves. -/
theorem expand_false_append {s : Text} (hs : Text.IsWhole s) (hjoin : ¬ ['\\', '\n'] <:+ s)
    (t : Text) : (expand false (s ++ t)).text = (expand false s).text ++ (expand false t).text ∧
      Text.breaks (expand false s).text = Text.breaks s := by
  fun_induction expand false s with
  | case1 s hbefore => exact ⟨text_expand_append hs hbefore, rfl⟩
  | case2 s before behind hbefore hbody =>
    refine absurd hbody (cutBody_ne_none (getLast?_of_cutBefore hs hbefore) fun h => hjoin ?_)
    rw [cutBefore_append hbefore]
    exact h.trans ((List.suffix_append _ _).trans (List.suffix_append _ _))
  | case3 s before behind hbefore body hbody defined later =>
    rename_i ih
    obtain ⟨hone, hbehind⟩ := breaks_cutBody hbody
    have hbreaks := breaks_of_cutBefore hbefore
    have hrest := isWhole_of_cutBody hs hbefore hbody
    have hcut : cutBefore true (s ++ t) = some (before, behind ++ t) :=
      cutBefore_append_right hbefore hs t
    have hjoin' : ¬ ['\\', '\n'] <:+ body.rest := by
      obtain ⟨front, hfront⟩ := rest_suffix_of_cutBody hbody
      intro h
      refine hjoin (h.trans ?_)
      rw [cutBefore_append hbefore, hfront]
      exact (List.suffix_append _ _).trans ((List.suffix_append _ _).trans (List.suffix_append _ _))
    rw [show defined = define false body.text body.rest from rfl, define_false] at ih
    obtain ⟨hexpand, hcount⟩ := ih hrest hjoin'
    have hlater : later.text = (expand false body.rest).text := by
      rw [show later = expand false (define false body.text body.rest).1 from rfl, define_false]
    refine ⟨?_, ?_⟩
    · rw [text_expand_defined hcut (cutBody_append hbody t), define_false, hexpand,
        ← List.append_assoc, ← hlater]
    · rw [show (⟨_, _, _⟩ : Expansion).text = before ++ Text.blank (body.joins + 1) ++ later.text
        from rfl, hlater]
      rw [Text.breaks_append, Text.breaks_append, Text.breaks_blank, hcount]
      omega

/-- An `#if` that is never taken has no backslash. -/
theorem backslash_not_mem_of_never {line : Text} (h : Directive.conditional? line = some never) :
    '\\' ∉ line := by
  obtain ⟨k, operand, rfl, _, hk⟩ :=
    Directive.exists_keyword_of_ofLine? (Option.filter_eq_some_iff.1 h).1
  cases k with
  | opening form =>
    obtain ⟨rfl, hcondition⟩ := Directive.opening.inj hk
    intro hmem
    rcases List.mem_append.1 hmem with hkeyword | hoperand
    · revert hkeyword
      decide
    -- the operand is a zero, or there is none
    have hstated : '\\' ∈ operand.filter (· != ' ') := List.mem_filter.2 ⟨hoperand, rfl⟩
    unfold Keyword.condition at hcondition
    split at hcondition
    · rename_i hnil
      rw [hnil] at hstated
      cases hstated
    split at hcondition
    · rename_i hzero
      rw [hzero.2] at hstated
      revert hstated
      decide
    split at hcondition
    · cases hcondition
    · cases hcondition
  | elif => cases hk
  | otherwise => cases hk
  | endif => cases hk
  | define => cases hk

/-- Such a line does not go on in the next one. -/
theorem not_joined_of_never {t : Text} (ht : Text.IsWhole t) (h : lastDirective? t = some never) :
    ¬ ['\\', '\n'] <:+ t := by
  rintro ⟨front, hfront⟩
  obtain ⟨line, hline, hdirective⟩ := Option.bind_eq_some_iff.1 h
  obtain ⟨start, hstart⟩ := List.getLast?_eq_some_iff.1 hline
  have hsplit := ht.flatMap_lines
  rw [hstart, List.flatMap_append, List.flatMap_cons, List.flatMap_nil, List.append_nil,
    ← List.append_assoc, ← hfront, List.append_cons front] at hsplit
  have hlast := congrArg List.getLast? (List.append_cancel_right hsplit)
  rw [List.getLast?_concat, List.getLast?_append] at hlast
  cases hend : line.getLast? with
  | none =>
    rw [List.getLast?_eq_none_iff.1 hend] at hdirective
    cases hdirective
  | some c =>
    rw [hend] at hlast
    cases hlast
    exact backslash_not_mem_of_never hdirective (List.mem_of_getLast? hend)

/-- Whole lines of which none is a conditional directive or ends with a backslash. -/
structure IsPlain (t : Text) : Prop where
  whole : Text.IsWhole t
  plain : ∀ line ∈ Text.lines t, Directive.conditional? line = none
  ends : ¬ ['\\', '\n'] <:+: t

instance (t : Text) : Decidable (IsPlain t) :=
  have : Decidable (['\\', '\n'] <:+: t) := List.instDecidableIsInfixOfDecidableEq _ t
  decidable_of_iff (Text.IsWhole t ∧ (∀ line ∈ Text.lines t, Directive.conditional? line = none) ∧
      ¬ ['\\', '\n'] <:+: t)
    ⟨fun h => ⟨h.1, h.2.1, h.2.2⟩, fun h => ⟨h.whole, h.plain, h.ends⟩⟩

/-- Lines without conditional directives are well nested. -/
theorem wellNested_of_plain : ∀ {ls : List Text},
    (∀ line ∈ ls, Directive.conditional? line = none) → ∃ tree : Nesting, tree.lines = ls
  | [], _ => ⟨.nil, rfl⟩
  | line :: ls, h => by
    obtain ⟨hline, hrest⟩ := List.forall_mem_cons.1 h
    obtain ⟨tree, rfl⟩ := wellNested_of_plain hrest
    exact ⟨.plain ⟨line, hline⟩ tree, rfl⟩

theorem IsPlain.endsDefinitions {t : Text} (h : IsPlain t) : EndsDefinitions t := by
  refine endsDefinitions_of h.ends ?_
  rw [h.whole.splitOn_eq, List.getLast?_concat]
  exact fun hdefine => nomatch hdefine

/-- Where macros are not expanded, plain lines stay plain. -/
theorem IsPlain.wellNested_expand {t : Text} (h : IsPlain t) :
    WellNested (expand false t).text := by
  refine wellNested_of_plain fun line hline => ?_
  have huses : ∀ use ∈ expansionUses false t, use.IsHarmless := by
    rw [expansionUses_false]
    exact fun _ huse => absurd huse List.not_mem_nil
  have hsame := (outline_expand_of_endsDefinitions h.endsDefinitions huses).1
  have hmem : outlineOfLine line ∈ outline t := by
    rw [← hsame, outline, (isWhole_expand h.whole).splitOn_eq]
    exact List.mem_map_of_mem (List.mem_append_left _ hline)
  rw [outline, h.whole.splitOn_eq] at hmem
  obtain ⟨other, hother, houtline⟩ := List.mem_map.1 hmem
  have hnone : outlineOfLine other = none := by
    rcases List.mem_append.1 hother with hother | hother
    · rw [outlineOfLine, h.plain other hother]
      rfl
    · rw [List.mem_singleton.1 hother]
      rfl
  rw [hnone] at houtline
  exact Option.map_eq_none_iff.1 houtline.symm

/-! ## 4. Dead lines where macros are expanded -/

/-- Whether dead lines keep to themselves: no definition and no use goes over their edges, their
definitions are not used outside of them, and expanded they are well nested. -/
def IsSelfContained (before dead behind : Text) : Prop :=
  let t := before ++ (dead ++ behind)
  (∀ r ∈ reaches true 0 t,
      r.IsConfined true (Text.breaks before) (Text.breaks before + Text.breaks dead)) ∧
    ∃ tree : Nesting, tree.lines =
      ((Text.lines (expand true t).text).drop (Text.breaks before)).take (Text.breaks dead)

instance (before dead behind : Text) : Decidable (IsSelfContained before dead behind) :=
  inferInstanceAs (Decidable (_ ∧ _))

/-- What stands around dead lines is expanded in one way, whatever these lines are. -/
theorem expand_around_dead (enabled : Bool) {before : Text} (hbefore : Text.IsWhole before)
    (hopens : lastDirective? before = some never) (behind : Text) :
    ∃ later, ∀ {dead : Text}, IsPlain dead →
      (enabled = true → IsSelfContained before dead behind) →
      Text.breaks (expand enabled before).text = Text.breaks before ∧
        ∃ between, Text.IsWhole between ∧ Text.breaks between = Text.breaks dead ∧
          WellNested between ∧ (expand enabled (before ++ (dead ++ behind))).text =
            (expand enabled before).text ++ (between ++ later) := by
  cases enabled with
  | false =>
    refine ⟨(expand false behind).text, fun {dead} hdead _ => ?_⟩
    obtain ⟨htext, hcount⟩ :=
      expand_false_append hbefore (not_joined_of_never hbefore hopens) (dead ++ behind)
    obtain ⟨htext', hcount'⟩ :=
      expand_false_append hdead.whole (fun h => hdead.ends h.isInfix) behind
    exact ⟨hcount, (expand false dead).text, isWhole_expand hdead.whole, hcount',
      hdead.wellNested_expand, by rw [htext, htext']⟩
  | true =>
    obtain ⟨later, hlater⟩ := expand_around_confined hbefore behind
    refine ⟨later, fun {dead} hdead hkeeps => ?_⟩
    obtain ⟨hreaches, tree, htree⟩ := hkeeps rfl
    rw [← Nat.zero_add (Text.breaks before)] at hreaches
    obtain ⟨hcount, between, hwhole, hcount', htext⟩ := hlater 0 hdead.whole hreaches
    refine ⟨hcount, between, hwhole, hcount', ⟨tree, ?_⟩, htext⟩
    have hstart : Text.IsWhole (expand true before).text := isWhole_expand hbefore
    have hlength := hstart.length_lines.trans hcount
    rw [htree, htext, Text.lines_append hstart, Text.lines_append hwhole, ← hlength,
      List.drop_left, ← hcount', ← hwhole.length_lines, List.take_left]

end Macro

/-! ## 5. Disabled code -/

open Variants.Configuration Macro

/-- **Disabled code has no influence** on the code of any key, whether macros are expanded or not,
if the `#if` around it stays one that is never taken and, where macros are expanded, the disabled
lines keep to themselves. -/
theorem select_expand_dead (enabled : Bool) {before dead dead' behind : Text}
    (hbefore : Text.IsWhole before) (hopens : lastDirective? before = some never)
    (hdead : IsPlain dead) (hdead' : IsPlain dead') (hcount : Text.breaks dead = Text.breaks dead')
    (hstays : (Text.lines (expand enabled (before ++ (dead ++ behind))).text)[
      Text.breaks before - 1]?.bind Directive.conditional? = some never)
    (hkeeps : enabled = true → IsSelfContained before dead behind)
    (hkeeps' : enabled = true → IsSelfContained before dead' behind) (key : Text) :
    select (expand enabled (before ++ (dead ++ behind))).text key =
      select (expand enabled (before ++ (dead' ++ behind))).text key := by
  obtain ⟨later, hlater⟩ := expand_around_dead enabled hbefore hopens behind
  obtain ⟨hsame, between, hwhole, hlines, hnested, htext⟩ := hlater hdead hkeeps
  obtain ⟨_, between', hwhole', hlines', hnested', htext'⟩ := hlater hdead' hkeeps'
  have hstart : Text.IsWhole (expand enabled before).text := isWhole_expand hbefore
  have hlength := hstart.length_lines.trans hsame
  have hpos : 0 < Text.breaks before := by
    rw [← hbefore.length_lines]
    refine List.length_pos_iff.2 fun hnil => ?_
    rw [lastDirective?, hnil] at hopens
    cases hopens
  have hstays' : lastDirective? (expand enabled before).text = some never := by
    rw [htext, Text.lines_append hstart, List.getElem?_append_left (by omega), ← hlength] at hstays
    rw [lastDirective?, List.getLast?_eq_getElem?, hstays]
  rw [htext, htext', select_append_dead hstart hstays' hwhole hnested,
    select_append_dead hstart hstays' hwhole' hnested', hlines, hlines', hcount]

/-- Disabled lines with a use of an earlier macro and a definition that is used in them. -/
theorem select_expand_dead_uses :
    IsSelfContained "#define A 1\n#if 0\n".toList "#define B 2\nA B\n".toList
        "#endif\nA\n".toList ∧
      ∀ key, select (expand true ("#define A 1\n#if 0\n".toList ++
          ("#define B 2\nA B\n".toList ++ "#endif\nA\n".toList))).text key =
        select (expand true ("#define A 1\n#if 0\n".toList ++
          ("\n\n".toList ++ "#endif\nA\n".toList))).text key := by
  have hkeeps : IsSelfContained "#define A 1\n#if 0\n".toList "#define B 2\nA B\n".toList
      "#endif\nA\n".toList := by decide +kernel
  have hblank : IsSelfContained "#define A 1\n#if 0\n".toList "\n\n".toList
      "#endif\nA\n".toList := by decide +kernel
  exact ⟨hkeeps, select_expand_dead true (by decide) (by decide) (by decide +kernel)
    (by decide +kernel) (by decide) (by decide +kernel) (fun _ => hkeeps) fun _ => hblank⟩

/-- Whether disabled lines stand between two texts and have other lines that could stand there. -/
def IsDisabled (before dead dead' behind : Text) : Prop :=
  (Text.IsWhole before ∧ lastDirective? before = some never ∧ IsPlain dead) ∧
    (IsPlain dead' ∧ Text.breaks dead = Text.breaks dead') ∧
      WellNested (before ++ (dead ++ behind))

instance (before dead dead' behind : Text) : Decidable (IsDisabled before dead dead' behind) :=
  inferInstanceAs (Decidable (_ ∧ _))

/-- Disabled lines that have an influence: they define a macro that is used behind them, they define
one anew, a call ends in them, a use in them becomes an `#endif`, a definition in them goes on
behind them. The `#if` before them may also turn into another directive or go into a definition, the
latter even where macros are not expanded. -/
theorem select_expand_dead_ne :
    (∀ p ∈ [("#if 0\n", "#define X 1\n", "\n", "#endif\nX\n", ""),
        ("#define X 1\n#if 0\n", "#define X 2\n", "\n", "#endif\nX\n", ""),
        ("#define F(x) y\nF(\n#if 0\n", ")\n", "\n", "#endif\nx\n", ""),
        ("#define E #endif\n#if 0\n", "E\nx\n", "\n\n", "#endif\n", ""),
        ("#define E\n#if 0\n", "#define Z \\E\n", "\n", "#endif\nx\n", ""),
        ("#define if ifdef\n#if 0\n", "x\n", "\n", "#endif\n", "0")],
      IsDisabled p.1.toList p.2.1.toList p.2.2.1.toList p.2.2.2.1.toList ∧
        select (expand true (p.1.toList ++ (p.2.1.toList ++ p.2.2.2.1.toList))).text
            p.2.2.2.2.toList ≠
          select (expand true (p.1.toList ++ (p.2.2.1.toList ++ p.2.2.2.1.toList))).text
            p.2.2.2.2.toList) ∧
      IsDisabled "#define X \\\n#if 0\n".toList "x\n".toList "\n".toList "#endif\n".toList ∧
        select (expand false "#define X \\\n#if 0\nx\n#endif\n".toList).text [] ≠
          select (expand false "#define X \\\n#if 0\n\n#endif\n".toList).text [] := by
  decide +kernel

end Variants
