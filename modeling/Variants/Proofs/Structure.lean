import Variants.Macro.Expand
import Variants.Proofs.Uses

/-!
# What expanding macros does to the outline

Expanding takes the definitions out of a text one after the other, each with a pass over the text
after it. A definition that ends on its line leaves an empty line, and so the outline of the text
changes by the uses alone. Where they are all harmless, the expanded text has the outline of the
text (`outline_expand`); where one is not, a directive may come up, go or become another one
(`outline_expand_ne`).
-/

namespace Variants

open Macro

namespace Macro

/-! ## 1. The uses of all macros -/

/-- The uses of the macro that a definition defines, in the text after it. -/
def usesAfter (enabled : Bool) (definition rest : Text) : List Use :=
  match ofText? definition with
  | none => []
  | some m => if enabled then m.uses [] rest else []

/-- The uses that are replaced when a text is expanded, in this order. -/
def expansionUses (enabled : Bool) (t : Text) : List Use :=
  match _hbefore : cutBefore true t with
  | none => []
  | some (_, behind) =>
    match _hbody : cutBody behind with
    | none => []
    | some body =>
      usesAfter enabled body.text body.rest ++
        expansionUses enabled (define enabled body.text body.rest).1
termination_by Text.breaks t
decreasing_by
  obtain ⟨hbreaks, hrest⟩ := breaks_cutBody _hbody
  rw [breaks_define enabled body.rest hbreaks, cutBefore_append _hbefore]
  simp only [Text.breaks_append]
  omega

theorem expansionUses_defined {enabled : Bool} {t before behind : Text} {body : Body}
    (hbefore : cutBefore true t = some (before, behind)) (hbody : cutBody behind = some body) :
    expansionUses enabled t = usesAfter enabled body.text body.rest ++
      expansionUses enabled (define enabled body.text body.rest).1 := by
  rw [expansionUses]
  split
  · rename_i h
    cases hbefore.symm.trans h
  · rename_i h
    cases hbefore.symm.trans h
    split
    · rename_i h
      cases hbody.symm.trans h
    · rename_i h
      cases hbody.symm.trans h
      rfl

/-- The name of a macro has no line break if its definition has none. -/
theorem newline_not_mem_name {definition : Text} {m : Macro} (h : ofText? definition = some m)
    (hd : Text.breaks definition = 0) : '\n' ∉ m.name := by
  obtain ⟨token, hmem, hname⟩ := name_eq_lexeme h
  rw [Text.breaks_eq_zero] at hd
  rw [hname]
  exact fun hbreak => hd (Token.mem_of_mem_lexeme hmem _ hbreak)

/-- A definition leaves the text after it alone, or its macro makes a pass over it. -/
theorem define_cases (enabled : Bool) (definition rest : Text) :
    (define enabled definition rest).1 = rest ∨
      ∃ m, ofText? definition = some m ∧ usesAfter enabled definition rest = m.uses [] rest ∧
        (define enabled definition rest).1 = (m.expandUses [] rest).text := by
  unfold usesAfter define
  cases hm : ofText? definition with
  | none => exact Or.inl rfl
  | some m =>
    cases enabled with
    | false => exact Or.inl rfl
    | true => exact Or.inr ⟨m, rfl, rfl, rfl⟩

/-- **The text after a definition keeps its outline** if the uses in it are harmless. -/
theorem keepsOutline_define {enabled : Bool} {definition rest : Text}
    (hd : Text.breaks definition = 0)
    (h : ∀ use ∈ usesAfter enabled definition rest, use.IsHarmless) :
    KeepsOutline rest (define enabled definition rest).1 := by
  rcases define_cases enabled definition rest with hsame | ⟨m, hm, huses, htext⟩
  · rw [hsame]
    exact KeepsOutline.refl rest
  · rw [huses] at h
    rw [htext]
    exact Variants.keepsOutline_expandUses (breaks_body hm hd) List.not_mem_nil h

theorem define_nil (enabled : Bool) (definition : Text) :
    (define enabled definition []).1 = [] := by
  rcases define_cases enabled definition [] with hsame | ⟨m, _, _, htext⟩
  · exact hsame
  · rw [htext, expandUses]

theorem expand_nil (enabled : Bool) : expand enabled [] = ⟨[], [], none⟩ := by
  rw [expand]
  rfl

theorem getLast?_define {enabled : Bool} {definition rest : Text} (hd : Text.breaks definition = 0)
    (h : rest.getLast? = some '\n') : (define enabled definition rest).1.getLast? = some '\n' := by
  rcases define_cases enabled definition rest with hsame | ⟨m, hm, _, htext⟩
  · rw [hsame]
    exact h
  · rw [htext]
    exact Variants.getLast?_expandUses (newline_not_mem_name hm hd) h

end Macro

/-! ## 2. The outline of an expanded text -/

/-- An outline that starts with some pieces and goes on with a line. -/
theorem outline_of_splitOn {start : Text} {done : List Text}
    (h : ∀ s : Text, (start ++ s).splitOn '\n' = done ++ s.splitOn '\n') {line : Text}
    (rest : Text) (hline : '\n' ∉ line) :
    outline (start ++ line) = done.map outlineOfLine ++ [outlineOfLine line] ∧
      outline (start ++ (line ++ '\n' :: rest)) =
        done.map outlineOfLine ++ outlineOfLine line :: outline rest := by
  refine ⟨?_, ?_⟩
  · rw [outline, h, List.map_append, List.splitOn_eq_singleton hline, List.map_singleton]
  · rw [outline, h, List.map_append, List.splitOn_append_cons_self_of_not_mem hline, List.map_cons,
      outline]

/-- Texts whose definitions all end on their lines keep their outline when all uses are harmless. -/
theorem outline_expand_of_endsDefinitions {enabled : Bool} {t : Text} (hends : EndsDefinitions t)
    (huses : ∀ use ∈ expansionUses enabled t, use.IsHarmless) :
    outline (expand enabled t).text = outline t ∧
      (t.getLast? = some '\n' → (expand enabled t).text.getLast? = some '\n') := by
  fun_induction expand enabled t with
  | case1 t hbefore => exact ⟨rfl, id⟩
  | case2 t before behind hbefore hbody =>
    obtain ⟨done, hdone⟩ := splitOn_of_cutBefore hbefore
    obtain ⟨line, hdefine, hbreak, ⟨ht, _⟩ | ⟨d, rest, _, _, hsome⟩⟩ :=
      exists_line_of_cutBefore hbefore hends.finishes
    · have hempty := (outline_of_splitOn hdone [] List.not_mem_nil).1
      rw [List.append_nil] at hempty
      refine ⟨?_, fun hend => ?_⟩
      · rw [ht, (outline_of_splitOn hdone [] hbreak).1, outlineOfLine_define hdefine]
        exact hempty
      · have hne : line ≠ [] := by
          rintro rfl
          cases hdefine
        rw [ht, List.getLast?_append, List.getLast?_eq_some_getLast hne, Option.some_or] at hend
        exact absurd (Option.some.inj hend ▸ List.getLast_mem hne) hbreak
    · cases hbody.symm.trans hsome
  | case3 t before behind hbefore body hbody defined later ih =>
    obtain ⟨done, hdone⟩ := splitOn_of_cutBefore hbefore
    obtain ⟨line, hdefine, hbreak, ⟨_, hnone⟩ | ⟨d, rest, ht, hd, hsome⟩⟩ :=
      exists_line_of_cutBefore hbefore hends.finishes
    · cases hbody.symm.trans hnone
    cases hbody.symm.trans hsome
    obtain ⟨started, hpieces⟩ := exists_splitOn_of_line hbefore ht hbreak
    have hrest : EndsDefinitions rest := by
      intro other hother
      refine hends other ?_
      rw [hpieces]
      exact List.mem_append_right _ hother
    rw [expansionUses_defined hbefore hsome] at huses
    have hkeeps := keepsOutline_define (Text.breaks_eq_zero.2 hd) fun use huse =>
      huses use (List.mem_append_left _ huse)
    obtain ⟨hlater, hlast⟩ := ih (hkeeps.ends hrest) fun use huse =>
      huses use (List.mem_append_right _ huse)
    have hresult : before ++ Text.blank (0 + 1) ++ later.text =
        before ++ ([] ++ '\n' :: later.text) := List.append_assoc _ _ _
    show outline (before ++ Text.blank (0 + 1) ++ later.text) = _ ∧
      (_ → (before ++ Text.blank (0 + 1) ++ later.text).getLast? = _)
    rw [hresult]
    refine ⟨?_, fun hend => ?_⟩
    · rw [ht, (outline_of_splitOn hdone rest hbreak).2, outlineOfLine_define hdefine,
        ← hkeeps.outline_eq, ← hlater]
      exact (outline_of_splitOn hdone later.text List.not_mem_nil).2
    · cases hrest : rest.getLast? with
      | none =>
        have hnil : later.text = [] := by
          show (expand enabled (define enabled d rest).1).text = []
          rw [List.getLast?_eq_none_iff.1 hrest, define_nil, expand_nil]
        rw [hnil, List.nil_append, List.getLast?_concat]
      | some c =>
        have hsame : (before ++ (line ++ '\n' :: rest)).getLast? = some c := by
          rw [List.append_cons, ← List.append_assoc, List.getLast?_append, hrest, Option.some_or]
        rw [ht, hsame] at hend
        have hend' := hlast (getLast?_define (Text.breaks_eq_zero.2 hd) (hrest.trans hend))
        have htext : later.text.getLast? = some '\n' := hend'
        rw [List.nil_append, List.append_cons, List.getLast?_append, htext, Option.some_or]

/-- **Harmless uses do not disturb the structure.** A text without continued lines whose definitions
all end with a line break has, line by line, the same conditional directives after its macros are
expanded, if all uses are harmless. It has as many line breaks, and as many lines if it ends with a
line break. -/
theorem outline_expand {enabled : Bool} {t : Text} (hjoined : ¬ ['\\', '\n'] <:+: t)
    (hlast : (t.splitOn '\n').getLast?.bind Directive.ofLine? ≠ some .define)
    (huses : ∀ use ∈ expansionUses enabled t, use.IsHarmless) :
    Text.breaks (expand enabled t).text = Text.breaks t ∧
      (t.getLast? = some '\n' →
        (Text.lines (expand enabled t).text).length = (Text.lines t).length) ∧
      ∀ i : Nat, (Text.lines (expand enabled t).text)[i]?.bind outlineOfLine =
        (Text.lines t)[i]?.bind outlineOfLine := by
  have hends := endsDefinitions_of hjoined hlast
  obtain ⟨hsame, hend⟩ := outline_expand_of_endsDefinitions hends huses
  have hbreaks : Text.breaks (expand enabled t).text = Text.breaks t := by
    have hlength := congrArg List.length hsame
    rw [outline, outline, List.length_map, List.length_map, Text.length_splitOn,
      Text.length_splitOn] at hlength
    exact Nat.succ.inj hlength
  refine ⟨hbreaks, fun hnewline => ?_, fun i => ?_⟩
  · rw [Text.length_lines hnewline, Text.length_lines (hend hnewline), hbreaks]
  · rw [bind_outlineOfLine_lines, bind_outlineOfLine_lines, hsame]

/-- A use in an expression is harmless. -/
theorem outline_expand_expression :
    (¬ ['\\', '\n'] <:+: "#define X 1\n#if X\n#endif\n".toList) ∧
      Text.breaks (expand true "#define X 1\n#if X\n#endif\n".toList).text = 3 ∧
      ∀ i : Nat, (Text.lines (expand true "#define X 1\n#if X\n#endif\n".toList).text)[i]?.bind
          outlineOfLine =
        (Text.lines "#define X 1\n#if X\n#endif\n".toList)[i]?.bind outlineOfLine := by
  have hjoined : ¬ ['\\', '\n'] <:+: "#define X 1\n#if X\n#endif\n".toList := by decide +kernel
  obtain ⟨hbreaks, _, hlines⟩ := outline_expand hjoined (by decide)
    (show ∀ use ∈ expansionUses true "#define X 1\n#if X\n#endif\n".toList, use.IsHarmless by
      decide +kernel)
  exact ⟨hjoined, hbreaks, hlines⟩

/-- Uses that are not harmless: a macro that is named like a keyword, one that becomes a directive,
two calls over several lines, and a definition that goes on after a use in it. A last line without a
line break may be lost as well. -/
theorem outline_expand_ne :
    (∀ p ∈ [("#define endif x\n#ifdef A\n#endif\n", 2), ("#define X #endif\nX\n", 1),
        ("#define F(x) x\nF(\n#ifdef A\n)\n", 2), ("#define F(x) x\nF(\n)#endif\n", 2),
        ("#define E\n#define Z \\E\n#ifdef A\n#endif\n", 2)],
      (¬ ['\\', '\n'] <:+: p.1.toList) ∧
        (p.1.toList.splitOn '\n').getLast?.bind Directive.ofLine? ≠ some .define ∧
        (Text.lines (expand true p.1.toList).text)[p.2]?.bind outlineOfLine ≠
          (Text.lines p.1.toList)[p.2]?.bind outlineOfLine) ∧
      (Text.lines (expand true "#define X\nX".toList).text).length ≠
        (Text.lines "#define X\nX".toList).length := by
  decide +kernel

end Variants
