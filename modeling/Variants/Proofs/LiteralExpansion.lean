import Variants.Process
import Variants.Proofs.LiteralLayout
import Variants.Proofs.Reach
import Variants.Proofs.Removal

/-!
# Literals in an expanded text

Expanding takes definitions out of the text and puts replacements in for uses, wherever their names
stand, in a literal as well. Each of these edits is listed with the state of the text before it
(`Macro.expansionEdits`). Where all of them stand outside of literals and have no quotes, the text
keeps its literals (`Macro.sameLiterals_expand`), and with the layout before it a whole source does
(`literals_process`).
-/

namespace Variants

open Literal

namespace Macro

/-! ## 1. Edits -/

/-- A place where expanding changes the text: whether a literal is open there, what is taken out,
and what is put in. -/
structure Edit where
  state : State
  old : Text
  new : Text
  deriving DecidableEq

/-- Whether an edit has nothing to do with literals. -/
def Edit.IsOutside (edit : Edit) : Prop :=
  edit.state = .outside ∧ IsUnquoted edit.old ∧ IsUnquoted edit.new

instance (edit : Edit) : Decidable edit.IsOutside := inferInstanceAs (Decidable (_ ∧ _))

theorem Edit.IsOutside.sameLiterals {edit : Edit} (h : edit.IsOutside) :
    SameLiterals edit.state edit.old edit.new := by
  obtain ⟨state, old, new⟩ := edit
  obtain ⟨rfl, hold, hnew⟩ := h
  exact SameLiterals.of_unquoted hold hnew

/-! ## 2. A pass -/

/-- The edits of a pass. `line` is the line before the text, from its end to its start. -/
def edits (m : Macro) (s : State) (line : Text) : Text → List Edit
  | [] => []
  | c :: t =>
    match _hstep : m.step line c t with
    | .stop => []
    | .keep kept rest => edits m (s.after kept) (lineAfter line kept) rest
    | .replace text rest =>
      let written := (c :: t).take ((c :: t).length - rest.length)
      ⟨s, written, text⟩ :: edits m (s.after written) (lineAfter line text) rest
termination_by t => t.length
decreasing_by
  · exact length_step_lt (by rw [_hstep]; rfl)
  · exact length_step_lt (by rw [_hstep]; rfl)

/-- **A pass leaves literals alone** if its edits have nothing to do with them. -/
theorem sameLiterals_expandUses {m : Macro} {s : State} {line t : Text}
    (h : ∀ edit ∈ m.edits s line t, edit.IsOutside) :
    SameLiterals s t (m.expandUses line t).text := by
  fun_induction edits m s line t with
  | case1 s line =>
    rw [expandUses]
    exact SameLiterals.refl s []
  | case2 s line c t hstep =>
    rw [expandUses_stop hstep]
    exact SameLiterals.refl s (c :: t)
  | case3 s line c t kept rest hstep ih =>
    rw [expandUses_keep hstep, append_of_keep hstep]
    exact (SameLiterals.refl s kept).append (ih h)
  | case4 s line c t text rest hstep written ih =>
    obtain ⟨hedit, hlater⟩ := List.forall_mem_cons.1 h
    have hsplit : c :: t = written ++ rest := by
      obtain ⟨_, _, use, huse, _⟩ := of_replace hstep
      have htake : written = use := by
        show (c :: t).take ((c :: t).length - rest.length) = use
        rw [huse, List.length_append, Nat.add_sub_cancel, List.take_left]
      rw [htake, huse]
    rw [expandUses_replace hstep, hsplit]
    exact hedit.sameLiterals.append (ih hlater)

/-! ## 3. All passes -/

/-- The edits of the macro that a definition defines, in the text after it. -/
def editsAfter (enabled : Bool) (s : State) (definition rest : Text) : List Edit :=
  match ofText? definition with
  | none => []
  | some m => if enabled then m.edits s [] rest else []

/-- The edits of an expansion: each definition that is taken out, and after it the uses of its
macro. -/
def expansionEdits (enabled : Bool) (s : State) (t : Text) : List Edit :=
  match _hbefore : cutBefore true t with
  | none => []
  | some (before, behind) =>
    match _hbody : cutBody behind with
    | none => [⟨s.after before, Keyword.define.text ++ behind, []⟩]
    | some body =>
      let written := Keyword.define.text ++ behind.take (behind.length - body.rest.length)
      let later := (s.after before).after written
      ⟨s.after before, written, Text.blank (body.joins + 1)⟩ ::
        (editsAfter enabled later body.text body.rest ++
          expansionEdits enabled later (define enabled body.text body.rest).1)
termination_by Text.breaks t
decreasing_by
  obtain ⟨hbreaks, hrest⟩ := breaks_cutBody _hbody
  rw [breaks_define enabled body.rest hbreaks, cutBefore_append _hbefore]
  simp only [Text.breaks_append]
  omega

theorem sameLiterals_define {enabled : Bool} {s : State} {definition rest : Text}
    (h : ∀ edit ∈ editsAfter enabled s definition rest, edit.IsOutside) :
    SameLiterals s rest (define enabled definition rest).1 := by
  unfold editsAfter at h
  unfold define
  cases hm : ofText? definition with
  | none => exact SameLiterals.refl s rest
  | some m =>
    rw [hm] at h
    cases enabled with
    | false => exact SameLiterals.refl s rest
    | true => exact sameLiterals_expandUses h

/-- **Expanding leaves literals alone** if its edits have nothing to do with them. -/
theorem sameLiterals_expand {enabled : Bool} {s : State} {t : Text}
    (h : ∀ edit ∈ expansionEdits enabled s t, edit.IsOutside) :
    SameLiterals s t (expand enabled t).text := by
  fun_induction expansionEdits enabled s t with
  | case1 s t hbefore =>
    rw [expand_eq_self hbefore]
    exact SameLiterals.refl s t
  | case2 s t before behind hbefore hbody =>
    have hedit := List.forall_mem_singleton.1 h
    have hcut := (SameLiterals.refl s before).append hedit.sameLiterals
    rw [List.append_nil] at hcut
    rw [expand_unfinished hbefore hbody]
    exact cutBefore_append hbefore ▸ hcut
  | case3 s t before behind hbefore body hbody written later ih =>
    obtain ⟨hedit, hrest⟩ := List.forall_mem_cons.1 h
    obtain ⟨huses, hlater⟩ := List.forall_mem_append.1 hrest
    have hsplit : t = before ++ (written ++ body.rest) := by
      obtain ⟨front, hfront⟩ := rest_suffix_of_cutBody hbody
      have htake : written = Keyword.define.text ++ front := by
        show Keyword.define.text ++ behind.take (behind.length - body.rest.length) = _
        rw [hfront, List.length_append, Nat.add_sub_cancel, List.take_left]
      rw [cutBefore_append hbefore, htake, List.append_assoc, ← hfront]
    have hafter := (sameLiterals_define huses).trans (ih hlater)
    rw [text_expand_defined hbefore hbody, hsplit, List.append_assoc before (Text.blank _)]
    exact (SameLiterals.refl s before).append (hedit.sameLiterals.append hafter)

end Macro

/-! ## 4. Literals in a processed source -/

/-- **Literals survive**: the processed text has the literals of the cleaned source, and so has the
text before its macros are expanded, if neither the layout nor an edit of the expansion has to do
with one of them. -/
theorem literals_process (options : Options) {source : Text}
    (hlayout : Layout.SparesLiterals (Source.read source))
    (hedits : ∀ edit ∈ Macro.expansionEdits options.expandMacros .outside (prepare source),
      edit.IsOutside) :
    Token.literals (prepare source) = Token.literals (Source.read source) ∧
      Token.literals (process options source).text = Token.literals (Source.read source) := by
  have hprepared := hlayout.sameLiterals
  have hexpanded := hprepared.trans (Macro.sameLiterals_expand hedits)
  exact ⟨(Token.literals_eq_of_marks hprepared.marks_eq).symm,
    (Token.literals_eq_of_marks hexpanded.marks_eq).symm⟩

/-- Literals beside uses of a macro, a continued line and a test of one symbol, one of them over two
lines and with the name of the macro in a longer word. -/
theorem literals_process_lines :
    Token.literals (process .standard
        "#define X 1\n#if defined(A)\nX \"X1\n'\"X'b' \\\n X\n#endif\n".toList).text =
      ["\"X1\n'\"".toList, "'b'".toList] := by
  have hlayout : Layout.SparesLiterals (Source.read
      "#define X 1\n#if defined(A)\nX \"X1\n'\"X'b' \\\n X\n#endif\n".toList) :=
    ⟨by decide +kernel, by decide +kernel, by decide +kernel⟩
  rw [(literals_process .standard hlayout (by decide +kernel)).2]
  decide +kernel

/-- Whether a line defines no macro with a quote or with parameters. -/
def IsPlainDefinition (line : Text) : Prop :=
  StartsDefinition line → IsUnquoted line ∧
    ((Macro.ofText? (line.drop Keyword.define.text.length)).all fun m => !m.isFunctionLike) = true

instance (line : Text) : Decidable (IsPlainDefinition line) := inferInstanceAs (Decidable (_ → _))

/-- Literals that do not survive. The layout changes one with a tab, two with a space beside a line
break, one with a continued line, one that goes on behind a continued line, and one with a test of
one symbol. Expanding changes one with a definition, one with a use, and one in a definition that a
use makes. -/
theorem literals_process_ne :
    (∀ source ∈ ["\"\t\"", "\"a \nb\"", "\"a\n b\"", "\"a\\\nb\"", "x \\\n\"a\nb\"",
        "\"\n#if defined(X)\n\""],
      (∀ line ∈ Text.lines source.toList, IsPlainDefinition line) ∧
        Token.literals (Layout.normalize (Source.read source.toList)) ≠
          Token.literals (Source.read source.toList) ∧
        Token.literals (process .standard source.toList).text ≠
          Token.literals (Source.read source.toList)) ∧
      ∀ source ∈ ["\"\n#define X 1\n\"", "#define X 1\n\"X\"\n", "#define D #define\nD \"x\"\n"],
        (∀ line ∈ Text.lines source.toList, IsPlainDefinition line) ∧
          Token.literals (process .standard source.toList).text ≠
            Token.literals (Source.read source.toList) := by
  decide +kernel

end Variants
