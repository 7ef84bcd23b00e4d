import Variants.Directive
import Variants.Text.Basic

/-!
# Definitions in a text

A definition starts on a line with `#define` at its start, followed by a space or the end of the
line. It goes on over every line break with a backslash before it, and ends with the first other
line break; without one it is unfinished.

The two cuts of this file take a text apart at its first definition, and each says what it leaves:
`cutBefore_append` for what stands before the keyword, `breaks_cutBody` for the line breaks of the
body.
-/

namespace Variants.Macro

/-! ## 1. Up to the keyword -/

/-- The text behind the keyword of a definition with which a text starts. -/
def definition? (t : Text) : Option Text :=
  match Keyword.define.text.isPrefixOf? t with
  | none => none
  | some rest => if rest.head?.all fun c => c == ' ' || c == '\n' then some rest else none

/-- Cuts a text at its first definition: what stands before it, and what follows the keyword.
`atStart` says that the text starts a line. -/
def cutBefore (atStart : Bool) : Text → Option (Text × Text)
  | [] => none
  | c :: t =>
    match if atStart then definition? (c :: t) else none with
    | some rest => some ([], rest)
    | none => (cutBefore (c == '\n') t).map fun cut => (c :: cut.1, cut.2)

/-! ## 2. Up to the end of the definition -/

/-- The body of a definition, in one line; the number of continuations in it; and the text after
its line break. -/
structure Body where
  text : Text
  joins : Nat
  rest : Text
  deriving DecidableEq, Repr

/-- Cuts the text behind the keyword at the end of the definition. -/
def cutBody : Text → Option Body
  | [] => none
  | c :: t =>
    if c = '\n' then some ⟨[], 0, t⟩
    else
      match t with
      | [] => none
      | d :: u =>
        if c = '\\' ∧ d = '\n' then
          (cutBody u).map fun body => ⟨body.text, body.joins + 1, body.rest⟩
        else (cutBody (d :: u)).map fun body => ⟨c :: body.text, body.joins, body.rest⟩

/-! ## 3. What the cuts keep -/

theorem definition?_append {t rest : Text} (h : definition? t = some rest) :
    t = Keyword.define.text ++ rest := by
  unfold definition? at h
  split at h
  · simp at h
  · rename_i tail htail
    split at h
    · cases h
      exact Text.isPrefixOf?_eq_some_iff.1 htail
    · simp at h

/-- A text is what stands before its first definition, the keyword, and what follows it. -/
theorem cutBefore_append {atStart : Bool} {t : Text} {cut : Text × Text}
    (h : cutBefore atStart t = some cut) : t = cut.1 ++ (Keyword.define.text ++ cut.2) := by
  induction t generalizing atStart cut with
  | nil => simp [cutBefore] at h
  | cons c t ih =>
    unfold cutBefore at h
    split at h
    · rename_i rest hrest
      cases h
      split at hrest
      · exact definition?_append hrest
      · simp at hrest
    · obtain ⟨inner, hin, rfl⟩ := Option.map_eq_some_iff.1 h
      rw [List.cons_append, ← ih hin]

/-- The body has no line break; those of the definition are its continuations and the last one. -/
theorem breaks_cutBody {t : Text} {body : Body} (h : cutBody t = some body) :
    Text.breaks body.text = 0 ∧
      Text.breaks t = body.joins + 1 + Text.breaks body.rest := by
  fun_induction cutBody t generalizing body with
  | case1 => simp at h
  | case2 t => cases h; simp [Text.breaks_cons]; omega
  | case3 => simp at h
  | case4 c hc d u hcd ih =>
    obtain ⟨inner, hin, rfl⟩ := Option.map_eq_some_iff.1 h
    obtain ⟨h1, h2⟩ := ih hin
    refine ⟨h1, ?_⟩
    obtain ⟨rfl, rfl⟩ := hcd
    simp only [Text.breaks_cons, h2]
    simp
    omega
  | case5 c hc d u hcd ih =>
    obtain ⟨inner, hin, rfl⟩ := Option.map_eq_some_iff.1 h
    obtain ⟨h1, h2⟩ := ih hin
    rw [Text.breaks_cons c (d :: u), h2]
    simp [Text.breaks_cons, h1, hc]

end Variants.Macro
