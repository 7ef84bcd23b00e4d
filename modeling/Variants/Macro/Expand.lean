import Variants.Macro.Define
import Variants.Macro.Definition
import Variants.Macro.Use

/-!
# Expanding the macros of a text

The definitions of a text are taken out from first to last, and each one gets one pass over the text
after it, so that a macro is not visible before its definition. In place of a definition stand its
line breaks. What a pass put in may be a definition again and is then met like any other; still
every definition uses up a line break and no pass adds one, and so the work ends.

A definition without a final line break cuts the text off where it starts.
-/

namespace Variants.Macro

/-- What became of a definition: it names no macro, or its macro is not expanded, or a pass was made
over the text after it. -/
inductive Outcome where
  | unnamed
  | unused
  | expanded (name : Text) (count : Nat) (redefined : Bool)
  deriving DecidableEq, Repr

/-- A definition that was taken out: the text in which a macro was looked for, and what became
of it. -/
structure Definition where
  text : Text
  outcome : Outcome
  deriving DecidableEq, Repr

/-- An expanded text: the text, the definitions in the order in which they were taken out, and the
unfinished definition that was cut off at the end, if there was one. -/
structure Expansion where
  text : Text
  definitions : List Definition
  unfinished : Option Text
  deriving DecidableEq, Repr

/-- The text after a definition as its macro leaves it, and what became of the definition. `enabled`
says whether macros are expanded. -/
def define (enabled : Bool) (definition rest : Text) : Text × Outcome :=
  match ofText? definition with
  | none => (rest, .unnamed)
  | some m =>
    if enabled then
      let pass := m.expandUses [] rest
      (pass.text, .expanded m.name pass.count pass.redefined)
    else (rest, .unused)

/-- A definition keeps the line breaks of the text after it. -/
theorem breaks_define (enabled : Bool) {definition : Text} (rest : Text)
    (h : Text.breaks definition = 0) :
    Text.breaks (define enabled definition rest).1 = Text.breaks rest := by
  unfold define
  split
  · rfl
  · rename_i m hm
    split
    · exact breaks_expandUses (breaks_body hm h) [] rest
    · rfl

/-- Where macros are not expanded, a definition leaves the text after it alone. -/
theorem define_false (definition rest : Text) : (define false definition rest).1 = rest := by
  unfold define
  split <;> rfl

/-- Takes out the definitions of a text that starts a line, and expands their macros. -/
def expand (enabled : Bool) (t : Text) : Expansion :=
  match _hbefore : cutBefore true t with
  | none => ⟨t, [], none⟩
  | some (before, behind) =>
    match _hbody : cutBody behind with
    | none => ⟨before, [], some (Keyword.define.text ++ behind)⟩
    | some body =>
      let defined := define enabled body.text body.rest
      let later := expand enabled defined.1
      ⟨before ++ Text.blank (body.joins + 1) ++ later.text,
        ⟨body.text, defined.2⟩ :: later.definitions, later.unfinished⟩
termination_by Text.breaks t
decreasing_by
  obtain ⟨hbreaks, hrest⟩ := breaks_cutBody _hbody
  rw [breaks_define enabled body.rest hbreaks, cutBefore_append _hbefore]
  simp only [Text.breaks_append]
  omega

section Equations

variable {t before behind : Text}

/-- A text without definitions is left as it is. -/
theorem expand_eq_self (h : cutBefore true t = none) (enabled : Bool) :
    expand enabled t = ⟨t, [], none⟩ := by
  rw [expand]
  split
  · rfl
  · rename_i hcut
    cases h.symm.trans hcut

/-- An unfinished definition cuts the text off. -/
theorem expand_unfinished (hbefore : cutBefore true t = some (before, behind))
    (hbody : cutBody behind = none) (enabled : Bool) :
    expand enabled t = ⟨before, [], some (Keyword.define.text ++ behind)⟩ := by
  rw [expand]
  split
  · rename_i h
    cases hbefore.symm.trans h
  · rename_i h
    cases hbefore.symm.trans h
    split
    · rfl
    · rename_i h
      cases hbody.symm.trans h

/-- A definition is taken out, and the text after it is expanded as its macro leaves it. -/
theorem expand_defined {body : Body} (hbefore : cutBefore true t = some (before, behind))
    (hbody : cutBody behind = some body) (enabled : Bool) :
    expand enabled t =
      let defined := define enabled body.text body.rest
      let later := expand enabled defined.1
      ⟨before ++ Text.blank (body.joins + 1) ++ later.text,
        ⟨body.text, defined.2⟩ :: later.definitions, later.unfinished⟩ := by
  rw [expand]
  split
  · rename_i h
    cases hbefore.symm.trans h
  · rename_i h
    cases hbefore.symm.trans h
    split
    · rename_i h
      cases hbody.symm.trans h
    · rename_i h
      cases hbody.symm.trans h
      rfl

theorem text_expand_defined {body : Body} (hbefore : cutBefore true t = some (before, behind))
    (hbody : cutBody behind = some body) (enabled : Bool) :
    (expand enabled t).text = before ++ Text.blank (body.joins + 1) ++
      (expand enabled (define enabled body.text body.rest).1).text := by
  rw [expand_defined hbefore hbody]

end Equations

end Variants.Macro
