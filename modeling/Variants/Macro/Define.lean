import Variants.Macro.Basic
import Variants.Token.Scanner

/-!
# Reading a definition

The text after `#define` is read as tokens. The first one must be a name and is the macro's. A
parenthesis right behind it, with a name as its first token, opens a parameter list that runs to the
next closing parenthesis; the names in it are the parameters. Everything after that is the body.
-/

namespace Variants.Macro

/-- The macro that the tokens of a definition make up. -/
def ofTokens? : List Token → Option Macro
  | [] => none
  | name :: rest =>
    if name.isName then
      match rest with
      | bracket :: first :: more =>
        if bracket.lexeme = ['('] ∧ first.isName ∧ bracket.follows name then
          let isInside : Token → Bool := fun token => token.lexeme != [')']
          some ⟨name.lexeme,
            (((first :: more).takeWhile isInside).filter Token.isName).map Token.lexeme,
            ((first :: more).dropWhile isInside).tail⟩
        else some ⟨name.lexeme, [], rest⟩
      | _ => some ⟨name.lexeme, [], rest⟩
    else none

/-- The macro that the text after `#define` defines. -/
def ofText? (definition : Text) : Option Macro := ofTokens? (Token.tokens definition)

/-! ## Line breaks in a definition -/

/-- The body of a macro is a part of its definition. -/
theorem body_subset {tokens : List Token} {m : Macro} (h : ofTokens? tokens = some m) :
    ∀ token ∈ m.body, token ∈ tokens := by
  unfold ofTokens? at h
  split at h
  · simp at h
  · rename_i name rest
    split at h
    · split at h
      · rename_i bracket first more
        split at h
        · cases h
          intro token htoken
          have := List.mem_of_mem_tail htoken
          have := (List.dropWhile_sublist _).subset this
          simp_all
        · cases h
          intro token htoken
          exact List.mem_cons_of_mem _ htoken
      · cases h
        intro token htoken
        exact List.mem_cons_of_mem _ htoken
    · simp at h

/-- A macro is named by the first token of its definition. -/
theorem name_eq_lexeme {tokens : List Token} {m : Macro} (h : ofTokens? tokens = some m) :
    ∃ token ∈ tokens, m.name = token.lexeme := by
  unfold ofTokens? at h
  split at h
  · simp at h
  · rename_i name rest
    refine ⟨name, List.mem_cons_self, ?_⟩
    split at h
    · split at h
      · split at h <;> (cases h; rfl)
      · cases h; rfl
    · simp at h

/-- The name of a macro is not empty. -/
theorem name_ne_nil {definition : Text} {m : Macro} (h : ofText? definition = some m) :
    m.name ≠ [] := by
  obtain ⟨token, hmem, hname⟩ := name_eq_lexeme h
  rw [hname]
  exact Token.lexeme_ne_nil hmem

/-- A definition without line breaks has a body without line breaks. -/
theorem breaks_body {definition : Text} {m : Macro} (h : ofText? definition = some m)
    (hd : Text.breaks definition = 0) : ∀ token ∈ m.body, Text.breaks token.lexeme = 0 := by
  intro token htoken
  rw [Text.breaks_eq_zero] at hd ⊢
  exact fun hmem => hd (Token.mem_of_mem_lexeme (body_subset h token htoken) _ hmem)

end Variants.Macro
