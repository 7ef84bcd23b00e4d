import Variants.Token.Basic

/-!
# Macros

A macro has a name, parameters and a body of tokens. One without parameters is object-like: its
bare name is a use of it. One with parameters is function-like and takes a call.

`replacement` renders the body with arguments for the parameters. Two neighbouring names are parted
by a space, which keeps `unsigned int` in two words; all other tokens are written without a gap.
-/

namespace Variants

/-- A macro. -/
structure Macro where
  name : Text
  parameters : List Text
  body : List Token
  deriving DecidableEq, Repr

namespace Macro

/-- Whether a use of the macro is a call. -/
def isFunctionLike (m : Macro) : Bool := !m.parameters.isEmpty

/-- The argument for a parameter. Of two parameters of one name the later one counts, and a
parameter without an argument has none. -/
def argument? (m : Macro) (arguments : List Text) (name : Text) : Option Text :=
  (m.parameters.zip arguments).reverse.lookup name

/-- A token of the body with the argument put in its place, if it names a parameter. -/
def substitute (m : Macro) (arguments : List Text) (token : Token) : Text :=
  if token.isName then (m.argument? arguments token.lexeme).getD token.lexeme else token.lexeme

/-- The text of some tokens. `write` is the text of one of them. -/
def render (write : Token → Text) : List Token → Text
  | [] => []
  | token :: rest =>
    write token ++
      (if token.isName && rest.head?.any Token.isName then [' '] else []) ++ render write rest

/-- The text that a use of the macro becomes. -/
def replacement (m : Macro) (arguments : List Text) : Text := render (m.substitute arguments) m.body

/-! ## Line breaks in a replacement -/

theorem mem_of_lookup_eq_some {name argument : Text} {l : List (Text × Text)}
    (h : l.lookup name = some argument) : (name, argument) ∈ l := by
  obtain ⟨_, _, rfl, _⟩ := List.lookup_eq_some_iff.1 h
  simp

/-- An argument in use is one of the arguments given. -/
theorem argument?_mem {m : Macro} {arguments : List Text} {name argument : Text}
    (h : m.argument? arguments name = some argument) : argument ∈ arguments := by
  have hmem := mem_of_lookup_eq_some h
  exact (List.of_mem_zip (List.mem_reverse.1 hmem)).2

/-- A replacement of tokens and arguments without line breaks has none. -/
theorem breaks_replacement {m : Macro} {arguments : List Text}
    (hbody : ∀ token ∈ m.body, Text.breaks token.lexeme = 0)
    (harguments : ∀ argument ∈ arguments, Text.breaks argument = 0) :
    Text.breaks (m.replacement arguments) = 0 := by
  have hwrite : ∀ token ∈ m.body, Text.breaks (m.substitute arguments token) = 0 := by
    intro token htoken
    unfold substitute
    split
    · cases harg : m.argument? arguments token.lexeme with
      | none => exact hbody token htoken
      | some argument => exact harguments argument (argument?_mem harg)
    · exact hbody token htoken
  unfold replacement
  generalize m.substitute arguments = write at hwrite
  generalize m.body = tokens at hwrite
  clear hbody harguments
  induction tokens with
  | nil => rfl
  | cons token rest ih =>
    have hhead := hwrite token List.mem_cons_self
    have htail := ih fun next hnext => hwrite next (List.mem_cons_of_mem _ hnext)
    simp only [render, Text.breaks_append, hhead, htail]
    split <;> simp [Text.breaks]

end Macro

end Variants
