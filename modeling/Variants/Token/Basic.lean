import Variants.Text.Basic

/-!
# Tokens

A token is a stretch of text of one kind, with the place where it starts. Lines and columns count
from one, and a line break ends its line.
-/

namespace Variants

/-- A place in a text. -/
structure Position where
  line : Nat
  column : Nat
  deriving DecidableEq, Repr

namespace Position

/-- Where a text starts. -/
def start : Position := ⟨1, 1⟩

/-- The place after one character. -/
def step (p : Position) (c : Char) : Position :=
  if c = '\n' then ⟨p.line + 1, 1⟩ else ⟨p.line, p.column + 1⟩

/-- The place after a text. -/
def after (p : Position) (t : Text) : Position := t.foldl step p

@[simp] theorem after_nil (p : Position) : p.after [] = p := rfl

@[simp] theorem after_cons (p : Position) (c : Char) (t : Text) :
    p.after (c :: t) = (p.step c).after t := rfl

@[simp] theorem after_append (p : Position) (s t : Text) :
    p.after (s ++ t) = (p.after s).after t := List.foldl_append

end Position

/-- The kinds of token. A character literal stands in single quotes, a string in double ones. -/
inductive TokenKind where
  | name
  | number
  | character
  | string
  | punctuator
  deriving DecidableEq, Repr

/-- A token: its kind, its text and where it starts. -/
structure Token where
  kind : TokenKind
  lexeme : Text
  position : Position
  deriving DecidableEq, Repr

namespace Token

/-- Whether a token is a name. -/
def isName (token : Token) : Bool := token.kind == .name

/-- Whether a token starts, on the same line, at the column where the other one ends. -/
def follows (next token : Token) : Bool :=
  token.position.line == next.position.line &&
    token.position.column + token.lexeme.length == next.position.column

end Token

end Variants
