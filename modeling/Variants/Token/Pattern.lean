import Variants.Text.Space
import Variants.Token.Basic

/-!
# Token patterns

A pattern is a row of words between whitespace, and each word accepts some tokens: `%var%` and
`%type%` any name, `%num%` any number, `%str%` any string, `%any%` any token, a word with a bar
inside either of the texts around it, and every other word the token of that very text.
-/

namespace Variants.Token

/-- One word of a pattern. -/
inductive PatternWord where
  | ofKind (k : TokenKind)
  | any
  | oneOf (texts : List Text)
  deriving DecidableEq, Repr

namespace PatternWord

/-- The words with a meaning of their own. -/
def special : List (Text × PatternWord) :=
  [(['%', 'v', 'a', 'r', '%'], .ofKind .name), (['%', 't', 'y', 'p', 'e', '%'], .ofKind .name),
   (['%', 'n', 'u', 'm', '%'], .ofKind .number), (['%', 's', 't', 'r', '%'], .ofKind .string),
   (['%', 'a', 'n', 'y', '%'], .any)]

/-- Reads a word. Bars at its two ends alone do not make it a choice. -/
def ofText (word : Text) : PatternWord :=
  match special.lookup word with
  | some meaning => meaning
  | none => .oneOf (if '|' ∈ Text.strip (· == '|') word then word.splitOn '|' else [word])

/-- Whether a word accepts a token. -/
def accepts : PatternWord → Token → Bool
  | .ofKind k, token => token.kind == k
  | .any, _ => true
  | .oneOf texts, token => texts.contains token.lexeme

end PatternWord

/-- The words of a pattern. -/
def patternOfText (pattern : Text) : List PatternWord :=
  (Text.words Text.isSpace pattern).map PatternWord.ofText

/-- The token at an index that counts from zero; there is none outside the list. -/
def at? (tokens : List Token) (index : Int) : Option Token :=
  if index < 0 then none else tokens[index.toNat]?

/-- Whether the words of a pattern accept, one by one, the tokens from an index on. -/
def matchesAt (tokens : List Token) (index : Int) : List PatternWord → Bool
  | [] => true
  | word :: words =>
    (at? tokens index).any word.accepts && matchesAt tokens (index + 1) words

end Variants.Token
