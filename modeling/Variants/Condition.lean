import Variants.Text.Basic

/-!
# Conditions

The condition of a branch is a symbol, known by its text alone, or it is forced one way: a branch
with the operand `1` always holds and one with the operand `0` never does. An expression is not
evaluated; its text is a symbol like any other.
-/

namespace Variants

/-- What a branch is taken on. -/
inductive Condition where
  | symbol (name : Text)
  | always
  | never
  deriving DecidableEq, Repr

namespace Condition

/-- The condition of the branch after this one: what is not forced to hold is taken to fail. -/
def flipped : Condition → Condition
  | .always => .never
  | _ => .always

/-- The text that shows a condition. -/
def label : Condition → Text
  | .symbol name => name
  | .always => ['<', 't', 'r', 'u', 'e', '>']
  | .never => ['<', 'f', 'a', 'l', 's', 'e', '>']

/-- The name of a symbol. -/
def name? : Condition → Option Text
  | .symbol name => some name
  | _ => none

end Condition

end Variants
