import Variants.Condition

/-!
# Directives

A directive is a line that starts with one of seven keywords and then ends or goes on with a space.
After `#if` and `#elif` an expression may follow directly, with a parenthesis or an exclamation
mark.

The operand of a conditional directive is the rest of the line without its spaces. Without operand
the branch is never taken, so that the block still nests.
-/

namespace Variants

/-- The ways to open a conditional section. -/
inductive Opening where
  | ifdef
  | ifndef
  | expression
  deriving DecidableEq, Repr

/-- A line that the later steps act on. -/
inductive Directive where
  | opening (form : Opening) (condition : Condition)
  | elif (condition : Condition)
  | otherwise
  | endif
  | define
  deriving DecidableEq, Repr

/-- The keywords of directives. -/
inductive Keyword where
  | opening (form : Opening)
  | elif
  | otherwise
  | endif
  | define
  deriving DecidableEq, Repr

namespace Keyword

/-- All keywords. -/
def all : List Keyword :=
  [.opening .ifdef, .opening .ifndef, .opening .expression, .elif, .otherwise, .endif, .define]

/-- A keyword as it is written. -/
def text : Keyword → Text
  | .opening .ifdef => ['#', 'i', 'f', 'd', 'e', 'f']
  | .opening .ifndef => ['#', 'i', 'f', 'n', 'd', 'e', 'f']
  | .opening .expression => ['#', 'i', 'f']
  | .elif => ['#', 'e', 'l', 'i', 'f']
  | .otherwise => ['#', 'e', 'l', 's', 'e']
  | .endif => ['#', 'e', 'n', 'd', 'i', 'f']
  | .define => ['#', 'd', 'e', 'f', 'i', 'n', 'e']

/-- Whether the operand is an expression. -/
def takesExpression : Keyword → Bool
  | .opening .expression => true
  | .elif => true
  | _ => false

/-- Whether a character may follow the keyword directly. -/
def allows (k : Keyword) (c : Char) : Bool :=
  c == ' ' || (k.takesExpression && (c == '(' || c == '!'))

/-- What follows the keyword in a line that starts with it. -/
def rest? (k : Keyword) (line : Text) : Option Text :=
  match k.text.isPrefixOf? line with
  | none => none
  | some rest => if rest.head?.all k.allows then some rest else none

/-- The condition that an operand states. The operands `0` and `1` of an expression are forced. -/
def condition (k : Keyword) (operand : Text) : Condition :=
  if operand = [] then .never
  else if k.takesExpression = true ∧ operand = ['0'] then .never
  else if k.takesExpression = true ∧ operand = ['1'] then .always
  else .symbol operand

/-- The directive of a keyword and the rest of its line. -/
def directive (k : Keyword) (rest : Text) : Directive :=
  let stated := k.condition (rest.filter (· != ' '))
  match k with
  | .opening form => .opening form stated
  | .elif => .elif stated
  | .otherwise => .otherwise
  | .endif => .endif
  | .define => .define

end Keyword

namespace Directive

/-- The directive that a line is, if it is one. -/
def ofLine? (line : Text) : Option Directive :=
  Keyword.all.findSome? fun k => (k.rest? line).map k.directive

/-- The condition that a directive states. -/
def condition? : Directive → Option Condition
  | .opening _ condition => some condition
  | .elif condition => some condition
  | _ => none

/-- Whether a directive opens, parts or closes a conditional section. -/
def isConditional : Directive → Bool
  | .define => false
  | _ => true

/-- The directives of some lines, in order. -/
def ofLines (lines : List Text) : List Directive := lines.filterMap ofLine?

/-- A directive is read behind its keyword, if what follows may follow the keyword. -/
theorem exists_keyword_of_ofLine? {line : Text} {directive : Directive}
    (h : ofLine? line = some directive) :
    ∃ k rest, line = Keyword.text k ++ rest ∧ rest.head?.all k.allows = true ∧
      directive = k.directive rest := by
  obtain ⟨k, _, hk⟩ := List.exists_of_findSome?_eq_some h
  obtain ⟨rest, hrest, rfl⟩ := Option.map_eq_some_iff.1 hk
  unfold Keyword.rest? at hrest
  split at hrest
  · cases hrest
  · rename_i tail htail
    split at hrest
    · rename_i hallows
      cases hrest
      exact ⟨k, rest, Text.isPrefixOf?_eq_some_iff.1 htail, hallows, rfl⟩
    · cases hrest

end Directive

end Variants
