import Variants.Literal
import Variants.Text.Number
import Variants.Text.Space
import Variants.Token.Basic

/-!
# The token scanner

Every text has a list of tokens: what fits no other kind is a punctuator of one character, and a
literal that is not closed runs to the end. Whitespace stands between tokens and belongs to none.

For each kind there is a function that counts the characters after the first one that belong to the
token, so that a token and the rest of the text are a `take` and a `drop`.
-/

namespace Variants.Token

/-! ## 1. How far a token goes -/

/-- Whether a name can start with a character. -/
def startsName (c : Char) : Bool := c == '_' || c == '$' || Text.isLetter c

/-- Whether a name can go on with a character. -/
def continuesName (c : Char) : Bool := startsName c || Text.isDigit c

/-- Whether a character announces an exponent, whose sign belongs to the number. -/
def isExponent (c : Char) : Bool := c == 'e' || c == 'E' || c == 'p' || c == 'P'

/-- The number of characters that continue a number: alphanumerics, points, underscores, and a sign
right after an exponent letter. -/
def numberLength : Text → Nat
  | [] => 0
  | c :: t =>
    if isExponent c then
      match t with
      | [] => 1
      | d :: u => if d = '+' ∨ d = '-' then numberLength u + 2 else numberLength (d :: u) + 1
    else if Text.isAlnum c || c == '.' || c == '_' then numberLength t + 1
    else 0

/-- The punctuators of more than one character, the longer ones first. -/
def longPunctuators : List Text :=
  [['.', '.', '.'], ['>', '>', '='], ['<', '<', '='], ['-', '>', '*'],
   ['-', '>'], ['+', '+'], ['-', '-'], ['&', '&'], ['|', '|'], ['<', '='], ['>', '='],
   ['=', '='], ['!', '='], ['+', '='], ['-', '='], ['*', '='], ['/', '='], ['%', '='],
   ['&', '='], ['|', '='], ['^', '='], ['<', '<'], ['>', '>'], ['#', '#'], [':', ':'],
   ['.', '*']]

/-- The length of the longest punctuator that a text starts with; any character is one. -/
def punctuatorLength (t : Text) : Nat :=
  match longPunctuators.find? (·.isPrefixOf t) with
  | some mark => mark.length
  | none => 1

/-- The kind of the token that starts the text `c :: t`, where `c` is no whitespace, and the number
of characters of `t` in it. -/
def scan (c : Char) (t : Text) : TokenKind × Nat :=
  if c = '"' then (.string, Literal.length c t)
  else if c = '\'' then (.character, Literal.length c t)
  else if Text.isDigit c || (c == '.' && t.head?.any Text.isDigit) then (.number, numberLength t)
  else if startsName c then (.name, (t.takeWhile continuesName).length)
  else (.punctuator, punctuatorLength (c :: t) - 1)

/-- An exponent letter is alphanumeric and starts no number. -/
theorem of_isExponent {c : Char} (h : isExponent c = true) :
    Text.isAlnum c = true ∧ Text.isDigit c = false ∧ c ≠ '.' := by
  have hletters : c = 'e' ∨ c = 'E' ∨ c = 'p' ∨ c = 'P' := by
    simpa [isExponent, or_assoc] using h
  rcases hletters with rfl | rfl | rfl | rfl
  · decide
  · decide
  · decide
  · decide

/-- A punctuator is a single character, or one of the longer ones that stands there. -/
theorem punctuatorLength_eq (t : Text) : punctuatorLength t = 1 ∨
    ∃ mark ∈ longPunctuators, mark.isPrefixOf t = true ∧ punctuatorLength t = mark.length := by
  unfold punctuatorLength
  split
  · rename_i mark hmark
    have hprefix := List.find?_some hmark
    exact Or.inr ⟨mark, List.mem_of_find?_eq_some hmark, hprefix, rfl⟩
  · exact Or.inl rfl

theorem one_le_punctuatorLength (t : Text) : 1 ≤ punctuatorLength t := by
  rcases punctuatorLength_eq t with hone | ⟨mark, hmark, _, hlength⟩
  · exact Nat.le_of_eq hone.symm
  · have hlong : ∀ mark ∈ longPunctuators, 1 ≤ mark.length := by decide
    exact hlength ▸ hlong mark hmark

theorem numberLength_le (t : Text) : numberLength t ≤ t.length := by
  fun_induction numberLength t with
  | case1 => exact Nat.le_refl _
  | case2 => exact Nat.le_refl _
  | case3 c hc d u hd ih => exact Nat.succ_le_succ (Nat.succ_le_succ ih)
  | case4 c hc d u hd ih => exact Nat.succ_le_succ ih
  | case5 c t hc hmore ih => exact Nat.succ_le_succ ih
  | case6 => exact Nat.zero_le _

/-- A token does not go on behind the text. -/
theorem scan_le (c : Char) (t : Text) : (scan c t).2 ≤ t.length := by
  have hliteral : Literal.length c t ≤ t.length := by
    unfold Literal.length
    split
    · rename_i cut hcut
      rw [← Literal.close_append hcut, List.length_append]
      exact Nat.le_add_right _ _
    · exact Nat.le_refl _
  have hpunctuator : punctuatorLength (c :: t) - 1 ≤ t.length := by
    rcases punctuatorLength_eq (c :: t) with hone | ⟨mark, _, hprefix, hlength⟩
    · omega
    · have hle := (List.isPrefixOf_iff_prefix.1 hprefix).length_le
      rw [List.length_cons] at hle
      omega
  unfold scan
  split
  · exact hliteral
  · split
    · exact hliteral
    · split
      · exact numberLength_le t
      · split
        · exact (List.takeWhile_prefix continuesName).length_le
        · exact hpunctuator

/-! ## 2. All tokens -/

/-- The tokens of a text that starts at the place `p`. -/
def tokensFrom (p : Position) : Text → List Token
  | [] => []
  | c :: t =>
    if Text.isSpace c then tokensFrom (p.step c) t
    else
      let extent := scan c t
      let lexeme := c :: t.take extent.2
      ⟨extent.1, lexeme, p⟩ :: tokensFrom (p.after lexeme) (t.drop extent.2)
termination_by t => t.length
decreasing_by all_goals simp only [List.length_cons, List.length_drop]; omega

/-- The tokens of a text. -/
def tokens (t : Text) : List Token := tokensFrom .start t

/-! ## 3. What a token holds -/

/-- Every character of a token is a character of the text. -/
theorem mem_of_mem_lexeme {p : Position} {t : Text} {token : Token}
    (h : token ∈ tokensFrom p t) : ∀ c ∈ token.lexeme, c ∈ t := by
  fun_induction tokensFrom p t with
  | case1 => simp at h
  | case2 p c t hc ih =>
    intro d hd
    exact List.mem_cons_of_mem _ (ih h d hd)
  | case3 p c t hc extent lexeme ih =>
    rcases List.mem_cons.1 h with rfl | h
    · intro d hd
      rcases List.mem_cons.1 hd with rfl | hd
      · exact List.mem_cons_self
      · exact List.mem_cons_of_mem _ (List.mem_of_mem_take hd)
    · intro d hd
      exact List.mem_cons_of_mem _ (List.mem_of_mem_drop (ih h d hd))

/-- A token of a text is not empty. -/
theorem lexeme_ne_nil {p : Position} {t : Text} {token : Token}
    (h : token ∈ tokensFrom p t) : token.lexeme ≠ [] := by
  fun_induction tokensFrom p t with
  | case1 => simp at h
  | case2 p c t hc ih => exact ih h
  | case3 p c t hc extent lexeme ih =>
    rcases List.mem_cons.1 h with rfl | h
    · simp [lexeme]
    · exact ih h

end Variants.Token
