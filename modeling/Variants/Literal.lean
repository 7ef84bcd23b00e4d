import Variants.Text.Basic

/-!
# String and character literals

One rule says where a literal ends, and both the cleaner and the token scanner use it: a quote
opens a literal, a backslash takes the next character with it, the same quote closes the literal,
and a literal that is not closed runs to the end of the text.

Main statement: the two parts of `close` make up the text again (`close_append`).
-/

namespace Variants.Literal

/-- Whether a character opens a literal. -/
def isQuote (c : Char) : Bool := c == '"' || c == '\''

/-- Cuts the text after an opening quote behind the closing one. The answer is what belongs to the
literal and what follows it, or `none` for a literal that is not closed. -/
def close (quote : Char) : Text → Option (Text × Text)
  | [] => none
  | c :: t =>
    if c = '\\' then
      match t with
      | [] => none
      | d :: u => (close quote u).map fun cut => (c :: d :: cut.1, cut.2)
    else if c = quote then some ([c], t)
    else (close quote t).map fun cut => (c :: cut.1, cut.2)

/-- The number of characters after an opening quote that belong to its literal. -/
def length (quote : Char) (t : Text) : Nat :=
  match close quote t with
  | some cut => cut.1.length
  | none => t.length

/-- **Nothing is lost**: the literal and what follows it make up the text. -/
theorem close_append {quote : Char} {t : Text} {cut : Text × Text}
    (h : close quote t = some cut) : cut.1 ++ cut.2 = t := by
  fun_induction close quote t generalizing cut with
  | case1 => simp at h
  | case2 => simp at h
  | case3 d u ih =>
    obtain ⟨inner, hin, rfl⟩ := Option.map_eq_some_iff.1 h
    simp [ih hin]
  | case4 t =>
    cases h
    simp
  | case5 c t hc hq ih =>
    obtain ⟨inner, hin, rfl⟩ := Option.map_eq_some_iff.1 h
    simp [ih hin]

end Variants.Literal
