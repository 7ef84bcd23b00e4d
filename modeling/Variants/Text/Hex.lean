import Variants.Text.Basic

/-!
# Hexadecimal numerals of fixed width
-/

namespace Variants.Text

/-- The hexadecimal numeral of `n` in `width` lower-case digits; higher digits are cut off. -/
def hex (width n : Nat) : Text :=
  match width with
  | 0 => []
  | width + 1 => hex width (n / 16) ++ [Nat.digitChar (n % 16)]

end Variants.Text
