import Variants.Text.Basic
import Variants.Text.Number
import Variants.Text.Space

/-!
# Decimal numerals

Numbers are written in decimal without leading zeros. Numerals are read more widely: whitespace may
stand around them, a sign before the digits, and a single underscore between two digits; the digits
may be decimal digits of any script. The information separators U+001C to U+001F do not count as
whitespace here, and a numeral of more than 4300 digits is not read.
-/

namespace Variants.Text

/-! ## 1. Writing -/

/-- The numeral of a natural number. -/
def ofNat (n : Nat) : Text := Nat.toDigits 10 n

/-- The numeral of an integer. -/
def ofInt : Int → Text
  | .ofNat n => ofNat n
  | .negSucc n => '-' :: ofNat (n + 1)

/-! ## 2. Reading -/

/-- The number of digits that a numeral may have. -/
def numeralLimit : Nat := 4300

/-- Whether a character may stand around a numeral. -/
def isNumeralSpace (c : Char) : Bool := isSpace c && !(0x1C ≤ c.toNat && c.toNat ≤ 0x1F)

/-- The values of the digits of a numeral. `afterDigit` says that a digit stands right before, so
that an underscore may follow and the numeral may end. -/
def digitValues? (afterDigit : Bool) : Text → Option (List Nat)
  | [] => if afterDigit then some [] else none
  | c :: t =>
    if c = '_' then if afterDigit then digitValues? false t else none
    else
      match digitValue? c with
      | none => none
      | some value => (digitValues? true t).map (value :: ·)

/-- The number with some decimal digits, the highest first. -/
def ofDigitValues (values : List Nat) : Nat := values.foldl (fun n value => 10 * n + value) 0

/-- The natural number that a row of digits stands for. -/
def toNat? (t : Text) : Option Nat :=
  match digitValues? false t with
  | none => none
  | some values => if values.length ≤ numeralLimit then some (ofDigitValues values) else none

/-- The integer that a numeral stands for. -/
def toInt? (t : Text) : Option Int :=
  match strip isNumeralSpace t with
  | [] => none
  | c :: digits =>
    if c = '-' then (toNat? digits).map fun n => -(n : Int)
    else if c = '+' then (toNat? digits).map fun n => (n : Int)
    else (toNat? (c :: digits)).map fun n => (n : Int)

end Variants.Text
