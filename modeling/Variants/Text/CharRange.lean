/-!
# Ranges of code points

A character class is a list of closed ranges of code points in rising order, as the tables of the
Unicode Character Database are written. This file holds the two searches: membership (`has`) and
the range that holds a code point (`find?`). Both end at the first range that lies above the code
point, so that a small code point is decided at once.
-/

namespace Variants

/-- Closed ranges of code points in rising order, each written as its first and last member. -/
abbrev CharRanges := List (Nat × Nat)

namespace CharRanges

/-- The range that holds the code point `n`. -/
def find? : CharRanges → Nat → Option (Nat × Nat)
  | [], _ => none
  | row :: rest, n =>
    if n < row.1 then none else if n ≤ row.2 then some row else find? rest n

/-- Whether one of the ranges holds the code point `n`. -/
def has : CharRanges → Nat → Bool
  | [], _ => false
  | row :: rest, n =>
    if n < row.1 then false else if n ≤ row.2 then true else has rest n

/-- The two searches agree. -/
theorem isSome_find? (r : CharRanges) (n : Nat) : (r.find? n).isSome = r.has n := by
  induction r with
  | nil => rfl
  | cons row rest ih =>
    simp only [find?, has]
    split
    · rfl
    · split
      · rfl
      · exact ih

end CharRanges

end Variants
