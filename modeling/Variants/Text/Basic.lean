/-!
# Text

A text is a list of code points, so that an index, a column and a length all count code points and
a proof is an induction over the list. This file fixes what the other modules say about texts:

* `breaks` counts the line breaks, and `blank n` is a text of `n` line breaks;
* `lines` cuts a text at its line breaks and keeps no empty line after a final one;
* `strip` takes a kind of character off both ends, and `words` cuts at runs of it.
-/

namespace Variants

/-- A sequence of Unicode code points. -/
abbrev Text := List Char

namespace Text

/-- The number of line breaks. -/
def breaks (t : Text) : Nat := t.count '\n'

/-- A text of `n` line breaks. -/
def blank (n : Nat) : Text := List.replicate n '\n'

/-- The lines of a text. A final line break ends the last line and opens no further one. -/
def lines (t : Text) : List Text :=
  let pieces := t.splitOn '\n'
  if pieces.getLast? = some [] then pieces.dropLast else pieces

/-- The text without the characters of a kind at its two ends. -/
def strip (p : Char → Bool) (t : Text) : Text :=
  ((t.dropWhile p).reverse.dropWhile p).reverse

/-- The non-empty pieces between the characters of a kind. -/
def words (p : Char → Bool) (t : Text) : List Text :=
  (t.splitOnP p).filter fun piece => !piece.isEmpty

/-! ## Line breaks add up -/

@[simp] theorem breaks_nil : breaks [] = 0 := rfl

@[simp] theorem breaks_append (s t : Text) : breaks (s ++ t) = breaks s + breaks t :=
  List.count_append

theorem breaks_cons (c : Char) (t : Text) :
    breaks (c :: t) = breaks t + if c = '\n' then 1 else 0 := by
  simp [breaks, List.count_cons]

@[simp] theorem breaks_blank (n : Nat) : breaks (blank n) = n := by
  simp [breaks, blank]

/-- A text without a line break counts none. -/
theorem breaks_eq_zero {t : Text} : breaks t = 0 ↔ '\n' ∉ t :=
  List.count_eq_zero

/-! ## Openings of texts -/

theorem nil_isPrefixOf? (t : Text) : List.isPrefixOf? [] t = some t := rfl

theorem cons_isPrefixOf?_nil (c : Char) (opening : Text) :
    List.isPrefixOf? (c :: opening) [] = none := rfl

theorem cons_isPrefixOf?_cons (c d : Char) (opening t : Text) :
    List.isPrefixOf? (c :: opening) (d :: t) =
      if c == d then List.isPrefixOf? opening t else none := rfl

/-- What is left behind an opening is what the opening has to be followed by. -/
theorem isPrefixOf?_eq_some_iff {opening t rest : Text} :
    opening.isPrefixOf? t = some rest ↔ t = opening ++ rest := by
  induction opening generalizing t with
  | nil => simp [nil_isPrefixOf?]
  | cons c opening ih =>
    cases t with
    | nil => simp [cons_isPrefixOf?_nil]
    | cons d t =>
      simp only [cons_isPrefixOf?_cons, beq_iff_eq, List.cons_append, List.cons.injEq]
      split
      · rename_i h
        rw [ih]
        simp [h]
      · rename_i h
        simp only [reduceCtorEq, false_iff, not_and]
        exact fun e => absurd e.symm h

end Text

end Variants
