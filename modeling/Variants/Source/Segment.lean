import Variants.Literal

/-!
# How source text is cut into segments

Source text is cut from left to right: where the rest begins with two slashes a line comment stands
up to and including the next line break, where it begins with a slash and a star a block comment
up to and including the next star and slash, where it begins with a quote a literal
(`Literal.close`), and everywhere else a single character. A comment or literal that is not closed
runs to the end of the text.

Main statement: the segments in order make up the text (`flatMap_text_segments`).
-/

namespace Variants.Source

/-! ## 1. Where comments end -/

/-- Cuts a text behind its first line break. Without one, all of it comes first. -/
def cutLine : Text → Text × Text
  | [] => ([], [])
  | c :: t => if c = '\n' then ([c], t) else (c :: (cutLine t).1, (cutLine t).2)

/-- Cuts a text behind the first star with a slash after it. -/
def cutBlock : Text → Option (Text × Text)
  | [] => none
  | [_] => none
  | c :: d :: t =>
    if c = '*' ∧ d = '/' then some ([c, d], t)
    else (cutBlock (d :: t)).map fun cut => (c :: cut.1, cut.2)

theorem cutLine_append (t : Text) : (cutLine t).1 ++ (cutLine t).2 = t := by
  induction t with
  | nil => rfl
  | cons c t ih =>
    simp only [cutLine]
    split
    · rfl
    · simp [ih]

theorem cutBlock_append {t : Text} {cut : Text × Text} (h : cutBlock t = some cut) :
    cut.1 ++ cut.2 = t := by
  fun_induction cutBlock t generalizing cut with
  | case1 => simp at h
  | case2 => simp at h
  | case3 c d t hcd =>
    cases h
    rfl
  | case4 c d t hcd ih =>
    obtain ⟨inner, hin, rfl⟩ := Option.map_eq_some_iff.1 h
    simp [ih hin]

/-! ## 2. Segments -/

/-- A segment of source text, as it is written there. -/
inductive Segment where
  | lineComment (written : Text)
  | blockComment (written : Text) (closed : Bool)
  | literal (written : Text) (closed : Bool)
  | char (c : Char)
  deriving DecidableEq, Repr

/-- The segment as it is written. -/
def Segment.text : Segment → Text
  | lineComment written => written
  | blockComment written _ => written
  | literal written _ => written
  | char c => [c]

/-- The first segment of the text `c :: t`, and the rest. -/
def nextSegment (c : Char) (t : Text) : Segment × Text :=
  if c = '/' ∧ t.head? = some '/' then
    (.lineComment (c :: (cutLine t).1), (cutLine t).2)
  else if c = '/' ∧ t.head? = some '*' then
    match cutBlock t.tail with
    | some cut => (.blockComment (c :: '*' :: cut.1) true, cut.2)
    | none => (.blockComment (c :: t) false, [])
  else if Literal.isQuote c then
    match Literal.close c t with
    | some cut => (.literal (c :: cut.1) true, cut.2)
    | none => (.literal (c :: t) false, [])
  else (.char c, t)

/-- The first segment and the rest make up the text. -/
theorem nextSegment_append (c : Char) (t : Text) :
    (nextSegment c t).1.text ++ (nextSegment c t).2 = c :: t := by
  unfold nextSegment
  split
  · simp [Segment.text, cutLine_append]
  · split
    · rename_i h
      split
      · rename_i cut hcut
        have ht : '*' :: t.tail = t := by
          cases t with
          | nil => simp at h
          | cons d u => simp_all
        simp only [Segment.text, List.cons_append, cutBlock_append hcut, ht]
      · simp [Segment.text]
    · split
      · split
        · rename_i cut hcut
          simp [Segment.text, Literal.close_append hcut]
        · simp [Segment.text]
      · simp [Segment.text]

/-- A segment is never empty. -/
theorem text_nextSegment_ne_nil (c : Char) (t : Text) : (nextSegment c t).1.text ≠ [] := by
  unfold nextSegment
  repeat' split
  all_goals simp [Segment.text]

/-- What follows the first segment is shorter than the text. -/
theorem length_nextSegment_lt (c : Char) (t : Text) :
    (nextSegment c t).2.length < (c :: t).length := by
  have happ := congrArg List.length (nextSegment_append c t)
  have hpos := List.length_pos_iff.2 (text_nextSegment_ne_nil c t)
  simp only [List.length_append] at happ
  omega

/-- The segments of a text, in order. -/
def segments : Text → List Segment
  | [] => []
  | c :: t => (nextSegment c t).1 :: segments (nextSegment c t).2
termination_by t => t.length
decreasing_by exact length_nextSegment_lt c t

/-- **Nothing is lost**: the segments in order make up the text. -/
theorem flatMap_text_segments (t : Text) : (segments t).flatMap Segment.text = t := by
  fun_induction segments t with
  | case1 => rfl
  | case2 c t ih => rw [List.flatMap_cons, ih, nextSegment_append]

end Variants.Source
