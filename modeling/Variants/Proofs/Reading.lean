import Variants.Source.Clean

/-!
# Line breaks in cleaned source

Cleaning goes segment by segment, and each segment keeps its line breaks. Only a line comment that
the source ends in gets one that it did not have. So a cleaned source has the line breaks of the
source, and one more exactly when the source ends in a line comment (`breaks_clean`).
-/

namespace Variants.Source

/-! ## 1. One segment -/

/-- Whether a segment is a line comment that no line break ends. -/
def Segment.isUnended : Segment → Bool
  | .lineComment written => written.all (· != '\n')
  | _ => false

/-- Whether a text ends within a line comment. -/
def endsInLineComment (t : Text) : Bool := (segments t).getLast?.any Segment.isUnended

/-- The line breaks that a segment has when it is cleaned. -/
def Segment.cleanedBreaks : Segment → Nat
  | .lineComment _ => 1
  | segment => Text.breaks segment.text

/-- The line breaks that some segments have when they are cleaned. -/
def cleanedBreaks : List Segment → Nat
  | [] => 0
  | segment :: rest => segment.cleanedBreaks + cleanedBreaks rest

/-- A line ends with the only line break that it has, or it is the rest of the text. -/
theorem cutLine_cases (t : Text) :
    (Text.breaks (cutLine t).1 = 1 ∧ (cutLine t).1.all (· != '\n') = false) ∨
      (Text.breaks (cutLine t).1 = 0 ∧ (cutLine t).1.all (· != '\n') = true ∧
        (cutLine t).2 = []) := by
  induction t with
  | nil => exact Or.inr ⟨rfl, rfl, rfl⟩
  | cons c t ih =>
    rw [cutLine]
    by_cases hc : c = '\n'
    · rw [if_pos hc, hc]
      exact Or.inl ⟨rfl, rfl⟩
    · have hne : (c != '\n') = true := bne_iff_ne.2 hc
      rw [if_neg hc, Text.breaks_cons, if_neg hc, List.all_cons, hne]
      exact ih

/-- The first segment of a text keeps its line breaks, unless it is a line comment that makes up the
whole text. -/
theorem cleanedBreaks_nextSegment (c : Char) (t : Text) :
    ((nextSegment c t).1.isUnended = false ∧
        (nextSegment c t).1.cleanedBreaks = Text.breaks (nextSegment c t).1.text) ∨
      ((nextSegment c t).1.isUnended = true ∧ (nextSegment c t).2 = [] ∧
        (nextSegment c t).1.cleanedBreaks = Text.breaks (nextSegment c t).1.text + 1) := by
  unfold nextSegment
  split
  · rename_i hslash
    have hc : c ≠ '\n' := by
      rw [hslash.1]
      decide
    have hne : (c != '\n') = true := bne_iff_ne.2 hc
    simp only [Segment.isUnended, Segment.cleanedBreaks, Segment.text, List.all_cons, hne,
      Bool.true_and, Text.breaks_cons, if_neg hc]
    rcases cutLine_cases t with ⟨hbreaks, hended⟩ | ⟨hbreaks, hunended, hrest⟩
    · exact Or.inl ⟨hended, hbreaks.symm⟩
    · exact Or.inr ⟨hunended, hrest, by rw [hbreaks]⟩
  · split
    · split <;> exact Or.inl ⟨rfl, rfl⟩
    · split
      · split <;> exact Or.inl ⟨rfl, rfl⟩
      · exact Or.inl ⟨rfl, rfl⟩

/-! ## 2. All segments -/

/-- A character that is no line break has none. -/
theorem cleanedBreaks_char {c : Char} (h : c ≠ '\n') : (Segment.char c).cleanedBreaks = 0 := by
  show Text.breaks [c] = 0
  rw [Text.breaks_cons, if_neg h]
  rfl

theorem breaks_cleanSegments (skip : Bool) (list : List Segment) :
    Text.breaks (cleanSegments skip list) = cleanedBreaks list := by
  fun_induction cleanSegments skip list with
  | case1 => rfl
  | case2 skip written rest ih =>
    rw [Text.breaks_cons, ih, if_pos rfl, Nat.add_comm]
    rfl
  | case3 skip written closed rest ih =>
    rw [Text.breaks_append, Text.breaks_blank, ih]
    rfl
  | case4 skip written closed rest ih =>
    rw [Text.breaks_append, ih]
    rfl
  | case5 skip rest ih =>
    rw [Text.breaks_cons, ih, if_pos rfl, Nat.add_comm]
    rfl
  | case6 rest c hc hblank ih =>
    rw [ih, cleanedBreaks, cleanedBreaks_char hc, Nat.zero_add]
  | case7 skip rest c hc hblank hskip ih =>
    rw [Text.breaks_cons, ih, cleanedBreaks, cleanedBreaks_char hc, Nat.zero_add]
    rfl
  | case8 skip rest c hc hblank ih =>
    rw [Text.breaks_cons, if_neg hc, ih, cleanedBreaks, cleanedBreaks_char hc, Nat.zero_add,
      Nat.add_zero]

/-- Only the last segment can be a line comment without a line break. -/
theorem cleanedBreaks_segments (t : Text) :
    cleanedBreaks (segments t) = Text.breaks t + if endsInLineComment t = true then 1 else 0 := by
  unfold endsInLineComment
  fun_induction segments t with
  | case1 => rfl
  | case2 c t ih =>
    have hbreaks : Text.breaks (c :: t) =
        Text.breaks (nextSegment c t).1.text + Text.breaks (nextSegment c t).2 := by
      rw [← Text.breaks_append, nextSegment_append]
    rw [cleanedBreaks, ih, hbreaks]
    rcases cleanedBreaks_nextSegment c t with ⟨hended, hsame⟩ | ⟨hunended, hrest, hmore⟩
    · have hlast : ((nextSegment c t).1 :: segments (nextSegment c t).2).getLast?.any
          Segment.isUnended = (segments (nextSegment c t).2).getLast?.any Segment.isUnended := by
        rw [List.getLast?_cons]
        cases (segments (nextSegment c t).2).getLast? with
        | none => exact hended
        | some last => rfl
      rw [hlast, hsame, Nat.add_assoc]
    · rw [hrest, segments]
      simp only [List.getLast?_singleton, Option.any_some, hunended, hmore]
      rfl

/-- **A cleaned text keeps its line breaks**, and has one more exactly when it ends in a line
comment. -/
theorem breaks_clean (t : Text) :
    Text.breaks (clean t) = Text.breaks t + if endsInLineComment t = true then 1 else 0 := by
  rw [clean, breaks_cleanSegments, cleanedBreaks_segments]

/-- The same for a source whose line breaks are those of any system. -/
theorem breaks_read (source : Text) :
    Text.breaks (read source) = Text.breaks (unifyBreaks source) +
      if endsInLineComment (unifyBreaks source) = true then 1 else 0 :=
  breaks_clean (unifyBreaks source)

end Variants.Source
