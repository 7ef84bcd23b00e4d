import Variants.Proofs.Cleaning
import Variants.Proofs.Reading

/-!
# The line that a reader has come to

A reader counts the line breaks that it takes in, one character at a time: in code, in both kinds of
comment, in literals and behind a backslash there. `trackCode` is the pass over a source that does
so beside putting the cleaned text together. The count depends on no path through the pass: behind
any text it is the number of line breaks taken in (`trackCode_eq`), also where a comment or literal
is not closed. So a reader that has read its source stands on the last line, whatever the breaks
between the lines are, and the cleaned text has one line break for each line but the last one. The
exception is a line comment at the end of the source, for which a line break is written that was
never read.

Main statement: `exists_read_ofText`.
-/

namespace Variants.Source

/-! ## 1. The breaks between the lines of a source -/

/-- The number of line breaks of a source: a carriage return and a line feed, either of them alone,
or both in this order for one. -/
def lineBreaks : Text → Nat
  | [] => 0
  | '\r' :: '\n' :: t => lineBreaks t + 1
  | '\r' :: t => lineBreaks t + 1
  | '\n' :: t => lineBreaks t + 1
  | _ :: t => lineBreaks t

/-- Each break between two lines is read as one line feed. -/
theorem breaks_unifyBreaks (t : Text) : Text.breaks (unifyBreaks t) = lineBreaks t := by
  fun_induction lineBreaks t with
  | case1 => rfl
  | case2 t ih => simp [unifyBreaks, Text.breaks_cons, ih]
  | case3 t hne ih =>
    have hhead : t.head? ≠ some '\n' := by
      intro hhead
      obtain ⟨u, rfl⟩ := List.head?_eq_some_iff.1 hhead
      exact hne u rfl
    simp [unifyBreaks, Text.breaks_cons, hhead, ih]
  | case4 t ih => simp [unifyBreaks, Text.breaks_cons, ih]
  | case5 c t _ hreturn hfeed ih =>
    have hc : c ≠ '\r' := hreturn
    have hplain : c ≠ '\n' := hfeed
    simp [unifyBreaks, Text.breaks_cons, hc, hplain, ih]

/-! ## 2. Counting lines -/

/-- The number of the line behind a character. -/
def lineBehind (line : Nat) (c : Char) : Nat := if c = '\n' then line + 1 else line

theorem lineBehind_add (line : Nat) (c : Char) (t : Text) :
    lineBehind line c + Text.breaks t = line + Text.breaks (c :: t) := by
  rw [lineBehind, Text.breaks_cons]
  split <;> omega

/-- Puts some text before what is written further on. The number of the line stays. -/
def write (text : Text) (later : Text × Nat) : Text × Nat := (text ++ later.1, later.2)

mutual

/-- Reads on outside of comments and literals from the line with a number on: the cleaned text, and
the number of the line at the end. `skip` says that a blank is dropped here. -/
def trackCode (skip : Bool) (line : Nat) : Text → Text × Nat
  | [] => ([], line)
  | c :: t =>
    if c ≠ '\n' ∧ isBlank c = true then
      write (if skip then [] else [' ']) (trackCode true (lineBehind line c) t)
    else if c = '/' ∧ t.head? = some '/' then
      write ['\n'] (trackLineComment (lineBehind line c) t)
    else if c = '/' ∧ t.head? = some '*' then
      match t with
      | [] => ([], lineBehind line c)
      | d :: u => trackBlockComment none (lineBehind (lineBehind line c) d) u
    else if Literal.isQuote c then write [c] (trackLiteral c (lineBehind line c) t)
    else write [c] (trackCode (c == '#' || c == '/') (lineBehind line c) t)

/-- Reads on in a line comment. -/
def trackLineComment (line : Nat) : Text → Text × Nat
  | [] => ([], line)
  | c :: t =>
    if c = '\n' then trackCode true (lineBehind line c) t
    else trackLineComment (lineBehind line c) t

/-- Reads on in a block comment behind one of its characters, or behind the two that open it. -/
def trackBlockComment (previous : Option Char) (line : Nat) : Text → Text × Nat
  | [] => ([], line)
  | c :: t =>
    if c = '\n' then write [c] (trackBlockComment (some c) (lineBehind line c) t)
    else if previous = some '*' ∧ c = '/' then trackCode true (lineBehind line c) t
    else trackBlockComment (some c) (lineBehind line c) t

/-- Reads on in a literal. -/
def trackLiteral (quote : Char) (line : Nat) : Text → Text × Nat
  | [] => ([], line)
  | c :: t =>
    if c = '\\' then
      match t with
      | [] => ([c], lineBehind line c)
      | d :: u => write [c, d] (trackLiteral quote (lineBehind (lineBehind line c) d) u)
    else if c = quote then write [c] (trackCode false (lineBehind line c) t)
    else write [c] (trackLiteral quote (lineBehind line c) t)

end

mutual

/-- **The count does not depend on the path**: the pass writes the cleaned text, and it counts every
line break of the text once. -/
theorem trackCode_eq (skip : Bool) (line : Nat) :
    ∀ t : Text, trackCode skip line t = (readCode skip t, line + Text.breaks t)
  | [] => by rw [trackCode, readCode, Text.breaks_nil, Nat.add_zero]
  | c :: t => by
    rw [trackCode.eq_def, readCode.eq_def, ← lineBehind_add]
    dsimp only
    split
    · rw [trackCode_eq true _ t]
      cases skip <;> rfl
    · split
      · rw [trackLineComment_eq _ t]
        rfl
      · split
        · cases t with
          | nil => rfl
          | cons d u => exact (trackBlockComment_eq none _ u).trans (by rw [lineBehind_add])
        · split
          · rw [trackLiteral_eq c _ t]
            rfl
          · rw [trackCode_eq _ _ t]
            rfl

theorem trackLineComment_eq (line : Nat) :
    ∀ t : Text, trackLineComment line t = (readLineComment t, line + Text.breaks t)
  | [] => by rw [trackLineComment, readLineComment, Text.breaks_nil, Nat.add_zero]
  | c :: t => by
    rw [trackLineComment, readLineComment, ← lineBehind_add]
    split
    · rw [trackCode_eq true _ t]
    · rw [trackLineComment_eq _ t]

theorem trackBlockComment_eq (previous : Option Char) (line : Nat) :
    ∀ t : Text, trackBlockComment previous line t =
      (readBlockComment previous t, line + Text.breaks t)
  | [] => by rw [trackBlockComment, readBlockComment, Text.breaks_nil, Nat.add_zero]
  | c :: t => by
    rw [trackBlockComment, readBlockComment, ← lineBehind_add]
    split
    · rename_i hc
      rw [trackBlockComment_eq (some c) _ t, hc]
      rfl
    · split
      · rw [trackCode_eq true _ t]
      · rw [trackBlockComment_eq (some c) _ t]

theorem trackLiteral_eq (quote : Char) (line : Nat) :
    ∀ t : Text, trackLiteral quote line t = (readLiteral quote t, line + Text.breaks t)
  | [] => by rw [trackLiteral, readLiteral, Text.breaks_nil, Nat.add_zero]
  | c :: t => by
    rw [trackLiteral.eq_def, readLiteral.eq_def, ← lineBehind_add]
    dsimp only
    split
    · cases t with
      | nil => rfl
      | cons d u =>
        show write [c, d] (trackLiteral quote _ u) = _
        rw [trackLiteral_eq quote _ u, lineBehind_add]
        rfl
    · split
      · rw [trackCode_eq false _ t]
        rfl
      · rw [trackLiteral_eq quote _ t]
        rfl

end

/-! ## 3. Reading a source -/

/-- Whether a text ends within a line comment that no line break ends. -/
def EndsInLineComment (t : Text) : Prop :=
  ∃ before written, Cut t (before ++ [.lineComment written]) ∧ '\n' ∉ written

theorem endsInLineComment_iff {t : Text} : endsInLineComment t = true ↔ EndsInLineComment t := by
  have hended (written : Text) :
      (Segment.lineComment written).isUnended = true ↔ '\n' ∉ written := by
    rw [Segment.isUnended, List.all_eq_true]
    exact ⟨fun h hmem => bne_iff_ne.1 (h _ hmem) rfl,
      fun h c hc => bne_iff_ne.2 fun e => h (e ▸ hc)⟩
  constructor
  · intro h
    obtain ⟨last, hlast, hunended⟩ := (Option.any_eq_true _ _).1 h
    obtain ⟨before, hbefore⟩ := List.getLast?_eq_some_iff.1 hlast
    cases last with
    | lineComment written =>
      exact ⟨before, written, cut_iff.2 hbefore.symm, (hended written).1 hunended⟩
    | blockComment => cases hunended
    | literal => cases hunended
    | char => cases hunended
  · rintro ⟨before, written, hcut, hwritten⟩
    rw [endsInLineComment, ← cut_iff.1 hcut, List.getLast?_concat]
    exact (hended written).2 hwritten

/-- Reading goes over all that is left and counts its lines. -/
theorem read_eq_trackCode (r : Reader) :
    r.read = ((trackCode true r.line r.rest).1, ⟨[], (trackCode true r.line r.rest).2⟩) := by
  have hclean : clean r.rest = readCode true r.rest :=
    (cleanSegments_eq none _).trans (readCode_of_cut (cut_segments r.rest) none).symm
  rw [Reader.read, trackCode_eq, hclean]

/-- Where nothing is left, reading changes nothing. -/
theorem read_of_rest_eq_nil {r : Reader} (h : r.rest = []) : r.read = ([], r) := by
  obtain ⟨rest, line⟩ := r
  obtain rfl : rest = [] := h
  rw [read_eq_trackCode, trackCode]

/-- **The lines of a source that has been read.** The reader has come to the last line: it has
counted one line break for each one that it took in, one after the other, and these are the breaks
between the lines of the source. The cleaned text has as many, and one more exactly when the source
ends in a line comment that no line break ends. Reading on gives nothing and leaves the reader where
it is. -/
theorem exists_read_ofText (source : Text) : ∃ cleaned r,
    (Reader.ofText source).read = (cleaned, r) ∧
      trackCode true 1 (unifyBreaks source) = (cleaned, r.line) ∧
      r.line = lineBreaks source + 1 ∧
      (Text.breaks cleaned = lineBreaks source ∨
        Text.breaks cleaned = lineBreaks source + 1) ∧
      (Text.breaks cleaned = lineBreaks source + 1 ↔ EndsInLineComment (unifyBreaks source)) ∧
      r.read = ([], r) := by
  have hread := read_eq_trackCode (Reader.ofText source)
  have hline : (trackCode true 1 (unifyBreaks source)).2 = lineBreaks source + 1 := by
    rw [trackCode_eq, breaks_unifyBreaks, Nat.add_comm]
  have hbreaks : Text.breaks (trackCode true 1 (unifyBreaks source)).1 = lineBreaks source +
      if endsInLineComment (unifyBreaks source) = true then 1 else 0 := by
    rw [← breaks_unifyBreaks, ← breaks_read, read, hread]
    rfl
  refine ⟨_, _, hread, rfl, hline, ?_, ?_, read_of_rest_eq_nil rfl⟩
  · split at hbreaks
    · exact Or.inr hbreaks
    · exact Or.inl hbreaks
  · rw [← endsInLineComment_iff]
    by_cases hends : endsInLineComment (unifyBreaks source) = true
    · rw [if_pos hends] at hbreaks
      exact iff_of_true hbreaks hends
    · rw [if_neg hends] at hbreaks
      refine iff_of_false (fun hmore => ?_) hends
      exact Nat.succ_ne_self _ (hmore.symm.trans hbreaks)

/-- Breaks of all three kinds, in a literal, behind a backslash there, in a block comment and in
code, and a line comment at the end. -/
example : (Reader.ofText "'\\\r\n\r' /*\n*/\r\n// end".toList).read =
    ("'\\\n\n' \n\n\n".toList, ⟨[], 5⟩) := by decide +kernel

end Variants.Source
