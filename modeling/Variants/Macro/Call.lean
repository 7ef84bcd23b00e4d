import Variants.Text.Basic
import Variants.Text.Space

/-!
# Calls of macros

A call is a group in parentheses, and the commas outside the parentheses within it part its
arguments. Quotes have no meaning here: a parenthesis counts wherever it stands.

The raw pieces of a call are kept as they are written, so that the text of the call can be put
together again; an argument is a piece with spaces for its line breaks and without whitespace at its
ends.
-/

namespace Variants.Macro

/-- A call: the raw pieces between its commas, and the text after it. -/
structure Call where
  pieces : List Text
  rest : Text
  deriving DecidableEq, Repr

namespace Call

/-- Puts a character in front of the first piece. -/
def push (c : Char) (call : Call) : Call := ⟨call.pieces.modifyHead (c :: ·), call.rest⟩

/-- Reads a call from behind its opening parenthesis, or from a place in it that stands in `depth`
inner parentheses. There is none when the call is not closed. -/
def readFrom (depth : Nat) : Text → Option Call
  | [] => none
  | c :: t =>
    if c = '(' then (readFrom (depth + 1) t).map (push c)
    else if c = ')' then
      match depth with
      | 0 => some ⟨[[]], t⟩
      | inner + 1 => (readFrom inner t).map (push c)
    else if c = ',' ∧ depth = 0 then
      (readFrom depth t).map fun call => ⟨[] :: call.pieces, call.rest⟩
    else (readFrom depth t).map (push c)

/-- Reads a call from its opening parenthesis, with which the text has to start. -/
def read? : Text → Option Call
  | [] => none
  | c :: t => if c = '(' then readFrom 0 t else none

/-- The argument that a piece stands for. -/
def argument (piece : Text) : Text :=
  Text.strip Text.isSpace (piece.map fun c => if c = '\n' then ' ' else c)

/-- The arguments of a call. -/
def arguments (call : Call) : List Text := call.pieces.map argument

/-- The number of line breaks in a call. -/
def breaks (call : Call) : Nat := Text.breaks call.pieces.flatten

/-! ## What a call is made of -/

/-- A call has at least one piece. -/
theorem pieces_ne_nil {depth : Nat} {t : Text} {call : Call} (h : readFrom depth t = some call) :
    call.pieces ≠ [] := by
  fun_induction readFrom depth t generalizing call with
  | case1 => cases h
  | case2 depth t ih =>
    obtain ⟨inner, hin, rfl⟩ := Option.map_eq_some_iff.1 h
    simpa [push] using ih hin
  | case3 =>
    cases h
    simp
  | case4 t inner hc ih =>
    obtain ⟨inside, hin, rfl⟩ := Option.map_eq_some_iff.1 h
    simpa [push] using ih hin
  | case5 depth c t _ _ _ ih =>
    obtain ⟨inner, hin, rfl⟩ := Option.map_eq_some_iff.1 h
    simp
  | case6 depth c t _ _ _ ih =>
    obtain ⟨inner, hin, rfl⟩ := Option.map_eq_some_iff.1 h
    simpa [push] using ih hin

/-- The pieces with commas between them. -/
def inside (call : Call) : Text := [','].intercalate call.pieces

theorem inside_push {c : Char} {call : Call} (h : call.pieces ≠ []) :
    (call.push c).inside = c :: call.inside := by
  obtain ⟨pieces, rest⟩ := call
  cases pieces with
  | nil => exact absurd rfl h
  | cons piece more => cases more <;> simp [push, inside]

theorem inside_cons {pieces : List Text} {rest : Text} (h : pieces ≠ []) :
    inside ⟨[] :: pieces, rest⟩ = ',' :: inside ⟨pieces, rest⟩ := by
  cases pieces with
  | nil => exact absurd rfl h
  | cons piece more => simp [inside]

/-- **Nothing is lost**: the pieces, the closing parenthesis and what follows make up the text. -/
theorem inside_append {depth : Nat} {t : Text} {call : Call} (h : readFrom depth t = some call) :
    call.inside ++ ')' :: call.rest = t := by
  fun_induction readFrom depth t generalizing call with
  | case1 => cases h
  | case2 depth t ih =>
    obtain ⟨inner, hin, rfl⟩ := Option.map_eq_some_iff.1 h
    rw [inside_push (pieces_ne_nil hin), List.cons_append]
    exact congrArg _ (ih hin)
  | case3 =>
    cases h
    rfl
  | case4 t inner hc ih =>
    obtain ⟨inside, hin, rfl⟩ := Option.map_eq_some_iff.1 h
    rw [inside_push (pieces_ne_nil hin), List.cons_append]
    exact congrArg _ (ih hin)
  | case5 depth c t _ _ hc ih =>
    obtain ⟨inner, hin, rfl⟩ := Option.map_eq_some_iff.1 h
    rw [inside_cons (pieces_ne_nil hin), List.cons_append, hc.1]
    exact congrArg _ (ih hin)
  | case6 depth c t _ _ _ ih =>
    obtain ⟨inner, hin, rfl⟩ := Option.map_eq_some_iff.1 h
    rw [inside_push (pieces_ne_nil hin), List.cons_append]
    exact congrArg _ (ih hin)

/-- The same for a call that is read from its opening parenthesis. -/
theorem read?_append {t : Text} {call : Call} (h : read? t = some call) :
    '(' :: (call.inside ++ ')' :: call.rest) = t := by
  unfold read? at h
  split at h
  · cases h
  · split at h
    · rename_i hc
      rw [inside_append h, hc]
    · cases h

/-- The text after a call is shorter than the text it is read from. -/
theorem length_rest_lt {t : Text} {call : Call} (h : read? t = some call) :
    call.rest.length < t.length := by
  rw [← read?_append h]
  simp only [List.length_cons, List.length_append]
  omega

/-! ## Line breaks in a call -/

/-- An argument has no line break. -/
theorem breaks_argument (piece : Text) : Text.breaks (argument piece) = 0 := by
  rw [Text.breaks_eq_zero]
  intro hmem
  have h1 := List.mem_reverse.1 hmem
  have h2 := List.mem_reverse.1 ((List.dropWhile_sublist _).subset h1)
  have h3 := (List.dropWhile_sublist _).subset h2
  obtain ⟨c, _, hc⟩ := List.mem_map.1 h3
  split at hc <;> simp_all

/-- The commas between the pieces add no line break. -/
theorem breaks_inside (call : Call) : Text.breaks call.inside = call.breaks := by
  obtain ⟨pieces, rest⟩ := call
  induction pieces with
  | nil => rfl
  | cons piece more ih =>
    cases more with
    | nil => simp [inside, breaks]
    | cons next later =>
      simp only [inside, breaks] at ih ⊢
      rw [List.intercalate_cons_cons]
      simp only [Text.breaks_append, ih, List.flatten_cons]
      simp [Text.breaks_cons]

/-- The line breaks of a call and of the text after it are those of the text it is read from. -/
theorem breaks_add {t : Text} {call : Call} (h : read? t = some call) :
    call.breaks + Text.breaks call.rest = Text.breaks t := by
  rw [← read?_append h, ← breaks_inside]
  simp [Text.breaks_cons]

end Call

end Variants.Macro
