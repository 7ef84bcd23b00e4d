import Mathlib.Data.List.Forall2
import Mathlib.Data.List.Induction
import Variants.Token.Scanner

/-!
# Where the tokens of a text stand

Scanning goes over a text from left to right, and the tokens with the whitespace between them make
up the text. So every token has an offset at which its lexeme stands, the offsets rise, and what
lies outside of the tokens is whitespace (`IsSpaced`). The line and the column of a token count the
line breaks in front of it and the characters since the last of them (`Position.after_start`).

Main statement: `exists_offsets_tokens`.
-/

namespace Variants

/-! ## 1. Slices and places -/

namespace Text

/-- The characters of a text from one offset up to another one. -/
def slice (t : Text) (start stop : Nat) : Text := (t.take stop).drop start

@[simp] theorem slice_self (t : Text) (start : Nat) : slice t start start = [] :=
  List.drop_eq_nil_of_le (List.length_take_le start t)

theorem slice_append (before t behind : Text) :
    slice (before ++ (t ++ behind)) before.length (before.length + t.length) = t := by
  rw [slice, ← List.append_assoc, ← List.length_append, List.take_left, List.drop_left]

/-- The first character of a slice. -/
theorem slice_cons {before t : Text} {c : Char} {stop : Nat} (h : before.length < stop) :
    slice (before ++ c :: t) before.length stop =
      c :: slice (before ++ c :: t) (before.length + 1) stop := by
  have hlength : before.length < ((before ++ c :: t).take stop).length := by
    rw [List.length_take, List.length_append, List.length_cons]
    omega
  rw [slice, slice, List.drop_eq_getElem_cons hlength]
  simp

end Text

/-- The place after a text that starts at the first place: its line breaks, and its characters
behind the last of them. -/
theorem Position.after_start (t : Text) :
    Position.start.after t =
      ⟨1 + Text.breaks t, 1 + (t.reverse.takeWhile (· != '\n')).length⟩ := by
  induction t using List.reverseRecOn with
  | nil => rfl
  | append_singleton t c ih =>
    rw [after_append, ih, after_cons, after_nil, step, Text.breaks_append, Text.breaks_cons]
    by_cases hc : c = '\n'
    · simp [hc, Nat.add_assoc]
    · simp [hc, Nat.add_comm]

namespace Token

/-! ## 2. Tokens at offsets -/

/-- Whether a token stands at an offset of a text: its lexeme is found there and does not start with
whitespace, and its place says how many lines and characters come before. -/
structure IsAt (t : Text) (token : Token) (offset : Nat) : Prop where
  ne_nil : token.lexeme ≠ []
  slice_eq : Text.slice t offset (offset + token.lexeme.length) = token.lexeme
  head_eq : ∀ c ∈ token.lexeme.head?, Text.isSpace c = false
  line_eq : token.position.line = 1 + Text.breaks (t.take offset)
  column_eq : token.position.column =
    1 + ((t.take offset).reverse.takeWhile (· != '\n')).length

/-- Whether a text has only whitespace, from an offset on, before, between and behind tokens that
stand at some offsets. -/
def IsSpaced (t : Text) (start : Nat) : List (Token × Nat) → Prop
  | [] => ∀ c ∈ Text.slice t start t.length, Text.isSpace c = true
  | (token, offset) :: later => start ≤ offset ∧
      (∀ c ∈ Text.slice t start offset, Text.isSpace c = true) ∧
      IsSpaced t (offset + token.lexeme.length) later

/-- One more blank in front changes nothing. -/
theorem IsSpaced.cons {before t : Text} {c : Char} (hc : Text.isSpace c = true)
    {placed : List (Token × Nat)} (h : IsSpaced (before ++ c :: t) (before.length + 1) placed) :
    IsSpaced (before ++ c :: t) before.length placed := by
  cases placed with
  | nil =>
    rw [IsSpaced, Text.slice_cons (by simp)]
    exact List.forall_mem_cons.2 ⟨hc, h⟩
  | cons first later =>
    obtain ⟨hle, hblank, hlater⟩ := h
    refine ⟨by omega, ?_, hlater⟩
    rw [Text.slice_cons hle]
    exact List.forall_mem_cons.2 ⟨hc, hblank⟩

/-- Tokens that do not overlap stand at rising offsets. -/
theorem IsSpaced.pairwise_lt {t : Text} {start : Nat} {list : List Token} {offsets : List Nat}
    (hat : List.Forall₂ (IsAt t) list offsets) (h : IsSpaced t start (list.zip offsets)) :
    (∀ offset ∈ offsets, start ≤ offset) ∧ offsets.Pairwise (· < ·) := by
  induction hat generalizing start with
  | nil => exact ⟨nofun, List.Pairwise.nil⟩
  | @cons token offset _ _ hfirst _ ih =>
    obtain ⟨hle, _, hlater⟩ := h
    obtain ⟨hstart, hrising⟩ := ih hlater
    have hpos := List.length_pos_iff.2 hfirst.ne_nil
    refine ⟨List.forall_mem_cons.2 ⟨hle, fun other hother => ?_⟩,
      List.pairwise_cons.2 ⟨fun other hother => ?_, hrising⟩⟩
    · have hother := hstart other hother
      omega
    · have hother := hstart other hother
      omega

/-! ## 3. All tokens -/

/-- The tokens of the rest of a text stand at offsets of the text. -/
theorem exists_offsets_tokensFrom (before t : Text) : ∃ offsets : List Nat,
    List.Forall₂ (IsAt (before ++ t)) (tokensFrom (Position.start.after before) t) offsets ∧
      IsSpaced (before ++ t) before.length
        ((tokensFrom (Position.start.after before) t).zip offsets) := by
  generalize hp : Position.start.after before = p
  fun_induction tokensFrom p t generalizing before with
  | case1 p => exact ⟨[], .nil, by simp [IsSpaced]⟩
  | case2 p c t hc ih =>
    obtain ⟨offsets, hat, hspaced⟩ := ih (before ++ [c]) (by rw [Position.after_append, hp]; rfl)
    rw [List.append_assoc, List.singleton_append] at hat hspaced
    rw [List.length_append] at hspaced
    exact ⟨offsets, hat, hspaced.cons hc⟩
  | case3 p c t hc extent lexeme ih =>
    obtain ⟨offsets, hat, hspaced⟩ :=
      ih (before ++ lexeme) (by rw [Position.after_append, hp])
    have hsplit : lexeme ++ t.drop extent.2 = c :: t := by
      show c :: (t.take extent.2 ++ t.drop extent.2) = c :: t
      rw [List.take_append_drop]
    rw [List.append_assoc, hsplit] at hat hspaced
    rw [List.length_append] at hspaced
    refine ⟨before.length :: offsets, .cons ?_ hat, Nat.le_refl _, by simp, hspaced⟩
    have hplace := Position.after_start before
    rw [hp] at hplace
    refine ⟨List.cons_ne_nil _ _, ?_, ?_, ?_, ?_⟩
    · rw [← hsplit, Text.slice_append]
    · rintro d ⟨⟩
      exact Bool.not_eq_true _ ▸ hc
    · rw [List.take_left, hplace]
    · rw [List.take_left, hplace]

/-- **Nothing is lost, and every token has its place.** The tokens of a text stand at rising offsets
of it, each with its line and column, and all that is not in them is whitespace. -/
theorem exists_offsets_tokens (t : Text) : ∃ offsets : List Nat,
    offsets.Pairwise (· < ·) ∧ List.Forall₂ (IsAt t) (tokens t) offsets ∧
      IsSpaced t 0 ((tokens t).zip offsets) := by
  obtain ⟨offsets, hat, hspaced⟩ := exists_offsets_tokensFrom [] t
  exact ⟨offsets, (hspaced.pairwise_lt hat).2, hat, hspaced⟩

/-- The line breaks in a literal count for the tokens behind it. -/
example : (tokens "a \"x\ny\" b".toList).map position = [⟨1, 1⟩, ⟨1, 3⟩, ⟨2, 4⟩] := by
  decide +kernel

end Token

end Variants
