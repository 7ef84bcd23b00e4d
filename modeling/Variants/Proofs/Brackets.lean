import Mathlib.Data.List.Infix
import Variants.Macro.Call

/-!
# The brackets of a call

A call counts its parentheses and is parted by the commas that stand in no inner ones. What this
makes of a text in a call only depends on the number of inner parentheses that are open before it:
the text leaves some of them open, or the call ends or is parted in it (`Call.depthAfter`).

In terms of the characters alone, the raw pieces of a call are balanced and have their commas in
parentheses (`Call.IsPiece`), and the whole call is the shortest balanced text there
(`Call.IsGroup`).
-/

namespace Variants.Macro.Call

/-! ## 1. Texts in a call -/

/-- The number of inner parentheses that are open behind a text in a call, where `depth` of them are
open before it. There is none if the call ends in the text or is parted by a comma of it. -/
def depthAfter (depth : Nat) : Text → Option Nat
  | [] => some depth
  | c :: t =>
    if c = '(' then depthAfter (depth + 1) t
    else if c = ')' then
      match depth with
      | 0 => none
      | inner + 1 => depthAfter inner t
    else if c = ',' ∧ depth = 0 then none
    else depthAfter depth t

/-- Puts a text in front of the first piece. -/
def pushText (s : Text) (call : Call) : Call := ⟨call.pieces.modifyHead (s ++ ·), call.rest⟩

theorem pushText_nil (call : Call) : pushText [] call = call := by
  obtain ⟨pieces, rest⟩ := call
  cases pieces with
  | nil => rfl
  | cons piece more => rfl

theorem push_pushText (c : Char) (s : Text) (call : Call) :
    (call.pushText s).push c = call.pushText (c :: s) := by
  obtain ⟨pieces, rest⟩ := call
  cases pieces with
  | nil => rfl
  | cons piece more => rfl

/-- **A text that neither ends nor parts the call** belongs to the piece that is being read. -/
theorem readFrom_of_depthAfter {depth after : Nat} {s : Text} (h : depthAfter depth s = some after)
    (t : Text) : readFrom depth (s ++ t) = (readFrom after t).map (pushText s) := by
  have hpush {d : Nat} (c : Char) (s : Text) :
      ((readFrom d t).map (pushText s)).map (push c) = (readFrom d t).map (pushText (c :: s)) := by
    rw [Option.map_map]
    exact congrArg (Option.map · _) (funext (push_pushText c s))
  fun_induction depthAfter depth s with
  | case1 depth =>
    cases h
    rw [List.nil_append, funext pushText_nil, Option.map_id']
  | case2 depth s ih => simp only [List.cons_append, readFrom, if_pos, ih h, hpush]
  | case3 s hopen => cases h
  | case4 s inner hopen ih =>
    simp only [List.cons_append, readFrom, if_neg hopen, if_pos, ih h, hpush]
  | case5 depth c s hopen hclose hcomma => cases h
  | case6 depth c s hopen hclose hcomma ih =>
    simp only [List.cons_append, readFrom, if_neg hopen, if_neg hclose, if_neg hcomma, ih h, hpush]

/-- A text without brackets and commas does nothing. -/
theorem depthAfter_of_plain {s : Text} (h : ∀ c ∈ s, c ≠ '(' ∧ c ≠ ')' ∧ c ≠ ',') (depth : Nat) :
    depthAfter depth s = some depth := by
  induction s with
  | nil => rfl
  | cons c s ih =>
    obtain ⟨⟨hopen, hclose, hcomma⟩, hrest⟩ := List.forall_mem_cons.1 h
    simp only [depthAfter, if_neg hopen, if_neg hclose, hcomma, false_and, if_false, ih hrest]

/-! ## 2. Nested parentheses -/

/-- Whether the parentheses of a text are nested in each other and in `depth` open ones, of which
`after` are left open. -/
structure IsNested (depth after : Nat) (s : Text) : Prop where
  balance : s.count ')' + after = s.count '(' + depth
  opened : ∀ p, p <+: s → p.count ')' ≤ p.count '(' + depth

namespace IsNested

theorem nil (depth : Nat) : IsNested depth depth [] :=
  ⟨rfl, fun p hp => by rw [List.prefix_nil.1 hp]; exact Nat.zero_le _⟩

theorem append {a b c : Nat} {s t : Text} (hs : IsNested a b s) (ht : IsNested b c t) :
    IsNested a c (s ++ t) := by
  have hbalance := hs.balance
  refine ⟨?_, fun p hp => ?_⟩
  · have hmore := ht.balance
    rw [List.count_append, List.count_append]
    omega
  · rcases List.prefix_or_prefix_of_prefix hp (List.prefix_append s t) with hin | ⟨q, rfl⟩
    · exact hs.opened p hin
    · have hmore := ht.opened q ((List.prefix_append_right_inj s).1 hp)
      rw [List.count_append, List.count_append]
      omega

/-- One more character in front. -/
theorem cons {c : Char} {depth inner after : Nat} {s : Text} (h : IsNested inner after s)
    (hc : [c].count ')' + inner = [c].count '(' + depth) : IsNested depth after (c :: s) := by
  have hone : IsNested depth inner [c] := by
    refine ⟨hc, fun p hp => ?_⟩
    rcases List.prefix_cons_iff.1 hp with rfl | ⟨q, rfl, hq⟩
    · exact Nat.zero_le _
    · rw [List.prefix_nil.1 hq]
      omega
  exact hone.append h

/-- Pieces between commas. -/
theorem intercalate {pieces : List Text} (h : ∀ piece ∈ pieces, IsNested 0 0 piece) :
    IsNested 0 0 ([','].intercalate pieces) := by
  have hcomma {s : Text} (hs : IsNested 0 0 s) : IsNested 0 0 (',' :: s) := hs.cons rfl
  induction pieces with
  | nil => exact nil 0
  | cons piece more ih =>
    obtain ⟨hpiece, hmore⟩ := List.forall_mem_cons.1 h
    cases more with
    | nil =>
      rw [List.intercalate_singleton]
      exact hpiece
    | cons next later =>
      rw [List.intercalate_cons_cons, List.append_assoc, List.singleton_append]
      exact hpiece.append (hcomma (ih hmore))

end IsNested

/-- What a text does in a call, told from its characters: its parentheses are nested, and each of
its commas stands in inner ones. -/
theorem of_depthAfter {depth after : Nat} {s : Text} (h : depthAfter depth s = some after) :
    IsNested depth after s ∧ ∀ p, p ++ [','] <+: s → p.count ')' < p.count '(' + depth := by
  have hcons {c : Char} {d inner : Nat} {s : Text}
      (hc : [c].count ')' + inner = [c].count '(' + d) (hcomma : c = ',' → 0 < d)
      (h : IsNested inner after s ∧
        ∀ p, p ++ [','] <+: s → p.count ')' < p.count '(' + inner) :
      IsNested d after (c :: s) ∧
        ∀ p, p ++ [','] <+: c :: s → p.count ')' < p.count '(' + d := by
    refine ⟨h.1.cons hc, fun p hp => ?_⟩
    cases p with
    | nil =>
      obtain ⟨rfl, _⟩ := List.cons_prefix_cons.1 hp
      exact Nat.lt_add_left _ (hcomma rfl)
    | cons e q =>
      obtain ⟨rfl, hq⟩ := List.cons_prefix_cons.1 hp
      have hlater := h.2 q hq
      rw [← List.singleton_append, List.count_append, List.count_append]
      omega
  fun_induction depthAfter depth s with
  | case1 depth =>
    cases h
    exact ⟨IsNested.nil _, fun p hp => by simp at hp⟩
  | case2 depth s ih => exact hcons (by simp; omega) (fun e => by cases e) (ih h)
  | case3 s hopen => cases h
  | case4 s inner hopen ih => exact hcons (by simp; omega) (fun e => by cases e) (ih h)
  | case5 depth c s hopen hclose hcomma => cases h
  | case6 depth c s hopen hclose hcomma ih =>
    refine hcons (by simp [hopen, hclose]) (fun e => ?_) (ih h)
    exact Nat.pos_of_ne_zero fun hzero => hcomma ⟨e, hzero⟩

/-! ## 3. The pieces of a call -/

/-- Whether a text can be a piece of a call: it is balanced, no parenthesis of it is closed before
it is opened, and every comma of it stands in parentheses. -/
structure IsPiece (piece : Text) : Prop where
  balanced : piece.count '(' = piece.count ')'
  opened : ∀ p, p <+: piece → p.count ')' ≤ p.count '('
  enclosed : ∀ p, p ++ [','] <+: piece → p.count ')' < p.count '('

theorem IsPiece.isNested {piece : Text} (h : IsPiece piece) : IsNested 0 0 piece :=
  ⟨h.balanced.symm, h.opened⟩

theorem isPiece_of_depthAfter {piece : Text} (h : depthAfter 0 piece = some 0) : IsPiece piece := by
  obtain ⟨hnested, hcomma⟩ := of_depthAfter h
  exact ⟨hnested.balance.symm, hnested.opened, hcomma⟩

/-- The first piece closes the parentheses that are open before it, and each piece after it stands
in none. -/
theorem depthAfter_pieces {depth : Nat} {t : Text} {call : Call}
    (h : readFrom depth t = some call) :
    ∃ first more, call.pieces = first :: more ∧ depthAfter depth first = some 0 ∧
      ∀ piece ∈ more, depthAfter 0 piece = some 0 := by
  fun_induction readFrom depth t generalizing call with
  | case1 => cases h
  | case2 depth t ih =>
    obtain ⟨inner, hin, rfl⟩ := Option.map_eq_some_iff.1 h
    obtain ⟨first, more, hpieces, hfirst, hmore⟩ := ih hin
    exact ⟨'(' :: first, more, by rw [push, hpieces]; rfl,
      by simp only [depthAfter, if_pos, hfirst], hmore⟩
  | case3 =>
    cases h
    exact ⟨[], [], rfl, rfl, fun piece hpiece => absurd hpiece List.not_mem_nil⟩
  | case4 t inner hopen ih =>
    obtain ⟨inside, hin, rfl⟩ := Option.map_eq_some_iff.1 h
    obtain ⟨first, more, hpieces, hfirst, hmore⟩ := ih hin
    refine ⟨')' :: first, more, by rw [push, hpieces]; rfl, ?_, hmore⟩
    simp only [depthAfter, if_neg hopen, if_pos, hfirst]
  | case5 depth c t hopen hclose hcomma ih =>
    obtain ⟨inner, hin, rfl⟩ := Option.map_eq_some_iff.1 h
    obtain ⟨first, more, hpieces, hfirst, hmore⟩ := ih hin
    obtain ⟨_, rfl⟩ := hcomma
    exact ⟨[], inner.pieces, rfl, rfl, hpieces ▸ List.forall_mem_cons.2 ⟨hfirst, hmore⟩⟩
  | case6 depth c t hopen hclose hcomma ih =>
    obtain ⟨inner, hin, rfl⟩ := Option.map_eq_some_iff.1 h
    obtain ⟨first, more, hpieces, hfirst, hmore⟩ := ih hin
    refine ⟨c :: first, more, by rw [push, hpieces]; rfl, ?_, hmore⟩
    simp only [depthAfter, if_neg hopen, if_neg hclose, if_neg hcomma, hfirst]

theorem isPiece_of_read? {t : Text} {call : Call} (h : read? t = some call) :
    ∀ piece ∈ call.pieces, IsPiece piece := by
  cases t with
  | nil => cases h
  | cons c t =>
    rw [read?] at h
    split at h
    · obtain ⟨first, more, hpieces, hfirst, hmore⟩ := depthAfter_pieces h
      rw [hpieces]
      exact List.forall_mem_cons.2 ⟨isPiece_of_depthAfter hfirst,
        fun piece hpiece => isPiece_of_depthAfter (hmore piece hpiece)⟩
    · cases h

/-! ## 4. The whole call -/

/-- The text of a call, with its parentheses. -/
def text (call : Call) : Text := '(' :: (call.inside ++ [')'])

/-- Whether a text starts with an opening parenthesis and is balanced, and no shorter part of it
from its start on is. -/
structure IsGroup (group : Text) : Prop where
  opening : group.head? = some '('
  balanced : group.count '(' = group.count ')'
  shortest : ∀ p, p <+: group → p ≠ [] → p ≠ group → p.count '(' ≠ p.count ')'

theorem isGroup_of_isNested {inside : Text} (h : IsNested 0 0 inside) :
    IsGroup ('(' :: (inside ++ [')'])) := by
  have hbalance := h.balance
  refine ⟨rfl, ?_, fun p hp hne hwhole => ?_⟩
  · simp only [List.count_cons, List.count_append, List.count_nil]
    simp
    omega
  · rcases List.prefix_cons_iff.1 hp with rfl | ⟨q, rfl, hq⟩
    · exact absurd rfl hne
    · rcases List.prefix_concat_iff.1 hq with rfl | hq
      · exact absurd rfl hwhole
      · have hopened := h.opened q hq
        simp only [List.count_cons]
        simp
        omega

/-- **A call is the shortest balanced text** in front of what follows it. -/
theorem text_append {t : Text} {call : Call} (h : read? t = some call) :
    t = call.text ++ call.rest ∧ IsGroup call.text := by
  refine ⟨?_, isGroup_of_isNested (IsNested.intercalate fun piece hpiece => ?_)⟩
  · rw [← read?_append h]
    simp [text]
  · exact (isPiece_of_read? h piece hpiece).isNested

/-- The line breaks of a call are those of its text. -/
theorem breaks_text (call : Call) : Text.breaks call.text = call.breaks := by
  simp [text, Text.breaks_cons, breaks_inside]

end Variants.Macro.Call
