import Variants.Proofs.Brackets
import Variants.Proofs.Location

/-!
# Calls as they are written

A call is written from raw pieces, with commas between them and parentheses around them. Reading is
the inverse of writing: a text is read as a call exactly when it starts with what some pieces are
written as, and these pieces are the ones that come back (`Call.read?_eq_some_iff`).

Whether there is a call at all shows in the numbers of parentheses: one starts at an opening
parenthesis if the text from there on has a balanced beginning (`Call.exists_read?_iff`), and it
ends where the shortest of them does (`Call.IsGroup`).

Main statement: `Call.readAt?_eq_some_iff`.
-/

namespace Variants.Macro.Call

/-! ## 1. Texts that belong to one piece -/

/-- A text without its first character. -/
theorem IsNested.of_cons {c : Char} {depth inner after : Nat} {s : Text}
    (h : IsNested depth after (c :: s)) (hc : [c].count ')' + inner = [c].count '(' + depth) :
    IsNested inner after s := by
  have hcount (d : Char) (p : Text) : (c :: p).count d = [c].count d + p.count d := by
    rw [← List.singleton_append, List.count_append]
  refine ⟨?_, fun p hp => ?_⟩
  · have hbalance := h.balance
    rw [hcount ')' s, hcount '(' s] at hbalance
    omega
  · have hopened := h.opened (c :: p) (List.cons_prefix_cons.2 ⟨rfl, hp⟩)
    rw [hcount ')' p, hcount '(' p] at hopened
    omega

/-- **A nested text whose commas stand in inner parentheses** neither ends nor parts a call. -/
theorem depthAfter_of_isNested {depth after : Nat} {s : Text} (h : IsNested depth after s)
    (hcomma : ∀ p, p ++ [','] <+: s → p.count ')' < p.count '(' + depth) :
    depthAfter depth s = some after := by
  induction s generalizing depth with
  | nil =>
    have hbalance := h.balance
    simp only [List.count_nil, Nat.zero_add] at hbalance
    rw [hbalance]
    rfl
  | cons c s ih =>
    have hnext {inner : Nat} (hc : [c].count ')' + inner = [c].count '(' + depth) :
        depthAfter inner s = some after := by
      refine ih (h.of_cons hc) fun p hp => ?_
      have hlater := hcomma (c :: p) (List.cons_prefix_cons.2 ⟨rfl, hp⟩)
      rw [← List.singleton_append, List.count_append, List.count_append] at hlater
      omega
    by_cases hopen : c = '('
    · subst hopen
      exact hnext (by simp; omega)
    by_cases hclose : c = ')'
    · subst hclose
      cases depth with
      | zero =>
        have hclosed := h.opened [')'] (List.cons_prefix_cons.2 ⟨rfl, List.nil_prefix⟩)
        exact absurd hclosed (by decide)
      | succ inner => exact hnext (by simp; omega)
    have hinner : ¬ (c = ',' ∧ depth = 0) := by
      rintro ⟨rfl, rfl⟩
      exact Nat.lt_irrefl 0 (hcomma [] (List.cons_prefix_cons.2 ⟨rfl, List.nil_prefix⟩))
    simp only [depthAfter, if_neg hopen, if_neg hclose, if_neg hinner]
    exact hnext (by simp [hopen, hclose])

theorem IsPiece.depthAfter {piece : Text} (h : IsPiece piece) :
    depthAfter 0 piece = some 0 :=
  depthAfter_of_isNested h.isNested h.enclosed

/-! ## 2. Reading what is written -/

/-- **Pieces with commas between them** are read back behind the opening parenthesis. -/
theorem readFrom_intercalate {pieces : List Text} (hne : pieces ≠ [])
    (h : ∀ piece ∈ pieces, IsPiece piece) (rest : Text) :
    readFrom 0 ([','].intercalate pieces ++ ')' :: rest) = some ⟨pieces, rest⟩ := by
  induction pieces with
  | nil => exact absurd rfl hne
  | cons piece more ih =>
    obtain ⟨hpiece, hmore⟩ := List.forall_mem_cons.1 h
    cases more with
    | nil =>
      have hend : readFrom 0 (')' :: rest) = some ⟨[[]], rest⟩ := rfl
      rw [List.intercalate_singleton, readFrom_of_depthAfter hpiece.depthAfter, hend]
      simp [pushText]
    | cons next later =>
      have hcomma (t : Text) : readFrom 0 (',' :: t) =
          (readFrom 0 t).map fun call => ⟨[] :: call.pieces, call.rest⟩ := rfl
      rw [List.intercalate_cons_cons, List.append_assoc, List.append_assoc, List.singleton_append,
        readFrom_of_depthAfter hpiece.depthAfter, hcomma, ih (List.cons_ne_nil next later) hmore]
      simp [pushText]

theorem pieces_ne_nil_of_read? {t : Text} {call : Call} (h : read? t = some call) :
    call.pieces ≠ [] := by
  unfold read? at h
  split at h
  · cases h
  · split at h
    · exact pieces_ne_nil h
    · cases h

/-- **Reading is the inverse of writing.** A text is read as the call that it starts with, whatever
follows it. -/
theorem read?_eq_some_iff {t : Text} {call : Call} : read? t = some call ↔
    t = call.text ++ call.rest ∧ call.pieces ≠ [] ∧ ∀ piece ∈ call.pieces, IsPiece piece := by
  refine ⟨fun h => ⟨(text_append h).1, pieces_ne_nil_of_read? h, isPiece_of_read? h⟩, ?_⟩
  rintro ⟨rfl, hne, hpieces⟩
  have hbehind : call.text ++ call.rest = '(' :: (call.inside ++ ')' :: call.rest) := by
    simp [text]
  rw [hbehind, read?, if_pos rfl]
  exact readFrom_intercalate hne hpieces call.rest

/-! ## 3. Where there is a call -/

/-- A call that is not closed never has more parentheses closed than opened. -/
theorem count_le_of_readFrom_eq_none {depth : Nat} {t : Text} (h : readFrom depth t = none) :
    ∀ p, p <+: t → p.count ')' ≤ p.count '(' + depth := by
  have hcons {c : Char} {d inner : Nat} {t : Text}
      (hc : [c].count ')' + inner = [c].count '(' + d)
      (h : ∀ p, p <+: t → p.count ')' ≤ p.count '(' + inner) :
      ∀ p, p <+: c :: t → p.count ')' ≤ p.count '(' + d := by
    intro p hp
    rcases List.prefix_cons_iff.1 hp with rfl | ⟨q, rfl, hq⟩
    · exact Nat.zero_le _
    · have hlater := h q hq
      rw [← List.singleton_append, List.count_append, List.count_append]
      omega
  fun_induction readFrom depth t with
  | case1 => exact fun p hp => by rw [List.prefix_nil.1 hp]; exact Nat.zero_le _
  | case2 depth t ih => exact hcons (by simp; omega) (ih (Option.map_eq_none_iff.1 h))
  | case3 => cases h
  | case4 t inner hopen ih => exact hcons (by simp; omega) (ih (Option.map_eq_none_iff.1 h))
  | case5 depth c t hopen hclose hcomma ih =>
    exact hcons (by simp [hopen, hclose]) (ih (Option.map_eq_none_iff.1 h))
  | case6 depth c t hopen hclose hcomma ih =>
    exact hcons (by simp [hopen, hclose]) (ih (Option.map_eq_none_iff.1 h))

/-- **There is a call** exactly at an opening parenthesis from which on a beginning of the text is
balanced. -/
theorem exists_read?_iff {t : Text} : (∃ call, read? t = some call) ↔
    t.head? = some '(' ∧ ∃ p, p <+: t ∧ p ≠ [] ∧ p.count ')' = p.count '(' := by
  constructor
  · rintro ⟨call, hcall⟩
    obtain ⟨hsplit, hgroup⟩ := text_append hcall
    refine ⟨by rw [hsplit]; rfl, call.text, ?_, List.cons_ne_nil _ _, hgroup.balanced.symm⟩
    rw [hsplit]
    exact List.prefix_append _ _
  · rintro ⟨hhead, p, hp, hne, hbalanced⟩
    obtain ⟨t, rfl⟩ := List.head?_eq_some_iff.1 hhead
    refine Option.ne_none_iff_exists'.1 fun hnone => ?_
    have hopen : readFrom 0 t = none := hnone
    obtain rfl | ⟨q, rfl, hq⟩ := List.prefix_cons_iff.1 hp
    · exact hne rfl
    · have hle := count_le_of_readFrom_eq_none hopen q hq
      simp only [List.count_cons] at hbalanced
      simp at hbalanced
      omega

/-! ## 4. A call at an offset -/

/-- Reads a call at an offset of a text: its arguments and the offset behind it. -/
def readAt? (code : Text) (index : Nat) : Option (List Text × Nat) :=
  (read? (code.drop index)).map fun call => (call.arguments, index + call.text.length)

/-- Whether a group in parentheses is written from some pieces. -/
structure IsWritten (pieces : List Text) (group : Text) : Prop where
  ne_nil : pieces ≠ []
  isPiece : ∀ piece ∈ pieces, IsPiece piece
  eq_group : '(' :: ([','].intercalate pieces ++ [')']) = group

/-- A group is written from no other pieces. -/
theorem IsWritten.unique {pieces others : List Text} {group : Text} (h : IsWritten pieces group)
    (hothers : IsWritten others group) : others = pieces := by
  have hread {pieces : List Text} (h : IsWritten pieces group) : read? group = some ⟨pieces, []⟩ :=
    read?_eq_some_iff.2 ⟨by rw [List.append_nil]; exact h.eq_group.symm, h.ne_nil, h.isPiece⟩
  exact congrArg Call.pieces (Option.some.inj ((hread hothers).symm.trans (hread h)))

/-- **Reading a call inverts writing one.** There is a call at an offset exactly if an opening
parenthesis stands there and a beginning of the text from there on is balanced. It ends where the
shortest of these ends, the group up to there is written from pieces in one way, and the arguments
are those of the pieces. -/
theorem readAt?_eq_some_iff (code : Text) (index : Nat) :
    ((∃ arguments stop, readAt? code index = some (arguments, stop)) ↔
        code[index]? = some '(' ∧
          ∃ p, p <+: code.drop index ∧ p ≠ [] ∧ p.count ')' = p.count '(') ∧
      ∀ arguments stop, readAt? code index = some (arguments, stop) ↔
        stop ≤ code.length ∧ IsGroup (Text.slice code index stop) ∧
          ∃ pieces, IsWritten pieces (Text.slice code index stop) ∧
            (∀ others, IsWritten others (Text.slice code index stop) → others = pieces) ∧
            arguments = pieces.map argument := by
  refine ⟨?_, fun arguments stop => ⟨fun h => ?_, ?_⟩⟩
  · rw [← List.head?_drop, ← exists_read?_iff]
    constructor
    · rintro ⟨arguments, stop, h⟩
      obtain ⟨call, hcall, _⟩ := Option.map_eq_some_iff.1 h
      exact ⟨call, hcall⟩
    · rintro ⟨call, hcall⟩
      exact ⟨call.arguments, index + call.text.length, by rw [readAt?, hcall]; rfl⟩
  · obtain ⟨call, hcall, hanswer⟩ := Option.map_eq_some_iff.1 h
    obtain ⟨rfl, rfl⟩ := Prod.mk.inj hanswer
    obtain ⟨hsplit, hgroup⟩ := text_append hcall
    have hslice : Text.slice code index (index + call.text.length) = call.text := by
      rw [Text.slice, List.drop_take, Nat.add_sub_cancel_left, hsplit, List.take_left]
    have hwritten : IsWritten call.pieces call.text :=
      ⟨pieces_ne_nil_of_read? hcall, isPiece_of_read? hcall, rfl⟩
    rw [hslice]
    refine ⟨?_, hgroup, call.pieces, hwritten, fun others => hwritten.unique, rfl⟩
    have hlength := congrArg List.length hsplit
    rw [List.length_drop, List.length_append] at hlength
    have hpos : 0 < call.text.length := Nat.succ_pos _
    omega
  · rintro ⟨hstop, hgroup, pieces, hwritten, _, rfl⟩
    have hpos : 0 < (Text.slice code index stop).length := by
      rw [← hwritten.eq_group]
      exact Nat.succ_pos _
    have hlength : (Text.slice code index stop).length = stop - index := by
      rw [Text.slice, List.length_drop, List.length_take_of_le hstop]
    have hsplit : code.drop index = Text.slice code index stop ++ code.drop stop := by
      have hle : index ≤ (code.take stop).length := by
        rw [List.length_take_of_le hstop]
        omega
      rw [Text.slice, ← List.drop_append_of_le_length hle, List.take_append_drop]
    have hcall : read? (code.drop index) = some ⟨pieces, code.drop stop⟩ := by
      rw [hsplit, ← hwritten.eq_group]
      exact read?_eq_some_iff.2 ⟨rfl, hwritten.ne_nil, hwritten.isPiece⟩
    have htext : text ⟨pieces, code.drop stop⟩ = Text.slice code index stop := hwritten.eq_group
    have hend : index + (stop - index) = stop := by omega
    rw [readAt?, hcall, Option.map_some, htext, hlength, hend]
    rfl

/-- A call with a call in it and a line break in an argument. -/
example : readAt? "a = F(g(1, 2),\n b);\n".toList 5 =
    some (["g(1, 2)".toList, "b".toList], 18) := by decide +kernel

end Variants.Macro.Call
