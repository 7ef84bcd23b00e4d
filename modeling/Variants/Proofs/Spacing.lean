import Variants.Proofs.Relexing

/-!
# Tokens with spaces between them

The tokens of a text can be written again with one space between each two of them. No token runs on
into a space, except for a literal without its closing quote (`runsOn_space`); and such a literal is
the last token of the text that it is from (`keepsApart_spaced`). So the text that is written has
the same tokens (`shapes_intercalate`).
-/

namespace Variants.Token

/-! ## 1. A space behind a token -/

theorem runsOn_nil (kind : TokenKind) (lexeme : Text) : runsOn kind lexeme [] = false := by
  cases kind with
  | name => rfl
  | number => rfl
  | character => rfl
  | string => rfl
  | punctuator =>
    have hlonger : continuesPunctuator lexeme [] = false := by
      rw [continuesPunctuator, List.any_eq_false]
      intro mark _ hmark
      obtain ⟨hlt, hprefix⟩ := Bool.and_eq_true_iff.1 hmark
      have hle := (List.isPrefixOf_iff_prefix.1 hprefix).length_le
      rw [List.append_nil] at hle
      exact absurd (of_decide_eq_true hlt) (Nat.not_lt.2 hle)
    rw [runsOn, hlonger]
    exact Bool.and_false _

/-- A space continues no number. -/
theorem continuesNumber_space (lexeme u : Text) : continuesNumber lexeme (' ' :: u) = false := by
  have halnum : Text.isAlnum ' ' = false := by decide
  simp [continuesNumber, halnum]

/-- No punctuator of several characters holds a space. -/
theorem continuesPunctuator_space (lexeme u : Text) :
    continuesPunctuator lexeme (' ' :: u) = false := by
  have hnone : ∀ mark ∈ longPunctuators, ' ' ∉ mark := by decide
  rw [continuesPunctuator, List.any_eq_false]
  intro mark hmark hlonger
  obtain ⟨hlt, hprefix⟩ := Bool.and_eq_true_iff.1 hlonger
  obtain ⟨later, hlater⟩ := List.isPrefixOf_iff_prefix.1 hprefix
  have hspace : (lexeme ++ ' ' :: u)[lexeme.length]? = some ' ' := by simp
  rw [← hlater, List.getElem?_append_left (of_decide_eq_true hlt)] at hspace
  exact hnone mark hmark (List.mem_of_getElem? hspace)

/-- **A token that does not run on into some text does not run on into a space.** -/
theorem runsOn_space {kind : TokenKind} {lexeme behind : Text} (hne : behind ≠ [])
    (h : runsOn kind lexeme behind = false) (u : Text) :
    runsOn kind lexeme (' ' :: u) = false := by
  have hclosed (hends : (!behind.isEmpty && !Literal.isClosed lexeme) = false) :
      (!(' ' :: u).isEmpty && !Literal.isClosed lexeme) = false := by
    simpa [hne] using hends
  cases kind with
  | name =>
    have hspace : continuesName ' ' = false := by decide
    simpa [runsOn] using hspace
  | number => exact continuesNumber_space lexeme u
  | character => exact hclosed h
  | string => exact hclosed h
  | punctuator =>
    have hspace : Text.isDigit ' ' = false := by decide
    simp [runsOn, continuesPunctuator_space, hspace]

/-! ## 2. Items with spaces -/

/-- Some tokens with one space between each two of them. -/
def spaced : List (TokenKind × Text) → List Item
  | [] => []
  | [token] => [.token token.1 token.2]
  | token :: next :: rest => .token token.1 token.2 :: .blank ' ' :: spaced (next :: rest)

theorem itemsText_spaced : ∀ shapes : List (TokenKind × Text),
    itemsText (spaced shapes) = [' '].intercalate (shapes.map Prod.snd)
  | [] => rfl
  | [token] => by simp [spaced, Item.text]
  | token :: next :: rest => by
    rw [spaced, itemsText_cons, itemsText_cons, itemsText_spaced (next :: rest)]
    simp [Item.text, List.intercalate_cons_cons]

theorem shapes_spaced : ∀ shapes : List (TokenKind × Text),
    (spaced shapes).filterMap Item.shape? = shapes
  | [] => rfl
  | [_] => rfl
  | (kind, lexeme) :: next :: rest => by
    show (kind, lexeme) :: (spaced (next :: rest)).filterMap Item.shape? = _
    rw [shapes_spaced (next :: rest)]

theorem isValid_spaced : ∀ {shapes : List (TokenKind × Text)},
    (∀ token ∈ shapes, (Item.token token.1 token.2).IsValid) → ∀ item ∈ spaced shapes, item.IsValid
  | [], _ => nofun
  | [token], h => List.forall_mem_singleton.2 (h token List.mem_cons_self)
  | token :: next :: rest, h => by
    obtain ⟨htoken, hrest⟩ := List.forall_mem_cons.1 h
    have hspace : (Item.blank ' ').IsValid := (by decide : Text.isSpace ' ' = true)
    exact List.forall_mem_cons.2 ⟨htoken, List.forall_mem_cons.2 ⟨hspace, isValid_spaced hrest⟩⟩

/-- Tokens that are kept apart in some items are kept apart by spaces. -/
theorem keepsApart_spaced {list : List Item} (hvalid : ∀ item ∈ list, item.IsValid)
    (h : keepsApart list = true) : keepsApart (spaced (list.filterMap Item.shape?)) = true := by
  induction list with
  | nil => rfl
  | cons item rest ih =>
    obtain ⟨_, hrest⟩ := List.forall_mem_cons.1 hvalid
    cases item with
    | blank c => exact ih hrest h
    | token kind lexeme =>
      obtain ⟨hends, happart⟩ := Bool.and_eq_true_iff.1 h
      have hmore := ih hrest happart
      show keepsApart (spaced ((kind, lexeme) :: rest.filterMap Item.shape?)) = true
      cases hshapes : rest.filterMap Item.shape? with
      | nil =>
        rw [spaced, keepsApart, itemsText_nil, runsOn_nil]
        rfl
      | cons next later =>
        -- a token follows, so that a literal without its closing quote would have run on
        have hbehind : itemsText rest ≠ [] := by
          cases rest with
          | nil => cases hshapes
          | cons item rest =>
            have hitem := Item.text_ne_nil (hrest item List.mem_cons_self)
            rw [itemsText_cons]
            exact List.append_ne_nil_of_left_ne_nil hitem _
        rw [hshapes] at hmore
        rw [spaced, keepsApart, keepsApart, hmore, Bool.and_true, Bool.not_eq_true']
        exact runsOn_space hbehind (Bool.not_eq_true' _ ▸ hends) _

/-! ## 3. Writing and reading again -/

/-- **The tokens of a text, written with one space between each two of them, are its tokens
again.** -/
theorem shapes_intercalate (t : Text) :
    (tokens ([' '].intercalate ((tokens t).map lexeme))).map shape = (tokens t).map shape := by
  have hvalid : ∀ token ∈ (tokens t).map shape, (Item.token token.1 token.2).IsValid := by
    intro token htoken
    obtain ⟨first, hfirst, rfl⟩ := List.mem_map.1 htoken
    exact isValid_token hfirst
  have happart : keepsApart (spaced ((tokens t).map shape)) = true := by
    rw [tokens, shapes_items]
    exact keepsApart_spaced (isValid_items t) (keepsApart_items t)
  have htext : itemsText (spaced ((tokens t).map shape)) =
      [' '].intercalate ((tokens t).map lexeme) := by
    rw [itemsText_spaced, List.map_map]
    rfl
  rw [← htext, tokens, (shapes_itemsText_iff (isValid_spaced hvalid) .start).2 happart,
    shapes_spaced]

end Variants.Token
