import Variants.Macro.Define
import Variants.Proofs.Literals
import Variants.Proofs.Parts
import Variants.Proofs.Relexing

/-!
# The tokens of a text after a pass

A pass looks for the name of a macro in the characters of a text and knows of no tokens. Where the
name stands alone just where it is a token (`Macro.standsAt`, `Macro.places`), it writes the text of
the items of the old text, with those of the body for the name (`Macro.text_expandUses`). Whether
this text has these tokens again depends on their neighbours: but for a space between two names of
the body, everything is written without a gap (`Macro.tokens_expandUses_iff`).
-/

namespace Variants

open Token

namespace Token

/-! ## 1. Names -/

/-- The characters of a name. -/
theorem of_scan_name {c : Char} {t : Text} (h : scan c t = (.name, t.length)) :
    startsName c = true ∧ ∀ d ∈ t, continuesName d = true := by
  unfold scan at h
  split at h
  · cases (Prod.mk.inj h).1
  split at h
  · cases (Prod.mk.inj h).1
  split at h
  · cases (Prod.mk.inj h).1
  split at h
  · rename_i hname
    refine ⟨hname, fun d hd => ?_⟩
    have hall : t.takeWhile continuesName = t :=
      (List.takeWhile_prefix continuesName).eq_of_length (Prod.mk.inj h).2
    exact List.all_eq_true.1 List.all_takeWhile d (hall.symm ▸ hd)
  · cases (Prod.mk.inj h).1

theorem continuesName_of_isValid {lexeme : Text} (h : (Item.token .name lexeme).IsValid) :
    ∀ c ∈ lexeme, continuesName c = true := by
  obtain ⟨c, t, rfl, _, hscan⟩ := h
  obtain ⟨hstart, hmore⟩ := of_scan_name hscan
  refine List.forall_mem_cons.2 ⟨?_, hmore⟩
  rw [continuesName, hstart, Bool.true_or]

/-- How a number starts, and how far it goes. -/
theorem of_scan_number {c : Char} {t : Text} (h : scan c t = (.number, t.length)) :
    (Text.isDigit c || (c == '.' && t.head?.any Text.isDigit)) = true ∧
      numberLength t = t.length := by
  unfold scan at h
  split at h
  · cases (Prod.mk.inj h).1
  split at h
  · cases (Prod.mk.inj h).1
  split at h
  · rename_i hnumber
    exact ⟨hnumber, (Prod.mk.inj h).2⟩
  split at h
  · cases (Prod.mk.inj h).1
  · cases (Prod.mk.inj h).1

/-- The dollar sign is the only character of a name that is not one of a word. -/
theorem isWordChar_of_continuesName {c : Char} (h : continuesName c = true) (hc : c ≠ '$') :
    Text.isWordChar c = true := by
  simp only [continuesName, startsName, Bool.or_eq_true, beq_iff_eq] at h
  simp only [Text.isWordChar, Text.isAlnum, Bool.or_eq_true, beq_iff_eq]
  rcases h with ((hscore | hdollar) | hletter) | hdigit
  · exact Or.inr hscore
  · exact absurd hdollar hc
  · exact Or.inl (Or.inl (Or.inl hletter))
  · exact Or.inl (Or.inl (Or.inr hdigit))

/-- A literal that does not run on ends with its quote. -/
theorem getLast?_literal {quote : Char} {t u : Text} (hu : u ≠ [])
    (hlength : Literal.length quote t = t.length)
    (hends : ¬ (!u.isEmpty && !Literal.isClosed (quote :: t)) = true) :
    (quote :: t).getLast? = some quote := by
  have hclosed : Literal.close quote t ≠ none := by
    simpa [Literal.isClosed, hu] using hends
  obtain ⟨cut, hcut⟩ := Option.ne_none_iff_exists'.1 hclosed
  rw [Literal.length, hcut] at hlength
  have hsplit := Literal.close_append hcut
  have hwhole : cut.1 = t :=
    List.IsPrefix.eq_of_length ⟨cut.2, hsplit⟩ hlength
  rw [← List.singleton_append, List.getLast?_append, ← hwhole, Literal.getLast?_of_close hcut,
    Option.some_or]

theorem not_mem_number {c d : Char} {t : Text} (hdigit : Text.isDigit d = false)
    (hpart : isNumberChar d = false)
    (hc : (Text.isDigit c || (c == '.' && t.head?.any Text.isDigit)) = true)
    (hlength : numberLength t = t.length) : d ∉ c :: t := by
  have hpoint : isNumberChar '.' = true := by decide
  intro hmem
  rcases List.mem_cons.1 hmem with rfl | hmem
  · rw [hdigit, Bool.false_or, Bool.and_eq_true, beq_iff_eq] at hc
    cases (hc.1 ▸ hpart).symm.trans hpoint
  · have hchar := isNumberChar_of_mem t d (by rwa [hlength, List.take_length])
    rw [hpart] at hchar
    cases hchar

/-- No number holds a dollar sign. -/
theorem dollar_not_mem_number {lexeme : Text} (h : (Item.token .number lexeme).IsValid) :
    '$' ∉ lexeme := by
  obtain ⟨c, t, rfl, _, hscan⟩ := h
  obtain ⟨hstart, hlength⟩ := of_scan_number hscan
  exact not_mem_number (by decide) (by decide) hstart hlength

/-- A character of no longer punctuator is one by itself. -/
theorem eq_of_mem_punctuator {c d : Char} {t : Text} (hnone : ∀ mark ∈ longPunctuators, d ∉ mark)
    (hlength : punctuatorLength (c :: t) - 1 = t.length) (hmem : d ∈ c :: t) : c :: t = [d] := by
  rcases punctuatorLength_eq (c :: t) with hone | ⟨mark, hmark, hfound, hmarks⟩
  · rw [hone] at hlength
    obtain rfl := List.eq_nil_of_length_eq_zero hlength.symm
    rw [List.mem_singleton.1 hmem]
  · have hlong := one_le_punctuatorLength (c :: t)
    have hsame : mark = c :: t :=
      (List.isPrefixOf_iff_prefix.1 hfound).eq_of_length (by rw [List.length_cons]; omega)
    exact absurd (hsame ▸ hmem) (hnone mark hmark)

/-- **A token that ends with a character of names** and does not run on into some text is a name or
a number. -/
theorem eq_name_or_number {kind : TokenKind} {lexeme u : Text} {d : Char}
    (hvalid : (Item.token kind lexeme).IsValid) (hlast : lexeme.getLast? = some d)
    (hd : continuesName d = true) (hu : u ≠ []) (hends : ¬ runsOn kind lexeme u = true) :
    kind = .name ∨ kind = .number := by
  obtain ⟨c, t, rfl, _, hscan⟩ := hvalid
  unfold scan at hscan
  split at hscan
  · rename_i hdouble
    obtain ⟨rfl, hlength⟩ := Prod.mk.inj hscan
    rw [getLast?_literal hu hlength hends, hdouble] at hlast
    cases hlast
    exact absurd hd (by decide)
  split at hscan
  · rename_i hsingle
    obtain ⟨rfl, hlength⟩ := Prod.mk.inj hscan
    rw [getLast?_literal hu hlength hends, hsingle] at hlast
    cases hlast
    exact absurd hd (by decide)
  split at hscan
  · exact Or.inr (Prod.mk.inj hscan).1.symm
  split at hscan
  · exact Or.inl (Prod.mk.inj hscan).1.symm
  · rename_i hnumber hname
    have hmarks : ∀ mark ∈ longPunctuators, mark.any continuesName = false := by decide
    have hnone : ∀ mark ∈ longPunctuators, d ∉ mark := fun mark hmark hmem =>
      List.any_eq_false.1 (hmarks mark hmark) d hmem hd
    have hone := eq_of_mem_punctuator hnone (Prod.mk.inj hscan).2 (List.mem_of_getLast? hlast)
    obtain ⟨rfl, rfl⟩ := List.cons.inj hone
    rcases Bool.or_eq_true_iff.1 hd with hstart | hdigit
    · exact absurd hstart hname
    · exact absurd (by rw [hdigit, Bool.true_or]) hnumber

/-- A token that ends with a dollar sign and does not run on into some text is a name. -/
theorem eq_name_of_dollar {kind : TokenKind} {lexeme u : Text}
    (hvalid : (Item.token kind lexeme).IsValid) (hlast : lexeme.getLast? = some '$')
    (hu : u ≠ []) (hends : ¬ runsOn kind lexeme u = true) : kind = .name := by
  refine (eq_name_or_number hvalid hlast (by decide) hu hends).resolve_right ?_
  rintro rfl
  exact dollar_not_mem_number hvalid (List.mem_of_getLast? hlast)

/-- No name starts behind such a token. -/
theorem startsName_of_dollar {kind : TokenKind} {lexeme u : Text}
    (hvalid : (Item.token kind lexeme).IsValid) (hlast : lexeme.getLast? = some '$')
    (hends : runsOn kind lexeme u = false) : u.head?.any startsName = false := by
  cases u with
  | nil => rfl
  | cons d u =>
    obtain rfl := eq_name_of_dollar hvalid hlast (List.cons_ne_nil d u)
      (Bool.not_eq_true _ ▸ hends)
    have hnext : (startsName d || Text.isDigit d) = false := hends
    exact (Bool.or_eq_false_iff.1 hnext).1

end Token

namespace Macro

/-- The name of a macro is a name. -/
theorem isValid_name {definition : Text} {m : Macro} (h : ofText? definition = some m) :
    (Item.token .name m.name).IsValid := by
  unfold ofText? ofTokens? at h
  split at h
  · cases h
  · rename_i name rest htokens
    split at h
    · rename_i hname
      have hmem : name ∈ tokens definition := htokens ▸ List.mem_cons_self
      have hsame : m.name = name.lexeme := by
        split at h
        · split at h
          · cases h
            rfl
          · cases h
            rfl
        · cases h
          rfl
      rw [hsame, ← beq_iff_eq.1 (show (name.kind == .name) = true from hname)]
      exact isValid_token hmem
    · cases h

theorem continuesName_of_mem {definition : Text} {m : Macro} (h : ofText? definition = some m) :
    ∀ c ∈ m.name, continuesName c = true :=
  continuesName_of_isValid (isValid_name h)

theorem exists_name_eq_cons {definition : Text} {m : Macro} (h : ofText? definition = some m) :
    ∃ c t, m.name = c :: t ∧ startsName c = true := by
  obtain ⟨c, t, hname, _, hscan⟩ := isValid_name h
  exact ⟨c, t, hname, (of_scan_name hscan).1⟩

/-! ## 2. Uses in the items of a text -/

/-- The items of a replacement. -/
def bodyItems : List Token → List Item
  | [] => []
  | token :: rest =>
    .token token.kind token.lexeme ::
      ((if token.isName && rest.head?.any Token.isName then [.blank ' '] else []) ++ bodyItems rest)

/-- What an item becomes: the body of the macro, if it is its name. -/
def write (m : Macro) (item : Item) : List Item :=
  if item = .token .name m.name then bodyItems m.body else [item]

/-- The items of a text with the body of the macro for each token that is its name. -/
def written (m : Macro) (t : Text) : List Item := (items t).flatMap m.write

/-- What a token becomes. -/
def replaced (m : Macro) (shape : TokenKind × Text) : List (TokenKind × Text) :=
  if shape = (.name, m.name) then m.body.map Token.shape else [shape]

theorem itemsText_bodyItems (m : Macro) : itemsText (bodyItems m.body) = m.replacement [] := by
  have hsame (token : Token) : m.substitute [] token = token.lexeme := by
    have hnone : m.argument? [] token.lexeme = none := by
      rw [argument?, List.zip_nil_right]
      rfl
    rw [substitute, hnone, Option.getD_none, ite_self]
  unfold replacement
  generalize m.body = tokens
  induction tokens with
  | nil => rfl
  | cons token rest ih =>
    rw [bodyItems, render, hsame, ← ih, List.append_assoc]
    split
    · rfl
    · rfl

theorem shapes_bodyItems (tokens : List Token) :
    (bodyItems tokens).filterMap Item.shape? = tokens.map Token.shape := by
  induction tokens with
  | nil => rfl
  | cons token rest ih =>
    rw [bodyItems, List.map_cons, ← ih]
    split
    · rfl
    · rfl

theorem shapes_written (m : Macro) (t : Text) :
    (m.written t).filterMap Item.shape? =
      (tokens t).flatMap fun token => m.replaced token.shape := by
  have hwrite (item : Item) : (m.write item).filterMap Item.shape? =
      (item.shape?.toList).flatMap m.replaced := by
    unfold write
    split
    · rename_i huse
      rw [huse, shapes_bodyItems]
      show _ = [(TokenKind.name, m.name)].flatMap m.replaced
      rw [List.flatMap_singleton, replaced, if_pos rfl]
    · rename_i hother
      cases item with
      | blank c => rfl
      | token kind lexeme =>
        show [(kind, lexeme)] = [(kind, lexeme)].flatMap m.replaced
        rw [List.flatMap_singleton, replaced, if_neg]
        rintro ⟨rfl, rfl⟩
        exact hother rfl
  have hitems (its : List Item) : (its.flatMap m.write).filterMap Item.shape? =
      (its.filterMap Item.shape?).flatMap m.replaced := by
    induction its with
    | nil => rfl
    | cons item rest ih =>
      rw [List.flatMap_cons, List.filterMap_append, ih, hwrite]
      cases item with
      | blank c => rfl
      | token kind lexeme =>
        show _ = ((kind, lexeme) :: rest.filterMap Item.shape?).flatMap m.replaced
        rw [List.flatMap_cons]
        congr 1
        exact List.append_nil _
  rw [written, hitems, ← shapes_items .start t, List.flatMap_map]
  rfl

theorem isValid_bodyItems {definition : Text} {m : Macro} (h : ofText? definition = some m) :
    ∀ item ∈ bodyItems m.body, item.IsValid := by
  have hbody : ∀ token ∈ m.body, (Item.token token.kind token.lexeme).IsValid :=
    fun token htoken => isValid_token (body_subset h token htoken)
  generalize m.body = tokens at hbody
  induction tokens with
  | nil => exact fun item hitem => absurd hitem List.not_mem_nil
  | cons token rest ih =>
    obtain ⟨htoken, hrest⟩ := List.forall_mem_cons.1 hbody
    refine List.forall_mem_cons.2 ⟨htoken, List.forall_mem_append.2 ⟨?_, ih hrest⟩⟩
    split
    · refine List.forall_mem_singleton.2 ?_
      show Text.isSpace ' ' = true
      decide
    · exact fun item hitem => absurd hitem List.not_mem_nil

theorem isValid_written {definition : Text} {m : Macro} (h : ofText? definition = some m)
    (t : Text) : ∀ item ∈ m.written t, item.IsValid := by
  intro item hitem
  obtain ⟨old, hold, hnew⟩ := List.mem_flatMap.1 hitem
  unfold write at hnew
  split at hnew
  · exact isValid_bodyItems h item hnew
  · rw [List.mem_singleton.1 hnew]
    exact isValid_items t old hold

/-- **The space between names is enough**: a body of names is kept apart. -/
theorem keepsApart_bodyItems {tokens : List Token} (h : ∀ token ∈ tokens, token.isName = true) :
    keepsApart (bodyItems tokens) = true := by
  induction tokens with
  | nil => rfl
  | cons token rest ih =>
    obtain ⟨htoken, hrest⟩ := List.forall_mem_cons.1 h
    have hkind : token.kind = .name := beq_iff_eq.1 htoken
    cases rest with
    | nil =>
      rw [bodyItems, htoken, hkind]
      rfl
    | cons next more =>
      have hnext := List.forall_mem_cons.1 hrest |>.1
      have hspace : continuesName ' ' = false := by decide
      rw [bodyItems, htoken, List.head?_cons, Option.any_some, hnext, hkind, keepsApart]
      refine Bool.and_eq_true_iff.2 ⟨?_, ih hrest⟩
      show (!continuesName ' ') = true
      rw [hspace]
      rfl

/-! ## 3. Where a text has the name -/

/-- The places at which a text has the name without a word character before or behind it. -/
def standsAt (m : Macro) (t : Text) : List Nat :=
  (List.range t.length).filter fun n =>
    m.name.isPrefixOf (t.drop n) && !startsWithWord (t.take n).reverse &&
      !startsWithWord (t.drop (n + m.name.length))

/-- The places of the items that are the name, where the first one starts at `n`. -/
def places (m : Macro) (n : Nat) : List Item → List Nat
  | [] => []
  | item :: rest =>
    (if item = .token .name m.name then [n] else []) ++ places m (n + item.text.length) rest

/-- The text with a replacement for the name at some places, where it starts at `n`. -/
def insertAt (m : Macro) (spots : List Nat) (n : Nat) : Text → Text
  | [] => []
  | c :: t =>
    if n ∈ spots then
      m.replacement [] ++ insertAt m spots (n + m.name.length) (t.drop (m.name.length - 1))
    else c :: insertAt m spots (n + 1) t
termination_by t => t.length
decreasing_by all_goals simp only [List.length_cons, List.length_drop]; omega

section Places

variable {m : Macro}

theorem mem_standsAt (hname : m.name ≠ []) (before t : Text) :
    before.length ∈ m.standsAt (before ++ t) ↔
      m.name <+: t ∧ startsWithWord before.reverse = false ∧
        startsWithWord (t.drop m.name.length) = false := by
  have hdrop : (before ++ t).drop (before.length + m.name.length) = t.drop m.name.length := by
    rw [← List.drop_drop, List.drop_left]
  rw [standsAt, List.mem_filter, hdrop, List.drop_left, List.take_left, Bool.and_eq_true,
    Bool.and_eq_true, List.isPrefixOf_iff_prefix, Bool.not_eq_true', Bool.not_eq_true', and_assoc,
    and_iff_right_iff_imp, List.mem_range, List.length_append]
  intro h
  have hle := h.1.length_le
  have hpos := List.length_pos_iff.2 hname
  omega

/-- At each place stands an item that is the name. -/
theorem exists_of_mem_places {n p : Nat} {its : List Item} (h : p ∈ m.places n its) :
    ∃ before behind, its = before ++ .token .name m.name :: behind ∧
      p = n + (itemsText before).length := by
  induction its generalizing n with
  | nil => cases h
  | cons item rest ih =>
    rcases List.mem_append.1 h with hfirst | hlater
    · split at hfirst
      · rename_i huse
        rw [huse]
        exact ⟨[], rest, rfl, List.mem_singleton.1 hfirst⟩
      · cases hfirst
    · obtain ⟨before, behind, rfl, rfl⟩ := ih hlater
      refine ⟨item :: before, behind, rfl, ?_⟩
      rw [itemsText_cons, List.length_append, Nat.add_assoc]

theorem le_of_mem_places {n p : Nat} {its : List Item} (h : p ∈ m.places n its) : n ≤ p := by
  obtain ⟨before, _, _, rfl⟩ := exists_of_mem_places h
  exact Nat.le_add_right _ _

theorem lt_of_mem_places (hname : m.name ≠ []) {n p : Nat} {its : List Item}
    (h : p ∈ m.places n its) : p < n + (itemsText its).length := by
  obtain ⟨before, behind, rfl, rfl⟩ := exists_of_mem_places h
  have hpos := List.length_pos_iff.2 hname
  rw [itemsText_append, itemsText_cons, List.length_append, List.length_append]
  show n + (itemsText before).length < n + (_ + (m.name.length + _))
  omega

theorem places_append (n : Nat) (before behind : List Item) :
    m.places n (before ++ behind) =
      m.places n before ++ m.places (n + (itemsText before).length) behind := by
  induction before generalizing n with
  | nil => rfl
  | cons item rest ih =>
    rw [List.cons_append, places, places, ih, List.append_assoc, itemsText_cons,
      List.length_append, Nat.add_assoc]

theorem insertAt_use (hname : m.name ≠ []) {spots : List Nat} {n : Nat} (h : n ∈ spots)
    (t : Text) :
    m.insertAt spots n (m.name ++ t) =
      m.replacement [] ++ m.insertAt spots (n + m.name.length) t := by
  obtain ⟨c, s, hcons⟩ := List.exists_cons_of_ne_nil hname
  have hdrop : (s ++ t).drop (m.name.length - 1) = t := by
    rw [hcons, List.length_cons, Nat.add_sub_cancel, List.drop_left]
  have hhead : m.name ++ t = c :: (s ++ t) := by rw [hcons, List.cons_append]
  rw [hhead, insertAt, if_pos h, hdrop]

theorem insertAt_kept {spots : List Nat} {n : Nat} {kept : Text}
    (h : ∀ p ∈ spots, n ≤ p → n + kept.length ≤ p) (t : Text) :
    m.insertAt spots n (kept ++ t) = kept ++ m.insertAt spots (n + kept.length) t := by
  induction kept generalizing n with
  | nil => rfl
  | cons c kept ih =>
    have hkeep : n ∉ spots := fun hmem => by
      have hle := h n hmem (Nat.le_refl n)
      rw [List.length_cons] at hle
      omega
    rw [List.cons_append, insertAt, if_neg hkeep, List.length_cons, Nat.add_comm kept.length,
      ← Nat.add_assoc, ih, List.cons_append]
    intro p hp hle
    have hlater := h p hp (by omega)
    rw [List.length_cons] at hlater
    omega

/-- **Inserting at the places of the name** writes the body for the items that are the name. -/
theorem insertAt_itemsText (hname : m.name ≠ []) {spots : List Nat} {n : Nat} {its : List Item}
    (h : ∀ p, n ≤ p → (p ∈ spots ↔ p ∈ m.places n its)) :
    m.insertAt spots n (itemsText its) = itemsText (its.flatMap m.write) := by
  induction its generalizing n with
  | nil =>
    show m.insertAt spots n [] = []
    rw [insertAt]
  | cons item rest ih =>
    have hrest (hpos : 0 < item.text.length) (p : Nat) (hp : n + item.text.length ≤ p) :
        p ∈ spots ↔ p ∈ m.places (n + item.text.length) rest := by
      rw [h p (by omega), places, List.mem_append, or_iff_right]
      intro hmem
      split at hmem
      · rw [List.mem_singleton.1 hmem] at hp
        omega
      · cases hmem
    rw [List.flatMap_cons, itemsText_append, itemsText_cons]
    by_cases huse : item = .token .name m.name
    · have hwrite : itemsText (m.write item) = m.replacement [] := by
        rw [write, if_pos huse, itemsText_bodyItems]
      have htext : item.text = m.name := by rw [huse]; rfl
      have hmem : n ∈ spots := (h n (Nat.le_refl n)).2 (by
        rw [places, if_pos huse]
        exact List.mem_cons_self)
      rw [htext] at hrest ⊢
      rw [insertAt_use hname hmem, ih (hrest (List.length_pos_iff.2 hname)), hwrite]
    · have hwrite : itemsText (m.write item) = item.text := by
        rw [write, if_neg huse]
        exact List.append_nil _
      have hnone : ∀ p ∈ spots, n ≤ p → n + item.text.length ≤ p := by
        intro p hp hle
        rw [h p hle, places, if_neg huse] at hp
        exact le_of_mem_places hp
      rw [insertAt_kept hnone, hwrite]
      congr 1
      refine ih fun p hp => ?_
      rw [h p (by omega), places, if_neg huse]
      rfl

end Places

/-! ## 4. A pass -/

/-- Whether the name may be used on a line that starts so. -/
def allowsUses (line : Text) : Bool :=
  line != redefinition && !testOpenings.any fun opening => opening.isPrefixOf line

/-- Whether the pass may use the name wherever an item is the name: none of these places stands on a
line that, with the body for the names before it, redefines or tests a symbol. -/
def IsAllowed (m : Macro) (t : Text) : Prop :=
  ∀ i < (items t).length, (items t)[i]? = some (.token .name m.name) →
    allowsUses (lineAfter [] (itemsText (((items t).take i).flatMap m.write))).reverse = true

instance (m : Macro) (t : Text) : Decidable (m.IsAllowed t) :=
  inferInstanceAs (Decidable (∀ i < _, _ → _))

section Step

variable {m : Macro} {line t rest : Text} {c : Char}

theorem step_of_not_prefix (h : ¬ m.name <+: c :: t) : m.step line c t = .keep [c] t := by
  unfold step
  split
  · rfl
  · rename_i rest hrest
    exact absurd ⟨rest, (Text.isPrefixOf?_eq_some_iff.1 hrest).symm⟩ h

theorem step_eq_stepAtName (hname : m.name ≠ []) (h : c :: t = m.name ++ rest) :
    m.step line c t = m.stepAtName line rest := by
  unfold step
  rw [Text.isPrefixOf?_eq_some_iff.2 h]
  exact if_neg hname

theorem stepAtName_of_stands (hobject : m.isFunctionLike = false) (hbreak : '\n' ∉ m.name)
    (hbefore : startsWithWord line = false) (hbehind : startsWithWord rest = false)
    (hallowed : allowsUses line.reverse = true) :
    m.stepAtName line rest = .replace (m.replacement []) rest := by
  obtain ⟨hdefine, htest⟩ := Bool.and_eq_true_iff.1 hallowed
  have hdefine : line.reverse ≠ redefinition := bne_iff_ne.1 hdefine
  rw [stepAtName, hbefore, hbehind, hobject, if_neg Bool.false_ne_true, if_neg hdefine,
    if_neg (by simpa using htest), if_neg Bool.false_ne_true, if_neg Bool.false_ne_true,
    Text.breaks_eq_zero.2 hbreak]
  show Step.replace (m.replacement [] ++ []) rest = _
  rw [List.append_nil]

theorem stepAtName_of_word (hobject : m.isFunctionLike = false)
    (h : startsWithWord line = true ∨ startsWithWord rest = true) :
    m.stepAtName line rest = .keep m.name rest := by
  unfold stepAtName
  rw [hobject]
  rcases h with hbefore | hbehind
  · rw [if_pos hbefore]
  · rw [hbehind, if_pos rfl, if_pos rfl, if_neg Bool.false_ne_true]
    split
    · rfl
    · split
      · rfl
      · split
        · rfl
        · rfl

end Step

/-- Behind some text, a word goes on if the text ends in one. -/
theorem startsWithWord_lineAfter (line : Text) {kept : Text} (h : kept ≠ []) :
    startsWithWord (lineAfter line kept) = startsWithWord kept.reverse := by
  obtain ⟨s, c, rfl⟩ := List.eq_nil_or_concat kept |>.resolve_left h
  rw [lineAfter, List.concat_eq_append, List.foldl_append, List.reverse_append]
  show startsWithWord (if c = '\n' then [] else c :: _) = startsWithWord (c :: s.reverse)
  split
  · rename_i hbreak
    rw [hbreak]
    rfl
  · rfl

section Pass

variable {definition c : Text} {m : Macro}

theorem eq_of_items {before behind : List Item}
    (h : items c = before ++ .token .name m.name :: behind) :
    c = itemsText before ++ (m.name ++ itemsText behind) := by
  have htext := itemsText_items c
  rw [h, itemsText_append, itemsText_cons] at htext
  exact htext.symm

variable (hm : ofText? definition = some m)

include hm

/-- No dollar sign stands before an item that is the name. -/
theorem getLast?_ne_dollar {before behind : List Item}
    (h : items c = before ++ .token .name m.name :: behind) :
    (itemsText before).getLast? ≠ some '$' := by
  intro hlast
  have hspace : Text.isSpace '$' = false := by decide
  obtain rfl | ⟨start, item, rfl⟩ := List.eq_nil_or_concat before
  · cases hlast
  rw [List.concat_eq_append, List.append_assoc, List.singleton_append] at h
  have hvalid : item.IsValid := isValid_items c item (h ▸ by simp)
  have hend : item.text.getLast? = _ := List.getLast?_eq_some_getLast (Item.text_ne_nil hvalid)
  rw [List.concat_eq_append, itemsText_append, itemsText_cons, itemsText_nil, List.append_nil,
    List.getLast?_append, hend, Option.some_or, ← hend] at hlast
  cases item with
  | blank d =>
    obtain rfl : d = '$' := Option.some.inj hlast
    exact absurd hvalid (Bool.not_eq_true _ ▸ hspace)
  | token kind lexeme =>
    have hends := runsOn_of_keepsApart (h ▸ keepsApart_items c)
    have hnone := startsName_of_dollar hvalid hlast hends
    obtain ⟨d, s, hcons, hstart⟩ := exists_name_eq_cons hm
    rw [itemsText_cons, Item.text, hcons] at hnone
    exact absurd hstart (Bool.not_eq_true _ ▸ hnone)

/-- The name does not stand again right behind an item that is the name. -/
theorem not_name_behind {before behind : List Item}
    (h : items c = before ++ .token .name m.name :: behind) : ¬ m.name <+: itemsText behind := by
  rintro ⟨more, hmore⟩
  have hends := runsOn_of_keepsApart (h ▸ keepsApart_items c)
  obtain ⟨d, s, hcons, hstart⟩ := exists_name_eq_cons hm
  rw [← hmore, hcons] at hends
  have hnone : (startsName d || Text.isDigit d) = false := hends
  rw [hstart] at hnone
  cases hnone

/-- What is written before an item that is the name is what the items before it become, and so its
line allows a use. -/
theorem allowsUses_of_items (hallowed : m.IsAllowed c) {before behind : List Item} {out : Text}
    (h : items c = before ++ .token .name m.name :: behind)
    (hout : out ++ m.insertAt (m.places 0 (items c)) (itemsText before).length
      (m.name ++ itemsText behind) = itemsText (m.written c)) :
    allowsUses (lineAfter [] out).reverse = true := by
  have hname := name_ne_nil hm
  have hsuffix : m.insertAt (m.places 0 (items c)) (itemsText before).length
      (itemsText (.token .name m.name :: behind)) =
        itemsText ((.token .name m.name :: behind).flatMap m.write) := by
    refine insertAt_itemsText hname fun p hp => ?_
    rw [h, places_append, List.mem_append, Nat.zero_add, or_iff_right]
    intro hbefore
    have hlt := lt_of_mem_places hname hbefore
    omega
  have hwritten : out = itemsText (before.flatMap m.write) := by
    rw [itemsText_cons, Item.text] at hsuffix
    rw [hsuffix, written, h, List.flatMap_append, itemsText_append,
      List.append_cancel_right_eq] at hout
    exact hout
  have htake : (items c).take before.length = before := by rw [h, List.take_left]
  rw [hwritten, ← htake]
  refine hallowed before.length ?_ ?_
  · rw [h, List.length_append, List.length_cons]
    omega
  · rw [h, List.getElem?_append_right (Nat.le_refl _), Nat.sub_self]
    rfl

variable (hplaces : m.standsAt c = m.places 0 (items c))

include hplaces

/-- No place lies within the name where it stands in the text. -/
theorem add_le_of_mem_places {done rest : Text} (hc : c = done ++ (m.name ++ rest)) {p : Nat}
    (hp : p ∈ m.places 0 (items c)) (hlt : done.length < p) :
    done.length + m.name.length ≤ p := by
  obtain ⟨before, behind, hitems, hlength⟩ := exists_of_mem_places hp
  rw [Nat.zero_add] at hlength
  have hwhole := eq_of_items hitems
  have htext := hwhole.symm.trans hc
  refine Nat.not_lt.1 fun hin => getLast?_ne_dollar hm hitems ?_
  -- the text before the place ends with a character of the name
  obtain ⟨u, hu⟩ := List.prefix_of_prefix_length_le (List.prefix_append done (m.name ++ rest))
    (htext ▸ List.prefix_append (itemsText before) _) (by omega)
  rw [← hu, List.append_assoc, List.append_cancel_left_eq] at htext
  rw [← hu, List.length_append] at hlength
  have hfound : u <+: m.name := List.prefix_of_prefix_length_le
    (htext ▸ List.prefix_append u _) (List.prefix_append m.name rest) (by omega)
  have hne : u ≠ [] := List.ne_nil_of_length_pos (by omega)
  obtain ⟨s, d, rfl⟩ := List.eq_nil_or_concat u |>.resolve_left hne
  rw [List.concat_eq_append, ← List.append_assoc] at hu
  have hmem : d ∈ m.name := hfound.subset (by simp)
  -- which is no word character
  have hstands : (itemsText before).length ∈ m.standsAt c := by
    rw [hplaces, ← hu, List.append_assoc, ← List.concat_eq_append, List.length_append, ← hlength]
    exact hp
  rw [hwhole, mem_standsAt (name_ne_nil hm)] at hstands
  have hnone := hstands.2.1
  rw [← hu, List.reverse_append] at hnone
  rw [← hu, List.getLast?_concat]
  refine congrArg some (Classical.byContradiction fun hd => ?_)
  have hword := isWordChar_of_continuesName (continuesName_of_mem hm d hmem) hd
  exact absurd hword (Bool.not_eq_true _ ▸ hnone)

variable (hobject : m.isFunctionLike = false)

include hobject

/-- Elsewhere some text is kept, in which no place lies. -/
theorem step_of_not_mem_places {done t line : Text} {d : Char} (hc : c = done ++ d :: t)
    (hword : m.name <+: d :: t → startsWithWord line = startsWithWord done.reverse)
    (hmem : done.length ∉ m.places 0 (items c)) :
    ∃ kept rest, kept ≠ [] ∧ d :: t = kept ++ rest ∧ m.step line d t = .keep kept rest ∧
      ∀ p ∈ m.places 0 (items c), done.length ≤ p → done.length + kept.length ≤ p := by
  have hname := name_ne_nil hm
  by_cases hfound : m.name <+: d :: t
  · obtain ⟨rest, hrest⟩ := hfound
    refine ⟨m.name, rest, hname, hrest.symm, ?_, fun p hp hle => ?_⟩
    · rw [step_eq_stepAtName hname hrest.symm]
      refine stepAtName_of_word hobject ?_
      rw [← hplaces, hc, mem_standsAt hname, ← hrest, List.drop_left] at hmem
      rw [hword ⟨rest, hrest⟩]
      refine Classical.byContradiction fun hnone => hmem ⟨List.prefix_append _ _, ?_⟩
      exact (not_or.1 hnone).imp (Bool.not_eq_true _ ▸ ·) (Bool.not_eq_true _ ▸ ·)
    · refine add_le_of_mem_places hm hplaces (hrest ▸ hc) hp (Nat.lt_of_le_of_ne hle ?_)
      rintro rfl
      exact hmem hp
  · refine ⟨[d], t, List.cons_ne_nil d [], rfl, step_of_not_prefix hfound, fun p hp hle => ?_⟩
    refine Nat.lt_of_le_of_ne hle ?_
    rintro rfl
    exact hmem hp

variable (hallowed : m.IsAllowed c)

include hallowed

/-- **At a place the name is replaced.** -/
theorem step_of_mem_places {done t out : Text} {d : Char} (hc : c = done ++ d :: t)
    (hout : out ++ m.insertAt (m.places 0 (items c)) done.length (d :: t) =
      itemsText (m.written c))
    (hword : m.name <+: d :: t →
      startsWithWord (lineAfter [] out) = startsWithWord done.reverse)
    (hmem : done.length ∈ m.places 0 (items c)) :
    ∃ rest, d :: t = m.name ++ rest ∧ ¬ m.name <+: rest ∧
      m.step (lineAfter [] out) d t = .replace (m.replacement []) rest := by
  have hname := name_ne_nil hm
  have hbreak : '\n' ∉ m.name := fun hin => by
    have hnone : continuesName '\n' = false := by decide
    exact absurd (continuesName_of_mem hm _ hin) (Bool.not_eq_true _ ▸ hnone)
  obtain ⟨before, behind, hitems, hlength⟩ := exists_of_mem_places hmem
  rw [Nat.zero_add] at hlength
  obtain ⟨hdone, ht⟩ : itemsText before = done ∧ m.name ++ itemsText behind = d :: t :=
    List.append_inj ((eq_of_items hitems).symm.trans hc) hlength.symm
  rw [← ht, ← hdone] at hout
  have hstands := hplaces ▸ hmem
  rw [hc, mem_standsAt hname, ← ht, List.drop_left] at hstands
  obtain ⟨hfound, hbefore, hbehind⟩ := hstands
  refine ⟨itemsText behind, ht.symm, not_name_behind hm hitems, ?_⟩
  rw [step_eq_stepAtName hname ht.symm]
  exact stepAtName_of_stands hobject hbreak ((hword (ht ▸ hfound)).trans hbefore) hbehind
    (allowsUses_of_items hm hallowed hitems hout)

/-- **A pass inserts at the places.** -/
theorem text_expandUses_from {done t out : Text} (hc : c = done ++ t)
    (hout : out ++ m.insertAt (m.places 0 (items c)) done.length t = itemsText (m.written c))
    (hword : m.name <+: t → startsWithWord (lineAfter [] out) = startsWithWord done.reverse) :
    (m.expandUses (lineAfter [] out) t).text =
      m.insertAt (m.places 0 (items c)) done.length t := by
  have hafter (out new : Text) : lineAfter (lineAfter [] out) new = lineAfter [] (out ++ new) :=
    List.foldl_append.symm
  induction hn : t.length using Nat.strongRecOn generalizing done t out with
  | ind n ih =>
  cases t with
  | nil => rw [expandUses, insertAt]
  | cons d t =>
    by_cases hmem : done.length ∈ m.places 0 (items c)
    · obtain ⟨rest, hsplit, hagain, hstep⟩ :=
        step_of_mem_places hm hplaces hobject hallowed hc hout hword hmem
      rw [hsplit, insertAt_use (name_ne_nil hm) hmem, ← List.length_append] at hout ⊢
      rw [← hsplit, expandUses_replace hstep, hafter]
      refine congrArg (m.replacement [] ++ ·) (ih rest.length ?_ ?_ ?_ ?_ rfl)
      · have hlength := congrArg List.length hsplit
        have hpos := List.length_pos_iff.2 (name_ne_nil hm)
        rw [hn, List.length_append] at hlength
        omega
      · rw [hc, hsplit, List.append_assoc]
      · rw [List.append_assoc]
        exact hout
      · exact fun hfound => absurd hfound hagain
    · obtain ⟨kept, rest, hne, hsplit, hstep, hnone⟩ :=
        step_of_not_mem_places hm hplaces hobject hc hword hmem
      rw [hsplit, insertAt_kept hnone, ← List.length_append] at hout ⊢
      rw [← hsplit, expandUses_keep hstep, hafter]
      refine congrArg (kept ++ ·) (ih rest.length ?_ ?_ ?_ ?_ rfl)
      · have hlength := congrArg List.length hsplit
        have hpos := List.length_pos_iff.2 hne
        rw [hn, List.length_append] at hlength
        omega
      · rw [hc, hsplit, List.append_assoc]
      · rw [List.append_assoc]
        exact hout
      · intro _
        rw [← hafter, startsWithWord_lineAfter _ hne, List.reverse_append,
          startsWithWord_append (List.reverse_ne_nil_iff.2 hne)]

/-- **A pass over a text** writes the text of what its items become. -/
theorem text_expandUses : (m.expandUses [] c).text = itemsText (m.written c) := by
  have hinsert : m.insertAt (m.places 0 (items c)) 0 c = itemsText (m.written c) := by
    have h : m.insertAt (m.places 0 (items c)) 0 (itemsText (items c)) = _ :=
      insertAt_itemsText (name_ne_nil hm) fun _ _ => Iff.rfl
    rwa [itemsText_items] at h
  rw [← hinsert]
  have hstart : [] ++ m.insertAt (m.places 0 (items c)) ([] : Text).length c =
    itemsText (m.written c) := hinsert
  exact text_expandUses_from hm hplaces hobject hallowed rfl hstart fun _ => rfl

end Pass

/-! ## 5. The tokens of a text after a pass -/

/-- **Uses become the body, token by token,** exactly where no token runs on. The replacement of an
object-like macro has the tokens of the body if none of these runs on; and after a pass over a text,
in which the name stands alone just where it is a token and may be used there, the tokens are those
of the text with the body for the name, if none of these runs on into what is written behind it. -/
theorem tokens_expandUses_iff {definition c : Text} {m : Macro} (hm : ofText? definition = some m)
    (hobject : m.isFunctionLike = false) (hplaces : m.standsAt c = m.places 0 (items c))
    (hallowed : m.IsAllowed c) :
    ((tokens (m.replacement [])).map Token.shape = m.body.map Token.shape ↔
        keepsApart (bodyItems m.body) = true) ∧
      ((tokens (m.expandUses [] c).text).map Token.shape =
          (tokens c).flatMap (fun token => m.replaced token.shape) ↔
        keepsApart (m.written c) = true) := by
  refine ⟨?_, ?_⟩
  · rw [← itemsText_bodyItems, ← shapes_bodyItems m.body]
    exact shapes_itemsText_iff (isValid_bodyItems hm) .start
  · rw [text_expandUses hm hplaces hobject hallowed, ← shapes_written]
    exact shapes_itemsText_iff (isValid_written hm c) .start

/-- Operators between names keep all tokens apart. -/
theorem tokens_expandUses_sum : ∃ m, ofText? " X a + b".toList = some m ∧
    m.isFunctionLike = false ∧
    m.standsAt "X*2-X;\n".toList = m.places 0 (items "X*2-X;\n".toList) ∧
    m.IsAllowed "X*2-X;\n".toList ∧
    (tokens (m.replacement [])).map Token.shape = m.body.map Token.shape ∧
    (tokens (m.expandUses [] "X*2-X;\n".toList).text).map Token.shape =
      (tokens "X*2-X;\n".toList).flatMap (fun token => m.replaced token.shape) := by
  have hm : ofText? " X a + b".toList = some ⟨['X'], [], [⟨.name, ['a'], ⟨1, 4⟩⟩,
    ⟨.punctuator, ['+'], ⟨1, 6⟩⟩, ⟨.name, ['b'], ⟨1, 8⟩⟩]⟩ := by decide +kernel
  refine ⟨_, hm, rfl, by decide +kernel, by decide +kernel, ?_⟩
  obtain ⟨hbody, hcode⟩ := tokens_expandUses_iff (c := "X*2-X;\n".toList) hm rfl
    (by decide +kernel) (by decide +kernel)
  exact ⟨hbody.2 (by decide +kernel), hcode.2 (by decide +kernel)⟩

/-- Tokens that run on: a number or an operator into the next one of the body, operators of the text
into the body and over an empty one. A name is also used within a number or behind a dollar sign,
not used behind a fraction, and not used any more on a line that starts to test a symbol. -/
theorem tokens_expandUses_ne :
    (∃ m ∈ ofText? " X 1 2".toList,
      (tokens (m.replacement [])).map Token.shape ≠ m.body.map Token.shape) ∧
      ∀ p ∈ [(" X 1 2", "X\n"), (" X + +", "X\n"), (" X -1", "-X\n"), (" X", "+X+\n"),
          (" X y", "1.X\n"), (" X y", "a$X\n"), (" X y", "½X\n"), (" X #ifdef a", "X X\n")],
        Literal.IsUnquoted p.2.toList ∧
          (∀ line ∈ p.2.toList.splitOn '\n', line.head? ≠ some '#') ∧
          ∃ m ∈ ofText? p.1.toList, m.isFunctionLike = false ∧
            (tokens (m.expandUses [] p.2.toList).text).map Token.shape ≠
              (tokens p.2.toList).flatMap (fun token => m.replaced token.shape) := by
  decide +kernel

end Macro

end Variants
