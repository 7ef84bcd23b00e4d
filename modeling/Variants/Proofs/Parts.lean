import Variants.Proofs.Uses

/-!
# A pass over a text in two parts

When the first part is made of whole lines, a pass over the two parts is a pass over each of them,
unless a call starts in the first part and ends in the second one, or the pass ends in the first
part already. What a pass comes upon is listed by `Macro.sites`, with the numbers of the lines on
which it stands. Where no use goes over the border of the parts, both the text after a pass and the
sites on it are put together from those of the parts (`expandUses_append`).
-/

namespace Variants

open Macro

namespace Macro

/-! ## 1. Sites -/

/-- What a pass comes upon: a use, with its first and its last line, or the redefinition where it
ends. -/
inductive Site where
  | use (first last : Nat)
  | redefinition (line : Nat)
  deriving DecidableEq, Repr

/-- The sites of a pass. The text starts in line `n`, with the text `line` before it, from its end
to its start. What is put in for a use has the line breaks of the use. -/
def sites (m : Macro) (n : Nat) (line : Text) : Text → List Site
  | [] => []
  | c :: t =>
    match _hstep : m.step line c t with
    | .stop => [.redefinition n]
    | .keep kept rest => sites m (n + Text.breaks kept) (lineAfter line kept) rest
    | .replace text rest =>
      .use n (n + Text.breaks text) ::
        sites m (n + Text.breaks text) (lineAfter line text) rest
termination_by t => t.length
decreasing_by
  · exact length_step_lt (by rw [_hstep]; rfl)
  · exact length_step_lt (by rw [_hstep]; rfl)

section Steps

variable {m : Macro} {n : Nat} {line t kept text rest : Text} {c : Char}

theorem sites_stop (h : m.step line c t = .stop) :
    m.sites n line (c :: t) = [.redefinition n] := by
  rw [sites]
  split
  · rfl
  · rename_i hstep
    cases h.symm.trans hstep
  · rename_i hstep
    cases h.symm.trans hstep

theorem sites_keep (h : m.step line c t = .keep kept rest) :
    m.sites n line (c :: t) = m.sites (n + Text.breaks kept) (lineAfter line kept) rest := by
  rw [sites]
  split
  · rename_i hstep
    cases h.symm.trans hstep
  · rename_i hstep
    cases h.symm.trans hstep
    rfl
  · rename_i hstep
    cases h.symm.trans hstep

theorem sites_replace (h : m.step line c t = .replace text rest) :
    m.sites n line (c :: t) = .use n (n + Text.breaks text) ::
      m.sites (n + Text.breaks text) (lineAfter line text) rest := by
  rw [sites]
  split
  · rename_i hstep
    cases h.symm.trans hstep
  · rename_i hstep
    cases h.symm.trans hstep
  · rename_i hstep
    cases h.symm.trans hstep
    rfl

end Steps

/-! ## 2. Calls -/

/-- A call that ends in the first part is read there. -/
theorem Call.readFrom_append {depth : Nat} {s : Text} {call : Call}
    (h : readFrom depth s = some call) (t : Text) :
    readFrom depth (s ++ t) = some ⟨call.pieces, call.rest ++ t⟩ := by
  fun_induction readFrom depth s generalizing call with
  | case1 => cases h
  | case2 depth s ih =>
    obtain ⟨inner, hin, rfl⟩ := Option.map_eq_some_iff.1 h
    simp [readFrom, ih hin, push]
  | case3 s =>
    cases h
    simp [readFrom]
  | case4 s inner hc ih =>
    obtain ⟨inside, hin, rfl⟩ := Option.map_eq_some_iff.1 h
    simp [readFrom, ih hin, push]
  | case5 depth c s hopen hclose hcomma ih =>
    obtain ⟨inner, hin, rfl⟩ := Option.map_eq_some_iff.1 h
    have hmore := ih hin
    simp only [List.cons_append, readFrom, if_neg hopen, if_neg hclose, if_pos hcomma, hmore,
      Option.map_some]
  | case6 depth c s hopen hclose hcomma ih =>
    obtain ⟨inner, hin, rfl⟩ := Option.map_eq_some_iff.1 h
    simp [readFrom, ih hin, hopen, hclose, hcomma, push]

/-- A call that does not end in the first part ends within the second one. -/
theorem Call.length_rest_lt_of_append {depth : Nat} {s t : Text} {call : Call}
    (hs : readFrom depth s = none) (h : readFrom depth (s ++ t) = some call) :
    call.rest.length < t.length := by
  fun_induction readFrom depth s generalizing call with
  | case1 =>
    rw [List.nil_append] at h
    have happend := congrArg List.length (inside_append h)
    simp only [List.length_append, List.length_cons] at happend
    omega
  | case2 depth s ih =>
    simp only [List.cons_append, readFrom, if_pos] at h
    obtain ⟨inner, hin, rfl⟩ := Option.map_eq_some_iff.1 h
    have hlt : inner.rest.length < t.length := ih (Option.map_eq_none_iff.1 hs) hin
    exact hlt
  | case3 => cases hs
  | case4 s inner hc ih =>
    simp only [List.cons_append, readFrom, if_pos, if_neg hc] at h
    obtain ⟨inside, hin, rfl⟩ := Option.map_eq_some_iff.1 h
    have hlt : inside.rest.length < t.length := ih (Option.map_eq_none_iff.1 hs) hin
    exact hlt
  | case5 depth c s hopen hclose hcomma ih =>
    simp only [List.cons_append, readFrom, if_neg hopen, if_neg hclose, if_pos hcomma] at h
    obtain ⟨inner, hin, rfl⟩ := Option.map_eq_some_iff.1 h
    have hlt : inner.rest.length < t.length := ih (Option.map_eq_none_iff.1 hs) hin
    exact hlt
  | case6 depth c s hopen hclose hcomma ih =>
    simp only [List.cons_append, readFrom, if_neg hopen, if_neg hclose, if_neg hcomma] at h
    obtain ⟨inner, hin, rfl⟩ := Option.map_eq_some_iff.1 h
    have hlt : inner.rest.length < t.length := ih (Option.map_eq_none_iff.1 hs) hin
    exact hlt

/-- The same for a call that is read from its opening parenthesis. -/
theorem Call.read?_append_right {s : Text} {call : Call} (h : read? s = some call) (t : Text) :
    read? (s ++ t) = some ⟨call.pieces, call.rest ++ t⟩ := by
  cases s with
  | nil => cases h
  | cons c s =>
    rw [read?] at h
    rw [List.cons_append, read?]
    split at h
    · rename_i hc
      rw [if_pos hc]
      exact readFrom_append h t
    · cases h

theorem Call.length_rest_lt_of_read?_append {s t : Text} {call : Call} (hne : s ≠ [])
    (hs : read? s = none) (h : read? (s ++ t) = some call) : call.rest.length < t.length := by
  obtain ⟨c, s, rfl⟩ := List.exists_cons_of_ne_nil hne
  rw [List.cons_append, read?] at h
  rw [read?] at hs
  split at h
  · rename_i hc
    rw [if_pos hc] at hs
    exact length_rest_lt_of_append hs h
  · cases h

/-! ## 3. One step -/

/-- A step with more text behind what it leaves. -/
def Step.append (t : Text) : Step → Step
  | .keep kept rest => .keep kept (rest ++ t)
  | .replace text rest => .replace text (rest ++ t)
  | .stop => .stop

section Step

variable {m : Macro}

theorem startsWithWord_append {s : Text} (hs : s ≠ []) (t : Text) :
    startsWithWord (s ++ t) = startsWithWord s := by
  obtain ⟨c, s, rfl⟩ := List.exists_cons_of_ne_nil hs
  rfl

/-- At a name in the first part, the step is that of this part, or it replaces a use that ends
within the second part. -/
theorem stepAtName_append (line : Text) {rest : Text} (hrest : rest ≠ []) (t : Text) :
    m.stepAtName line (rest ++ t) = (m.stepAtName line rest).append t ∨
      ∃ text after, m.stepAtName line (rest ++ t) = .replace text after ∧
        after.length < t.length := by
  unfold stepAtName
  rw [startsWithWord_append hrest]
  by_cases hbefore : startsWithWord line = true
  · exact Or.inl (by rw [if_pos hbefore, if_pos hbefore]; rfl)
  rw [if_neg hbefore, if_neg hbefore]
  by_cases hdefine : line.reverse = redefinition
  · rw [if_pos hdefine, if_pos hdefine]
    exact Or.inl (by split <;> rfl)
  rw [if_neg hdefine, if_neg hdefine]
  by_cases htest : (testOpenings.any fun opening => opening.isPrefixOf line.reverse) = true
  · exact Or.inl (by rw [if_pos htest, if_pos htest]; rfl)
  rw [if_neg htest, if_neg htest]
  by_cases hcall : m.isFunctionLike = true
  · rw [if_pos hcall, if_pos hcall]
    cases hread : Call.read? rest with
    | some call =>
      obtain ⟨longer, hlonger, harguments, hbreaks, hafter⟩ : ∃ longer,
          Call.read? (rest ++ t) = some longer ∧ longer.arguments = call.arguments ∧
            longer.breaks = call.breaks ∧ longer.rest = call.rest ++ t :=
        ⟨_, Call.read?_append_right hread t, rfl, rfl, rfl⟩
      refine Or.inl ?_
      rw [hlonger]
      dsimp only
      rw [harguments, hbreaks, hafter]
      split <;> rfl
    | none =>
      -- the call may still end in the second part
      cases hread' : Call.read? (rest ++ t) with
      | none => exact Or.inl rfl
      | some call =>
        dsimp only
        split
        · exact Or.inr ⟨_, _, rfl, Call.length_rest_lt_of_read?_append hrest hread hread'⟩
        · exact Or.inl rfl
  · rw [if_neg hcall, if_neg hcall]
    exact Or.inl (by split <;> rfl)

/-- A name without a line break is no longer than a text that ends with one. -/
theorem isPrefixOf?_append {name s : Text} (hname : '\n' ∉ name) (hs : s.getLast? = some '\n')
    (t : Text) : name.isPrefixOf? (s ++ t) = (name.isPrefixOf? s).map (· ++ t) := by
  cases h : name.isPrefixOf? s with
  | some rest =>
    refine Text.isPrefixOf?_eq_some_iff.2 ?_
    rw [Text.isPrefixOf?_eq_some_iff.1 h, List.append_assoc]
  | none =>
    rw [Option.map_none, Option.eq_none_iff_forall_ne_some]
    intro rest hrest
    have hprefix : name <+: s ++ t := ⟨rest, (Text.isPrefixOf?_eq_some_iff.1 hrest).symm⟩
    rcases List.prefix_or_prefix_of_prefix hprefix (List.prefix_append s t) with hin | hover
    · obtain ⟨more, hmore⟩ := hin
      rw [Text.isPrefixOf?_eq_some_iff.2 hmore.symm] at h
      cases h
    · exact hname (hover.subset (List.mem_of_getLast? hs))

/-- **A step in the first part** is that of the part alone, or it replaces a use that ends within
the second part. -/
theorem step_append (hname : '\n' ∉ m.name) (line : Text) {c : Char} {s : Text}
    (hs : (c :: s).getLast? = some '\n') (t : Text) :
    m.step line c (s ++ t) = (m.step line c s).append t ∨
      ∃ text rest, m.step line c (s ++ t) = .replace text rest ∧ rest.length < t.length := by
  have hfind := isPrefixOf?_append hname hs t
  rw [List.cons_append] at hfind
  unfold step
  rw [hfind]
  cases h : m.name.isPrefixOf? (c :: s) with
  | none => exact Or.inl rfl
  | some rest =>
    dsimp only [Option.map_some]
    by_cases hnil : m.name = []
    · rw [if_pos hnil, if_pos hnil]
      exact Or.inl rfl
    · rw [if_neg hnil, if_neg hnil]
      refine stepAtName_append line ?_ t
      rintro rfl
      rw [Text.isPrefixOf?_eq_some_iff.1 h, List.append_nil] at hs
      exact hname (List.mem_of_getLast? hs)

/-- The same where no use goes over the border of the parts. -/
theorem step_append_of_uses (hname : '\n' ∉ m.name)
    (hbody : ∀ token ∈ m.body, Text.breaks token.lexeme = 0) {n : Nat} {line s : Text} {c : Char}
    (hs : (c :: s).getLast? = some '\n') {t : Text}
    (huses : ∀ first last, .use first last ∈ m.sites n line (c :: (s ++ t)) →
      ¬ (first < n + Text.breaks (c :: s) ∧ n + Text.breaks (c :: s) ≤ last)) :
    m.step line c (s ++ t) = (m.step line c s).append t := by
  rcases step_append hname line hs t with hsame | ⟨text, rest, hstep, hlt⟩
  · exact hsame
  · refine absurd ⟨?_, ?_⟩ (huses n (n + Text.breaks text) (by
      rw [sites_replace hstep]
      exact List.mem_cons_self))
    · have hpos : Text.breaks (c :: s) ≠ 0 := fun h =>
        Text.breaks_eq_zero.1 h (List.mem_of_getLast? hs)
      omega
    · have hrest : (m.step line c (s ++ t)).rest? = some rest := by rw [hstep]; rfl
      have hbreaks := breaks_step hbody hrest
      rw [hstep, ← List.cons_append, Text.breaks_append] at hbreaks
      have hle : Text.breaks rest ≤ Text.breaks t := by
        obtain ⟨_, _, written, hwritten, _⟩ := of_replace hstep
        have hsuffix : rest <:+ t := List.suffix_of_suffix_length_le
          ⟨written, hwritten.symm⟩ (List.suffix_append (c :: s) t) (Nat.le_of_lt hlt)
        exact hsuffix.sublist.count_le '\n'
      have htext : Text.breaks text + Text.breaks rest =
        Text.breaks (c :: s) + Text.breaks t := hbreaks
      omega

end Step

/-! ## 4. A pass -/

/-- After a line break a line starts. -/
theorem lineAfter_eq_nil {line written : Text} (h : written.getLast? = some '\n') :
    lineAfter line written = [] := by
  obtain ⟨s, rfl⟩ := List.getLast?_eq_some_iff.1 h
  rw [lineAfter, List.foldl_append, List.foldl_cons, if_pos rfl, List.foldl_nil]

/-- **A pass over two parts is a pass over each of them**, where the first part is made of whole
lines and no use goes over the border. A pass that ends in the first part leaves the second one as
it is. -/
theorem expandUses_append {m : Macro} (hname : '\n' ∉ m.name)
    (hbody : ∀ token ∈ m.body, Text.breaks token.lexeme = 0) {n : Nat} {line s : Text}
    (hs : (s = [] ∧ line = []) ∨ s.getLast? = some '\n') {t : Text}
    (huses : ∀ first last, .use first last ∈ m.sites n line (s ++ t) →
      ¬ (first < n + Text.breaks s ∧ n + Text.breaks s ≤ last)) :
    (m.expandUses line (s ++ t)).text = (m.expandUses line s).text ++
        (if (m.expandUses line s).redefined = true then t else (m.expandUses [] t).text) ∧
      m.sites n line (s ++ t) = m.sites n line s ++
        (if (m.expandUses line s).redefined = true then []
          else m.sites (n + Text.breaks s) [] t) := by
  fun_induction expandUses m line s generalizing n with
  | case1 line =>
    rcases hs with ⟨_, rfl⟩ | hs
    · simp [sites]
    · cases hs
  | case2 line c s hstep =>
    have hs : (c :: s).getLast? = some '\n' := hs.resolve_left fun h => by cases h.1
    have happend := step_append_of_uses hname hbody hs huses
    rw [hstep] at happend
    rw [List.cons_append, expandUses_stop happend, sites_stop happend, sites_stop hstep]
    simp
  | case3 line c s kept rest hstep ih =>
    have hs : (c :: s).getLast? = some '\n' := hs.resolve_left fun h => by cases h.1
    have happend := step_append_of_uses hname hbody hs huses
    rw [hstep] at happend
    have hsplit := append_of_keep hstep
    have hbreaks : Text.breaks (c :: s) = Text.breaks kept + Text.breaks rest := by
      rw [hsplit, Text.breaks_append]
    rw [List.cons_append, sites_keep happend, hbreaks, ← Nat.add_assoc] at huses
    have hrest : (rest = [] ∧ lineAfter line kept = []) ∨ rest.getLast? = some '\n' := by
      rw [hsplit] at hs
      refine (Text.IsWhole.of_append (Or.inr hs)).imp_left fun hnil => ⟨hnil, ?_⟩
      rw [hnil, List.append_nil] at hs
      exact lineAfter_eq_nil hs
    obtain ⟨htext, hsites⟩ := ih hrest huses
    rw [List.cons_append, expandUses_keep happend, sites_keep happend, sites_keep hstep, hsites,
      hbreaks, ← Nat.add_assoc]
    refine ⟨?_, rfl⟩
    rw [Pass.keeping, Pass.keeping, htext, List.append_assoc]
  | case4 line c s text rest hstep ih =>
    have hs : (c :: s).getLast? = some '\n' := hs.resolve_left fun h => by cases h.1
    have happend := step_append_of_uses hname hbody hs huses
    rw [hstep] at happend
    have hrest? : (m.step line c s).rest? = some rest := by rw [hstep]; rfl
    have hbreaks : Text.breaks (c :: s) = Text.breaks text + Text.breaks rest := by
      have h := breaks_step hbody hrest?
      rw [hstep] at h
      exact h.symm
    rw [List.cons_append, sites_replace happend, hbreaks, ← Nat.add_assoc] at huses
    have hrest : rest.getLast? = some '\n' := by
      obtain ⟨_, _, written, hwritten, hend⟩ := of_replace hstep
      rw [hwritten] at hs
      refine (Text.IsWhole.of_append (Or.inr hs)).resolve_left fun hnil => ?_
      -- the use itself does not end with a line break
      rw [hnil, List.append_nil] at hs
      rcases hend with rfl | hend
      · exact hname (List.mem_of_getLast? hs)
      · cases hend.symm.trans hs
    obtain ⟨htext, hsites⟩ := ih (Or.inr hrest) fun first last hmem =>
      huses first last (List.mem_cons_of_mem _ hmem)
    rw [List.cons_append, expandUses_replace happend, sites_replace happend, sites_replace hstep,
      hsites, hbreaks, ← Nat.add_assoc]
    refine ⟨?_, rfl⟩
    rw [Pass.replacing, Pass.replacing, htext, List.append_assoc]

end Macro

end Variants
