import Variants.Proofs.Occurrences
import Variants.Proofs.Splices

/-!
# Where a macro is defined again

The pass of an object-like macro ends at the line that defines its name again, and leaves this line
and all that follows as they are. Nothing in front of the line lets it step over the name there:

* No occurrence in the lines before reaches into it, since no name has a line break, and so a step
  on these lines is the same whatever follows them (`step_append_of_objectLike`).
* Within the keyword the name may stand, but behind the `#` a word goes on before or behind it,
  unless the name is the keyword itself (`startsWithWord_defineWord`).

Main statement: `expandUses_redefinition`.
-/

namespace Variants.Macro

open Token

variable {m : Macro}

/-! ## 1. The lines before -/

/-- On whole lines, a step does not depend on what follows them. -/
theorem step_append_of_objectLike (hobject : m.isFunctionLike = false) (hname : '\n' ∉ m.name)
    (line : Text) {c : Char} {s : Text} (hs : (c :: s).getLast? = some '\n') (t : Text) :
    m.step line c (s ++ t) = (m.step line c s).append t := by
  refine (step_append hname line hs t).resolve_right ?_
  rintro ⟨text, rest, hstep, hlt⟩
  obtain ⟨_, old, hold, huse⟩ := isUse_of_replace hstep
  cases huse with
  | call call hcall =>
    rw [hobject] at hcall
    cases hcall
  | name _ _ =>
    -- the name would have to hold the line break at the end
    have hlength := congrArg List.length hold
    rw [List.length_append, ← List.cons_append, List.length_append] at hlength
    have hin : c :: s <+: m.name := List.prefix_of_prefix_length_le
      (hold ▸ List.prefix_append (c :: s) t) (List.prefix_append m.name rest) (by omega)
    exact hname (hin.subset (List.mem_of_getLast? hs))

/-- **A pass ends behind whole lines** as it ends without them. -/
theorem expandUses_append_of_stop (hobject : m.isFunctionLike = false) (hname : '\n' ∉ m.name)
    {t : Text} (ht : m.expandUses [] t = ⟨t, 0, true⟩) {line s : Text}
    (hs : (s = [] ∧ line = []) ∨ s.getLast? = some '\n') :
    m.expandUses line (s ++ t) =
      ⟨(m.expandUses line s).text ++ t, (m.expandUses line s).count, true⟩ := by
  have hcons {c : Char} {s line : Text}
      (h : (c :: s = [] ∧ line = []) ∨ (c :: s).getLast? = some '\n') :
      (c :: s).getLast? = some '\n' :=
    h.resolve_left fun hnil => List.cons_ne_nil c s hnil.1
  fun_induction expandUses m line s with
  | case1 line =>
    rcases hs with ⟨_, rfl⟩ | hlast
    · exact ht
    · cases hlast
  | case2 line c s hstep =>
    have happend := step_append_of_objectLike hobject hname line (hcons hs) t
    rw [hstep] at happend
    exact expandUses_stop happend
  | case3 line c s kept rest hstep ih =>
    have hs := hcons hs
    have happend := step_append_of_objectLike hobject hname line hs t
    rw [hstep] at happend
    have hrest : (rest = [] ∧ lineAfter line kept = []) ∨ rest.getLast? = some '\n' := by
      rw [append_of_keep hstep] at hs
      refine (Text.IsWhole.of_append (Or.inr hs)).imp_left fun hnil => ⟨hnil, ?_⟩
      rw [hnil, List.append_nil] at hs
      exact lineAfter_eq_nil hs
    rw [List.cons_append, expandUses_keep happend, ih hrest]
    simp [Pass.keeping]
  | case4 line c s text rest hstep ih =>
    have hs := hcons hs
    have happend := step_append_of_objectLike hobject hname line hs t
    rw [hstep] at happend
    have hrest : rest.getLast? = some '\n' := by
      obtain ⟨_, _, written, hwritten, hend⟩ := of_replace hstep
      rw [hwritten] at hs
      refine (Text.IsWhole.of_append (Or.inr hs)).resolve_left fun hnil => ?_
      -- a use does not end with a line break
      rw [hnil, List.append_nil] at hs
      rcases hend with rfl | hend
      · exact hname (List.mem_of_getLast? hs)
      · cases hend.symm.trans hs
    rw [List.cons_append, expandUses_replace happend, ih (Or.inr hrest)]
    simp [Pass.replacing]

/-! ## 2. The line -/

/-- The word of the keyword, behind its `#`. -/
def defineWord : Text := ['d', 'e', 'f', 'i', 'n', 'e']

theorem redefinition_eq : redefinition = '#' :: (defineWord ++ [' ']) := rfl

theorem isWordChar_of_mem_defineWord : ∀ c ∈ defineWord, Text.isWordChar c = true :=
  List.all_eq_true.1 (by decide)

/-- **Within the keyword no name stands alone**, unless it is the keyword: a word goes on before it
or behind it. -/
theorem startsWithWord_defineWord {p name q : Text} (h : redefinition = p ++ (name ++ q))
    (hhash : name.head? ≠ some '#') (hspace : ' ' ∉ name) (hnil : name ≠ [])
    (hname : name ≠ defineWord) :
    startsWithWord p.reverse = true ∨ q ≠ [] ∧ startsWithWord q = true := by
  rw [redefinition_eq] at h
  cases p with
  | nil =>
    obtain ⟨c, name, rfl⟩ := List.exists_cons_of_ne_nil hnil
    rw [← (List.cons.inj h).1] at hhash
    exact absurd rfl hhash
  | cons c p =>
    have htail : defineWord ++ [' '] = p ++ (name ++ q) := (List.cons.inj h).2
    obtain ⟨r, hword⟩ : p ++ name <+: defineWord := by
      have hprefix : p ++ name <+: defineWord ++ [' '] := ⟨q, by rw [htail, List.append_assoc]⟩
      refine (List.prefix_concat_iff.1 hprefix).resolve_left fun hwhole => hspace ?_
      have hlast := congrArg List.getLast? hwhole
      rw [List.getLast?_append_of_ne_nil p hnil, List.getLast?_concat] at hlast
      exact List.mem_of_getLast? hlast
    rw [List.append_assoc] at hword
    have hq : q = r ++ [' '] := by
      rw [← hword] at htail
      simpa using htail.symm
    have hmem : ∀ c ∈ p ++ (name ++ r), Text.isWordChar c = true :=
      hword ▸ isWordChar_of_mem_defineWord
    obtain rfl | ⟨s, d, rfl⟩ := List.eq_nil_or_concat p
    · refine Or.inr ⟨by simp [hq], ?_⟩
      cases r with
      | nil => exact absurd (by simpa using hword) hname
      | cons d r =>
        rw [hq]
        exact hmem d (by simp)
    · refine Or.inl ?_
      rw [List.reverse_cons, List.concat_eq_append, List.reverse_append]
      exact hmem d (by simp)

section Line

variable (hobject : m.isFunctionLike = false) (hne : m.name ≠ []) (hspace : ' ' ∉ m.name)
  (hhash : m.name.head? ≠ some '#') (hname : m.name ≠ defineWord)

include hobject hne hspace hhash hname

/-- At the keyword some of it is kept. -/
theorem step_defineWord {p q : Text} {c : Char} (h : redefinition = p ++ c :: q) (t : Text) :
    ∃ kept rest, kept ≠ [] ∧ c :: q = kept ++ rest ∧
      m.step (lineAfter [] p) c (q ++ t) = .keep kept (rest ++ t) := by
  by_cases hfound : m.name <+: c :: (q ++ t)
  · -- a name without a space ends before the one behind the keyword
    have hin : m.name <+: c :: q := by
      refine (List.prefix_or_prefix_of_prefix hfound (List.prefix_append (c :: q) t)).resolve_right
        fun hover => hspace (hover.subset ?_)
      have hlast := congrArg List.getLast? h
      rw [List.getLast?_append, List.getLast?_cons] at hlast
      exact List.mem_of_getLast? (List.getLast?_cons.trans hlast.symm)
    obtain ⟨rest, hrest⟩ := hin
    refine ⟨m.name, rest, hne, hrest.symm, ?_⟩
    have hsplit : c :: (q ++ t) = m.name ++ (rest ++ t) := by
      rw [← List.append_assoc, hrest, List.cons_append]
    rw [step_eq_stepAtName hne hsplit]
    refine stepAtName_of_word hobject ?_
    rw [← hrest] at h
    rcases startsWithWord_defineWord h hhash hspace hne hname with hbefore | ⟨hrest, hbehind⟩
    · exact Or.inl ((startsWithWord_lineAfter_nil p).trans hbefore)
    · exact Or.inr ((startsWithWord_append hrest t).trans hbehind)
  · exact ⟨[c], q, List.cons_ne_nil c [], rfl, step_of_not_prefix hfound⟩

/-- **The line ends the pass**, from any place in the keyword on. -/
theorem expandUses_defineWord {behind : Text} (hbehind : startsWithWord behind = false) {p q : Text}
    (h : redefinition = p ++ q) :
    m.expandUses (lineAfter [] p) (q ++ (m.name ++ behind)) =
      ⟨q ++ (m.name ++ behind), 0, true⟩ := by
  induction hn : q.length using Nat.strongRecOn generalizing p q with
  | ind n ih =>
  cases q with
  | nil =>
    rw [List.append_nil] at h
    obtain ⟨c, t, hcons⟩ := List.exists_cons_of_ne_nil hne
    have hline : (lineAfter [] p).reverse = redefinition := by
      rw [← h]
      rfl
    have hword : startsWithWord (lineAfter [] p) = false := by
      rw [← h]
      decide
    have hstep : m.step (lineAfter [] p) c (t ++ behind) = .stop := by
      rw [step_eq_stepAtName hne (by rw [hcons, List.cons_append])]
      unfold stepAtName
      rw [hword, hline, if_neg Bool.false_ne_true, if_pos rfl, hbehind]
      rfl
    rw [List.nil_append, hcons, List.cons_append]
    exact expandUses_stop hstep
  | cons c q =>
    obtain ⟨kept, rest, hkept, hsplit, hstep⟩ :=
      step_defineWord hobject hne hspace hhash hname h (m.name ++ behind)
    have hlt : rest.length < n := by
      have hlength := congrArg List.length hsplit
      have hpos := List.length_pos_iff.2 hkept
      rw [hn, List.length_append] at hlength
      omega
    have hlater : m.expandUses (lineAfter (lineAfter [] p) kept) (rest ++ (m.name ++ behind)) =
        ⟨rest ++ (m.name ++ behind), 0, true⟩ := by
      rw [← lineAfter_append]
      exact ih rest.length hlt (by rw [h, hsplit, List.append_assoc]) rfl
    rw [List.cons_append, expandUses_keep hstep, hlater, Pass.keeping, ← List.append_assoc,
      ← hsplit]
    rfl

end Line

/-! ## 3. The pass -/

/-- **A redefinition ends the pass.** What a pass makes of whole lines with a line behind them that
defines the name again, it makes of the lines alone: the text and the number of uses are the same,
and neither that line nor anything behind it is touched. -/
theorem expandUses_redefinition {definition : Text} (hm : ofText? definition = some m)
    (hobject : m.isFunctionLike = false) (hname : m.name ≠ defineWord) {before : Text}
    (hbefore : Text.IsWhole before) {behind : Text} (hbehind : startsWithWord behind = false) :
    m.expandUses [] (before ++ (redefinition ++ (m.name ++ behind))) =
      ⟨(m.expandUses [] before).text ++ (redefinition ++ (m.name ++ behind)),
        (m.expandUses [] before).count, true⟩ := by
  have hnot {c : Char} (hc : continuesName c = false) : c ∉ m.name := fun hmem =>
    absurd (continuesName_of_mem hm c hmem) (Bool.not_eq_true _ ▸ hc)
  have hline : m.expandUses [] (redefinition ++ (m.name ++ behind)) =
      ⟨redefinition ++ (m.name ++ behind), 0, true⟩ :=
    expandUses_defineWord hobject (name_ne_nil hm) (hnot (by decide))
      (fun hhead => hnot (c := '#') (by decide) (List.mem_of_head? hhead)) hname hbehind
      (p := []) (List.nil_append _).symm
  exact expandUses_append_of_stop hobject (hnot (by decide)) hline
    (hbefore.imp_left fun hnil => ⟨hnil, rfl⟩)

/-- A macro whose name is a part of the keyword, kept, rejected and replaced before it is defined
again. -/
theorem expandUses_redefinition_part : ∃ m, ofText? " def 1".toList = some m ∧
    m.isFunctionLike = false ∧ m.name ≠ defineWord ∧
    Text.IsWhole "#ifdef def\na = def + _def;\n".toList ∧
    startsWithWord " def\nb = def;\n".toList = false ∧
    m.expandUses [] ("#ifdef def\na = def + _def;\n".toList ++
        (redefinition ++ (m.name ++ " def\nb = def;\n".toList))) =
      ⟨"#ifdef def\na = 1 + _def;\n#define def def\nb = def;\n".toList, 1, true⟩ := by
  have hm : ofText? " def 1".toList =
      some ⟨"def".toList, [], [⟨.number, ['1'], ⟨1, 6⟩⟩]⟩ := by decide +kernel
  have hbefore : Text.IsWhole "#ifdef def\na = def + _def;\n".toList := by decide
  have hbehind : startsWithWord " def\nb = def;\n".toList = false := by decide
  refine ⟨_, hm, rfl, by decide, hbefore, hbehind, ?_⟩
  exact (expandUses_redefinition hm rfl (by decide) hbefore hbehind).trans (by decide +kernel)

/-- The keyword itself can be the name of a macro, which is then used in it. -/
example : ((⟨defineWord, [], []⟩ : Macro).expandUses [] "#define define 1\n".toList).text =
    "#  1\n".toList := by decide +kernel

end Variants.Macro
