import Variants.Proofs.Brackets
import Variants.Proofs.Substitution

/-!
# What a pass changes

A pass changes a text at some spans that do not overlap, and leaves all between them as it is. Each
span is a use of the macro (`Macro.IsUse`), for which its replacement is put in, and no replacement
is put right behind a word character (`exists_splices_expandFrom`). The spans are spans of the text
before the pass, so nothing that was put in is replaced again.
-/

namespace Variants.Macro

/-! ## 1. Splices -/

/-- A span of a text that is changed: what is kept in front of it, from the span before on, what is
taken out, and what is put in. -/
structure Splice where
  kept : Text
  old : Text
  new : Text
  deriving DecidableEq, Repr

/-- The text before the changes, with `rest` behind the last span. -/
def oldText (rest : Text) : List Splice → Text
  | [] => rest
  | splice :: later => splice.kept ++ (splice.old ++ oldText rest later)

/-- The text after the changes. -/
def newText (rest : Text) : List Splice → Text
  | [] => rest
  | splice :: later => splice.kept ++ (splice.new ++ newText rest later)

/-- What is put in for a use of a macro, with the text `behind` after it: for the name alone the
body, where no word goes on behind it; for the name and a call, which is the shortest balanced group
there and has a piece for each parameter, the body with the arguments. The line breaks of a use are
put behind. -/
inductive IsUse (m : Macro) (behind : Text) : Text → Text → Prop where
  | name : m.isFunctionLike = false → startsWithWord behind = false →
      IsUse m behind m.name (m.replacement [] ++ Text.blank (Text.breaks m.name))
  | call (call : Call) : m.isFunctionLike = true → Call.IsGroup call.text →
      (∀ piece ∈ call.pieces, Call.IsPiece piece) →
      call.pieces.length = m.parameters.length →
      IsUse m behind (m.name ++ call.text)
        (m.replacement call.arguments ++ Text.blank (Text.breaks (m.name ++ call.text)))

/-- Whether all spans are uses of a macro, and none stands right behind a word character in the text
after the changes. `before` is what is written before them. -/
def AreUses (m : Macro) (before rest : Text) : List Splice → Prop
  | [] => True
  | splice :: later =>
    startsWithWord (before ++ splice.kept).reverse = false ∧
      IsUse m (oldText rest later) splice.old splice.new ∧
      AreUses m (before ++ splice.kept ++ splice.new) rest later

/-! ## 2. A step -/

/-- **What is replaced at the name**: the name with a call that has an argument for each parameter,
or the name alone where no word goes on; and it does not stand behind a word character. -/
theorem of_stepAtName_replace {m : Macro} {line behind text rest : Text}
    (h : m.stepAtName line behind = .replace text rest) :
    startsWithWord line = false ∧
      ((m.isFunctionLike = true ∧ ∃ call, Call.read? behind = some call ∧
          call.pieces.length = m.parameters.length ∧ rest = call.rest ∧
          text = m.replacement call.arguments ++ Text.blank (Text.breaks (m.name ++ call.text))) ∨
        (m.isFunctionLike = false ∧ startsWithWord behind = false ∧ rest = behind ∧
          text = m.replacement [] ++ Text.blank (Text.breaks m.name))) := by
  unfold stepAtName at h
  split at h
  · cases h
  rename_i hword
  refine ⟨Bool.not_eq_true _ ▸ hword, ?_⟩
  split at h
  · split at h
    · cases h
    · cases h
  split at h
  · cases h
  split at h
  · rename_i hcall
    split at h
    · cases h
    · rename_i call hread
      split at h
      · rename_i harity
        cases h
        rw [Call.arguments, List.length_map] at harity
        exact Or.inl ⟨hcall, call, hread, harity, rfl,
          by rw [Text.breaks_append, Call.breaks_text]⟩
      · cases h
  · rename_i hobject
    split at h
    · cases h
    · rename_i hends
      cases h
      exact Or.inr ⟨Bool.not_eq_true _ ▸ hobject, Bool.not_eq_true _ ▸ hends, rfl, rfl⟩

/-- What a step replaces is a use, and it does not stand behind a word character. -/
theorem isUse_of_replace {m : Macro} {line t text rest : Text} {c : Char}
    (h : m.step line c t = .replace text rest) :
    startsWithWord line = false ∧ ∃ old, c :: t = old ++ rest ∧ IsUse m rest old text := by
  unfold step at h
  split at h
  · cases h
  · rename_i behind hbehind
    have hname : c :: t = m.name ++ behind := Text.isPrefixOf?_eq_some_iff.1 hbehind
    split at h
    · cases h
    · obtain ⟨hword, huse⟩ := of_stepAtName_replace h
      refine ⟨hword, ?_⟩
      rcases huse with ⟨hcall, call, hread, harity, rfl, rfl⟩ | ⟨hobject, hends, rfl, rfl⟩
      · obtain ⟨hsplit, hgroup⟩ := Call.text_append hread
        refine ⟨m.name ++ call.text, by rw [hname, hsplit, List.append_assoc], ?_⟩
        exact IsUse.call call hcall hgroup (Call.isPiece_of_read? hread) harity
      · exact ⟨m.name, hname, IsUse.name hobject hends⟩

/-! ## 3. A pass -/

/-- The last character of what is written is that of its last line. -/
theorem startsWithWord_written {line before : Text}
    (h : startsWithWord line = startsWithWord before.reverse) (s : Text) :
    startsWithWord (lineAfter line s) = startsWithWord (before ++ s).reverse := by
  by_cases hs : s = []
  · rw [hs, List.append_nil]
    exact h
  · rw [startsWithWord_lineAfter line hs, List.reverse_append,
      startsWithWord_append (List.reverse_ne_nil_iff.2 hs)]

/-- The last line of a text ends with a word character if the text does. -/
theorem startsWithWord_lineAfter_nil (t : Text) :
    startsWithWord (lineAfter [] t) = startsWithWord t.reverse :=
  startsWithWord_written (show startsWithWord [] = startsWithWord ([] : Text).reverse from rfl) t

/-- Text that is kept comes in front of the first span. -/
theorem exists_splices_keep {m : Macro} {before rest : Text} (kept : Text) {splices : List Splice}
    (h : AreUses m (before ++ kept) rest splices) :
    ∃ splices' rest', splices'.length = splices.length ∧
      oldText rest' splices' = kept ++ oldText rest splices ∧
      newText rest' splices' = kept ++ newText rest splices ∧ AreUses m before rest' splices' := by
  cases splices with
  | nil => exact ⟨[], kept ++ rest, rfl, rfl, rfl, trivial⟩
  | cons splice later =>
    obtain ⟨hword, huse, hlater⟩ := h
    refine ⟨⟨kept ++ splice.kept, splice.old, splice.new⟩ :: later, rest, rfl, ?_, ?_, ?_⟩
    · simp [oldText]
    · simp [newText]
    · rw [List.append_assoc before] at hword hlater
      exact ⟨hword, huse, hlater⟩

/-- **A pass only changes uses.** `line` is the line before the text, of all that is written. -/
theorem exists_splices_expandUses (m : Macro) (line t : Text) {before : Text}
    (hline : startsWithWord line = startsWithWord before.reverse) :
    ∃ splices rest, splices.length = (m.expandUses line t).count ∧ oldText rest splices = t ∧
      newText rest splices = (m.expandUses line t).text ∧ AreUses m before rest splices := by
  fun_induction expandUses m line t generalizing before with
  | case1 => exact ⟨[], [], rfl, rfl, rfl, trivial⟩
  | case2 line c t hstep => exact ⟨[], c :: t, rfl, rfl, rfl, trivial⟩
  | case3 line c t kept rest hstep ih =>
    obtain ⟨splices, tail, hcount, hold, hnew, huses⟩ := ih (startsWithWord_written hline kept)
    obtain ⟨splices', tail', hlength, hold', hnew', huses'⟩ := exists_splices_keep kept huses
    refine ⟨splices', tail', hlength.trans hcount, ?_, ?_, huses'⟩
    · rw [hold', hold, append_of_keep hstep]
    · rw [hnew', hnew]
      rfl
  | case4 line c t text rest hstep ih =>
    obtain ⟨hword, old, hsplit, huse⟩ := isUse_of_replace hstep
    obtain ⟨splices, tail, hcount, hold, hnew, huses⟩ := ih (startsWithWord_written hline text)
    refine ⟨⟨[], old, text⟩ :: splices, tail, ?_, ?_, ?_, ?_, ?_, ?_⟩
    · rw [List.length_cons, hcount]
      rfl
    · rw [hsplit, ← hold]
      rfl
    · show text ++ newText tail splices = _
      rw [hnew]
      rfl
    · rw [List.append_nil, ← hline, hword]
    · rw [hold]
      exact huse
    · rw [List.append_nil]
      exact huses

/-! ## 4. A pass from an offset on -/

/-- A pass over a text from an offset on. What stands before the offset is left as it is. -/
def expandFrom (m : Macro) (code : Text) (start : Nat) : Pass :=
  (m.expandUses (lineAfter [] (code.take start)) (code.drop start)).keeping (code.take start)

/-- **A pass is sound.** Behind the offset, the text is made of spans and of what stands between
them, as many as the pass counts; the pass writes the same text with the replacements for the spans.
Each span is a use of the macro, and no replacement stands right behind a word character. -/
theorem exists_splices_expandFrom (m : Macro) (code : Text) (start : Nat) :
    ∃ splices rest, splices.length = (m.expandFrom code start).count ∧
      code = code.take start ++ oldText rest splices ∧
      (m.expandFrom code start).text = code.take start ++ newText rest splices ∧
      AreUses m (code.take start) rest splices := by
  have hline : startsWithWord (lineAfter [] (code.take start)) =
      startsWithWord (code.take start).reverse :=
    startsWithWord_written (show startsWithWord [] = startsWithWord ([] : Text).reverse from rfl)
      (code.take start)
  obtain ⟨splices, rest, hcount, hold, hnew, huses⟩ :=
    exists_splices_expandUses m _ (code.drop start) hline
  refine ⟨splices, rest, hcount, ?_, ?_, huses⟩
  · rw [hold, List.take_append_drop]
  · rw [hnew]
    rfl

end Variants.Macro
