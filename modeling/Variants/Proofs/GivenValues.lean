import Variants.CommandLine.Arguments

/-!
# Options with their values

An option is left without its value only where two hyphens are attached to it, and then the word
ends with them and is longer. So settings that are read from other words have all their values
(`Settings.IsGiven`), and the characters of the input are those of a word.

Main statement: `isGiven_of_parseArguments`.
-/

namespace Variants.CommandLine

/-! ## 1. What is attached to an option -/

/-- Whether what is attached to an option, if anything is, does not end with two hyphens. -/
def OptionUse.IsGiven (written : OptionUse) : Prop :=
  ∀ text, written.attached = some text → ¬ ['-', '-'] <:+ text

/-- Whether a word is an option with its value, or a text without the null character. -/
def Word.IsGiven : Word → Prop
  | .plain text => '\x00' ∉ text
  | .option written => written.IsGiven
  | _ => True

/-- What follows the first equals sign of a word ends the word. -/
theorem exists_of_cutEquals {word name value : Text} (h : cutEquals word = (name, some value)) :
    ∃ front, front ≠ [] ∧ word = front ++ value := by
  unfold cutEquals at h
  split at h
  · cases h
  · rename_i c rest hdrop
    cases h
    refine ⟨word.takeWhile (· != '=') ++ [c], by simp, ?_⟩
    rw [List.append_assoc, List.singleton_append, ← hdrop, List.takeWhile_append_dropWhile]

/-- **What is attached to an option ends the word** and is not all of it. -/
theorem exists_of_candidates {word text : Text} {written : OptionUse}
    (h : written ∈ candidates word) (htext : written.attached = some text) :
    ∃ front, front ≠ [] ∧ word = front ++ text := by
  unfold candidates at h
  split at h
  · obtain ⟨start, attached, hcut⟩ : ∃ start attached, cutEquals word = (start, attached) :=
      ⟨_, _, rfl⟩
    rw [hcut] at h
    obtain ⟨⟨name, flag⟩, _, hfound⟩ := List.mem_filterMap.1 h
    dsimp only at hfound
    split at hfound
    · cases hfound
      cases htext
      exact exists_of_cutEquals hcut
    · cases hfound
  · obtain ⟨⟨name, flag⟩, hnamed, hfound⟩ := List.mem_filterMap.1 h
    dsimp only at hfound
    split at hfound
    · rename_i hname
      cases hfound
      cases htext
      have hne : ∀ p ∈ Flag.named, p.1 ≠ [] := by decide
      exact ⟨word.take 2, hname ▸ hne _ hnamed, (List.take_append_drop 2 word).symm⟩
    · split at hfound
      · cases hfound
        cases htext
      · cases hfound

theorem exists_of_namedOption? {word text : Text} {written : OptionUse}
    (h : namedOption? word = some written) (htext : written.attached = some text) :
    ∃ front, front ≠ [] ∧ word = front ++ text := by
  unfold namedOption? at h
  split at h
  · cases h
    cases htext
  · split at h
    · rename_i name value hcut
      obtain ⟨flag, _, rfl⟩ := Option.map_eq_some_iff.1 h
      cases htext
      exact exists_of_cutEquals hcut
    · cases h

/-- A word with two hyphens at its end is an option without its value, unless it is nothing else. -/
theorem isGiven_of_classify {word : Text} {classified : Word} (h : classify word = .ok classified)
    (hnull : '\x00' ∉ word) (hdashes : ['-', '-'] <:+ word → word = ['-', '-']) :
    classified.IsGiven := by
  have hgiven {written : OptionUse}
      (hattached : ∀ text, written.attached = some text →
        ∃ front, front ≠ [] ∧ word = front ++ text) : written.IsGiven := by
    intro text htext hend
    obtain ⟨front, hne, rfl⟩ := hattached text htext
    have hlength := congrArg List.length (hdashes (hend.trans (List.suffix_append front text)))
    have hfront := List.length_pos_iff.2 hne
    have htwo := hend.length_le
    rw [List.length_append] at hlength
    simp only [List.length_cons, List.length_nil] at hlength htwo
    omega
  unfold classify at h
  split at h
  · cases h
    exact hnull
  · split at h
    · rename_i written hnamed
      cases h
      exact hgiven fun text => exists_of_namedOption? hnamed
    · split at h
      · cases h
        split
        · exact hnull
        · exact trivial
      · rename_i written hone
        cases h
        exact hgiven fun text => exists_of_candidates (hone ▸ List.mem_singleton_self written)
      · cases h

theorem isGiven_of_classifyAll {words : List Text} {classified : List Word}
    (h : classifyAll words = .ok classified) (hnull : ∀ word ∈ words, '\x00' ∉ word)
    (hdashes : ∀ word ∈ words, ['-', '-'] <:+ word → word = ['-', '-']) :
    ∀ word ∈ classified, word.IsGiven := by
  induction words generalizing classified with
  | nil =>
    cases h
    exact fun word hword => absurd hword List.not_mem_nil
  | cons word rest ih =>
    obtain ⟨hword, hrest⟩ := List.forall_mem_cons.1 hnull
    obtain ⟨hend, hends⟩ := List.forall_mem_cons.1 hdashes
    unfold classifyAll at h
    split at h
    · cases h
      refine List.forall_mem_cons.2 ⟨trivial, fun plain hplain => ?_⟩
      obtain ⟨text, htext, rfl⟩ := List.mem_map.1 hplain
      exact hrest text htext
    · split at h
      · cases h
      · rename_i first hfirst
        obtain ⟨later, hlater, rfl⟩ := exists_of_map_ok h
        exact List.forall_mem_cons.2 ⟨isGiven_of_classify hfirst hword hend,
          ih hlater hrest hends⟩

/-! ## 2. What an option asks for -/

/-- Whether all options that take a value have one. -/
def HaveValues (options : List (Flag × Option Text)) : Prop :=
  ∀ option ∈ options, option.1.takesValue = true → option.2 ≠ none

theorem haveValues_nil : HaveValues [] := fun _ h => absurd h List.not_mem_nil

theorem haveValues_cons {flag : Flag} {value : Option Text} {rest : List (Flag × Option Text)} :
    HaveValues ((flag, value) :: rest) ↔
      (flag.takesValue = true → value ≠ none) ∧ HaveValues rest :=
  List.forall_mem_cons

theorem attachedValue_ne_none {text : Text} (h : ¬ ['-', '-'] <:+ text) :
    attachedValue text ≠ none := by
  unfold attachedValue
  rw [if_neg]
  · exact Option.some_ne_none text
  · rintro rfl
    exact h (List.suffix_refl _)

theorem haveValues_requestAlone (flag : Flag) : HaveValues (requestAlone flag).options := by
  unfold requestAlone
  split
  · exact haveValues_nil
  · rename_i hnone
    exact haveValues_cons.2 ⟨fun htakes => absurd htakes hnone, haveValues_nil⟩

theorem haveValues_requestLong {flag : Flag} {text : Text} {request : Request}
    (htext : ¬ ['-', '-'] <:+ text) (h : requestLong flag text = .ok request) :
    HaveValues request.options := by
  unfold requestLong at h
  split at h
  · cases h
    exact haveValues_cons.2 ⟨fun _ => attachedValue_ne_none htext, haveValues_nil⟩
  · cases h

theorem haveValues_requestShort {flag : Flag} {text : Text} {request : Request}
    (htext : ¬ ['-', '-'] <:+ text) (h : requestShort flag text = .ok request) :
    HaveValues request.options := by
  induction text generalizing flag request with
  | nil => exact haveValues_requestLong htext h
  | cons c t ih =>
    unfold requestShort at h
    split at h
    · cases h
      exact haveValues_cons.2 ⟨fun _ => attachedValue_ne_none htext, haveValues_nil⟩
    · rename_i hnone
      split at h
      · cases h
      · rename_i next _
        split at h
        · cases h
          exact haveValues_cons.2 ⟨fun htakes => absurd htakes hnone, haveValues_requestAlone next⟩
        · obtain ⟨later, hlater, rfl⟩ := exists_of_map_ok h
          have hlater := ih (fun hend => htext (hend.trans (List.suffix_cons c t))) hlater
          exact haveValues_cons.2 ⟨fun htakes => absurd htakes hnone, hlater⟩

/-- **An option asks for values that are there**, if it is given its own. -/
theorem haveValues_request {written : OptionUse} {request : Request} (hwritten : written.IsGiven)
    (h : written.request = .ok request) : HaveValues request.options := by
  unfold OptionUse.request at h
  split at h
  · cases h
    exact haveValues_requestAlone _
  · rename_i text htext
    split at h
    · exact haveValues_requestLong (hwritten text htext) h
    · exact haveValues_requestShort (hwritten text htext) h

/-! ## 3. The settings -/

namespace Settings

/-- Whether nothing is missing from some settings. -/
structure IsGiven (s : Settings) : Prop where
  configs : none ∉ s.configs
  jobs : s.jobs ≠ none
  diagnosticFormat : s.diagnosticFormat ≠ none
  logLevel : s.logLevel ≠ none

theorem isGiven_standard : standard.IsGiven where
  configs := List.not_mem_nil
  jobs := Option.some_ne_none 1
  diagnosticFormat := Option.some_ne_none _
  logLevel := Option.some_ne_none _

variable {s next : Settings}

/-- A value that is there is read as one. -/
theorem ne_none_of_ifGiven {α : Type} {read : Text → Except Interruption α} {value : Option Text}
    {result : Option α} (hvalue : value ≠ none) (h : ifGiven read value = .ok result) :
    result ≠ none := by
  obtain ⟨text, rfl⟩ := Option.ne_none_iff_exists'.1 hvalue
  obtain ⟨a, _, rfl⟩ := exists_of_map_ok h
  exact Option.some_ne_none a

/-- **An option with its value keeps the settings complete.** -/
theorem IsGiven.apply (hs : s.IsGiven) {flag : Flag} {value : Option Text}
    (hvalue : flag.takesValue = true → value ≠ none) (h : s.apply flag value = .ok next) :
    next.IsGiven := by
  cases flag with
  | help => cases h
  | config =>
    cases h
    exact { hs with
      configs := fun hmem => by
        rcases List.mem_append.1 hmem with hmem | hmem
        · exact hs.configs hmem
        · exact hvalue rfl (List.mem_singleton.1 hmem).symm }
  | jobs =>
    obtain ⟨jobs, hjobs, rfl⟩ := exists_of_map_ok h
    exact { hs with jobs := ne_none_of_ifGiven (hvalue rfl) hjobs }
  | noMacros =>
    cases h
    exact { hs with }
  | listConfigs =>
    cases h
    exact { hs with }
  | dumpProcessed =>
    cases h
    exact { hs with }
  | format =>
    obtain ⟨format, _, rfl⟩ := exists_of_map_ok h
    exact { hs with }
  | diagnosticFormat =>
    obtain ⟨format, hformat, rfl⟩ := exists_of_map_ok h
    exact { hs with diagnosticFormat := ne_none_of_ifGiven (hvalue rfl) hformat }
  | logLevel =>
    obtain ⟨level, hlevel, rfl⟩ := exists_of_map_ok h
    exact { hs with logLevel := ne_none_of_ifGiven (hvalue rfl) hlevel }

theorem IsGiven.applyAll (hs : s.IsGiven) {options : List (Flag × Option Text)}
    (hoptions : HaveValues options) (h : s.applyAll options = .ok next) : next.IsGiven := by
  induction options generalizing s with
  | nil =>
    cases h
    exact hs
  | cons option rest ih =>
    obtain ⟨flag, value⟩ := option
    obtain ⟨hvalue, hrest⟩ := haveValues_cons.1 hoptions
    unfold Settings.applyAll at h
    split at h
    · cases h
    · rename_i later hlater
      exact ih (hs.apply hvalue hlater) hrest h

end Settings

/-! ## 4. The reading of a command line -/

namespace Progress

/-- Whether nothing is missing from what was read so far, and the input has no null character. -/
structure IsGiven (p : Progress) : Prop where
  settings : p.settings.IsGiven
  input : ∀ text, p.input = some text → '\x00' ∉ text

variable {p next : Progress}

theorem IsGiven.leave (hp : p.IsGiven) (word : Text) : (p.leave word).IsGiven :=
  ⟨hp.settings, hp.input⟩

theorem IsGiven.take (hp : p.IsGiven) {text : Text} (htext : '\x00' ∉ text) :
    (p.take text).IsGiven := by
  unfold Progress.take
  split
  · exact ⟨hp.settings, fun other hother => by cases hother; exact htext⟩
  · exact hp.leave text

theorem IsGiven.apply (hp : p.IsGiven) {options : List (Flag × Option Text)}
    (hoptions : HaveValues options) (h : p.apply options = .ok next) : next.IsGiven := by
  obtain ⟨settings, hsettings, rfl⟩ := exists_of_map_ok h
  exact ⟨hp.settings.applyAll hoptions hsettings, hp.input⟩

/-- An option that takes its value from the words after it has it, too. -/
theorem IsGiven.carryOut (hp : p.IsGiven) {written : OptionUse} (hwritten : written.IsGiven)
    {rest later : List Word} (h : p.carryOut written rest = .ok (next, later)) :
    next.IsGiven ∧ later ⊆ rest := by
  unfold Progress.carryOut at h
  split at h
  · cases h
  · rename_i request hrequest
    have hvalues := haveValues_request hwritten hrequest
    split at h
    · obtain ⟨q, hq, heq⟩ := exists_of_map_ok h
      cases heq
      exact ⟨hp.apply hvalues hq, List.Subset.refl _⟩
    · split at h
      · rename_i flag _ value later
        obtain ⟨q, hq, heq⟩ := exists_of_map_ok h
        cases heq
        refine ⟨hp.apply (fun option hmem => ?_) hq, List.subset_cons_self _ _⟩
        rcases List.mem_append.1 hmem with hmem | hmem
        · exact hvalues option hmem
        · rw [List.mem_singleton.1 hmem]
          exact fun _ => Option.some_ne_none value
      · cases h

theorem skipDashes_suffix (words : List Word) : skipDashes words <:+ words := by
  unfold skipDashes
  split
  · exact List.suffix_cons _ _
  · exact List.suffix_refl _

/-- **The reading keeps what was read complete.** -/
theorem IsGiven.read (hp : p.IsGiven) {words : List Word} (hwords : ∀ word ∈ words, word.IsGiven)
    (h : p.read words = .ok next) : next.IsGiven := by
  fun_induction Progress.read p words with
  | case1 p =>
    cases h
    exact hp
  | case2 p text rest ih =>
    obtain ⟨htext, hrest⟩ := List.forall_mem_cons.1 hwords
    refine ih (hp.take htext) (fun word hword => hrest word ?_) h
    split at hword
    · exact (skipDashes_suffix rest).subset hword
    · exact hword
  | case3 p text rest hinput ih =>
    obtain ⟨_, hplain⟩ := List.forall_mem_cons.1 hwords
    obtain ⟨htext, hrest⟩ := List.forall_mem_cons.1 hplain
    exact ih (hp.take htext) hrest h
  | case4 p text rest hinput ih =>
    obtain ⟨_, hplain⟩ := List.forall_mem_cons.1 hwords
    exact ih ((hp.leave _).leave text) (List.forall_mem_cons.1 hplain).2 h
  | case5 p rest hrest ih => exact ih (hp.leave _) (List.forall_mem_cons.1 hwords).2 h
  | case6 p text rest ih => exact ih (hp.leave text) (List.forall_mem_cons.1 hwords).2 h
  | case7 p written rest e hstep => cases h
  | case8 p written rest after later hstep ih =>
    obtain ⟨hwritten, hrest⟩ := List.forall_mem_cons.1 hwords
    obtain ⟨hafter, hlater⟩ := hp.carryOut hwritten hstep
    exact ih hafter (fun word hword => hrest word (hlater hword)) h

end Progress

/-- **The arguments of a command line are complete** where no word holds the null character and none
ends with two hyphens but the one that ends the options. -/
theorem isGiven_of_parseArguments {words : List Text} {arguments : Arguments}
    (h : parseArguments words = .ok arguments) (hnull : ∀ word ∈ words, '\x00' ∉ word)
    (hdashes : ∀ word ∈ words, ['-', '-'] <:+ word → word = ['-', '-']) :
    arguments.settings.IsGiven ∧ '\x00' ∉ arguments.input := by
  unfold parseArguments at h
  split at h
  · cases h
  · rename_i classified hclassified
    split at h
    · cases h
    · rename_i p hread
      have hstart : (⟨none, .standard, []⟩ : Progress).IsGiven :=
        ⟨Settings.isGiven_standard, fun _ hnone => by cases hnone⟩
      have hp := hstart.read (isGiven_of_classifyAll hclassified hnull hdashes) hread
      split at h
      · cases h
      · rename_i input hinput _
        cases h
        exact ⟨hp.settings, hp.input input hinput⟩
      · cases h

end Variants.CommandLine
