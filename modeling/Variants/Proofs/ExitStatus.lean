import Variants.CommandLine.Run
import Variants.Proofs.GivenValues

/-!
# How a run ends

A run is a row of checks, and the first one that fails ends it (`Ending`). So the exit status names
the check, nothing is printed before all of them are passed, and what a run writes when it fails is
one report (`IsClean`). Which checks a command line passes does not depend on what the source holds.

Not every run comes to an end. Where an option was left without the value that the run asks for, and
where the path holds the null character, it breaks off without an exit status (`BreaksOff`).

Main statement: `run_isClean`.
-/

namespace Variants

namespace Configuration

/-! ## 1. The keys that are asked for -/

theorem checkKey_cases (filename key : Text) :
    checkKey filename key = .ok key ∨ ∃ found, checkKey filename key = .error found := by
  unfold checkKey
  split
  · exact Or.inl rfl
  · exact Or.inr ⟨_, rfl⟩

/-- Keys are accepted as they are, unless one of them is refused. -/
theorem checkKeys_cases (filename : Text) (keys : List Text) :
    (checkKeys filename keys = .ok keys ∧ ∀ key ∈ keys, checkKey filename key = .ok key) ∨
      ∃ key ∈ keys, ∃ found, checkKey filename key = .error found ∧
        checkKeys filename keys = .error found := by
  induction keys with
  | nil => exact Or.inl ⟨rfl, fun _ h => absurd h List.not_mem_nil⟩
  | cons key rest ih =>
    rcases checkKey_cases filename key with hkey | ⟨found, hkey⟩
    · rcases ih with ⟨hrest, hall⟩ | ⟨other, hmem, found, hother, hrest⟩
      · exact Or.inl ⟨by simp only [checkKeys, hkey, hrest]; rfl,
          List.forall_mem_cons.2 ⟨hkey, hall⟩⟩
      · exact Or.inr ⟨other, List.mem_cons_of_mem key hmem, found, hother,
          by simp only [checkKeys, hkey, hrest]; rfl⟩
    · exact Or.inr ⟨key, List.mem_cons_self, found, hkey, by simp only [checkKeys, hkey]⟩

end Configuration

namespace CommandLine

open Variants.Configuration

/-! ## 2. The settings -/

namespace Settings

/-- Whether some settings have all values that every run asks for, and enough jobs. -/
structure IsUsable (s : Settings) : Prop where
  logLevel : s.logLevel ≠ none
  jobs : ∃ jobs, s.jobs = some jobs ∧ 1 ≤ jobs
  diagnosticFormat : s.diagnosticFormat ≠ none

variable {s : Settings} {jobs : Int}

theorem options_of_logLevel (h : s.logLevel = none) : s.options = .error (.noValue .logLevel) := by
  rw [options, h]

theorem options_of_jobs (hlevel : s.logLevel ≠ none) (h : s.jobs = none) :
    s.options = .error (.noValue .jobs) := by
  obtain ⟨level, hlevel⟩ := Option.ne_none_iff_exists'.1 hlevel
  rw [options, hlevel, h]

theorem options_of_lt (hlevel : s.logLevel ≠ none) (hjobs : s.jobs = some jobs) (h : jobs < 1) :
    s.options = .error (.refused (.invalidJobs jobs)) := by
  obtain ⟨level, hlevel⟩ := Option.ne_none_iff_exists'.1 hlevel
  rw [options, hlevel, hjobs]
  dsimp only
  rw [OptionRequest.check, dif_neg (show ¬ 0 < jobs by omega)]

/-- The form of diagnostics is one that is known. -/
theorem check_of_le (h : 1 ≤ jobs) (expandMacros : Bool) (format : DiagnosticFormat) :
    OptionRequest.check ⟨jobs, expandMacros, format.name⟩ =
      .ok ⟨jobs, expandMacros, format, by omega⟩ := by
  rw [OptionRequest.check, dif_pos (show 0 < jobs by omega)]
  cases format with
  | human => rfl
  | json => rfl

theorem options_of_diagnosticFormat (hlevel : s.logLevel ≠ none) (hjobs : s.jobs = some jobs)
    (hle : 1 ≤ jobs) (h : s.diagnosticFormat = none) :
    s.options = .error (.noValue .diagnosticFormat) := by
  obtain ⟨level, hlevel⟩ := Option.ne_none_iff_exists'.1 hlevel
  rw [options, hlevel, hjobs]
  dsimp only
  rw [check_of_le hle, h]
  rfl

theorem IsUsable.options (h : s.IsUsable) :
    ∃ options, s.options = .ok options ∧ s.diagnosticFormat = some options.diagnosticFormat := by
  obtain ⟨level, hlevel⟩ := Option.ne_none_iff_exists'.1 h.logLevel
  obtain ⟨jobs, hjobs, hle⟩ := h.jobs
  obtain ⟨format, hformat⟩ := Option.ne_none_iff_exists'.1 h.diagnosticFormat
  refine ⟨⟨jobs, s.expandMacros, format, by omega⟩, ?_, hformat⟩
  rw [Settings.options, hlevel, hjobs]
  dsimp only
  rw [check_of_le hle, hformat]
  rfl

end Settings

/-! ## 3. The path -/

/-- A character other than the one between some pieces stands in one of them. -/
theorem mem_intercalate_iff {c d : Char} (h : c ≠ d) (pieces : List Text) :
    c ∈ [d].intercalate pieces ↔ ∃ piece ∈ pieces, c ∈ piece := by
  induction pieces with
  | nil => simp
  | cons piece rest ih =>
    cases rest with
    | nil => simp
    | cons next more =>
      rw [List.intercalate_cons_cons, List.mem_append, List.mem_append, ih, List.mem_singleton]
      simp [h]

/-- What is dropped from the text of a path are slashes and points. -/
theorem Path.mem_text_ofText {c : Char} (hslash : c ≠ '/') (hpoint : c ≠ '.') (t : Text) :
    c ∈ (Path.ofText t).text ↔ c ∈ t := by
  have hroot : c ∉ Path.rootOf t := by
    unfold Path.rootOf
    split
    · exact List.not_mem_nil
    · simp [hslash]
    · simp [hslash]
  have hnames : c ∈ ['/'].intercalate (Path.ofText t).names ↔ c ∈ t := by
    have hwhole := mem_intercalate_iff hslash (t.splitOn '/')
    rw [List.intercalate_splitOn] at hwhole
    rw [mem_intercalate_iff hslash, hwhole]
    constructor
    · rintro ⟨name, hname, hmem⟩
      exact ⟨name, (List.mem_filter.1 hname).1, hmem⟩
    · rintro ⟨piece, hpiece, hmem⟩
      refine ⟨piece, List.mem_filter.2 ⟨hpiece, ?_⟩, hmem⟩
      have hnil : piece ≠ [] := List.ne_nil_of_mem hmem
      have hdot : piece ≠ ['.'] := by
        rintro rfl
        exact hpoint (List.mem_singleton.1 hmem)
      simp [hnil, hdot]
  have hwritten : c ∈ (Path.ofText t).root ++ ['/'].intercalate (Path.ofText t).names ↔ c ∈ t := by
    rw [List.mem_append, hnames]
    exact or_iff_right hroot
  unfold Path.text
  dsimp only
  split
  · rename_i hnil
    rw [← hwritten, hnil]
    simp [hpoint]
  · exact hwritten

theorem hasNull_ofText (t : Text) : (Input.ofText t).hasNull = true ↔ '\x00' ∈ t := by
  unfold Input.ofText
  split
  · rename_i hstandard
    subst hstandard
    decide
  · show (Path.ofText t).text.contains '\x00' = true ↔ _
    rw [List.contains_iff_mem, Path.mem_text_ofText (by decide) (by decide)]

/-! ## 4. The endings of a run -/

variable {words : List Text} {read : Input → Except ReadFault Text} {arguments : Arguments}

/-- Where a run on some arguments breaks off, and why: an option has no value that the next check
asks for, or the path holds the null character. A key is not asked for before the code of the
variants is. -/
inductive BreaksOff (arguments : Arguments) (read : Input → Except ReadFault Text) :
    Breakdown → Prop where
  | logLevel : arguments.settings.logLevel = none → BreaksOff arguments read (.noValue .logLevel)
  | jobs : arguments.settings.logLevel ≠ none → arguments.settings.jobs = none →
    BreaksOff arguments read (.noValue .jobs)
  | diagnosticFormat {jobs : Int} : arguments.settings.logLevel ≠ none →
    arguments.settings.jobs = some jobs → 1 ≤ jobs → arguments.settings.diagnosticFormat = none →
    BreaksOff arguments read (.noValue .diagnosticFormat)
  | nullInPath : arguments.settings.IsUsable → '\x00' ∈ arguments.input →
    BreaksOff arguments read .nullInPath
  | config {source : Text} : arguments.settings.IsUsable → '\x00' ∉ arguments.input →
    read (.ofText arguments.input) = .ok source →
    (∀ key ∈ arguments.settings.keys,
      checkKey (Input.ofText arguments.input).name key = .ok key) →
    arguments.settings.printsCode = true → none ∈ arguments.settings.configs →
    BreaksOff arguments read (.noValue .config)

/-- **How a run ends**, one check after the other. -/
inductive Ending (words : List Text) (read : Input → Except ReadFault Text) :
    Except Breakdown Outcome → Prop where
  | help : parseArguments words = .error .help → Ending words read (.ok ⟨0, help, []⟩)
  | refused {e : ArgumentError} : parseArguments words = .error (.refused e) →
    Ending words read (.ok (.failed 2 (.usage e)))
  | broken {arguments : Arguments} {b : Breakdown} : parseArguments words = .ok arguments →
    BreaksOff arguments read b → Ending words read (.error b)
  | tooFewJobs {arguments : Arguments} {jobs : Int} : parseArguments words = .ok arguments →
    arguments.settings.logLevel ≠ none → arguments.settings.jobs = some jobs → jobs < 1 →
    Ending words read (.ok (.failed 2 (.options (.invalidJobs jobs))))
  | unreadable {arguments : Arguments} {fault : ReadFault} :
    parseArguments words = .ok arguments → arguments.settings.IsUsable →
    read (.ofText arguments.input) = .error fault →
    Ending words read (.ok (.failed 1 (.unreadable fault)))
  | badKey {arguments : Arguments} {source key : Text} {found : Diagnostic}
      {format : DiagnosticFormat} : parseArguments words = .ok arguments →
    arguments.settings.IsUsable → read (.ofText arguments.input) = .ok source →
    key ∈ arguments.settings.keys →
    checkKey (Input.ofText arguments.input).name key = .error found →
    arguments.settings.diagnosticFormat = some format →
    Ending words read (.ok (.failed 1 (.diagnostic format found)))
  | done {arguments : Arguments} {source : Text} (printed : Text) (events : List Event) :
    parseArguments words = .ok arguments → arguments.settings.IsUsable →
    read (.ofText arguments.input) = .ok source →
    (∀ key ∈ arguments.settings.keys,
      checkKey (Input.ofText arguments.input).name key = .ok key) →
    Ending words read (.ok ⟨0, printed,
      if arguments.settings.logLevel = some .debug then events.map .event else []⟩)

/-- A run on arguments that were understood. -/
theorem run_eq (h : parseArguments words = .ok arguments) : run words read =
    match arguments.settings.options with
    | .error (.noValue flag) => .error (.noValue flag)
    | .error (.refused e) => .ok (.failed 2 (.options e))
    | .ok options =>
      if '\x00' ∈ arguments.input then .error .nullInPath
      else
        runOnInput arguments.settings options (.ofText arguments.input)
          (read (.ofText arguments.input)) := by
  simp only [← hasNull_ofText]
  rw [run, plan, h]
  dsimp only
  rw [planFor]
  cases arguments.settings.options with
  | error fault =>
    cases fault with
    | noValue flag => rfl
    | refused e => rfl
  | ok options =>
    dsimp only
    cases (Input.ofText arguments.input).hasNull with
    | false => rfl
    | true => rfl

/-- Every run ends in one of these ways. -/
theorem run_ending (words : List Text) (read : Input → Except ReadFault Text) :
    Ending words read (run words read) := by
  cases hparse : parseArguments words with
  | error interruption =>
    rw [run, plan, hparse]
    cases interruption with
    | help => exact .help hparse
    | refused e => exact .refused hparse
  | ok arguments =>
    rw [run_eq hparse]
    by_cases hlevel : arguments.settings.logLevel = none
    · rw [Settings.options_of_logLevel hlevel]
      exact .broken hparse (.logLevel hlevel)
    cases hjobs : arguments.settings.jobs with
    | none =>
      rw [Settings.options_of_jobs hlevel hjobs]
      exact .broken hparse (.jobs hlevel hjobs)
    | some jobs =>
      by_cases hlt : jobs < 1
      · rw [Settings.options_of_lt hlevel hjobs hlt]
        exact .tooFewJobs hparse hlevel hjobs hlt
      have hle : 1 ≤ jobs := by omega
      by_cases hformat : arguments.settings.diagnosticFormat = none
      · rw [Settings.options_of_diagnosticFormat hlevel hjobs hle hformat]
        exact .broken hparse (.diagnosticFormat hlevel hjobs hle hformat)
      have husable : arguments.settings.IsUsable := ⟨hlevel, ⟨jobs, hjobs, hle⟩, hformat⟩
      obtain ⟨options, hoptions, hshown⟩ := husable.options
      rw [hoptions]
      dsimp only
      split
      · rename_i hnull
        exact .broken hparse (.nullInPath husable hnull)
      · rename_i hnull
        cases hread : read (.ofText arguments.input) with
        | error fault => exact .unreadable hparse husable hread
        | ok source =>
          rw [runOnInput, runOnSource]
          rcases checkKeys_cases (Input.ofText arguments.input).name arguments.settings.keys with
            ⟨hkeys, hall⟩ | ⟨key, hmem, found, hfound, hkeys⟩
          · rw [hkeys]
            dsimp only
            split
            · rename_i hprints
              obtain ⟨hprints, hnone⟩ := Bool.and_eq_true_iff.1 hprints
              exact .broken hparse (.config husable hnull hread hall hprints
                (List.contains_iff_mem.1 hnone))
            · exact .done _ _ hparse husable hread hall
          · rw [hkeys]
            exact .badKey hparse husable hread hmem hfound hshown

/-- **A run breaks off** exactly where a value is missing or the path holds the null character. -/
theorem run_eq_error_iff {b : Breakdown} : run words read = .error b ↔
    ∃ arguments, parseArguments words = .ok arguments ∧ BreaksOff arguments read b := by
  constructor
  · intro hrun
    have hending := run_ending words read
    rw [hrun] at hending
    cases hending with
    | broken hparse hbreaks => exact ⟨_, hparse, hbreaks⟩
  · rintro ⟨arguments, hparse, hbreaks⟩
    rw [run_eq hparse]
    cases hbreaks with
    | logLevel hlevel => rw [Settings.options_of_logLevel hlevel]
    | jobs hlevel hjobs => rw [Settings.options_of_jobs hlevel hjobs]
    | diagnosticFormat hlevel hjobs hle hformat =>
      rw [Settings.options_of_diagnosticFormat hlevel hjobs hle hformat]
    | nullInPath husable hnull =>
      obtain ⟨options, hoptions, _⟩ := husable.options
      rw [hoptions]
      exact if_pos hnull
    | config husable hnull hread hall hprints hnone =>
      obtain ⟨options, hoptions, _⟩ := husable.options
      rw [hoptions]
      dsimp only
      rw [if_neg hnull, hread, runOnInput, runOnSource]
      rcases checkKeys_cases (Input.ofText arguments.input).name arguments.settings.keys with
        ⟨hkeys, _⟩ | ⟨key, hmem, found, hfound, _⟩
      · rw [hkeys]
        dsimp only
        rw [if_pos (by rw [hprints, List.contains_iff_mem.2 hnone]; rfl)]
      · cases (hall key hmem).symm.trans hfound

/-! ## 5. What an outcome says -/

/-- Whether a command line is refused: it gives no arguments, or a number of jobs below one. -/
def IsRefused (words : List Text) : Prop :=
  (∃ e, parseArguments words = .error (.refused e)) ∨
    ∃ arguments jobs, parseArguments words = .ok arguments ∧
      arguments.settings.jobs = some jobs ∧ jobs < 1

/-- What the outcome of a run says. A command line that is refused is refused whatever the input
would give. Apart from help, a run that goes on fails exactly if the input cannot be read or a key
is refused, and the input is reported before a key. A run that fails prints nothing and reports one
thing, which is no event; a run that succeeds reports nothing but events that were asked for. -/
structure IsClean (words : List Text) (read : Input → Except ReadFault Text) (o : Outcome) :
    Prop where
  status : o.exit = 0 ∨ o.exit = 1 ∨ o.exit = 2
  refused : o.exit = 2 ↔ IsRefused words
  unread : o.exit = 2 → ∀ other : Input → Except ReadFault Text, run words other = .ok o
  help : parseArguments words = .error .help → o = ⟨0, CommandLine.help, []⟩
  failed : ∀ arguments, parseArguments words = .ok arguments → o.exit ≠ 2 →
    (o.exit = 1 ↔ (∃ fault, read (.ofText arguments.input) = .error fault) ∨
      ∃ key ∈ arguments.settings.keys, ∃ found,
        checkKey (Input.ofText arguments.input).name key = .error found)
  unreadable : ∀ arguments fault, parseArguments words = .ok arguments → o.exit ≠ 2 →
    read (.ofText arguments.input) = .error fault → o.reports = [.unreadable fault]
  badKey : ∀ arguments source, parseArguments words = .ok arguments → o.exit = 1 →
    read (.ofText arguments.input) = .ok source →
    ∃ key ∈ arguments.settings.keys, ∃ found format,
      checkKey (Input.ofText arguments.input).name key = .error found ∧
        arguments.settings.diagnosticFormat = some format ∧
        o.reports = [.diagnostic format found]
  silent : o.exit ≠ 0 → o.stdout = [] ∧
    ∃ report, o.reports = [report] ∧ ∀ noted, report ≠ .event noted
  quiet : o.exit = 0 → (∀ arguments, parseArguments words = .ok arguments →
    arguments.settings.logLevel ≠ some .debug) → o.stderr = []

theorem eq_ok_of_toOption {ε α : Type} {x : Except ε α} {a : α} (h : x.toOption = some a) :
    x = .ok a := by
  cases x with
  | error e => cases h
  | ok b => exact congrArg Except.ok (Option.some.inj h)

theorem not_isRefused (hparse : parseArguments words = .ok arguments)
    (husable : arguments.settings.IsUsable) : ¬ IsRefused words := by
  rintro (⟨e, he⟩ | ⟨other, jobs, hother, hjobs, hlt⟩)
  · cases hparse.symm.trans he
  · cases hparse.symm.trans hother
    obtain ⟨enough, henough, hle⟩ := husable.jobs
    cases hjobs.symm.trans henough
    omega

/-- The outcome for a command line that asks for help. -/
theorem isClean_of_help (hparse : parseArguments words = .error .help) :
    IsClean words read ⟨0, CommandLine.help, []⟩ := by
  have hnone {other : Arguments} : parseArguments words ≠ .ok other := by
    rw [hparse]
    exact fun h => by cases h
  have hzero : (0 : Nat) ≠ 1 ∧ (0 : Nat) ≠ 2 := by decide
  exact {
    status := Or.inl rfl
    refused := iff_of_false hzero.2 fun hrefused => by
      obtain ⟨e, he⟩ | ⟨other, jobs, hother, _⟩ := hrefused
      · cases hparse.symm.trans he
      · exact hnone hother
    unread := fun hexit => absurd hexit hzero.2
    help := fun _ => rfl
    failed := fun other hother => absurd hother hnone
    unreadable := fun other _ hother => absurd hother hnone
    badKey := fun other _ hother => absurd hother hnone
    silent := fun hexit => absurd rfl hexit
    quiet := fun _ _ => rfl }

/-- The outcome for a command line that is refused. -/
theorem isClean_of_isRefused {report : Report} (hrefused : IsRefused words)
    (hrun : ∀ other : Input → Except ReadFault Text, run words other = .ok (.failed 2 report))
    (hreport : ∀ noted, report ≠ .event noted) : IsClean words read (.failed 2 report) where
  status := Or.inr (Or.inr rfl)
  refused := iff_of_true rfl hrefused
  unread _ := hrun
  help hparse := by
    obtain ⟨e, he⟩ | ⟨other, jobs, hother, _⟩ := hrefused
    · cases hparse.symm.trans he
    · cases hparse.symm.trans hother
  failed _ _ hexit := absurd rfl hexit
  unreadable _ _ _ hexit := absurd rfl hexit
  badKey _ _ _ hexit := absurd hexit (show (2 : Nat) ≠ 1 by decide)
  silent _ := ⟨rfl, report, rfl, hreport⟩
  quiet hexit := absurd hexit (show (2 : Nat) ≠ 0 by decide)

/-- The outcome for arguments that a run is made with. -/
theorem isClean_of_isUsable {o : Outcome} (hparse : parseArguments words = .ok arguments)
    (husable : arguments.settings.IsUsable) (hstatus : o.exit = 0 ∨ o.exit = 1)
    (hfailed : o.exit = 1 ↔ (∃ fault, read (.ofText arguments.input) = .error fault) ∨
      ∃ key ∈ arguments.settings.keys, ∃ found,
        checkKey (Input.ofText arguments.input).name key = .error found)
    (hunreadable : ∀ fault, read (.ofText arguments.input) = .error fault →
      o.reports = [.unreadable fault])
    (hbadKey : ∀ source, o.exit = 1 → read (.ofText arguments.input) = .ok source →
      ∃ key ∈ arguments.settings.keys, ∃ found format,
        checkKey (Input.ofText arguments.input).name key = .error found ∧
          arguments.settings.diagnosticFormat = some format ∧
          o.reports = [.diagnostic format found])
    (hsilent : o.exit ≠ 0 → o.stdout = [] ∧
      ∃ report, o.reports = [report] ∧ ∀ noted, report ≠ .event noted)
    (hquiet : o.exit = 0 → arguments.settings.logLevel ≠ some .debug → o.stderr = []) :
    IsClean words read o := by
  have hsame {other : Arguments} (hother : parseArguments words = .ok other) :
      other = arguments := Except.ok.inj (hother.symm.trans hparse)
  have htwo : o.exit ≠ 2 := by omega
  exact {
    status := hstatus.imp_right Or.inl
    refused := iff_of_false htwo (not_isRefused hparse husable)
    unread := fun hexit => absurd hexit htwo
    help := fun hhelp => by cases hparse.symm.trans hhelp
    failed := fun other hother _ => hsame hother ▸ hfailed
    unreadable := fun other fault hother _ hread => hunreadable fault (hsame hother ▸ hread)
    badKey := fun other source hother hexit hread => by
      obtain rfl := hsame hother
      exact hbadKey source hexit hread
    silent := hsilent
    quiet := fun hexit hlevel => hquiet hexit (hlevel arguments hparse) }

/-- **What every outcome says.** -/
theorem isClean_of_run {o : Outcome} (h : run words read = .ok o) : IsClean words read o := by
  have hending := run_ending words read
  rw [h] at hending
  cases hending with
  | help hparse => exact isClean_of_help hparse
  | refused hparse =>
    refine isClean_of_isRefused (Or.inl ⟨_, hparse⟩) (fun other => ?_) fun _ => by simp
    rw [run, plan, hparse]
  | tooFewJobs hparse hlevel hjobs hlt =>
    refine isClean_of_isRefused (Or.inr ⟨_, _, hparse, hjobs, hlt⟩) (fun other => ?_)
      fun _ => by simp
    rw [run_eq hparse, Settings.options_of_lt hlevel hjobs hlt]
  | unreadable hparse husable hread =>
    refine isClean_of_isUsable hparse husable (Or.inr rfl) (iff_of_true rfl (Or.inl ⟨_, hread⟩))
      (fun fault hfault => ?_) (fun source _ hsource => ?_) (fun _ => ⟨rfl, _, rfl, by simp⟩)
      fun hexit => absurd hexit (show (1 : Nat) ≠ 0 by decide)
    · cases hread.symm.trans hfault
      rfl
    · cases hread.symm.trans hsource
  | badKey hparse husable hread hmem hfound hformat =>
    refine isClean_of_isUsable hparse husable (Or.inr rfl)
      (iff_of_true rfl (Or.inr ⟨_, hmem, _, hfound⟩)) (fun fault hfault => ?_)
      (fun source _ _ => ⟨_, hmem, _, _, hfound, hformat, rfl⟩) (fun _ => ⟨rfl, _, rfl, by simp⟩)
      fun hexit => absurd hexit (show (1 : Nat) ≠ 0 by decide)
    cases hread.symm.trans hfault
  | done printed events hparse husable hread hall =>
    refine isClean_of_isUsable hparse husable (Or.inl rfl)
      (iff_of_false (show (0 : Nat) ≠ 1 by decide) ?_) (fun fault hfault => ?_)
      (fun source hexit _ => absurd hexit (show (0 : Nat) ≠ 1 by decide))
      (fun hexit => absurd rfl hexit) fun _ hlevel => ?_
    · rintro (⟨fault, hfault⟩ | ⟨key, hmem, found, hfound⟩)
      · cases hread.symm.trans hfault
      · cases (hall key hmem).symm.trans hfound
    · cases hread.symm.trans hfault
    · rw [Outcome.stderr, if_neg hlevel]
      rfl

/-! ## 6. A run on a directory -/

/-- **A run fails cleanly or breaks off.** On every command line, every directory and every standard
input, what a run comes to is an outcome that says why, unless a value is missing that the run asks
for or the path holds the null character. No value is missing where no word but the one that ends
the options ends with two hyphens. -/
theorem run_isClean (words : List Text) (files : Files) (stdin : Text) :
    (∀ o, run words (files.read stdin) = .ok o → IsClean words (files.read stdin) o) ∧
      (∀ b, run words (files.read stdin) = .error b ↔
        ∃ arguments, parseArguments words = .ok arguments ∧
          BreaksOff arguments (files.read stdin) b) ∧
      ((∀ word ∈ words, '\x00' ∉ word) →
        (∀ word ∈ words, ['-', '-'] <:+ word → word = ['-', '-']) →
        ∃ o, run words (files.read stdin) = .ok o) := by
  refine ⟨fun _ => isClean_of_run, fun _ => run_eq_error_iff, fun hnull hdashes => ?_⟩
  cases hrun : run words (files.read stdin) with
  | ok o => exact ⟨o, rfl⟩
  | error b =>
    obtain ⟨arguments, hparse, hbreaks⟩ := run_eq_error_iff.1 hrun
    obtain ⟨hgiven, hinput⟩ := isGiven_of_parseArguments hparse hnull hdashes
    cases hbreaks with
    | logLevel hlevel => exact absurd hlevel hgiven.logLevel
    | jobs _ hjobs => exact absurd hjobs hgiven.jobs
    | diagnosticFormat _ _ _ hformat => exact absurd hformat hgiven.diagnosticFormat
    | nullInPath _ hnull => exact absurd hnull hinput
    | config _ _ _ _ _ hnone => exact absurd hnone hgiven.configs

/-- A key that is refused, whatever the source and though all events are asked for; and an option
without its value. -/
theorem run_isClean_badKey :
    (∃ o, run ["-".toList, "-c".toList, "A B".toList, "--log-level".toList, "DEBUG".toList]
        (Files.read [] "#if\n".toList) = .ok o ∧ o.exit = 1 ∧ o.stdout = []) ∧
      run ["-".toList, "--jobs=--".toList] (Files.read [] "#if\n".toList) =
        .error (.noValue .jobs) := by
  have hkey := eq_ok_of_toOption (show (parseArguments
      ["-".toList, "-c".toList, "A B".toList, "--log-level".toList, "DEBUG".toList]).toOption =
        some ⟨['-'], [some "A B".toList], some 1, true, false, false, .text, some .human,
          some .debug⟩ by decide +kernel)
  have hjobs := eq_ok_of_toOption (show (parseArguments ["-".toList, "--jobs=--".toList]).toOption =
      some ⟨['-'], [], none, true, false, false, .text, some .human, some .warning⟩ by
    decide +kernel)
  constructor
  · obtain ⟨hclean, _, hends⟩ := run_isClean
      ["-".toList, "-c".toList, "A B".toList, "--log-level".toList, "DEBUG".toList] []
      "#if\n".toList
    obtain ⟨o, ho⟩ := hends (by decide +kernel) (by decide +kernel)
    have hrefused : ¬ IsRefused _ :=
      not_isRefused hkey ⟨Option.some_ne_none _, ⟨1, rfl, by decide⟩, Option.some_ne_none _⟩
    have hexit : o.exit = 1 :=
      ((hclean o ho).failed _ hkey fun htwo => hrefused ((hclean o ho).refused.1 htwo)).2
        (Or.inr ⟨"A B".toList, List.mem_singleton_self _, _, rfl⟩)
    exact ⟨o, ho, hexit, ((hclean o ho).silent (by omega)).1⟩
  · exact ((run_isClean _ _ _).2.1 _).2 ⟨_, hjobs, .jobs (Option.some_ne_none _) rfl⟩

/-- A run breaks off at a path with the null character, which no directory has a file for. -/
theorem run_nullInPath : run ["a\x00b".toList] (Files.read [] []) = .error .nullInPath := by
  have hparse := eq_ok_of_toOption (show (parseArguments ["a\x00b".toList]).toOption =
      some ⟨"a\x00b".toList, Settings.standard⟩ by decide +kernel)
  exact run_eq_error_iff.2 ⟨_, hparse, .nullInPath
    ⟨Option.some_ne_none _, ⟨1, rfl, by decide⟩, Option.some_ne_none _⟩ (by decide)⟩

end CommandLine

end Variants
