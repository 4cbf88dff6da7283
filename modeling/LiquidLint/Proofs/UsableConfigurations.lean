import LiquidLint.Config.Load
import LiquidLint.Report.Basic
import LiquidLint.Rule.All
import LiquidLint.Run.Basic

/-!
# Configurations that can be used

Validation goes through the sections of a configuration, whatever checks they are about, and reads each
pattern by itself.  A run goes through the checks of its registry instead, and reads each list of patterns as
a whole.  What both come to is that every word, number and pattern of the configuration can be used
(`Config.Usable`): this is exactly what validation accepts (`Config.isValid_iff`), and then nothing that a
run does with its configuration fails, whatever checks are registered (`Run.plan_of_isValid`).

A configuration that was loaded has been validated as a whole, so a run can use it (`Config.usable_of_load`).
-/

namespace LiquidLint

/-! ## Patterns, severities and sections -/

/-- The pattern can be read. -/
def PathPatterns.Readable (pattern : Text) : Prop := ∃ p, PathPatterns.readOne pattern = .ok p

/-- The name is that of a severity. -/
def Severity.Named (name : Text) : Prop := ∃ s, Severity.ofName name = .ok s

/-- What a configuration says about a check can be used. -/
structure CheckSettings.Usable (s : CheckSettings) : Prop where
  severity : ∀ name ∈ s.severity, Severity.Named name
  ignore : ∀ pattern ∈ s.ignore.getD [], PathPatterns.Readable pattern

/-- **Patterns can be read together if each of them can.** -/
theorem PathPatterns.exists_read {patterns : List Text}
    (h : ∀ pattern ∈ patterns, PathPatterns.Readable pattern) : ∃ ps, PathPatterns.read patterns = .ok ps := by
  induction patterns with
  | nil => exact ⟨[], rfl⟩
  | cons pattern rest ih =>
    obtain ⟨p, hp⟩ := h pattern (List.mem_cons_self ..)
    obtain ⟨ps, hps⟩ := ih fun other hother => h other (List.mem_cons_of_mem _ hother)
    refine ⟨p :: ps, ?_⟩
    simp only [PathPatterns.read] at hps ⊢
    rw [List.mapM_cons, hp, hps]
    rfl

namespace Config

section Findings

variable (field : Text)

theorem wordFinding_eq_nil_iff {what : Text} {allowed : List Text} {word : Text} :
    wordFinding field what allowed word = [] ↔ word = [] ∨ word ∈ allowed := by
  have hor : (word.isEmpty || allowed.contains word) = true ↔ word = [] ∨ word ∈ allowed := by simp
  rw [← hor, wordFinding]
  split
  · rename_i hallowed
    exact iff_of_true rfl hallowed
  · rename_i hrefused
    exact iff_of_false (List.cons_ne_nil _ _) hrefused

theorem patternFindings_eq_nil_iff {patterns : List Text} :
    patternFindings field patterns = [] ↔ ∀ pattern ∈ patterns, PathPatterns.Readable pattern := by
  rw [patternFindings, List.flatMap_eq_nil_iff]
  constructor
  · intro h pattern hpattern
    obtain ⟨i, hi, rfl⟩ := List.mem_iff_getElem.1 hpattern
    have hfinding := h (patterns[i], i) (List.mem_zipIdx_iff_getElem?.2 (List.getElem?_eq_getElem hi))
    dsimp only at hfinding
    split at hfinding
    · rename_i p hp
      exact ⟨p, hp⟩
    · cases hfinding
  · rintro h ⟨pattern, i⟩ hmem
    obtain ⟨p, hp⟩ := h pattern (List.mem_of_getElem? (List.mem_zipIdx_iff_getElem?.1 hmem))
    simp [hp]

theorem severityFinding_eq_nil_iff {severity : Option Text} :
    severityFinding field severity = [] ↔ ∀ name ∈ severity, Severity.Named name := by
  cases severity with
  | none => simp [severityFinding]
  | some name =>
    simp only [severityFinding, Option.map_some, Option.mem_some_iff, forall_eq', Severity.Named]
    cases hname : Severity.ofName name with
    | ok s => simp
    | error e => simp

end Findings

/-- Every word, number and pattern of the configuration can be used. -/
structure Usable (c : Config) : Prop where
  baseline : c.baseline = [] ∨ c.baseline ∈ [("default" : Text), "nothing"]
  format : c.format = [] ∨ c.format ∈ [("text" : Text), "json", "diff"]
  jobs : 0 ≤ c.jobs
  mode : c.backups.mode = [] ∨ c.backups.mode ∈ [("sidecar" : Text), "none"]
  ignore : ∀ pattern ∈ c.ignore.getD [], PathPatterns.Readable pattern
  checks : ∀ e ∈ c.checks.entries, e.2.Usable

/-- **Validation accepts exactly the configurations that can be used.** -/
theorem isValid_iff {c : Config} {known : Option Registry} :
    (c.validate known).isValid = true ↔ c.Usable := by
  have hjobs : (if c.jobs < 0 then
      [({ field := "jobs", message := "jobs must be >= 0 (0 means auto)" } : Finding)] else []) = [] ↔
      0 ≤ c.jobs := by
    split
    · rename_i hneg
      exact iff_of_false (List.cons_ne_nil _ _) (Int.not_le.2 hneg)
    · rename_i hpos
      exact iff_of_true rfl (Int.not_lt.1 hpos)
  rw [Validation.isValid, List.isEmpty_iff]
  simp only [validate, List.append_eq_nil_iff, wordFinding_eq_nil_iff, hjobs, patternFindings_eq_nil_iff,
    List.flatMap_eq_nil_iff, severityFinding_eq_nil_iff]
  constructor
  · rintro ⟨⟨⟨⟨⟨hbaseline, hformat⟩, hjobs⟩, hmode⟩, hignore⟩, hchecks⟩
    exact ⟨hbaseline, hformat, hjobs, hmode, hignore, fun e he => ⟨(hchecks e he).1, (hchecks e he).2⟩⟩
  · intro h
    exact ⟨⟨⟨⟨⟨h.baseline, h.format⟩, h.jobs⟩, h.mode⟩, h.ignore⟩,
      fun e he => ⟨(h.checks e he).severity, (h.checks e he).ignore⟩⟩

/-! ## What a run does with its configuration -/

namespace Usable

variable {c : Config}

/-- The section of a check is one of those that were validated. -/
theorem settings (h : c.Usable) {code : Text} {s : CheckSettings} (hs : c.checks.get? code = some s) :
    s.Usable := by
  obtain ⟨front, back, hentries, -⟩ := List.lookup_eq_some_iff.1 hs
  refine h.checks (code, s) ?_
  rw [hentries]
  exact List.mem_append_right _ (List.mem_cons_self ..)

theorem exists_severityOf (h : c.Usable) (code : Text) : ∃ s, Run.severityOf c code = .ok s := by
  simp only [Run.severityOf, severity?]
  cases hsettings : c.checks.get? code with
  | none => exact ⟨none, rfl⟩
  | some settings =>
    cases hseverity : settings.severity with
    | none => exact ⟨none, by simp [hseverity]⟩
    | some name =>
      obtain ⟨s, hs⟩ := (h.settings hsettings).severity name hseverity
      exact ⟨some s, by simp [hseverity, hs]⟩

theorem exists_patternsOf (h : c.Usable) (code : Text) : ∃ ps, Run.patternsOf c code = .ok ps := by
  have hreadable : ∀ pattern ∈ (c.ignore? code).getD [], PathPatterns.Readable pattern := by
    rw [ignore?]
    cases hsettings : c.checks.get? code with
    | none => exact fun _ hnil => absurd hnil List.not_mem_nil
    | some settings => exact (h.settings hsettings).ignore
  obtain ⟨ps, hps⟩ := PathPatterns.exists_read hreadable
  exact ⟨ps, by simp [Run.patternsOf, hps]⟩

/-- The settings of any checks can be read, also of those that the configuration says nothing about. -/
theorem exists_settingsOf (h : c.Usable) (codes : List Text) : ∃ t, Run.settingsOf c codes = .ok t := by
  induction codes with
  | nil => exact ⟨({}, {}), rfl⟩
  | cons code rest ih =>
    obtain ⟨s, hs⟩ := h.exists_severityOf code
    obtain ⟨ps, hps⟩ := h.exists_patternsOf code
    obtain ⟨⟨severities, ignores⟩, ht⟩ := ih
    rw [Run.settingsOf, hs, hps, ht]
    exact ⟨_, rfl⟩

theorem exists_selection (h : c.Usable) : ∃ s, Selection.ofConfig c = .ok s := by
  obtain ⟨ps, hps⟩ := PathPatterns.exists_read h.ignore
  exact ⟨⟨ps⟩, by simp [Selection.ofConfig, hps]⟩

theorem exists_analyzerOptions (h : c.Usable) (r : Registry) (s : Selection) :
    ∃ o, Run.analyzerOptions c r s = .ok o := by
  obtain ⟨⟨severities, ignores⟩, ht⟩ := h.exists_settingsOf r.codes
  rw [Run.analyzerOptions, ht]
  exact ⟨_, rfl⟩

/-- The form of the report is the one that is named, and text if none is. -/
theorem exists_format (h : c.Usable) : ∃ f, Report.Format.parse c.format = .ok f ∧
    (f.name = c.format ∨ c.format = [] ∧ f = .text) := by
  rcases h.format with hempty | hnamed
  · exact ⟨.text, by simp [Report.Format.parse, hempty], .inr ⟨hempty, rfl⟩⟩
  · simp only [List.mem_cons, List.not_mem_nil, or_false] at hnamed
    rcases hnamed with hname | hname | hname
    · exact ⟨.text, by rw [hname]; rfl, .inl hname.symm⟩
    · exact ⟨.json, by rw [hname]; rfl, .inl hname.symm⟩
    · exact ⟨.diff, by rw [hname]; rfl, .inl hname.symm⟩

end Usable

/-! ## Loading -/

theorem failure?_eq_none_iff {v : Validation} : v.failure? = none ↔ v.isValid = true := by
  simp [Validation.failure?, Validation.isValid]

/-- What is finished was validated. -/
theorem isValid_of_finish {r : Registry} {o : LoadOptions} {before l : Loaded} {c : Config}
    (h : finish r o before c = .ok l) : (l.config.validate (some r)).isValid = true := by
  simp only [finish] at h
  split at h
  · cases h
  · rename_i hnone
    obtain rfl := Except.ok.inj h
    exact failure?_eq_none_iff.1 hnone

/-- **What was loaded can be used**: the layers were put together before they were validated. -/
theorem usable_of_load {d : Disk} {env : Table Text} {r : Registry} {cancelled : Bool} {o : LoadOptions}
    {l : Loaded} (h : load d env r cancelled o = .ok l) : l.config.Usable := by
  simp only [load] at h
  split at h
  · cases h
  · split at h
    · cases h
    · split at h
      · cases h
      · exact isValid_iff.1 (isValid_of_finish h)

end Config

namespace Run

open Config

/-- **A configuration that was validated does not fail at run time.**  Whatever the validation took for the
known checks and whatever checks a run has: the files to leave alone and the way the checks are run can be
told from the configuration, so that the run has a plan, and its format is that of a report. -/
theorem plan_of_isValid {c : Config} {known : Option Registry} (h : (c.validate known).isValid = true) :
    (∃ s, Selection.ofConfig c = .ok s) ∧
      (∀ r s, ∃ o, analyzerOptions c r s = .ok o) ∧
      (∀ o : Options, o.config = c → ∃ p, plan o = .ok p) ∧
      ∃ f, Report.Format.parse c.format = .ok f := by
  have husable := isValid_iff.1 h
  obtain ⟨s, hs⟩ := husable.exists_selection
  obtain ⟨f, hf, -⟩ := husable.exists_format
  refine ⟨⟨s, hs⟩, husable.exists_analyzerOptions, ?_, ⟨f, hf⟩⟩
  rintro o rfl
  obtain ⟨a, ha⟩ := husable.exists_analyzerOptions o.registry s
  refine ⟨⟨o, s, a⟩, ?_⟩
  rw [plan, hs]
  dsimp only
  rw [ha]

/-- A configuration with sections for a check that is known and for one that is not. -/
def sectionedConfig : Config where
  baseline := "nothing"
  format := "json"
  ignore := some ["node_modules/**", "./app/[a-c]*.js"]
  checks := .ofList
    [("SpaceInsideBraces", { enabled := some true, severity := some " Style", ignore := some ["*.min.liquid"] }),
      ("LineLength", { severity := some "error" })]

theorem plan_of_isValid_sections :
    (sectionedConfig.validate (some Rule.registry)).isValid = true ∧
      (∃ s, Selection.ofConfig sectionedConfig = .ok s) ∧
      (∀ r s, ∃ o, analyzerOptions sectionedConfig r s = .ok o) ∧
      (∀ o : Options, o.config = sectionedConfig → ∃ p, plan o = .ok p) ∧
      ∃ f, Report.Format.parse sectionedConfig.format = .ok f := by
  have hvalid : (sectionedConfig.validate (some Rule.registry)).isValid = true := by decide +kernel
  exact ⟨hvalid, plan_of_isValid hvalid⟩

end Run
end LiquidLint
