import LiquidLint.Proofs.CheckIsolation
import LiquidLint.Proofs.LogicalNames
import LiquidLint.Proofs.ReferencePlaces
import LiquidLint.Proofs.SubsetRuns

/-!
# What the cross-file checks report

At the end of a run the checks of references know the facts of each template that was read, whichever of
them were visited (`entries_index`).  So the check for missing templates reports each tag that names a
template by a literal when no path has that name (`missingReports_eq`), and the check for unused partials
each partial of the application that no tag names (`unusedReports_eq`), or nothing when some tag names a
template by an expression.  Nothing that a check reports is lost in a run where it is asked and heeded
(`Analyzer.Heeds`), and nothing is added, so these reports are all that a run finds with the checks
(`cross_file_exact`).
-/

namespace LiquidLint

open Source Store Analysis

namespace Rule.Reference

open Liquid

/-! ## What is known at the end of a run -/

/-- The templates among the files. -/
def templatesOf (files : List SourceFile) : List SourceFile :=
  files.filter fun f => f.info.category = .liquid

section Known

variable {files : List SourceFile}

theorem lookup_templatesOf (files : List SourceFile) (path : Text) :
    ((templatesOf files).map fun f => (f.path, Facts.of f)).lookup path = factsAt files path := by
  unfold templatesOf factsAt
  induction files with
  | nil => rfl
  | cons f rest ih =>
    rw [List.filter_cons]
    by_cases hliquid : f.info.category = .liquid
    · rw [if_pos (decide_eq_true hliquid), List.map_cons, List.lookup_cons]
      by_cases hpath : f.path = path
      · rw [List.find?_cons_of_pos (by simp [hpath, hliquid]), hpath, beq_self_eq_true]
        rfl
      · rw [List.find?_cons_of_neg (by simp [hpath]), beq_eq_false_iff_ne.2 (Ne.symm hpath)]
        exact ih
    · rw [if_neg (by simpa using hliquid), List.find?_cons_of_neg (by simp [hliquid])]
      exact ih

/-- **What is known at the end of a run** are the facts of the templates, in the order of their paths. -/
theorem entries_index {v : ProjectView}
    (hsorted : v.files.Pairwise fun f g => Text.Precedes f.path g.path) :
    (index [] v).entries = (templatesOf v.files).map fun f => (f.path, Facts.of f) := by
  have hordered : Table.Ordered ⟨(templatesOf v.files).map fun f => (f.path, Facts.of f)⟩ :=
    List.pairwise_map.2 (hsorted.filter _)
  refine congrArg Table.entries ((ordered_index [] v).ext hordered fun path => ?_)
  have hnone : (collected []).get? path = none := rfl
  rw [index, get?_completed, hnone, Option.none_or]
  exact (lookup_templatesOf v.files path).symm

end Known

/-! ## Missing templates -/

/-- Some path has the logical name for files of that kind. -/
def Defined (paths : List Text) (kind : Project.Kind) (name : Text) : Prop :=
  ∃ path ∈ paths, (Project.classify path).kind = kind ∧ (Project.classify path).name = name

instance (paths : List Text) (kind : Project.Kind) (name : Text) : Decidable (Defined paths kind name) :=
  List.decidableBEx _ _

/-- The report on a tag of the file, if it names a template by a literal and there is none. -/
def missing? (paths : List Text) (f : SourceFile) (h : Head) : Option ProjectReport :=
  (referencedTemplate? h).bind fun r =>
    if Defined paths (targetKind h.name) r.name then none
    else some ⟨some f, { message := "'" ++ r.name ++ "' is not found", range := some ⟨r.start, r.stop⟩ }⟩

/-- What the references are held against is what the paths define. -/
theorem not_defined_iff {paths : List Text} {tag name : Text} :
    (name = [] || !(paths.map fun p =>
      ((Project.classify p).kind, (Project.classify p).name)).contains (targetKind tag, name)) = true ↔
      ¬ Defined paths (targetKind tag) name := by
  have hkind : targetKind tag = .partialTemplate ∨ targetKind tag = .form := by
    unfold targetKind
    split
    · exact .inr rfl
    · exact .inl rfl
  have hmem : (targetKind tag, name) ∈ (paths.map fun p =>
      ((Project.classify p).kind, (Project.classify p).name)) ↔ Defined paths (targetKind tag) name := by
    unfold Defined
    simp only [List.mem_map, Prod.mk.injEq]
  rw [Bool.or_eq_true, decide_eq_true_eq, Bool.not_eq_true', ← Bool.not_eq_true, List.contains_iff_mem, hmem,
    or_iff_right_iff_imp]
  -- no path has the empty name
  rintro rfl ⟨path, _, hpath, hname⟩
  exact Project.name_ne_nil (by rwa [hpath]) hname

/-- Places that are all different are reported once each. -/
theorem eraseDupsBy_eq_self {α : Type} {r : α → α → Bool} {l : List α}
    (h : l.Pairwise fun a b => r b a = false) : l.eraseDupsBy r = l := by
  induction l with
  | nil => rfl
  | cons a rest ih =>
    obtain ⟨hfirst, hrest⟩ := List.pairwise_cons.1 h
    rw [List.eraseDupsBy_cons, List.filter_eq_self.2 fun b hb => by simpa using hfirst b hb, ih hrest]

/-- **A missing template is reported once for each tag that names it.** -/
theorem missingReports_eq {known : Table Facts} {fs : List SourceFile} (paths : List Text)
    (hknown : known.entries = fs.map fun f => (f.path, Facts.of f))
    (hfs : ∀ f ∈ fs, Spacing.IsTemplate f) :
    missingReports known paths = fs.flatMap fun f => (tagHeads f).filterMap (missing? paths f) := by
  unfold missingReports
  rw [hknown, List.flatMap_map]
  refine List.flatMap_congr fun f hf => ?_
  dsimp only [Facts.of]
  rw [eraseDupsBy_eq_self]
  · unfold references
    rw [List.filter_filterMap, List.map_filterMap]
    refine List.filterMap_congr fun h _ => ?_
    unfold missing?
    cases referencedTemplate? h with
    | none => rfl
    | some r =>
      have hiff := @not_defined_iff paths h.name r.name
      dsimp only [Option.map_some, Option.bind_some]
      by_cases hdefined : Defined paths (targetKind h.name) r.name
      · rw [if_pos hdefined, Option.filter_some, if_neg fun hmissing => hiff.1 hmissing hdefined]
        rfl
      · rw [if_neg hdefined, Option.filter_some, if_pos (hiff.2 hdefined)]
        rfl
  · refine ((pairwise_references (hfs f hf)).sublist List.filter_sublist).imp fun {r s} hlt => ?_
    exact decide_eq_false (ne_of_gt hlt)

/-! ## Unused partials -/

/-- Some tag of the file names a partial of that name by a literal. -/
def Mentions (f : SourceFile) (name : Text) : Prop :=
  ∃ h ∈ tagHeads f, targetKind h.name = .partialTemplate ∧ (referencedTemplate? h).map (·.name) = some name

instance (f : SourceFile) (name : Text) : Decidable (Mentions f name) := List.decidableBEx _ _

/-- Some tag of the file refers to a template, but not by a literal. -/
def NamesByExpression (f : SourceFile) : Prop :=
  ∃ h ∈ tagHeads f, h.name ∈ referringTags ∧ referencedTemplate? h = none

theorem isDynamic_iff {f : SourceFile} : isDynamic f = true ↔ NamesByExpression f := by
  unfold isDynamic NamesByExpression
  simp only [List.any_eq_true, Bool.and_eq_true, List.contains_iff_mem, Option.isNone_iff_eq_none]

instance (f : SourceFile) : Decidable (NamesByExpression f) := decidable_of_iff _ isDynamic_iff

/-- The file is a partial of the application itself, and none of the templates mentions it. -/
def IsUnused (fs : List SourceFile) (f : SourceFile) : Prop :=
  f.info.kind = .partialTemplate ∧ f.info.module = [] ∧ ¬ ∃ g ∈ fs, Mentions g f.info.name

instance (fs : List SourceFile) (f : SourceFile) : Decidable (IsUnused fs f) :=
  inferInstanceAs (Decidable (_ ∧ _ ∧ ¬ _))

/-- The partials that are in use are those that some template mentions. -/
theorem mem_used_iff {fs : List SourceFile} {name : Text} :
    name ∈ ((fs.flatMap references).filterMap fun r =>
      if r.kind = .partialTemplate then some r.name else none) ↔ ∃ g ∈ fs, Mentions g name := by
  constructor
  · intro hmem
    obtain ⟨reference, hreference, hname⟩ := List.mem_filterMap.1 hmem
    obtain ⟨g, hg, hreference⟩ := List.mem_flatMap.1 hreference
    obtain ⟨h, hh, hsome⟩ := List.mem_filterMap.1 hreference
    obtain ⟨r, hr, rfl⟩ := Option.map_eq_some_iff.1 hsome
    split at hname
    · rename_i hkind
      refine ⟨g, hg, h, hh, hkind, ?_⟩
      rw [hr]
      exact hname
    · exact nomatch hname
  · rintro ⟨g, hg, h, hh, hkind, hname⟩
    obtain ⟨r, hr, rfl⟩ := Option.map_eq_some_iff.1 hname
    refine List.mem_filterMap.2 ⟨⟨targetKind h.name, r.name, ⟨r.start, r.stop⟩⟩, ?_, if_pos hkind⟩
    refine List.mem_flatMap.2 ⟨g, hg, List.mem_filterMap.2 ⟨h, hh, ?_⟩⟩
    rw [hr]
    rfl

/-- The report on a partial that nothing refers to. -/
def unusedReport (f : SourceFile) : ProjectReport := ⟨some f, { message := "This partial is not used" }⟩

/-- **A partial is reported when no template mentions it**, unless some template is named by an
expression. -/
theorem unusedReports_eq {known : Table Facts} {files : List SourceFile}
    (hknown : known.entries = (templatesOf files).map fun f => (f.path, Facts.of f)) :
    unusedReports known files =
      if ∃ g ∈ templatesOf files, NamesByExpression g then []
      else ((templatesOf files).filter fun f => IsUnused (templatesOf files) f).map unusedReport := by
  have hdynamic : (known.entries.any fun e => e.2.dynamic) = true ↔
      ∃ g ∈ templatesOf files, NamesByExpression g := by
    rw [hknown, List.any_map, List.any_eq_true]
    exact exists_congr fun g => and_congr_right fun _ => isDynamic_iff
  unfold unusedReports
  by_cases hany : ∃ g ∈ templatesOf files, NamesByExpression g
  · rw [if_pos (hdynamic.2 hany), if_pos hany]
  · rw [if_neg fun h => hany (hdynamic.1 h), if_neg hany]
    dsimp only
    have hreferences : (known.entries.flatMap fun e => e.2.references) =
        (templatesOf files).flatMap references := by
      rw [hknown, List.flatMap_map]
      rfl
    have hkept (f : SourceFile) : (isOwnPartial f && !((known.entries.flatMap fun e =>
        e.2.references).filterMap fun r =>
          if r.kind = .partialTemplate then some r.name else none).contains f.info.name) =
        (decide (f.info.category = .liquid) && decide (IsUnused (templatesOf files) f)) := by
      rw [hreferences, Bool.eq_iff_iff, Bool.and_eq_true, Bool.and_eq_true, decide_eq_true_iff,
        decide_eq_true_iff, Bool.not_eq_true', ← Bool.not_eq_true, List.contains_iff_mem, mem_used_iff]
      unfold isOwnPartial IsUnused
      simp only [Bool.and_eq_true, decide_eq_true_eq]
      tauto
    have htemplates : (templatesOf files).filter (fun f => IsUnused (templatesOf files) f) =
        files.filter fun f =>
          decide (f.info.category = .liquid) && decide (IsUnused (templatesOf files) f) := by
      conv_lhs => rw [templatesOf, List.filter_filter]
      exact List.filter_congr fun f _ => Bool.and_comm ..
    rw [htemplates, List.filter_congr fun f _ => hkept f]
    rfl

end Rule.Reference

/-! ## What is raised -/

namespace Analysis

/-- The offense of a check at a place of a file. -/
def offenseAt (o : AnalyzerOptions) (info : CheckInfo) (f : SourceFile) (message : Text)
    (place : Range) : Offense :=
  { code := info.code
    severity := (o.severities.get? info.code).getD info.severity
    message
    path := f.path
    version := f.version
    start := f.position place.start
    stop := f.position place.stop }

section Raised

variable {o : AnalyzerOptions} {parsed : List ParsedFile}

/-- A report that is neither ignored nor disabled is raised. -/
theorem raise?_heeded {info : CheckInfo} {f : SourceFile} {r : Report}
    (hignore : o.ignore info.code f.path = false)
    (hcovers : ∀ p ∈ parsed, ∀ offset, p.suppressions.covers info.code offset = false)
    (hseverity : r.severity = none) (hfix : r.fix = none) :
    raise? o parsed info f r = some (offenseAt o info f r.message r.place, none) := by
  have hdisabled : ((parsed.find? fun p => p.file.path = f.path).any fun p =>
      p.suppressions.covers info.code r.place.start) = false := by
    cases hfound : parsed.find? fun p => p.file.path = f.path with
    | none => rfl
    | some p => exact hcovers p (List.mem_of_find?_eq_some hfound) _
  unfold raise?
  dsimp only
  rw [hignore, hdisabled, Bool.or_false, if_neg Bool.false_ne_true, hfix]
  unfold offenseAt severityOf
  rw [hseverity]
  rfl

/-- **Reports that are all there is to a reaction** are raised one by one. -/
theorem offenses_reports {ρ : Type} {raise : ρ → Option (Offense × Option PendingFix)} {code : Text}
    (rs : List ρ) :
    (Tally.react raise code none none (.reports rs) {}).offenses =
      rs.filterMap fun r => (raise r).map Prod.fst := by
  have heffects (t : Tally) : ((rs.map Effect.report).foldl (Tally.effect raise) t).offenses =
      t.offenses ++ rs.filterMap fun r => (raise r).map Prod.fst := by
    induction rs generalizing t with
    | nil => exact (List.append_nil _).symm
    | cons r rest ih =>
      rw [List.map_cons, List.foldl_cons, ih, List.filterMap_cons]
      unfold Tally.effect
      dsimp only
      cases raise r with
      | none => rfl
      | some raised => exact List.append_assoc ..
  exact heffects {}

/-- A check that is never heard in files raises nothing there. -/
theorem code_raisedAcross {code : Text} (hinternal : code ≠ internalErrorCode) {slots : List Slot}
    (hslots : ∀ s ∈ slots, s.check.info.code = code → ∀ past v, s.check.onVisit past v = {})
    (files : List SourceFile) :
    ∀ offense ∈ (raisedAcross o parsed files slots).offenses, offense.code ≠ code := by
  have hadditive := Tally.additive_offenses (·.code ≠ code)
  induction files generalizing slots with
  | nil => exact hadditive.empty
  | cons f rest ih =>
    refine hadditive.append (raisedIn_induction o parsed f hadditive fun s hs past _ m _ _ => ?_)
      (ih fun s hs => ?_)
    · by_cases hcode : s.check.info.code = code
      · rw [hslots s hs hcode]
        exact hadditive.empty
      · refine Tally.offenses_react (fun r offense fix hraise => ?_) fun _ => hinternal.symm
        rw [(raise?_code o parsed r offense fix hraise).1]
        exact hcode
    · obtain ⟨s', hs', rfl⟩ := List.mem_map.1 hs
      rw [Slot.check_visited]
      exact hslots s' hs'

/-- **On the project, the offenses of a check are those of its own slots.** -/
theorem code_raisedOn (view : ProjectView) {code : Text} (hinternal : code ≠ internalErrorCode)
    (slots : List Slot) :
    ((Tally.join (slots.map (Slot.raisedOn o parsed view))).offenses.filter fun x => x.code = code) =
      (Tally.join ((slots.filter (Slot.isOf code)).map
        (Slot.raisedOn o parsed view))).offenses.filter fun x => x.code = code := by
  induction slots with
  | nil => rfl
  | cons s rest ih =>
    rw [List.map_cons, Tally.join_cons, Tally.offenses_append, List.filter_append, ih, List.filter_cons]
    split
    · rw [List.map_cons, Tally.join_cons, Tally.offenses_append, List.filter_append]
    · rename_i hother
      have hnone : (Slot.raisedOn o parsed view s).offenses.filter (fun x => x.code = code) = [] := by
        refine List.filter_eq_nil_iff.2 fun offense hoffense => ?_
        rw [decide_eq_true_iff]
        revert offense
        unfold Slot.raisedOn
        cases s.check.onProject with
        | none => exact nofun
        | some react =>
          refine Tally.offenses_react (fun r offense fix hraise => ?_) fun _ => hinternal.symm
          rw [(raiseReport?_code o parsed r offense fix hraise).1]
          exact fun hcode => hother (decide_eq_true hcode)
      rw [hnone, List.nil_append]

end Raised

end Analysis

namespace Analyzer

open Rule Rule.Reference

/-- The templates that a run on the project reads, in the order of their paths. -/
def templates (a : Analyzer) : List SourceFile := templatesOf (a.view a.analysable).files

/-- The check is asked once, and nothing that it reports is ignored or disabled. -/
structure Heeds (a : Analyzer) (k : Check) : Prop where
  once : a.checks.filter (fun l => l.info.code = k.info.code) = [k]
  heeded : ∀ path, a.options.ignore k.info.code path = false
  enabled : ∀ p ∈ readable a.snapshot a.analysable, ∀ offset,
    p.suppressions.covers k.info.code offset = false

/-- The offense of a tag that names a template by a literal, if no path defines the template. -/
def missingOffense? (a : Analyzer) (f : SourceFile) (h : Liquid.Head) : Option Offense :=
  (Liquid.referencedTemplate? h).bind fun r =>
    if Defined a.snapshot.paths (targetKind h.name) r.name then none
    else some (offenseAt a.options missingTemplate.info f ("'" ++ r.name ++ "' is not found")
      ⟨r.start, r.stop⟩)

/-- The offense of a partial that is not used. -/
def unusedOffense (a : Analyzer) (f : SourceFile) : Offense :=
  offenseAt a.options unusedPartial.info f "This partial is not used" {}

section Exact

variable {a : Analyzer} {around : Surroundings} {chosen : List Text}

theorem isTemplate_of_mem {f : SourceFile} (hf : f ∈ a.templates) :
    Spacing.IsTemplate f := by
  obtain ⟨hmem, hliquid⟩ := List.mem_filter.1 hf
  obtain ⟨p, hp, rfl⟩ := List.mem_map.1 hmem
  obtain ⟨path, -, hok⟩ := mem_readable.1 hp
  obtain ⟨content, hfile, -⟩ := exists_of_parseOne hok
  rw [hfile] at hliquid ⊢
  exact Spacing.isTemplate_parse (of_decide_eq_true hliquid) _ _

/-- The files of a project stand in the order of their paths. -/
theorem pairwise_files (hsorted : a.snapshot.entries.Ordered) :
    (a.view a.analysable).files.Pairwise fun f g => Text.Precedes f.path g.path := by
  refine List.pairwise_map.2 ((pairwise_analysable hsorted).filterMap _ fun path path' hlt p hp q hq => ?_)
  have hread {path : Text} {p : ParsedFile} (hp : (parseOne a.snapshot path).toOption = some p) :
      p.file.path = path := by
    cases hparse : parseOne a.snapshot path with
    | error => rw [hparse] at hp; exact nomatch hp
    | ok p' =>
      rw [hparse] at hp
      rw [← Option.some.inj hp]
      exact path_of_parseOne hparse
  rw [hread hp, hread hq]
  exact hlt

/-- A path that cannot be read is reported under a code of its own. -/
theorem code_readFailures {s : Snapshot} {paths : List Text} {o : Offense}
    (h : o ∈ readFailures s paths) : o.code = storageErrorCode := by
  obtain ⟨path, -, ho⟩ := List.mem_filterMap.1 h
  cases hread : parseOne s path with
  | ok =>
    rw [hread] at ho
    exact nomatch ho
  | error f =>
    rw [hread] at ho
    rw [← Option.some.inj ho]
    rfl

/-- **What a run finds with a check that only looks at the project** is what the check reports on the
templates as they were read. -/
theorem raised_of_heeds {k : Check} (hk : k ∈ all) (hheeds : a.Heeds k)
    (hsilent : ∀ past v, k.onVisit past v = {}) {reports : List Visit → ProjectView → List ProjectReport}
    (hproject : k.onProject = some fun past v => .reports (reports past v))
    (hinternal : k.info.code ≠ internalErrorCode) (hstorage : k.info.code ≠ storageErrorCode)
    (hidle : a.stage = .idle) (hlive : around.cancelled = false)
    (hchecks : ∀ l ∈ a.checks, l.NeverCancels) {visited : List Text}
    (hvisited : ∀ path ∈ visited, path ∈ a.analysable) :
    ((a.analyze around visited a.analysable false).analyzer.findings.raised.filter
        fun o => o.code = k.info.code) =
      (reports [] (a.view a.analysable)).filterMap fun r =>
        (raiseReport? a.options (readable a.snapshot a.analysable) k.info r).map Prod.fst := by
  obtain ⟨-, hsingle, hfound, -⟩ := analyze_live visited a.analysable false hidle hlive hchecks
  have hslots : a.slots.filter (Slot.isOf k.info.code) = [{ check := k }] := by
    show (a.checks.map ({ check := · })).filter (Slot.isOf k.info.code) = [k].map ({ check := · })
    rw [List.filter_map, ← hheeds.once]
    rfl
  have hnone : (readFailures a.snapshot a.analysable ++
      (a.raisedInFiles visited a.analysable).offenses).filter (fun o => o.code = k.info.code) = [] := by
    refine List.filter_eq_nil_iff.2 fun offense hoffense => ?_
    rw [decide_eq_true_iff]
    rcases List.mem_append.1 hoffense with hfailed | hraised
    · rw [code_readFailures hfailed]
      exact hstorage.symm
    · refine code_raisedAcross hinternal (fun s hs hcode => ?_) _ offense hraised
      have hmem : s ∈ a.slots.filter (Slot.isOf k.info.code) :=
        List.mem_filter.2 ⟨hs, decide_eq_true hcode⟩
      rw [hslots] at hmem
      rw [List.mem_singleton.1 hmem]
      exact hsilent
  unfold Findings.raised
  rw [List.filter_append, hsingle, hnone, List.nil_append, hfound, if_neg Bool.false_ne_true]
  unfold raisedOnProject slotsAfter
  rw [code_raisedOn _ hinternal, filter_isOf_map (Slot.check_visitedAll _), hslots, List.map_singleton,
    List.map_singleton, raisedOn_eq _ _ hk rfl
    (distinct_readable _ _) (mem_view_of_visited hvisited), Tally.offenses_join,
    List.flatMap_singleton]
  unfold Slot.raisedOn
  rw [hproject]
  dsimp only
  rw [offenses_reports]
  refine List.filter_eq_self.2 fun offense hoffense => ?_
  obtain ⟨r, -, hraise⟩ := List.mem_filterMap.1 hoffense
  obtain ⟨⟨raised, fix⟩, hraised, rfl⟩ := Option.map_eq_some_iff.1 hraise
  exact decide_eq_true (raiseReport?_code _ _ r raised fix hraised).1

/-- A report on the place of a file is raised by a check that is heeded. -/
theorem raiseReport?_heeds {k : Check} (hheeds : a.Heeds k) (f : SourceFile) {r : Report}
    (hseverity : r.severity = none) (hfix : r.fix = none) :
    (raiseReport? a.options (readable a.snapshot a.analysable) k.info ⟨some f, r⟩).map Prod.fst =
      some (offenseAt a.options k.info f r.message r.place) := by
  show (raise? a.options (readable a.snapshot a.analysable) k.info f r).map Prod.fst = _
  rw [raise?_heeded (hheeds.heeded f.path) hheeds.enabled hseverity hfix]
  rfl

/-- What the templates say of themselves is known when the project is looked at. -/
theorem entries_index_view (hsorted : a.snapshot.entries.Ordered) :
    (index [] (a.view a.analysable)).entries = a.templates.map fun f => (f.path, Facts.of f) :=
  entries_index (pairwise_files hsorted)

/-- **The check for missing templates reports the literals that no path defines.** -/
theorem raised_missingTemplate (hheeds : a.Heeds missingTemplate) (hsorted : a.snapshot.entries.Ordered)
    (hidle : a.stage = .idle) (hlive : around.cancelled = false)
    (hchecks : ∀ l ∈ a.checks, l.NeverCancels) {visited : List Text}
    (hvisited : ∀ path ∈ visited, path ∈ a.analysable) :
    ((a.analyze around visited a.analysable false).analyzer.findings.raised.filter
        fun o => o.code = missingTemplate.info.code) =
      a.templates.flatMap fun f => (tagHeads f).filterMap (a.missingOffense? f) := by
  have hmissing : missingTemplate ∈ all := by simp [all]
  rw [raised_of_heeds hmissing hheeds (fun _ _ => rfl) rfl (by decide) (by decide) hidle hlive hchecks
    hvisited, missingReports_eq _ (entries_index_view hsorted) fun f hf => isTemplate_of_mem hf,
    List.filterMap_flatMap]
  refine List.flatMap_congr fun f _ => ?_
  rw [List.filterMap_filterMap]
  refine List.filterMap_congr fun h _ => ?_
  unfold missing? missingOffense?
  cases Liquid.referencedTemplate? h with
  | none => rfl
  | some r =>
    dsimp only [Option.bind_some]
    by_cases hdefined : Defined a.snapshot.paths (targetKind h.name) r.name
    · rw [if_pos hdefined]
      exact (congrArg (Option.bind · _) (if_pos hdefined)).trans rfl
    · rw [if_neg hdefined]
      refine (congrArg (Option.bind · _) (if_neg hdefined)).trans ?_
      exact raiseReport?_heeds hheeds f rfl rfl

/-- **The check for unused partials reports those that nothing mentions**, if no tag names a template by an
expression. -/
theorem raised_unusedPartial (hheeds : a.Heeds unusedPartial) (hsorted : a.snapshot.entries.Ordered)
    (hidle : a.stage = .idle) (hlive : around.cancelled = false)
    (hchecks : ∀ l ∈ a.checks, l.NeverCancels) {visited : List Text}
    (hvisited : ∀ path ∈ visited, path ∈ a.analysable) :
    ((a.analyze around visited a.analysable false).analyzer.findings.raised.filter
        fun o => o.code = unusedPartial.info.code) =
      if ∃ g ∈ a.templates, NamesByExpression g then []
      else (a.templates.filter fun f => IsUnused a.templates f).map a.unusedOffense := by
  have hunused : unusedPartial ∈ all := by simp [all]
  rw [raised_of_heeds hunused hheeds (fun _ _ => rfl) rfl (by decide) (by decide) hidle hlive hchecks
    hvisited, unusedReports_eq (entries_index_view hsorted)]
  by_cases hany : ∃ g ∈ a.templates, NamesByExpression g
  · rw [if_pos hany]
    exact (congrArg (List.filterMap _) (if_pos hany)).trans rfl
  · rw [if_neg hany]
    refine (congrArg (List.filterMap _) (if_neg hany)).trans ?_
    rw [List.filterMap_map]
    refine (List.filterMap_congr fun f _ => ?_).trans (congrFun List.filterMap_eq_map _)
    exact raiseReport?_heeds hheeds f rfl rfl

/-- **The cross-file checks are exact.**  Let a project be analysed, as a whole or some of the paths that
can be analysed.  The run succeeds.  If the check for missing templates is heeded, its offenses are those
of the tags of templates that were read which name a template by a literal that no path of the snapshot
defines.  If the check for unused partials is heeded, its offenses are those of the partials outside
modules which no tag of a template mentions, or none if some tag names a template by an expression. -/
theorem cross_file_exact (hidle : a.stage = .idle) (hsorted : a.snapshot.entries.Ordered)
    (hlive : around.cancelled = false) (hchecks : ∀ l ∈ a.checks, l.NeverCancels)
    (hchosen : ∀ path ∈ chosen, path ∈ a.analysable) :
    ∀ run ∈ [a.analyzeProject around, a.analyzeFiles around chosen false],
      run.outcome = .ok () ∧
        (a.Heeds missingTemplate →
          (run.analyzer.findings.raised.filter fun o => o.code = missingTemplate.info.code) =
            a.templates.flatMap fun f => (tagHeads f).filterMap (a.missingOffense? f)) ∧
        (a.Heeds unusedPartial →
          (run.analyzer.findings.raised.filter fun o => o.code = unusedPartial.info.code) =
            if ∃ g ∈ a.templates, NamesByExpression g then []
            else (a.templates.filter fun f => IsUnused a.templates f).map a.unusedOffense) := by
  have hrun : ∀ run ∈ [a.analyzeProject around, a.analyzeFiles around chosen false],
      ∃ visited, (∀ path ∈ visited, path ∈ a.analysable) ∧
        run = a.analyze around visited a.analysable false := by
    intro run hrun
    rcases List.mem_cons.1 hrun with rfl | hrun
    · exact ⟨a.analysable, fun _ h => h, rfl⟩
    · rw [List.mem_singleton.1 hrun, analyzeFiles_eq hsorted hchosen, if_neg Bool.false_ne_true]
      exact ⟨Text.sortDedup chosen, fun path h => hchosen path (Text.mem_sortDedup.1 h), rfl⟩
  intro run hmem
  obtain ⟨visited, hvisited, rfl⟩ := hrun run hmem
  refine ⟨(analyze_live visited a.analysable false hidle hlive hchecks).1, fun hheeds => ?_,
    fun hheeds => ?_⟩
  · exact raised_missingTemplate hheeds hsorted hidle hlive hchecks hvisited
  · exact raised_unusedPartial hheeds hsorted hidle hlive hchecks hvisited

/-- A project with a page that renders a partial and a template that is missing, a page that renders the
missing template again, and a partial that nothing renders. -/
def galleryAnalysis : Analyzer :=
  { snapshot :=
      ⟨⟨[("app/views/pages/a.liquid",
          { content := .loaded "\x7b% render 'card' %\x7d\x7b% render 'nav' %\x7d" }),
        ("app/views/pages/b.liquid", { content := .loaded "\x7b% render 'nav' %\x7d" }),
        ("app/views/partials/card.liquid", { content := .loaded "" }),
        ("app/views/partials/old.liquid", { content := .loaded "" })]⟩⟩
    checks := all }

/-- A run on one of the pages reports both references and the partial. -/
theorem cross_file_exact_gallery :
    galleryAnalysis.stage = .idle ∧ galleryAnalysis.snapshot.entries.Ordered ∧
      (∀ l ∈ galleryAnalysis.checks, l.NeverCancels) ∧
      ("app/views/pages/b.liquid" : Text) ∈ galleryAnalysis.analysable ∧
      galleryAnalysis.Heeds missingTemplate ∧ galleryAnalysis.Heeds unusedPartial ∧
      let found := (galleryAnalysis.analyzeFiles {} ["app/views/pages/b.liquid"] false).analyzer.findings
      (found.raised.filter fun o => o.code = missingTemplate.info.code).map
          (fun o => (o.path, o.message, o.start.column)) =
        ([("app/views/pages/a.liquid", "'nav' is not found", 29),
          ("app/views/pages/b.liquid", "'nav' is not found", 10)] : List (Text × Text × Int)) ∧
      (found.raised.filter fun o => o.code = unusedPartial.info.code).map (·.path) =
        (["app/views/partials/old.liquid"] : List Text) := by
  have hsorted : galleryAnalysis.snapshot.entries.Ordered := by
    unfold Table.Ordered
    decide
  have hpage : ("app/views/pages/b.liquid" : Text) ∈ galleryAnalysis.analysable := by decide +kernel
  have hchosen : ∀ path ∈ ([("app/views/pages/b.liquid" : Text)]), path ∈ galleryAnalysis.analysable := by
    intro path hpath
    rw [List.mem_singleton.1 hpath]
    exact hpage
  have hchecks : ∀ l ∈ galleryAnalysis.checks, l.NeverCancels := fun _ hl => neverCancels_of_mem_all hl
  -- none of the templates has a comment
  have hquiet : ∀ p ∈ readable galleryAnalysis.snapshot galleryAnalysis.analysable,
      ∀ code offset, p.suppressions.covers code offset = false := by
    have hnone : ∀ p ∈ readable galleryAnalysis.snapshot galleryAnalysis.analysable,
        p.suppressions.regions = [] := by decide +kernel
    intro p hp code offset
    unfold Suppressions.covers
    rw [hnone p hp]
    rfl
  have hmissing : galleryAnalysis.Heeds missingTemplate :=
    ⟨rfl, fun _ => rfl, fun p hp => hquiet p hp _⟩
  have hunused : galleryAnalysis.Heeds unusedPartial :=
    ⟨rfl, fun _ => rfl, fun p hp => hquiet p hp _⟩
  obtain ⟨-, hfirst, hsecond⟩ := @cross_file_exact galleryAnalysis {} _ rfl hsorted rfl hchecks hchosen _
    (List.mem_cons_of_mem _ (List.mem_singleton_self _))
  refine ⟨rfl, hsorted, hchecks, hpage, hmissing, hunused, ?_⟩
  dsimp only
  rw [hfirst hmissing, hsecond hunused]
  decide +kernel

end Exact
end Analyzer
end LiquidLint
