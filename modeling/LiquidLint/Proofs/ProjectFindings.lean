import LiquidLint.Proofs.CompleteRuns
import LiquidLint.Proofs.RunOrder
import LiquidLint.Proofs.SubsetRuns

/-!
# Where a run finds something

A run finds offenses in the files that it read (`single_of_ok`), and in the project where its checks say
so.  A check that keeps to the project reports on files that it was shown, or on none
(`Check.KeepsToProject`); then an offense of the project is about a file that was read, or stands at the
path of no file (`project_of_ok`).  All built-in checks keep to the project, and they name a file in each
report (`Check.NamesFiles`).

The offenses that a session keeps of a path are those of the file and those of the project, sorted.  These
are what the run found of the path when all offenses are sorted first (`offenses_resultAt`).
-/

namespace LiquidLint

open Source Store Analysis

/-! ## Offenses in order -/

namespace Offense

/-- The order of offenses by one of their fields. -/
def orderBy {α : Type} (field : Offense → α) (order : α → α → Ordering) (a b : Offense) : Ordering :=
  order (field a) (field b)

instance {α : Type} (field : Offense → α) (order : α → α → Ordering) [Std.TransCmp order] :
    Std.TransCmp (orderBy field order) :=
  transCmp_on field order

instance : Std.TransCmp order :=
  inferInstanceAs (Std.TransCmp <|
    compareLex (orderBy path Text.order) <| compareLex (orderBy (·.start.line) compare) <|
    compareLex (orderBy (·.start.column) compare) <| compareLex (orderBy message Text.order) <|
    compareLex (orderBy code Text.order) <| compareLex (orderBy (·.stop.offset) compare) <|
    compareLex (orderBy (·.severity.rank) compare) <| compareLex (orderBy version compare) <|
    orderBy correctable compare)

theorem le_iff (a b : Offense) : le a b = true ↔ (order a b).isLE = true :=
  bne_iff_ne.trans Ordering.isLE_iff_ne_gt.symm

theorem le_trans (a b c : Offense) (hab : le a b = true) (hbc : le b c = true) : le a c = true := by
  rw [le_iff] at hab hbc ⊢
  exact Std.TransCmp.isLE_trans hab hbc

theorem le_total (a b : Offense) : (le a b || le b a) = true := by
  have hswap : order b a = (order a b).swap := Std.OrientedCmp.eq_swap
  rw [Bool.or_eq_true, le_iff, le_iff, hswap]
  cases order a b <;> decide

/-- A list falls apart where its elements stop having a property. -/
theorem takeWhile_append_of_stops {α : Type} {p : α → Bool} {l r : List α} (hl : ∀ b ∈ l, p b = true)
    (hr : ∀ b ∈ r, ¬ p b = true) : (l ++ r).takeWhile p = l := by
  rw [List.takeWhile_append_of_pos hl]
  cases r with
  | nil => exact List.append_nil l
  | cons b more =>
    rw [List.takeWhile_cons_of_neg (hr b (List.mem_cons_self ..)), List.append_nil]

/-- **Sorting offenses leaves some of them as sorting these alone does.** -/
theorem filter_sort (keeps : Offense → Bool) (os : List Offense) :
    (sort os).filter keeps = sort (os.filter keeps) := by
  induction os with
  | nil => rw [List.filter_nil, sort, List.mergeSort_nil, List.filter_nil]
  | cons o rest ih =>
    -- what follows the offense in order does not stand before it
    have hfollows {os before after : List Offense} (hsorted : sort (o :: os) = before ++ o :: after) :
        ∀ b ∈ after, ¬ (!le o b) = true := by
      intro b hb
      have hpairs := List.pairwise_mergeSort le_trans le_total (o :: os)
      rw [show (o :: os).mergeSort le = before ++ o :: after from hsorted] at hpairs
      rw [(List.pairwise_cons.1 (List.pairwise_append.1 hpairs).2.1).1 b hb]
      exact Bool.false_ne_true
    obtain ⟨before, after, hsorted, hrest, hbefore⟩ := List.mergeSort_cons le_trans le_total o rest
    have hkept : before.filter keeps ++ after.filter keeps = sort (rest.filter keeps) := by
      rw [← List.filter_append, ← hrest]
      exact ih
    rw [sort, hsorted, List.filter_append, List.filter_cons, List.filter_cons]
    by_cases hkeeps : keeps o = true
    · obtain ⟨before', after', hsorted', hrest', hbefore'⟩ :=
        List.mergeSort_cons le_trans le_total o (rest.filter keeps)
      have hsame : before.filter keeps ++ after.filter keeps = before' ++ after' := hkept.trans hrest'
      have hfirst : before.filter keeps = before' := by
        rw [← takeWhile_append_of_stops hbefore' (hfollows hsorted'), ← hsame]
        refine (takeWhile_append_of_stops (fun b hb => ?_) fun b hb => ?_).symm
        · exact hbefore b (List.mem_filter.1 hb).1
        · exact hfollows hsorted b (List.mem_filter.1 hb).1
      rw [if_pos hkeeps, if_pos hkeeps, sort, hsorted', hfirst]
      rw [hfirst] at hsame
      rw [List.append_cancel_left hsame]
    · rw [if_neg hkeeps, if_neg hkeeps]
      exact hkept

end Offense

/-! ## Checks and the files that they report on -/

/-- A check that looks at a project reports on the files that it is shown or was called for before, or on
no file. -/
def Check.KeepsToProject (k : Check) : Prop :=
  ∀ react, k.onProject = some react → ∀ past view r, .report r ∈ (react past view).effects →
    ∀ f, r.file = some f → f ∈ view.files ∨ ∃ v ∈ past, v.file = f

/-- A check that looks at a project names a file in each report, and does not break down. -/
def Check.NamesFiles (k : Check) : Prop :=
  ∀ react, k.onProject = some react → ∀ past view, (react past view).crash = none ∧
    ∀ r, .report r ∈ (react past view).effects → r.file.isSome

namespace Rule

open Reference

/-- The facts that a check of references has are about files that it was shown or called for. -/
theorem file_of_mem_index {past : List Visit} {view : ProjectView} {e : Text × Facts}
    (he : e ∈ (index past view).entries) : e.2.file ∈ view.files ∨ ∃ v ∈ past, v.file = e.2.file := by
  have hfacts := (ordered_index past view).mem_entries.1 (show (e.1, e.2) ∈ _ from he)
  unfold index at hfacts
  rw [get?_completed, Option.or_eq_some_iff] at hfacts
  rcases hfacts with hcollected | ⟨-, hshown⟩
  · right
    clear he
    unfold collected at hcollected
    induction past with
    | nil => exact nomatch hcollected
    | cons v rest ih =>
      have hrest (h : (collected rest).get? e.1 = some e.2) : ∃ u ∈ v :: rest, u.file = e.2.file := by
        obtain ⟨u, hu, hfile⟩ := ih h
        exact ⟨u, List.mem_cons_of_mem _ hu, hfile⟩
      rw [List.foldr_cons] at hcollected
      cases v with
      | node => exact hrest hcollected
      | endFile f =>
        rw [Table.get?_insert] at hcollected
        split at hcollected
        · rw [← Option.some.inj hcollected]
          exact ⟨.endFile f, List.mem_cons_self .., rfl⟩
        · exact hrest hcollected
  · left
    obtain ⟨f, hf, hof⟩ := Option.map_eq_some_iff.1 hshown
    rw [← hof]
    exact List.mem_of_find?_eq_some hf

/-- The check for missing templates reports on files whose facts it has. -/
theorem file_missingReports {known : Table Facts} {paths : List Text} {r : ProjectReport}
    (h : r ∈ missingReports known paths) : ∃ e ∈ known.entries, r.file = some e.2.file := by
  obtain ⟨e, he, hr⟩ := List.mem_flatMap.1 h
  obtain ⟨reference, -, rfl⟩ := List.mem_map.1 hr
  exact ⟨e, he, rfl⟩

/-- The check for unused partials reports on files that it is shown. -/
theorem file_unusedReports {known : Table Facts} {files : List SourceFile} {r : ProjectReport}
    (h : r ∈ unusedReports known files) : ∃ f ∈ files, r.file = some f := by
  unfold unusedReports at h
  split at h
  · exact nomatch h
  · obtain ⟨f, hf, rfl⟩ := List.mem_map.1 h
    exact ⟨f, (List.mem_filter.1 hf).1, rfl⟩

/-- **All built-in checks keep to the project.** -/
theorem keepsToProject_of_mem_all {k : Check} (hk : k ∈ all) : k.KeepsToProject := by
  intro react hreact past view r hr f hf
  rcases onProject_of_mem_all hk with hnone | rfl | rfl
  · rw [hnone] at hreact
    exact nomatch hreact
  · obtain rfl := Option.some.inj hreact
    obtain ⟨e, he, hfile⟩ := file_missingReports (mem_reports.1 hr)
    obtain rfl := Option.some.inj (hfile.symm.trans hf)
    exact file_of_mem_index he
  · obtain rfl := Option.some.inj hreact
    obtain ⟨f', hf', hfile⟩ := file_unusedReports (mem_reports.1 hr)
    obtain rfl := Option.some.inj (hfile.symm.trans hf)
    exact .inl hf'

/-- **All built-in checks name files.** -/
theorem namesFiles_of_mem_all {k : Check} (hk : k ∈ all) : k.NamesFiles := by
  intro react hreact past view
  rcases onProject_of_mem_all hk with hnone | rfl | rfl
  · rw [hnone] at hreact
    exact nomatch hreact
  · obtain rfl := Option.some.inj hreact
    refine ⟨rfl, fun r hr => ?_⟩
    obtain ⟨e, -, hfile⟩ := file_missingReports (mem_reports.1 hr)
    rw [hfile]
    rfl
  · obtain rfl := Option.some.inj hreact
    refine ⟨rfl, fun r hr => ?_⟩
    obtain ⟨f, -, hfile⟩ := file_unusedReports (mem_reports.1 hr)
    rw [hfile]
    rfl

end Rule

/-! ## What is raised on the project -/

namespace Analysis

/-- An offense stands at the path of no file, with no version. -/
def AtNoFile (o : Offense) : Prop := o.path = projectPath ∧ o.version = 0

section Project

variable {o : AnalyzerOptions} {parsed : List ParsedFile} {view : ProjectView}

theorem of_raiseReport? {info : CheckInfo} {r : ProjectReport} {offense : Offense}
    {fix : Option PendingFix} (h : raiseReport? o parsed info r = some (offense, fix)) :
    (∃ f, r.file = some f ∧ offense.path = f.path) ∨ r.file = none ∧ AtNoFile offense := by
  unfold raiseReport? at h
  cases hfile : r.file with
  | some f =>
    rw [hfile] at h
    exact .inl ⟨f, rfl, path_raise? o parsed f h⟩
  | none =>
    rw [hfile] at h
    obtain ⟨offense', hraised, heq⟩ := Option.map_eq_some_iff.1 h
    obtain ⟨rfl, -⟩ := Prod.mk.inj heq
    unfold raiseProject? at hraised
    split at hraised
    · exact nomatch hraised
    · obtain rfl := Option.some.inj hraised
      exact .inr ⟨rfl, rfl, rfl⟩

/-- **What a check raises on the project** is about files that it was shown or called for, or stands at the
path of no file. -/
theorem path_raisedOn {s : Slot} (hk : s.check.KeepsToProject) :
    ∀ offense ∈ (s.raisedOn o parsed view).offenses,
      (∃ f, offense.path = f.path ∧ (f ∈ view.files ∨ ∃ v ∈ s.past, v.file = f)) ∨
        AtNoFile offense ∧ ¬ s.check.NamesFiles := by
  unfold Slot.raisedOn
  cases hproject : s.check.onProject with
  | none => exact fun _ hnone => absurd hnone List.not_mem_nil
  | some react =>
    refine (Tally.additive_offenses _).react (fun e he => ?_) fun detail hcrash offense hoffense => ?_
    · cases e with
      | report r =>
        unfold Tally.effect
        dsimp only
        cases hraised : raiseReport? o parsed s.check.info r with
        | none => exact fun _ hnone => absurd hnone List.not_mem_nil
        | some raised =>
          intro offense hoffense
          obtain rfl := List.mem_singleton.1 hoffense
          rcases of_raiseReport? hraised with ⟨f, hf, hpath⟩ | ⟨hnone, hat⟩
          · exact .inl ⟨f, hpath, hk react hproject _ _ r he f hf⟩
          · refine .inr ⟨hat, fun hnames => ?_⟩
            have hsome := (hnames react hproject s.past view).2 r he
            rw [hnone] at hsome
            exact nomatch hsome
      | trace => exact fun _ hnone => absurd hnone List.not_mem_nil
      | cancel => exact fun _ hnone => absurd hnone List.not_mem_nil
    · obtain rfl := List.mem_singleton.1 hoffense
      refine .inr ⟨⟨rfl, rfl⟩, fun hnames => ?_⟩
      rw [(hnames react hproject s.past view).1] at hcrash
      exact nomatch hcrash

/-- **The fixes that a check raises on the project** are for files that it was shown or called for. -/
theorem fixes_path_raisedOn {s : Slot} (hk : s.check.KeepsToProject) :
    ∀ p ∈ (s.raisedOn o parsed view).fixes,
      ∃ f, p.path = f.path ∧ (f ∈ view.files ∨ ∃ v ∈ s.past, v.file = f) := by
  unfold Slot.raisedOn
  cases hproject : s.check.onProject with
  | none => exact nofun
  | some react =>
    refine Tally.fixes_react fun r hr offense p hraised => ?_
    unfold raiseReport? at hraised
    cases hfile : r.file with
    | some f =>
      rw [hfile] at hraised
      exact ⟨f, (of_raise?_fix o parsed hraised).1, hk react hproject _ _ r hr f hfile⟩
    | none =>
      rw [hfile] at hraised
      obtain ⟨_, _, heq⟩ := Option.map_eq_some_iff.1 hraised
      exact nomatch heq

end Project

end Analysis

namespace Analyzer

section Runs

variable {a : Analyzer} {around : Surroundings} {paths toParse : List Text} {onlySingle : Bool}

theorem path_of_mem_files {f : SourceFile} (hpaths : ∀ path ∈ paths, path ∈ toParse)
    (hf : f ∈ a.files paths toParse) : f.path ∈ paths := by
  rw [files_eq hpaths] at hf
  obtain ⟨p, hp, rfl⟩ := List.mem_map.1 hf
  obtain ⟨path, hpath, hparse⟩ := mem_readable.1 hp
  rwa [path_of_parseOne hparse]

/-- **The offenses of files are about files that were read.** -/
theorem single_of_ok (hpaths : ∀ path ∈ paths, path ∈ toParse)
    (h : (a.analyze around paths toParse onlySingle).outcome = .ok ()) :
    ∀ o ∈ (a.analyze around paths toParse onlySingle).analyzer.findings.single,
      o.path ∈ toParse := by
  intro o ho
  rw [(analyze_of_ok paths toParse onlySingle h).2.2.1] at ho
  rcases List.mem_append.1 ho with ho | ho
  · exact path_readFailures ho
  · obtain ⟨f, hf, hpath⟩ := path_raisedAcross _ _ _ _ o ho
    rw [hpath]
    exact hpaths _ (path_of_mem_files hpaths hf)

/-- A file that a check was shown, or called for on the way, is one that was read. -/
theorem path_of_shown (hpaths : ∀ path ∈ paths, path ∈ toParse) {s : Slot}
    (hs : s ∈ a.slotsAfter paths toParse) {f : SourceFile}
    (hf : f ∈ (a.view toParse).files ∨ ∃ v ∈ s.past, v.file = f) : f.path ∈ toParse := by
  rcases hf with hshown | ⟨v, hv, rfl⟩
  · obtain ⟨p, hp, rfl⟩ := List.mem_map.1 hshown
    obtain ⟨path, hmem, hparse⟩ := mem_readable.1 hp
    rwa [path_of_parseOne hparse]
  · -- the check was called for files that the run visited
    obtain ⟨s', hs', rfl⟩ := List.mem_map.1 hs
    obtain ⟨k, -, rfl⟩ := List.mem_map.1 hs'
    rcases Slot.past_visitedAll hv with hnone | ⟨f, hf, m, hm, rfl, -⟩
    · exact nomatch hnone
    · rw [file_of_mem_moments hm]
      exact hpaths _ (path_of_mem_files hpaths hf)

/-- **The offenses of the project are about files that were read**, or stand at the path of no file. -/
theorem project_of_ok (hpaths : ∀ path ∈ paths, path ∈ toParse)
    (hchecks : ∀ k ∈ a.checks, k.KeepsToProject)
    (h : (a.analyze around paths toParse onlySingle).outcome = .ok ()) :
    ∀ o ∈ (a.analyze around paths toParse onlySingle).analyzer.findings.project,
      o.path ∈ toParse ∨ AtNoFile o ∧ ¬ ∀ k ∈ a.checks, k.NamesFiles := by
  intro o ho
  rw [(raised_of_ok paths toParse h).2.2.2.1, Tally.offenses_join, List.flatMap_map] at ho
  obtain ⟨s, hs, ho⟩ := List.mem_flatMap.1 ho
  have hslot : s ∈ a.slotsAfter paths toParse := by
    cases onlySingle with
    | true => exact nomatch hs
    | false => exact (List.mem_filter.1 ((calledOn_initial _ _ _ _ _).mem hs)).1
  have hcheck := check_mem_of_slotsAfter paths toParse hslot
  rcases path_raisedOn (hchecks _ hcheck) o ho with ⟨f, hpath, hshown⟩ | ⟨hat, hnames⟩
  · rw [hpath]
    exact .inl (path_of_shown hpaths hslot hshown)
  · exact .inr ⟨hat, fun hall => hnames (hall _ hcheck)⟩

/-- **A run finds the same whenever nothing cancels it.** -/
theorem findings_of_live {around' : Surroundings} (hidle : a.stage = .idle)
    (hlive : around.cancelled = false) (hlive' : around'.cancelled = false)
    (hchecks : ∀ k ∈ a.checks, k.NeverCancels) :
    (a.analyzeProject around).analyzer.findings.raised =
      (a.analyzeProject around').analyzer.findings.raised := by
  obtain ⟨-, hsingle, hproject, -⟩ :=
    analyze_live a.analysable a.analysable false hidle hlive hchecks
  obtain ⟨-, hsingle', hproject', -⟩ :=
    analyze_live a.analysable a.analysable false hidle hlive' hchecks
  unfold Findings.raised analyzeProject
  rw [hsingle, hsingle', hproject, hproject']

end Runs

end Analyzer

/-- **The offenses that are kept of a path** are what the run found of it. -/
theorem Session.offenses_resultAt (f : Findings) (path : Text) (version : Int) :
    (Session.resultAt f path version).offenses = f.offensesOf path := by
  unfold Findings.offensesOf Findings.offenses Findings.raised Record.offenses resultAt offensesAt
  rw [Offense.filter_sort, List.filter_append]

end LiquidLint
