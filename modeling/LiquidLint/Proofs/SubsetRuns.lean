import LiquidLint.Proofs.AnalysisRuns
import LiquidLint.Proofs.OrderedTables

/-!
# Runs over some of the files

A run may visit some of the files of a project only.  What the checks of references know at its end are
the facts of the templates that were visited, completed by those of the templates that were only read.
This is one and the same table whichever templates were visited, and in whichever order
(`Reference.index_eq`).  As the other built-in checks do not look at the project, they all find the same
in the project (`Rule.raisedOn_eq`).

The built-in checks are forgetful, so a run raises in files what they raise at each path by itself.  From
both follows that a run over some files agrees with a run over all of them (`subset_runs_agree`).
-/

namespace LiquidLint

open Source Store Analysis

namespace Rule

/-! ## What is known of the templates at the end of a run -/

namespace Reference

/-- The templates among what was visited are templates of the project. -/
def Within (past : List Visit) (files : List SourceFile) : Prop :=
  ∀ f, .endFile f ∈ past → f ∈ files ∧ f.info.category = .liquid

/-- The facts of the template at a path. -/
def factsAt (files : List SourceFile) (path : Text) : Option Facts :=
  (files.find? fun f => f.path = path && f.info.category = .liquid).map Facts.of

/-- Files are told apart by their paths. -/
def Distinct (files : List SourceFile) : Prop := ∀ f ∈ files, ∀ g ∈ files, f.path = g.path → f = g

section Facts

variable {past : List Visit} {files : List SourceFile}

theorem factsAt_eq (hfiles : Distinct files) {f : SourceFile} (hf : f ∈ files)
    (hliquid : f.info.category = .liquid) : factsAt files f.path = some (.of f) := by
  unfold factsAt
  cases hfound : files.find? fun g => g.path = f.path && g.info.category = .liquid with
  | none =>
    refine absurd (List.find?_eq_none.1 hfound f hf) ?_
    simp [hliquid]
  | some g =>
    have hpath := List.find?_some hfound
    simp only [Bool.and_eq_true, decide_eq_true_eq] at hpath
    rw [hfiles g (List.mem_of_find?_eq_some hfound) f hf hpath.1]
    rfl

theorem get?_collected (hfiles : Distinct files) (hpast : Within past files) {path : Text}
    {facts : Facts} (h : (collected past).get? path = some facts) :
    factsAt files path = some facts := by
  unfold collected at h
  induction past with
  | nil => exact nomatch h
  | cons v rest ih =>
    have hrest : Within rest files := fun f hf => hpast f (List.mem_cons_of_mem _ hf)
    rw [List.foldr_cons] at h
    cases v with
    | node => exact ih hrest h
    | endFile f =>
      rw [Table.get?_insert] at h
      by_cases hpath : path = f.path
      · rw [if_pos hpath] at h
        obtain rfl := Option.some.inj h
        obtain ⟨hf, hliquid⟩ := hpast f (List.mem_cons_self ..)
        rw [hpath]
        exact factsAt_eq hfiles hf hliquid
      · rw [if_neg hpath] at h
        exact ih hrest h

theorem get?_completed (known : Table Facts) (files : List SourceFile) (path : Text) :
    (completed known files).get? path = (known.get? path).or (factsAt files path) := by
  unfold completed factsAt
  induction files generalizing known with
  | nil => exact (Option.or_none).symm
  | cons f rest ih =>
    rw [List.foldl_cons, ih]
    by_cases hadds : (!known.contains f.path && f.info.category = .liquid) = true
    · obtain ⟨hnew, hliquid⟩ := Bool.and_eq_true_iff.1 hadds
      rw [if_pos hadds, Table.get?_insert]
      by_cases hpath : path = f.path
      · have hnone : known.get? path = none := by
          rw [hpath]
          simpa [Table.contains] using hnew
        have hfirst : (f :: rest).find? (fun g => g.path = path && g.info.category = .liquid) =
            some f := List.find?_cons_of_pos (by simpa [hpath] using hliquid)
        rw [if_pos hpath, hnone, hfirst]
        rfl
      · have hlater : (f :: rest).find? (fun g => g.path = path && g.info.category = .liquid) =
            rest.find? (fun g => g.path = path && g.info.category = .liquid) :=
          List.find?_cons_of_neg (by simp [Ne.symm hpath])
        rw [if_neg hpath, hlater]
    · rw [if_neg hadds]
      by_cases hhere : (f.path = path && f.info.category = .liquid) = true
      · -- the file is at the path, so that its facts are known
        obtain ⟨hpath, hliquid⟩ := Bool.and_eq_true_iff.1 hhere
        have hknown : known.get? path ≠ none := by
          rw [← of_decide_eq_true hpath]
          simpa [Table.contains, of_decide_eq_true hliquid] using hadds
        obtain ⟨facts, hfacts⟩ := Option.ne_none_iff_exists'.1 hknown
        rw [hfacts]
        rfl
      · have hlater : (f :: rest).find? (fun g => g.path = path && g.info.category = .liquid) =
            rest.find? (fun g => g.path = path && g.info.category = .liquid) :=
          List.find?_cons_of_neg hhere
        rw [hlater]

theorem ordered_index (past : List Visit) (v : ProjectView) : (index past v).Ordered := by
  have hcollected : (collected past).Ordered := by
    unfold collected
    induction past with
    | nil => exact Table.ordered_empty
    | cons visit rest ih =>
      cases visit with
      | node => exact ih
      | endFile f => exact ih.insert ..
  have hcompleted (known : Table Facts) (h : known.Ordered) : (completed known v.files).Ordered := by
    unfold completed
    induction v.files generalizing known with
    | nil => exact h
    | cons f rest ih =>
      refine ih _ ?_
      dsimp only
      split
      · exact h.insert ..
      · exact h
  exact hcompleted _ hcollected

/-- **What is known at the end of a run does not depend on which templates were visited.** -/
theorem index_eq {v : ProjectView} (hfiles : Distinct v.files) (hpast : Within past v.files) :
    index past v = index [] v := by
  refine (ordered_index past v).ext (ordered_index [] v) fun path => ?_
  unfold index
  rw [get?_completed, get?_completed]
  cases hknown : (collected past).get? path with
  | none => rfl
  | some facts =>
    rw [get?_collected hfiles hpast hknown]
    rfl

end Facts

end Reference

/-! ## The look of the built-in checks at the project -/

/-- A check of references was called for the ends of templates only. -/
theorem within_visitedAll {s : Slot} {visited files : List SourceFile} (hnew : s.past = [])
    (hvisited : ∀ f ∈ visited, f ∈ files)
    (hliquid : ∀ c, s.check.info.appliesTo c = true → c = .liquid) :
    Reference.Within (s.visitedAll visited).past files := by
  intro f hf
  rcases Slot.past_visitedAll hf with hf | ⟨g, hg, m, hm, hvisit, hwanted⟩
  · rw [hnew] at hf
    exact nomatch hf
  · rcases List.mem_append.1 hm with hm | hm
    · obtain ⟨tree, -, hm⟩ := List.mem_flatMap.1 hm
      obtain ⟨p, -, rfl⟩ := List.mem_map.1 hm
      exact nomatch hvisit
    · obtain rfl := List.mem_singleton.1 hm
      obtain rfl := Visit.endFile.inj hvisit
      exact ⟨hvisited f hg, hliquid _ hwanted⟩

/-- **A built-in check finds the same in the project** whichever of its files it visited. -/
theorem raisedOn_eq (o : AnalyzerOptions) (parsed : List ParsedFile) {view : ProjectView}
    {s : Slot} (hs : s.check ∈ all) (hnew : s.past = []) (hfiles : Reference.Distinct view.files)
    {visited : List SourceFile} (hvisited : ∀ f ∈ visited, f ∈ view.files) :
    Slot.raisedOn o parsed view (s.visitedAll visited) = Slot.raisedOn o parsed view s := by
  have hindex (hliquid : ∀ c, s.check.info.appliesTo c = true → c = .liquid) :
      Reference.index (s.visitedAll visited).past view = Reference.index s.past view := by
    rw [Reference.index_eq hfiles (within_visitedAll hnew hvisited hliquid), hnew]
  unfold Slot.raisedOn
  rw [Slot.check_visitedAll]
  rcases onProject_of_mem_all hs with hnone | hmissing | hunused
  · rw [hnone]
  · have hknown := hindex fun c => by rw [hmissing]; cases c <;> decide
    rw [hmissing]
    dsimp only [missingTemplate]
    rw [hknown]
  · have hknown := hindex fun c => by rw [hunused]; cases c <;> decide
    rw [hunused]
    dsimp only [unusedPartial]
    rw [hknown]

end Rule

namespace Analyzer

/-! ## Runs over some of the files -/

section Subset

variable {a : Analyzer} {chosen : List Text}

/-- Files that a run has read are told apart by their paths. -/
theorem distinct_readable (s : Snapshot) (paths : List Text) :
    Rule.Reference.Distinct ((readable s paths).map (·.file)) := by
  have hread (f : SourceFile) (hf : f ∈ (readable s paths).map (·.file)) :
      ∃ p, parseOne s f.path = .ok p ∧ p.file = f := by
    obtain ⟨p, hp, rfl⟩ := List.mem_map.1 hf
    obtain ⟨path, -, hok⟩ := mem_readable.1 hp
    exact ⟨p, by rw [path_of_parseOne hok, hok], rfl⟩
  intro f hf g hg hpath
  obtain ⟨p, hp, rfl⟩ := hread f hf
  obtain ⟨q, hq, rfl⟩ := hread g hg
  rw [hpath, hq] at hp
  rw [Except.ok.inj hp]

/-- The files that are visited are files of the project. -/
theorem mem_view_of_visited {paths toParse : List Text} (hpaths : ∀ path ∈ paths, path ∈ toParse) :
    ∀ f ∈ a.files paths toParse, f ∈ (a.view toParse).files := by
  rw [files_eq hpaths]
  intro f hf
  obtain ⟨p, hp, rfl⟩ := List.mem_map.1 hf
  obtain ⟨path, hpath, hparse⟩ := mem_readable.1 hp
  exact List.mem_map_of_mem (mem_readable.2 ⟨path, hpaths path hpath, hparse⟩)

/-- **The built-in checks find the same in the project** whichever of the paths are visited. -/
theorem raisedOnProject_eq {paths toParse : List Text} (hchecks : ∀ k ∈ a.checks, k ∈ Rule.all)
    (hpaths : ∀ path ∈ paths, path ∈ toParse) :
    a.raisedOnProject paths toParse = a.raisedOnProject [] toParse := by
  unfold raisedOnProject slotsAfter
  rw [List.map_map, List.map_map]
  refine congrArg _ (List.map_congr_left fun s hs => ?_)
  have hcheck := hchecks _ (check_mem_of_slots hs)
  obtain ⟨k, -, rfl⟩ := List.mem_map.1 hs
  exact Rule.raisedOn_eq _ _ hcheck rfl (distinct_readable _ _) (mem_view_of_visited hpaths)

/-- Some paths that can be analysed, put in order. -/
theorem sortDedup_chosen (hsorted : a.snapshot.entries.Ordered)
    (hchosen : ∀ path ∈ chosen, path ∈ a.analysable) :
    Text.sortDedup chosen = a.analysable.filter fun path => path ∈ chosen := by
  refine Text.sortDedup_eq ((pairwise_analysable hsorted).filter _) fun path => ?_
  rw [List.mem_filter, decide_eq_true_iff]
  exact ⟨fun h => ⟨hchosen path h, h⟩, fun h => h.2⟩

/-- A run over some of the paths that can be analysed reads all of them, unless it stops at the files. -/
theorem analyzeFiles_eq (hsorted : a.snapshot.entries.Ordered)
    (hchosen : ∀ path ∈ chosen, path ∈ a.analysable) (around : Surroundings) (onlySingle : Bool) :
    a.analyzeFiles around chosen onlySingle = a.analyze around (Text.sortDedup chosen)
      (if onlySingle then Text.sortDedup chosen else a.analysable) onlySingle := by
  have hread : Text.sortDedup (Text.sortDedup chosen ++ a.analysable) = a.analysable := by
    refine Text.sortDedup_eq (pairwise_analysable hsorted) fun path => ?_
    rw [List.mem_append, Text.mem_sortDedup]
    exact ⟨fun h => h.elim (hchosen path) id, .inr⟩
  unfold analyzeFiles
  dsimp only
  rw [hread]

/-- **Runs over some of the files agree with runs over all.**  Let built-in checks analyse a project, and
let some of the paths that can be analysed be chosen.  A run over these alone finds the same in the
project as a run over all paths, in the same order.  In files it leaves the failures of reading any path,
and then exactly what the full run raises in the chosen files.  A run that stops at the files finds
nothing in the project, and in files the same but for the failures of the other paths. -/
theorem subset_runs_agree {around : Surroundings} (hidle : a.stage = .idle)
    (hsorted : a.snapshot.entries.Ordered) (hchecks : ∀ k ∈ a.checks, k ∈ Rule.all)
    (hlive : around.cancelled = false) (hchosen : ∀ path ∈ chosen, path ∈ a.analysable) :
    let full := a.analyzeProject around
    let part := a.analyzeFiles around chosen false
    let alone := a.analyzeFiles around chosen true
    (full.outcome = .ok () ∧ part.outcome = .ok () ∧ alone.outcome = .ok ()) ∧
      part.analyzer.findings.project = full.analyzer.findings.project ∧
      alone.analyzer.findings.project = [] ∧
      ∃ raised,
        let failures := readFailures a.snapshot a.analysable
        full.analyzer.findings.single = failures ++ raised ∧
        part.analyzer.findings.single = failures ++ raised.filter (·.path ∈ chosen) ∧
        alone.analyzer.findings.single =
          failures.filter (·.path ∈ chosen) ++ raised.filter (·.path ∈ chosen) := by
  intro full part alone
  have hcancels : ∀ k ∈ a.checks, k.NeverCancels :=
    fun k hk => Rule.neverCancels_of_mem_all (hchecks k hk)
  have hforgets : ∀ k ∈ a.checks, k.Forgetful :=
    fun k hk => Rule.forgetful_of_mem_all (hchecks k hk)
  have hsubset : ∀ path ∈ Text.sortDedup chosen, path ∈ a.analysable :=
    fun path h => hchosen path (Text.mem_sortDedup.1 h)
  have hpart : part = a.analyze around (Text.sortDedup chosen) a.analysable false :=
    analyzeFiles_eq hsorted hchosen around false
  obtain ⟨hfullOk, hfullSingle, hfullProject, -⟩ := analyze_live a.analysable a.analysable
    false hidle hlive hcancels
  obtain ⟨hpartOk, hpartSingle, hpartProject, -⟩ := analyze_live (Text.sortDedup chosen)
    a.analysable false hidle hlive hcancels
  obtain ⟨haloneOk, haloneSingle, haloneProject, -⟩ := analyze_live (Text.sortDedup chosen)
    (Text.sortDedup chosen) true hidle hlive hcancels
  have hraised {toParse : List Text} (hread : ∀ path ∈ Text.sortDedup chosen, path ∈ toParse) :
      (a.raisedInFiles (Text.sortDedup chosen) toParse).offenses =
        (Tally.join (a.analysable.map a.raisedAt)).offenses.filter (·.path ∈ chosen) := by
    rw [raisedInFiles_forgetful hread hforgets, sortDedup_chosen hsorted hchosen,
      offenses_raisedAt_filter]
  have hfailures : readFailures a.snapshot (Text.sortDedup chosen) =
      (readFailures a.snapshot a.analysable).filter (·.path ∈ chosen) := by
    rw [sortDedup_chosen hsorted hchosen, readFailures_filter]
  have hproject : a.raisedOnProject (Text.sortDedup chosen) a.analysable =
      a.raisedOnProject a.analysable a.analysable :=
    (raisedOnProject_eq hchecks hsubset).trans (raisedOnProject_eq hchecks fun _ h => h).symm
  rw [raisedInFiles_forgetful (fun _ h => h) hforgets] at hfullSingle
  rw [hraised hsubset] at hpartSingle
  rw [hraised fun _ h => h, hfailures] at haloneSingle
  rw [hproject] at hpartProject
  rw [hpart]
  exact ⟨⟨hfullOk, hpartOk, haloneOk⟩, hpartProject.trans hfullProject.symm, haloneProject, _,
    hfullSingle, hpartSingle, haloneSingle⟩

/-- A project with a page that refers to nothing, a partial that cannot be read and one more page. -/
def shopAnalysis : Analyzer :=
  { snapshot :=
      ⟨⟨[("app/views/pages/a.liquid", { content := .loaded "\x7b% render 'nav' %\x7d" }),
        ("app/views/pages/c.liquid", { content := .loaded "\x7b\x7bx \x7d\x7d" }),
        ("app/views/partials/b.liquid", { content := .failed (.plain "disk on fire") })]⟩⟩
    checks := Rule.all }

/-- The page that refers to nothing is reported by a run that visits the other page only. -/
theorem subset_runs_agree_shop :
    shopAnalysis.stage = .idle ∧ shopAnalysis.snapshot.entries.Ordered ∧
      ("app/views/pages/c.liquid" : Text) ∈ shopAnalysis.analysable ∧
      let part := shopAnalysis.analyzeFiles {} ["app/views/pages/c.liquid"] false
      part.analyzer.findings.project = (shopAnalysis.analyzeProject {}).analyzer.findings.project ∧
      part.analyzer.findings.project.map (fun o => (o.code, o.path)) =
        ([("MissingTemplate", "app/views/pages/a.liquid")] : List (Text × Text)) ∧
      part.analyzer.findings.single.map (fun o => (o.code, o.path)) =
        ([(storageErrorCode, "app/views/partials/b.liquid"),
          ("SpaceInsideBraces", "app/views/pages/c.liquid")] : List (Text × Text)) := by
  have hsorted : shopAnalysis.snapshot.entries.Ordered := by
    unfold Table.Ordered
    decide
  have hpage : ("app/views/pages/c.liquid" : Text) ∈ shopAnalysis.analysable := by decide +kernel
  have hchosen : ∀ path ∈ ([("app/views/pages/c.liquid" : Text)]), path ∈ shopAnalysis.analysable := by
    intro path hpath
    rw [List.mem_singleton.1 hpath]
    exact hpage
  obtain ⟨-, hproject, -, -⟩ := @subset_runs_agree shopAnalysis _ {} rfl hsorted (fun _ hk => hk) rfl
    hchosen
  have hpart := analyzeFiles_eq hsorted hchosen {} false
  rw [Text.sortDedup_eq (List.pairwise_singleton ..) fun _ => Iff.rfl] at hpart
  refine ⟨rfl, hsorted, hpage, hproject, ?_⟩
  rw [hpart]
  decide +kernel

end Subset
end Analyzer
end LiquidLint
