import Mathlib.Data.List.Basic
import LiquidLint.Analysis.Analyzer
import LiquidLint.Proofs.FreshStarts
import LiquidLint.Proofs.OrderedTables

/-!
# Runs of an analysis

A run reads the paths that it is to read, visits files one after the other and then looks at the
project.  An analysis that succeeds has done all of this (`analyze_spec`): it leaves an offense for each
path that cannot be read, what the checks raise across the files (`analyze_of_ok`), and what they raise
when they look at the project.  It succeeds whenever nothing cancels it (`analyze_live`).

Forgetful checks raise in a run what they raise at each path by itself (`raisedInFiles_forgetful`), so
what a run finds at some of its paths can be told without the others.
-/

namespace LiquidLint

open Source Store Analysis

namespace Analyzer

/-! ## Reading -/

/-- The files of those paths that can be read. -/
def readable (s : Snapshot) (paths : List Text) : List ParsedFile :=
  paths.filterMap fun p => (parseOne s p).toOption

/-- The offenses of those paths that cannot be read. -/
def readFailures (s : Snapshot) (paths : List Text) : List Offense :=
  paths.filterMap fun p =>
    match parseOne s p with
    | .ok _ => none
    | .error f => some (unreadable p f)

section Reading

variable {s : Snapshot} {path : Text} {p : ParsedFile}

theorem exists_of_parseOne (h : parseOne s path = .ok p) :
    ∃ content, p.file = SourceFile.parse path content (s.read path).2 ∧
      p.suppressions = Suppressions.ofFile p.file := by
  unfold parseOne at h
  split at h
  · exact nomatch h
  · rename_i content version hread
    obtain rfl := Except.ok.inj h
    rw [hread]
    exact ⟨content, rfl, rfl⟩

theorem path_of_parseOne (h : parseOne s path = .ok p) : p.file.path = path := by
  obtain ⟨content, hfile, -⟩ := exists_of_parseOne h
  rw [hfile]
  rfl

theorem mem_readable {paths : List Text} :
    p ∈ readable s paths ↔ ∃ path ∈ paths, parseOne s path = .ok p := by
  unfold readable
  rw [List.mem_filterMap]
  refine exists_congr fun path => and_congr_right fun _ => ?_
  cases parseOne s path with
  | error f => exact iff_of_false nofun nofun
  | ok p' => exact ⟨fun h => congrArg Except.ok (Option.some.inj h),
      fun h => congrArg some (Except.ok.inj h)⟩

/-- **The file that a run finds at a path** is what reading the path gives. -/
theorem find?_readable {paths : List Text} (hpath : path ∈ paths) :
    (readable s paths).find? (fun p => p.file.path = path) = (parseOne s path).toOption := by
  unfold readable
  induction paths with
  | nil => exact nomatch hpath
  | cons first rest ih =>
    rw [List.filterMap_cons]
    cases hparse : parseOne s first with
    | error f =>
      dsimp only [Except.toOption]
      rcases List.mem_cons.1 hpath with rfl | hrest
      · -- nothing that was read has this path
        rw [hparse]
        refine List.find?_eq_none.2 fun p hp => ?_
        obtain ⟨other, -, hread⟩ := mem_readable.1 hp
        rw [decide_eq_true_iff, path_of_parseOne hread]
        rintro rfl
        rw [hparse] at hread
        exact nomatch hread
      · exact ih hrest
    | ok p =>
      dsimp only [Except.toOption]
      by_cases hfirst : first = path
      · subst hfirst
        refine (List.find?_cons_of_pos ?_).trans (by rw [hparse])
        exact decide_eq_true (path_of_parseOne hparse)
      · refine (List.find?_cons_of_neg ?_).trans
          (ih ((List.mem_cons.1 hpath).resolve_left (Ne.symm hfirst)))
        rw [decide_eq_true_iff, path_of_parseOne hparse]
        exact hfirst

theorem path_readFailures {paths : List Text} {o : Offense} (h : o ∈ readFailures s paths) :
    o.path ∈ paths := by
  obtain ⟨path, hpath, ho⟩ := List.mem_filterMap.1 h
  cases hread : parseOne s path with
  | ok p =>
    rw [hread] at ho
    exact nomatch ho
  | error f =>
    rw [hread] at ho
    obtain rfl := Option.some.inj ho
    exact hpath

/-- Reading some of the paths fails for those of them that cannot be read. -/
theorem readFailures_filter (s : Snapshot) (paths : List Text) (keeps : Text → Bool) :
    readFailures s (paths.filter keeps) = (readFailures s paths).filter fun o => keeps o.path := by
  unfold readFailures
  rw [List.filterMap_filter, List.filter_filterMap]
  refine List.filterMap_congr fun path _ => ?_
  cases parseOne s path with
  | ok => exact ite_self none
  | error f =>
    rw [Option.filter_some]
    rfl

theorem parseAll_spec (s : Snapshot) (paths : List Text) (t : Tally) :
    (parseAll s paths t).1 = readable s paths ∧
      (parseAll s paths t).2.offenses = t.offenses ++ readFailures s paths ∧
      (parseAll s paths t).2.fixes = t.fixes ∧
      (parseAll s paths t).2.around.cancelled = t.around.cancelled := by
  induction paths generalizing t with
  | nil => exact ⟨rfl, (List.append_nil _).symm, rfl, rfl⟩
  | cons path rest ih =>
    unfold parseAll readable readFailures
    rw [List.filterMap_cons, List.filterMap_cons]
    cases hparse : parseOne s path with
    | ok p =>
      obtain ⟨hfiles, htold⟩ := ih t
      exact ⟨congrArg (p :: ·) hfiles, htold⟩
    | error f =>
      obtain ⟨hfiles, hoffenses, hfixes, hcancelled⟩ := ih ((t.note ⟨.error, "failed to read file",
        [("path", path), ("error", f.message)]⟩).add (unreadable path f))
      refine ⟨hfiles, hoffenses.trans (List.append_assoc ..), ?_, hcancelled⟩
      exact hfixes.trans (List.append_nil _)

end Reading

/-! ## Visiting -/

/-- The files that are visited: those of the paths that were read. -/
def visitedFiles (parsed : List ParsedFile) (paths : List Text) : List SourceFile :=
  paths.filterMap fun path => (parsed.find? fun p => p.file.path = path).map (·.file)

/-- The version of a path that a visit notes. -/
def versionAt (a : Analyzer) (parsed : List ParsedFile) (path : Text) : Option Int :=
  match parsed.find? fun p => p.file.path = path with
  | some p => some p.file.version
  | none => (a.snapshot.state? path).map (·.version)

section Visiting

variable {a : Analyzer} {parsed : List ParsedFile} {paths : List Text}

/-- **Visiting a path** visits its file, if it was read, and notes its version, if it has one. -/
theorem visitPath_spec (a : Analyzer) (parsed : List ParsedFile) (target : Text) (g : Progress) :
    let after := visitPath a parsed target g
    let files := visitedFiles parsed [target]
    after.slots = g.slots.map (Slot.visitedAll files) ∧
      after.tally = g.tally ++ raisedAcross a.options parsed files g.slots ∧
      after.paths = g.paths ++ [target] ∧
      ∀ path, after.versions.get? path =
        if path = target ∧ (a.versionAt parsed target).isSome then a.versionAt parsed target
        else g.versions.get? path := by
  unfold visitPath visitedFiles versionAt
  rw [List.filterMap_cons, List.filterMap_nil]
  cases parsed.find? fun p => p.file.path = target with
  | some p =>
    dsimp only [Option.map_some]
    rw [visitFile_eq]
    refine ⟨rfl, ?_, rfl, fun path => ?_⟩
    · rw [raisedAcross, raisedAcross, Tally.append_empty]
    · rw [Table.get?_insert]
      simp only [Option.isSome_some, and_true]
  | none =>
    dsimp only [Option.map_none]
    cases a.snapshot.state? target with
    | some e =>
      refine ⟨(List.map_id _).symm, g.tally.append_empty.symm, rfl, fun path => ?_⟩
      dsimp only [Option.map_some]
      rw [Table.get?_insert]
      simp only [Option.isSome_some, and_true]
    | none =>
      refine ⟨(List.map_id _).symm, g.tally.append_empty.symm, rfl, fun path => ?_⟩
      exact (if_neg fun h => Bool.false_ne_true h.2).symm

/-- **Visits go through the paths in order**, and through all of them unless they are cut short. -/
theorem visitPaths_spec (a : Analyzer) (parsed : List ParsedFile) (paths : List Text) (g : Progress) :
    ∃ visited, visited <+: paths ∧ ((visitPaths a parsed paths g).2 = true → visited = paths) ∧
      let after := (visitPaths a parsed paths g).1
      let files := visitedFiles parsed visited
      after.slots = g.slots.map (Slot.visitedAll files) ∧
        after.tally = g.tally ++ raisedAcross a.options parsed files g.slots ∧
        after.paths = g.paths ++ visited ∧
        ∀ path, after.versions.get? path =
          if path ∈ visited ∧ (a.versionAt parsed path).isSome then a.versionAt parsed path
          else g.versions.get? path := by
  have hnothing (g : Progress) : g.slots = g.slots.map (Slot.visitedAll []) ∧
      g.tally = g.tally ++ {} ∧ g.paths = g.paths ++ [] ∧ ∀ path, g.versions.get? path =
        if path ∈ [] ∧ (a.versionAt parsed path).isSome then a.versionAt parsed path
        else g.versions.get? path :=
    ⟨(List.map_id _).symm, g.tally.append_empty.symm, (List.append_nil _).symm,
      fun path => (if_neg fun h => nomatch h.1).symm⟩
  induction paths generalizing g with
  | nil => exact ⟨[], List.nil_prefix, fun _ => rfl, hnothing g⟩
  | cons first rest ih =>
    unfold visitPaths
    by_cases hcancelled : g.tally.around.cancelled = true
    · rw [if_pos hcancelled]
      exact ⟨[], List.nil_prefix, nofun, hnothing g⟩
    · rw [if_neg hcancelled]
      obtain ⟨visited, hinitial, hall, hslots, htally, hpaths, hversions⟩ :=
        ih (visitPath a parsed first g)
      obtain ⟨hslots₁, htally₁, hpaths₁, hversions₁⟩ := visitPath_spec a parsed first g
      have hfiles : visitedFiles parsed (first :: visited) =
          visitedFiles parsed [first] ++ visitedFiles parsed visited :=
        List.filterMap_append (l := [first])
      refine ⟨first :: visited, List.cons_prefix_cons.2 ⟨rfl, hinitial⟩,
        fun hcomplete => congrArg _ (hall hcomplete), ?_, ?_, ?_, fun path => ?_⟩
      · rw [hslots, hslots₁, hfiles, List.map_map]
        refine List.map_congr_left fun s _ => ?_
        exact (List.foldl_append ..).symm
      · rw [htally, htally₁, hslots₁, hfiles, raisedAcross_append, Tally.append_assoc]
      · rw [hpaths, hpaths₁, List.append_assoc]
        rfl
      · rw [hversions, hversions₁]
        by_cases hpath : path = first
        · subst hpath
          by_cases hrest : path ∈ visited ∧ (a.versionAt parsed path).isSome = true
          · rw [if_pos hrest, if_pos ⟨List.mem_cons_of_mem _ hrest.1, hrest.2⟩]
          · rw [if_neg hrest]
            simp only [true_and, List.mem_cons, true_or]
        · simp only [hpath, false_and, if_false, List.mem_cons, false_or]

/-- **Visits that were not cut short** have gone through all paths. -/
theorem visitPaths_complete {g : Progress} (h : (visitPaths a parsed paths g).2 = true) :
    let after := (visitPaths a parsed paths g).1
    let files := visitedFiles parsed paths
    after.slots = g.slots.map (Slot.visitedAll files) ∧
      after.tally = g.tally ++ raisedAcross a.options parsed files g.slots ∧
      after.paths = g.paths ++ paths ∧
      ∀ path, after.versions.get? path =
        if path ∈ paths ∧ (a.versionAt parsed path).isSome then a.versionAt parsed path
        else g.versions.get? path := by
  obtain ⟨visited, -, hall, hafter⟩ := visitPaths_spec a parsed paths g
  rwa [hall h] at hafter

/-- **Visits go through all paths** where nothing cancels the run. -/
theorem visitPaths_live {g : Progress} (hg : g.tally.around.cancelled = false)
    (h : ∀ s ∈ g.slots, s.check.NeverCancels) : (visitPaths a parsed paths g).2 = true := by
  induction paths generalizing g with
  | nil => rfl
  | cons first rest ih =>
    obtain ⟨hslots, htally, -, -⟩ := visitPath_spec a parsed first g
    rw [visitPaths, if_neg (by rw [hg]; exact Bool.false_ne_true)]
    refine ih ?_ ?_
    · rw [htally]
      exact Tally.additive_live.append hg (live_raisedAcross _ _ _ h)
    · rw [hslots]
      intro s hs
      obtain ⟨s', hs', rfl⟩ := List.mem_map.1 hs
      rw [Slot.check_visitedAll]
      exact h s' hs'

/-- **Visits do not cancel a run** if none of the checks does. -/
theorem cancelled_visitPaths {g : Progress} (h : ∀ s ∈ g.slots, s.check.NeverCancels) :
    let after := (visitPaths a parsed paths g).1
    after.tally.around.cancelled = g.tally.around.cancelled ∧
      ∀ s ∈ after.slots, s.check.NeverCancels := by
  induction paths generalizing g with
  | nil => exact ⟨rfl, h⟩
  | cons first rest ih =>
    rw [visitPaths]
    split
    · exact ⟨rfl, h⟩
    · obtain ⟨hslots, htally, -, -⟩ := visitPath_spec a parsed first g
      have hrest := @ih (visitPath a parsed first g) fun s hs => by
        rw [hslots] at hs
        obtain ⟨s', hs', rfl⟩ := List.mem_map.1 hs
        rw [Slot.check_visitedAll]
        exact h s' hs'
      rwa [htally, Tally.cancelled_append, live_raisedAcross _ _ _ h, Bool.or_false] at hrest

end Visiting

/-! ## Analyses -/

section Analyse

variable (a : Analyzer) (paths toParse : List Text)

/-- The checks at the start of a run. -/
def slots : List Slot := a.checks.map ({ check := · })

/-- The files that a run visits. -/
def files : List SourceFile := visitedFiles (readable a.snapshot toParse) paths

/-- What a run raises in the files that it visits. -/
def raisedInFiles : Tally :=
  raisedAcross a.options (readable a.snapshot toParse) (a.files paths toParse) a.slots

/-- The checks when a run comes to the project. -/
def slotsAfter : List Slot := a.slots.map (Slot.visitedAll (a.files paths toParse))

/-- The project as a run shows it to the checks. -/
def view : ProjectView :=
  { files := (readable a.snapshot toParse).map (·.file), known := some a.snapshot.paths }

/-- What a run raises when it looks at the project. -/
def raisedOnProject : Tally :=
  Tally.join ((a.slotsAfter paths toParse).map
    (Slot.raisedOn a.options (readable a.snapshot toParse) (a.view toParse)))

variable {a}

theorem check_mem_of_slots {s : Slot} (hs : s ∈ a.slots) : s.check ∈ a.checks := by
  obtain ⟨k, hk, rfl⟩ := List.mem_map.1 hs
  exact hk

theorem check_mem_of_slotsAfter {s : Slot} (hs : s ∈ a.slotsAfter paths toParse) :
    s.check ∈ a.checks := by
  obtain ⟨s', hs', rfl⟩ := List.mem_map.1 hs
  rw [Slot.check_visitedAll]
  exact check_mem_of_slots hs'

/-- What a run has raised before it visits files: the offenses of the paths that it could not read. -/
structure Start (a : Analyzer) (toParse : List Text) (around : Surroundings) (t : Tally) : Prop where
  offenses : t.offenses = readFailures a.snapshot toParse
  fixes : t.fixes = []
  cancelled : t.around.cancelled = around.cancelled

/-- **What a run does**, unless it is cancelled before it reads anything.  It succeeds exactly if it has
gone through all paths, and then it looks at the project with a tally of its own. -/
theorem analyze_spec (onlySingle : Bool) {around : Surroundings} (hidle : a.stage = .idle)
    (hgo : ¬ (around.cancelled && !toParse.isEmpty) = true) :
    ∃ start, Start a toParse around start ∧
      let call := a.analyze around paths toParse onlySingle
      let visits := visitPaths a (readable a.snapshot toParse) paths { slots := a.slots, tally := start }
      (call.outcome = .ok () ↔ visits.2 = true) ∧
        (visits.2 = true → ∃ before : Tally, before.offenses = [] ∧ before.fixes = [] ∧
          before.around.cancelled = visits.1.tally.around.cancelled ∧
          let pass := if onlySingle then before else
            projectPass a.options (readable a.snapshot toParse) (a.view toParse) visits.1.slots before
          call.analyzer.findings =
              { paths := visits.1.paths, versions := visits.1.versions,
                single := visits.1.tally.offenses, project := pass.offenses,
                projectPass := !onlySingle } ∧
            call.analyzer.fixes = visits.1.tally.fixes ++ pass.fixes) := by
  let fresh : Tally := { around := { around with log := [⟨.debug, "analyzer state",
    [("state", Stage.parsing.label), ("files", Text.ofNat paths.length)]⟩] } }
  obtain ⟨hparsed, hoffenses, hfixes, hcancelled⟩ := parseAll_spec a.snapshot toParse fresh
  let start : Tally := (parseAll a.snapshot toParse fresh).2.note (stageEntry .parsing .singleFilePass)
  refine ⟨start, ⟨hoffenses, hfixes, hcancelled⟩, ?_⟩
  unfold analyze
  rw [if_neg (not_not_intro hidle)]
  dsimp only [slots, start, fresh] at hparsed ⊢
  rw [if_neg hgo, hparsed]
  generalize visitPaths a (readable a.snapshot toParse) paths _ = visits
  obtain ⟨g, complete⟩ := visits
  cases complete with
  | false => exact ⟨iff_of_false nofun nofun, nofun⟩
  | true =>
    cases onlySingle with
    | true =>
      refine ⟨iff_of_true rfl rfl, fun _ => ⟨⟨[], [], g.tally.around⟩, rfl, rfl, rfl, rfl, ?_⟩⟩
      exact (List.append_nil _).symm
    | false =>
      let looking := (g.tally.note (stageEntry .singleFilePass .wholeProjectPass)).around
      exact ⟨iff_of_true rfl rfl, fun _ => ⟨⟨[], [], looking⟩, rfl, rfl, rfl, rfl, rfl⟩⟩

/-- A run that succeeded was a new one, and was not cancelled before it read anything. -/
theorem starts_of_ok {onlySingle : Bool} {around : Surroundings}
    (h : (a.analyze around paths toParse onlySingle).outcome = .ok ()) :
    a.stage = .idle ∧ ¬ (around.cancelled && !toParse.isEmpty) = true := by
  unfold analyze at h
  by_cases hidle : a.stage = .idle
  · rw [if_neg (not_not_intro hidle)] at h
    refine ⟨hidle, fun hcancelled => ?_⟩
    rw [if_pos hcancelled] at h
    exact nomatch h
  · rw [if_pos hidle] at h
    exact nomatch h

/-- **What a run that succeeded has found in files**: it went through all its paths, and leaves the
offenses of those that it could not read before those that it raised. -/
theorem analyze_of_ok (onlySingle : Bool) {around : Surroundings}
    (h : (a.analyze around paths toParse onlySingle).outcome = .ok ()) :
    let found := (a.analyze around paths toParse onlySingle).analyzer.findings
    found.paths = paths ∧ found.projectPass = !onlySingle ∧
      found.single = readFailures a.snapshot toParse ++ (a.raisedInFiles paths toParse).offenses ∧
      ∀ path, found.versions.get? path =
        if path ∈ paths then a.versionAt (readable a.snapshot toParse) path else none := by
  obtain ⟨hidle, hgo⟩ := starts_of_ok paths toParse h
  obtain ⟨start, hstart, hok, hresult⟩ := analyze_spec paths toParse onlySingle hidle hgo
  have hcomplete := hok.1 h
  obtain ⟨-, htally, hpaths, hversions⟩ := visitPaths_complete hcomplete
  obtain ⟨before, -, -, -, hfindings, -⟩ := hresult hcomplete
  dsimp only
  rw [hfindings]
  refine ⟨hpaths.trans (List.nil_append _), rfl, ?_, fun path => ?_⟩
  · dsimp only
    rw [htally, Tally.offenses_append, hstart.offenses]
    rfl
  · dsimp only
    rw [hversions]
    by_cases hpath : path ∈ paths
    · rw [if_pos hpath]
      cases a.versionAt (readable a.snapshot toParse) path with
      | some => exact if_pos ⟨hpath, rfl⟩
      | none => exact if_neg fun h => nomatch h.2
    · rw [if_neg hpath, if_neg fun h => hpath h.1]
      rfl

/-- **A run succeeds whenever nothing cancels it**, and leaves the offenses of the paths that it could
not read, what it raised in the files and, unless it stops there, what it raised on the project. -/
theorem analyze_live (onlySingle : Bool) {around : Surroundings} (hidle : a.stage = .idle)
    (hlive : around.cancelled = false) (hchecks : ∀ k ∈ a.checks, k.NeverCancels) :
    let call := a.analyze around paths toParse onlySingle
    let pass := if onlySingle then {} else a.raisedOnProject paths toParse
    call.outcome = .ok () ∧
      call.analyzer.findings.single =
        readFailures a.snapshot toParse ++ (a.raisedInFiles paths toParse).offenses ∧
      call.analyzer.findings.project = pass.offenses ∧
      call.analyzer.fixes = (a.raisedInFiles paths toParse).fixes ++ pass.fixes := by
  have hgo : ¬ (around.cancelled && !toParse.isEmpty) = true := by
    rw [hlive]
    exact Bool.false_ne_true
  have hslots : ∀ s ∈ a.slots, s.check.NeverCancels := fun s hs => hchecks _ (check_mem_of_slots hs)
  obtain ⟨start, hstart, hok, hresult⟩ := analyze_spec paths toParse onlySingle hidle hgo
  have hcomplete : (visitPaths a (readable a.snapshot toParse) paths
      { slots := a.slots, tally := start }).2 = true :=
    visitPaths_live (hstart.cancelled.trans hlive) hslots
  obtain ⟨hslotsAfter, htally, -, -⟩ := visitPaths_complete hcomplete
  obtain ⟨before, hoffenses, hfixes, hcancelled, hfindings, hfixesAfter⟩ := hresult hcomplete
  have hpass :
      let pass := if onlySingle then before else
        projectPass a.options (readable a.snapshot toParse) (a.view toParse)
          (a.slotsAfter paths toParse) before
      let raised := if onlySingle then {} else a.raisedOnProject paths toParse
      pass.offenses = raised.offenses ∧ pass.fixes = raised.fixes := by
    cases onlySingle with
    | true => exact ⟨hoffenses, hfixes⟩
    | false =>
      have hbefore : before.around.cancelled = false := by
        rw [hcancelled, htally, Tally.cancelled_append, live_raisedAcross _ _ _ hslots,
          hstart.cancelled, hlive]
        rfl
      have hafter := projectPass_live a.options (readable a.snapshot toParse) (a.view toParse)
        (fun s hs => hchecks _ (check_mem_of_slotsAfter paths toParse hs))
        hbefore
      dsimp only
      rw [if_neg Bool.false_ne_true, if_neg Bool.false_ne_true, hafter, Tally.offenses_append,
        Tally.fixes_append, hoffenses, hfixes]
      exact ⟨rfl, rfl⟩
  obtain ⟨-, -, hsingle, -⟩ := analyze_of_ok paths toParse onlySingle (hok.2 hcomplete)
  dsimp only
  refine ⟨hok.2 hcomplete, hsingle, ?_, ?_⟩
  · rw [hfindings, hslotsAfter]
    exact hpass.1
  · rw [hfixesAfter, hslotsAfter, htally, Tally.fixes_append, hstart.fixes]
    exact congrArg _ hpass.2

/-- **An analysis does not cancel a run** if none of its checks does. -/
theorem cancelled_analyze (onlySingle : Bool) (around : Surroundings)
    (hchecks : ∀ k ∈ a.checks, k.NeverCancels) :
    (a.analyze around paths toParse onlySingle).around.cancelled = around.cancelled := by
  have hslots : ∀ s ∈ a.slots, s.check.NeverCancels := fun s hs => hchecks _ (check_mem_of_slots hs)
  have hvisits (t : Tally) := @cancelled_visitPaths a
    (parseAll a.snapshot toParse t).1 paths
    { slots := a.slots, tally := (parseAll a.snapshot toParse t).2.note
        (stageEntry .parsing .singleFilePass) } hslots
  unfold analyze
  split
  · rfl
  · dsimp only
    split
    · rfl
    · obtain ⟨hcancelled, hafter⟩ := hvisits { around := { around with log := [⟨.debug,
        "analyzer state",
          [("state", Stage.parsing.label), ("files", Text.ofNat paths.length)]⟩] } }
      have hstart := hcancelled.trans (parseAll_spec a.snapshot toParse _).2.2.2
      split
      · exact hstart
      · split
        · exact hstart
        · exact (cancelled_projectPass _ _ _ hafter _).trans hstart

/-- What an analysis that succeeded has kept: all but its findings and its fixes. -/
theorem kept_of_ok {around : Surroundings} {onlySingle : Bool}
    (h : (a.analyze around paths toParse onlySingle).outcome = .ok ()) :
    let after := (a.analyze around paths toParse onlySingle).analyzer
    after.stage = .done ∧ after.snapshot = a.snapshot ∧ after.options = a.options ∧
      after.corrections = a.corrections ∧ after.parsed = readable a.snapshot toParse := by
  obtain ⟨hidle, hgo⟩ := starts_of_ok paths toParse h
  unfold analyze at h ⊢
  rw [if_neg (not_not_intro hidle)] at h ⊢
  dsimp only at h ⊢
  rw [if_neg hgo] at h ⊢
  rw [(parseAll_spec a.snapshot toParse _).1] at h ⊢
  split
  · rename_i hcut
    rw [if_pos hcut] at h
    exact nomatch h
  · split
    · exact ⟨rfl, rfl, rfl, rfl, rfl⟩
    · exact ⟨rfl, rfl, rfl, rfl, rfl⟩

end Analyse

/-- The paths that can be analysed stand in order, each once. -/
theorem pairwise_analysable {a : Analyzer} (hsorted : a.snapshot.entries.Ordered) :
    a.analysable.Pairwise Text.Precedes := by
  have hkeeps {leaves : Bool} {d p : Text} (h : (if leaves then none else some d) = some p) :
      d = p := by
    cases leaves with
    | true => exact nomatch h
    | false => exact Option.some.inj h
  unfold analysable
  refine hsorted.filterMap _ fun d e hde p hp q hq => ?_
  obtain rfl := hkeeps hp
  obtain rfl := hkeeps hq
  exact hde

/-- The version of a path that a run read. -/
theorem versionAt_readable {a : Analyzer} {toParse : List Text} {path : Text} {e : Entry}
    (hpath : path ∈ toParse) (hstate : a.snapshot.state? path = some e) :
    a.versionAt (readable a.snapshot toParse) path = some e.version := by
  have hversion : (a.snapshot.read path).2 = e.version := by
    unfold Snapshot.read
    rw [hstate]
  unfold versionAt
  rw [find?_readable hpath, hstate]
  cases hparse : parseOne a.snapshot path with
  | error f => rfl
  | ok p =>
    obtain ⟨content, hfile, -⟩ := exists_of_parseOne hparse
    rw [← hversion]
    exact congrArg (fun f => some f.version) hfile

/-! ## Runs of forgetful checks -/

section Forgetful

variable (a : Analyzer)

/-- What the checks raise in the file at a path when they visit nothing else. -/
def raisedAt (path : Text) : Tally :=
  match parseOne a.snapshot path with
  | .ok p => raisedIn a.options [p] p.file a.slots
  | .error _ => {}

theorem path_raisedAt (path : Text) : ∀ o ∈ (a.raisedAt path).offenses, o.path = path := by
  intro o ho
  unfold raisedAt at ho
  split at ho
  · rename_i p hparse
    exact (path_raisedIn _ _ _ _ o ho).trans (path_of_parseOne hparse)
  · exact nomatch ho

variable {a : Analyzer} {paths toParse : List Text}

/-- The visited files, where all paths that are visited were to be read. -/
theorem files_eq (hpaths : ∀ path ∈ paths, path ∈ toParse) :
    a.files paths toParse = (readable a.snapshot paths).map (·.file) := by
  unfold files visitedFiles readable
  rw [List.map_filterMap]
  refine List.filterMap_congr fun path hpath => ?_
  exact congrArg _ (find?_readable (hpaths path hpath))

/-- **Forgetful checks raise in a run what they raise at each path by itself.** -/
theorem raisedInFiles_forgetful (hpaths : ∀ path ∈ paths, path ∈ toParse)
    (hchecks : ∀ k ∈ a.checks, k.Forgetful) :
    a.raisedInFiles paths toParse = Tally.join (paths.map a.raisedAt) := by
  have hparse : ∀ f ∈ a.files paths toParse,
      ∃ path content version, f = SourceFile.parse path content version := by
    rw [files_eq hpaths]
    intro f hf
    obtain ⟨p, hp, rfl⟩ := List.mem_map.1 hf
    obtain ⟨path, -, hread⟩ := mem_readable.1 hp
    obtain ⟨content, hfile, -⟩ := exists_of_parseOne hread
    exact ⟨path, content, _, hfile⟩
  have hslots : ∀ s ∈ a.slots, s.check.Forgetful := fun s hs => hchecks _ (check_mem_of_slots hs)
  unfold raisedInFiles
  rw [raisedAcross_forgetful _ _ hparse hslots, files_eq hpaths, List.map_map]
  clear hparse
  induction paths with
  | nil => rfl
  | cons path rest ih =>
    have hrest := ih fun path' h => hpaths path' (List.mem_cons_of_mem _ h)
    have hfound := @find?_readable a.snapshot _ _ (hpaths path (List.mem_cons_self ..))
    rw [List.map_cons, Tally.join_cons, ← hrest]
    unfold readable raisedAt at *
    rw [List.filterMap_cons]
    cases hread : parseOne a.snapshot path with
    | error => rfl
    | ok p =>
      rw [hread, ← path_of_parseOne hread] at hfound
      have hown : [p].find? (fun p' => p'.file.path = p.file.path) = some p :=
        List.find?_cons_of_pos (decide_eq_true rfl)
      refine congrArg (· ++ _) (raisedIn_congr _ _ _ (hfound.trans hown.symm) _)

/-- What is raised at some of the paths is what is raised at all of them and about these. -/
theorem offenses_raisedAt_filter (a : Analyzer) (paths : List Text) (keeps : Text → Bool) :
    (Tally.join ((paths.filter keeps).map a.raisedAt)).offenses =
      (Tally.join (paths.map a.raisedAt)).offenses.filter fun o => keeps o.path := by
  rw [Tally.offenses_join, Tally.offenses_join, List.flatMap_map, List.flatMap_map]
  induction paths with
  | nil => rfl
  | cons path rest ih =>
    have hpath := a.path_raisedAt path
    rw [List.filter_cons, List.flatMap_cons, List.filter_append, ← ih]
    by_cases hkeeps : keeps path = true
    · have hall : (a.raisedAt path).offenses.filter (fun o => keeps o.path) =
          (a.raisedAt path).offenses :=
        List.filter_eq_self.2 fun o ho => (hpath o ho).symm ▸ hkeeps
      rw [if_pos hkeeps, List.flatMap_cons, hall]
    · have hnone : (a.raisedAt path).offenses.filter (fun o => keeps o.path) = [] :=
        List.filter_eq_nil_iff.2 fun o ho => (hpath o ho).symm ▸ hkeeps
      rw [if_neg hkeeps, hnone, List.nil_append]

end Forgetful

end Analyzer
end LiquidLint
