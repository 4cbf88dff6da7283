import LiquidLint.Analysis.Analyzer
import LiquidLint.Check.Script
import LiquidLint.Proofs.Tallies

/-!
# Passes of corrections

A file is corrected in passes: its corrected content is looked at again with fresh checks, and the
fixes of these are replayed, until nothing changes or the limit of passes is reached.

Looking at content again does not depend on the surroundings as long as the run is not cancelled
(`recheck_of_live`).  So the turn that ends the passes finds what any fresh look at the content finds
(`correctMore_succ`), and the content is at rest where the limit was not reached (`correct_at_rest`).
-/

namespace LiquidLint

open Source Store Analysis

theorem Text.sortDedup_singleton (t : Text) : sortDedup [t] = [t] := by
  unfold sortDedup sort
  rw [List.mergeSort_singleton]
  rfl

/-! ## Replaying fixes -/

theorem Analysis.outcome_replay (file : Option SourceFile) (stored : Text) (fixes : List PendingFix)
    (around around' : Surroundings) :
    (replay file stored fixes around).outcome = (replay file stored fixes around').outcome := by
  cases file with
  | none => rfl
  | some f =>
    cases fixes with
    | nil => rfl
    | cons p rest => rfl

theorem Analysis.changed_replay (file : Option SourceFile) (stored : Text) (fixes : List PendingFix)
    (around : Surroundings) :
    (replay file stored fixes around).outcome.changed = true ↔
      (replay file stored fixes around).outcome.content ≠ stored := by
  cases file with
  | none => exact iff_of_false nofun fun h => h rfl
  | some f =>
    cases fixes with
    | nil => exact iff_of_false nofun fun h => h rfl
    | cons p rest => exact decide_eq_true_iff

theorem Correction.path_merge (c : Correction) (o : Outcome) (failures : List Failure) :
    (c.merge o failures).path = c.path := by
  unfold merge
  split <;> rfl

theorem Correction.stored_merge (c : Correction) (o : Outcome) (failures : List Failure) :
    (c.merge o failures).stored = c.stored := by
  unfold merge
  split <;> rfl

theorem Correction.passes_merge (c : Correction) {o : Outcome} (ho : o.changed = true)
    (failures : List Failure) : (c.merge o failures).passes = c.passes + 1 := by
  unfold merge
  rw [if_pos ho]

namespace Analyzer

/-! ## Looking at one file -/

section Single

variable {a : Analyzer} {path : Text} {p : ParsedFile} {around : Surroundings}

theorem visitPaths_single {parsed : List ParsedFile} {g : Progress}
    (hlive : g.tally.around.cancelled = false) :
    visitPaths a parsed [path] g = (visitPath a parsed path g, true) := by
  rw [visitPaths, if_neg (by rw [hlive]; exact Bool.false_ne_true)]
  rfl

theorem tally_visitPath (hp : p.file.path = path) (g : Progress) :
    (visitPath a [p] path g).tally = (visitFile a.options [p] p.file g.slots g.tally).2 := by
  have hfind : [p].find? (fun p => p.file.path = path) = some p :=
    List.find?_cons_of_pos (by simpa using hp)
  unfold visitPath
  dsimp only
  rw [hfind]

/-- The fixes of a visit are those of a visit before which nothing was raised. -/
theorem fixes_visitPath (hp : p.file.path = path) {g : Progress} (hg : g.tally.fixes = []) :
    (visitPath a [p] path g).tally.fixes =
      (visitFile a.options [p] p.file g.slots {}).2.fixes := by
  rw [tally_visitPath hp, ← g.tally.append_empty, visitFile_append, Tally.fixes_append, hg]
  rfl

/-- **Looking at one file does not depend on the surroundings**, as long as the run is not cancelled. -/
theorem analyze_single (hidle : a.stage = .idle) (hparse : parseOne a.snapshot path = .ok p)
    (hp : p.file.path = path) (hlive : around.cancelled = false) :
    let call := a.analyze around [path] [path] true
    call.outcome = .ok () ∧ call.analyzer.parsed = [p] ∧
      call.analyzer.fixes =
        (visitFile a.options [p] p.file (a.checks.map ({ check := · })) {}).2.fixes := by
  intro call
  have hall (t : Tally) : parseAll a.snapshot [path] t = ([p], t) := by
    rw [parseAll, hparse]
    rfl
  have hgo : ¬ (around.cancelled && !(List.isEmpty [path])) = true := by
    rw [hlive]
    exact Bool.false_ne_true
  dsimp only [call, analyze]
  rw [if_neg (not_not_intro hidle), if_neg hgo, hall]
  dsimp only
  rw [visitPaths_single hlive]
  exact ⟨rfl, rfl, fixes_visitPath hp rfl⟩

/-- A cancelled run does not look at a file. -/
theorem analyze_cancelled (hidle : a.stage = .idle) (hcancelled : around.cancelled = true) :
    let call := a.analyze around [path] [path] true
    (∃ f, call.outcome = .error f) ∧ call.around.cancelled = true := by
  intro call
  have hstop : (around.cancelled && !(List.isEmpty [path])) = true := by
    rw [hcancelled]
    rfl
  dsimp only [call, analyze]
  rw [if_neg (not_not_intro hidle), if_pos hstop]
  exact ⟨⟨_, rfl⟩, hcancelled⟩

end Single

/-! ## Looking at content again -/

/-- What parsing content anew gives. -/
def parseAnew (path content : Text) : ParsedFile :=
  let file := SourceFile.parse path (Text.replaceInvalid content) 1
  ⟨file, Suppressions.ofFile file⟩

theorem parseOne_ofContents (path content : Text) :
    parseOne (.ofContents [(path, content)]) path = .ok (parseAnew path content) := by
  have hstate : (Snapshot.ofContents [(path, content)]).state? path =
      some { content := .loaded (Text.replaceInvalid content), version := 1 } :=
    List.lookup_cons_self
  unfold parseOne Snapshot.read
  rw [hstate]
  rfl

section Recheck

variable (a : Analyzer) (checks : List Check) (path content : Text) {around : Surroundings}

/-- The fixes that fresh checks have for content. -/
def fixesAnew : List PendingFix :=
  let p := parseAnew path content
  let tally := (visitFile { a.options with recheck := none } [p] p.file
    (checks.map ({ check := · })) {}).2
  tally.fixes.filter fun p => p.path = path

/-- The analyzer that looks at content again. -/
def anew : Analyzer :=
  { snapshot := .ofContents [(path, content)], checks, options := { a.options with recheck := none },
    runId := a.runId }

theorem recheck_eq :
    a.recheck checks around path content =
      (a.anew checks path content).analyze around [path] [path] true := by
  unfold recheck analyzeFiles
  rw [Text.sortDedup_singleton]
  rfl

/-- **What looking at content again finds does not depend on the surroundings**, as long as the run is
not cancelled. -/
theorem recheck_of_live (hlive : around.cancelled = false) :
    let again := a.recheck checks around path content
    again.outcome = .ok () ∧ again.analyzer.file? path = some (parseAnew path content).file ∧
      again.analyzer.fixesOf path = a.fixesAnew checks path content := by
  have hpath : (parseAnew path content).file.path = path := rfl
  obtain ⟨hok, hparsed, hfixes⟩ := analyze_single (a := a.anew checks path content) rfl
    (parseOne_ofContents path content) hpath hlive
  rw [recheck_eq]
  refine ⟨hok, ?_, congrArg (List.filter _) hfixes⟩
  unfold file?
  rw [hparsed, List.find?_cons_of_pos (by simpa using hpath)]
  rfl

theorem recheck_of_cancelled (hcancelled : around.cancelled = true) :
    let again := a.recheck checks around path content
    (∃ f, again.outcome = .error f) ∧ again.around.cancelled = true := by
  rw [recheck_eq]
  exact analyze_cancelled rfl hcancelled

/-- Content is at rest if a fresh look at it, in any surroundings, finds fixes that leave it as it
is. -/
def AtRest : Prop :=
  ∀ around : Surroundings, around.cancelled = false →
    let again := a.recheck checks around path content
    again.outcome = .ok () ∧
      (replay (again.analyzer.file? path) content (again.analyzer.fixesOf path)
        again.around).outcome.content = content

/-- Content is at rest if the fixes that fresh checks have for it leave it as it is. -/
theorem atRest_of_replay
    (h : (replay (some (parseAnew path content).file) content (a.fixesAnew checks path content)
      around).outcome.content = content) : a.AtRest checks path content := by
  intro around' hlive again
  obtain ⟨hok, hfile, hfixes⟩ := a.recheck_of_live checks path content hlive
  refine ⟨hok, ?_⟩
  rw [hfile, hfixes, outcome_replay _ _ _ _ around]
  exact h

end Recheck

/-! ## Passes -/

section Passes

variable {a : Analyzer} {checks : List Check} {path : Text}

/-- **One turn of the passes** in a run that is not cancelled: it ends them with content that is at
rest, or it adds a pass and goes on. -/
theorem correctMore_succ {fuel : Nat} {c : Correction} {around : Surroundings}
    (hlive : (a.correctMore checks path (fuel + 1) c around).2.cancelled = false) :
    ((a.correctMore checks path (fuel + 1) c around).1 = c ∧ a.AtRest checks path c.content) ∨
      ∃ o failures around', o.changed = true ∧
        a.correctMore checks path (fuel + 1) c around =
          a.correctMore checks path fuel (c.merge o failures) around' := by
  rw [correctMore] at hlive ⊢
  cases hcancelled : around.cancelled with
  | true =>
    -- a cancelled run stays cancelled
    obtain ⟨⟨f, hf⟩, hagain⟩ := a.recheck_of_cancelled checks path c.content hcancelled
    rw [hf] at hlive
    exact absurd (hagain.symm.trans hlive) nofun
  | false =>
    obtain ⟨hok, hfile, hfixes⟩ := a.recheck_of_live checks path c.content hcancelled
    rw [hok, hfile, hfixes]
    dsimp only
    split
    · -- there is nothing to fix
      rename_i hnone
      have hkept : (replay (some (parseAnew path c.content).file) c.content
          (a.fixesAnew checks path c.content) around).outcome.content = c.content := by
        rw [List.isEmpty_iff.1 hnone]
        rfl
      exact .inl ⟨rfl, a.atRest_of_replay checks path c.content hkept⟩
    · split
      · rename_i hchanged
        exact .inr ⟨_, _, _, hchanged, rfl⟩
      · -- the fixes change nothing
        rename_i hchanged
        have hkept := Decidable.not_not.1 (mt (changed_replay ..).2 hchanged)
        exact .inl ⟨rfl, a.atRest_of_replay checks path c.content hkept⟩

/-- **The passes end at the limit or with content that is at rest**, if the run is not cancelled. -/
theorem correctMore_run {fuel : Nat} {c : Correction} {around : Surroundings}
    (hlive : (a.correctMore checks path fuel c around).2.cancelled = false) :
    let last := (a.correctMore checks path fuel c around).1
    last.path = c.path ∧ last.stored = c.stored ∧ last.passes ≤ c.passes + fuel ∧
      (last.passes = c.passes + fuel ∨ a.AtRest checks path last.content) := by
  induction fuel generalizing c around with
  | zero => exact ⟨rfl, rfl, Nat.le_refl _, .inl rfl⟩
  | succ fuel ih =>
    intro last
    rcases correctMore_succ hlive with ⟨hend, hrest⟩ | ⟨o, failures, around', ho, hon⟩
    · have hlast : last = c := hend
      rw [hlast]
      exact ⟨rfl, rfl, Nat.le_add_right .., .inr hrest⟩
    · rw [hon] at hlive
      have hlast : last = (a.correctMore checks path fuel (c.merge o failures) around').1 :=
        congrArg Prod.fst hon
      obtain ⟨hpath, hstored, hle, hstop⟩ := ih hlive
      rw [Correction.path_merge] at hpath
      rw [Correction.stored_merge] at hstored
      rw [Correction.passes_merge c ho] at hle hstop
      rw [hlast]
      exact ⟨hpath, hstored, by omega, hstop.imp_left fun h => by omega⟩

/-! ## Files -/

theorem passLimit_pos (o : AnalyzerOptions) : 1 ≤ o.passLimit := by
  unfold AnalyzerOptions.passLimit
  split <;> omega

/-- What a correction comes to in a run that is not cancelled. -/
structure Finished (a : Analyzer) (checks : List Check) (c : Correction) : Prop where
  passes_le : c.passes ≤ a.options.passLimit
  changed_iff : c.changed = true ↔ c.content ≠ c.stored
  rests : 1 ≤ c.passes →
    c.passes = a.options.passLimit ∨ a.AtRest checks c.path c.content

/-- The content of a path that is corrected. -/
def storedAt (a : Analyzer) (path : Text) : Text :=
  match (a.snapshot.read path).1 with
  | .ok t => t
  | .error _ => []

/-- What replaying the fixes of the analysis gives. -/
def firstReplay (a : Analyzer) (path : Text) (around : Surroundings) : Replayed :=
  replay (a.file? path) (a.storedAt path) (a.fixesOf path) around

/-- The correction after the first pass. -/
def firstPass (a : Analyzer) (path : Text) (around : Surroundings) : Correction :=
  Correction.merge { path, stored := a.storedAt path, content := a.storedAt path }
    (a.firstReplay path around).outcome (a.firstReplay path around).failures

theorem correctFile_of_unchanged {around : Surroundings}
    (hkept : (a.firstReplay path around).outcome.changed = false) :
    a.correctFile path around = (a.firstPass path around, (a.firstReplay path around).around) := by
  show (if !(a.firstReplay path around).outcome.changed then _ else _) = _
  rw [hkept]
  rfl

theorem correctFile_of_changed (hrecheck : a.options.recheck = some checks) {around : Surroundings}
    (hchanged : (a.firstReplay path around).outcome.changed = true) :
    let more := a.correctMore checks path (a.options.passLimit - (a.firstPass path around).passes)
      (a.firstPass path around) (a.firstReplay path around).around
    (a.correctFile path around).1 = { more.1 with changed := more.1.content ≠ a.storedAt path } ∧
      (a.correctFile path around).2.cancelled = more.2.cancelled := by
  have hfile : a.correctFile path around =
      if !(a.firstReplay path around).outcome.changed then _ else _ := rfl
  rw [hfile, hchanged, if_neg (by decide), hrecheck]
  exact ⟨rfl, rfl⟩

/-- **A file that is corrected** in a run that is not cancelled takes no more passes than it may, is
changed if it says so, and is at rest or at the limit once it was changed. -/
theorem correctFile_finished (hrecheck : a.options.recheck = some checks) {around : Surroundings}
    (hlive : (a.correctFile path around).2.cancelled = false) :
    (a.correctFile path around).1.path = path ∧
      a.Finished checks (a.correctFile path around).1 := by
  cases hchanged : (a.firstReplay path around).outcome.changed with
  | false =>
    -- no pass was made, and the content is the stored one
    have hfirst : a.firstPass path around =
        { path, stored := a.storedAt path, content := a.storedAt path
          applied := 0 + (a.firstReplay path around).outcome.applied.length
          conflicts := [] ++ (a.firstReplay path around).outcome.conflicts
          failures := [] ++ (a.firstReplay path around).failures } := by
      unfold firstPass Correction.merge
      rw [hchanged]
      rfl
    rw [correctFile_of_unchanged hchanged, hfirst]
    exact ⟨rfl, Nat.zero_le _, iff_of_false nofun fun h => h rfl, nofun⟩
  | true =>
    -- the first pass counts, so the turns that are left add up to the limit
    have hlimit := passLimit_pos a.options
    obtain ⟨hfile, haround⟩ := correctFile_of_changed hrecheck hchanged
    have hpasses : (a.firstPass path around).passes = 1 :=
      Correction.passes_merge _ hchanged _
    rw [haround] at hlive
    obtain ⟨hpath, hstored, hle, hstop⟩ := correctMore_run hlive
    rw [hfile]
    generalize a.correctMore checks path (a.options.passLimit - (a.firstPass path around).passes)
      (a.firstPass path around) (a.firstReplay path around).around = more at *
    have hpath : more.1.path = path := hpath.trans (Correction.path_merge ..)
    have hstored : more.1.stored = a.storedAt path := hstored.trans (Correction.stored_merge ..)
    refine ⟨hpath, ?_, ?_, fun _ => ?_⟩
    · show more.1.passes ≤ _
      omega
    · show decide (more.1.content ≠ a.storedAt path) = true ↔ more.1.content ≠ more.1.stored
      rw [hstored]
      exact decide_eq_true_iff
    · show more.1.passes = _ ∨ a.AtRest checks more.1.path more.1.content
      rw [hpath]
      exact hstop.imp_left fun h => by omega

end Passes

/-! ## Corrections of a run -/

section Correct

variable {a : Analyzer} {checks : List Check}

/-- A cancelled run corrects nothing more. -/
theorem correctAll_live {paths : List Text} {done : List Correction} {around : Surroundings}
    (hlive : (a.correctAll paths done around).2.2.cancelled = false) : around.cancelled = false := by
  cases paths with
  | nil => exact hlive
  | cons path rest =>
    by_cases hcancelled : around.cancelled = true
    · rw [correctAll, if_pos hcancelled] at hlive
      exact hlive
    · exact Bool.eq_false_iff.2 hcancelled

/-- Every file of a run that is not cancelled is corrected, one after the other. -/
theorem correctAll_finished (hrecheck : a.options.recheck = some checks) {paths : List Text}
    {done : List Correction} {around : Surroundings}
    (hlive : (a.correctAll paths done around).2.2.cancelled = false) :
    ∃ cs, (a.correctAll paths done around).1 = done ++ cs ∧
      (a.correctAll paths done around).2.1 = true ∧ cs.map (·.path) = paths ∧
      ∀ c ∈ cs, a.Finished checks c := by
  induction paths generalizing done around with
  | nil => exact ⟨[], (List.append_nil _).symm, rfl, rfl, nofun⟩
  | cons path rest ih =>
    -- the run was not cancelled before this file, as it is not cancelled in the end
    have hgo : ¬ around.cancelled = true := by
      rw [correctAll_live hlive]
      exact Bool.false_ne_true
    have hnext : a.correctAll (path :: rest) done around =
        a.correctAll rest (done ++ [(a.correctFile path around).1]) (a.correctFile path around).2 := by
      rw [correctAll, if_neg hgo]
    rw [hnext] at hlive ⊢
    obtain ⟨hpath, hfinished⟩ := correctFile_finished hrecheck (correctAll_live hlive)
    obtain ⟨cs, hdone, hcomplete, hpaths, hall⟩ := ih hlive
    refine ⟨(a.correctFile path around).1 :: cs, ?_, hcomplete, ?_, ?_⟩
    · rw [hdone, List.append_assoc]
      rfl
    · rw [List.map_cons, hpath, hpaths]
    · intro c hc
      rcases List.mem_cons.1 hc with rfl | hc
      · exact hfinished
      · exact hall c hc

/-- **Corrections end at the limit of passes or at rest.**  Let an analyzer that looks at corrected
content again be asked for its corrections, in a run that is not cancelled.  Where the analysis is
done, this succeeds, with one correction for each path that has a fix.  No correction takes more passes
than it may, each says that it changed the content exactly if it did, and one that changed the content
once has reached the limit or left content for which fresh checks have no fixes but those that leave it
as it is. -/
theorem correct_at_rest {around : Surroundings} (hrecheck : a.options.recheck = some checks)
    (hnew : a.corrections = none) (hlive : (a.correct around).around.cancelled = false) :
    (a.stage = .done → (a.correct around).outcome = .ok () ∧
        ∃ cs, (a.correct around).analyzer.corrections = some cs ∧
          cs.map (·.path) = Text.sortDedup (a.fixes.map (·.path))) ∧
      ∀ cs, (a.correct around).analyzer.corrections = some cs → ∀ c ∈ cs,
        c.passes ≤ a.options.passLimit ∧
        (c.changed = true ↔ c.content ≠ c.stored) ∧
        (1 ≤ c.passes → c.passes = a.options.passLimit ∨ a.AtRest checks c.path c.content) := by
  by_cases hdone : a.stage = .done
  · unfold correct at hlive ⊢
    rw [if_neg (not_not_intro hdone), hnew, if_neg (by exact Bool.false_ne_true)] at hlive ⊢
    dsimp only at hlive ⊢
    obtain ⟨cs, hcs, hcomplete, hpaths, hall⟩ := correctAll_finished hrecheck hlive
    rw [hcs, hcomplete]
    refine ⟨fun _ => ⟨rfl, cs, rfl, hpaths⟩, fun cs' hcs' c hc => ?_⟩
    obtain rfl := Option.some.inj hcs'
    have hfinished := hall c hc
    exact ⟨hfinished.passes_le, hfinished.changed_iff, hfinished.rests⟩
  · have hcorrect : a.correct around = ⟨.error notAnalyzed, a, around⟩ := if_pos hdone
    refine ⟨fun h => absurd h hdone, fun cs hcs => ?_⟩
    rw [hcorrect, hnew] at hcs
    exact nomatch hcs

theorem options_analyze (a : Analyzer) (around : Surroundings) (paths toParse : List Text)
    (onlySingle : Bool) : (a.analyze around paths toParse onlySingle).analyzer.options = a.options := by
  unfold analyze
  split
  · rfl
  · dsimp only
    split
    · rfl
    · split
      · rfl
      · split <;> rfl

/-- A check that puts a mark in front of a query until the query starts with two. -/
def marksQueries : Check :=
  Script.check
    { info := { code := "Marks", severity := .error, categories := [.graphql] }
      onEnd := [{ verb := .report, unlessPrefix := "##", fix := [.replace ⟨0, 0⟩ "#"] }] }

/-- The analysis of a query that has no mark. -/
def queryAnalysis : Analyzer :=
  (analyzeFiles
    { snapshot := .ofContents [("find.graphql", "a")], checks := [marksQueries]
      options := { recheck := some [marksQueries] } } {} ["find.graphql"] true).analyzer

/-- A query that is marked in two passes is at rest then. -/
theorem correct_at_rest_marked :
    queryAnalysis.options.recheck = some [marksQueries] ∧ queryAnalysis.corrections = none ∧
      (queryAnalysis.correct {}).around.cancelled = false ∧
      ∃ c, (queryAnalysis.correct {}).analyzer.corrections = some [c] ∧ c.content = "##a" ∧
        c.passes = 2 ∧ queryAnalysis.AtRest [marksQueries] c.path c.content := by
  have hrecheck : queryAnalysis.options.recheck = some [marksQueries] :=
    congrArg AnalyzerOptions.recheck (options_analyze ..)
  have hnew : queryAnalysis.corrections = none := Option.isNone_iff_eq_none.1 (by decide +kernel)
  have hlive : (queryAnalysis.correct {}).around.cancelled = false := by decide +kernel
  have hlimit : queryAnalysis.options.passLimit = 10 := by decide +kernel
  have hshape : ((queryAnalysis.correct {}).analyzer.corrections.getD []).map
      (fun c => (c.content, c.passes)) = [(("##a" : Text), 2)] := by decide +kernel
  obtain ⟨hok, hfinished⟩ := correct_at_rest hrecheck hnew hlive
  obtain ⟨-, cs, hcs, -⟩ := hok (by decide +kernel)
  rw [hcs, Option.getD_some] at hshape
  obtain ⟨c, rfl, hc⟩ := List.map_eq_singleton_iff.1 hshape
  obtain ⟨hcontent, hpasses⟩ := Prod.mk.inj hc
  obtain ⟨-, -, hrests⟩ := hfinished _ hcs c (List.mem_singleton.2 rfl)
  rw [hlimit, hpasses] at hrests
  exact ⟨hrecheck, hnew, hlive, c, hcs, hcontent, hpasses,
    (hrests (by decide)).resolve_left (by decide)⟩

end Correct

end Analyzer
end LiquidLint
