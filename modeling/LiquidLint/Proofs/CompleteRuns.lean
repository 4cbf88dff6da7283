import LiquidLint.Check.Script
import LiquidLint.Proofs.AnalysisRuns

/-!
# Complete runs

A run looks whether it was cancelled before it reads files, before each path that it visits and before
each check that looks at the project, and nowhere else.  So it succeeds exactly if nothing cancelled it
before the last of its paths (`visitPaths_complete_iff`), and then it has visited all of them.

The look at the project has no way to fail: it calls checks up to the first that finds the run cancelled
(`calledOn`, `projectPass_eq`), and the run succeeds all the same.  So a run that succeeded has called
all checks that look at projects exactly if none but the last of these was preceded by a cancellation
(`calledOn_eq_lookers_iff`).  And it ends in the stage in which findings are handed out however it came
to its end (`stage_analyze`).
-/

namespace LiquidLint

open Source Store Analysis

namespace Analysis

/-! ## The look at the project -/

section Project

variable (o : AnalyzerOptions) (parsed : List ParsedFile) (view : ProjectView)

/-- The checks that look at projects. -/
def lookers (slots : List Slot) : List Slot := slots.filter (·.check.onProject.isSome)

/-- The checks that are called to look at the project: those that look at projects, up to the first that
finds the run cancelled. -/
def calledOn : List Slot → (cancelled : Bool) → List Slot
  | [], _ => []
  | s :: rest, cancelled =>
    if s.check.onProject.isSome then
      if cancelled then [] else s :: calledOn rest (s.raisedOn o parsed view).around.cancelled
    else calledOn rest cancelled

theorem calledOn_cancelled (slots : List Slot) : calledOn o parsed view slots true = [] := by
  induction slots with
  | nil => rfl
  | cons s rest ih =>
    rw [calledOn, if_pos rfl, ih]
    exact ite_self []

/-- **The look at the project calls checks until the run is cancelled**, and adds what each of them
raises by itself. -/
theorem projectPass_eq (slots : List Slot) (t : Tally) :
    projectPass o parsed view slots t =
      t ++ Tally.join ((calledOn o parsed view slots t.around.cancelled).map
        (Slot.raisedOn o parsed view)) := by
  by_cases ht : t.around.cancelled = true
  · rw [projectPass_cancelled _ _ _ _ ht, ht, calledOn_cancelled]
    exact t.append_empty.symm
  · induction slots generalizing t with
    | nil => exact t.append_empty.symm
    | cons s rest ih =>
      rw [projectPass, calledOn]
      cases hproject : s.check.onProject with
      | none => exact ih t ht
      | some react =>
        have hraised : s.raisedOn o parsed view = Tally.react (raiseReport? o parsed s.check.info)
            s.check.info.code none none (react s.past view) {} := by
          unfold Slot.raisedOn
          rw [hproject]
        dsimp only
        rw [if_neg ht, if_neg ht, if_pos Option.isSome_some, List.map_cons, Tally.join_cons,
          Tally.react_eq_append, ← hraised, ← Tally.append_assoc]
        by_cases hs : (s.raisedOn o parsed view).around.cancelled = true
        · -- the check cancels the run, and none is called after it
          have hnow : (t ++ s.raisedOn o parsed view).around.cancelled = true := by
            rw [Tally.cancelled_append, hs, Bool.or_true]
          rw [projectPass_cancelled _ _ _ _ hnow, hs, calledOn_cancelled]
          exact (Tally.append_empty _).symm
        · have hnow : (t ++ s.raisedOn o parsed view).around.cancelled =
              (s.raisedOn o parsed view).around.cancelled := by
            rw [Tally.cancelled_append, Bool.eq_false_iff.2 ht, Bool.false_or]
          rw [ih _ (by rw [hnow]; exact hs), hnow]

/-- The checks that are called are the first of those that look at projects. -/
theorem calledOn_initial (slots : List Slot) (cancelled : Bool) :
    calledOn o parsed view slots cancelled <+: lookers slots := by
  induction slots generalizing cancelled with
  | nil => exact List.nil_prefix
  | cons s rest ih =>
    rw [calledOn, lookers, List.filter_cons]
    split
    · split
      · exact List.nil_prefix
      · exact (List.prefix_cons_inj s).2 (ih _)
    · exact ih cancelled

/-- **All checks that look at projects are called** exactly if there are none, or nothing cancelled the
run before the last of them was called. -/
theorem calledOn_eq_lookers_iff (slots : List Slot) (cancelled : Bool) :
    calledOn o parsed view slots cancelled = lookers slots ↔
      lookers slots = [] ∨ cancelled = false ∧
        ∀ s ∈ (lookers slots).dropLast, (s.raisedOn o parsed view).around.cancelled = false := by
  induction slots generalizing cancelled with
  | nil => exact iff_of_true rfl (.inl rfl)
  | cons s rest ih =>
    rw [calledOn, lookers, List.filter_cons, ← lookers]
    split
    · cases cancelled with
      | true => exact iff_of_false (List.cons_ne_nil _ _).symm (by rintro (h | ⟨h, -⟩) <;> exact nomatch h)
      | false =>
        rw [if_neg Bool.false_ne_true, List.cons_inj_right, ih]
        refine ⟨fun h => .inr ⟨rfl, ?_⟩, fun h => ?_⟩
        · rcases h with hnone | ⟨hlive, hrest⟩
          · rw [hnone]
            exact nofun
          · cases hlookers : lookers rest with
            | nil => exact nofun
            | cons first others =>
              rw [hlookers] at hrest
              exact List.forall_mem_cons.2 ⟨hlive, hrest⟩
        · obtain ⟨-, hall⟩ := h.resolve_left (List.cons_ne_nil _ _)
          cases hlookers : lookers rest with
          | nil => exact .inl rfl
          | cons first others =>
            rw [hlookers] at hall
            exact .inr (List.forall_mem_cons.1 hall)
    · exact ih cancelled

end Project

end Analysis

namespace Analyzer

/-! ## The visits -/

/-- **Visits go through all paths** exactly if there are none, or nothing cancelled the run before the
last of them. -/
theorem visitPaths_complete_iff {a : Analyzer} {parsed : List ParsedFile} {paths : List Text}
    {g : Progress} :
    (visitPaths a parsed paths g).2 = true ↔
      paths = [] ∨ g.tally.around.cancelled = false ∧
        (raisedAcross a.options parsed (visitedFiles parsed paths.dropLast)
          g.slots).around.cancelled = false := by
  induction paths generalizing g with
  | nil => exact iff_of_true rfl (.inl rfl)
  | cons first rest ih =>
    rw [visitPaths]
    by_cases hcancelled : g.tally.around.cancelled = true
    · rw [if_pos hcancelled, hcancelled]
      exact iff_of_false Bool.false_ne_true (by rintro (h | ⟨h, -⟩) <;> cases h)
    · obtain ⟨hslots, htally, -, -⟩ := visitPath_spec a parsed first g
      rw [if_neg hcancelled, ih, hslots, htally, Tally.cancelled_append,
        Bool.eq_false_iff.2 hcancelled, Bool.false_or]
      cases rest with
      | nil => exact iff_of_true (.inl rfl) (.inr ⟨rfl, rfl⟩)
      | cons second others =>
        have hfiles : visitedFiles parsed (first :: second :: others).dropLast =
            visitedFiles parsed [first] ++ visitedFiles parsed (second :: others).dropLast :=
          List.filterMap_append (l := [first])
        rw [hfiles, raisedAcross_append, Tally.cancelled_append, Bool.or_eq_false_iff]
        simp only [reduceCtorEq, false_or, true_and]

/-! ## Analyses -/

section Analyse

variable (a : Analyzer) (paths toParse : List Text)

/-- The checks that a run calls to look at the project, once it has visited its paths. -/
def calledOnProject (around : Surroundings) : List Slot :=
  calledOn a.options (readable a.snapshot toParse) (a.view toParse) (a.slotsAfter paths toParse)
    (around.cancelled || (a.raisedInFiles paths toParse).around.cancelled)

variable {a}

/-- **An analysis ends in the same stage** however it came to its end. -/
theorem stage_analyze (around : Surroundings) (onlySingle : Bool) (hidle : a.stage = .idle) :
    (a.analyze around paths toParse onlySingle).analyzer.stage = .done := by
  unfold analyze
  rw [if_neg (not_not_intro hidle)]
  dsimp only
  split
  · rfl
  · split
    · rfl
    · split <;> rfl

/-- **An analysis succeeds** exactly if it was not cancelled before it had anything to do, nor in a file
before its last path. -/
theorem outcome_ok_iff (around : Surroundings) (onlySingle : Bool) (hidle : a.stage = .idle) :
    (a.analyze around paths toParse onlySingle).outcome = .ok () ↔
      (around.cancelled = false ∨ toParse = [] ∧ paths = []) ∧
        (raisedAcross a.options (readable a.snapshot toParse) (a.files paths.dropLast toParse)
          a.slots).around.cancelled = false := by
  by_cases hgo : (around.cancelled && !toParse.isEmpty) = true
  · unfold analyze
    rw [if_neg (not_not_intro hidle), if_pos hgo]
    obtain ⟨hcancelled, hparses⟩ := Bool.and_eq_true_iff.1 hgo
    refine iff_of_false nofun ?_
    rintro ⟨hlive | ⟨rfl, -⟩, -⟩
    · rw [hcancelled] at hlive
      exact nomatch hlive
    · exact nomatch hparses
  · obtain ⟨start, hstart, hok, -⟩ := analyze_spec paths toParse onlySingle hidle hgo
    rw [hok, visitPaths_complete_iff]
    dsimp only
    rw [hstart.cancelled]
    cases hcancelled : around.cancelled with
    | false =>
      refine ⟨fun h => ⟨.inl rfl, ?_⟩, fun h => .inr ⟨rfl, h.2⟩⟩
      rcases h with rfl | ⟨-, h⟩
      · rfl
      · exact h
    | true =>
      have hparses : toParse = [] := by
        rw [hcancelled, Bool.true_and, Bool.not_eq_true', Bool.not_eq_false] at hgo
        exact List.isEmpty_iff.1 hgo
      refine ⟨fun h => ?_, fun h => ?_⟩
      · obtain rfl := h.resolve_right fun h => nomatch h.1
        exact ⟨.inr ⟨hparses, rfl⟩, rfl⟩
      · obtain ⟨-, hpaths⟩ := h.1.resolve_left nofun
        exact .inl hpaths

/-- **What an analysis that succeeded has found**: what it raised in the files of all its paths and,
unless it stops there, what the checks raised that it called to look at the project. -/
theorem raised_of_ok {around : Surroundings} {onlySingle : Bool}
    (h : (a.analyze around paths toParse onlySingle).outcome = .ok ()) :
    let call := a.analyze around paths toParse onlySingle
    let called := if onlySingle then [] else a.calledOnProject paths toParse around
    let raised := Tally.join (called.map
      (Slot.raisedOn a.options (readable a.snapshot toParse) (a.view toParse)))
    call.analyzer.findings.paths = paths ∧
      call.analyzer.findings.projectPass = !onlySingle ∧
      call.analyzer.findings.single =
        readFailures a.snapshot toParse ++ (a.raisedInFiles paths toParse).offenses ∧
      call.analyzer.findings.project = raised.offenses ∧
      call.analyzer.fixes = (a.raisedInFiles paths toParse).fixes ++ raised.fixes := by
  obtain ⟨hpaths, hpass, hsingle, -⟩ := analyze_of_ok paths toParse onlySingle h
  obtain ⟨hidle, hgo⟩ := starts_of_ok paths toParse h
  obtain ⟨start, hstart, hok, hresult⟩ := analyze_spec paths toParse onlySingle hidle hgo
  obtain ⟨hslots, htally, -, -⟩ := visitPaths_complete (hok.1 h)
  obtain ⟨before, hoffenses, hfixes, hcancelled, hfindings, hafter⟩ := hresult (hok.1 h)
  have hraised : ∀ pass : Tally, pass = (if onlySingle then before else
        projectPass a.options (readable a.snapshot toParse) (a.view toParse)
          (a.slotsAfter paths toParse) before) →
      let called := if onlySingle then [] else a.calledOnProject paths toParse around
      let raised := Tally.join (called.map
        (Slot.raisedOn a.options (readable a.snapshot toParse) (a.view toParse)))
      pass.offenses = raised.offenses ∧ pass.fixes = raised.fixes := by
    rintro pass rfl
    cases onlySingle with
    | true => exact ⟨hoffenses, hfixes⟩
    | false =>
      have hbefore : before.around.cancelled =
          (around.cancelled || (a.raisedInFiles paths toParse).around.cancelled) := by
        rw [hcancelled, htally, Tally.cancelled_append, hstart.cancelled]
        rfl
      dsimp only
      rw [if_neg Bool.false_ne_true, if_neg Bool.false_ne_true, projectPass_eq, hbefore,
        Tally.offenses_append, Tally.fixes_append, hoffenses, hfixes]
      exact ⟨rfl, rfl⟩
  obtain ⟨hproject, hfixesAfter⟩ := hraised _ rfl
  refine ⟨hpaths, hpass, hsingle, ?_, ?_⟩
  · rw [hfindings, hslots]
    exact hproject
  · rw [hafter, hslots, htally, Tally.fixes_append, hstart.fixes]
    exact congrArg _ hfixesAfter

/-- **What an analysis that succeeded has done**: it has visited all its paths and, unless it stops
there, has called checks to look at the project until one of them found it cancelled.  These are all
checks that look at projects exactly if nothing cancelled it before the last of them.

An analysis succeeds exactly if it was not cancelled before its last path, but hands out findings
whether it succeeded or not. -/
theorem complete_of_ok (around : Surroundings) (onlySingle : Bool) (hidle : a.stage = .idle) :
    let call := a.analyze around paths toParse onlySingle
    let called := if onlySingle then [] else a.calledOnProject paths toParse around
    let raisedOn := Slot.raisedOn a.options (readable a.snapshot toParse) (a.view toParse)
    (call.outcome = .ok () →
        call.analyzer.findings.paths = paths ∧
          call.analyzer.findings.projectPass = !onlySingle ∧
          call.analyzer.findings.single =
            readFailures a.snapshot toParse ++ (a.raisedInFiles paths toParse).offenses ∧
          call.analyzer.findings.project = (Tally.join (called.map raisedOn)).offenses ∧
          call.analyzer.fixes =
            (a.raisedInFiles paths toParse).fixes ++ (Tally.join (called.map raisedOn)).fixes) ∧
      (a.calledOnProject paths toParse around = lookers (a.slotsAfter paths toParse) ↔
        lookers (a.slotsAfter paths toParse) = [] ∨
          (around.cancelled || (a.raisedInFiles paths toParse).around.cancelled) = false ∧
          ∀ s ∈ (lookers (a.slotsAfter paths toParse)).dropLast,
            (raisedOn s).around.cancelled = false) ∧
      (call.outcome = .ok () ↔
        (around.cancelled = false ∨ toParse = [] ∧ paths = []) ∧
          (raisedAcross a.options (readable a.snapshot toParse) (a.files paths.dropLast toParse)
            a.slots).around.cancelled = false) ∧
      call.analyzer.result = .ok call.analyzer.findings :=
  ⟨raised_of_ok paths toParse, calledOn_eq_lookers_iff ..,
    outcome_ok_iff paths toParse around onlySingle hidle,
    if_pos (stage_analyze paths toParse around onlySingle hidle)⟩

end Analyse

/-- A check that cancels the run at the end of each query, and marks the project. -/
def cancelling : Script :=
  { info := { code := "Halt", severity := .style, categories := [.graphql] }
    onEnd := [{ verb := .cancel }]
    onProject := [{ verb := .report, message := "seen" }] }

/-- An analysis of one query by a check that cancels it. -/
def haltedAnalysis : Analyzer :=
  { snapshot := ⟨⟨[("find.graphql", { content := .loaded "query" })]⟩⟩
    checks := [cancelling.check] }

/-- A check that cancels the run in its only file is not called to look at the project. -/
theorem complete_of_ok_halted :
    haltedAnalysis.stage = .idle ∧
      (haltedAnalysis.analyzeProject {}).outcome = .ok () ∧
      (haltedAnalysis.analyzeProject {}).analyzer.findings.paths = ["find.graphql"] ∧
      (haltedAnalysis.analyzeProject {}).analyzer.result =
        .ok (haltedAnalysis.analyzeProject {}).analyzer.findings := by
  unfold analyzeProject
  have hidle : haltedAnalysis.stage = .idle := rfl
  have hspec := complete_of_ok haltedAnalysis.analysable haltedAnalysis.analysable {} false hidle
  have hsucceeds := hspec.2.2.1.2 ⟨.inl rfl, by decide +kernel⟩
  exact ⟨hidle, hsucceeds, (hspec.1 hsucceeds).1.trans (by decide +kernel), hspec.2.2.2⟩

/-- **An analysis that succeeds may have left out checks**, though it says that it has looked at the
project, and one that was cancelled hands out findings. -/
theorem success_incomplete :
    (let call := haltedAnalysis.analyzeProject {}
      let paths := haltedAnalysis.analysable
      call.outcome = .ok () ∧ call.analyzer.findings.projectPass = true ∧
        (lookers (haltedAnalysis.slotsAfter paths paths)).map (·.check.info.code) = ["Halt"] ∧
        (haltedAnalysis.calledOnProject paths paths {}).map (·.check.info.code) = [] ∧
        call.analyzer.findings.project = []) ∧
      let call := haltedAnalysis.analyzeProject { cancelled := true }
      call.outcome ≠ .ok () ∧ call.analyzer.result = .ok call.analyzer.findings := by
  have hidle : haltedAnalysis.stage = .idle := rfl
  have hok {around : Surroundings} :=
    outcome_ok_iff haltedAnalysis.analysable haltedAnalysis.analysable around false hidle
  refine ⟨⟨?_, by decide +kernel, by decide +kernel, by decide +kernel, by decide +kernel⟩, ?_, ?_⟩
  · exact hok.2 ⟨.inl rfl, by decide +kernel⟩
  · intro hsucceeds
    obtain ⟨hnothing, -⟩ := (hok.1 hsucceeds).1.resolve_left nofun
    exact absurd hnothing (by decide +kernel)
  · unfold analyzeProject result
    rw [if_pos (stage_analyze _ _ _ false hidle)]

end Analyzer
end LiquidLint
