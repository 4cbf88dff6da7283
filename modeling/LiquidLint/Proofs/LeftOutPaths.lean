import LiquidLint.Proofs.AnalyzerLifecycle
import LiquidLint.Proofs.CorrectionPasses
import LiquidLint.Proofs.ProjectFindings

/-!
# Paths that are left out

The options of an analyzer leave paths out, and its snapshot may name paths whose content was not asked for
(`Analyzer.LeavesOut`).  Of such a path an analyzer should have nothing: no parsed file, no visit, no
offense, no fix and no correction (`Analyzer.Spares`).

What an analysis leaves is told once, however it ended (`analyze_leaves`): it parses what it was given to
parse, visits some of its paths, and the checks that it calls to look at the project know no other files.  So
a call has nothing to do with a path that is neither analysable nor named in the call (`Spares.serve`), and
neither has a whole run of calls (`spares_left_out`).

The condition on names is needed.  Only the list of what is analysable asks what is left out, and a path that
is named to an analysis does not go through it: it is analysed like any other, and an unread one as if it were
empty (`named_left_out`).
-/

namespace LiquidLint

open Source Store Analysis

/-! ## Paths of corrections -/

namespace Analyzer

section Corrections

variable (a : Analyzer)

/-- What a pass keeps of a correction, all passes keep. -/
theorem kept_correctMore {α : Type} {part : Correction → α}
    (hmerge : ∀ c o failures, part (c.merge o failures) = part c) (checks : List Check) (path : Text)
    (fuel : Nat) (c : Correction) (around : Surroundings) :
    part (a.correctMore checks path fuel c around).1 = part c := by
  induction fuel generalizing c around with
  | zero => rfl
  | succ fuel ih =>
    unfold correctMore
    dsimp only
    split
    · rfl
    · split
      · rfl
      · split
        · exact (ih _ _).trans (hmerge ..)
        · rfl

/-- **What a pass keeps of a correction** is in the correction of a file as it was before the first pass. -/
theorem kept_correctFile {α : Type} {part : Correction → α}
    (hmerge : ∀ c o failures, part (c.merge o failures) = part c)
    (hchanged : ∀ c changed, part { c with changed } = part c) (path : Text) (around : Surroundings) :
    part (a.correctFile path around).1 =
      part { path, stored := a.storedAt path, content := a.storedAt path } := by
  have hfirst : part (a.firstPass path around) = _ := hmerge ..
  cases hpass : (a.firstReplay path around).outcome.changed with
  | false =>
    rw [a.correctFile_of_unchanged hpass]
    exact hfirst
  | true =>
    cases hrecheck : a.options.recheck with
    | none =>
      have hfile : a.correctFile path around =
          if !(a.firstReplay path around).outcome.changed then _ else _ := rfl
      rw [hfile, hpass, if_neg (by decide), hrecheck]
      exact (hchanged ..).trans hfirst
    | some checks =>
      rw [(a.correctFile_of_changed hrecheck hpass).1, hchanged]
      exact (kept_correctMore a hmerge ..).trans hfirst

/-- **The correction of a file is for its path.** -/
theorem path_correctFile (path : Text) (around : Surroundings) :
    (a.correctFile path around).1.path = path :=
  kept_correctFile a Correction.path_merge (fun _ _ => rfl) path around

/-- **A run corrects its files in order**, and all of them unless it is cut short. -/
theorem paths_correctAll (paths : List Text) (done : List Correction) (around : Surroundings) :
    ∃ cs, (a.correctAll paths done around).1 = done ++ cs ∧ cs.map (·.path) <+: paths := by
  induction paths generalizing done around with
  | nil => exact ⟨[], (List.append_nil _).symm, List.nil_prefix⟩
  | cons path rest ih =>
    unfold correctAll
    split
    · exact ⟨[], (List.append_nil _).symm, List.nil_prefix⟩
    · obtain ⟨cs, hcs, hpaths⟩ := ih (done ++ [(a.correctFile path around).1])
        (a.correctFile path around).2
      refine ⟨(a.correctFile path around).1 :: cs, by rw [hcs, List.append_assoc]; rfl, ?_⟩
      rw [List.map_cons, path_correctFile]
      exact List.cons_prefix_cons.2 ⟨rfl, hpaths⟩

/-- **Corrections are for paths that have fixes.** -/
theorem path_of_mem_corrections {around : Surroundings} {cs : List Correction}
    (h : (a.correct around).analyzer.corrections = some cs) (hnew : a.corrections ≠ some cs) :
    ∀ c ∈ cs, ∃ p ∈ a.fixes, p.path = c.path := by
  unfold correct at h
  split at h
  · exact absurd h hnew
  · split at h
    · exact absurd h hnew
    · obtain ⟨cs', hcs', hpaths⟩ := a.paths_correctAll (Text.sortDedup (a.fixes.map (·.path))) []
        { around with log := [⟨.debug, "analyzer state", [("state", Stage.correcting.label)]⟩] }
      obtain rfl := (Option.some.inj h).symm.trans hcs'
      intro c hc
      have hmem := hpaths.mem (List.mem_map_of_mem hc)
      exact List.mem_map.1 (Text.mem_sortDedup.1 hmem)

end Corrections

/-- Writing changes no path. -/
theorem paths_writeAll {σ : Type} [Storage σ] (store : σ) (cs : List Correction) :
    (writeAll store cs).corrections.map (·.path) = cs.map (·.path) := by
  induction cs generalizing store with
  | nil => rfl
  | cons c rest ih =>
    unfold writeAll
    repeat' split
    all_goals exact congrArg (c.path :: ·) (ih _)

/-! ## What an analysis leaves -/

section Analyse

variable {a : Analyzer} {paths toParse : List Text}

/-- **What an analysis leaves**, however it ended.  Either it did not begin, or it has parsed what it was
given and visited the first of its paths, and then it may have called some checks to look at the project. -/
theorem analyze_leaves (around : Surroundings) (paths toParse : List Text) (onlySingle : Bool) :
    let after := (a.analyze around paths toParse onlySingle).analyzer
    after = a ∨ after = { a with stage := .done } ∨
      ∃ visited versions called projectPass,
        visited <+: paths ∧ called ⊆ a.slotsAfter visited toParse ∧
          let raised := a.raisedInFiles visited toParse
          let pass := Tally.join (called.map
            (Slot.raisedOn a.options (readable a.snapshot toParse) (a.view toParse)))
          after = { a with
            stage := .done
            parsed := readable a.snapshot toParse
            fixes := raised.fixes ++ pass.fixes
            findings :=
              { paths := visited, versions, projectPass
                single := readFailures a.snapshot toParse ++ raised.offenses
                project := pass.offenses } } := by
  unfold analyze
  split
  · exact .inl rfl
  · dsimp only
    split
    · exact .inr (.inl rfl)
    · obtain ⟨hparsed, hoffenses, hfixes, -⟩ := parseAll_spec a.snapshot toParse
        { around := { around with log := [⟨.debug, "analyzer state",
          [("state", Stage.parsing.label), ("files", Text.ofNat paths.length)]⟩] } }
      generalize parseAll a.snapshot toParse _ = read at hparsed hoffenses hfixes ⊢
      obtain ⟨parsed, told⟩ := read
      obtain rfl : parsed = _ := hparsed
      obtain ⟨visited, hinitial, -, hslots, htally, hpaths, -⟩ :=
        visitPaths_spec a (readable a.snapshot toParse) paths
          { slots := a.slots, tally := told.note (stageEntry .parsing .singleFilePass) }
      dsimp only [slots] at hslots htally hpaths ⊢
      generalize visitPaths a (readable a.snapshot toParse) paths _ = visits at hslots htally hpaths ⊢
      obtain ⟨g, complete⟩ := visits
      dsimp only at hslots htally hpaths ⊢
      have hsingle : g.tally.offenses =
          readFailures a.snapshot toParse ++ (a.raisedInFiles visited toParse).offenses := by
        rw [htally, Tally.offenses_append]
        exact congrArg (· ++ _) hoffenses
      have hfixesAfter : g.tally.fixes = (a.raisedInFiles visited toParse).fixes := by
        rw [htally, Tally.fixes_append]
        exact congrArg (· ++ (a.raisedInFiles visited toParse).fixes) hfixes
      have hvisited : g.paths = visited := hpaths.trans (List.nil_append _)
      have hconclude : a.conclude (readable a.snapshot toParse) g = { a with
          stage := .done
          parsed := readable a.snapshot toParse
          fixes := (a.raisedInFiles visited toParse).fixes ++ []
          findings :=
            { paths := visited, versions := g.versions
              single := readFailures a.snapshot toParse ++
                (a.raisedInFiles visited toParse).offenses } } := by
        unfold conclude
        rw [hsingle, hfixesAfter, hvisited, List.append_nil]
      refine .inr (.inr ⟨visited, g.versions, ?_⟩)
      split
      · exact ⟨[], false, hinitial, List.nil_subset _, hconclude⟩
      · split
        · exact ⟨[], false, hinitial, List.nil_subset _, hconclude⟩
        · rw [projectPass_eq, hconclude, List.append_nil]
          refine ⟨_, true, hinitial, fun s hs => ?_, rfl⟩
          rw [hslots] at hs
          exact (List.mem_filter.1 ((calledOn_initial _ _ _ _ _).mem hs)).1

end Analyse

/-! ## Left out paths -/

/-- The options leave the path out, or its content was not asked for. -/
def LeftOut (s : Snapshot) (o : AnalyzerOptions) (path : Text) : Prop :=
  o.exclude path = true ∨ ∃ version, s.state? path = some ⟨.unread, version⟩

/-- The paths that a call names. -/
def Request.named : Request → List Text
  | analyzeFiles _ paths _ => paths
  | analyzeProject _ | correct _ | write .. | result => []

/-- All checks of the analyzer keep to the project. -/
def KeepsToProject (a : Analyzer) : Prop := ∀ k ∈ a.checks, k.KeepsToProject

/-- The analyzer has nothing of a path.  What it has of the project comes from its checks, which may report
on files that they were not shown unless they keep to the project. -/
structure Spares (a : Analyzer) (path : Text) : Prop where
  parsed : ∀ p ∈ a.parsed, p.file.path ≠ path
  visited : path ∉ a.findings.paths
  single : ∀ o ∈ a.findings.single, o.path ≠ path
  project : a.KeepsToProject → ∀ o ∈ a.findings.project, o.path = path → AtNoFile o
  fixes : a.KeepsToProject → ∀ p ∈ a.fixes, p.path ≠ path
  corrections : a.KeepsToProject → ∀ cs, a.corrections = some cs → ∀ c ∈ cs, c.path ≠ path

section LeftOut

variable {a : Analyzer} {path : Text}

/-- **A path that is left out is not analysable.** -/
theorem LeftOut.not_mem_analysable (h : LeftOut a.snapshot a.options path)
    (hsorted : a.snapshot.entries.Ordered) : path ∉ a.analysable := by
  intro hmem
  obtain ⟨⟨key, e⟩, he, hkept⟩ := List.mem_filterMap.1 hmem
  obtain ⟨hgo, hkey⟩ := Option.ite_none_left_eq_some.1 hkept
  obtain rfl := Option.some.inj hkey
  rw [Bool.or_eq_true, Bool.or_eq_true] at hgo
  rcases h with hexcluded | ⟨version, hunread⟩
  · exact hgo (.inl (.inl hexcluded))
  · obtain rfl := Option.some.inj ((hsorted.mem_entries.1 he).symm.trans hunread)
    exact hgo (.inl (.inr rfl))

theorem spares_new (snapshot : Snapshot) (checks : List Check) (options : AnalyzerOptions)
    (runId path : Text) : ({ snapshot, checks, options, runId } : Analyzer).Spares path where
  parsed _ hp := absurd hp List.not_mem_nil
  visited := List.not_mem_nil
  single _ ho := absurd ho List.not_mem_nil
  project _ _ ho := absurd ho List.not_mem_nil
  fixes _ _ hp := absurd hp List.not_mem_nil
  corrections _ _ hcs := nomatch hcs

namespace Spares

/-- **An analysis spares what it does not parse.** -/
theorem analyze (h : a.Spares path) {paths toParse : List Text} (hpaths : ∀ p ∈ paths, p ∈ toParse)
    (hpath : path ∉ toParse) (around : Surroundings) (onlySingle : Bool) :
    (a.analyze around paths toParse onlySingle).analyzer.Spares path := by
  -- whatever an analysis leaves is about a path that it was given to parse
  have hne {other : Text} (hother : other ∈ toParse) : other ≠ path := fun heq => hpath (heq ▸ hother)
  rcases analyze_leaves around paths toParse onlySingle with
    hsame | hsame | ⟨visited, versions, called, projectPass, hinitial, hcalled, hafter⟩
  · rw [hsame]
    exact h
  · rw [hsame]
    exact ⟨h.parsed, h.visited, h.single, h.project, h.fixes, h.corrections⟩
  · have hvisited : ∀ p ∈ visited, p ∈ toParse := fun p hp => hpaths p (hinitial.mem hp)
    rw [hafter]
    refine ⟨fun p hp => ?_, fun hmem => hpath (hvisited _ hmem), fun o ho => ?_,
      fun hkeeps o ho hat => ?_, fun hkeeps p hp => ?_, h.corrections⟩
    · obtain ⟨other, hother, hparse⟩ := mem_readable.1 hp
      rw [path_of_parseOne hparse]
      exact hne hother
    · rcases List.mem_append.1 ho with ho | ho
      · exact hne (path_readFailures ho)
      · obtain ⟨f, hf, hof⟩ := path_raisedAcross _ _ _ _ o ho
        rw [hof]
        exact hne (hvisited _ (path_of_mem_files hvisited hf))
    · dsimp only at ho
      rw [Tally.offenses_join, List.flatMap_map] at ho
      obtain ⟨s, hs, ho⟩ := List.mem_flatMap.1 ho
      have hcheck := hkeeps _ (check_mem_of_slotsAfter visited toParse (hcalled hs))
      rcases path_raisedOn hcheck o ho with ⟨f, hof, hshown⟩ | ⟨hnowhere, -⟩
      · exact absurd (hof.symm.trans hat) (hne (path_of_shown hvisited (hcalled hs) hshown))
      · exact hnowhere
    · rcases List.mem_append.1 hp with hp | hp
      · obtain ⟨f, hf, hof⟩ := fixes_path_raisedAcross _ _ _ _ p hp
        rw [hof]
        exact hne (hvisited _ (path_of_mem_files hvisited hf))
      · rw [Tally.fixes_join, List.flatMap_map] at hp
        obtain ⟨s, hs, hp⟩ := List.mem_flatMap.1 hp
        have hcheck := hkeeps _ (check_mem_of_slotsAfter visited toParse (hcalled hs))
        obtain ⟨f, hof, hshown⟩ := fixes_path_raisedOn hcheck p hp
        rw [hof]
        exact hne (path_of_shown hvisited (hcalled hs) hshown)

/-- **A correction spares what has no fix.** -/
theorem correct (h : a.Spares path) (around : Surroundings) :
    (a.correct around).analyzer.Spares path := by
  have hkept : (a.correct around).analyzer = a ∨
      ∃ cs, (a.correct around).analyzer = { a with corrections := some cs } := by
    unfold Analyzer.correct
    split
    · exact .inl rfl
    · split
      · exact .inl rfl
      · exact .inr ⟨_, rfl⟩
  rcases hkept with hsame | ⟨cs, hafter⟩
  · rw [hsame]
    exact h
  · have hcs := congrArg Analyzer.corrections hafter
    rw [hafter]
    refine ⟨h.parsed, h.visited, h.single, h.project, h.fixes, fun hkeeps cs' hcs' c hc => ?_⟩
    obtain rfl := Option.some.inj hcs'
    by_cases hold : a.corrections = some cs
    · exact h.corrections hkeeps cs hold c hc
    · obtain ⟨p, hp, hof⟩ := path_of_mem_corrections a hcs hold c hc
      rw [← hof]
      exact h.fixes hkeeps p hp

/-- **Writing spares what is not corrected.** -/
theorem write (h : a.Spares path) {σ : Type} [Storage σ] (around : Surroundings) (store : σ) :
    (a.writeCorrections around store).2.2.1.Spares path := by
  unfold writeCorrections
  split
  · exact h
  · split
    · exact h
    · rename_i cs hcs
      dsimp only
      split
      · exact h
      · refine ⟨h.parsed, h.visited, h.single, h.project, h.fixes, fun hkeeps cs' hcs' c hc => ?_⟩
        have hmem : c.path ∈ cs.map (·.path) := by
          rw [← paths_writeAll store cs, Option.some.inj hcs']
          exact List.mem_map_of_mem hc
        obtain ⟨c', hc', hof⟩ := List.mem_map.1 hmem
        rw [← hof]
        exact h.corrections hkeeps cs hcs c' hc'

/-- **A call spares what is neither analysable nor named in it.** -/
theorem serve (h : a.Spares path) (r : Request) (hout : path ∉ a.analysable) (hnamed : path ∉ r.named) :
    (a.serve r).2.Spares path := by
  cases r with
  | analyzeProject around => exact h.analyze (fun _ hp => hp) hout around false
  | analyzeFiles around paths onlySingle =>
    have hpaths : path ∉ Text.sortDedup paths := fun hmem => hnamed (Text.mem_sortDedup.1 hmem)
    cases onlySingle with
    | true => exact h.analyze (fun _ hp => hp) hpaths around true
    | false =>
      refine h.analyze (fun p hp => ?_) (fun hmem => ?_) around false
      · exact Text.mem_sortDedup.2 (List.mem_append_left _ hp)
      · exact (List.mem_append.1 (Text.mem_sortDedup.1 hmem)).elim hpaths hout
  | correct around => exact h.correct around
  | write around store => exact h.write around store
  | result => exact h

end Spares

/-- A call changes neither the snapshot nor the checks nor the options. -/
theorem kept_of_serve (a : Analyzer) (r : Request) :
    (a.serve r).2.snapshot = a.snapshot ∧ (a.serve r).2.checks = a.checks ∧
      (a.serve r).2.options = a.options := by
  have hanalysis (around : Surroundings) (paths toParse : List Text) (onlySingle : Bool) :
      (a.analyze around paths toParse onlySingle).analyzer.snapshot = a.snapshot ∧
        (a.analyze around paths toParse onlySingle).analyzer.checks = a.checks ∧
        (a.analyze around paths toParse onlySingle).analyzer.options = a.options := by
    rcases analyze_leaves around paths toParse onlySingle with
      hsame | hsame | ⟨visited, versions, called, projectPass, -, -, hafter⟩
    · rw [hsame]
      exact ⟨rfl, rfl, rfl⟩
    · rw [hsame]
      exact ⟨rfl, rfl, rfl⟩
    · rw [hafter]
      exact ⟨rfl, rfl, rfl⟩
  cases r with
  | analyzeProject around => exact hanalysis ..
  | analyzeFiles around paths onlySingle => exact hanalysis ..
  | correct around =>
    unfold serve Analyzer.correct
    dsimp only
    repeat' split
    all_goals exact ⟨rfl, rfl, rfl⟩
  | write around store =>
    unfold serve writeCorrections
    dsimp only
    repeat' split
    all_goals exact ⟨rfl, rfl, rfl⟩
  | result => exact ⟨rfl, rfl, rfl⟩

/-- The paths that are analysable stay the same. -/
theorem Spares.after (h : a.Spares path) (requests : List Request) (hout : path ∉ a.analysable)
    (hnamed : ∀ r ∈ requests, path ∉ r.named) : (a.after requests).Spares path := by
  induction requests generalizing a with
  | nil => exact h
  | cons r rest ih =>
    obtain ⟨hsnapshot, -, hoptions⟩ := kept_of_serve a r
    have hout' : path ∉ (a.serve r).2.analysable := by
      unfold analysable
      rw [hsnapshot, hoptions]
      exact hout
    exact ih (h.serve r hout (hnamed r (List.mem_cons_self ..))) hout'
      fun r hr => hnamed r (List.mem_cons_of_mem _ hr)

/-- **Paths that are left out are never analysed, unless they are named.**  Whatever calls are made to a new
analyzer, of a path that its options leave out, or whose content its snapshot does not have, no file is
parsed, the path is not visited and carries no offense, and where the checks keep to the project it carries
none of the project and receives no correction — as long as no call names the path. -/
theorem spares_left_out (snapshot : Snapshot) (checks : List Check) (options : AnalyzerOptions)
    (runId path : Text) (hsorted : snapshot.entries.Ordered) (hleft : LeftOut snapshot options path)
    (requests : List Request) (hnamed : ∀ r ∈ requests, path ∉ r.named) :
    (({ snapshot, checks, options, runId } : Analyzer).after requests).Spares path :=
  (spares_new snapshot checks options runId path).after requests (hleft.not_mem_analysable hsorted)
    hnamed

/-- **A path that is named is analysed**, whether it is left out or not.  Where its content was not asked
for, the file that is parsed is an empty one. -/
theorem named_left_out {around : Surroundings} {paths : List Text} {onlySingle : Bool}
    (h : (a.analyzeFiles around paths onlySingle).outcome = .ok ()) (hpath : path ∈ paths) :
    let after := (a.analyzeFiles around paths onlySingle).analyzer
    path ∈ after.findings.paths ∧
      ∀ version, a.snapshot.state? path = some ⟨.unread, version⟩ →
        ∃ p ∈ after.parsed, p.file = SourceFile.parse path [] version := by
  have hmem : path ∈ Text.sortDedup paths := Text.mem_sortDedup.2 hpath
  have hparses : path ∈ if onlySingle then Text.sortDedup paths else
      Text.sortDedup (Text.sortDedup paths ++ a.analysable) := by
    split
    · exact hmem
    · exact Text.mem_sortDedup.2 (List.mem_append_left _ hmem)
  obtain ⟨hpaths, -⟩ := analyze_of_ok _ _ onlySingle h
  obtain ⟨-, -, -, -, hparsed⟩ := kept_of_ok _ _ h
  refine ⟨?_, fun version hunread => ?_⟩
  · unfold analyzeFiles
    rw [hpaths]
    exact hmem
  · unfold analyzeFiles
    rw [hparsed]
    have hread : ∃ p, parseOne a.snapshot path = .ok p ∧ p.file = SourceFile.parse path [] version := by
      unfold parseOne Snapshot.read
      rw [hunread]
      exact ⟨_, rfl, rfl⟩
    obtain ⟨p, hparse, hfile⟩ := hread
    exact ⟨p, mem_readable.2 ⟨path, hparses, hparse⟩, hfile⟩

end LeftOut

/-- An analysis of three queries: the options leave out the second, and the third was not read. -/
def draftAnalysis : Analyzer :=
  { snapshot := ⟨⟨[("a.graphql", { content := .loaded "a" }), ("b.graphql", { content := .loaded "b" }),
      ("c.graphql", { content := .unread })]⟩⟩
    checks := [marksQueries]
    options := { exclude := fun path => path = ("b.graphql" : Text) } }

theorem left_out_drafts : ∀ path ∈ (["b.graphql", "c.graphql"] : List Text),
    LeftOut draftAnalysis.snapshot draftAnalysis.options path :=
  List.forall_mem_cons.2 ⟨.inl (by decide), List.forall_mem_singleton.2 (.inr ⟨0, by rfl⟩)⟩

/-- Nothing of the two is touched when the project is analysed and corrected. -/
theorem spares_left_out_drafts :
    let requests : List Request := [.analyzeProject {}, .correct {}]
    draftAnalysis.snapshot.entries.Ordered ∧
      (∀ path ∈ (["b.graphql", "c.graphql"] : List Text),
        LeftOut draftAnalysis.snapshot draftAnalysis.options path ∧
          (∀ r ∈ requests, path ∉ r.named) ∧ (draftAnalysis.after requests).Spares path) ∧
      ((draftAnalysis.after requests).corrections.getD []).map (·.path) =
        (["a.graphql"] : List Text) := by
  intro requests
  have hsorted : draftAnalysis.snapshot.entries.Ordered := by
    unfold Table.Ordered
    decide +kernel
  have hnamed (path : Text) : ∀ r ∈ requests, path ∉ r.named :=
    List.forall_mem_cons.2 ⟨List.not_mem_nil, List.forall_mem_singleton.2 List.not_mem_nil⟩
  refine ⟨hsorted, fun path hpath => ⟨left_out_drafts path hpath, hnamed path, ?_⟩, by decide +kernel⟩
  exact spares_left_out draftAnalysis.snapshot draftAnalysis.checks draftAnalysis.options [] path hsorted
    (left_out_drafts path hpath) requests (hnamed path)

/-- The analysis when one of the queries has been named to it. -/
def draftsNamed (path : Text) : Analyzer :=
  draftAnalysis.after [.analyzeFiles {} [path] true, .correct {}]

/-- **Naming one of the two is enough**: it is parsed and visited, carries an offense and is corrected. -/
theorem left_out_analysed :
    (LeftOut draftAnalysis.snapshot draftAnalysis.options "b.graphql" ∧
      (draftsNamed "b.graphql").parsed.map (·.file.path) = (["b.graphql"] : List Text) ∧
      (draftsNamed "b.graphql").findings.paths = (["b.graphql"] : List Text) ∧
      (draftsNamed "b.graphql").findings.single.map (·.path) = (["b.graphql"] : List Text) ∧
      ((draftsNamed "b.graphql").corrections.getD []).map (·.path) = (["b.graphql"] : List Text)) ∧
    LeftOut draftAnalysis.snapshot draftAnalysis.options "c.graphql" ∧
      (draftsNamed "c.graphql").parsed.map (·.file.path) = (["c.graphql"] : List Text) ∧
      (draftsNamed "c.graphql").findings.paths = (["c.graphql"] : List Text) ∧
      (draftsNamed "c.graphql").findings.single.map (·.path) = (["c.graphql"] : List Text) ∧
      ((draftsNamed "c.graphql").corrections.getD []).map (·.path) = (["c.graphql"] : List Text) := by
  refine ⟨⟨left_out_drafts _ (by decide), ?_⟩, left_out_drafts _ (by decide), ?_⟩
  · decide +kernel
  · decide +kernel

end Analyzer
end LiquidLint
