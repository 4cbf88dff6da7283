import LiquidLint.Proofs.CompleteRuns
import LiquidLint.Proofs.FileVersions

/-!
# Corrections by built-in checks

Where the fixes of a file are clean, replaying them leaves its content well-formed and the run as it was
(`replay_clean`).  So it is with every pass of a correction by built-in checks, and with the whole of it
(`correctMore_clean`).  The content that comes out below the limit of passes is one that a further pass
leaves as it is, and content that a pass leaves as it is does not change at all
(`Analyzer.Corrected`, `correctFile_clean`).

An analysis leaves at each of its paths the content that it read and the fixes that fresh checks have for
it (`examined_of_ok`), and that is what corrections start from (`correct_clean`).
-/

namespace LiquidLint

open Source Store Analysis Text

/-! ## Replaying clean fixes -/

namespace Analysis

/-- What holds of the replay of clean fixes on a file. -/
structure Replay.Clean (f : SourceFile) (r : Replay) : Prop where
  kept : Corrector.Kept f r.corrector
  edits : ∀ e ∈ r.corrector.edits, e.Clean f.source
  live : r.cancelled = false

/-- An edit that is asked for at seams is clean, if it is taken up. -/
theorem Replay.Clean.replace {f : SourceFile} {r : Replay} (h : r.Clean f) {e : Edit}
    (he : e.Clean f.source) :
    Replay.Clean f { r with corrector := r.corrector.replace (Span.mk e.start e.stop).toRange e.text } := by
  refine ⟨h.kept.replace .., fun e' he' => ?_, h.live⟩
  unfold Corrector.replace at he'
  split at he'
  · exact h.edits e' he'
  · rcases List.mem_append.1 he' with he' | he'
    · exact h.edits e' he'
    · obtain rfl := List.mem_singleton.1 he'
      exact ⟨he.start, he.stop, he.text⟩

theorem Replay.Clean.follow {f : SourceFile} {fix : Fix} (hfix : Fix.Clean f.source fix) (code : Text)
    {r : Replay} (h : r.Clean f) : Replay.Clean f (follow code fix r) := by
  induction fix generalizing r with
  | nil => exact h
  | cons step rest ih =>
    obtain ⟨e, he, rfl⟩ := hfix step (List.mem_cons_self ..)
    exact ih (fun step hstep => hfix step (List.mem_cons_of_mem _ hstep)) (h.replace he)

/-- **Replaying clean fixes** leaves the content well-formed and the run as it was. -/
theorem replay_clean {f : SourceFile} (hsource : WellFormed f.source) {stored : Text}
    (hstored : WellFormed stored) {fixes : List PendingFix}
    (hfixes : ∀ p ∈ fixes, Fix.Clean f.source p.fix) (around : Surroundings) :
    WellFormed (replay (some f) stored fixes around).outcome.content ∧
      (replay (some f) stored fixes around).around.cancelled = around.cancelled := by
  have hfold (r : Replay) (hr : r.Clean f) : (fixes.foldl Replay.add r).Clean f := by
    induction fixes generalizing r with
    | nil => exact hr
    | cons p rest ih =>
      refine ih (fun p hp => hfixes p (List.mem_cons_of_mem _ hp)) _ ?_
      have hnamed : Replay.Clean f { r with corrector := { r.corrector with check := p.code } } :=
        ⟨⟨hr.kept.file, hr.kept.placed, hr.kept.numbered, hr.kept.below⟩, hr.edits, hr.live⟩
      exact hnamed.follow (hfixes p (List.mem_cons_self ..)) p.code
  have hall := hfold { corrector := { file := f } } ⟨Corrector.kept_empty f, nofun, rfl⟩
  cases fixes with
  | nil => exact ⟨hstored, rfl⟩
  | cons p rest =>
    refine ⟨hall.kept.wellFormed_content hsource hall.edits hstored, ?_⟩
    show (around.cancelled || ((p :: rest).foldl Replay.add _).cancelled) = around.cancelled
    rw [hall.live, Bool.or_false]

end Analysis

namespace Analyzer

/-! ## Passes -/

section Passes

variable {a : Analyzer} {checks : List Check} {path content : Text} {around : Surroundings}

/-- What the analysis leaves for the correction of a path: its content, its file and the fixes that fresh
checks have for it. -/
structure Examined (a : Analyzer) (checks : List Check) (path content : Text) : Prop where
  valid : WellFormed content
  stored : a.storedAt path = content
  file : ∃ version, a.file? path = some (SourceFile.parse path content version)
  fixes : a.fixesOf path = a.fixesAnew checks path content

/-- What the correction of a path came to, in a run that goes on. -/
structure Corrected (a : Analyzer) (checks : List Check) (c : Correction) : Prop where
  stored : c.stored = a.storedAt c.path
  valid : WellFormed c.content
  changed_iff : c.changed = true ↔ c.content ≠ c.stored
  rests : c.passes < a.options.passLimit → a.pass checks c.path c.content = c.content
  unchanged : a.pass checks c.path c.stored = c.stored → c.changed = false

/-- **Replaying what fresh built-in checks have for a content** leaves it well-formed. -/
theorem replay_fixesAnew (hchecks : ∀ k ∈ checks, k ∈ Rule.all) (hvalid : WellFormed content)
    (around : Surroundings) :
    let r := replay (some (parseAnew path content).file) content (a.fixesAnew checks path content) around
    WellFormed r.outcome.content ∧ r.around.cancelled = around.cancelled := by
  refine replay_clean ?_ hvalid ?_ around
  · exact wellFormed_sourceOf (wellFormed_replaceInvalid content)
  · show ∀ p ∈ a.fixesAnew checks path content, Fix.Clean (sourceOf (replaceInvalid content)) p.fix
    rw [hvalid.replaceInvalid_eq]
    exact a.fixesAnew_clean hchecks hvalid

/-- **The first pass of a correction** is a pass over the content that was read. -/
theorem Examined.firstReplay (h : a.Examined checks path content) (hchecks : ∀ k ∈ checks, k ∈ Rule.all)
    (around : Surroundings) :
    (a.firstReplay path around).outcome.content = a.pass checks path content ∧
      WellFormed (a.firstReplay path around).outcome.content ∧
      (a.firstReplay path around).around.cancelled = around.cancelled := by
  obtain ⟨version, hfile⟩ := h.file
  have hfirst : a.firstReplay path around = replay (some (SourceFile.parse path content version)) content
      (a.fixesAnew checks path content) around := by
    unfold Analyzer.firstReplay
    rw [hfile, h.stored, h.fixes]
  have hversion : (SourceFile.parse path content version).atVersion 1 = (parseAnew path content).file := by
    unfold parseAnew
    rw [h.valid.replaceInvalid_eq]
    rfl
  have hsource : WellFormed (SourceFile.parse path content version).source := wellFormed_sourceOf h.valid
  obtain ⟨hwell, hlive⟩ := replay_clean hsource h.valid (a.fixesAnew_clean hchecks h.valid) around
  rw [hfirst]
  refine ⟨?_, hwell, hlive⟩
  unfold pass
  rw [← hversion, outcome_replay_atVersion, outcome_replay _ _ _ around {}]

/-- **Corrections by built-in checks leave content well-formed** and let the run go on. -/
theorem correctMore_clean (hchecks : ∀ k ∈ checks, k ∈ Rule.all) {fuel : Nat} {c : Correction}
    (hvalid : WellFormed c.content) (hlive : around.cancelled = false) :
    WellFormed (a.correctMore checks path fuel c around).1.content ∧
      (a.correctMore checks path fuel c around).2.cancelled = false := by
  induction fuel generalizing c around with
  | zero => exact ⟨hvalid, hlive⟩
  | succ fuel ih =>
    obtain ⟨hok, hfile, hfixes⟩ := a.recheck_of_live checks path c.content hlive
    have hagain : (a.recheck checks around path c.content).around.cancelled = false := by
      rw [recheck_eq, cancelled_analyze _ _ _ _ fun k hk => Rule.neverCancels_of_mem_all (hchecks k hk)]
      exact hlive
    obtain ⟨hwell, hafter⟩ := @replay_fixesAnew a checks path c.content hchecks hvalid
      (a.recheck checks around path c.content).around
    rw [correctMore, hok, hfile, hfixes]
    dsimp only at hwell hafter ⊢
    split
    · exact ⟨hvalid, hagain⟩
    · split
      · rename_i hchanged
        refine ih ?_ (hafter.trans hagain)
        unfold Correction.merge
        rw [if_pos hchanged]
        exact hwell
      · exact ⟨hvalid, hafter.trans hagain⟩

/-- **The correction of a file by built-in checks.** -/
theorem correctFile_clean (hrecheck : a.options.recheck = some checks)
    (hchecks : ∀ k ∈ checks, k ∈ Rule.all) (h : a.Examined checks path content)
    (hlive : around.cancelled = false) :
    (a.correctFile path around).2.cancelled = false ∧ (a.correctFile path around).1.path = path ∧
      a.Corrected checks (a.correctFile path around).1 := by
  obtain ⟨hpass, hwell, hfirst⟩ := h.firstReplay hchecks around
  have hpasses : (a.firstReplay path around).outcome.changed = true ↔
      a.pass checks path content ≠ content := by
    rw [← hpass, ← h.stored]
    exact changed_replay ..
  cases hchanged : (a.firstReplay path around).outcome.changed with
  | false =>
    -- the pass leaves the content as it is
    have hrests : a.pass checks path content = content := by
      by_contra hne
      rw [hpasses.2 hne] at hchanged
      exact nomatch hchanged
    have hkept : a.firstPass path around =
        { path, stored := a.storedAt path, content := a.storedAt path
          applied := 0 + (a.firstReplay path around).outcome.applied.length
          conflicts := [] ++ (a.firstReplay path around).outcome.conflicts
          failures := [] ++ (a.firstReplay path around).failures } := by
      unfold firstPass Correction.merge
      rw [hchanged]
      rfl
    rw [correctFile_of_unchanged hchanged, hkept, h.stored]
    exact ⟨hfirst.trans hlive, rfl, h.stored.symm, h.valid, iff_of_false nofun fun hne => hne rfl,
      fun _ => hrests, fun _ => rfl⟩
  | true =>
    have hlimit := passLimit_pos a.options
    obtain ⟨hfile, haround⟩ := correctFile_of_changed hrecheck hchanged
    have hfirstPasses : (a.firstPass path around).passes = 1 := Correction.passes_merge _ hchanged _
    have hvalid : WellFormed (a.firstPass path around).content := by
      unfold firstPass Correction.merge
      rw [if_pos hchanged]
      exact hwell
    obtain ⟨hmore, hgoes⟩ := @correctMore_clean a checks path (a.firstReplay path around).around hchecks
      (a.options.passLimit - (a.firstPass path around).passes) (a.firstPass path around) hvalid
      (hfirst.trans hlive)
    obtain ⟨hpath, hstored, -, hstop⟩ := correctMore_run hgoes
    rw [hfile, haround]
    generalize a.correctMore checks path (a.options.passLimit - (a.firstPass path around).passes)
      (a.firstPass path around) (a.firstReplay path around).around = more at *
    have hpath : more.1.path = path := hpath.trans (Correction.path_merge ..)
    have hstored : more.1.stored = a.storedAt path := hstored.trans (Correction.stored_merge ..)
    refine ⟨hgoes, hpath, ?_, hmore, ?_, fun hbelow => ?_, fun hrests => ?_⟩
    · exact hstored.trans (congrArg a.storedAt hpath.symm)
    · show decide (more.1.content ≠ a.storedAt path) = true ↔ more.1.content ≠ more.1.stored
      rw [hstored]
      exact decide_eq_true_iff
    · show a.pass checks more.1.path more.1.content = more.1.content
      have hbelow : more.1.passes < a.options.passLimit := hbelow
      rw [hpath, ← atRest_iff]
      exact hstop.resolve_left (by omega)
    · -- the first pass did change the content
      have hrests : a.pass checks more.1.path more.1.stored = more.1.stored := hrests
      rw [hpath, hstored, h.stored] at hrests
      exact absurd hrests (hpasses.1 hchanged)

end Passes

/-! ## Corrections of a run -/

section Correct

variable {a : Analyzer} {checks : List Check} {around : Surroundings}

/-- **Built-in checks correct every file** of a run that goes on, one after the other. -/
theorem correctAll_clean (hrecheck : a.options.recheck = some checks)
    (hchecks : ∀ k ∈ checks, k ∈ Rule.all) {paths : List Text} {done : List Correction}
    (h : ∀ path ∈ paths, ∃ content, a.Examined checks path content)
    (hlive : around.cancelled = false) :
    ∃ cs, (a.correctAll paths done around).1 = done ++ cs ∧
      (a.correctAll paths done around).2.1 = true ∧
      (a.correctAll paths done around).2.2.cancelled = false ∧ cs.map (·.path) = paths ∧
      ∀ c ∈ cs, a.Corrected checks c := by
  induction paths generalizing done around with
  | nil => exact ⟨[], (List.append_nil _).symm, rfl, hlive, rfl, nofun⟩
  | cons path rest ih =>
    obtain ⟨content, hexamined⟩ := h path (List.mem_cons_self ..)
    obtain ⟨hgoes, hpath, hcorrected⟩ := correctFile_clean hrecheck hchecks hexamined hlive
    obtain ⟨cs, hdone, hcomplete, hlast, hpaths, hall⟩ :=
      @ih (a.correctFile path around).2 (done ++ [(a.correctFile path around).1])
        (fun path' hpath' => h path' (List.mem_cons_of_mem _ hpath')) hgoes
    have hnext : a.correctAll (path :: rest) done around =
        a.correctAll rest (done ++ [(a.correctFile path around).1]) (a.correctFile path around).2 := by
      rw [correctAll, if_neg (by rw [hlive]; exact Bool.false_ne_true)]
    rw [hnext]
    refine ⟨(a.correctFile path around).1 :: cs, ?_, hcomplete, hlast, ?_, ?_⟩
    · rw [hdone, List.append_assoc]
      rfl
    · rw [List.map_cons, hpath, hpaths]
    · exact List.forall_mem_cons.2 ⟨hcorrected, hall⟩

/-- **Corrections by built-in checks succeed** after an analysis that is done, if the run goes on or there
is nothing to fix.  There is one for each path that has a fix. -/
theorem correct_clean (hrecheck : a.options.recheck = some checks)
    (hchecks : ∀ k ∈ checks, k ∈ Rule.all) (hdone : a.stage = .done) (hnew : a.corrections = none)
    (h : ∀ p ∈ a.fixes, ∃ content, a.Examined checks p.path content)
    (hlive : around.cancelled = false ∨ a.fixes = []) :
    (a.correct around).outcome = .ok () ∧
      (a.correct around).around.cancelled = around.cancelled ∧
      ∃ cs, (a.correct around).analyzer = { a with corrections := some cs } ∧
        cs.map (·.path) = Text.sortDedup (a.fixes.map (·.path)) ∧ ∀ c ∈ cs, a.Corrected checks c := by
  let start : Surroundings :=
    { around with log := [⟨.debug, "analyzer state", [("state", Stage.correcting.label)]⟩] }
  have hall : ∃ cs, (a.correctAll (Text.sortDedup (a.fixes.map (·.path))) [] start).1 = cs ∧
      (a.correctAll (Text.sortDedup (a.fixes.map (·.path))) [] start).2.1 = true ∧
      (a.correctAll (Text.sortDedup (a.fixes.map (·.path))) [] start).2.2.cancelled = around.cancelled ∧
      cs.map (·.path) = Text.sortDedup (a.fixes.map (·.path)) ∧ ∀ c ∈ cs, a.Corrected checks c := by
    rcases hlive with hlive | hnone
    · rw [hlive]
      refine @correctAll_clean a checks start hrecheck hchecks _ [] (fun path hpath => ?_) hlive
      obtain ⟨p, hp, rfl⟩ := List.mem_map.1 (Text.mem_sortDedup.1 hpath)
      exact h p hp
    · have hpaths : Text.sortDedup (a.fixes.map (·.path)) = [] := by
        rw [hnone]
        exact Text.sortDedup_eq .nil fun _ => Iff.rfl
      rw [hpaths]
      exact ⟨[], rfl, rfl, rfl, rfl, nofun⟩
  obtain ⟨cs, hcs, hcomplete, hcancelled, hpaths, hcorrected⟩ := hall
  unfold correct
  rw [if_neg (not_not_intro hdone), if_neg (by rw [hnew]; exact Bool.false_ne_true)]
  dsimp only [start] at hcs hcomplete hcancelled ⊢
  rw [hcomplete, if_pos rfl, hcs]
  exact ⟨rfl, hcancelled, cs, rfl, hpaths, hcorrected⟩

end Correct

/-! ## What an analysis leaves -/

section Examine

variable {a : Analyzer} {paths toParse : List Text} {around : Surroundings} {onlySingle : Bool}

/-- What is found at one of several places that are looked at once each. -/
theorem filter_flatMap_of_nodup {ι α : Type} [DecidableEq ι] {xs : List ι} (hnodup : xs.Nodup)
    {found : ι → List α} {place : α → ι} (hplace : ∀ x ∈ xs, ∀ y ∈ found x, place y = x) {x : ι}
    (hx : x ∈ xs) : ((xs.flatMap found).filter fun y => place y = x) = found x := by
  induction xs with
  | nil => exact nomatch hx
  | cons first rest ih =>
    obtain ⟨hfirst, hrest⟩ := List.nodup_cons.1 hnodup
    have hothers := fun x' hx' => hplace x' (List.mem_cons_of_mem _ hx')
    rw [List.flatMap_cons, List.filter_append]
    rcases List.mem_cons.1 hx with rfl | hx
    · have hnone : ((rest.flatMap found).filter fun y => place y = x) = [] := by
        refine List.filter_eq_nil_iff.2 fun y hy hyx => ?_
        obtain ⟨x', hx', hy⟩ := List.mem_flatMap.1 hy
        rw [decide_eq_true_iff, hothers x' hx' y hy] at hyx
        exact hfirst (hyx ▸ hx')
      rw [hnone, List.append_nil]
      exact List.filter_eq_self.2 fun y hy => decide_eq_true (hplace x (List.mem_cons_self ..) y hy)
    · have hnone : ((found first).filter fun y => place y = x) = [] := by
        refine List.filter_eq_nil_iff.2 fun y hy hyx => ?_
        rw [decide_eq_true_iff, hplace first (List.mem_cons_self ..) y hy] at hyx
        exact hfirst (hyx ▸ hx)
      rw [hnone, ih hrest hothers hx]
      rfl

/-- The fixes of an analysis by built-in checks are those that they raise at each path. -/
theorem fixes_of_ok (hpaths : ∀ path ∈ paths, path ∈ toParse) (hchecks : ∀ k ∈ a.checks, k ∈ Rule.all)
    (h : (a.analyze around paths toParse onlySingle).outcome = .ok ()) :
    (a.analyze around paths toParse onlySingle).analyzer.fixes =
      paths.flatMap fun path => (a.raisedAt path).fixes := by
  obtain ⟨-, -, -, -, hfixes⟩ := raised_of_ok paths toParse h
  have hproject : (Tally.join ((if onlySingle then [] else a.calledOnProject paths toParse around).map
      (Slot.raisedOn a.options (readable a.snapshot toParse) (a.view toParse)))).fixes = [] := by
    rw [Tally.fixes_join, List.flatMap_map]
    refine List.flatMap_eq_nil_iff.2 fun s hs => fixes_raisedOn _ _ _ (hchecks _ ?_)
    cases onlySingle with
    | true => exact nomatch hs
    | false =>
      exact check_mem_of_slotsAfter paths toParse
        (List.mem_filter.1 ((calledOn_initial _ _ _ _ _).mem hs)).1
  rw [hfixes, hproject, List.append_nil,
    raisedInFiles_forgetful hpaths fun k hk => Rule.forgetful_of_mem_all (hchecks k hk),
    Tally.fixes_join, List.flatMap_map]

/-- **An analysis by built-in checks leaves at each of its paths** the content that it read, and the fixes
that fresh checks have for it.  All its fixes are at its paths. -/
theorem examined_of_ok (hnodup : paths.Nodup) (hpaths : ∀ path ∈ paths, path ∈ toParse)
    (hchecks : ∀ k ∈ a.checks, k ∈ Rule.all) {contentAt : Text → Text}
    (hread : ∀ path ∈ paths, WellFormed (contentAt path) ∧
      ∃ version, a.snapshot.read path = (.ok (contentAt path), version))
    (h : (a.analyze around paths toParse onlySingle).outcome = .ok ()) :
    let after := (a.analyze around paths toParse onlySingle).analyzer
    (∀ path ∈ paths, after.Examined a.checks path (contentAt path)) ∧
      ∀ p ∈ after.fixes, p.path ∈ paths := by
  intro after
  obtain ⟨-, hsnapshot, hoptions, -, hparsed⟩ := kept_of_ok paths toParse h
  have hfixes : after.fixes = paths.flatMap fun path => (a.raisedAt path).fixes :=
    fixes_of_ok hpaths hchecks h
  have hplace : ∀ path ∈ paths, ∀ p ∈ (a.raisedAt path).fixes, p.path = path := by
    intro path hpath
    obtain ⟨hvalid, version, hcontent⟩ := hread path hpath
    exact (fixes_raisedAt hchecks hvalid hcontent).2
  constructor
  · intro path hpath
    obtain ⟨hvalid, version, hcontent⟩ := hread path hpath
    refine ⟨hvalid, ?_, ⟨version, ?_⟩, ?_⟩
    · unfold storedAt
      rw [hsnapshot, hcontent]
    · unfold file?
      rw [hparsed, find?_readable (hpaths path hpath)]
      unfold parseOne
      rw [hcontent]
      rfl
    · have hoptions : { after.options with recheck := none } = { a.options with recheck := none } := by
        rw [hoptions]
      unfold fixesOf
      rw [hfixes, filter_flatMap_of_nodup hnodup hplace hpath,
        (fixes_raisedAt hchecks hvalid hcontent).1]
      unfold fixesAnew
      rw [hoptions]
  · intro p hp
    rw [hfixes] at hp
    obtain ⟨path, hpath, hp⟩ := List.mem_flatMap.1 hp
    rwa [hplace path hpath p hp]

end Examine

end Analyzer
end LiquidLint
