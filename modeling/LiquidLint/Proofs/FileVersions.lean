import LiquidLint.Proofs.AnalysisRuns
import LiquidLint.Proofs.CleanFixes
import LiquidLint.Proofs.CorrectionPasses

/-!
# Versions of a file

Offenses name the version of the file that they were found in.  Nothing else that a check does depends
on it: all built-in checks do the same for two versions with one content
(`Rule.versionBlind_of_mem_all`), so they attach the same fixes (`fixes_raisedIn_atVersion`), and
replaying these comes to the same (`outcome_replay_atVersion`).

A run reads a file with the version of its storage, and a correction reads the corrected content with a
version of its own.  So what the first pass of a correction does to a stored content is what a later
pass does to that content (`Analyzer.firstReplay_eq`).
-/

namespace LiquidLint

open Source Analysis Text

/-! ## Files that differ in their version -/

/-- The file with another version. -/
def SourceFile.atVersion (v : Int) (f : SourceFile) : SourceFile := { f with version := v }

/-- The same visit to the file with another version. -/
def Visit.atVersion (v : Int) : Visit → Visit
  | .node f e n => .node (f.atVersion v) e n
  | .endFile f => .endFile (f.atVersion v)

/-- What the check does is the same for all versions of a file with the same content. -/
def Check.VersionBlind (k : Check) : Prop :=
  ∀ v past visit,
    k.onVisit (past.map (Visit.atVersion v)) (visit.atVersion v) = k.onVisit past visit

namespace Rule

theorem Assignment.visitedNodes_atVersion (v : Int) (past : List Visit) :
    visitedNodes (past.map (Visit.atVersion v)) = visitedNodes past := by
  unfold visitedNodes
  rw [List.takeWhile_map, ← List.map_reverse, List.filterMap_map]
  refine congrArg₂ (fun g ns => (ns : List Visit).reverse.filterMap g) ?_ ?_
  · funext visit
    cases visit <;> rfl
  · refine congrArg (past.takeWhile ·) ?_
    funext visit
    cases visit <;> rfl

/-- **Built-in checks do not look at versions.** -/
theorem versionBlind_of_mem_all {k : Check} (hk : k ∈ all) : k.VersionBlind := by
  intro v past visit
  simp only [all, List.mem_cons, List.not_mem_nil, or_false] at hk
  rcases hk with rfl | rfl | rfl | rfl | rfl | rfl | rfl | rfl | rfl | rfl
  case inr.inr.inl =>
    cases visit with
    | node f e n => rfl
    | endFile f =>
      show Reaction.reports (Assignment.unusedReports (f.atVersion v) _) = _
      rw [Assignment.visitedNodes_atVersion]
      rfl
  all_goals
    cases visit <;> rfl

end Rule

namespace Analysis

/-! ## What is raised -/

/-- The same moment in the visit of the file with another version. -/
def Moment.atVersion (v : Int) (m : Moment) : Moment := { m with visit := m.visit.atVersion v }

theorem moments_atVersion (v : Int) (f : SourceFile) :
    moments (f.atVersion v) = (moments f).map (Moment.atVersion v) := by
  unfold moments
  rw [List.map_append, List.map_flatMap]
  refine congrArg₂ (· ++ ·) (List.flatMap_congr fun tree _ => ?_) rfl
  unfold treeMoments
  rw [List.map_map]
  rfl

/-- The slot after visits to files with another version. -/
def Slot.atVersion (v : Int) (s : Slot) : Slot := { s with past := s.past.map (Visit.atVersion v) }

theorem Slot.reaction?_atVersion {s : Slot} (hk : s.check.VersionBlind) (v : Int) (m : Moment) :
    (s.atVersion v).reaction? (m.atVersion v) = s.reaction? m := by
  unfold reaction?
  rw [← hk v s.past m.visit]
  rfl

theorem Slot.after_atVersion {s : Slot} (hk : s.check.VersionBlind) (v : Int) (m : Moment) :
    (s.atVersion v).after (m.atVersion v) = (s.after m).atVersion v := by
  unfold after
  rw [reaction?_atVersion hk]
  cases s.reaction? m <;> rfl

namespace Tally

/-- The fix that an effect leaves. -/
def fix? {ρ : Type} (raise : ρ → Option (Offense × Option PendingFix)) : Effect ρ → Option PendingFix
  | .report r => (raise r).bind (·.2)
  | .trace _ => none
  | .cancel => none

/-- **The fixes of a reaction are those of its effects**, in order. -/
theorem fixes_react_eq {ρ : Type} (raise : ρ → Option (Offense × Option PendingFix)) (code : Text)
    (file : Option SourceFile) (node : Option Node) (r : Reaction ρ) :
    (react raise code file node r {}).fixes = r.effects.filterMap (fix? raise) := by
  have heffects (effects : List (Effect ρ)) (t : Tally) :
      (effects.foldl (effect raise) t).fixes = t.fixes ++ effects.filterMap (fix? raise) := by
    induction effects generalizing t with
    | nil => exact (List.append_nil _).symm
    | cons e rest ih =>
      have hfirst : (effect raise t e).fixes = t.fixes ++ (fix? raise e).toList := by
        cases e with
        | report report =>
          dsimp only [effect, fix?]
          cases raise report with
          | none => exact (List.append_nil _).symm
          | some raised => rfl
        | trace => exact (List.append_nil _).symm
        | cancel => exact (List.append_nil _).symm
      rw [List.foldl_cons, ih, hfirst, List.append_assoc, List.filterMap_cons]
      cases fix? raise e <;> rfl
  unfold react
  cases r.crash with
  | none => exact heffects _ _
  | some detail => exact (List.append_nil _).trans (heffects _ _)

end Tally

/-- A file that is looked at by itself. -/
def alone (f : SourceFile) : List ParsedFile := [⟨f, .ofFile f⟩]

/-- The fix that is raised with a report on a file that is looked at by itself. -/
theorem fix_raise?_alone (o : AnalyzerOptions) (info : CheckInfo) (f : SourceFile) (r : Report) :
    (raise? o (alone f) info f r).bind (·.2) =
      if o.ignore info.code f.path || (Suppressions.ofFile f).covers info.code r.place.start then none
      else r.fix.map fun fix => ⟨f.path, info.code, fix⟩ := by
  have hfind : (alone f).find? (fun p => p.file.path = f.path) = some ⟨f, .ofFile f⟩ :=
    List.find?_cons_of_pos (decide_eq_true rfl)
  unfold raise?
  rw [hfind]
  dsimp only [Option.any_some]
  split <;> rfl

section Versions

variable {o o' : AnalyzerOptions} (ho : o'.ignore = o.ignore) (v : Int) (f : SourceFile)

include ho

/-- The fix of what a check reports does not depend on the version. -/
theorem fix?_raise?_atVersion (info : CheckInfo) :
    Tally.fix? (raise? o' (alone (f.atVersion v)) info (f.atVersion v)) =
      Tally.fix? (raise? o (alone f) info f) := by
  funext e
  cases e with
  | report r =>
    show Option.bind _ _ = Option.bind _ _
    rw [fix_raise?_alone, fix_raise?_alone, ho]
    rfl
  | trace => rfl
  | cancel => rfl

theorem fixes_raised_atVersion {s : Slot} (hk : s.check.VersionBlind) (m : Moment) :
    (Slot.raised o' (alone (f.atVersion v)) (f.atVersion v) (m.atVersion v)
      (s.atVersion v)).fixes = (Slot.raised o (alone f) f m s).fixes := by
  unfold Slot.raised
  rw [Slot.reaction?_atVersion hk]
  cases s.reaction? m with
  | none => rfl
  | some r =>
    dsimp only
    rw [Tally.fixes_react_eq, Tally.fixes_react_eq, fix?_raise?_atVersion ho]
    rfl

theorem fixes_raisedOver_atVersion (ms : List Moment) {slots : List Slot}
    (h : ∀ s ∈ slots, s.check.VersionBlind) :
    (raisedOver o' (alone (f.atVersion v)) (f.atVersion v) (ms.map (Moment.atVersion v))
      (slots.map (Slot.atVersion v))).fixes = (raisedOver o (alone f) f ms slots).fixes := by
  induction ms generalizing slots with
  | nil => rfl
  | cons m rest ih =>
    have hafter : (slots.map (Slot.atVersion v)).map (·.after (m.atVersion v)) =
        (slots.map (·.after m)).map (Slot.atVersion v) := by
      rw [List.map_map, List.map_map]
      exact List.map_congr_left fun s hs => Slot.after_atVersion (h s hs) v m
    have hrest := @ih (slots.map (·.after m)) fun s hs => by
      obtain ⟨s', hs', rfl⟩ := List.mem_map.1 hs
      rw [Slot.check_after]
      exact h s' hs'
    rw [List.map_cons, raisedOver, raisedOver, Tally.fixes_append, Tally.fixes_append, hafter, hrest,
      Tally.fixes_join, Tally.fixes_join, List.map_map, List.flatMap_map, List.flatMap_map]
    exact congrArg (· ++ _) (List.flatMap_congr fun s hs => fixes_raised_atVersion ho v f (h s hs) m)

/-- **All versions of a content get the same fixes**, where no check looks at versions and the same
codes are ignored. -/
theorem fixes_raisedIn_atVersion {slots : List Slot} (hnew : ∀ s ∈ slots, s.past = [])
    (hblind : ∀ s ∈ slots, s.check.VersionBlind) :
    (raisedIn o' (alone (f.atVersion v)) (f.atVersion v) slots).fixes =
      (raisedIn o (alone f) f slots).fixes := by
  have hfresh : (slots.map Slot.fresh).map (Slot.atVersion v) = slots.map Slot.fresh := by
    rw [List.map_map]
    refine List.map_congr_left fun s hs => ?_
    show (⟨s.check, s.past.map (Visit.atVersion v), false⟩ : Slot) = ⟨s.check, s.past, false⟩
    rw [hnew s hs]
    rfl
  unfold raisedIn
  rw [moments_atVersion]
  refine Eq.trans ?_ (fixes_raisedOver_atVersion ho v f (moments f) fun s hs => ?_)
  · rw [hfresh]
  · obtain ⟨s', hs', rfl⟩ := List.mem_map.1 hs
    exact hblind s' hs'

end Versions

/-! ## Replaying fixes -/

end Analysis

/-- The corrector of the file with another version. -/
def Corrector.atVersion (v : Int) (c : Corrector) : Corrector := { c with file := c.file.atVersion v }

theorem Corrector.replace_atVersion (v : Int) (c : Corrector) (range : Range) (text : Text) :
    (c.atVersion v).replace range text = (c.replace range text).atVersion v := by
  have hlength : (c.atVersion v).file.source.length = c.file.source.length := rfl
  unfold Corrector.replace
  rw [hlength]
  cases EditFault.of? range c.file.source.length <;> rfl

namespace Analysis

/-- The replay on the file with another version. -/
def Replay.atVersion (v : Int) (r : Replay) : Replay := { r with corrector := r.corrector.atVersion v }

theorem Replay.follow_atVersion (v : Int) (code : Text) (fix : Fix) (r : Replay) :
    follow code fix (r.atVersion v) = (follow code fix r).atVersion v := by
  induction fix generalizing r with
  | nil => rfl
  | cons step rest ih =>
    cases step with
    | edit range text =>
      rw [follow, follow, ← ih]
      refine congrArg (follow code rest) ?_
      show (⟨(r.corrector.atVersion v).replace range text, _, _⟩ : Replay) = _
      rw [Corrector.replace_atVersion]
      rfl
    | crash message => rfl
    | cancel => exact ih { r with cancelled := true }

/-- **All versions of a content come to the same** when fixes are replayed. -/
theorem outcome_replay_atVersion (v : Int) (f : SourceFile) (stored : Text) (fixes : List PendingFix)
    (around : Surroundings) :
    (replay (some (f.atVersion v)) stored fixes around).outcome =
      (replay (some f) stored fixes around).outcome := by
  have hadd (r : Replay) (p : PendingFix) : (r.atVersion v).add p = (r.add p).atVersion v :=
    Replay.follow_atVersion v p.code p.fix
      { r with corrector := { r.corrector with check := p.code } }
  have hfold : fixes.foldl Replay.add { corrector := { file := f.atVersion v } } =
      (fixes.foldl Replay.add { corrector := { file := f } }).atVersion v := by
    show fixes.foldl Replay.add (Replay.atVersion v { corrector := { file := f } }) = _
    exact List.foldl_hom (Replay.atVersion v) hadd
  cases fixes with
  | nil => rfl
  | cons p rest =>
    show Corrector.apply (Replay.corrector _) stored = Corrector.apply (Replay.corrector _) stored
    rw [hfold]
    rfl

end Analysis

/-! ## The first pass of a correction -/

namespace Analyzer

/-- What a pass of corrections, with fresh checks, makes of a content. -/
def pass (a : Analyzer) (checks : List Check) (path content : Text) : Text :=
  (replay (some (parseAnew path content).file) content (a.fixesAnew checks path content)
    {}).outcome.content

theorem pass_congr {a b : Analyzer} (h : a.options = b.options) (checks : List Check)
    (path content : Text) : a.pass checks path content = b.pass checks path content := by
  unfold pass fixesAnew
  rw [h]

/-- **Content is at rest exactly if a pass leaves it as it is.** -/
theorem atRest_iff (a : Analyzer) (checks : List Check) (path content : Text) :
    a.AtRest checks path content ↔ a.pass checks path content = content := by
  refine ⟨fun h => ?_, a.atRest_of_replay checks path content⟩
  have hkept := (h {} rfl).2
  obtain ⟨-, hfile, hfixes⟩ := @recheck_of_live a checks path content {} rfl
  rwa [hfile, hfixes, outcome_replay _ _ _ _ {}] at hkept

variable {a : Analyzer} {checks : List Check} {path content : Text}

/-- The fixes that fresh checks have for a content are what they raise in it by themselves. -/
theorem fixesAnew_eq (a : Analyzer) (checks : List Check) (hvalid : WellFormed content) :
    let f := SourceFile.parse path content 1
    a.fixesAnew checks path content =
      (raisedIn { a.options with recheck := none } (alone f) f
        (checks.map ({ check := · }))).fixes.filter fun p => p.path = path := by
  unfold fixesAnew parseAnew
  rw [hvalid.replaceInvalid_eq]
  dsimp only
  rw [visitFile_eq]
  rfl

/-- **Fresh built-in checks have clean fixes** for well-formed content. -/
theorem fixesAnew_clean (a : Analyzer) (hchecks : ∀ k ∈ checks, k ∈ Rule.all)
    (hvalid : WellFormed content) :
    ∀ p ∈ a.fixesAnew checks path content, Fix.Clean (sourceOf content) p.fix := by
  intro p hp
  rw [fixesAnew_eq a checks hvalid] at hp
  refine (fixes_raisedIn _ _ 1 hvalid (fun s hs => ?_) (fun s hs => ?_) p (List.mem_filter.1 hp).1).2
  · obtain ⟨k, -, rfl⟩ := List.mem_map.1 hs
    rfl
  · obtain ⟨k, hk, rfl⟩ := List.mem_map.1 hs
    exact Rule.fixesCleanly_of_mem_all (hchecks k hk)

/-- **The fixes that a run raises at a path** are those that fresh checks have for its content. -/
theorem fixes_raisedAt {version : Int} (hchecks : ∀ k ∈ a.checks, k ∈ Rule.all)
    (hvalid : WellFormed content) (hread : a.snapshot.read path = (.ok content, version)) :
    (a.raisedAt path).fixes = a.fixesAnew a.checks path content ∧
      ∀ p ∈ (a.raisedAt path).fixes, p.path = path := by
  have hslots (s : Slot) (hs : s ∈ a.slots) : s.check ∈ Rule.all := hchecks _ (check_mem_of_slots hs)
  have hnew (s : Slot) (hs : s ∈ a.slots) : s.past = [] := by
    obtain ⟨k, -, rfl⟩ := List.mem_map.1 hs
    rfl
  have hraised : a.raisedAt path = raisedIn a.options
      (alone (SourceFile.parse path content version)) (SourceFile.parse path content version) a.slots := by
    unfold raisedAt parseOne
    rw [hread]
    rfl
  have hpath : ∀ p ∈ (a.raisedAt path).fixes, p.path = path := fun p hp =>
    (fixes_raisedIn _ _ version hvalid hnew (fun s hs => Rule.fixesCleanly_of_mem_all (hslots s hs)) p
      (hraised ▸ hp)).1
  refine ⟨?_, hpath⟩
  have hversion := @fixes_raisedIn_atVersion a.options { a.options with recheck := none } rfl 1
    (SourceFile.parse path content version) a.slots hnew fun s hs =>
      Rule.versionBlind_of_mem_all (hslots s hs)
  calc (a.raisedAt path).fixes
    _ = (a.raisedAt path).fixes.filter fun p => p.path = path :=
      (List.filter_eq_self.2 fun p hp => decide_eq_true (hpath p hp)).symm
    _ = a.fixesAnew a.checks path content := by
      rw [fixesAnew_eq a a.checks hvalid, hraised, ← hversion]
      rfl

end Analyzer
end LiquidLint
