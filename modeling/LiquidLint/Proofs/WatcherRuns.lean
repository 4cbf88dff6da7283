import LiquidLint.Proofs.ProjectFindings
import LiquidLint.Proofs.WatcherSteps

/-!
# Watching converges

A watcher counts the versions of a path in two places: its copy counts the contents that it took over,
and its session keeps the version of the latest result, or the one that was dropped last.  The copy starts
to count anew when a path goes away and comes back, and refreshing bridges this.  What holds all along is
that the session does not run ahead of the copy (`InStep`): a recorded version is not above that of the
copy, a dropped one is below it, and nothing is recorded of a path that the copy does not have.  Only the
path that stands for no file may have a record without being in the copy.

Each call keeps this (`consistent_refresh`, `consistent_record`), so no result of a run over the copy comes
too late.  After an analysis of the whole project the session holds what a new analyzer finds
(`session_converges`).
-/

namespace LiquidLint

open Session Analysis

/-! ## The copy of a path and its session -/

/-- What a session holds of a path does not run ahead of the version `copy` that a copy has of it. -/
structure InStep (path : Text) (copy : Option Int) (st : Standing) : Prop where
  apart : st.record = none ∨ st.gone = none
  positive : ∀ v, copy = some v → 0 < v
  recorded : ∀ r, st.record = some r → (∃ v, copy = some v ∧ r.version ≤ v) ∨
    copy = none ∧ path = projectPath ∧ r.version ≤ 0
  dropped : ∀ gone v, st.gone = some gone → copy = some v → gone < v

namespace InStep

variable {path : Text} {copy : Option Int} {st : Standing}

theorem empty (path : Text) : InStep path none ⟨none, none⟩ := ⟨.inl rfl, nofun, nofun, nofun⟩

/-- The copy takes over a content under a version that is above all versions before. -/
theorem write (h : InStep path copy st) {v : Int} (hpositive : 0 < v)
    (hcopy : ∀ u, copy = some u → u ≤ v) (hgone : copy = none → ∀ gone, st.gone = some gone → gone < v) :
    InStep path (some v) st where
  apart := h.apart
  positive u hu := Option.some.inj hu ▸ hpositive
  recorded r hr := by
    refine .inl ⟨v, rfl, ?_⟩
    rcases h.recorded r hr with ⟨u, hu, hle⟩ | ⟨-, -, hle⟩
    · exact hle.trans (hcopy u hu)
    · exact hle.trans hpositive.le
  dropped gone u hdropped hu := by
    obtain rfl := Option.some.inj hu
    cases hc : copy with
    | none => exact hgone hc gone hdropped
    | some u => exact (h.dropped gone u hdropped hc).trans_le (hcopy u hc)

/-- The copy lets go of a path, and the session drops it. -/
theorem drop (st : Standing) (version : Int) : InStep path none (st.dropped version) :=
  ⟨.inl rfl, nofun, nofun, nofun⟩

/-- The session takes up a result of a version that is not above that of the copy. -/
theorem record {r : Record} (h : InStep path copy st)
    (hversion : (∃ v, copy = some v ∧ r.version ≤ v) ∨
      copy = none ∧ path = projectPath ∧ r.version ≤ 0) : InStep path copy ⟨some r, none⟩ where
  apart := .inr rfl
  positive := h.positive
  recorded _ hr := Option.some.inj hr ▸ hversion
  dropped := nofun

/-- **No result for the version of the copy comes too late.** -/
theorem not_isStale_copy (h : InStep path copy st) {v : Int} (hv : copy = some v) :
    st.isStale v = false := by
  unfold Standing.isStale
  rw [Bool.or_eq_false_iff]
  constructor
  · cases hrecord : st.record with
    | none => rfl
    | some r =>
      rcases h.recorded r hrecord with ⟨u, hu, hle⟩ | ⟨hnone, -⟩
      · obtain rfl := Option.some.inj (hv.symm.trans hu)
        exact decide_eq_false (Int.not_lt.2 hle)
      · exact nomatch hv.symm.trans hnone
  · cases hgone : st.gone with
    | none => rfl
    | some gone => exact decide_eq_false (Int.not_le.2 (h.dropped gone v hgone hv))

/-- No result for the recorded version comes too late. -/
theorem not_isStale_record (h : InStep path copy st) {r : Record} (hr : st.record = some r) :
    st.isStale r.version = false := by
  have hgone : st.gone = none := h.apart.resolve_left (by rw [hr]; nofun)
  unfold Standing.isStale
  rw [hr, hgone]
  exact (Bool.or_false _).trans (decide_eq_false (Int.lt_irrefl _))

end InStep

namespace Watcher

/-- The version that the copy has of a path. -/
def copyOf (w : Watcher) (path : Text) : Option Int := (w.store.docs.get? path).map (·.version)

/-- What the session of a watcher holds does not run ahead of its copy. -/
structure Consistent (w : Watcher) : Prop where
  ordered : w.store.docs.Ordered
  tidy : w.session.Tidy
  inStep : ∀ path, InStep path (w.copyOf path) (w.session.standing path)

theorem copyOf_eq_some {w : Watcher} {path : Text} {v : Int} (h : w.copyOf path = some v) :
    w.store.version path = v := by
  unfold VersionedStore.version
  exact congrArg (Option.getD · 0) h

theorem copyOf_eq_none {w : Watcher} {path : Text} :
    w.copyOf path = none ↔ w.store.docs.contains path = false := by
  unfold copyOf Table.contains
  rw [Option.map_eq_none_iff, Option.isSome_eq_false_iff, Option.isNone_iff_eq_none]

/-! ## Refreshing and loading -/

section Copy

variable {w v : Watcher} {d : Disk} {path : Text} {changed : Bool}

/-- **A path is taken over** under a version that is above all versions before. -/
theorem Consistent.takeOver (hw : w.Consistent) {revision : Revision}
    (hstore : v.store.docs = w.store.docs.insert path revision) (hsession : v.session = w.session)
    (hpositive : 0 < revision.version) (hcopy : ∀ u, w.copyOf path = some u → u ≤ revision.version)
    (hgone : w.copyOf path = none → ∀ gone, (w.session.standing path).gone = some gone →
      gone < revision.version) : v.Consistent := by
  refine ⟨hstore ▸ hw.ordered.insert path revision, hsession ▸ hw.tidy, fun other => ?_⟩
  unfold copyOf
  rw [hstore, hsession, Table.get?_insert]
  by_cases hother : other = path
  · rw [if_pos hother, hother]
    exact (hw.inStep path).write hpositive hcopy hgone
  · rw [if_neg hother]
    exact hw.inStep other

theorem Consistent.version_nonneg (hw : w.Consistent) (path : Text) : 0 ≤ w.store.version path := by
  cases hc : w.copyOf path with
  | some u =>
    rw [copyOf_eq_some hc]
    exact ((hw.inStep path).positive u hc).le
  | none => exact (version_of_not_stored (Option.map_eq_none_iff.1 hc)).ge

theorem Consistent.update (hw : w.Consistent) (content : Text) :
    (w.update path content).Consistent := by
  have hversion := hw.version_nonneg path
  refine hw.takeOver (docs_update content) (session_update content) ?_ (fun u hu => ?_)
    fun hnone gone hgone => ?_
  · dsimp only
    unfold nextVersion
    split
    · omega
    · split <;> omega
  · dsimp only
    have hstored : w.store.docs.contains path = true := by
      rw [← Bool.not_eq_false, ← copyOf_eq_none, hu]
      nofun
    unfold nextVersion
    rw [if_pos hstored, copyOf_eq_some hu]
    omega
  · -- the version goes on above the one that was dropped, if that was positive
    have hforgotten : w.session.forgottenVersion path = gone := congrArg (Option.getD · 0) hgone
    dsimp only
    unfold nextVersion
    rw [if_neg (by rw [copyOf_eq_none.1 hnone]; exact Bool.false_ne_true), hforgotten,
      version_of_not_stored (Option.map_eq_none_iff.1 hnone)]
    split <;> omega

/-- **A path that goes away is dropped from both.** -/
theorem Consistent.forget (hw : w.Consistent) : (w.forget path).Consistent := by
  refine ⟨hw.ordered.erase path, (hw.tidy.change (.forgetAt path (w.store.version path))).1,
    fun other => ?_⟩
  have hcopy : (w.forget path).copyOf other = if other = path then none else w.copyOf other := by
    unfold copyOf
    rw [docs_forget, Table.get?_erase]
    split <;> rfl
  rw [hcopy, standing_forget]
  by_cases hother : other = path
  · rw [if_pos hother, if_pos hother]
    exact .drop ..
  · rw [if_neg hother, if_neg hother]
    exact hw.inStep other

theorem Consistent.refreshed (hw : w.Consistent) (h : Refreshed w d path v changed) :
    v.Consistent := by
  cases h with
  | keep => exact hw
  | drop => exact hw.forget
  | take content => exact hw.update content

theorem consistent_refresh (hw : w.Consistent) (d : Disk) (around : Surroundings)
    (paths : List Text) : (w.refresh d around paths).watcher.Consistent :=
  refreshAll_induction (fun _ _ _ _ h hw => hw.refreshed h) hw

/-- **A new watcher that takes a project over** has a copy and no results. -/
theorem consistent_load (hstore : w.store = {}) (hsession : w.session = {}) (d : Disk)
    (around : Surroundings) : (w.load d around).watcher.Consistent := by
  let P (w : Watcher) : Prop := w.session = {} ∧ w.Consistent
  have hnew : P w := by
    refine ⟨hsession, hstore ▸ Table.ordered_empty, hsession ▸ held_empty.tidy, fun path => ?_⟩
    unfold copyOf
    rw [hstore, hsession]
    exact .empty path
  refine (loadAll_induction (P := P) (fun w path _ content hw => ⟨hw.1, ?_⟩) hnew).2
  have hversion := hw.2.version_nonneg path
  refine hw.2.takeOver rfl rfl (Int.lt_add_one_of_le hversion) (fun u hu => ?_) fun _ gone hgone => ?_
  · rw [← copyOf_eq_some hu]
    exact Int.le_add_one (Int.le_refl _)
  · rw [hw.1] at hgone
    exact nomatch hgone

end Copy

/-! ## Recording runs over the copy -/

section Record

variable {w : Watcher} {f : Findings}

/-- The version under which a run offers a result for a path: that of the copy, the recorded one, or none
for the path that stands for no file. -/
inductive Offers (w : Watcher) (f : Findings) (path : Text) : Prop where
  | copy : w.copyOf path = some (versionOf f (w.session.records.get? path) path) → Offers w f path
  | recorded (r : Record) : w.session.records.get? path = some r →
      versionOf f (w.session.records.get? path) path = r.version → Offers w f path
  | noFile : path = projectPath → w.session.records.get? path = none →
      versionOf f (w.session.records.get? path) path = 0 → Offers w f path

/-- **Recording a run over the copy** keeps the session in step with it. -/
theorem Consistent.recordRun (hw : w.Consistent) (hf : ∀ path ∈ w.session.touched f, w.Offers f path)
    {v : Watcher} (hstore : v.store = w.store)
    (hsession : v.session = (w.session.recordRun f).1.publish.1) : v.Consistent := by
  have htidy : (w.session.recordRun f).1.Tidy := (hw.tidy.change (.recordRun f)).1
  refine ⟨hstore ▸ hw.ordered, hsession ▸ htidy.publish, fun path => ?_⟩
  have hin := hw.inStep path
  have hcopy : v.copyOf path = w.copyOf path := by
    unfold copyOf
    rw [hstore]
  have hstanding : v.session.standing path = (w.session.recordRun f).1.standing path := by
    rw [hsession]
    rfl
  rw [hcopy, hstanding, (recordRun_spec w.session f).2]
  split
  · rename_i htaken
    refine hin.record ?_
    show (∃ v, _ ∧ versionOf f (w.session.records.get? path) path ≤ v) ∨
      _ ∧ _ ∧ versionOf f (w.session.records.get? path) path ≤ 0
    cases hf path htaken.1 with
    | copy hversion => exact .inl ⟨_, hversion, Int.le_refl _⟩
    | recorded r hr hversion =>
      rw [hversion]
      exact hin.recorded r hr
    | noFile hpath _ hversion =>
      rw [hversion]
      cases hc : w.copyOf path with
      | some u => exact .inl ⟨u, rfl, (hin.positive u hc).le⟩
      | none => exact .inr ⟨rfl, hpath, Int.le_refl 0⟩
  · exact hin

/-- **No result of a run over the copy comes too late**, where none was dropped for the path that stands
for no file. -/
theorem Consistent.takes (hw : w.Consistent) {path : Text} (hf : w.Offers f path)
    (hroot : path = projectPath → w.session.records.get? path = none →
      (w.session.standing path).gone = none) :
    Session.takes f (w.session.standing path) path = true := by
  have hin := hw.inStep path
  unfold Session.takes
  rw [Bool.not_eq_true']
  show (w.session.standing path).isStale (versionOf f (w.session.records.get? path) path) = false
  cases hf with
  | copy hversion => exact hin.not_isStale_copy hversion
  | recorded r hr hversion =>
    rw [hversion]
    exact hin.not_isStale_record hr
  | noFile hpath hnone _ =>
    have hrecord : (w.session.standing path).record = none := hnone
    unfold Standing.isStale
    rw [hrecord, hroot hpath hnone]
    rfl

end Record

/-! ## Runs over the copy -/

section Runs

variable {w : Watcher} {around : Surroundings}

theorem mem_analysable {path : Text} : path ∈ w.analyzer.analysable ↔
    (w.store.docs.get? path).isSome ∧ w.options.exclude path = false ∧
      (Project.classify path).category.isAnalyzable = true :=
  Analyzer.mem_analysable_onStore (a := w.analyzer) (s := w.store)

theorem exists_copyOf {path : Text} (h : path ∈ w.analyzer.analysable) :
    ∃ v, w.copyOf path = some v := by
  obtain ⟨d, hd⟩ := Option.isSome_iff_exists.1 (mem_analysable.1 h).1
  exact ⟨d.version, congrArg _ hd⟩

/-- The path that stands for no file is not of a category that is analysed: it has no ending. -/
theorem isAnalyzable_projectPath :
    (Project.classify projectPath).category.isAnalyzable = false := by
  have hclean : Path.clean (Text.trimStartText projectPath "./") = projectPath := by decide +kernel
  have hassets : Project.inAssets projectPath = false := by decide +kernel
  have hending : Project.endingCategory? (Text.toLower projectPath) = none := by decide +kernel
  have hcategory : (Project.classify projectPath).category = Project.categoryOf projectPath := by
    unfold Project.classify
    dsimp only
    rw [hclean]
    split
    · rfl
    · split <;> rfl
  rw [hcategory]
  unfold Project.categoryOf
  rw [hassets, if_neg Bool.false_ne_true, hending]
  dsimp only
  split <;> rfl

theorem projectPath_not_mem_analysable : projectPath ∉ w.analyzer.analysable := by
  intro h
  have hcategory := (mem_analysable.1 h).2.2
  rw [isAnalyzable_projectPath] at hcategory
  exact nomatch hcategory

/-- The version that a run over the copy reads of a path. -/
theorem versionAt_copy {toParse : List Text} {path : Text} {v : Int} (hpath : path ∈ toParse)
    (hv : w.copyOf path = some v) :
    w.analyzer.versionAt (Analyzer.readable w.analyzer.snapshot toParse) path = some v := by
  obtain ⟨d, hd, rfl⟩ := Option.map_eq_some_iff.1 hv
  have hstate : w.analyzer.snapshot.state? path =
      some { content := .loaded (Text.replaceInvalid d.content), version := d.version } := by
    show w.store.snapshot.state? path = _
    rw [w.store.state?_snapshot, hd]
    rfl
  exact Analyzer.versionAt_readable hpath hstate

/-- **A run over some files of the copy offers results for their versions.** -/
theorem offers_of_analyzeFiles {paths : List Text} (hpaths : ∀ path ∈ paths, (w.copyOf path).isSome)
    (h : (w.analyzer.analyzeFiles around paths true).outcome = .ok ()) :
    let found := (w.analyzer.analyzeFiles around paths true).analyzer.findings
    ∀ path ∈ w.session.touched found, w.Offers found path := by
  intro found path hpath
  obtain ⟨hvisited, hpass, -, hversions⟩ := Analyzer.analyze_of_ok _ _ true h
  have hproject : found.project = [] := (Analyzer.raised_of_ok _ _ h).2.2.2.1
  have hmem : path ∈ Text.sortDedup paths := by
    unfold Session.touched at hpath
    rw [hproject, show found.projectPass = false from hpass, if_neg Bool.false_ne_true,
      Text.mem_sortDedup, List.append_nil, List.map_nil, List.append_nil, List.mem_append,
      show found.paths = Text.sortDedup paths from hvisited] at hpath
    rcases hpath with hpath | hpath
    · exact hpath
    · obtain ⟨o, ho, rfl⟩ := List.mem_map.1 hpath
      exact Analyzer.single_of_ok (fun _ h => h) h o ho
  obtain ⟨v, hv⟩ := Option.isSome_iff_exists.1 (hpaths path (Text.mem_sortDedup.1 hmem))
  have hversion : found.versions.get? path = some v := by
    rw [show found.versions.get? path = _ from hversions path, if_pos hmem]
    exact versionAt_copy hmem hv
  refine .copy ?_
  unfold versionOf
  rw [hversion]
  exact hv

/-- **A run over the project offers results** for the versions of the copy, the recorded versions and the
path that stands for no file. -/
theorem offers_of_analyzeProject (hw : w.Consistent) (hkeeps : ∀ k ∈ w.checks, k.KeepsToProject)
    (h : (w.analyzer.analyzeProject around).outcome = .ok ()) :
    let found := (w.analyzer.analyzeProject around).analyzer.findings
    ∀ path ∈ w.session.touched found, w.Offers found path ∧
      (path = projectPath → w.session.records.get? path = none → ¬ ∀ k ∈ w.checks, k.NamesFiles) := by
  intro found path hpath
  have hrun : WholeRun found := Analyzer.wholeRun_of_ok h
  have hvisited : found.paths = w.analyzer.analysable := (Analyzer.analyze_of_ok _ _ false h).1
  by_cases hmem : path ∈ w.analyzer.analysable
  · obtain ⟨v, hv⟩ := exists_copyOf hmem
    have hnamed : namedAt found path = some (w.store.version path) :=
      Analyzer.namedAt_onStore (a := w.analyzer) (s := w.store) h hmem
    refine ⟨.copy ?_, fun hroot => absurd (hroot ▸ hmem) projectPath_not_mem_analysable⟩
    rw [hrun.versionOf_eq, hnamed, hv, copyOf_eq_some hv]
    rfl
  · -- what is found elsewhere stands for no file
    have hproject : ∀ o ∈ offensesAt found.project path,
        Analysis.AtNoFile o ∧ ¬ ∀ k ∈ w.checks, k.NamesFiles := by
      intro o ho
      obtain ⟨ho, hat⟩ := List.mem_filter.1 ho
      refine (Analyzer.project_of_ok (fun _ h => h) hkeeps h o ho).resolve_left ?_
      rw [of_decide_eq_true hat]
      exact hmem
    have hunnamed : namedAt found path = none := by
      have hversion : found.versions.get? path = none := by
        rw [← Option.not_isSome_iff_eq_none, hrun.versions, hvisited]
        exact hmem
      have hfind : (offensesAt found.project path).find? (fun o => 0 < o.version) = none := by
        refine List.find?_eq_none.2 fun o ho hpositive => ?_
        rw [(hproject o ho).1.2] at hpositive
        exact absurd (of_decide_eq_true hpositive) (Int.lt_irrefl 0)
      unfold namedAt
      rw [hversion, hfind]
      rfl
    have hversion : versionOf found (w.session.records.get? path) path =
        ((w.session.records.get? path).map (·.version)).getD 0 := by
      rw [hrun.versionOf_eq, hunnamed, Option.getD_none]
    cases hrecord : w.session.records.get? path with
    | some r =>
      rw [hrecord] at hversion
      refine ⟨.recorded r hrecord (hrecord ▸ hversion), fun _ hnone => nomatch hnone⟩
    | none =>
      have hfound : offensesAt found.project path ≠ [] := by
        rcases (mem_touched hw.tidy hrun).1 hpath with hmem' | hfound | ⟨r, hr, -⟩
        · exact absurd (hvisited ▸ hmem') hmem
        · exact hfound
        · exact nomatch hrecord.symm.trans hr
      obtain ⟨o, ho⟩ := List.exists_mem_of_ne_nil _ hfound
      obtain ⟨hat, hnames⟩ := hproject o ho
      have hroot : path = projectPath := by
        rw [← hat.1]
        exact (of_decide_eq_true (List.mem_filter.1 ho).2).symm
      rw [hrecord] at hversion
      exact ⟨.noFile hroot hrecord (hrecord ▸ hversion), fun _ _ => hnames⟩

end Runs

/-! ## Calls to a watcher -/

/-- What an analysis that succeeded found is recorded and told. -/
theorem record_of_ok {w : Watcher} {call : Call Unit} (h : call.outcome = .ok ()) :
    (w.record call).outcome = .ok () ∧ (w.record call).watcher =
      { w with session := (w.session.recordRun call.analyzer.findings).1.publish.1 } := by
  unfold record
  rw [h]
  exact ⟨rfl, rfl⟩

/-- **Recording keeps** what nothing changes, and what recording the findings of an analysis that
succeeded keeps. -/
theorem record_induction {P : Watcher → Prop} {w : Watcher} {call : Call Unit} (hw : P w)
    (hrecord : call.outcome = .ok () →
      P { w with session := (w.session.recordRun call.analyzer.findings).1.publish.1 }) :
    P (w.record call).watcher := by
  cases houtcome : call.outcome with
  | ok =>
    rw [(record_of_ok houtcome).2]
    exact hrecord houtcome
  | error f =>
    unfold record
    rw [houtcome]
    exact hw

/-- A call to a watcher that has taken a project over; the disk is as it is at that time. -/
inductive Request where
  | refresh (d : Disk) (around : Surroundings) (paths : List Text)
  /-- Analyses the files that the last refresh named. -/
  | analyzeFiles (around : Surroundings)
  | analyzeProject (around : Surroundings)

/-- A watcher and the files that the last refresh named. -/
structure Course where
  watcher : Watcher
  changed : List Text := []

namespace Course

/-- What a call leaves. -/
def after (c : Course) : Request → Course
  | .refresh d around paths =>
    let step := c.watcher.refresh d around paths
    ⟨step.watcher, step.outcome.toOption.getD []⟩
  | .analyzeFiles around => { c with watcher := (c.watcher.analyzeFiles around c.changed).watcher }
  | .analyzeProject around => { c with watcher := (c.watcher.analyzeProject around).watcher }

/-- What calls leave, one after the other, once a project was taken over. -/
def following (w : Watcher) (d : Disk) (around : Surroundings) (requests : List Request) : Course :=
  requests.foldl after ⟨(w.load d around).watcher, []⟩

end Course

/-- No file of the project stands at the path of its directory. -/
def FreeRoot (w : Watcher) (d : Disk) : Prop :=
  (w.project d).has projectPath = false ∧ projectPath ∉ (w.project d).paths

/-- A request finds no file at the path of the project. -/
def Request.FindsFreeRoot (w : Watcher) : Request → Prop
  | .refresh d _ _ => w.FreeRoot d
  | .analyzeFiles _ | .analyzeProject _ => True

/-- What holds of a watcher after any calls, of which `w` is the one at the start. -/
structure Course.Sound (w : Watcher) (c : Course) : Prop where
  setup : SameSetup w c.watcher
  consistent : c.watcher.Consistent
  changed : ∀ path ∈ c.changed, (c.watcher.copyOf path).isSome

/-- The path of the project was never in the copy. -/
def RootApart (w : Watcher) : Prop :=
  w.copyOf projectPath = none ∧ (w.session.standing projectPath).gone = none

section Course

variable {w : Watcher} {c : Course}

theorem isSome_copyOf {w : Watcher} {path : Text} :
    (w.copyOf path).isSome ↔ (w.store.docs.get? path).isSome := by
  unfold copyOf
  rw [Option.isSome_map]

/-- The setup and the copy stay as they are when findings are recorded. -/
theorem Course.Sound.record (hc : c.Sound w) {v : Watcher} (hsetup : SameSetup c.watcher v)
    (hstore : v.store = c.watcher.store) (hconsistent : v.Consistent) :
    Course.Sound w { c with watcher := v } where
  setup := hc.setup.trans hsetup
  consistent := hconsistent
  changed path hpath := by
    rw [isSome_copyOf, show ({ c with watcher := v } : Course).watcher.store = c.watcher.store from hstore,
      ← isSome_copyOf]
    exact hc.changed path hpath

/-- **No call brings the session out of step.** -/
theorem Course.Sound.after (hkeeps : ∀ k ∈ w.checks, k.KeepsToProject) (hc : c.Sound w)
    (r : Request) : (c.after r).Sound w := by
  cases r with
  | refresh d around paths =>
    obtain ⟨found, hfound, hstored⟩ := isSome_of_refresh c.watcher d around paths
    refine ⟨hc.setup.trans ?_, consistent_refresh hc.consistent d around paths, fun path hpath => ?_⟩
    · exact refreshAll_induction (P := SameSetup c.watcher)
        (fun _ _ _ _ h hsetup => hsetup.trans h.sameSetup) (.refl _)
    · dsimp only [Course.after] at hpath
      rw [hfound] at hpath
      exact isSome_copyOf.2 (hstored path hpath)
  | analyzeFiles around =>
    dsimp only [Course.after]
    unfold Watcher.analyzeFiles
    split
    · exact hc
    · refine record_induction (P := fun v => Course.Sound w { c with watcher := v }) hc fun hok => ?_
      exact hc.record ⟨rfl, rfl, rfl, rfl⟩ rfl
        (hc.consistent.recordRun (offers_of_analyzeFiles hc.changed hok) rfl rfl)
  | analyzeProject around =>
    dsimp only [Course.after]
    unfold Watcher.analyzeProject
    refine record_induction (P := fun v => Course.Sound w { c with watcher := v }) ?_ fun hok => ?_
    · exact hc.record ⟨rfl, rfl, rfl, rfl⟩ rfl
        ⟨hc.consistent.ordered, hc.consistent.tidy, hc.consistent.inStep⟩
    · have hchecks : ∀ k ∈ c.watcher.checks, k.KeepsToProject := by
        rw [hc.setup.checks]
        exact hkeeps
      refine hc.record ⟨rfl, rfl, rfl, rfl⟩ rfl (hc.consistent.recordRun (fun path hpath => ?_) rfl rfl)
      exact (offers_of_analyzeProject hc.consistent hchecks hok path hpath).1

/-- **A watcher stays in step with its copy** through any calls. -/
theorem Course.sound_following (hstore : w.store = {}) (hsession : w.session = {})
    (hkeeps : ∀ k ∈ w.checks, k.KeepsToProject) (d : Disk) (around : Surroundings)
    (requests : List Request) : (Course.following w d around requests).Sound w := by
  have hstart : Course.Sound w ⟨(w.load d around).watcher, []⟩ := by
    refine ⟨?_, consistent_load hstore hsession d around, nofun⟩
    exact loadAll_induction (P := SameSetup w)
      (fun _ _ _ _ h => h.trans ⟨rfl, rfl, rfl, rfl⟩) (.refl w)
  have hfrom (c : Course) (hc : c.Sound w) : (requests.foldl Course.after c).Sound w := by
    induction requests generalizing c with
    | nil => exact hc
    | cons r rest ih => exact ih _ (hc.after hkeeps r)
  exact hfrom _ hstart

/-! ## The path of the project -/

/-- Recording a run does not drop a path. -/
theorem gone_recordRun {s : Session} {f : Findings} {path : Text}
    (h : (s.standing path).gone = none) : ((s.recordRun f).1.standing path).gone = none := by
  rw [(recordRun_spec s f).2]
  split
  · rfl
  · exact h

theorem RootApart.record (h : w.RootApart) (call : Call Unit) : (w.record call).watcher.RootApart :=
  record_induction h fun _ => ⟨h.1, gone_recordRun h.2⟩

theorem RootApart.after (hsetup : SameSetup w c.watcher) (h : c.watcher.RootApart) {r : Request}
    (hr : r.FindsFreeRoot w) : (c.after r).watcher.RootApart := by
  cases r with
  | refresh d around paths =>
    -- what is not in the copy is not dropped, and what is not on the disk is not taken over
    let P (v : Watcher) : Prop := SameSetup w v ∧ v.RootApart
    refine (refreshAll_induction (P := P) (fun v path u changed hstep hv => ?_) ⟨hsetup, h⟩).2
    refine ⟨hv.1.trans hstep.sameSetup, ?_⟩
    cases hstep with
    | keep => exact hv.2
    | drop _ _ hstored =>
      have hother : projectPath ≠ path := by
        rintro rfl
        rw [copyOf_eq_none.1 hv.2.1] at hstored
        exact nomatch hstored
      unfold RootApart copyOf
      rw [docs_forget, Table.get?_erase, if_neg hother, standing_forget, if_neg hother]
      exact hv.2
    | take content _ hhas =>
      have hother : projectPath ≠ path := by
        rintro rfl
        rw [hv.1.project, hr.1] at hhas
        exact nomatch hhas
      unfold RootApart copyOf
      rw [docs_update, Table.get?_insert, if_neg hother, session_update]
      exact hv.2
  | analyzeFiles around =>
    dsimp only [Course.after]
    unfold Watcher.analyzeFiles
    split
    · exact h
    · exact h.record _
  | analyzeProject around =>
    exact RootApart.record (w := { c.watcher with dirty := false }) h _

/-- **The path of the project stays out of the copy** where no file is ever found there. -/
theorem rootApart_following (hstore : w.store = {}) (hsession : w.session = {})
    (hkeeps : ∀ k ∈ w.checks, k.KeepsToProject) {d : Disk} (around : Surroundings)
    {requests : List Request} (hd : w.FreeRoot d) (hrequests : ∀ r ∈ requests, r.FindsFreeRoot w) :
    (Course.following w d around requests).watcher.RootApart := by
  have hnew : w.RootApart := by
    unfold RootApart copyOf
    rw [hstore, hsession]
    exact ⟨rfl, rfl⟩
  have hloaded : (w.load d around).watcher.RootApart := by
    refine loadAll_induction (P := RootApart) (fun v path hpath content hv => ⟨?_, hv.2⟩) hnew
    have hother : projectPath ≠ path := fun h => hd.2 (h ▸ hpath)
    exact (congrArg _ ((Table.get?_insert ..).trans (if_neg hother))).trans hv.1
  have hstart : Course.Sound w (Course.following w d around []) :=
    Course.sound_following hstore hsession hkeeps d around []
  have hfrom (c : Course) (hc : c.Sound w) (h : c.watcher.RootApart) :
      (requests.foldl Course.after c).watcher.RootApart := by
    induction requests generalizing c with
    | nil => exact h
    | cons r rest ih =>
      have hrest := fun r' hr' => hrequests r' (List.mem_cons_of_mem r hr')
      exact ih hrest _ (hc.after hkeeps r) (h.after hc.setup (hrequests r (List.mem_cons_self ..)))
  exact hfrom _ hstart hloaded

end Course

/-! ## Convergence -/

section Converges

variable {w : Watcher} {around : Surroundings} {path : Text}

/-- An analysis of the project leaves the copy as it is, and what recording its findings leaves in the
session. -/
theorem analyzeProject_of_ok (hok : (w.analyzer.analyzeProject around).outcome = .ok ()) :
    let found := (w.analyzer.analyzeProject around).analyzer.findings
    (w.analyzeProject around).outcome = .ok () ∧
      (w.analyzeProject around).watcher.store = w.store ∧
      (w.analyzeProject around).watcher.session = (w.session.recordRun found).1.publish.1 := by
  intro found
  obtain ⟨hstep, hwatcher⟩ := record_of_ok (w := { w with dirty := false }) hok
  refine ⟨hstep, ?_, ?_⟩
  · exact (congrArg (·.store) hwatcher :)
  · exact (congrArg (·.session) hwatcher :)

/-- **No result of an analysis of the project comes too late**, unless one is found at the path that
stands for no file and something was dropped there. -/
theorem Consistent.takes_touched (hw : w.Consistent) (hkeeps : ∀ k ∈ w.checks, k.KeepsToProject)
    (hok : (w.analyzer.analyzeProject around).outcome = .ok ())
    (hroot : (∀ k ∈ w.checks, k.NamesFiles) ∨ (w.session.standing projectPath).gone = none) :
    let found := (w.analyzer.analyzeProject around).analyzer.findings
    ∀ path ∈ w.session.touched found,
      Session.takes found (w.session.standing path) path = true := by
  intro found path hpath
  obtain ⟨hoffered, hnames⟩ := offers_of_analyzeProject hw hkeeps hok path hpath
  refine hw.takes hoffered fun hat hnone => ?_
  rw [hat]
  exact hroot.resolve_left (hnames hat hnone)

/-- **What is recorded of a path that can be analysed** is what the analysis found, under the version of
the copy. -/
theorem runRecord_of_mem_analysable (hok : (w.analyzer.analyzeProject around).outcome = .ok ())
    (hpath : path ∈ w.analyzer.analysable) :
    let found := (w.analyzer.analyzeProject around).analyzer.findings
    runRecord found (w.session.standing path).record path =
      resultAt found path (w.store.version path) := by
  intro found
  have hrun : WholeRun found := Analyzer.wholeRun_of_ok hok
  have hvisited : path ∈ found.paths := by
    rw [show found.paths = w.analyzer.analysable from (Analyzer.analyze_of_ok _ _ false hok).1]
    exact hpath
  have hversion : versionOf found (w.session.records.get? path) path = w.store.version path := by
    have hnamed : namedAt found path = some (w.store.version path) :=
      Analyzer.namedAt_onStore (a := w.analyzer) (s := w.store) hok hpath
    rw [hrun.versionOf_eq, hnamed]
    rfl
  show recordAfter found (w.session.records.get? path) path
    (versionOf found (w.session.records.get? path) path) = _
  rw [hversion, hrun.recordAfter_eq, if_pos hvisited]
  rfl

/-- The session of a watcher that is in step holds nothing of a path that is not in the copy, but for the
path that stands for no file. -/
theorem Consistent.record_eq_none (hw : w.Consistent) (hpath : path ≠ projectPath)
    (hnone : w.store.docs.contains path = false) : w.session.records.get? path = none := by
  cases hheld : w.session.records.get? path with
  | none => rfl
  | some r =>
    rcases (hw.inStep path).recorded r hheld with ⟨v, hv, -⟩ | ⟨-, hat, -⟩
    · exact nomatch (copyOf_eq_none.2 hnone).symm.trans hv
    · exact absurd hat hpath

end Converges

/-- **Watching converges.**  Let a new watcher take a project over, and let the disk change and calls be
made in any way: refreshes of any paths, analyses of the files that the last refresh named, and analyses
of the project.  Then an analysis of the project that nothing cancels succeeds and leaves the copy as it
is, and none of its results comes too late.  After it, of every path of the copy that can be analysed the
session holds the version of the copy, with the offenses that a new analyzer finds in the copy, in order;
and it holds nothing of a path that is not in the copy, but for the path that stands for no file.

A check that looks at the project is to report on files that it was shown.  Where one also reports on no
file or breaks down, no file may ever have stood at the path of the project itself. -/
theorem session_converges {w : Watcher} (hstore : w.store = {}) (hsession : w.session = {})
    (hcancels : ∀ k ∈ w.checks, k.NeverCancels) (hkeeps : ∀ k ∈ w.checks, k.KeepsToProject)
    {d : Disk} {requests : List Request}
    (hroot : (∀ k ∈ w.checks, k.NamesFiles) ∨
      w.FreeRoot d ∧ ∀ r ∈ requests, r.FindsFreeRoot w)
    (start : Surroundings) {around : Surroundings} (hlive : around.cancelled = false) :
    let before := (Course.following w d start requests).watcher
    let found := (before.analyzer.analyzeProject around).analyzer.findings
    let fresh := (before.analyzer.analyzeProject {}).analyzer.findings
    let step := before.analyzeProject around
    step.outcome = .ok () ∧ step.watcher.store = before.store ∧
      (before.session.recordRun found).2 = (before.session.touched found).length ∧
      (∀ path ∈ before.analyzer.analysable, ∃ r,
        step.watcher.session.records.get? path = some r ∧
          r.version = before.store.version path ∧ r.offenses = fresh.offensesOf path) ∧
      ∀ path, path ≠ projectPath → before.store.docs.contains path = false →
        step.watcher.session.records.get? path = none := by
  intro before found fresh step
  have hsound : (Course.following w d start requests).Sound w :=
    Course.sound_following hstore hsession hkeeps d start requests
  have hbefore : before.Consistent := hsound.consistent
  have hchecks : before.checks = w.checks := hsound.setup.checks
  have hnever : ∀ k ∈ before.checks, k.NeverCancels := by
    rw [hchecks]
    exact hcancels
  have hok : (before.analyzer.analyzeProject around).outcome = .ok () :=
    (Analyzer.analyze_live _ _ false rfl hlive hnever).1
  have hroot' : (∀ k ∈ before.checks, k.NamesFiles) ∨
      (before.session.standing projectPath).gone = none := by
    refine hroot.imp (fun hnames => hchecks ▸ hnames) fun hfree => ?_
    exact (rootApart_following hstore hsession hkeeps start hfree.1 hfree.2).2
  have htakes := hbefore.takes_touched (hchecks ▸ hkeeps) hok hroot'
  obtain ⟨hcount, hstanding⟩ := recordRun_spec before.session found
  obtain ⟨hstepOk, hcopy, hrecorded⟩ := analyzeProject_of_ok hok
  have hafter : step.watcher.Consistent := by
    refine hbefore.recordRun (fun path hpath => ?_) hcopy hrecorded
    exact (offers_of_analyzeProject hbefore (hchecks ▸ hkeeps) hok path hpath).1
  refine ⟨hstepOk, hcopy, ?_, fun path hpath => ?_, fun path hpath hnone => ?_⟩
  · rw [hcount]
    exact List.countP_eq_length.2 htakes
  · have htouched : path ∈ before.session.touched found := by
      refine (mem_touched hbefore.tidy (Analyzer.wholeRun_of_ok hok)).2 (.inl ?_)
      rw [show found.paths = before.analyzer.analysable from (Analyzer.analyze_of_ok _ _ false hok).1]
      exact hpath
    have hfresh : fresh.offensesOf path = found.offensesOf path := by
      have hraised : fresh.raised = found.raised :=
        Analyzer.findings_of_live (a := before.analyzer) rfl rfl hlive hnever
      unfold Findings.offensesOf Findings.offenses
      rw [hraised]
    refine ⟨resultAt found path (before.store.version path), ?_, rfl, ?_⟩
    · show (step.watcher.session.standing path).record = _
      rw [show step.watcher.session = _ from hrecorded]
      show ((before.session.recordRun found).1.standing path).record = _
      rw [hstanding, if_pos ⟨htouched, htakes path htouched⟩, runRecord_of_mem_analysable hok hpath]
    · rw [hfresh, offenses_resultAt]
  · refine hafter.record_eq_none hpath ?_
    rw [show step.watcher.store = _ from hcopy]
    exact hnone

/-- A new watcher of a project, with the built-in checks. -/
def newWatcher : Watcher := { root := "/p", selection := ⟨[]⟩, checks := Rule.all, options := {} }

/-- A disk with a query in the project. -/
def queryDisk : Disk :=
  { items := ⟨[("/p", .directory), ("/p/find.graphql", .file { content := "query" })]⟩ }

/-- The query goes away and comes back, and is analysed. -/
def queryReturns : List Request :=
  [.refresh { items := ⟨[("/p", .directory)]⟩ } {} ["find.graphql"],
    .refresh queryDisk {} ["find.graphql"], .analyzeFiles {}]

/-- A query that went away and came back goes on above its version, and its results are taken up. -/
theorem session_converges_returning :
    newWatcher.store = {} ∧ newWatcher.session = {} ∧
      (∀ k ∈ newWatcher.checks, k.NeverCancels ∧ k.KeepsToProject ∧ k.NamesFiles) ∧
      let before := (Course.following newWatcher queryDisk {} queryReturns).watcher
      before.store.version "find.graphql" = 2 ∧
        (before.analyzeProject {}).outcome = .ok () ∧
        ∃ r, (before.analyzeProject {}).watcher.session.records.get? "find.graphql" = some r ∧
          r.version = 2 := by
  have hcancels : ∀ k ∈ newWatcher.checks, k.NeverCancels := fun _ hk =>
    Rule.neverCancels_of_mem_all hk
  have hkeeps : ∀ k ∈ newWatcher.checks, k.KeepsToProject := fun _ hk =>
    Rule.keepsToProject_of_mem_all hk
  have hnames : ∀ k ∈ newWatcher.checks, k.NamesFiles := fun _ hk => Rule.namesFiles_of_mem_all hk
  have hspec := @session_converges newWatcher rfl rfl hcancels hkeeps queryDisk queryReturns
    (.inl hnames) {} {} rfl
  obtain ⟨r, hr, hversion, -⟩ := hspec.2.2.2.1 "find.graphql" (by decide +kernel)
  have hcopy : (Course.following newWatcher queryDisk {} queryReturns).watcher.store.version
      "find.graphql" = 2 := by decide +kernel
  exact ⟨rfl, rfl, fun k hk => ⟨hcancels k hk, hkeeps k hk, hnames k hk⟩, hcopy, hspec.1, r, hr,
    hversion.trans hcopy⟩

end Watcher
end LiquidLint
