import LiquidLint.Proofs.AnalysisRuns
import LiquidLint.Proofs.SessionPublishing
import LiquidLint.Store.Memory

/-!
# Runs that arrive in another order

Two analyses of a whole project, at two times, are recorded in a new session.  Where a run names a
version of a path, because it looked at the path or because something that it found there names one, it
takes the place of what was found in versions that are not newer (`Held.recordRun_named`).  Where it
names none, it replaces the offenses of the project and keeps the rest (`Held.recordRun_unnamed`).

So the version of a path decides between the runs where both name one and these differ, whichever is
recorded first (`recordOf_comm`).  Where they do not, the offenses of the project are those of the run
that was recorded last (`differInProject`).  Analyses of one storage at two times are a case of this
(`recordRun_order`).  The offenses of the project do differ, for what is found of a file may depend on
other files (`recordRun_order_matters`).
-/

namespace LiquidLint

open Source Store Analysis

namespace Session

/-! ## Runs over a project -/

/-- What a run over a whole project found. -/
structure WholeRun (f : Findings) : Prop where
  pass : f.projectPass = true
  single : ∀ o ∈ f.single, o.path ∈ f.paths
  versions : ∀ path, (f.versions.get? path).isSome ↔ path ∈ f.paths

/-- The version that a run names of a path: the one that it looked at, or else that of an offense of the
project. -/
def namedAt (f : Findings) (path : Text) : Option Int :=
  (f.versions.get? path).or
    (((offensesAt f.project path).find? fun o => 0 < o.version).map (·.version))

/-- All that a run found of a path. -/
def resultAt (f : Findings) (path : Text) (version : Int) : Record :=
  { version, single := offensesAt f.single path, project := offensesAt f.project path }

/-- The record of a path after a run that names no version of it. -/
def keptBy (f : Findings) (path : Text) : Option Record → Option Record
  | some r => some { r with project := offensesAt f.project path }
  | none =>
    if offensesAt f.project path = [] then none
    else some { version := 0, project := offensesAt f.project path }

/-- A session that nothing was dropped from, with its records in order. -/
structure Held (s : Session) : Prop where
  tidy : s.Tidy
  gone : ∀ path, (s.standing path).gone = none

theorem held_empty : Held {} := ⟨⟨Table.ordered_empty, Table.ordered_empty⟩, fun _ => rfl⟩

section Run

variable {s : Session} {f : Findings} {path : Text}

theorem mem_touched (hs : s.Tidy) (hf : WholeRun f) :
    path ∈ s.touched f ↔ path ∈ f.paths ∨ offensesAt f.project path ≠ [] ∨
      ∃ r, s.records.get? path = some r ∧ r.project ≠ [] := by
  have hkeys : path ∈ (s.records.filter fun _ r => !r.project.isEmpty).keys ↔
      ∃ r, s.records.get? path = some r ∧ r.project ≠ [] := by
    rw [(hs.records.filter _).mem_keys, hs.records.get?_filter]
    simp [Option.filter_eq_some_iff]
  have hproject : path ∈ f.project.map (·.path) ↔ offensesAt f.project path ≠ [] := by
    unfold offensesAt
    rw [Ne, List.filter_eq_nil_iff, List.mem_map]
    simp
  have hsingle : path ∈ f.single.map (·.path) → path ∈ f.paths := by
    intro h
    obtain ⟨o, ho, rfl⟩ := List.mem_map.1 h
    exact hf.single o ho
  unfold touched
  rw [Text.mem_sortDedup, hf.pass, if_pos rfl, List.mem_append, List.mem_append, List.mem_append,
    hkeys, hproject, or_iff_left_of_imp hsingle, or_assoc]

/-- What a run found in files that it did not look at is nothing. -/
theorem WholeRun.offensesAt_single (hf : WholeRun f) (hpath : path ∉ f.paths) :
    offensesAt f.single path = [] := by
  refine List.filter_eq_nil_iff.2 fun o ho hat => hpath ?_
  rw [← of_decide_eq_true hat]
  exact hf.single o ho

/-- A run names a version of the paths that it looked at. -/
theorem WholeRun.not_mem_paths (hf : WholeRun f) (hnamed : namedAt f path = none) :
    path ∉ f.paths := by
  intro hpath
  obtain ⟨v, hv⟩ := Option.isSome_iff_exists.1 ((hf.versions path).2 hpath)
  unfold namedAt at hnamed
  rw [hv] at hnamed
  exact nomatch hnamed

/-- What a run that did not look at a path names of it is the version of an offense. -/
theorem WholeRun.namedAt_pos (hf : WholeRun f) (hpath : path ∉ f.paths) {v : Int}
    (hnamed : namedAt f path = some v) : 0 < v := by
  have hversion : f.versions.get? path = none := by
    rw [← Option.not_isSome_iff_eq_none, hf.versions]
    exact hpath
  unfold namedAt at hnamed
  rw [hversion, Option.none_or] at hnamed
  obtain ⟨o, ho, rfl⟩ := Option.map_eq_some_iff.1 hnamed
  have hpositive := List.find?_some ho
  exact of_decide_eq_true hpositive

/-- **The version that is recorded** is the one that the run names, or else the one that is held. -/
theorem WholeRun.versionOf_eq (hf : WholeRun f) (cur : Option Record) :
    versionOf f cur path = (namedAt f path).getD ((cur.map (·.version)).getD 0) := by
  unfold versionOf namedAt
  cases hversion : f.versions.get? path with
  | some v => rfl
  | none =>
    have hpath : path ∉ f.paths := by
      rw [← hf.versions, hversion]
      exact Bool.false_ne_true
    rw [hf.offensesAt_single hpath, List.nil_append, Option.none_or]
    cases (offensesAt f.project path).find? fun o => 0 < o.version with
    | some o => rfl
    | none => rfl

/-- The record of a path after a run over a project. -/
theorem WholeRun.recordAfter_eq (hf : WholeRun f) (cur : Option Record) (v : Int) :
    recordAfter f cur path v =
      { version := v
        single := if path ∈ f.paths then offensesAt f.single path else
          ((cur.filter fun r => r.version = v).map (·.single)).getD []
        project := offensesAt f.project path } := by
  unfold recordAfter
  dsimp only
  rw [hf.pass, if_pos rfl]
  by_cases hpath : path ∈ f.paths
  · rw [if_pos (List.contains_iff_mem.2 hpath), if_pos hpath]
  · rw [if_neg (mt List.contains_iff_mem.1 hpath), if_neg hpath, hf.offensesAt_single hpath,
      List.append_nil]

/-- A run keeps nothing of a record that holds nothing of its version. -/
theorem WholeRun.recordAfter_eq_resultAt (hf : WholeRun f) {cur : Option Record} {v : Int}
    (hcur : ∀ r, cur = some r → r.version = v → r.single = []) :
    recordAfter f cur path v = resultAt f path v := by
  have hnothing : ((cur.filter fun r => r.version = v).map (·.single)).getD [] = [] := by
    cases cur with
    | none => rfl
    | some r =>
      rw [Option.filter_some]
      split
      · rename_i hversion
        exact hcur r rfl (of_decide_eq_true hversion)
      · rfl
  rw [hf.recordAfter_eq, hnothing]
  by_cases hpath : path ∈ f.paths
  · rw [if_pos hpath]
    rfl
  · rw [if_neg hpath, ← hf.offensesAt_single hpath]
    rfl

theorem WholeRun.recordAfter_none (hf : WholeRun f) (v : Int) :
    recordAfter f none path v = resultAt f path v := hf.recordAfter_eq_resultAt nofun

theorem Held.recordRun (hs : s.Held) (f : Findings) : (s.recordRun f).1.Held := by
  refine ⟨(hs.tidy.change (.recordRun f)).1, fun path => ?_⟩
  rw [(recordRun_spec s f).2]
  split
  · rfl
  · exact hs.gone path

/-- **What a run leaves of a path** where nothing was dropped. -/
theorem Held.recordRun_eq (hs : s.Held) (hf : WholeRun f) :
    (s.recordRun f).1.records.get? path =
      let cur := s.records.get? path
      let version := (namedAt f path).getD ((cur.map (·.version)).getD 0)
      if path ∈ s.touched f ∧ ¬ cur.any (fun r => version < r.version) = true then
        some (recordAfter f cur path version)
      else cur := by
  have hafter := congrArg Standing.record ((recordRun_spec s f).2 path)
  have htakes : takes f (s.standing path) path = true ↔
      ¬ (s.records.get? path).any (fun r =>
        (namedAt f path).getD (((s.records.get? path).map (·.version)).getD 0) < r.version) = true := by
    unfold takes Standing.isStale runRecord
    rw [hs.gone path, hf.versionOf_eq, Bool.not_eq_true', Bool.not_eq_true]
    exact Bool.or_false _ ▸ Iff.rfl
  refine hafter.trans ?_
  by_cases htaken : path ∈ s.touched f ∧ takes f (s.standing path) path = true
  · rw [if_pos htaken]
    refine Eq.trans ?_ (if_pos ⟨htaken.1, htakes.1 htaken.2⟩).symm
    show some (runRecord f (s.records.get? path) path) = _
    unfold runRecord
    rw [hf.versionOf_eq]
  · rw [if_neg htaken]
    exact (if_neg fun h => htaken ⟨h.1, htakes.2 h.2⟩).symm

/-- **A run that names a version of a path** replaces what was found in versions that are not newer. -/
theorem Held.recordRun_named (hs : s.Held) (hf : WholeRun f) {v : Int}
    (hnamed : namedAt f path = some v) :
    (s.recordRun f).1.records.get? path =
      if (s.records.get? path).any (fun r => v < r.version) then s.records.get? path
      else some (recordAfter f (s.records.get? path) path v) := by
  have htouched : path ∈ s.touched f := by
    refine (mem_touched hs.tidy hf).2 (or_iff_not_imp_left.2 fun hpath => .inl fun hnothing => ?_)
    have hversion : f.versions.get? path = none := by
      rw [← Option.not_isSome_iff_eq_none, hf.versions]
      exact hpath
    unfold namedAt at hnamed
    rw [hversion, hnothing] at hnamed
    exact nomatch hnamed
  rw [hs.recordRun_eq hf, hnamed]
  dsimp only [Option.getD_some]
  by_cases hstale : (s.records.get? path).any (fun r => v < r.version) = true
  · rw [if_pos hstale, if_neg fun h => h.2 hstale]
  · rw [if_neg hstale, if_pos ⟨htouched, hstale⟩]

/-- **A run that names no version of a path** replaces the offenses of the project and keeps the
rest. -/
theorem Held.recordRun_unnamed (hs : s.Held) (hf : WholeRun f) (hnamed : namedAt f path = none) :
    (s.recordRun f).1.records.get? path = keptBy f path (s.records.get? path) := by
  have hpath : path ∉ f.paths := hf.not_mem_paths hnamed
  have htouched : path ∈ s.touched f ↔ offensesAt f.project path ≠ [] ∨
      ∃ r, s.records.get? path = some r ∧ r.project ≠ [] := by
    rw [mem_touched hs.tidy hf, or_iff_right hpath]
  rw [hs.recordRun_eq hf, hnamed]
  dsimp only [Option.getD_none]
  rw [hf.recordAfter_eq, if_neg hpath]
  cases hrecord : s.records.get? path with
  | none =>
    by_cases hnothing : offensesAt f.project path = []
    · have huntouched : path ∉ s.touched f := by
        rw [htouched, hrecord]
        rintro (h | ⟨r, hr, -⟩)
        · exact h hnothing
        · exact nomatch hr
      rw [if_neg fun h => huntouched h.1]
      exact (if_pos hnothing).symm
    · rw [if_pos ⟨htouched.2 (.inl hnothing), Bool.false_ne_true⟩]
      exact (if_neg hnothing).symm
  | some r =>
    have hcurrent : ¬ (some r).any (fun r' => r.version < r'.version) = true :=
      fun h => Int.lt_irrefl _ (of_decide_eq_true h)
    by_cases htouch : path ∈ s.touched f
    · rw [if_pos ⟨htouch, hcurrent⟩]
      have hsame : (some r).filter (fun r' => r'.version = r.version) = some r :=
        if_pos (decide_eq_true rfl)
      dsimp only [Option.map_some, Option.getD_some]
      rw [hsame]
      rfl
    · -- there is nothing to replace
      rw [if_neg fun h => htouch h.1]
      rw [htouched, not_or] at htouch
      have hproject : r.project = [] := not_not.1 fun h => htouch.2 ⟨r, hrecord, h⟩
      show some r = some { r with project := offensesAt f.project path }
      rw [not_not.1 htouch.1, ← hproject]

end Run

/-! ## Two runs in both orders -/

/-- The record of a path after two runs were recorded in a new session, one after the other. -/
def recordOf (f g : Findings) (path : Text) : Option Record :=
  ((({} : Session).recordRun f).1.recordRun g).1.records.get? path

/-- The runs name one version of the path, where both name one. -/
def AgreeAt (f g : Findings) (path : Text) : Prop :=
  ∀ v w, namedAt f path = some v → namedAt g path = some w → v = w

/-- What two orders leave of a path, where they need not agree on the offenses of the project. -/
def DifferInProject (f g : Findings) (path : Text) : Prop :=
  (recordOf f g path = none ∧ recordOf g f path = none) ∨
    ∃ version single single',
      recordOf f g path = some { version, single, project := offensesAt g.project path } ∧
      recordOf g f path = some { version, single := single', project := offensesAt f.project path } ∧
      (single = single' ∨ path ∈ f.paths ∧ path ∈ g.paths ∧
        single = offensesAt g.single path ∧ single' = offensesAt f.single path)

theorem DifferInProject.symm {f g : Findings} {path : Text} (h : DifferInProject f g path) :
    DifferInProject g f path := by
  refine h.imp And.symm ?_
  rintro ⟨version, single, single', hfg, hgf, hsingle⟩
  exact ⟨version, single', single, hgf, hfg,
    hsingle.imp Eq.symm fun ⟨hf, hg, h, h'⟩ => ⟨hg, hf, h', h⟩⟩

section Order

variable {f g : Findings} {path : Text}

theorem recordRun_empty (hf : WholeRun f) {v : Int} (hv : namedAt f path = some v) :
    (({} : Session).recordRun f).1.records.get? path = some (resultAt f path v) := by
  rw [held_empty.recordRun_named hf hv, ← hf.recordAfter_none]
  rfl

/-- **A run is replaced by one that names a version that is not older.** -/
theorem recordOf_named (hf : WholeRun f) (hg : WholeRun g) {v w : Int}
    (hv : namedAt f path = some v) (hw : namedAt g path = some w) :
    recordOf f g path =
      if w < v then some (resultAt f path v)
      else some (recordAfter g (some (resultAt f path v)) path w) := by
  unfold recordOf
  rw [(held_empty.recordRun f).recordRun_named hg hw, recordRun_empty hf hv]
  by_cases hlt : w < v
  · rw [if_pos hlt]
    exact if_pos (decide_eq_true hlt)
  · rw [if_neg hlt]
    exact if_neg fun h => hlt (of_decide_eq_true h)

/-- A run that looked at a path takes the place of one that looked at the same version. -/
theorem recordOf_mem_paths (hf : WholeRun f) (hg : WholeRun g) {v : Int}
    (hv : namedAt f path = some v) (hw : namedAt g path = some v) (hpath : path ∈ g.paths) :
    recordOf f g path = some (resultAt g path v) := by
  rw [recordOf_named hf hg hv hw, if_neg (Int.lt_irrefl v), hg.recordAfter_eq, if_pos hpath]
  rfl

/-- **The version of a path decides between two runs where it differs**, whichever is recorded first. -/
theorem recordOf_comm (hf : WholeRun f) (hg : WholeRun g) (hdiffer : ¬ AgreeAt f g path) :
    recordOf f g path = recordOf g f path := by
  unfold AgreeAt at hdiffer
  push Not at hdiffer
  obtain ⟨v, w, hv, hw, hne⟩ := hdiffer
  -- nothing is kept of a record of another version
  have hafter {f g : Findings} (hg : WholeRun g) {v w : Int} (hne : v ≠ w) :
      recordAfter g (some (resultAt f path v)) path w = resultAt g path w := by
    refine hg.recordAfter_eq_resultAt fun r hr hversion => absurd hversion ?_
    obtain rfl := Option.some.inj hr
    exact hne
  rw [recordOf_named hf hg hv hw, recordOf_named hg hf hw hv, hafter hg hne, hafter hf hne.symm]
  by_cases hlt : w < v
  · rw [if_pos hlt, if_neg (by omega)]
  · rw [if_neg hlt, if_pos (by omega)]

theorem differInProject_named (hf : WholeRun f) (hg : WholeRun g) {v : Int}
    (hv : namedAt f path = some v) (hw : namedAt g path = some v) : DifferInProject f g path := by
  have hlast {f g : Findings} (hf : WholeRun f) (hg : WholeRun g) (hv : namedAt f path = some v)
      (hw : namedAt g path = some v) :
      recordOf f g path = some
        { version := v
          single := if path ∈ g.paths then offensesAt g.single path else offensesAt f.single path
          project := offensesAt g.project path } := by
    have hsame : (some (resultAt f path v)).filter (fun r => r.version = v) =
        some (resultAt f path v) := if_pos (decide_eq_true rfl)
    rw [recordOf_named hf hg hv hw, if_neg (Int.lt_irrefl v), hg.recordAfter_eq, hsame]
    rfl
  refine .inr ⟨v, _, _, hlast hf hg hv hw, hlast hg hf hw hv, ?_⟩
  by_cases hpath : path ∈ f.paths
  · by_cases hpath' : path ∈ g.paths
    · rw [if_pos hpath, if_pos hpath']
      exact .inr ⟨hpath, hpath', rfl, rfl⟩
    · rw [if_pos hpath, if_neg hpath']
      exact .inl rfl
  · by_cases hpath' : path ∈ g.paths
    · rw [if_neg hpath, if_pos hpath']
      exact .inl rfl
    · rw [if_neg hpath, if_neg hpath', hf.offensesAt_single hpath, hg.offensesAt_single hpath']
      exact .inl rfl

theorem differInProject_half_named (hf : WholeRun f) (hg : WholeRun g) {v : Int}
    (hv : namedAt f path = some v) (hw : namedAt g path = none)
    (hnonneg : offensesAt g.project path ≠ [] → 0 ≤ v) : DifferInProject f g path := by
  refine .inr ⟨v, offensesAt f.single path, _, ?_, ?_, .inl rfl⟩
  · unfold recordOf
    rw [(held_empty.recordRun f).recordRun_unnamed hg hw, recordRun_empty hf hv]
    rfl
  · unfold recordOf
    rw [(held_empty.recordRun g).recordRun_named hf hv, held_empty.recordRun_unnamed hg hw]
    show (if (keptBy g path none).any (fun r => v < r.version) = true then keptBy g path none
      else some (recordAfter f (keptBy g path none) path v)) = some (resultAt f path v)
    unfold keptBy
    by_cases hnothing : offensesAt g.project path = []
    · rw [if_pos hnothing, hf.recordAfter_none]
      rfl
    · have hempty : ∀ r : Record, some { version := 0, project := offensesAt g.project path } = some r →
          r.version = v → r.single = [] := by
        rintro r hr -
        obtain rfl := Option.some.inj hr
        rfl
      have hcurrent : ¬ v < 0 := Int.not_lt.2 (hnonneg hnothing)
      rw [if_neg hnothing, hf.recordAfter_eq_resultAt hempty]
      exact if_neg fun h => hcurrent (of_decide_eq_true h)

theorem differInProject_unnamed (hf : WholeRun f) (hg : WholeRun g) (hv : namedAt f path = none)
    (hw : namedAt g path = none) : DifferInProject f g path := by
  have htwice {f g : Findings} (hf : WholeRun f) (hg : WholeRun g) (hv : namedAt f path = none)
      (hw : namedAt g path = none) : recordOf f g path = keptBy g path (keptBy f path none) := by
    unfold recordOf
    rw [(held_empty.recordRun f).recordRun_unnamed hg hw, held_empty.recordRun_unnamed hf hv]
    rfl
  unfold DifferInProject
  rw [htwice hf hg hv hw, htwice hg hf hw hv]
  unfold keptBy
  by_cases hf : offensesAt f.project path = []
  · by_cases hg : offensesAt g.project path = []
    · rw [if_pos hf, if_pos hg]
      exact .inl ⟨rfl, rfl⟩
    · rw [if_pos hf, if_neg hg]
      exact .inr ⟨0, [], [], rfl, rfl, .inl rfl⟩
  · by_cases hg : offensesAt g.project path = []
    · rw [if_neg hf, if_pos hg]
      exact .inr ⟨0, [], [], rfl, rfl, .inl rfl⟩
    · rw [if_neg hf, if_neg hg]
      exact .inr ⟨0, [], [], rfl, rfl, .inl rfl⟩

/-- **Where the version of a path does not decide**, the run that is recorded last leaves its offenses of
the project.  What counts as version zero, as a run names none, must not be newer. -/
theorem differInProject (hf : WholeRun f) (hg : WholeRun g) (hagree : AgreeAt f g path)
    (hfirst : namedAt g path = none → offensesAt g.project path ≠ [] →
      ∀ v, namedAt f path = some v → 0 ≤ v)
    (hsecond : namedAt f path = none → offensesAt f.project path ≠ [] →
      ∀ v, namedAt g path = some v → 0 ≤ v) :
    DifferInProject f g path := by
  cases hv : namedAt f path with
  | some v =>
    cases hw : namedAt g path with
    | some w =>
      obtain rfl := hagree v w hv hw
      exact differInProject_named hf hg hv hw
    | none => exact differInProject_half_named hf hg hv hw fun h => hfirst hw h v hv
  | none =>
    cases hw : namedAt g path with
    | some w => exact (differInProject_half_named hg hf hw hv fun h => hsecond hv h w hw).symm
    | none => exact differInProject_unnamed hf hg hv hw

end Order

end Session

/-! ## Storages that are written to -/

namespace VersionedStore

/-- A write to a storage: under the next version, or under one that is given. -/
inductive Write where
  | next (path content : Text)
  | set (path content : Text) (version : Int)

/-- The storage after a write. -/
def after (s : VersionedStore) : Write → VersionedStore
  | .next path content => s.write path content
  | .set path content version => s.writeVersion path content version

/-- The storage after some writes. -/
def afterAll (s : VersionedStore) (writes : List Write) : VersionedStore := writes.foldl after s

variable {s : VersionedStore}

theorem after_eq (s : VersionedStore) (w : Write) :
    ∃ path revision, s.after w = ⟨s.docs.insert path revision⟩ := by
  cases w with
  | next path content => exact ⟨path, _, rfl⟩
  | set path content version => exact ⟨path, _, rfl⟩

theorem ordered_afterAll (hs : s.docs.Ordered) (writes : List Write) :
    (s.afterAll writes).docs.Ordered := by
  unfold afterAll
  induction writes generalizing s with
  | nil => exact hs
  | cons w rest ih =>
    refine ih ?_
    obtain ⟨path, revision, hafter⟩ := s.after_eq w
    rw [hafter]
    exact hs.insert path revision

/-- Nothing is taken away by writes. -/
theorem isSome_afterAll {path : Text} (hs : (s.docs.get? path).isSome) (writes : List Write) :
    ((s.afterAll writes).docs.get? path).isSome := by
  unfold afterAll
  induction writes generalizing s with
  | nil => exact hs
  | cons w rest ih =>
    refine ih ?_
    obtain ⟨target, revision, hafter⟩ := s.after_eq w
    rw [hafter]
    show ((s.docs.insert target revision).get? path).isSome
    rw [Table.get?_insert]
    split
    · rfl
    · exact hs

/-- **A snapshot shows each path as the storage holds it.** -/
theorem state?_snapshot (s : VersionedStore) (path : Text) :
    s.snapshot.state? path = (s.docs.get? path).map fun d =>
      { content := .loaded (Text.replaceInvalid d.content), version := d.version } :=
  Table.get?_map ..

end VersionedStore

namespace Analyzer

section Storage

variable {a : Analyzer} {around : Surroundings} {path : Text}

/-- The analyzer over the state of a storage. -/
def onStore (a : Analyzer) (s : VersionedStore) : Analyzer := { a with snapshot := s.snapshot }

theorem isSome_state?_of_mem_analysable (hpath : path ∈ a.analysable) :
    (a.snapshot.state? path).isSome := by
  obtain ⟨⟨key, e⟩, he, hkept⟩ := List.mem_filterMap.1 hpath
  have hkey : key = path := Option.some.inj (Option.ite_none_left_eq_some.1 hkept).2
  exact List.lookup_isSome_iff.2 ⟨(key, e), he, beq_iff_eq.2 hkey.symm⟩

/-- The paths of a storage that can be analysed. -/
theorem mem_analysable_onStore {s : VersionedStore} :
    path ∈ (a.onStore s).analysable ↔ (s.docs.get? path).isSome ∧ a.options.exclude path = false ∧
      (Project.classify path).category.isAnalyzable = true := by
  unfold analysable onStore VersionedStore.snapshot Table.map Table.get?
  rw [List.lookup_isSome_iff, List.filterMap_map, List.mem_filterMap]
  constructor
  · rintro ⟨⟨key, d⟩, hd, hkept⟩
    obtain ⟨hfree, hkey⟩ := Option.ite_none_left_eq_some.1 hkept
    obtain rfl := Option.some.inj hkey
    refine ⟨⟨(key, d), hd, beq_iff_eq.2 rfl⟩, ?_⟩
    simpa using hfree
  · rintro ⟨⟨⟨key, d⟩, hd, hkey⟩, hexclude, hcategory⟩
    obtain rfl := beq_iff_eq.1 hkey
    refine ⟨(path, d), hd, if_neg ?_⟩
    simp [hexclude, hcategory]

/-- **What a run over a project found** when it succeeded. -/
theorem wholeRun_of_ok (h : (a.analyzeProject around).outcome = .ok ()) :
    Session.WholeRun (a.analyzeProject around).analyzer.findings := by
  obtain ⟨hpaths, hpass, hsingle, hversions⟩ := analyze_of_ok a.analysable a.analysable false h
  refine ⟨hpass, fun o ho => ?_, fun path => ?_⟩
  · change o ∈ (a.analyze around a.analysable a.analysable false).analyzer.findings.single at ho
    rw [hsingle] at ho
    refine hpaths.symm ▸ ?_
    rcases List.mem_append.1 ho with ho | ho
    · exact path_readFailures ho
    · obtain ⟨f, hf, hpath⟩ := path_raisedAcross _ _ _ _ o ho
      rw [files_eq fun _ h => h] at hf
      obtain ⟨p, hp, rfl⟩ := List.mem_map.1 hf
      obtain ⟨path, hmem, hparse⟩ := mem_readable.1 hp
      rw [hpath, path_of_parseOne hparse]
      exact hmem
  · unfold analyzeProject
    rw [hversions, hpaths]
    by_cases hpath : path ∈ a.analysable
    · obtain ⟨e, he⟩ := Option.isSome_iff_exists.1 (isSome_state?_of_mem_analysable hpath)
      rw [if_pos hpath, versionAt_readable hpath he]
      exact iff_of_true rfl hpath
    · rw [if_neg hpath]
      exact iff_of_false Bool.false_ne_true hpath

/-- **A run over a storage names the versions that the storage holds.** -/
theorem namedAt_onStore {s : VersionedStore} (h : ((a.onStore s).analyzeProject around).outcome = .ok ())
    (hpath : path ∈ (a.onStore s).analysable) :
    Session.namedAt ((a.onStore s).analyzeProject around).analyzer.findings path =
      some (s.version path) := by
  obtain ⟨-, -, -, hversions⟩ := analyze_of_ok _ _ false h
  obtain ⟨d, hd⟩ := Option.isSome_iff_exists.1 (mem_analysable_onStore.1 hpath).1
  have hstate : (a.onStore s).snapshot.state? path =
      some { content := .loaded (Text.replaceInvalid d.content), version := d.version } := by
    show s.snapshot.state? path = _
    rw [s.state?_snapshot, hd]
    rfl
  have hversion : s.version path = d.version := by
    unfold VersionedStore.version
    rw [hd]
    rfl
  unfold Session.namedAt analyzeProject
  rw [hversions, if_pos hpath, versionAt_readable hpath hstate, hversion]
  rfl

/-- **What forgetful checks find in a file** depends on the file alone. -/
theorem offensesAt_of_forgetful (hsorted : a.snapshot.entries.Ordered)
    (h : (a.analyzeProject around).outcome = .ok ()) (hchecks : ∀ k ∈ a.checks, k.Forgetful)
    (hpath : path ∈ a.analysable) :
    Session.offensesAt (a.analyzeProject around).analyzer.findings.single path =
      readFailures a.snapshot [path] ++ (a.raisedAt path).offenses := by
  obtain ⟨-, -, hsingle, -⟩ := analyze_of_ok _ _ false h
  have hone : a.analysable.filter (fun p => p = path) = [path] := by
    have hnodup : a.analysable.Nodup :=
      (pairwise_analysable hsorted).imp fun h => ((Text.precedes_iff _ _).1 h).2
    rw [List.filter_eq, List.count_eq_one_of_mem hnodup hpath]
    rfl
  unfold Session.offensesAt analyzeProject
  rw [hsingle, raisedInFiles_forgetful (fun _ h => h) hchecks, List.filter_append,
    ← readFailures_filter _ _ fun p => p = path, ← offenses_raisedAt_filter _ _ fun p => p = path,
    hone]
  exact congrArg _ (List.append_nil _)

end Storage

/-! ## Analyses at two times -/

section Times

open Session

section Stores

variable {a : Analyzer} {s t : VersionedStore} {around around' : Surroundings} {path : Text}
  (hs : ((a.onStore s).analyzeProject around).outcome = .ok ())
  (ht : ((a.onStore t).analyzeProject around').outcome = .ok ())
  (hpath : path ∈ (a.onStore s).analysable) (hpath' : path ∈ (a.onStore t).analysable)
include hs ht hpath hpath'

/-- Runs name one version of a file that both look at if the storages hold one version of it. -/
theorem agreeAt_iff :
    AgreeAt ((a.onStore s).analyzeProject around).analyzer.findings
        ((a.onStore t).analyzeProject around').analyzer.findings path ↔
      s.version path = t.version path := by
  unfold AgreeAt
  rw [namedAt_onStore hs hpath, namedAt_onStore ht hpath']
  constructor
  · exact fun h => h _ _ rfl rfl
  · rintro h v w ⟨⟩ ⟨⟩
    exact h

/-- Forgetful checks find the same in a file that two storages hold alike. -/
theorem offensesAt_congr (hsorted : s.docs.Ordered) (hsorted' : t.docs.Ordered)
    (hchecks : ∀ k ∈ a.checks, k.Forgetful) (hsame : s.docs.get? path = t.docs.get? path) :
    offensesAt ((a.onStore s).analyzeProject around).analyzer.findings.single path =
      offensesAt ((a.onStore t).analyzeProject around').analyzer.findings.single path := by
  have hread : (a.onStore s).snapshot.state? path = (a.onStore t).snapshot.state? path := by
    show s.snapshot.state? path = t.snapshot.state? path
    rw [VersionedStore.state?_snapshot, VersionedStore.state?_snapshot, hsame]
  have hparse : parseOne (a.onStore s).snapshot path = parseOne (a.onStore t).snapshot path := by
    unfold parseOne Snapshot.read
    rw [hread]
  have hraised : (a.onStore s).raisedAt path = (a.onStore t).raisedAt path := by
    unfold raisedAt
    rw [hparse]
    rfl
  have hfailures :
      readFailures (a.onStore s).snapshot [path] = readFailures (a.onStore t).snapshot [path] := by
    unfold readFailures
    rw [List.filterMap_cons, List.filterMap_cons, hparse]
    rfl
  rw [offensesAt_of_forgetful (hsorted.map _) hs hchecks hpath,
    offensesAt_of_forgetful (hsorted'.map _) ht hchecks hpath', hraised, hfailures]

end Stores

/-- **Which of two analyses arrives first matters for the offenses of the project only.**  Let a storage
be analysed, and once more after some writes, by the same checks, and let both results be recorded in a
new session.  Of a path that the first analysis looked at, the two name versions that differ if the
storage holds another version of it later.  Wherever they do, both orders leave the same.  Elsewhere they
leave the same version, and the offenses of the project of the analysis that was recorded last; but what
the first analysis finds of a file that it did not look at counts as version zero, which must not be
newer than the file.  The offenses of a file whose version and content are as before are the same, too,
where the checks are forgetful. -/
theorem recordRun_order {a : Analyzer} {store : VersionedStore} (hsorted : store.docs.Ordered)
    (writes : List VersionedStore.Write) {around around' : Surroundings}
    (hfirst : ((a.onStore store).analyzeProject around).outcome = .ok ())
    (hsecond : ((a.onStore (store.afterAll writes)).analyzeProject around').outcome = .ok ())
    (path : Text) :
    let later := store.afterAll writes
    let f := ((a.onStore store).analyzeProject around).analyzer.findings
    let g := ((a.onStore later).analyzeProject around').analyzer.findings
    (path ∈ f.paths → (AgreeAt f g path ↔ store.version path = later.version path)) ∧
      (¬ AgreeAt f g path → recordOf f g path = recordOf g f path) ∧
      (AgreeAt f g path →
        (path ∉ f.paths → offensesAt f.project path ≠ [] → 0 ≤ later.version path) →
        DifferInProject f g path) ∧
      ((∀ k ∈ a.checks, k.Forgetful) → path ∈ f.paths →
        store.docs.get? path = later.docs.get? path →
        offensesAt f.single path = offensesAt g.single path) := by
  intro later f g
  have hf : WholeRun f := wholeRun_of_ok hfirst
  have hg : WholeRun g := wholeRun_of_ok hsecond
  have hpaths : f.paths = _ := (analyze_of_ok _ _ false hfirst).1
  have hpaths' : g.paths = _ := (analyze_of_ok _ _ false hsecond).1
  have hlater : path ∈ (a.onStore store).analysable → path ∈ (a.onStore later).analysable := by
    rw [mem_analysable_onStore, mem_analysable_onStore]
    exact fun h => ⟨VersionedStore.isSome_afterAll h.1 writes, h.2⟩
  refine ⟨fun hpath => ?_, recordOf_comm hf hg, fun hagree hnonneg => ?_, fun hchecks hpath hsame => ?_⟩
  · rw [hpaths] at hpath
    exact agreeAt_iff hfirst hsecond hpath (hlater hpath)
  · refine differInProject hf hg hagree (fun hw _ v hv => ?_) fun hv hfound w hw => ?_
    · -- the later run looks at all that the earlier run looked at
      have hpath : path ∉ f.paths := by
        rw [hpaths]
        exact fun h => hg.not_mem_paths hw (hpaths' ▸ hlater h)
      exact Int.le_of_lt (hf.namedAt_pos hpath hv)
    · by_cases hpath : path ∈ g.paths
      · rw [hpaths'] at hpath
        obtain rfl := Option.some.inj (hw.symm.trans (namedAt_onStore hsecond hpath))
        exact hnonneg (hf.not_mem_paths hv) hfound
      · exact Int.le_of_lt (hg.namedAt_pos hpath hw)
  · rw [hpaths] at hpath
    exact offensesAt_congr hfirst hsecond hpath (hlater hpath) hsorted
      (VersionedStore.ordered_afterAll hsorted writes) hchecks hsame

/-- The check for what templates refer to. -/
def referenceAnalysis : Analyzer := { snapshot := {}, checks := [Rule.missingTemplate] }

theorem ok_referenceAnalysis (s : VersionedStore) :
    ((referenceAnalysis.onStore s).analyzeProject {}).outcome = .ok () := by
  have hlive : ({} : Surroundings).cancelled = false := rfl
  have hcancels : ∀ k ∈ (referenceAnalysis.onStore s).checks, k.NeverCancels := by
    intro k hk
    obtain rfl := List.mem_singleton.1 hk
    exact Rule.neverCancels_of_mem_all (by simp [Rule.all])
  exact (analyze_live (a := referenceAnalysis.onStore s) _ _ false rfl hlive hcancels).1

/-- What the check finds in a storage. -/
def foundIn (s : VersionedStore) : Findings :=
  ((referenceAnalysis.onStore s).analyzeProject {}).analyzer.findings

section Found

variable (s : VersionedStore)

theorem wholeRun_foundIn : WholeRun (foundIn s) := wholeRun_of_ok (ok_referenceAnalysis s)

theorem paths_foundIn : (foundIn s).paths = (referenceAnalysis.onStore s).analysable :=
  (analyze_of_ok _ _ false (ok_referenceAnalysis s)).1

variable {s}

theorem mem_paths_foundIn {path : Text} (hpath : path ∈ (referenceAnalysis.onStore s).analysable) :
    path ∈ (foundIn s).paths := by
  rw [paths_foundIn]
  exact hpath

theorem namedAt_foundIn {path : Text} (hpath : path ∈ (referenceAnalysis.onStore s).analysable)
    {v : Int} (hversion : s.version path = v) : namedAt (foundIn s) path = some v := by
  rw [← hversion]
  exact namedAt_onStore (ok_referenceAnalysis s) hpath

end Found

def pagePath : Text := "app/views/pages/a.liquid"

/-- A page that renders a partial that is not there. -/
def pageStore : VersionedStore := ({} : VersionedStore).write pagePath "\x7b% render 'b' %\x7d"

/-- The partial, written later. -/
def partialWrites : List VersionedStore.Write := [.next "app/views/partials/b.liquid" ""]

theorem pagePath_mem_analysable :
    pagePath ∈ (referenceAnalysis.onStore pageStore).analysable ∧
      pagePath ∈ (referenceAnalysis.onStore (pageStore.afterAll partialWrites)).analysable := by
  decide +kernel

/-- Both orders leave the page under one version, with the same offenses of its own. -/
theorem recordRun_order_page :
    pageStore.docs.Ordered ∧ (∀ k ∈ referenceAnalysis.checks, k.Forgetful) ∧
      ((referenceAnalysis.onStore pageStore).analyzeProject {}).outcome = .ok () ∧
      ((referenceAnalysis.onStore (pageStore.afterAll partialWrites)).analyzeProject {}).outcome =
        .ok () ∧
      pagePath ∈ (foundIn pageStore).paths ∧
      DifferInProject (foundIn pageStore) (foundIn (pageStore.afterAll partialWrites)) pagePath ∧
      offensesAt (foundIn pageStore).single pagePath =
        offensesAt (foundIn (pageStore.afterAll partialWrites)).single pagePath := by
  have hforgets : ∀ k ∈ referenceAnalysis.checks, k.Forgetful := by
    intro k hk
    obtain rfl := List.mem_singleton.1 hk
    exact Rule.forgetful_of_mem_all (by simp [Rule.all])
  -- the storage is kept apart from the analysis, which is not to be run here
  have horder {s : VersionedStore} (hsorted : s.docs.Ordered) (writes : List VersionedStore.Write)
      (path : Text) (hpath : path ∈ (foundIn s).paths)
      (hversion : s.version path = (s.afterAll writes).version path)
      (hkept : s.docs.get? path = (s.afterAll writes).docs.get? path) :
      DifferInProject (foundIn s) (foundIn (s.afterAll writes)) path ∧
        offensesAt (foundIn s).single path = offensesAt (foundIn (s.afterAll writes)).single path := by
    obtain ⟨hagree, -, hdiffer, hsingle⟩ := recordRun_order hsorted writes (ok_referenceAnalysis s)
      (ok_referenceAnalysis (s.afterAll writes)) path
    exact ⟨hdiffer ((hagree hpath).2 hversion) fun h => absurd hpath h, hsingle hforgets hpath hkept⟩
  have hsorted : pageStore.docs.Ordered := Table.ordered_empty.insert ..
  have hpath : pagePath ∈ (foundIn pageStore).paths := mem_paths_foundIn pagePath_mem_analysable.1
  have hversion : pageStore.version pagePath = (pageStore.afterAll partialWrites).version pagePath := by
    decide +kernel
  have hkept : pageStore.docs.get? pagePath = (pageStore.afterAll partialWrites).docs.get? pagePath := by
    have hother : pagePath ≠ "app/views/partials/b.liquid" := by decide
    exact ((Table.get?_insert _ _ _ _).trans (if_neg hother)).symm
  exact ⟨hsorted, hforgets, ok_referenceAnalysis _, ok_referenceAnalysis _, hpath,
    horder hsorted partialWrites pagePath hpath hversion hkept⟩

/-- What each analysis finds of the page. -/
theorem resultAt_pagePath :
    (resultAt (foundIn pageStore) pagePath 1).offenses.map (·.message) =
        (["'b' is not found"] : List Text) ∧
      (resultAt (foundIn (pageStore.afterAll partialWrites)) pagePath 1).offenses = [] := by
  decide +kernel

/-- **The order of two runs does matter for the offenses of the project.**  The page is as it was, but
the later run finds the partial that it renders.  If the earlier run is recorded last, then the page is
reported again. -/
theorem recordRun_order_matters :
    let entry (f g : Findings) : Option (Int × List Text) :=
      (recordOf f g pagePath).map fun r => (r.version, r.offenses.map (·.message))
    ((referenceAnalysis.onStore pageStore).analyzeProject {}).outcome = .ok () ∧
      ((referenceAnalysis.onStore (pageStore.afterAll partialWrites)).analyzeProject {}).outcome =
        .ok () ∧
      entry (foundIn pageStore) (foundIn (pageStore.afterAll partialWrites)) = some (1, []) ∧
      entry (foundIn (pageStore.afterAll partialWrites)) (foundIn pageStore) =
        some (1, [("'b' is not found" : Text)]) := by
  obtain ⟨hmem, hmem'⟩ := pagePath_mem_analysable
  obtain ⟨hreported, hnothing⟩ := resultAt_pagePath
  have hv : namedAt (foundIn pageStore) pagePath = some 1 := namedAt_foundIn hmem (by decide +kernel)
  have hw : namedAt (foundIn (pageStore.afterAll partialWrites)) pagePath = some 1 :=
    namedAt_foundIn hmem' (by decide +kernel)
  have hlast (s : VersionedStore) {t : VersionedStore}
      (hv : namedAt (foundIn s) pagePath = some 1) (hw : namedAt (foundIn t) pagePath = some 1)
      (hmem : pagePath ∈ (referenceAnalysis.onStore t).analysable) :
      recordOf (foundIn s) (foundIn t) pagePath = some (resultAt (foundIn t) pagePath 1) :=
    recordOf_mem_paths (wholeRun_foundIn s) (wholeRun_foundIn t) hv hw (mem_paths_foundIn hmem)
  dsimp only
  rw [hlast _ hv hw hmem', hlast _ hw hv hmem, Option.map_some, Option.map_some, hreported, hnothing]
  exact ⟨ok_referenceAnalysis _, ok_referenceAnalysis _, rfl, rfl⟩

end Times

end Analyzer
end LiquidLint
