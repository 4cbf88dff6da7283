import LiquidLint.Proofs.AnalysisRuns
import LiquidLint.Proofs.MemoryWrites
import LiquidLint.Run.Basic

/-!
# Plans of runs

A run is planned by its configuration.  A plan that has built-in checks correct what they find, and write
it back, is a fixing one (`Plan.Fixing`).

The inputs of a run name files of the project, and only the paths of the project count when they are
looked up (`Plan.named_congr`).  What a run visits are files that its configuration does not leave alone
and that are parsed (`Plan.visits_spec`).
-/

namespace LiquidLint
namespace Run

open Source Store Analysis Text

/-! ## Plans -/

theorem get?_foldl_register {ks : List Check} {r : Registry} {code : Text} {k : Check}
    (h : (ks.foldl Registry.register r).checks.get? code = some k) :
    k ∈ ks ∨ r.checks.get? code = some k := by
  induction ks generalizing r with
  | nil => exact .inr h
  | cons first rest ih =>
    rcases ih h with hrest | hfirst
    · exact .inl (List.mem_cons_of_mem _ hrest)
    · have hinsert : (r.checks.insert first.info.code first).get? code = some k := hfirst
      rw [Table.get?_insert] at hinsert
      split at hinsert
      · obtain rfl := Option.some.inj hinsert
        exact .inl (List.mem_cons_self ..)
      · exact .inr hinsert

/-- The checks that run are built-in ones, if these are the ones that are known. -/
theorem mem_all_of_mem_checksOf {c : Config} {k : Check} (hk : k ∈ checksOf c Rule.registry) :
    k ∈ Rule.all := by
  have hordered (ks : List Check) (r : Registry) (hr : r.checks.Ordered) :
      (ks.foldl Registry.register r).checks.Ordered := by
    induction ks generalizing r with
    | nil => exact hr
    | cons first rest ih => exact ih _ (hr.insert _ _)
  obtain ⟨e, he, rfl⟩ := List.mem_map.1 (List.mem_filter.1 hk).1
  have hfound := (hordered Rule.all {} Table.ordered_empty).mem_entries.1 he
  exact (get?_foldl_register hfound).resolve_right nofun

/-- A plan that has built-in checks correct what they find, and writes it back. -/
structure Plan.Fixing (p : Plan) : Prop where
  checks : ∀ k ∈ checksOf p.options.config p.options.registry, k ∈ Rule.all
  recheck : p.analyzer.recheck = some (checksOf p.options.config p.options.registry)
  exclude : p.analyzer.exclude = p.selection.ignores
  passLimit : p.analyzer.passLimit = AnalyzerOptions.passLimit {}
  fix : p.options.config.fix = true
  writes : p.options.config.dryRun = false

theorem fixing_of_plan {o : Options} {p : Plan} (hregistry : o.registry = Rule.registry)
    (hfix : o.config.fix = true) (hwrites : o.config.dryRun = false) (h : plan o = .ok p) :
    p.Fixing ∧ Selection.ofConfig o.config = .ok p.selection := by
  unfold plan at h
  split at h
  · exact nomatch h
  · rename_i selection hselection
    split at h
    · exact nomatch h
    · rename_i analyzer hanalyzer
      obtain rfl := Except.ok.inj h
      unfold analyzerOptions at hanalyzer
      split at hanalyzer
      · exact nomatch hanalyzer
      · obtain rfl := Except.ok.inj hanalyzer
        refine ⟨⟨fun k hk => ?_, rfl, rfl, rfl, hfix, hwrites⟩, hselection⟩
        dsimp only at hk
        rw [hregistry] at hk
        exact mem_all_of_mem_checksOf hk

/-! ## What a run looks at -/

section Targets

variable {cancelled : Bool} {root workDir : Text} {s s' : Snapshot} {loads : Text → Bool}

theorem targets_congr (h : s.paths = s'.paths) (inputs found : List Text) :
    targets cancelled root workDir s loads found inputs = targets cancelled root workDir s' loads found inputs := by
  have hbelow : pathsBelow s = pathsBelow s' := by
    funext path
    unfold pathsBelow
    rw [h]
  induction inputs generalizing found with
  | nil => rfl
  | cons input rest ih =>
    rw [targets, targets, hbelow]
    simp only [ih]

/-- What inputs add to the files found so far is below them in the project, and passes the selection. -/
theorem loads_of_targets {paths : List Text} (inputs found : List Text)
    (hfound : ∀ path ∈ found, path ∈ s.paths ∧ loads path = true)
    (h : targets cancelled root workDir s loads found inputs = .ok (some paths)) :
    ∀ path ∈ paths, path ∈ s.paths ∧ loads path = true := by
  induction inputs generalizing found with
  | nil =>
    obtain rfl := Option.some.inj (Except.ok.inj h)
    exact hfound
  | cons input rest ih =>
    rw [targets] at h
    split at h
    · exact nomatch h
    · split at h
      · exact nomatch h
      · split at h
        · exact nomatch h
        · split at h
          · exact nomatch h
          · refine ih _ (fun path hpath => ?_) h
            rcases List.mem_append.1 hpath with hpath | hpath
            · exact hfound path hpath
            · obtain ⟨hmem, hloads⟩ := List.mem_filter.1 (List.mem_filter.1 hpath).1
              exact ⟨(List.mem_filter.1 hmem).1, hloads⟩

end Targets

namespace Plan

section Named

variable {p : Plan} {s : Snapshot} {cancelled : Bool}

/-- The files that the inputs of a run name; `none` is the whole project. -/
def named (p : Plan) (s : Snapshot) (cancelled : Bool) : Except Failure (Option (List Text)) :=
  if p.options.inputs.isEmpty then .ok none
  else targets cancelled p.options.root p.options.workDir s p.selection.loads [] p.options.inputs

/-- A run that was cancelled finds what another one finds, if it finds anything. -/
theorem named_of_ok {chosen : Option (List Text)} (h : p.named s cancelled = .ok chosen) : p.named s false = .ok chosen := by
  cases cancelled with
  | false => exact h
  | true =>
    unfold Plan.named at h ⊢
    cases hinputs : p.options.inputs with
    | nil =>
      rw [hinputs] at h
      exact h
    | cons input rest =>
      rw [hinputs] at h
      exact nomatch h

/-- Only the paths of a project count when inputs are looked up. -/
theorem named_congr {s' : Snapshot} (h : s.paths = s'.paths) : p.named s cancelled = p.named s' cancelled := by
  unfold Plan.named
  rw [targets_congr h]

/-- **The files that inputs name** belong to the project, and a run looks at them. -/
theorem loads_of_named {paths : List Text} (h : p.named s cancelled = .ok (some paths)) :
    ∀ path ∈ paths, path ∈ s.paths ∧ p.selection.loads path = true := by
  unfold Plan.named at h
  split at h
  · exact nomatch h
  · exact loads_of_targets _ [] nofun h

end Named

/-- The paths that a run visits. -/
def visits (p : Plan) (s : Snapshot) : (chosen : Option (List Text)) → List Text
  | none => (p.analyzerOf s).analysable
  | some paths => Text.sortDedup paths

/-- The paths that a run reads. -/
def reads (p : Plan) (s : Snapshot) : (chosen : Option (List Text)) → List Text
  | none => (p.analyzerOf s).analysable
  | some paths => Text.sortDedup (Text.sortDedup paths ++ (p.analyzerOf s).analysable)

theorem analyze_eq (p : Plan) (s : Snapshot) (chosen : Option (List Text)) (around : Surroundings) :
    p.analyze s chosen around =
      let call := (p.analyzerOf s).analyze around (p.visits s chosen) (p.reads s chosen) false
      match call.outcome with
      | .ok () => (.ok call.analyzer, call.around)
      | .error f => (.error (f.within "analyze"), call.around) := by
  cases chosen <;> rfl

section Visits

variable {p : Plan} {store : MemoryStore} {cancelled : Bool} {chosen : Option (List Text)}

theorem mem_analysable (hp : p.Fixing) {path : Text}
    (h : path ∈ (p.analyzerOf store.snapshot).analysable) :
    path ∈ store.files.keys ∧ p.selection.loads path = true := by
  rw [MemoryStore.analysable_snapshot rfl] at h
  obtain ⟨hkey, hkept⟩ := List.mem_filter.1 h
  refine ⟨hkey, ?_⟩
  have hkept : (!p.analyzer.exclude path && (Project.classify path).category.isAnalyzable) = true := hkept
  rwa [hp.exclude] at hkept

/-- **A run visits paths of the project**, each once, and it looks at none that the configuration leaves
alone or that is not parsed. -/
theorem visits_spec (hp : p.Fixing) (hs : store.files.Ordered)
    (h : p.named store.snapshot cancelled = .ok chosen) :
    let visits := p.visits store.snapshot chosen
    visits.Nodup ∧ (∀ path ∈ visits, path ∈ p.reads store.snapshot chosen) ∧
      ∀ path ∈ visits, path ∈ store.files.keys ∧ p.selection.loads path = true := by
  cases chosen with
  | none =>
    have hsorted : store.snapshot.entries.Ordered := hs.map _
    have hpaths : ((p.analyzerOf store.snapshot).analysable).Pairwise Text.Precedes :=
      Analyzer.pairwise_analysable hsorted
    exact ⟨hpaths.imp fun hab => ((Text.precedes_iff _ _).1 hab).2, fun path hpath => hpath,
      fun path hpath => mem_analysable hp hpath⟩
  | some paths =>
    refine ⟨Text.nodup_sortDedup paths, fun path hpath => ?_, fun path hpath => ?_⟩
    · exact Text.mem_sortDedup.2 (List.mem_append_left _ hpath)
    · have hloads := loads_of_named h path (Text.mem_sortDedup.1 hpath)
      rwa [MemoryStore.paths_snapshot] at hloads

/-- Storages with the same paths are visited in the same way. -/
theorem visits_congr {store' : MemoryStore} (h : store.files.keys = store'.files.keys)
    (chosen : Option (List Text)) :
    p.visits store.snapshot chosen = p.visits store'.snapshot chosen := by
  cases chosen with
  | none =>
    show (p.analyzerOf store.snapshot).analysable = (p.analyzerOf store'.snapshot).analysable
    rw [MemoryStore.analysable_snapshot rfl, MemoryStore.analysable_snapshot rfl, h]
    rfl
  | some paths => rfl

end Visits

end Plan
end Run
end LiquidLint
