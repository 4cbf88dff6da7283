import LiquidLint.Proofs.CleanCorrections
import LiquidLint.Proofs.RunPlans

/-!
# Runs that fix

A run that corrects what the built-in checks find writes the corrections that changed something, and
these are at paths that it visits (`Plan.run_spec`).  So what is stored changes at the paths that were
written and at no others (`Plan.Fixes.changes_iff`).

Where no correction came to the limit of passes, a further pass leaves everything that the run visited as
it is (`Plan.Fixes.at_rest`).  So the same run, done once more, writes nothing (`fix_run_settles`).
-/

namespace LiquidLint
namespace Run

open Source Store Analysis Text

namespace Plan

/-! ## What a run corrects -/

/-- What a pass of corrections makes of the content of a path. -/
def pass (p : Plan) (path content : Text) : Text :=
  (p.analyzerOf {}).pass (checksOf p.options.config p.options.registry) path content

/-- What the corrections of a run are to the storage that it found and to the paths that it visited. -/
structure Fixes (p : Plan) (store : MemoryStore) (visits : List Text) (cs : List Correction) : Prop where
  nodup : (cs.map (·.path)).Nodup
  visited : ∀ c ∈ cs, c.path ∈ visits
  read : ∀ c ∈ cs, store.read c.path = .ok c.stored
  valid : ∀ c ∈ cs, WellFormed c.content
  changed_iff : ∀ c ∈ cs, c.changed = true ↔ c.content ≠ c.stored
  rests : ∀ c ∈ cs, c.passes < AnalyzerOptions.passLimit {} → p.pass c.path c.content = c.content
  unchanged : ∀ c ∈ cs, p.pass c.path c.stored = c.stored → c.changed = false
  others : ∀ path ∈ visits, path ∉ cs.map (·.path) →
    ∀ content, store.read path = .ok content → p.pass path content = content

/-- What a run knows once it has analysed the files that it visits. -/
structure Analysed (p : Plan) (store : MemoryStore) (visits : List Text) (a : Analyzer) : Prop where
  done : a.stage = .done
  new : a.corrections = none
  options : a.options = p.analyzer
  examined : ∀ path ∈ visits, ∃ content, store.read path = .ok content ∧
    a.Examined (checksOf p.options.config p.options.registry) path content
  placed : ∀ fix ∈ a.fixes, fix.path ∈ visits

section Correct

variable {p : Plan} {store : MemoryStore} {cancelled : Bool} {chosen : Option (List Text)}
  {around : Surroundings}

/-- **An analysis succeeds** unless it was cancelled before. -/
theorem analyze_ok (hp : p.Fixing) (s : Snapshot) (chosen : Option (List Text))
    (hlive : around.cancelled = false) :
    ∃ a inner, p.analyze s chosen around = (.ok a, inner) := by
  have hchecks : ∀ k ∈ (p.analyzerOf s).checks, k.NeverCancels := fun k hk =>
    Rule.neverCancels_of_mem_all (hp.checks k hk)
  obtain ⟨hok, -⟩ := Analyzer.analyze_live (p.visits s chosen) (p.reads s chosen) false rfl hlive hchecks
  rw [analyze_eq]
  dsimp only
  rw [hok]
  exact ⟨_, _, rfl⟩

/-- **What an analysis that succeeded leaves.**  It goes on as it started, and one that was cancelled had
nothing to do. -/
theorem analysed_of_ok (hp : p.Fixing) (hs : store.files.Ordered)
    (hnamed : p.named store.snapshot cancelled = .ok chosen) {a : Analyzer} {inner : Surroundings}
    (h : p.analyze store.snapshot chosen around = (.ok a, inner)) :
    p.Analysed store (p.visits store.snapshot chosen) a ∧ inner.cancelled = around.cancelled ∧
      (around.cancelled = false ∨ a.fixes = []) := by
  obtain ⟨hnodup, hreads, hvisits⟩ := visits_spec hp hs hnamed
  have hcancelled := @Analyzer.cancelled_analyze (p.analyzerOf store.snapshot)
    (p.visits store.snapshot chosen) (p.reads store.snapshot chosen) false around fun k hk =>
      Rule.neverCancels_of_mem_all (hp.checks k hk)
  have hlive := (@Analyzer.outcome_ok_iff (p.analyzerOf store.snapshot)
    (p.visits store.snapshot chosen) (p.reads store.snapshot chosen) around false rfl).1
  have hkept := @Analyzer.kept_of_ok (p.analyzerOf store.snapshot) (p.visits store.snapshot chosen)
    (p.reads store.snapshot chosen) around false
  have hheld : ∀ path ∈ p.visits store.snapshot chosen, ∃ t, store.files.get? path = some t :=
    fun path hpath => hs.mem_keys.1 (hvisits path hpath).1
  have hexamined := @Analyzer.examined_of_ok (p.analyzerOf store.snapshot)
    (p.visits store.snapshot chosen) (p.reads store.snapshot chosen) around false hnodup hreads hp.checks
    (fun path => replaceInvalid ((store.files.get? path).getD [])) fun path hpath => by
      obtain ⟨t, ht⟩ := hheld path hpath
      rw [ht]
      exact ⟨wellFormed_replaceInvalid _, 0, MemoryStore.read_snapshot ht⟩
  rw [analyze_eq] at h
  dsimp only at h
  generalize (p.analyzerOf store.snapshot).analyze around (p.visits store.snapshot chosen)
    (p.reads store.snapshot chosen) false = call at *
  cases hok : call.outcome with
  | error f =>
    rw [hok] at h
    exact nomatch h
  | ok =>
    rw [hok] at h
    obtain ⟨ha, rfl⟩ := Prod.mk.inj h
    obtain rfl := Except.ok.inj ha
    obtain ⟨hdone, -, hoptions, hnew, -⟩ := hkept hok
    obtain ⟨hexamined, hplaced⟩ := hexamined hok
    refine ⟨⟨hdone, hnew, hoptions, fun path hpath => ?_, hplaced⟩, hcancelled,
      (hlive hok).1.imp_right fun hnone => ?_⟩
    · obtain ⟨t, ht⟩ := hheld path hpath
      have hat := hexamined path hpath
      rw [ht] at hat
      exact ⟨_, MemoryStore.read_eq ht, hat⟩
    · refine List.eq_nil_iff_forall_not_mem.2 fun fix hfix => ?_
      have hmem := hplaced fix hfix
      rw [hnone.2] at hmem
      exact nomatch hmem

/-- **What a run corrects**, unless it was cancelled. -/
theorem Analysed.correct {visits : List Text} {a : Analyzer} (h : p.Analysed store visits a)
    (hp : p.Fixing) (hlive : around.cancelled = false ∨ a.fixes = []) :
    (a.correct around).outcome = .ok () ∧ (a.correct around).around.cancelled = around.cancelled ∧
      ∃ cs, (a.correct around).analyzer = { a with corrections := some cs } ∧ p.Fixes store visits cs ∧
        (a.fixes = [] → cs = []) := by
  have hrecheck : a.options.recheck = some (checksOf p.options.config p.options.registry) := by
    rw [h.options]
    exact hp.recheck
  obtain ⟨hok, hcancelled, cs, hcs, hpaths, hcorrected⟩ := Analyzer.correct_clean hrecheck hp.checks
    h.done h.new (fun fix hfix => (h.examined _ (h.placed fix hfix)).imp fun _ hat => hat.2) hlive
  have hvisited : ∀ c ∈ cs, c.path ∈ visits := by
    intro c hc
    have hmem : c.path ∈ Text.sortDedup (a.fixes.map (·.path)) := hpaths ▸ List.mem_map_of_mem hc
    obtain ⟨fix, hfix, hpath⟩ := List.mem_map.1 (Text.mem_sortDedup.1 hmem)
    rw [← hpath]
    exact h.placed fix hfix
  have hpass (path content : Text) :
      a.pass (checksOf p.options.config p.options.registry) path content = p.pass path content :=
    Analyzer.pass_congr h.options _ path content
  refine ⟨hok, hcancelled, cs, hcs, ⟨?_, hvisited, fun c hc => ?_, fun c hc => (hcorrected c hc).valid,
    fun c hc => (hcorrected c hc).changed_iff, fun c hc hbelow => ?_, fun c hc hrests => ?_,
    fun path hpath hother content hread => ?_⟩, fun hnone => ?_⟩
  · rw [hpaths]
    exact Text.nodup_sortDedup _
  · obtain ⟨content, hread, hat⟩ := h.examined _ (hvisited c hc)
    rw [(hcorrected c hc).stored, hat.stored]
    exact hread
  · have hlimit : a.options.passLimit = AnalyzerOptions.passLimit {} := by
      rw [h.options]
      exact hp.passLimit
    rw [← hpass]
    exact (hcorrected c hc).rests (hlimit ▸ hbelow)
  · rw [← hpass] at hrests
    exact (hcorrected c hc).unchanged hrests
  · -- there is nothing to fix at the path
    obtain ⟨content', hread', hat⟩ := h.examined path hpath
    obtain rfl := Except.ok.inj (hread.symm.trans hread')
    have hnone : a.fixesAnew (checksOf p.options.config p.options.registry) path content = [] := by
      rw [← hat.fixes]
      refine List.filter_eq_nil_iff.2 fun fix hfix hfixPath => hother ?_
      rw [hpaths, Text.mem_sortDedup]
      exact List.mem_map.2 ⟨fix, hfix, of_decide_eq_true hfixPath⟩
    rw [← hpass]
    unfold Analyzer.pass
    rw [hnone]
    rfl
  · have hempty : cs.map (·.path) = [] := by
      rw [hpaths, hnone]
      exact Text.sortDedup_eq .nil fun _ => Iff.rfl
    exact List.map_eq_nil_iff.1 hempty

/-- **A run writes the corrections that changed something**, and no others. -/
theorem Analysed.correct_eq {visits : List Text} {a : Analyzer} (h : p.Analysed store visits a)
    (hp : p.Fixing) (hlive : around.cancelled = false ∨ a.fixes = []) (r : Result) :
    ∃ cs after, p.Fixes store visits cs ∧ (a.fixes = [] → cs = []) ∧
      after.cancelled = around.cancelled ∧
      p.correct a r store around =
        (.ok { r with
          written := (cs.filter (·.changed)).map (·.path)
          corrections := cs.map Correction.afterWrite },
          store.writeEach (cs.filter (·.changed)), after) := by
  obtain ⟨hok, hcancelled, cs, hcs, hfixes, hnothing⟩ := h.correct hp hlive
  obtain ⟨hcorrections, hpaths, hfailures, hstore⟩ := MemoryStore.writeAll_memory hfixes.nodup hfixes.read
  have hgo : ¬ ((a.correct around).around.cancelled && cs.any (·.changed)) = true := by
    rw [hcancelled]
    rcases hlive with hlive | hnone
    · rw [hlive]
      exact Bool.false_ne_true
    · rw [hnothing hnone]
      exact fun hstop => nomatch (Bool.and_eq_true_iff.1 hstop).2
  obtain ⟨after, hafter, hwrite⟩ : ∃ after : Surroundings, after.cancelled = around.cancelled ∧
      ({ a with corrections := some cs } : Analyzer).writeCorrections (a.correct around).around store =
        ((cs.filter (·.changed)).map (·.path), none,
          { a with corrections := some (cs.map Correction.afterWrite) }, after,
          store.writeEach (cs.filter (·.changed))) := by
    refine ⟨{ (a.correct around).around with
      log := (a.correct around).around.log ++
        (Analyzer.writeAll store cs).log.map (·.within a.logFields) }, hcancelled, ?_⟩
    unfold Analyzer.writeCorrections
    dsimp only
    rw [if_neg (not_not_intro h.done), if_neg hgo, hcorrections, hpaths, hfailures, hstore]
    rfl
  refine ⟨cs, after, hfixes, hnothing, hafter, ?_⟩
  unfold Plan.correct
  dsimp only
  rw [hok, hcs]
  dsimp only
  rw [if_neg (by rw [hp.writes]; exact Bool.false_ne_true), hwrite]
  rfl

/-- **Looking at a project again** leaves it as it is, with what was written and how. -/
theorem again_eq (hp : p.Fixing) (chosen : Option (List Text)) {r : Result}
    (hlive : around.cancelled = false ∨ r.written = []) (store : MemoryStore) :
    ∃ r' after, p.again chosen r store around = (.ok r', store, after) ∧ r'.written = r.written ∧
      r'.corrections = r.corrections := by
  unfold Plan.again
  by_cases hnone : r.written.isEmpty = true
  · rw [if_pos hnone]
    exact ⟨r, around, rfl, rfl, rfl⟩
  · have hlive := hlive.resolve_right fun hnil => hnone (List.isEmpty_iff.2 hnil)
    obtain ⟨a, after, ha⟩ := analyze_ok hp store.snapshot chosen hlive
    have htake : Storage.take store p.selection.loads = (store.snapshot, store) := rfl
    rw [if_neg hnone, htake]
    dsimp only
    rw [ha]
    exact ⟨_, after, rfl, rfl, rfl⟩

/-- What a run does once it has analysed what it visits. -/
theorem Analysed.fix_eq {visits : List Text} {a : Analyzer} (h : p.Analysed store visits a)
    (hp : p.Fixing) (hlive : around.cancelled = false ∨ a.fixes = []) (chosen : Option (List Text))
    (r : Result) :
    ∃ cs fixed inner r' after, p.Fixes store visits cs ∧
      p.correct a r store around = (.ok fixed, store.writeEach (cs.filter (·.changed)), inner) ∧
      p.again chosen fixed (store.writeEach (cs.filter (·.changed))) inner =
        (.ok r', store.writeEach (cs.filter (·.changed)), after) ∧
      r'.written = (cs.filter (·.changed)).map (·.path) ∧
      r'.corrections = cs.map Correction.afterWrite := by
  obtain ⟨cs, inner, hfixes, hnothing, hinner, hcorrect⟩ := h.correct_eq hp hlive r
  have hgoes : inner.cancelled = false ∨ (cs.filter (·.changed)).map (·.path) = [] := by
    rw [hinner]
    refine hlive.imp_right fun hnone => ?_
    rw [hnothing hnone]
    rfl
  obtain ⟨r', after, hagain, hwritten, hcorrections⟩ := @again_eq p inner hp chosen
    { r with
      written := (cs.filter (·.changed)).map (·.path)
      corrections := cs.map Correction.afterWrite } hgoes (store.writeEach (cs.filter (·.changed)))
  exact ⟨cs, _, inner, r', after, hfixes, hcorrect, hagain, hwritten, hcorrections⟩

/-- **What a run comes to.**  It fails only if it was cancelled or an input names nothing, and then it
leaves the storage as it is.  Otherwise it writes the corrections that changed something. -/
theorem run_spec (hp : p.Fixing) (hs : store.files.Ordered) (around : Surroundings) :
    ((∃ f after, p.run store around = (.error f, store, after)) ∧
        (around.cancelled = true ∨ ∃ f, p.named store.snapshot false = .error f)) ∨
      ∃ chosen cs r after, p.named store.snapshot false = .ok chosen ∧
        p.Fixes store (p.visits store.snapshot chosen) cs ∧
        p.run store around = (.ok r, store.writeEach (cs.filter (·.changed)), after) ∧
        r.written = (cs.filter (·.changed)).map (·.path) ∧ r.corrections = cs.map Correction.afterWrite := by
  have htake : Storage.take store p.selection.loads = (store.snapshot, store) := rfl
  have hchosen : (if p.options.inputs.isEmpty then .ok none
      else targets around.cancelled p.options.root p.options.workDir store.snapshot p.selection.loads []
        p.options.inputs) = p.named store.snapshot around.cancelled := rfl
  unfold Plan.run
  dsimp only
  rw [htake]
  dsimp only
  rw [hchosen]
  cases hnamed : p.named store.snapshot around.cancelled with
  | error f =>
    refine .inl ⟨⟨f, around, rfl⟩, ?_⟩
    cases hcancelled : around.cancelled with
    | true => exact .inl rfl
    | false => exact .inr ⟨f, hcancelled ▸ hnamed⟩
  | ok chosen =>
    dsimp only
    cases hanalyze : p.analyze store.snapshot chosen around with
    | mk outcome inner =>
      cases outcome with
      | error f =>
        refine .inl ⟨⟨f, inner, rfl⟩, ?_⟩
        cases hcancelled : around.cancelled with
        | true => exact .inl rfl
        | false =>
          obtain ⟨a, inner', hok⟩ := analyze_ok hp store.snapshot chosen hcancelled
          rw [hok] at hanalyze
          exact nomatch hanalyze
      | ok a =>
        obtain ⟨hanalysed, hinner, hlive⟩ := analysed_of_ok hp hs hnamed hanalyze
        obtain ⟨cs, fixed, _, r, after, hfixes, hcorrect, hagain, hwritten, hcorrections⟩ :=
          hanalysed.fix_eq hp (hinner ▸ hlive) chosen
            { runId := p.options.runId
              offenses := a.findings.offenses
              files := filesOf a
              stats := { filesAnalyzed := a.findings.paths.length } }
        let last := r.tally p.options.failLevel
        refine .inr ⟨chosen, cs, last, { after with log := after.log ++ [completeEntry last] },
          named_of_ok hnamed, hfixes, ?_, hwritten, hcorrections⟩
        dsimp only
        rw [if_pos hp.fix, hcorrect]
        dsimp only
        rw [hagain]

/-! ## What a run leaves -/

/-- Corrections of one path are one. -/
theorem Fixes.eq_of_path {visits : List Text} {cs : List Correction} (h : p.Fixes store visits cs)
    {c d : Correction} (hc : c ∈ cs) (hd : d ∈ cs) (hpath : c.path = d.path) : c = d :=
  List.inj_on_of_nodup_map h.nodup hc hd hpath

theorem Fixes.nodup_changed {visits : List Text} {cs : List Correction} (h : p.Fixes store visits cs) :
    ((cs.filter (·.changed)).map (·.path)).Nodup :=
  h.nodup.sublist (List.filter_sublist.map _)

/-- **What is stored changes at the paths that are written**, and at no others. -/
theorem Fixes.changes_iff {visits : List Text} {cs : List Correction} (h : p.Fixes store visits cs)
    (path : Text) :
    (store.writeEach (cs.filter (·.changed))).files.get? path ≠ store.files.get? path ↔
      path ∈ (cs.filter (·.changed)).map (·.path) := by
  refine ⟨fun hne => ?_, fun hmem hsame => ?_⟩
  · by_contra hnot
    exact hne (MemoryStore.get?_writeEach_of_not_mem hnot)
  · obtain ⟨c, hc, rfl⟩ := List.mem_map.1 hmem
    obtain ⟨hc', hchanged⟩ := List.mem_filter.1 hc
    rw [MemoryStore.get?_writeEach_of_mem h.nodup_changed hc] at hsame
    -- what was stored already would have been read
    have hread := MemoryStore.read_eq hsame.symm
    rw [(h.valid c hc').replaceInvalid_eq, h.read c hc'] at hread
    exact (h.changed_iff c hc').1 hchanged (Except.ok.inj hread).symm

/-- Each path that is written has a correction, which says so, and holds its content. -/
theorem Fixes.holds {visits : List Text} {cs : List Correction} (h : p.Fixes store visits cs)
    {path : Text} (hpath : path ∈ (cs.filter (·.changed)).map (·.path)) :
    path ∈ visits ∧ (∃ c ∈ cs.map Correction.afterWrite, c.path = path) ∧
      ∀ c ∈ cs.map Correction.afterWrite, c.path = path → c.written = true ∧
        (store.writeEach (cs.filter (·.changed))).files.get? path = some c.content := by
  obtain ⟨c, hc, rfl⟩ := List.mem_map.1 hpath
  obtain ⟨hc', hchanged⟩ := List.mem_filter.1 hc
  refine ⟨h.visited c hc', ⟨_, List.mem_map_of_mem hc', rfl⟩, fun after hafter hpath => ?_⟩
  obtain ⟨d, hd, rfl⟩ := List.mem_map.1 hafter
  obtain rfl := h.eq_of_path hd hc' hpath
  exact ⟨Bool.or_eq_true_iff.2 (.inl hchanged),
    MemoryStore.get?_writeEach_of_mem h.nodup_changed hc⟩

/-- **What a run leaves at the paths that it visited** is left by a further pass as it is, where no
correction came to the limit of passes. -/
theorem Fixes.at_rest {visits : List Text} {cs : List Correction} (h : p.Fixes store visits cs)
    (hbelow : ∀ c ∈ cs, c.passes < AnalyzerOptions.passLimit {}) {path content : Text}
    (hpath : path ∈ visits)
    (hread : (store.writeEach (cs.filter (·.changed))).read path = .ok content) :
    p.pass path content = content := by
  have hkept (hnot : path ∉ (cs.filter (·.changed)).map (·.path)) : store.read path = .ok content := by
    unfold MemoryStore.read at hread ⊢
    rwa [MemoryStore.get?_writeEach_of_not_mem hnot] at hread
  by_cases hmem : path ∈ cs.map (·.path)
  · obtain ⟨c, hc, rfl⟩ := List.mem_map.1 hmem
    have hcontent : content = c.content := by
      by_cases hchanged : c.changed = true
      · have hheld := MemoryStore.get?_writeEach_of_mem (s := store) h.nodup_changed
          (List.mem_filter.2 ⟨hc, hchanged⟩)
        rw [MemoryStore.read_eq hheld, (h.valid c hc).replaceInvalid_eq] at hread
        exact (Except.ok.inj hread).symm
      · have hnot : c.path ∉ (cs.filter (·.changed)).map (·.path) := by
          intro hwritten
          obtain ⟨d, hd, hpath⟩ := List.mem_map.1 hwritten
          obtain ⟨hd, hdchanged⟩ := List.mem_filter.1 hd
          exact hchanged (h.eq_of_path hd hc hpath ▸ hdchanged)
        have hstored := Except.ok.inj ((hkept hnot).symm.trans (h.read c hc))
        exact hstored.trans (Decidable.not_not.1 (mt (h.changed_iff c hc).2 hchanged)).symm
    rw [hcontent]
    exact h.rests c hc (hbelow c hc)
  · have hnot : path ∉ (cs.filter (·.changed)).map (·.path) := fun hwritten =>
      hmem ((List.filter_sublist.map _).subset hwritten)
    exact h.others path hpath hmem content (hkept hnot)

/-- Corrections of contents that a pass leaves as they are change nothing. -/
theorem Fixes.eq_nil_of_rests {visits : List Text} {cs : List Correction} (h : p.Fixes store visits cs)
    (hrests : ∀ path ∈ visits, ∀ content, store.read path = .ok content → p.pass path content = content) :
    cs.filter (·.changed) = [] := by
  refine List.filter_eq_nil_iff.2 fun c hc hchanged => ?_
  rw [h.unchanged c hc (hrests _ (h.visited c hc) _ (h.read c hc))] at hchanged
  exact nomatch hchanged

/-- **A run that is done once more** writes nothing, where no correction came to the limit of passes. -/
theorem Fixes.run_again (hp : p.Fixing) (hs : store.files.Ordered)
    (hnamed : p.named store.snapshot false = .ok chosen) {cs : List Correction}
    (h : p.Fixes store (p.visits store.snapshot chosen) cs)
    (hbelow : ∀ c ∈ cs, c.passes < AnalyzerOptions.passLimit {}) (around : Surroundings) :
    let left := store.writeEach (cs.filter (·.changed))
    (p.run left around).2.1 = left ∧ (∀ r, (p.run left around).1 = .ok r → r.written = []) ∧
      (around.cancelled = false → ∃ r, (p.run left around).1 = .ok r) := by
  intro left
  have hkeys : left.files.keys = store.files.keys := by
    refine MemoryStore.keys_writeEach hs h.nodup_changed fun c hc => ?_
    obtain ⟨t, ht⟩ := hs.mem_keys.1 ((visits_spec hp hs hnamed).2.2 _
      (h.visited c (List.mem_filter.1 hc).1)).1
    rw [ht]
    rfl
  have hleft : left.files.Ordered := MemoryStore.ordered_writeEach hs _
  have hsame : p.named left.snapshot false = .ok chosen := by
    rw [← hnamed]
    refine named_congr ?_
    rw [MemoryStore.paths_snapshot, MemoryStore.paths_snapshot, hkeys]
  rcases run_spec hp hleft around with
    ⟨⟨f, after, hrun⟩, hwhy⟩ | ⟨chosen', cs', r, after, hnamed', h', hrun, hwritten, -⟩
  · rw [hrun]
    refine ⟨rfl, fun _ hr => (nomatch hr), fun hlive => ?_⟩
    rcases hwhy with hcancelled | ⟨f', hrefused⟩
    · rw [hlive] at hcancelled
      exact nomatch hcancelled
    · rw [hsame] at hrefused
      exact nomatch hrefused
  · obtain rfl := Except.ok.inj (hsame.symm.trans hnamed')
    have hnothing : cs'.filter (·.changed) = [] := by
      refine h'.eq_nil_of_rests fun path hpath content hread => h.at_rest hbelow ?_ hread
      rwa [visits_congr hkeys] at hpath
    rw [hrun, hnothing]
    refine ⟨rfl, fun r' hr' => ?_, fun _ => ⟨r, rfl⟩⟩
    obtain rfl := Except.ok.inj hr'
    rw [hwritten, hnothing]
    rfl

end Correct

end Plan

/-! ## Runs -/

/-- The run cannot start: its configuration cannot be used, or an input names no file of the project. -/
def Refused (o : Options) (store : MemoryStore) : Prop :=
  ∀ p, plan o = .ok p → ∃ f, p.named store.snapshot false = .error f

theorem run_of_plan {o : Options} {p : Plan} (h : plan o = .ok p) (store : MemoryStore)
    (around : Surroundings) :
    (run o store around).1 = (p.run store { around with log := [] }).1 ∧
      (run o store around).2.1 = (p.run store { around with log := [] }).2.1 := by
  unfold run
  rw [h]
  exact ⟨rfl, rfl⟩

/-- **Runs that fix settle, and touch only what they report.**  Let a run of built-in checks correct what
it finds in a storage in memory and write it back.  It comes to a result unless it was cancelled before it
started or cannot start, and then the storage stays as it is.  If there is a result, then what is stored
changed at exactly the paths that were written.  Each of them is parsed, is not left alone by the
configuration and holds the content of its correction.  And if no correction came to the limit of passes,
the same run, done once more, writes nothing and leaves everything as it is. -/
theorem fix_run_settles {o : Options} (hregistry : o.registry = Rule.registry)
    (hfix : o.config.fix = true) (hwrites : o.config.dryRun = false) {store : MemoryStore}
    (hstore : store.files.Ordered) (around : Surroundings) :
    let first := run o store around
    ((∃ r, first.1 = .ok r) ∨
        first.2.1 = store ∧ (∃ f, first.1 = .error f) ∧ (around.cancelled = true ∨ Refused o store)) ∧
      ∀ r, first.1 = .ok r →
        (∀ path, first.2.1.files.get? path ≠ store.files.get? path ↔ path ∈ r.written) ∧
        (∀ path ∈ r.written,
          (Project.classify path).category.isAnalyzable = true ∧
            (∃ selection, Selection.ofConfig o.config = .ok selection ∧
              selection.ignores path = false) ∧
            (∃ c ∈ r.corrections, c.path = path) ∧
            ∀ c ∈ r.corrections, c.path = path →
              c.written = true ∧ first.2.1.files.get? path = some c.content) ∧
        ((∀ c ∈ r.corrections, c.passes < AnalyzerOptions.passLimit {}) → ∀ around',
          let second := run o first.2.1 around'
          second.2.1 = first.2.1 ∧ (∀ r', second.1 = .ok r' → r'.written = []) ∧
            (around'.cancelled = false → ∃ r', second.1 = .ok r')) := by
  cases hplan : plan o with
  | error f =>
    have hrun : run o store around = (.error f, store, around) := by
      unfold run
      rw [hplan]
    rw [hrun]
    refine ⟨.inr ⟨rfl, ⟨f, rfl⟩, .inr fun p hp => ?_⟩, fun _ hr => (nomatch hr)⟩
    rw [hplan] at hp
    exact nomatch hp
  | ok p =>
    obtain ⟨hp, hselection⟩ := fixing_of_plan hregistry hfix hwrites hplan
    obtain ⟨hfirst, hleft⟩ := run_of_plan hplan store around
    dsimp only
    rw [hfirst, hleft]
    rcases p.run_spec hp hstore { around with log := [] } with
      ⟨⟨f, after, hrun⟩, hwhy⟩ | ⟨chosen, cs, r, after, hnamed, hfixes, hrun, hwritten, hcorrections⟩
    · rw [hrun]
      refine ⟨.inr ⟨rfl, ⟨f, rfl⟩, hwhy.imp_right fun hrefused q hq => ?_⟩, fun _ hr => (nomatch hr)⟩
      obtain rfl := Except.ok.inj (hplan.symm.trans hq)
      exact hrefused
    · rw [hrun]
      refine ⟨.inl ⟨r, rfl⟩, fun r' hr' => ?_⟩
      obtain rfl := Except.ok.inj hr'
      obtain ⟨-, -, hvisits⟩ := p.visits_spec hp hstore hnamed
      rw [hwritten, hcorrections]
      refine ⟨hfixes.changes_iff, fun path hmem => ?_, fun hbelow around' => ?_⟩
      · obtain ⟨hvisited, hcorrection, hholds⟩ := hfixes.holds hmem
        obtain ⟨hkept, hparsed⟩ := Bool.and_eq_true_iff.1 (hvisits path hvisited).2
        exact ⟨hparsed, ⟨p.selection, hselection, by simpa using hkept⟩, hcorrection, hholds⟩
      · obtain ⟨hsecond, hafter⟩ := run_of_plan hplan (store.writeEach (cs.filter (·.changed))) around'
        rw [hsecond, hafter]
        exact hfixes.run_again hp hstore hnamed
          (fun c hc => hbelow c.afterWrite (List.mem_map_of_mem hc)) { around' with log := [] }

/-- The options of a run that fixes the spacing inside of delimiters. -/
def spacingRun : Options :=
  { root := "/"
    config := { baseline := "nothing", enable := some ["SpaceInsideBraces"], fix := true }
    registry := Rule.registry }

/-- A page that lacks a space. -/
def tightPage : MemoryStore := ⟨⟨[("app/views/pages/a.liquid", "\x7b\x7b x\x7d\x7d")]⟩⟩

/-- The page that lacks a space gets one, and is left alone from then on. -/
theorem fix_run_settles_page :
    spacingRun.registry = Rule.registry ∧ spacingRun.config.fix = true ∧
      spacingRun.config.dryRun = false ∧ tightPage.files.Ordered ∧
      let first := run spacingRun tightPage {}
      first.2.1.files.get? "app/views/pages/a.liquid" = some "\x7b\x7b x \x7d\x7d" ∧
        ∃ r, first.1 = .ok r ∧ r.written = ["app/views/pages/a.liquid"] ∧
          ∀ around, (run spacingRun first.2.1 around).2.1 = first.2.1 ∧
            ∀ r', (run spacingRun first.2.1 around).1 = .ok r' → r'.written = [] := by
  have hordered : tightPage.files.Ordered := List.pairwise_singleton ..
  have hstored : (run spacingRun tightPage {}).2.1.files.get? "app/views/pages/a.liquid" =
      some "\x7b\x7b x \x7d\x7d" := by decide +kernel
  have hresult : ((run spacingRun tightPage {}).1.toOption.map fun r =>
      (r.written, r.corrections.map (·.passes))) =
        some ([("app/views/pages/a.liquid" : Text)], [1]) := by decide +kernel
  refine ⟨rfl, rfl, rfl, hordered, hstored, ?_⟩
  obtain ⟨r, hr, hshape⟩ : ∃ r, (run spacingRun tightPage {}).1 = .ok r ∧
      (r.written, r.corrections.map (·.passes)) = ([("app/views/pages/a.liquid" : Text)], [1]) := by
    cases hrun : (run spacingRun tightPage {}).1 with
    | error f =>
      rw [hrun] at hresult
      exact nomatch hresult
    | ok r =>
      rw [hrun] at hresult
      exact ⟨r, rfl, Option.some.inj hresult⟩
  obtain ⟨hwritten, hpasses⟩ := Prod.mk.inj hshape
  have hbelow : ∀ c ∈ r.corrections, c.passes < AnalyzerOptions.passLimit {} := by
    intro c hc
    have hmem : c.passes ∈ r.corrections.map (·.passes) := List.mem_map_of_mem hc
    rw [hpasses, List.mem_singleton] at hmem
    rw [hmem]
    decide
  obtain ⟨-, hall⟩ := @fix_run_settles spacingRun rfl rfl rfl tightPage hordered {}
  obtain ⟨-, -, hagain⟩ := hall r hr
  exact ⟨r, hr, hwritten, fun around => ⟨(hagain hbelow around).1, (hagain hbelow around).2.1⟩⟩

end Run
end LiquidLint
