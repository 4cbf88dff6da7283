import LiquidLint.Analysis.Correction
import LiquidLint.Proofs.EditScript

/-!
# Visits with one check

A check that only reports, visiting a file on its own, is called for the firings that it listens to
and for the end of the file (`Check.fileVisits`), and what it raises are its reports on these, one
after the other (`visitFile_single`).

Reports that are all raised leave their fixes behind (`fixes_raiseAll`), and fixes that replace one
span each come to one edit each (`foldl_replay`).
-/

namespace LiquidLint

open Source Analysis

/-- The check only reports: it neither breaks down nor leaves anything else behind. -/
def Check.OnlyReports (k : Check) (reports : List Visit → Visit → List Report) : Prop :=
  ∀ past v, k.onVisit past v = .reports (reports past v)

/-- Reports on visits, one after the other. -/
def reportsOn (reports : List Visit → Visit → List Report) (past : List Visit) :
    List Visit → List Report
  | [] => []
  | v :: rest => reports past v ++ reportsOn reports (v :: past) rest

theorem reportsOn_append (reports : List Visit → Visit → List Report) (past vs ws : List Visit) :
    reportsOn reports past (vs ++ ws) =
      reportsOn reports past vs ++ reportsOn reports (vs.reverse ++ past) ws := by
  induction vs generalizing past with
  | nil => rfl
  | cons v rest ih =>
    rw [List.cons_append, reportsOn, reportsOn, ih, List.append_assoc, List.reverse_cons,
      List.append_assoc]
    rfl

/-- A check that does not look at what it was called for before reports visit by visit. -/
theorem reportsOn_eq_flatMap (reports : Visit → List Report) (past vs : List Visit) :
    reportsOn (fun _ v => reports v) past vs = vs.flatMap reports := by
  induction vs generalizing past with
  | nil => rfl
  | cons v rest ih => rw [reportsOn, ih, List.flatMap_cons]

/-! ## Firings -/

namespace Source.Node

theorem kind_mem_eventKinds {n : Node} {e : Event} {phase : Phase} (h : e ∈ n.events phase) :
    e.kind ∈ n.eventKinds := by
  cases phase with
  | on =>
    obtain ⟨k, hk, rfl⟩ := List.mem_map.1 h
    exact hk
  | after =>
    obtain ⟨k, hk, rfl⟩ := List.mem_map.1 h
    exact List.mem_reverse.1 hk

mutual

/-- What fires are the events of the nodes of a tree. -/
theorem mem_walk_of_firings : (n : Node) → {p : Event × Node} → p ∈ n.firings →
    p.2 ∈ n.walk ∧ ∃ phase, p.1 ∈ p.2.events phase
  | mk s sp cs, p, hp => by
    rw [firings] at hp
    rw [walk]
    rcases List.mem_append.1 hp with hp | hp
    · rcases List.mem_append.1 hp with hp | hp
      · obtain ⟨e, he, rfl⟩ := List.mem_map.1 hp
        exact ⟨List.mem_cons_self .., .on, he⟩
      · obtain ⟨hwalk, hevent⟩ := mem_walkAll_of_firings cs hp
        exact ⟨List.mem_cons_of_mem _ hwalk, hevent⟩
    · obtain ⟨e, he, rfl⟩ := List.mem_map.1 hp
      exact ⟨List.mem_cons_self .., .after, he⟩

theorem mem_walkAll_of_firings : (ns : List Node) → {p : Event × Node} → p ∈ firingsAll ns →
    p.2 ∈ walkAll ns ∧ ∃ phase, p.1 ∈ p.2.events phase
  | [], p, hp => by cases hp
  | n :: rest, p, hp => by
    rw [firingsAll] at hp
    rw [walkAll]
    rcases List.mem_append.1 hp with hp | hp
    · obtain ⟨hwalk, hevent⟩ := mem_walk_of_firings n hp
      exact ⟨List.mem_append_left _ hwalk, hevent⟩
    · obtain ⟨hwalk, hevent⟩ := mem_walkAll_of_firings rest hp
      exact ⟨List.mem_append_right _ hwalk, hevent⟩

end

mutual

/-- Every node of a tree fires its events. -/
theorem mem_firings_of_walk : (n : Node) → {m : Node} → m ∈ n.walk → {e : Event} →
    e ∈ m.events .on → (e, m) ∈ n.firings
  | mk s sp cs, m, hm, e, he => by
    rw [walk] at hm
    rw [firings]
    refine List.mem_append_left _ ?_
    rcases List.mem_cons.1 hm with rfl | hm
    · exact List.mem_append_left _ (List.mem_map.2 ⟨e, he, rfl⟩)
    · exact List.mem_append_right _ (mem_firingsAll_of_walk cs hm he)

theorem mem_firingsAll_of_walk : (ns : List Node) → {m : Node} → m ∈ walkAll ns → {e : Event} →
    e ∈ m.events .on → (e, m) ∈ firingsAll ns
  | [], m, hm, e, he => by cases hm
  | n :: rest, m, hm, e, he => by
    rw [walkAll] at hm
    rw [firingsAll]
    rcases List.mem_append.1 hm with hm | hm
    · exact List.mem_append_left _ (mem_firings_of_walk n hm he)
    · exact List.mem_append_right _ (mem_firingsAll_of_walk rest hm he)

end

mutual

/-- The nodes of a template's tree, as nodes of a file. -/
theorem shape_walk_ofLiquid (size : Nat) : (n : Liquid.Node) →
    (ofLiquid size n).walk.map shape = (n.walk fun _ => true).map Shape.liquid
  | .mk h cs => by
    rw [ofLiquid, walk, Liquid.Node.walk, if_pos rfl, List.map_cons, List.map_cons,
      shape_walkAll_ofLiquid size cs]
    rfl

theorem shape_walkAll_ofLiquid (size : Nat) : (ns : List Liquid.Node) →
    (walkAll (ofLiquidAll size ns)).map shape =
      (Liquid.Node.walkAll (fun _ => true) ns).map Shape.liquid
  | [] => rfl
  | n :: rest => by
    rw [ofLiquidAll, walkAll, Liquid.Node.walkAll, List.map_append, List.map_append,
      shape_walk_ofLiquid size n, shape_walkAll_ofLiquid size rest]

end

end Source.Node

/-! ## Visits -/

/-- What firings of a tree of category `c` call the check for. -/
def Check.visitsFor (k : Check) (f : SourceFile) (c : Project.Category)
    (firings : List (Event × Node)) : List Visit :=
  (firings.filter fun p => k.listensTo c p.1).map fun p => .node f p.1 p.2

/-- What visiting a file calls the check for. -/
def Check.fileVisits (k : Check) (f : SourceFile) : List Visit :=
  f.trees.flatMap (fun tree => k.visitsFor f (Check.treeCategory f tree) tree.firings) ++
    if k.info.appliesTo f.info.category then [.endFile f] else []

namespace Check

variable {k : Check} {f : SourceFile} {c : Project.Category}

theorem visitsFor_append (ps qs : List (Event × Node)) :
    k.visitsFor f c (ps ++ qs) = k.visitsFor f c ps ++ k.visitsFor f c qs := by
  unfold visitsFor
  rw [List.filter_append, List.map_append]

mutual

/-- A check that waits for events before the children alone visits the nodes in document order. -/
theorem visitsFor_firings (hon : ∀ e ∈ k.subscriptions, e.phase = .on) :
    (n : Node) → k.visitsFor f c n.firings =
      n.walk.flatMap fun m => k.visitsFor f c ((m.events .on).map (·, m))
  | .mk s sp cs => by
    have hafter : k.visitsFor f c (((Node.mk s sp cs).events .after).map (·, Node.mk s sp cs)) = [] := by
      unfold visitsFor
      rw [List.filter_eq_nil_iff.2, List.map_nil]
      intro p hp hlistens
      obtain ⟨e, he, rfl⟩ := List.mem_map.1 hp
      obtain ⟨kind, -, rfl⟩ := List.mem_map.1 he
      have hsubscribed := List.contains_iff_mem.1 (Bool.and_eq_true_iff.1 hlistens).2
      exact nomatch hon _ hsubscribed
    rw [Node.firings, Node.walk, visitsFor_append, visitsFor_append, hafter, List.append_nil,
      List.flatMap_cons, visitsFor_firingsAll hon cs]

theorem visitsFor_firingsAll (hon : ∀ e ∈ k.subscriptions, e.phase = .on) :
    (ns : List Node) → k.visitsFor f c (Node.firingsAll ns) =
      (Node.walkAll ns).flatMap fun m => k.visitsFor f c ((m.events .on).map (·, m))
  | [] => rfl
  | n :: rest => by
    rw [Node.firingsAll, Node.walkAll, visitsFor_append, List.flatMap_append,
      visitsFor_firings hon n, visitsFor_firingsAll hon rest]

end

end Check

/-- The tally after reports were raised. -/
def raiseAll (raise : Report → Option (Offense × Option PendingFix)) (t : Tally)
    (rs : List Report) : Tally :=
  rs.foldl (fun t r => t.effect raise (.report r)) t

theorem raiseAll_append (raise : Report → Option (Offense × Option PendingFix)) (t : Tally)
    (rs rs' : List Report) : raiseAll raise t (rs ++ rs') = raiseAll raise (raiseAll raise t rs) rs' :=
  List.foldl_append ..

section Visits

variable {k : Check} {reports : List Visit → Visit → List Report} (hk : k.OnlyReports reports)
variable (o : AnalyzerOptions) (parsed : List ParsedFile) (f : SourceFile)

include hk

/-- One call adds the visit to those of the check and raises its reports. -/
theorem callSlots_single (node : Option Node) (v : Visit) (wanted : Check → Bool)
    (past : List Visit) (t : Tally) :
    callSlots o parsed f node v wanted [{ check := k, past }] t =
      if wanted k then
        ([{ check := k, past := v :: past }],
          raiseAll (raise? o parsed k.info f) t (reports past v))
      else ([{ check := k, past }], t) := by
  unfold callSlots callSlots
  dsimp only
  by_cases hwanted : wanted k = true
  · have hreact : t.react (raise? o parsed k.info f) k.info.code (some f) node
        (.reports (reports past v)) = raiseAll (raise? o parsed k.info f) t (reports past v) := by
      unfold Tally.react Reaction.reports raiseAll
      dsimp only
      rw [List.foldl_map]
    rw [if_pos hwanted, if_pos hwanted]
    unfold callSlot
    dsimp only
    rw [if_neg Bool.false_ne_true, hk past v, hreact]
    rfl
  · rw [if_neg hwanted, if_neg hwanted]

theorem callFirings_single (c : Project.Category) (firings : List (Event × Node))
    (past : List Visit) (t : Tally) :
    callFirings o parsed f c firings ([{ check := k, past }], t) =
      ([{ check := k, past := (k.visitsFor f c firings).reverse ++ past }],
        raiseAll (raise? o parsed k.info f) t (reportsOn reports past (k.visitsFor f c firings))) := by
  induction firings generalizing past t with
  | nil => rfl
  | cons first rest ih =>
    obtain ⟨e, n⟩ := first
    rw [callFirings, callSlots_single hk]
    by_cases hlistens : k.listensTo c e = true
    · have hvisits : k.visitsFor f c ((e, n) :: rest) = .node f e n :: k.visitsFor f c rest := by
        unfold Check.visitsFor
        rw [List.filter_cons, if_pos hlistens, List.map_cons]
      rw [if_pos hlistens, ih, hvisits, reportsOn, raiseAll_append, List.reverse_cons,
        List.append_assoc]
      rfl
    · have hvisits : k.visitsFor f c ((e, n) :: rest) = k.visitsFor f c rest := by
        unfold Check.visitsFor
        rw [List.filter_cons, if_neg hlistens]
      rw [if_neg hlistens, ih, hvisits]

theorem callTrees_single (trees : List Node) (past : List Visit) (t : Tally) :
    let visits := trees.flatMap fun tree =>
      k.visitsFor f (Check.treeCategory f tree) tree.firings
    callTrees o parsed f trees ([{ check := k, past }], t) =
      ([{ check := k, past := visits.reverse ++ past }],
        raiseAll (raise? o parsed k.info f) t (reportsOn reports past visits)) := by
  dsimp only
  induction trees generalizing past t with
  | nil => rfl
  | cons tree rest ih =>
    rw [callTrees, callFirings_single hk, ih, List.flatMap_cons, reportsOn_append, raiseAll_append,
      List.reverse_append, List.append_assoc]

/-- **A check that only reports raises its reports on the visits of the file.** -/
theorem visitFile_single (past : List Visit) (t : Tally) :
    visitFile o parsed f [{ check := k, past }] t =
      ([{ check := k, past := (k.fileVisits f).reverse ++ past }],
        raiseAll (raise? o parsed k.info f) t (reportsOn reports past (k.fileVisits f))) := by
  have htrees := callTrees_single hk o parsed f f.trees past t
  dsimp only at htrees
  unfold visitFile Check.fileVisits
  simp only [List.map_cons, List.map_nil, htrees]
  rw [callSlots_single hk]
  by_cases happlies : k.info.appliesTo f.info.category = true
  · rw [if_pos happlies, if_pos happlies, reportsOn_append, raiseAll_append, List.reverse_append,
      List.append_assoc]
    simp [reportsOn]
  · rw [if_neg happlies, if_neg happlies, List.append_nil]

end Visits

/-- What a check raises in a file on its own, with nothing configured. -/
def visitAlone (k : Check) (f : SourceFile) : Tally :=
  (visitFile {} [⟨f, .ofFile f⟩] f [{ check := k }] {}).2

/-! ## Raising everything -/

section Raising

variable {raise : Report → Option (Offense × Option PendingFix)}

/-- **What reports leave behind** that are raised one after the other. -/
theorem raiseAll_eq (t : Tally) (rs : List Report) :
    (raiseAll raise t rs).fixes = t.fixes ++ rs.filterMap (fun r => (raise r).bind Prod.snd) ∧
      (raiseAll raise t rs).offenses = t.offenses ++ rs.filterMap (fun r => (raise r).map Prod.fst) := by
  induction rs generalizing t with
  | nil => exact ⟨(List.append_nil _).symm, (List.append_nil _).symm⟩
  | cons r rest ih =>
    obtain ⟨hfixes, hoffenses⟩ := ih (t.effect raise (.report r))
    unfold raiseAll at hfixes hoffenses ⊢
    rw [List.foldl_cons, hfixes, hoffenses]
    cases hr : raise r with
    | none => simp [Tally.effect, hr]
    | some raised =>
      obtain ⟨o, fix⟩ := raised
      cases fix <;> simp [Tally.effect, Tally.add, hr]

/-- The fixes of reports that are all raised. -/
theorem fixes_raiseAll {path code : Text} {rs : List Report} (t : Tally)
    (hraise : ∀ r ∈ rs, ∃ o, raise r = some (o, r.fix.map fun fix => ⟨path, code, fix⟩)) :
    (raiseAll raise t rs).fixes = t.fixes ++ (rs.filterMap Report.fix).map (⟨path, code, ·⟩) := by
  rw [(raiseAll_eq t rs).1, List.map_filterMap]
  refine congrArg _ (List.filterMap_congr fun r hr => ?_)
  obtain ⟨o, hraised⟩ := hraise r hr
  rw [hraised]
  rfl

/-- The offenses of reports that are all raised. -/
theorem offenses_raiseAll {offense : Report → Offense} (t : Tally) (rs : List Report)
    (hraise : ∀ r, ∃ fix, raise r = some (offense r, fix)) :
    (raiseAll raise t rs).offenses = t.offenses ++ rs.map offense := by
  rw [(raiseAll_eq t rs).2, ← List.filterMap_eq_map]
  refine congrArg _ (List.filterMap_congr fun r _ => ?_)
  obtain ⟨fix, hraised⟩ := hraise r
  rw [hraised]
  rfl

/-- A fix comes with the offense of its report. -/
theorem exists_offense_of_fix {t : Tally} (ht : t.fixes = []) {rs : List Report} {p : PendingFix}
    (hp : p ∈ (raiseAll raise t rs).fixes) :
    ∃ r ∈ rs, ∃ o ∈ (raiseAll raise t rs).offenses, raise r = some (o, some p) := by
  rw [(raiseAll_eq t rs).1, ht, List.nil_append] at hp
  obtain ⟨r, hr, hsome⟩ := List.mem_filterMap.1 hp
  obtain ⟨⟨o, fix⟩, hraised, rfl⟩ := Option.bind_eq_some_iff.1 hsome
  refine ⟨r, hr, o, ?_, hraised⟩
  rw [(raiseAll_eq t rs).2]
  exact List.mem_append_right _ (List.mem_filterMap.2 ⟨r, hr, by rw [hraised]; rfl⟩)

end Raising

/-- Without directives nothing is suppressed. -/
theorem regions_ofFile {f : SourceFile} (h : Suppressions.directives f = []) :
    (Suppressions.ofFile f).regions = [] := by
  unfold Suppressions.ofFile
  rw [h]
  rfl

/-- The offense of a report where nothing is configured. -/
def Report.offense (info : CheckInfo) (f : SourceFile) (r : Report) : Offense :=
  { code := info.code
    severity := severityOf {} info r
    message := r.message
    path := f.path
    version := f.version
    start := f.position r.place.start
    stop := f.position r.place.stop
    correctable := r.fix.isSome }

/-- A report on a file without directives is raised as its offense. -/
theorem raise?_eq_of_plain {f : SourceFile} (h : Suppressions.directives f = []) (info : CheckInfo)
    (r : Report) :
    raise? {} [⟨f, .ofFile f⟩] info f r =
      some (r.offense info f, r.fix.map fun fix => ⟨f.path, info.code, fix⟩) := by
  have hnone : (Suppressions.ofFile f).covers info.code r.place.start = false := by
    unfold Suppressions.covers
    rw [regions_ofFile h]
    rfl
  have hfound : ([⟨f, .ofFile f⟩] : List ParsedFile).find? (fun p => p.file.path = f.path) =
      some ⟨f, .ofFile f⟩ := List.find?_cons_of_pos (decide_eq_true rfl)
  unfold raise?
  dsimp only
  rw [hfound, Option.any_some, hnone]
  rfl

/-- Every report on a file without directives is raised, with its fix. -/
theorem raise?_of_plain {f : SourceFile} (h : Suppressions.directives f = []) (info : CheckInfo)
    (r : Report) :
    ∃ o, raise? {} [⟨f, .ofFile f⟩] info f r =
      some (o, r.fix.map fun fix => ⟨f.path, info.code, fix⟩) :=
  ⟨_, raise?_eq_of_plain h info r⟩

/-- What a check that only reports raises on its own. -/
theorem visitAlone_eq {k : Check} {reports : Visit → List Report}
    (hk : k.OnlyReports fun _ v => reports v) (f : SourceFile) :
    visitAlone k f =
      raiseAll (raise? {} [⟨f, .ofFile f⟩] k.info f) {} ((k.fileVisits f).flatMap reports) := by
  unfold visitAlone
  rw [visitFile_single hk, reportsOn_eq_flatMap]

/-- **A check that only reports leaves the fixes of its reports behind.** -/
theorem fixes_visitAlone {k : Check} {reports : Visit → List Report}
    (hk : k.OnlyReports fun _ v => reports v) {f : SourceFile}
    (h : Suppressions.directives f = []) :
    (visitAlone k f).fixes =
      (((k.fileVisits f).flatMap reports).filterMap Report.fix).map (⟨f.path, k.info.code, ·⟩) := by
  rw [visitAlone_eq hk, fixes_raiseAll _ fun r _ => raise?_of_plain h k.info r]
  rfl

/-! ## Replaying -/

/-- A list whose members are all of one form comes from a list. -/
theorem exists_eq_map {α β : Type} {P : β → Prop} {g : β → α} {l : List α} (h : ∀ a ∈ l, ∃ b, P b ∧ a = g b) :
    ∃ bs : List β, l = bs.map g ∧ ∀ b ∈ bs, P b := by
  induction l with
  | nil => exact ⟨[], rfl, nofun⟩
  | cons a rest ih =>
    obtain ⟨b, hb, rfl⟩ := h a (List.mem_cons_self ..)
    obtain ⟨bs, rfl, hbs⟩ := ih fun a' ha' => h a' (List.mem_cons_of_mem _ ha')
    exact ⟨b :: bs, rfl, List.forall_mem_cons.2 ⟨hb, hbs⟩⟩

/-- An edit of a span inside the source is taken up. -/
theorem Corrector.replace_span {c : Corrector} {s : Span} (hle : s.start ≤ s.stop)
    (hstop : s.stop ≤ c.file.source.length) (text : Text) :
    c.replace s.toRange text =
      { c with
        edits := c.edits ++ [⟨s.start, s.stop, text, c.check, c.seq⟩]
        seq := c.seq + 1 } := by
  have hfault : EditFault.of? s.toRange c.file.source.length = none := by
    unfold EditFault.of? Span.toRange
    dsimp only
    rw [if_neg (by omega), if_neg (by omega), if_neg (by omega)]
  unfold Corrector.replace
  rw [hfault]
  rfl

theorem replay_of_ne_nil (f : SourceFile) (stored : Text) {fixes : List PendingFix}
    (h : fixes ≠ []) :
    let r := fixes.foldl Replay.add { corrector := { file := f } }
    (replay (some f) stored fixes {}).outcome = r.corrector.apply stored ∧
      (replay (some f) stored fixes {}).failures = r.failures ++ r.corrector.failure?.toList := by
  cases fixes with
  | nil => exact absurd rfl h
  | cons first rest => exact ⟨rfl, rfl⟩

/-- **Fixes that replace one span each are replayed as one edit each.** -/
theorem foldl_replay {path code text : Text} {spans : List Span} (r : Replay)
    (hplaced : ∀ s ∈ spans, s.start ≤ s.stop ∧ s.stop ≤ r.corrector.file.source.length) :
    let after := (spans.map fun s => (⟨path, code, [.edit s.toRange text]⟩ : PendingFix)).foldl
      Replay.add r
    after.corrector.file = r.corrector.file ∧ after.corrector.refused = r.corrector.refused ∧
      after.failures = r.failures ∧
      after.corrector.edits.map Edit.plain = r.corrector.edits.map Edit.plain ++
        spans.map fun s => ⟨s.start, s.stop, text, code, 0⟩ := by
  dsimp only
  induction spans generalizing r with
  | nil => exact ⟨rfl, rfl, rfl, (List.append_nil _).symm⟩
  | cons s rest ih =>
    obtain ⟨hle, hstop⟩ := hplaced s (List.mem_cons_self ..)
    have hreplace := @Corrector.replace_span { r.corrector with check := code } s hle hstop text
    have hadd : r.add ⟨path, code, [.edit s.toRange text]⟩ =
        { r with
          corrector :=
            { r.corrector with
              check := code
              edits := r.corrector.edits ++ [⟨s.start, s.stop, text, code, r.corrector.seq⟩]
              seq := r.corrector.seq + 1 } } := by
      unfold Replay.add Replay.follow Replay.follow
      dsimp only
      rw [hreplace]
    rw [List.map_cons, List.foldl_cons, hadd]
    obtain ⟨hfile, hrefused, hfailures, hedits⟩ := ih { r with
      corrector :=
        { r.corrector with
          check := code
          edits := r.corrector.edits ++ [⟨s.start, s.stop, text, code, r.corrector.seq⟩]
          seq := r.corrector.seq + 1 } } fun s' hs' => hplaced s' (List.mem_cons_of_mem _ hs')
    refine ⟨hfile, hrefused, hfailures, ?_⟩
    rw [hedits, List.map_append, List.append_assoc]
    rfl

/-- **Fixes that replace spans that stand one behind the other are all made.** -/
theorem replay_spans {f : SourceFile} (stored : Text) {code text : Text} {spans : List Span}
    {fixes : List PendingFix} (hfixes : fixes = spans.map fun s => ⟨f.path, code, [.edit s.toRange text]⟩)
    {target : List Edit} (horder : InOrder 0 target f.source.length)
    (hstarts : target.Pairwise fun a b => a.start < b.start)
    (hmem : ∀ e, e ∈ target ↔ e ∈ spans.map fun s => (⟨s.start, s.stop, text, code, 0⟩ : Edit)) :
    let fixed := replay (some f) stored fixes {}
    let applied := fixed.outcome.applied
    fixed.outcome.conflicts = [] ∧ fixed.failures = [] ∧
      fixed.outcome.content = (if applied.isEmpty then stored
        else f.encode (Corrector.splice f.source applied)) ∧
      Corrector.splice f.source applied = patch f.source 0 f.source.length target ∧
      ∀ e, e ∈ target ↔ ∃ a ∈ applied, a.plain = e := by
  subst hfixes
  dsimp only
  by_cases hspans : spans = []
  · subst hspans
    have htarget : target = [] := by
      refine List.eq_nil_iff_forall_not_mem.2 fun e he => ?_
      cases (hmem e).1 he
    subst htarget
    refine ⟨rfl, rfl, rfl, ?_, by simp [replay]⟩
    rw [patch_nil]
    unfold Text.slice
    rw [List.drop_zero, Nat.sub_zero, List.take_length]
    show Corrector.splice f.source [] = f.source
    simp [Corrector.splice]
  · have hfixes : (spans.map fun s => (⟨f.path, code, [.edit s.toRange text]⟩ : PendingFix)) ≠ [] := by
      rwa [ne_eq, List.map_eq_nil_iff]
    obtain ⟨houtcome, hfailures'⟩ := replay_of_ne_nil f stored hfixes
    obtain ⟨hfile, hrefused, hfailures, hedits⟩ := @foldl_replay f.path code text spans
      { corrector := { file := f } } fun s hs =>
        (horder.bounds ((hmem _).2 (List.mem_map_of_mem hs))).2
    rw [houtcome, hfailures']
    generalize List.foldl Replay.add _ _ = r at *
    obtain ⟨hconflicts, hsplice, hmade⟩ := @Corrector.settle_of_inOrder f.source r.corrector.edits target
      horder hstarts fun e => by
        rw [hmem, ← List.mem_map, hedits]
        rfl
    refine ⟨hconflicts, ?_, ?_, hsplice, hmade⟩
    · unfold Corrector.failure?
      rw [hfailures, hrefused]
      rfl
    · unfold Corrector.apply
      rw [hfile]

end LiquidLint
