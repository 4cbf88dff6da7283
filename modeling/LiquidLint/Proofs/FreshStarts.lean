import LiquidLint.Proofs.FileVisits
import LiquidLint.Rule.All

/-!
# Checks that start afresh with every file

Checks may keep what they were called for before, across files.  One that does not do so reacts to a
file in the same way whatever was visited before it (`Check.Forgetful`).  Where all checks are like that,
a file raises the same in every run (`raisedIn_forgetful`).

All checks but one do not look at what they were called for.  The check of assignments does, but it looks
back no further than to the start of the document, and a template is the only file at whose end it is
called.  So all built-in checks are forgetful (`Rule.forgetful_of_mem_all`).  They report and do nothing
else to a run, so none of them cancels it (`Rule.neverCancels_of_mem_all`).
-/

namespace LiquidLint

open Source

namespace Analysis

/-! ## Reactions to a file -/

/-- What the check does at one moment after the other. -/
def Slot.reactions (s : Slot) : List Moment → List (Option (Reaction Report))
  | [] => []
  | m :: rest => s.reaction? m :: (s.after m).reactions rest

theorem Slot.reactions_cons_of_called {k : Check} {m : Moment} (h : m.wanted k = true)
    (past : List Visit) (rest : List Moment) :
    (⟨k, past, false⟩ : Slot).reactions (m :: rest) =
      some (k.onVisit past m.visit) ::
        (⟨k, m.visit :: past, (k.onVisit past m.visit).crash.isSome⟩ : Slot).reactions rest := by
  have hreaction : (⟨k, past, false⟩ : Slot).reaction? m = some (k.onVisit past m.visit) :=
    if_pos (Bool.and_eq_true_iff.2 ⟨h, rfl⟩)
  rw [reactions, after, hreaction]

theorem Slot.reactions_cons_of_left_out {s : Slot} {m : Moment}
    (h : ¬ (m.wanted s.check && !s.failed) = true) (rest : List Moment) :
    s.reactions (m :: rest) = none :: s.reactions rest := by
  have hreaction : s.reaction? m = none := if_neg h
  rw [reactions, after, hreaction]

/-- **What is raised depends on the checks and on their reactions only.** -/
theorem raisedOver_congr {ι : Type} (o : AnalyzerOptions) (parsed : List ParsedFile)
    (f : SourceFile) {ms : List Moment} {xs : List ι} {p q : ι → Slot}
    (h : ∀ x ∈ xs, (p x).check = (q x).check ∧ (p x).reactions ms = (q x).reactions ms) :
    raisedOver o parsed f ms (xs.map p) = raisedOver o parsed f ms (xs.map q) := by
  induction ms generalizing p q with
  | nil => rfl
  | cons m rest ih =>
    have hraised : xs.map (Slot.raised o parsed f m ∘ p) = xs.map (Slot.raised o parsed f m ∘ q) := by
      refine List.map_congr_left fun x hx => ?_
      obtain ⟨hcheck, hreactions⟩ := h x hx
      show Slot.raised o parsed f m (p x) = Slot.raised o parsed f m (q x)
      unfold Slot.raised
      rw [(List.cons.inj hreactions).1, hcheck]
    have hrest := @ih (fun x => (p x).after m) (fun x => (q x).after m) fun x hx => by
      obtain ⟨hcheck, hreactions⟩ := h x hx
      rw [Slot.check_after, Slot.check_after]
      exact ⟨hcheck, (List.cons.inj hreactions).2⟩
    rw [raisedOver, raisedOver, List.map_map, List.map_map, List.map_map, List.map_map, hraised]
    exact congrArg _ hrest

/-- **Reactions that depend on a view of what came before** agree where the views agree. -/
theorem Slot.reactions_congr {α : Type} (view : List Visit → α) {k : Check} {ms : List Moment}
    (hreact : ∀ m ∈ ms, m.wanted k = true → ∀ past past', view past = view past' →
      k.onVisit past m.visit = k.onVisit past' m.visit)
    (hstep : ∀ v past past', view past = view past' → view (v :: past) = view (v :: past'))
    {past past' : List Visit} (h : view past = view past') (failed : Bool) :
    (⟨k, past, failed⟩ : Slot).reactions ms = (⟨k, past', failed⟩ : Slot).reactions ms := by
  induction ms generalizing past past' failed with
  | nil => rfl
  | cons m rest ih =>
    have hrest := fun m' hm' => hreact m' (List.mem_cons_of_mem m hm')
    by_cases hcalled : (m.wanted k && !failed) = true
    · obtain ⟨hwanted, hworks⟩ := Bool.and_eq_true_iff.1 hcalled
      obtain rfl : failed = false := by simpa using hworks
      have hsame := hreact m (List.mem_cons_self ..) hwanted past past' h
      rw [reactions_cons_of_called hwanted, reactions_cons_of_called hwanted, hsame]
      exact congrArg _ (ih hrest (hstep m.visit past past' h) _)
    · rw [reactions_cons_of_left_out hcalled, reactions_cons_of_left_out hcalled]
      exact congrArg _ (ih hrest h failed)

end Analysis

open Analysis

/-- The check reacts to a file in the same way whatever was visited before it. -/
def Check.Forgetful (k : Check) : Prop :=
  ∀ path content version past past',
    let ms := moments (SourceFile.parse path content version)
    (⟨k, past, false⟩ : Slot).reactions ms = (⟨k, past', false⟩ : Slot).reactions ms

/-- **Forgetful checks raise the same in a file**, whatever they were called for before. -/
theorem Analysis.raisedIn_forgetful (o : AnalyzerOptions) (parsed : List ParsedFile)
    {path content : Text} {version : Int} {slots : List Slot} {g : Slot → Slot}
    (hg : ∀ s, (g s).check = s.check) (h : ∀ s ∈ slots, s.check.Forgetful) :
    let f := SourceFile.parse path content version
    raisedIn o parsed f (slots.map g) = raisedIn o parsed f slots := by
  intro f
  unfold raisedIn
  rw [List.map_map]
  refine raisedOver_congr o parsed f fun s hs => ?_
  refine ⟨hg s, ?_⟩
  show (⟨(g s).check, (g s).past, false⟩ : Slot).reactions _ = _
  rw [hg s]
  exact h s hs path content version (g s).past s.past

/-- **Forgetful checks raise across files what they raise in each file.** -/
theorem Analysis.raisedAcross_forgetful (o : AnalyzerOptions) (parsed : List ParsedFile)
    {files : List SourceFile} {slots : List Slot}
    (hfiles : ∀ f ∈ files, ∃ path content version, f = SourceFile.parse path content version)
    (h : ∀ s ∈ slots, s.check.Forgetful) :
    raisedAcross o parsed files slots =
      Tally.join (files.map fun f => raisedIn o parsed f slots) := by
  -- the checks go on from any point of the run
  have hfrom (g : Slot → Slot) (hg : ∀ s, (g s).check = s.check) :
      raisedAcross o parsed files (slots.map g) =
        Tally.join (files.map fun f => raisedIn o parsed f slots) := by
    induction files generalizing g with
    | nil => rfl
    | cons f rest ih =>
      obtain ⟨path, content, version, hf⟩ := hfiles f (List.mem_cons_self ..)
      have hrest := ih (fun f' hf' => hfiles f' (List.mem_cons_of_mem _ hf'))
        (Slot.visited f ∘ g) fun s => (Slot.check_visited f (g s)).trans (hg s)
      rw [raisedAcross, List.map_map, hrest, List.map_cons, Tally.join_cons, hf,
        raisedIn_forgetful o parsed hg h]
  rw [← hfrom id fun _ => rfl, List.map_id]

/-- A check that does not look at what it was called for is forgetful. -/
theorem Check.forgetful_of_memoryless {k : Check}
    (hk : ∀ past past' v, k.onVisit past v = k.onVisit past' v) : k.Forgetful :=
  fun _ _ _ _ _ =>
    Slot.reactions_congr (fun _ => ()) (fun m _ _ past past' _ => hk past past' m.visit)
      (fun _ _ _ _ => rfl) rfl false

namespace Rule

/-! ## The check of assignments -/

namespace Assignment

/-- What the check of assignments sees of the past after a visit depends on what it saw before. -/
theorem visitedNodes_cons_congr (v : Visit) {past past' : List Visit}
    (h : visitedNodes past = visitedNodes past') :
    visitedNodes (v :: past) = visitedNodes (v :: past') := by
  unfold visitedNodes at h ⊢
  cases v with
  | node f e n =>
    rw [List.takeWhile_cons, List.takeWhile_cons]
    by_cases he : e.kind = "document"
    · rw [if_neg (by simpa using he), if_neg (by simpa using he)]
    · rw [if_pos (by simpa using he), if_pos (by simpa using he), List.reverse_cons,
        List.reverse_cons, List.filterMap_append, List.filterMap_append, h]
  | endFile f =>
    rw [List.takeWhile_cons_of_pos rfl, List.takeWhile_cons_of_pos rfl, List.reverse_cons,
      List.reverse_cons, List.filterMap_append, List.filterMap_append, h]

/-- A document that starts hides what was visited before. -/
theorem visitedNodes_document {f : SourceFile} {e : Event} {n : Node} (he : e.kind = "document")
    (past : List Visit) : visitedNodes (.node f e n :: past) = [] := by
  unfold visitedNodes
  rw [List.takeWhile_cons_of_neg (by simpa using he)]
  rfl

end Assignment

open Assignment

/-- The check of assignments reacts to visits by what it sees of the past. -/
theorem onVisit_unusedAssign_congr {past past' : List Visit}
    (h : visitedNodes past = visitedNodes past') (v : Visit) :
    unusedAssign.onVisit past v = unusedAssign.onVisit past' v := by
  cases v with
  | node f e n => rfl
  | endFile f =>
    show Reaction.reports (unusedReports f (visitedNodes past)) = _
    rw [h]
    rfl

/-- The first moments of a template are those of its document. -/
theorem moments_liquid {path : Text} (content : Text) (version : Int)
    (hc : (Project.classify path).category = .liquid) :
    let f := SourceFile.parse path content version
    ∃ n rest, moments f =
      ⟨some n, .node f ⟨.on, "node"⟩ n, fun k => k.listensTo .liquid ⟨.on, "node"⟩⟩ ::
        ⟨some n, .node f ⟨.on, "document"⟩ n, fun k => k.listensTo .liquid ⟨.on, "document"⟩⟩ ::
          rest := by
  intro f
  have htrees : f.trees = (SourceFile.liquidPart f.source).2 ++ (SourceFile.htmlPart f.source).2 := by
    show (SourceFile.parts (Project.classify path).category (sourceOf content) _).2 = _
    rw [hc]
    rfl
  unfold moments
  rw [htrees]
  exact ⟨_, _, rfl⟩

theorem forgetful_unusedAssign : unusedAssign.Forgetful := by
  intro path content version past past' ms
  by_cases hc : (Project.classify path).category = .liquid
  · -- the document starts before the check does anything, and hides what was before
    obtain ⟨n, rest, hms⟩ := moments_liquid content version hc
    have hnode : unusedAssign.listensTo .liquid ⟨.on, "node"⟩ = false := by decide
    have hdocument : unusedAssign.listensTo .liquid ⟨.on, "document"⟩ = true := by decide
    have hreactions (past : List Visit) :
        (⟨unusedAssign, past, false⟩ : Slot).reactions ms = none :: some {} ::
          (⟨unusedAssign, .node (SourceFile.parse path content version) ⟨.on, "document"⟩ n :: past,
            false⟩ : Slot).reactions rest := by
      show Slot.reactions _ (moments _) = _
      rw [hms, Slot.reactions_cons_of_left_out, Slot.reactions_cons_of_called hdocument]
      · rfl
      · show ¬ (unusedAssign.listensTo .liquid ⟨.on, "node"⟩ && _) = true
        rw [hnode]
        exact Bool.false_ne_true
    rw [hreactions, hreactions]
    refine congrArg _ (congrArg _ ?_)
    exact Slot.reactions_congr visitedNodes
      (fun m _ _ past past' h => onVisit_unusedAssign_congr h m.visit)
      (fun v _ _ => visitedNodes_cons_congr v)
      ((visitedNodes_document rfl past).trans (visitedNodes_document rfl past').symm) false
  · -- the check is not called at the end of the file
    refine Slot.reactions_congr (fun _ => ()) (fun m hm hwanted past past' _ => ?_)
      (fun _ _ _ _ => rfl) rfl false
    rcases List.mem_append.1 hm with hm | hm
    · obtain ⟨tree, -, hm⟩ := List.mem_flatMap.1 hm
      obtain ⟨p, -, rfl⟩ := List.mem_map.1 hm
      rfl
    · obtain rfl := List.mem_singleton.1 hm
      have happlies : ∀ c, unusedAssign.info.appliesTo c = true → c = .liquid := by
        intro c
        cases c <;> decide
      exact absurd (happlies _ hwanted) hc

/-- **All built-in checks are forgetful.** -/
theorem forgetful_of_mem_all {k : Check} (hk : k ∈ all) : k.Forgetful := by
  simp only [all, List.mem_cons, List.not_mem_nil, or_false] at hk
  rcases hk with rfl | rfl | rfl | rfl | rfl | rfl | rfl | rfl | rfl | rfl
  case inr.inr.inl => exact forgetful_unusedAssign
  all_goals exact Check.forgetful_of_memoryless fun _ _ _ => rfl

/-! ## Built-in checks and the run -/

/-- Two built-in checks look at the project. -/
theorem onProject_of_mem_all {k : Check} (hk : k ∈ all) :
    k.onProject = none ∨ k = missingTemplate ∨ k = unusedPartial := by
  simp only [all, List.mem_cons, List.not_mem_nil, or_false] at hk
  rcases hk with rfl | rfl | rfl | rfl | rfl | rfl | rfl | rfl | rfl | rfl
  case inr.inr.inr.inr.inr.inr.inr.inr.inl => exact .inr (.inl rfl)
  case inr.inr.inr.inr.inr.inr.inr.inr.inr => exact .inr (.inr rfl)
  all_goals exact .inl rfl

theorem mem_reports {ρ : Type} {rs : List ρ} {r : ρ} :
    .report r ∈ (Reaction.reports rs).effects ↔ r ∈ rs := by
  unfold Reaction.reports
  simp

@[simp] theorem cancel_not_mem_reports {ρ : Type} (rs : List ρ) :
    .cancel ∉ (Reaction.reports rs).effects := by
  intro h
  obtain ⟨r, -, hr⟩ := List.mem_map.1 h
  exact nomatch hr

/-- The checks that look at each element do not cancel a run. -/
theorem cancel_not_mem_elementCheck (info : CheckInfo) (report? : Markup.Head → Option Report)
    (past : List Visit) (v : Visit) :
    .cancel ∉ ((Element.elementCheck info report?).onVisit past v).effects := by
  cases v with
  | node f e n =>
    dsimp only [Element.elementCheck]
    split
    · exact cancel_not_mem_reports _
    · exact List.not_mem_nil
  | endFile f => exact List.not_mem_nil

/-- **No built-in check cancels a run.** -/
theorem neverCancels_of_mem_all {k : Check} (hk : k ∈ all) : k.NeverCancels where
  visit past v := by
    simp only [all, List.mem_cons, List.not_mem_nil, or_false] at hk
    rcases hk with rfl | rfl | rfl | rfl | rfl | rfl | rfl | rfl | rfl | rfl
    case inr.inr.inr.inr.inl =>
      exact cancel_not_mem_elementCheck parserBlockingJavascript.info Element.scriptReport? past v
    case inr.inr.inr.inr.inr.inl =>
      exact cancel_not_mem_elementCheck imgWidthAndHeight.info Element.imageReport? past v
    all_goals
      cases v <;> simp [syntaxError, htmlParsingError, validYaml, warningCheck, spaceInsideBraces,
        unusedAssign, deprecatedTag, missingTemplate, unusedPartial]
  project react hreact past v := by
    rcases onProject_of_mem_all hk with hnone | rfl | rfl
    · rw [hnone] at hreact
      cases hreact
    · obtain rfl := Option.some.inj hreact
      exact cancel_not_mem_reports _
    · obtain rfl := Option.some.inj hreact
      exact cancel_not_mem_reports _

end Rule
end LiquidLint
