import LiquidLint.Check.Script
import LiquidLint.Proofs.AnalysisRuns

/-!
# Checks by themselves

The checks of a run are called in turns, and what they raise ends up in one list.  All that is left of a
check there is its code: offenses and fixes carry it, and the offense of a breakdown names it in its
message (`Names`).  What a tally holds of a check in this sense is its share (`Tally.share`).

As a check never sees another one, a run adds to the share of a check what the check itself raises
(`share_raisedAcross`), so long as nothing that other checks raise is taken for its own (`Apart`).  So the
share of a check in a run is the one it has when it runs alone (`checks_independent`).

A check whose code is that of breakdowns would share the breakdowns of all others, and a code that goes
on after another one like the message of a breakdown would share those of that other one
(`breakdowns_confused`).
-/

namespace LiquidLint

open Source Analysis

/-- The offense tells of a breakdown and names the check with the code. -/
def Names (code : Text) (o : Offense) : Prop :=
  o.code = internalErrorCode ∧ ("Check " ++ code ++ " failed" : Text) <+: o.message

instance (code : Text) (o : Offense) : Decidable (Names code o) := inferInstanceAs (Decidable (_ ∧ _))

/-- The codes are told apart in messages of breakdowns. -/
structure Distinguishable (c d : Text) : Prop where
  left : ¬ (c ++ " failed" : Text) <+: d ++ " failed"
  right : ¬ (d ++ " failed" : Text) <+: c ++ " failed"

/-- Nothing that the check `d` raises is taken for an offense or a fix of the check `c`. -/
structure Apart (c d : Text) : Prop where
  distinguishable : Distinguishable c d
  own : c ≠ internalErrorCode
  other : d ≠ internalErrorCode

theorem Distinguishable.ne {c d : Text} (h : Distinguishable c d) : d ≠ c := by
  rintro rfl
  exact h.left (List.prefix_refl _)

/-- The breakdown of a check names no check from whose code its own is told apart. -/
theorem Distinguishable.not_names {c d : Text} (h : Distinguishable c d) (file : Option SourceFile)
    (node : Option Node) (detail : Text) : ¬ Names c (breakdown d file node detail) := by
  have hmessage : ("Check " ++ (d ++ " failed") : Text) <+: (breakdown d file node detail).message := by
    have hrest (rest : Text) :
        ("Check " ++ (d ++ " failed") : Text) <+: "Check " ++ (d ++ (" failed" ++ rest)) := by
      refine ⟨rest, ?_⟩
      rw [List.append_assoc, List.append_assoc]
    unfold breakdown
    cases file with
    | none =>
      simp only [List.append_assoc]
      exact hrest _
    | some f =>
      dsimp only
      split
      · simp only [List.append_assoc]
        exact hrest _
      · simp only [List.append_assoc]
        exact hrest _
  rintro ⟨-, hnames⟩
  rw [List.append_assoc] at hnames
  -- of two texts with which the message starts one starts with the other
  rcases List.prefix_or_prefix_of_prefix hnames hmessage with hle | hle
  · exact h.left ((List.prefix_append_right_inj _).1 hle)
  · exact h.right ((List.prefix_append_right_inj _).1 hle)

namespace Analysis

/-! ## Shares -/

/-- What there is of a check: its offenses, the breakdowns that name it, and its fixes. -/
structure Share where
  offenses : List Offense
  breakdowns : List Offense
  fixes : List PendingFix

namespace Tally

/-- What a tally holds of the check with the code. -/
def share (code : Text) (t : Tally) : Share :=
  { offenses := t.offenses.filter fun o => o.code = code
    breakdowns := t.offenses.filter fun o => Names code o
    fixes := t.fixes.filter fun p => p.code = code }

/-- A tally that holds nothing of the check. -/
structure Foreign (code : Text) (t : Tally) : Prop where
  offenses : ∀ o ∈ t.offenses, o.code ≠ code ∧ ¬ Names code o
  fixes : ∀ p ∈ t.fixes, p.code ≠ code

section Share

variable {c : Text} {s s' t t' : Tally}

theorem share_append_congr (hs : s.share c = s'.share c) (ht : t.share c = t'.share c) :
    (s ++ t).share c = (s' ++ t').share c := by
  unfold share at hs ht ⊢
  obtain ⟨hso, hsb, hsf⟩ := Share.mk.inj hs
  obtain ⟨hto, htb, htf⟩ := Share.mk.inj ht
  rw [offenses_append, offenses_append, fixes_append, fixes_append, List.filter_append,
    List.filter_append, List.filter_append, List.filter_append, List.filter_append,
    List.filter_append, hso, hsb, hsf, hto, htb, htf]

theorem share_of_foreign (h : t.Foreign c) : t.share c = ({} : Tally).share c := by
  have hoffenses : t.offenses.filter (fun o => o.code = c) = [] :=
    List.filter_eq_nil_iff.2 fun o ho => by simpa using (h.offenses o ho).1
  have hbreakdowns : t.offenses.filter (fun o => Names c o) = [] :=
    List.filter_eq_nil_iff.2 fun o ho => by simpa using (h.offenses o ho).2
  have hfixes : t.fixes.filter (fun p => p.code = c) = [] :=
    List.filter_eq_nil_iff.2 fun p hp => by simpa using h.fixes p hp
  unfold share
  rw [hoffenses, hbreakdowns, hfixes]
  rfl

theorem foreign_of_nil (hoffenses : t.offenses = []) (hfixes : t.fixes = []) : t.Foreign c where
  offenses _ ho := absurd (hoffenses ▸ ho) List.not_mem_nil
  fixes _ hp := absurd (hfixes ▸ hp) List.not_mem_nil

theorem additive_foreign (c : Text) : Additive (Foreign c) where
  empty := foreign_of_nil rfl rfl
  append hs ht :=
    ⟨fun o ho => (List.mem_append.1 ho).elim (hs.offenses o) (ht.offenses o),
      fun p hp => (List.mem_append.1 hp).elim (hs.fixes p) (ht.fixes p)⟩

/-- **What another check raises adds nothing to the share of a check.** -/
theorem foreign_react {d : Text} (h : Apart c d) {ρ : Type}
    {raise : ρ → Option (Offense × Option PendingFix)}
    (hraise : ∀ r o fix, raise r = some (o, fix) → o.code = d ∧ ∀ p ∈ fix, p.code = d)
    (file : Option SourceFile) (node : Option Node) (r : Reaction ρ) :
    (react raise d file node r {}).Foreign c := by
  have hne := h.distinguishable.ne
  refine (additive_foreign c).react (fun e _ => ?_) fun detail _ => ⟨fun o ho => ?_, nofun⟩
  · cases e with
    | report r =>
      unfold effect
      dsimp only
      split
      · rename_i o fix hr
        obtain ⟨hcode, hfix⟩ := hraise r o fix hr
        refine ⟨fun o' ho' => ?_, fun p hp => ?_⟩
        · obtain rfl := List.mem_singleton.1 ho'
          rw [hcode]
          exact ⟨hne, fun hnames => h.other (hcode ▸ hnames.1)⟩
        · rw [hfix p (Option.mem_toList.1 hp)]
          exact hne
      · exact (additive_foreign c).empty
    | trace => exact foreign_of_nil rfl rfl
    | cancel => exact foreign_of_nil rfl rfl
  · obtain rfl := List.mem_singleton.1 ho
    refine ⟨?_, h.distinguishable.not_names file node detail⟩
    have hcode : (breakdown d file node detail).code = internalErrorCode := by
      cases file <;> rfl
    rw [hcode]
    exact h.own.symm

theorem share_append_foreign (ht : t.Foreign c) : (t ++ s).share c = s.share c := by
  have h := share_append_congr (share_of_foreign ht) (rfl : s.share c = s.share c)
  rwa [empty_append] at h

/-- The slots of other checks may be left out. -/
theorem share_join_filter {raised : Slot → Tally} {own : Slot → Bool} {slots : List Slot}
    (h : ∀ s ∈ slots, ¬ own s = true → (raised s).Foreign c) :
    (join (slots.map raised)).share c = (join ((slots.filter own).map raised)).share c := by
  induction slots with
  | nil => rfl
  | cons s rest ih =>
    have hrest := ih fun s' hs' => h s' (List.mem_cons_of_mem _ hs')
    rw [List.map_cons, join_cons, List.filter_cons]
    by_cases hown : own s = true
    · rw [if_pos hown, List.map_cons, join_cons]
      exact share_append_congr rfl hrest
    · rw [if_neg hown, share_append_foreign (h s (List.mem_cons_self ..) hown), hrest]

end Share

end Tally

/-! ## Shares in a run -/

/-- Whether a slot is that of the check with the code. -/
def Slot.isOf (code : Text) (s : Slot) : Bool := s.check.info.code = code

/-- The slots are those of the check, and of checks that are not taken for it. -/
def SetApart (code : Text) (slots : List Slot) : Prop :=
  ∀ s ∈ slots, ¬ s.isOf code = true → Apart code s.check.info.code

section Runs

variable {c : Text} {slots : List Slot} (o : AnalyzerOptions) (parsed : List ParsedFile)

theorem SetApart.map (h : SetApart c slots) {g : Slot → Slot} (hg : ∀ s, (g s).check = s.check) :
    SetApart c (slots.map g) := by
  intro s hs hother
  obtain ⟨s', hs', rfl⟩ := List.mem_map.1 hs
  unfold Slot.isOf at hother
  rw [hg] at hother ⊢
  exact h s' hs' hother

/-- Following the slots of a check is the same before and after a step of each slot. -/
theorem filter_isOf_map {g : Slot → Slot} (hg : ∀ s, (g s).check = s.check) (c : Text)
    (slots : List Slot) :
    (slots.map g).filter (Slot.isOf c) = (slots.filter (Slot.isOf c)).map g := by
  have hsame : Slot.isOf c ∘ g = Slot.isOf c := by
    funext s
    unfold Function.comp Slot.isOf
    rw [hg]
  rw [List.filter_map, hsame]

theorem raise?_code {info : CheckInfo} {f : SourceFile} (r : Report) (offense : Offense)
    (fix : Option PendingFix) (h : raise? o parsed info f r = some (offense, fix)) :
    offense.code = info.code ∧ ∀ p ∈ fix, p.code = info.code := by
  unfold raise? at h
  dsimp only at h
  split at h
  · exact nomatch h
  · obtain ⟨rfl, rfl⟩ := Prod.mk.inj (Option.some.inj h)
    refine ⟨rfl, fun p hp => ?_⟩
    obtain ⟨steps, -, rfl⟩ := Option.map_eq_some_iff.1 hp
    rfl

theorem raiseReport?_code {info : CheckInfo} (r : ProjectReport) (offense : Offense)
    (fix : Option PendingFix) (h : raiseReport? o parsed info r = some (offense, fix)) :
    offense.code = info.code ∧ ∀ p ∈ fix, p.code = info.code := by
  unfold raiseReport? at h
  split at h
  · exact raise?_code o parsed _ _ _ h
  · obtain ⟨raised, hraised, heq⟩ := Option.map_eq_some_iff.1 h
    obtain ⟨rfl, rfl⟩ := Prod.mk.inj heq
    unfold raiseProject? at hraised
    split at hraised
    · exact nomatch hraised
    · obtain rfl := Option.some.inj hraised
      exact ⟨rfl, nofun⟩

/-- **In a file, a check has the share that it has by itself.** -/
theorem share_raisedIn (f : SourceFile) (h : SetApart c slots) :
    (raisedIn o parsed f slots).share c =
      (raisedIn o parsed f (slots.filter (Slot.isOf c))).share c := by
  have hover (ms : List Moment) (slots : List Slot) (h : SetApart c slots) :
      (raisedOver o parsed f ms slots).share c =
        (raisedOver o parsed f ms (slots.filter (Slot.isOf c))).share c := by
    induction ms generalizing slots with
    | nil => rfl
    | cons m rest ih =>
      have hafter := fun s => Slot.check_after s m
      refine Tally.share_append_congr (Tally.share_join_filter fun s hs hother => ?_) ?_
      · unfold Slot.raised
        split
        · exact Tally.foreign_react (h s hs hother) (raise?_code o parsed) _ _ _
        · exact (Tally.additive_foreign c).empty
      · rw [ih _ (h.map hafter), filter_isOf_map hafter]
  have hfresh (s : Slot) : s.fresh.check = s.check := rfl
  unfold raisedIn
  rw [hover _ _ (h.map hfresh), filter_isOf_map hfresh]

/-- **Across files, a check has the share that it has by itself.** -/
theorem share_raisedAcross (files : List SourceFile) (h : SetApart c slots) :
    (raisedAcross o parsed files slots).share c =
      (raisedAcross o parsed files (slots.filter (Slot.isOf c))).share c := by
  induction files generalizing slots with
  | nil => rfl
  | cons f rest ih =>
    have hvisited := Slot.check_visited f
    refine Tally.share_append_congr (share_raisedIn o parsed f h) ?_
    rw [ih (h.map hvisited), filter_isOf_map hvisited]

/-- **On the project, a check has the share that it has by itself.** -/
theorem share_raisedOn (view : ProjectView) (h : SetApart c slots) :
    (Tally.join (slots.map (Slot.raisedOn o parsed view))).share c =
      (Tally.join ((slots.filter (Slot.isOf c)).map (Slot.raisedOn o parsed view))).share c := by
  refine Tally.share_join_filter fun s hs hother => ?_
  unfold Slot.raisedOn
  split
  · exact Tally.foreign_react (h s hs hother) (raiseReport?_code o parsed) _ _ _
  · exact (Tally.additive_foreign c).empty

end Runs

end Analysis

namespace Analyzer

/-! ## Shares of an analysis -/

/-- A run that is cancelled before it reads anything leaves nothing behind. -/
theorem analyze_stopped {a : Analyzer} {around : Surroundings} {paths toParse : List Text}
    {onlySingle : Bool} (hidle : a.stage = .idle)
    (hstop : (around.cancelled && !toParse.isEmpty) = true) :
    let call := a.analyze around paths toParse onlySingle
    call.outcome = .error (Failure.cancelled.within "parsing cancelled") ∧
      call.analyzer.findings = a.findings ∧ call.analyzer.fixes = a.fixes := by
  unfold analyze
  rw [if_neg (not_not_intro hidle)]
  dsimp only
  rw [if_pos hstop]
  exact ⟨rfl, rfl, rfl⟩

/-- A run that is cancelled but has nothing to read raises nothing. -/
theorem analyze_nothing {a : Analyzer} (onlySingle : Bool) {around : Surroundings}
    (hidle : a.stage = .idle) (hcancelled : around.cancelled = true) :
    let call := a.analyze around [] [] onlySingle
    call.outcome = .ok () ∧ call.analyzer.findings.single = [] ∧
      call.analyzer.findings.project = [] ∧ call.analyzer.fixes = [] := by
  have hgo : ¬ (around.cancelled && !(List.isEmpty ([] : List Text))) = true := by
    rw [hcancelled]
    exact Bool.false_ne_true
  obtain ⟨start, hstart, hok, hresult⟩ := analyze_spec [] [] onlySingle hidle hgo
  obtain ⟨before, hoffenses, hfixes, hbefore, hfindings, hfixesAfter⟩ := hresult rfl
  have hpass : ∀ slots : List Slot, (if onlySingle then before else
      projectPass a.options (readable a.snapshot []) (a.view []) slots before) = before := by
    intro slots
    rw [projectPass_cancelled _ _ _ _ (hbefore.trans (hstart.cancelled.trans hcancelled)), ite_self]
  dsimp only
  rw [hok, hfindings, hfixesAfter, hpass]
  refine ⟨rfl, hstart.offenses, hoffenses, ?_⟩
  rw [hfixes, List.append_nil]
  exact hstart.fixes

instance : Std.Symm fun k l : Check => Distinguishable k.info.code l.info.code :=
  ⟨fun _ _ h => ⟨h.right, h.left⟩⟩

/-- The slot of a check in a run is the one that it has when it runs alone. -/
theorem filter_slots {a : Analyzer} {k : Check} (hk : k ∈ a.checks)
    (hcodes : a.checks.Pairwise fun k l => Distinguishable k.info.code l.info.code) :
    a.slots.filter (Slot.isOf k.info.code) = { a with checks := [k] }.slots := by
  have hchecks {checks : List Check} (hk : k ∈ checks)
      (hcodes : checks.Pairwise fun k l => Distinguishable k.info.code l.info.code) :
      checks.filter (fun l => l.info.code = k.info.code) = [k] := by
    induction checks with
    | nil => exact nomatch hk
    | cons first rest ih =>
      obtain ⟨hfirst, hrest⟩ := List.pairwise_cons.1 hcodes
      rcases List.mem_cons.1 hk with rfl | hk
      · have hnone : rest.filter (fun l => l.info.code = k.info.code) = [] :=
          List.filter_eq_nil_iff.2 fun l hl => by simpa using (hfirst l hl).ne
        rw [List.filter_cons, if_pos (decide_eq_true rfl), hnone]
      · have hne : ¬ decide (first.info.code = k.info.code) = true := by
          simpa using (hfirst k hk).ne.symm
        rw [List.filter_cons, if_neg hne, ih hk hrest]
  show (a.checks.map ({ check := · })).filter (Slot.isOf k.info.code) = [k].map ({ check := · })
  rw [List.filter_map, ← hchecks hk hcodes]
  rfl

/-- What a run that does not start leaves behind does not depend on the checks. -/
theorem analyzeProject_unstarted (a : Analyzer) (checks : List Check) {around : Surroundings}
    (h : a.stage ≠ .idle ∨ around.cancelled = true) :
    let call := a.analyzeProject around
    let other := { a with checks }.analyzeProject around
    call.outcome = other.outcome ∧
      call.analyzer.findings.single = other.analyzer.findings.single ∧
      call.analyzer.findings.project = other.analyzer.findings.project ∧
      call.analyzer.fixes = other.analyzer.fixes := by
  intro call other
  by_cases hidle : a.stage = .idle
  · have hcancelled := h.resolve_left (not_not_intro hidle)
    by_cases hnone : a.analysable = []
    · have hcall : call = a.analyze around [] [] false := by
        show a.analyze around a.analysable a.analysable false = _
        rw [hnone]
      have hother : other = { a with checks }.analyze around [] [] false := by
        show { a with checks }.analyze around a.analysable a.analysable false = _
        rw [hnone]
      obtain ⟨hok, hsingle, hproject, hfixes⟩ := analyze_nothing false hidle hcancelled
      obtain ⟨hok', hsingle', hproject', hfixes'⟩ :=
        @analyze_nothing { a with checks } false around hidle hcancelled
      rw [hcall, hother]
      exact ⟨hok.trans hok'.symm, hsingle.trans hsingle'.symm, hproject.trans hproject'.symm,
        hfixes.trans hfixes'.symm⟩
    · have hstop : (around.cancelled && !a.analysable.isEmpty) = true := by
        rw [hcancelled, List.isEmpty_eq_false_iff.2 hnone]
        rfl
      obtain ⟨hok, hfindings, hfixes⟩ : _ ∧ call.analyzer.findings = a.findings ∧ _ :=
        analyze_stopped hidle hstop
      obtain ⟨hok', hfindings', hfixes'⟩ : _ ∧ other.analyzer.findings = a.findings ∧ _ :=
        @analyze_stopped { a with checks } around _ _ _ hidle hstop
      rw [hfindings, hfindings']
      exact ⟨hok.trans hok'.symm, rfl, rfl, hfixes.trans hfixes'.symm⟩
  · -- an analyzer that was run before does nothing
    have hcall : call = ⟨.error alreadyRun, a, around⟩ := if_pos hidle
    have hother : other = ⟨.error alreadyRun, { a with checks }, around⟩ := if_pos hidle
    rw [hcall, hother]
    exact ⟨rfl, rfl, rfl, rfl⟩

section Apart

variable {a : Analyzer} {k : Check} (hk : k ∈ a.checks)
  (hcodes : a.checks.Pairwise fun k l => Distinguishable k.info.code l.info.code)
  (hinternal : ∀ l ∈ a.checks, l.info.code ≠ internalErrorCode)
include hk hcodes hinternal

theorem setApart_slots : SetApart k.info.code a.slots := by
  intro s hs hother
  have hl := check_mem_of_slots hs
  have hne : k ≠ s.check := by
    rintro rfl
    exact hother (decide_eq_true rfl)
  exact ⟨hcodes.forall hk hl hne, hinternal k hk, hinternal _ hl⟩

theorem share_raisedInFiles (paths toParse : List Text) :
    (a.raisedInFiles paths toParse).share k.info.code =
      ({ a with checks := [k] }.raisedInFiles paths toParse).share k.info.code := by
  unfold raisedInFiles
  rw [share_raisedAcross _ _ _ (setApart_slots hk hcodes hinternal), filter_slots hk hcodes]
  rfl

theorem share_raisedOnProject (paths toParse : List Text) :
    (a.raisedOnProject paths toParse).share k.info.code =
      ({ a with checks := [k] }.raisedOnProject paths toParse).share k.info.code := by
  have hvisited := Slot.check_visitedAll (a.files paths toParse)
  unfold raisedOnProject slotsAfter
  rw [share_raisedOn _ _ _ ((setApart_slots hk hcodes hinternal).map hvisited),
    filter_isOf_map hvisited, filter_slots hk hcodes]
  rfl

end Apart

/-- **Checks do not interfere with each other.**  Let checks that never cancel a run analyse a project
together, whatever they keep in mind and however they break down.  The codes of any two are told apart in
messages of breakdowns, and none is the code of breakdowns.  Then the analysis succeeds exactly if it
does so with one of the checks alone, and of this check there are the same offenses, the same breakdowns
that name it and the same fixes, in the same order, in files and on the project. -/
theorem checks_independent {a : Analyzer} {k : Check} (hk : k ∈ a.checks)
    (hcodes : a.checks.Pairwise fun k l => Distinguishable k.info.code l.info.code)
    (hinternal : ∀ l ∈ a.checks, l.info.code ≠ internalErrorCode)
    (hcancels : ∀ l ∈ a.checks, l.NeverCancels) (around : Surroundings) :
    let c := k.info.code
    let together := a.analyzeProject around
    let alone := { a with checks := [k] }.analyzeProject around
    let found := together.analyzer.findings
    let foundAlone := alone.analyzer.findings
    together.outcome = alone.outcome ∧
      found.single.filter (·.code = c) = foundAlone.single.filter (·.code = c) ∧
      found.project.filter (·.code = c) = foundAlone.project.filter (·.code = c) ∧
      found.single.filter (Names c ·) = foundAlone.single.filter (Names c ·) ∧
      found.project.filter (Names c ·) = foundAlone.project.filter (Names c ·) ∧
      together.analyzer.fixes.filter (·.code = c) = alone.analyzer.fixes.filter (·.code = c) := by
  intro c together alone found foundAlone
  by_cases hstarts : a.stage ≠ .idle ∨ around.cancelled = true
  · obtain ⟨hok, hsingle, hproject, hfixes⟩ := analyzeProject_unstarted a [k] hstarts
    have hsingle : found.single = foundAlone.single := hsingle
    have hproject : found.project = foundAlone.project := hproject
    have hfixes : together.analyzer.fixes = alone.analyzer.fixes := hfixes
    rw [hsingle, hproject, hfixes]
    exact ⟨hok, rfl, rfl, rfl, rfl, rfl⟩
  · rw [not_or, not_not, Bool.not_eq_true] at hstarts
    obtain ⟨hidle, hlive⟩ := hstarts
    obtain ⟨hok, hsingle, hproject, hfixes⟩ :=
      analyze_live a.analysable a.analysable false hidle hlive hcancels
    obtain ⟨hokAlone, hsingleAlone, hprojectAlone, hfixesAlone⟩ :=
      @analyze_live { a with checks := [k] } a.analysable a.analysable false around hidle hlive
        fun l hl => hcancels l (List.mem_singleton.1 hl ▸ hk)
    obtain ⟨hown, hnamed, hownFixes⟩ :=
      Share.mk.inj (share_raisedInFiles hk hcodes hinternal a.analysable a.analysable)
    obtain ⟨hownProject, hnamedProject, hprojectFixes⟩ :=
      Share.mk.inj (share_raisedOnProject hk hcodes hinternal a.analysable a.analysable)
    have hsingle : found.single = _ := hsingle
    have hproject : found.project = _ := hproject
    have hfixes : together.analyzer.fixes = _ := hfixes
    have hsingleAlone : foundAlone.single = _ := hsingleAlone
    have hprojectAlone : foundAlone.project = _ := hprojectAlone
    have hfixesAlone : alone.analyzer.fixes = _ := hfixesAlone
    rw [hsingle, hproject, hfixes, hsingleAlone, hprojectAlone, hfixesAlone, List.filter_append,
      List.filter_append, List.filter_append, List.filter_append, List.filter_append,
      List.filter_append, hown, hnamed, hownFixes]
    exact ⟨hok.trans hokAlone.symm, rfl, hownProject, rfl, hnamedProject, congrArg _ hprojectFixes⟩

/-! ## Checks that break down -/

/-- A check of queries that breaks down in every file. -/
def crashing (code : Text) : Check :=
  { info := { code, severity := .error, categories := [.graphql] }
    onVisit := fun _ _ => { effects := [.report { message := "seen" }], crash := some "boom" } }

/-- A check of queries that reports every file, with a fix. -/
def marking (code : Text) : Check :=
  { info := { code, severity := .error, categories := [.graphql] }
    onVisit := fun _ _ => .reports [{ message := "found", fix := some [.edit ⟨0, 0⟩ "#"] }] }

theorem neverCancels_crashing (code : Text) : (crashing code).NeverCancels :=
  ⟨fun _ _ => by simp [crashing], nofun⟩

theorem neverCancels_marking (code : Text) : (marking code).NeverCancels :=
  ⟨fun _ _ => by simp [marking, Reaction.reports], nofun⟩

/-- An analysis of one query. -/
def queryWith (checks : List Check) : Analyzer :=
  { snapshot := ⟨⟨[("find.graphql", { content := .loaded "query" })]⟩⟩, checks }

theorem neverCancels_pair {c d : Text} : ∀ l ∈ [marking c, crashing d], l.NeverCancels := by
  intro l hl
  rcases List.mem_cons.1 hl with rfl | hl
  · exact neverCancels_marking c
  · obtain rfl := List.mem_singleton.1 hl
    exact neverCancels_crashing d

/-- An analysis of a query by a check that marks it and one that breaks down. -/
def markBesideCrash : Analyzer := queryWith [marking "Mark", crashing "Crash"]

/-- A check that marks queries does so beside one that breaks down in every file. -/
theorem checks_independent_crash :
    let k := marking "Mark"
    let alone := { markBesideCrash with checks := [k] }
    (markBesideCrash.checks.Pairwise fun k l => Distinguishable k.info.code l.info.code) ∧
      (∀ l ∈ markBesideCrash.checks, l.info.code ≠ internalErrorCode) ∧
      (∀ l ∈ markBesideCrash.checks, l.NeverCancels) ∧
      (markBesideCrash.analyzeProject {}).analyzer.findings.single.map (·.code) =
        ([("Mark" : Text), "Crash", internalErrorCode]) ∧
      (markBesideCrash.analyzeProject {}).analyzer.findings.single.filter (·.code = k.info.code) =
        (alone.analyzeProject {}).analyzer.findings.single.filter (·.code = k.info.code) ∧
      (markBesideCrash.analyzeProject {}).analyzer.fixes.filter (·.code = k.info.code) =
        (alone.analyzeProject {}).analyzer.fixes.filter (·.code = k.info.code) := by
  dsimp only
  have hcodes : markBesideCrash.checks.Pairwise
      fun k l => Distinguishable k.info.code l.info.code :=
    List.pairwise_pair.2 ⟨by decide, by decide⟩
  have hinternal : ∀ l ∈ markBesideCrash.checks, l.info.code ≠ internalErrorCode := by decide
  obtain ⟨-, hsingle, -, -, -, hfixes⟩ := @checks_independent markBesideCrash (marking "Mark")
    (List.mem_cons_self ..) hcodes hinternal neverCancels_pair {}
  exact ⟨hcodes, hinternal, neverCancels_pair, by decide +kernel, hsingle, hfixes⟩

/-- **Codes may be confused with those of breakdowns.**  Beside a check that breaks down, a check with
the code of breakdowns has an offense that it does not have alone; and where the code of the check that
breaks down goes on like the message of a breakdown, a breakdown names a check that does not break
down. -/
theorem breakdowns_confused :
    (let a := queryWith [marking internalErrorCode, crashing "Crash"]
      let alone := queryWith [marking internalErrorCode]
      (a.checks.Pairwise fun k l => k.info.code ≠ l.info.code) ∧ (∀ l ∈ a.checks, l.NeverCancels) ∧
        (a.analyzeProject {}).analyzer.findings.single.filter (·.code = internalErrorCode) ≠
          (alone.analyzeProject {}).analyzer.findings.single.filter (·.code = internalErrorCode)) ∧
      (let a := queryWith [marking "A", crashing "A failed: x"]
        let alone := queryWith [marking "A"]
        (a.checks.Pairwise fun k l => k.info.code ≠ l.info.code) ∧
          (∀ l ∈ a.checks, l.NeverCancels) ∧
          (a.analyzeProject {}).analyzer.findings.single.filter (Names "A" ·) ≠
            (alone.analyzeProject {}).analyzer.findings.single.filter (Names "A" ·)) :=
  ⟨⟨List.pairwise_pair.2 (by decide), neverCancels_pair, by decide +kernel⟩,
    List.pairwise_pair.2 (by decide), neverCancels_pair, by decide +kernel⟩

end Analyzer
end LiquidLint
