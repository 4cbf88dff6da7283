import LiquidLint.Proofs.CompleteRuns
import LiquidLint.Store.Memory

/-!
# The life of an analyzer

An analyzer is made for one analysis.  A user may call it in any order, each time in surroundings that may
be cancelled before the call or by a check in the middle of it, and the analyzer keeps the order itself: it
is idle up to its first analysis and done from then on, however that analysis ended, and it corrects once
(`Life`).

What a call does is told by where the analyzer stands in its life (`At.serve`): whether it goes ahead or is
refused, where it leaves the analyzer, and that what was found stays as it is once there was an analysis.  So
the calls of a whole run are told by going through them one by one (`ledger`, `lifecycle`).
-/

namespace LiquidLint

open Source Store Analysis

namespace Analyzer

/-! ## Calls and answers -/

/-- A call of an analyzer with what it is given, its surroundings first. -/
inductive Request where
  | analyzeProject (around : Surroundings)
  | analyzeFiles (around : Surroundings) (paths : List Text) (onlySingle : Bool)
  | correct (around : Surroundings)
  /-- Writes the corrections to a storage of any kind. -/
  | write {σ : Type} [Storage σ] (around : Surroundings) (store : σ)
  | result

namespace Request

/-- Whether the call asks for an analysis. -/
def analyzes : Request → Bool
  | analyzeProject _ | analyzeFiles .. => true
  | correct _ | write .. | result => false

/-- Whether the call asks for corrections. -/
def corrects : Request → Bool
  | correct _ => true
  | analyzeProject _ | analyzeFiles .. | write .. | result => false

end Request

/-- What a call answers. -/
inductive Answer where
  /-- An analysis or a correction came to its end. -/
  | ended (outcome : Except Failure Unit)
  /-- These paths were written, and this went wrong. -/
  | wrote (paths : List Text) (failure : Option Failure)
  /-- The findings were handed out, or not. -/
  | handedOut (findings : Except Failure Findings)

/-- Whether the answer is the failure `f` of an analysis or a correction. -/
def Answer.isFailure (f : Failure) : Answer → Bool
  | ended (.error g) => g = f
  | ended (.ok ()) | wrote .. | handedOut _ => false

/-- Whether the answer is that the call came too early or too late to go ahead. -/
def Answer.isRefusal (answer : Answer) : Bool :=
  answer.isFailure alreadyRun || answer.isFailure notAnalyzed

/-- Makes a call: its answer, and the analyzer after it. -/
def serve (a : Analyzer) : Request → Answer × Analyzer
  | .analyzeProject around =>
    let call := a.analyzeProject around
    (.ended call.outcome, call.analyzer)
  | .analyzeFiles around paths onlySingle =>
    let call := a.analyzeFiles around paths onlySingle
    (.ended call.outcome, call.analyzer)
  | .correct around =>
    let call := a.correct around
    (.ended call.outcome, call.analyzer)
  | @Request.write _ _ around store =>
    let w := a.writeCorrections around store
    (.wrote w.1 w.2.1, w.2.2.1)
  | .result => (.handedOut a.result, a)

/-- The analyzer after some calls. -/
def after (a : Analyzer) (requests : List Request) : Analyzer :=
  requests.foldl (fun a r => (a.serve r).2) a

/-- The calls of a run, each with its answer. -/
def ledger (a : Analyzer) : List Request → List (Request × Answer)
  | [] => []
  | r :: rest => (r, (a.serve r).1) :: ledger (a.serve r).2 rest

theorem after_append (a : Analyzer) (requests later : List Request) :
    a.after (requests ++ later) = (a.after requests).after later :=
  List.foldl_append

/-! ## What the calls do -/

section Calls

variable {a : Analyzer} (around : Surroundings)

/-- A cancelled call is not one that was refused. -/
theorem cancelled_ne_refusal (context : Text) :
    Failure.cancelled.within context ≠ alreadyRun ∧ Failure.cancelled.within context ≠ notAnalyzed := by
  have hcauses : (Failure.cancelled.within context).causes = [.cancelled] := rfl
  constructor
  · intro h
    rw [h] at hcauses
    exact nomatch hcauses
  · intro h
    rw [h] at hcauses
    exact nomatch hcauses

/-- **An analyzer that is not idle refuses an analysis** and stays as it is. -/
theorem analyze_of_not_idle (hbusy : a.stage ≠ .idle) (paths toParse : List Text) (onlySingle : Bool) :
    a.analyze around paths toParse onlySingle = ⟨.error alreadyRun, a, around⟩ := by
  unfold analyze
  exact if_pos hbusy

/-- **An idle analyzer goes ahead**: the analysis succeeds or is cancelled, and leaves the corrections
alone. -/
theorem analyze_of_idle (hidle : a.stage = .idle) (paths toParse : List Text) (onlySingle : Bool) :
    let call := a.analyze around paths toParse onlySingle
    (call.outcome = .ok () ∨ ∃ context, call.outcome = .error (Failure.cancelled.within context)) ∧
      call.analyzer.corrections = a.corrections := by
  unfold analyze
  rw [if_neg (not_not_intro hidle)]
  dsimp only
  split
  · exact ⟨.inr ⟨_, rfl⟩, rfl⟩
  · split
    · exact ⟨.inr ⟨_, rfl⟩, rfl⟩
    · split
      · exact ⟨.inl rfl, rfl⟩
      · exact ⟨.inl rfl, rfl⟩

/-- **An analyzer that is done and has not corrected yet goes ahead**: the correction succeeds or is
cancelled, and leaves all but the corrections alone. -/
theorem correct_of_analysed (hdone : a.stage = .done) (hnone : a.corrections = none) :
    let call := a.correct around
    (call.outcome = .ok () ∨ ∃ context, call.outcome = .error (Failure.cancelled.within context)) ∧
      ∃ cs, call.analyzer = { a with corrections := some cs } := by
  unfold correct
  rw [if_neg (not_not_intro hdone), hnone, if_neg (by exact Bool.false_ne_true)]
  dsimp only
  refine ⟨?_, _, rfl⟩
  split
  · exact .inl rfl
  · exact .inr ⟨_, rfl⟩

/-- **Writing changes nothing but the corrections**, if there are any. -/
theorem write_spec {σ : Type} [Storage σ] (store : σ) :
    let after := (a.writeCorrections around store).2.2.1
    after = a ∨ a.corrections.isSome = true ∧ ∃ cs, after = { a with corrections := some cs } := by
  unfold writeCorrections
  split
  · exact .inl rfl
  · cases hcorrections : a.corrections with
    | none => exact .inl rfl
    | some cs =>
      dsimp only
      split
      · exact .inl rfl
      · exact .inr ⟨rfl, _, rfl⟩

end Calls

/-! ## Where an analyzer stands -/

/-- The three ages of an analyzer. -/
inductive Life where
  /-- There was no analysis. -/
  | fresh
  /-- There was an analysis. -/
  | analysed
  /-- There was an analysis, and a correction after it. -/
  | corrected
deriving DecidableEq

/-- The analyzer stands where `life` says. -/
def At (a : Analyzer) : Life → Prop
  | .fresh => a.stage = .idle ∧ a.corrections = none
  | .analysed => a.stage = .done ∧ a.corrections = none
  | .corrected => a.stage = .done ∧ a.corrections.isSome = true

namespace Life

/-- Where a call leads. -/
def next (life : Life) (r : Request) : Life :=
  match life with
  | fresh => if r.analyzes then analysed else fresh
  | analysed => if r.corrects then corrected else analysed
  | corrected => corrected

/-- The first age does not come back. -/
theorem next_ne_fresh {life : Life} (h : life ≠ fresh) (r : Request) : life.next r ≠ fresh := by
  cases life with
  | fresh => exact absurd rfl h
  | analysed =>
    unfold next
    dsimp only
    split <;> exact nofun
  | corrected => exact nofun

/-- **An analyzer leaves its first age with its first analysis.** -/
theorem foldl_next_eq_fresh (requests : List Request) :
    requests.foldl next fresh = fresh ↔ requests.any (·.analyzes) = false := by
  have hlate (life : Life) (hlife : life ≠ fresh) (requests : List Request) :
      requests.foldl next life ≠ fresh := by
    induction requests generalizing life with
    | nil => exact hlife
    | cons r rest ih => exact ih _ (next_ne_fresh hlife r)
  induction requests with
  | nil => exact iff_of_true rfl rfl
  | cons r rest ih =>
    rw [List.foldl_cons, List.any_cons]
    by_cases hr : r.analyzes = true
    · rw [show fresh.next r = analysed from if_pos hr, hr]
      exact iff_of_false (hlate analysed nofun rest) nofun
    · rw [show fresh.next r = fresh from if_neg hr, Bool.eq_false_iff.2 hr, Bool.false_or]
      exact ih

end Life

namespace At

variable {a : Analyzer} {life : Life}

theorem stage_eq (h : a.At life) : a.stage = if life = .fresh then .idle else .done := by
  cases life with
  | fresh => exact h.1
  | analysed => exact h.1
  | corrected => exact h.1

/-- An analyzer whose corrections alone have changed, and which had some, stands where it stood. -/
theorem of_corrections {cs : List Correction} (h : a.At life) (hsome : a.corrections.isSome = true) :
    ({ a with corrections := some cs } : Analyzer).At life := by
  cases life with
  | fresh => exact absurd hsome (by rw [h.2]; exact Bool.false_ne_true)
  | analysed => exact absurd hsome (by rw [h.2]; exact Bool.false_ne_true)
  | corrected => exact ⟨h.1, rfl⟩

/-- **An analysis goes ahead once.** -/
theorem analyze (h : a.At life) (around : Surroundings) (paths toParse : List Text) (onlySingle : Bool) :
    let call := a.analyze around paths toParse onlySingle
    call.analyzer.At (if life = .fresh then .analysed else life) ∧
      (life ≠ .fresh → call.outcome = .error alreadyRun ∧ call.analyzer = a) ∧
      (life = .fresh → (Answer.ended call.outcome).isRefusal = false) := by
  by_cases hfresh : life = .fresh
  · subst hfresh
    obtain ⟨hidle, hnone⟩ := h
    obtain ⟨houtcome, hkept⟩ := analyze_of_idle around hidle paths toParse onlySingle
    refine ⟨⟨stage_analyze paths toParse around onlySingle hidle, hkept.trans hnone⟩,
      fun h => absurd rfl h, fun _ => ?_⟩
    rcases houtcome with hok | ⟨context, hcancelled⟩
    · rw [hok]
      rfl
    · obtain ⟨hrun, hearly⟩ := cancelled_ne_refusal context
      rw [hcancelled]
      exact Bool.or_eq_false_iff.2 ⟨decide_eq_false hrun, decide_eq_false hearly⟩
  · have hbusy : a.stage ≠ .idle := by
      rw [h.stage_eq, if_neg hfresh]
      exact nofun
    rw [analyze_of_not_idle around hbusy, if_neg hfresh]
    exact ⟨h, fun _ => ⟨rfl, rfl⟩, fun h => absurd h hfresh⟩

/-- **A correction goes ahead once**, after the analysis. -/
theorem correct (h : a.At life) (around : Surroundings) :
    let call := a.correct around
    call.analyzer.At (life.next (.correct around)) ∧
      (Answer.ended call.outcome).isRefusal = !decide (life = .analysed) ∧
      call.analyzer.findings = a.findings := by
  cases life with
  | fresh =>
    unfold Analyzer.correct
    rw [if_pos (by rw [h.1]; exact nofun)]
    exact ⟨h, rfl, rfl⟩
  | analysed =>
    obtain ⟨hdone, hnone⟩ := h
    obtain ⟨houtcome, cs, hanalyzer⟩ := correct_of_analysed around hdone hnone
    dsimp only
    rw [hanalyzer]
    refine ⟨⟨hdone, rfl⟩, ?_, rfl⟩
    rcases houtcome with hok | ⟨context, hcancelled⟩
    · rw [hok]
      rfl
    · obtain ⟨hrun, hearly⟩ := cancelled_ne_refusal context
      rw [hcancelled]
      exact Bool.or_eq_false_iff.2 ⟨decide_eq_false hrun, decide_eq_false hearly⟩
  | corrected =>
    unfold Analyzer.correct
    rw [if_neg (not_not_intro h.1), if_pos h.2]
    exact ⟨h, rfl, rfl⟩

/-- **What a call does**, by where the analyzer stands. -/
theorem serve (h : a.At life) (r : Request) :
    (a.serve r).2.At (life.next r) ∧
      (life ≠ .fresh → (a.serve r).2.findings = a.findings) ∧
      (r.analyzes = true → (a.serve r).1.isFailure alreadyRun = !decide (life = .fresh)) ∧
      (r.corrects = true → (a.serve r).1.isRefusal = !decide (life = .analysed)) := by
  have hanalysis (around : Surroundings) (paths toParse : List Text) (onlySingle : Bool)
      (hnext : life.next r = if life = .fresh then .analysed else life) :
      let call := a.analyze around paths toParse onlySingle
      call.analyzer.At (life.next r) ∧ (life ≠ .fresh → call.analyzer.findings = a.findings) ∧
        (Answer.ended call.outcome).isFailure alreadyRun = !decide (life = .fresh) := by
    obtain ⟨hat, hrefused, hahead⟩ := h.analyze around paths toParse onlySingle
    refine ⟨hnext ▸ hat, fun hlate => by rw [(hrefused hlate).2], ?_⟩
    by_cases hfresh : life = .fresh
    · rw [(Bool.or_eq_false_iff.1 (hahead hfresh)).1, decide_eq_true hfresh]
      rfl
    · rw [(hrefused hfresh).1, decide_eq_false hfresh]
      rfl
  cases r with
  | analyzeProject around =>
    obtain ⟨hat, hkept, hanswer⟩ := hanalysis around a.analysable a.analysable false
      (by cases life <;> rfl)
    exact ⟨hat, hkept, fun _ => hanswer, nofun⟩
  | analyzeFiles around paths onlySingle =>
    obtain ⟨hat, hkept, hanswer⟩ := hanalysis around (Text.sortDedup paths) _ onlySingle
      (by cases life <;> rfl)
    exact ⟨hat, hkept, fun _ => hanswer, nofun⟩
  | correct around =>
    obtain ⟨hat, hanswer, hkept⟩ := h.correct around
    exact ⟨hat, fun _ => hkept, nofun, fun _ => hanswer⟩
  | write around store =>
    have hnext : life.next (.write around store) = life := by cases life <;> rfl
    rw [hnext]
    show (a.writeCorrections around store).2.2.1.At life ∧
      (life ≠ .fresh → (a.writeCorrections around store).2.2.1.findings = a.findings) ∧ _
    rcases write_spec (a := a) around store with hsame | ⟨hsome, cs, hafter⟩
    · rw [hsame]
      exact ⟨h, fun _ => rfl, nofun, nofun⟩
    · rw [hafter]
      exact ⟨h.of_corrections hsome, fun _ => rfl, nofun, nofun⟩
  | result => exact ⟨by cases life <;> exact h, fun _ => rfl, nofun, nofun⟩

end At

/-! ## Runs of calls -/

/-- An analysis went ahead. -/
def Ran (told : Request × Answer) : Bool := told.1.analyzes && !told.2.isFailure alreadyRun

/-- A correction went ahead. -/
def Began (told : Request × Answer) : Bool := told.1.corrects && !told.2.isRefusal

section Runs

variable {a : Analyzer} {life : Life}

theorem At.after (h : a.At life) (requests : List Request) :
    (a.after requests).At (requests.foldl Life.next life) := by
  induction requests generalizing a life with
  | nil => exact h
  | cons r rest ih => exact ih (h.serve r).1

/-- **An analysis goes ahead at most once**, and never again where there was one. -/
theorem At.countP_ran (h : a.At life) (requests : List Request) :
    (a.ledger requests).countP Ran ≤ if life = .fresh then 1 else 0 := by
  induction requests generalizing a life with
  | nil => exact Nat.zero_le _
  | cons r rest ih =>
    obtain ⟨hat, -, hanswer, -⟩ := h.serve r
    have hrest := ih hat
    rw [ledger, List.countP_cons]
    by_cases hran : Ran (r, (a.serve r).1) = true
    · -- the call goes ahead, so the analyzer was fresh and is not any more
      obtain ⟨hr, hgo⟩ := Bool.and_eq_true_iff.1 hran
      have hfresh : life = .fresh := by
        rw [hanswer hr, Bool.not_not] at hgo
        exact of_decide_eq_true hgo
      have hnext : life.next r = .analysed := by
        rw [hfresh]
        exact if_pos hr
      rw [hnext, if_neg nofun] at hrest
      rw [if_pos hran, if_pos hfresh]
      omega
    · have hlate : (if life.next r = .fresh then 1 else 0) ≤ if life = .fresh then 1 else 0 := by
        by_cases hfresh : life = .fresh
        · rw [if_pos hfresh]
          split <;> omega
        · rw [if_neg hfresh, if_neg (Life.next_ne_fresh hfresh r)]
      rw [if_neg hran]
      omega

/-- **A correction goes ahead at most once**, and never again where there was one. -/
theorem At.countP_began (h : a.At life) (requests : List Request) :
    (a.ledger requests).countP Began ≤ if life = .corrected then 0 else 1 := by
  induction requests generalizing a life with
  | nil => exact Nat.zero_le _
  | cons r rest ih =>
    obtain ⟨hat, -, -, hanswer⟩ := h.serve r
    have hrest := ih hat
    rw [ledger, List.countP_cons]
    by_cases hbegan : Began (r, (a.serve r).1) = true
    · obtain ⟨hr, hgo⟩ := Bool.and_eq_true_iff.1 hbegan
      have hanalysed : life = .analysed := by
        rw [hanswer hr, Bool.not_not] at hgo
        exact of_decide_eq_true hgo
      subst hanalysed
      rw [show Life.analysed.next r = .corrected from if_pos hr, if_pos rfl] at hrest
      rw [if_pos hbegan, if_neg nofun]
      omega
    · have hlate : (if life.next r = .corrected then 0 else 1) ≤ if life = .corrected then 0 else 1 := by
        by_cases hcorrected : life = .corrected
        · subst hcorrected
          exact Nat.le_refl _
        · rw [if_neg hcorrected]
          split <;> omega
      rw [if_neg hbegan]
      omega

/-- **What an analysis found stays as it is.** -/
theorem At.findings_after (h : a.At life) (hlate : life ≠ .fresh) (requests : List Request) :
    (a.after requests).findings = a.findings := by
  induction requests generalizing a life with
  | nil => rfl
  | cons r rest ih =>
    obtain ⟨hat, hkept, -⟩ := h.serve r
    exact (ih hat (Life.next_ne_fresh hlate r)).trans (hkept hlate)

/-- **The life of an analyzer.**  Whatever calls are made to a new analyzer, at most one analysis goes ahead
and every other one is told that the analyzer has run already; at most one correction goes ahead, and only
after an analysis; between two calls the analyzer is idle up to the first analysis and done from then on;
and once there was an analysis, no call changes what it found. -/
theorem lifecycle (hidle : a.stage = .idle) (hnew : a.corrections = none) (before later : List Request) :
    let requests := before ++ later
    (a.ledger requests).countP Ran ≤ 1 ∧
      (a.ledger requests).countP Began ≤ 1 ∧
      (∀ r, Began (r, ((a.after before).serve r).1) = true → before.any (·.analyzes) = true) ∧
      (a.after before).stage = (if before.any (·.analyzes) then .done else .idle) ∧
      (before.any (·.analyzes) = true → (a.after requests).findings = (a.after before).findings) := by
  have hfresh : a.At .fresh := ⟨hidle, hnew⟩
  have hbefore := hfresh.after before
  refine ⟨hfresh.countP_ran _, hfresh.countP_began _, fun r hbegan => ?_, ?_, fun hany => ?_⟩
  · obtain ⟨hr, hgo⟩ := Bool.and_eq_true_iff.1 hbegan
    rw [(hbefore.serve r).2.2.2 hr, Bool.not_not] at hgo
    by_contra hnone
    rw [(Life.foldl_next_eq_fresh before).2 (Bool.eq_false_iff.2 hnone)] at hgo
    exact nomatch of_decide_eq_true hgo
  · rw [hbefore.stage_eq]
    by_cases hany : before.any (·.analyzes) = true
    · have hlate := (Life.foldl_next_eq_fresh before).not.2 (Bool.not_eq_false _ ▸ hany)
      rw [if_neg hlate, if_pos hany]
    · rw [if_pos ((Life.foldl_next_eq_fresh before).2 (Bool.eq_false_iff.2 hany)), if_neg hany]
  · have hlate := (Life.foldl_next_eq_fresh before).not.2 (Bool.not_eq_false _ ▸ hany)
    rw [after_append]
    exact hbefore.findings_after hlate later

end Runs

/-- A check cancels the run in its only query.  The analysis counts all the same: the next one is refused,
and of the corrections the first comes too early and the last too late. -/
theorem lifecycle_halted :
    let before : List Request := [.result, .correct {}, .analyzeProject {}]
    let later : List Request := [.analyzeFiles {} [] true, .correct {}, .write {} ({} : MemoryStore),
      .correct {}]
    haltedAnalysis.stage = .idle ∧ haltedAnalysis.corrections = none ∧
      (haltedAnalysis.ledger (before ++ later)).map (fun told => (Ran told, Began told)) =
        [(false, false), (false, false), (true, false), (false, false), (false, true), (false, false),
          (false, false)] ∧
      (haltedAnalysis.after before).stage = .done ∧
      (haltedAnalysis.after (before ++ later)).findings = (haltedAnalysis.after before).findings := by
  intro before later
  have hidle : haltedAnalysis.stage = .idle := rfl
  have hnew : haltedAnalysis.corrections = none := rfl
  obtain ⟨-, -, -, hstage, hkept⟩ := lifecycle hidle hnew before later
  exact ⟨hidle, hnew, by decide +kernel, hstage, hkept rfl⟩

end Analyzer
end LiquidLint
