import LiquidLint.Proofs.AnalyzerLifecycle
import LiquidLint.Proofs.WriteTurns
import LiquidLint.Run.Basic

/-!
# Corrections that are written back more than once

Corrections may be written back again and again, and what they are written to may change in between.  Each
call makes something of each correction (`fates`), so that every correction has a history of fates
(`history`).  Its marks are what its history says (`Tracks`): a call adds to the history and marks by what it
adds (`Tracks.serve`), and from this follows what the calls of a whole run come to.

A call does not look at the marks of earlier ones.  A correction may be written by one call and overtaken in
another, and then it has both marks (`marks_of_history`); a run, which writes back once, never comes to that.
-/

namespace LiquidLint

open Source Store Analysis

namespace Analyzer

/-! ## Histories -/

/-- Whether the call writes corrections back. -/
def Request.writes : Request → Bool
  | write .. => true
  | analyzeProject _ | analyzeFiles .. | correct _ | result => false

/-- What a call makes of the corrections, in their order; it makes nothing of them if it does not write them
back or is cancelled. -/
def fates (a : Analyzer) : Request → List Fate
  | @Request.write _ _ around store =>
    match a.corrections with
    | none => []
    | some cs =>
      if a.stage ≠ .done || (around.cancelled && cs.any (·.changed)) then []
      else (turns store cs).map Turn.fate
  | .analyzeProject _ | .analyzeFiles .. | .correct _ | .result => []

/-- What the calls make of the correction at a place, one after the other. -/
def history (a : Analyzer) (place : Nat) : List Request → List Fate
  | [] => []
  | r :: rest => (a.fates r)[place]?.toList ++ history (a.serve r).2 place rest

/-- Only a call that writes back adds to a history. -/
theorem length_history_le (a : Analyzer) (place : Nat) (requests : List Request) :
    (a.history place requests).length ≤ requests.countP (·.writes) := by
  induction requests generalizing a with
  | nil => exact Nat.le_refl 0
  | cons r rest ih =>
    have hone : (a.fates r)[place]?.toList.length ≤ if r.writes then 1 else 0 := by
      cases r with
      | write around store =>
        cases (a.fates (.write around store))[place]? with
        | none => exact Nat.zero_le 1
        | some fate => exact Nat.le_refl 1
      | analyzeProject _ => exact Nat.le_refl 0
      | analyzeFiles _ _ _ => exact Nat.le_refl 0
      | correct _ => exact Nat.le_refl 0
      | result => exact Nat.le_refl 0
    have hrest := ih (a.serve r).2
    rw [history, List.length_append, List.countP_cons]
    omega

/-! ## Marks -/

/-- The marks of a correction with a history: it is marked as written if it was written once, and as skipped
if it was overtaken once. -/
def Fate.marks (fates : List Fate) : Bool × Text :=
  (fates.contains written, if fates.any isOvertaken then overtakenReason else [])

/-- **One more fate** marks the correction as one more fate of its history does. -/
theorem Fate.marks_concat {c : Correction} {fates : List Fate} (h : c.marks = marks fates) (fate : Fate) :
    (fate.mark c).marks = marks (fates ++ [fate]) := by
  obtain ⟨hwritten, hskipped⟩ := Prod.mk.inj h
  refine Prod.ext ?_ ?_
  · show (c.written || fate = written) = (fates ++ [fate]).contains written
    rw [hwritten, List.contains_append, List.contains_cons, List.contains_nil, Bool.or_false]
    exact congrArg _ (decide_eq_decide.2 eq_comm)
  · show (if fate.isOvertaken then overtakenReason else c.skipped) =
      if (fates ++ [fate]).any isOvertaken then overtakenReason else []
    rw [hskipped, List.any_append, List.any_cons, List.any_nil, Bool.or_false]
    cases fate.isOvertaken with
    | true => rw [Bool.or_true, if_pos rfl, if_pos rfl]
    | false => rw [Bool.or_false, if_neg Bool.false_ne_true]

/-- The marks of the corrections are what their histories say. -/
structure Tracks (a : Analyzer) (told : (place : Nat) → List Fate) : Prop where
  early : a.corrections = none → ∀ place, told place = []
  marks : ∀ {cs}, a.corrections = some cs → ∀ {place c}, cs[place]? = some c →
    c.marks = Fate.marks (told place)

theorem corrections_analyze (a : Analyzer) (around : Surroundings) (paths toParse : List Text)
    (onlySingle : Bool) :
    (a.analyze around paths toParse onlySingle).analyzer.corrections = a.corrections := by
  by_cases hidle : a.stage = .idle
  · exact (analyze_of_idle around hidle paths toParse onlySingle).2
  · rw [analyze_of_not_idle around hidle]

/-- An analyzer that has corrected does not do so again. -/
theorem correct_of_corrected {a : Analyzer} (h : a.corrections ≠ none) (around : Surroundings) :
    (a.correct around).analyzer = a := by
  unfold correct
  split
  · rfl
  · rw [if_pos (Option.isSome_iff_ne_none.2 h)]

namespace Tracks

variable {a : Analyzer} {told : Nat → List Fate}

theorem of_new (hnew : a.corrections = none) : a.Tracks fun _ => [] :=
  ⟨fun _ _ => rfl, fun hcs => nomatch hnew.symm.trans hcs⟩

/-- What keeps the corrections and makes nothing of them keeps their marks. -/
theorem of_kept (h : a.Tracks told) {b : Analyzer} (hb : b.corrections = a.corrections) :
    b.Tracks fun place => told place ++ ([] : List Fate)[place]?.toList := by
  have hsame : (fun place => told place ++ ([] : List Fate)[place]?.toList) = told :=
    funext fun place => List.append_nil (told place)
  rw [hsame]
  exact ⟨fun hnone => h.early (hb ▸ hnone), fun hcs => h.marks (hb ▸ hcs)⟩

/-- **Writing back** adds a fate to the history of each correction, and marks the correction by it. -/
theorem write (h : a.Tracks told) {σ : Type} [Storage σ] (around : Surroundings) (store : σ) :
    (a.writeCorrections around store).2.2.1.Tracks fun place =>
      told place ++ (a.fates (.write around store))[place]?.toList := by
  unfold writeCorrections fates
  cases hcs : a.corrections with
  | none =>
    dsimp only
    split
    · exact h.of_kept rfl
    · exact h.of_kept rfl
  | some cs =>
    dsimp only
    by_cases hdone : a.stage = .done
    · rw [if_neg (not_not_intro hdone)]
      by_cases hstop : (around.cancelled && cs.any (·.changed)) = true
      · rw [if_pos hstop, if_pos (Bool.or_eq_true_iff.2 (.inr hstop))]
        exact h.of_kept rfl
      · have hgo : ¬ (decide (a.stage ≠ .done) || (around.cancelled && cs.any (·.changed))) = true := by
          rw [Bool.or_eq_true, decide_eq_true_iff, not_or]
          exact ⟨not_not_intro hdone, hstop⟩
        rw [if_neg hstop, if_neg hgo]
        dsimp only
        rw [(writeAll_turns store cs).1]
        refine ⟨nofun, fun hmarked place c hc => ?_⟩
        obtain rfl := Option.some.inj hmarked
        rw [List.getElem?_map] at hc
        obtain ⟨t, ht, rfl⟩ := Option.map_eq_some_iff.1 hc
        have hplace : cs[place]? = some t.correction := by
          conv_lhs => rw [← map_correction_turns store cs]
          rw [List.getElem?_map, ht]
          rfl
        rw [List.getElem?_map, ht]
        exact Fate.marks_concat (h.marks hcs hplace) t.fate
    · rw [if_pos hdone, if_pos (Bool.or_eq_true_iff.2 (.inl (decide_eq_true hdone)))]
      exact h.of_kept rfl

/-- **One call** adds to the histories, and marks by what it adds. -/
theorem serve (h : a.Tracks told) (r : Request) :
    (a.serve r).2.Tracks fun place => told place ++ (a.fates r)[place]?.toList := by
  cases r with
  | analyzeProject around => exact h.of_kept (a.corrections_analyze ..)
  | analyzeFiles around paths onlySingle => exact h.of_kept (a.corrections_analyze ..)
  | correct around =>
    by_cases hnew : a.corrections = none
    · -- what was corrected just now has no history yet
      refine ⟨fun _ place => ?_, fun {cs} hcs {place c} hc => ?_⟩
      · rw [h.early hnew place]
        rfl
      · rw [h.early hnew place, (fresh_of_correct hnew hcs).2.2.2 c (List.mem_of_getElem? hc)]
        rfl
    · exact h.of_kept (congrArg corrections (correct_of_corrected hnew around))
  | write around store => exact h.write around store
  | result => exact h.of_kept rfl

/-- **The calls of a run** add up. -/
theorem after (h : a.Tracks told) (requests : List Request) :
    (a.after requests).Tracks fun place => told place ++ a.history place requests := by
  induction requests generalizing a told with
  | nil =>
    have hsame : (fun place => told place ++ a.history place []) = told :=
      funext fun place => List.append_nil (told place)
    rw [hsame]
    exact h
  | cons r rest ih =>
    have hrest := ih (h.serve r)
    have hsame : (fun place => told place ++ (a.fates r)[place]?.toList ++ (a.serve r).2.history place rest) =
        fun place => told place ++ a.history place (r :: rest) :=
      funext fun place => List.append_assoc ..
    exact hsame ▸ hrest

end Tracks

end Analyzer

/-! ## Both marks -/

/-- The correction is not marked as written and as skipped. -/
def Correction.Apart (c : Correction) : Prop := ¬ (c.written = true ∧ c.skipped ≠ [])

/-- **Where no correction has both marks**, those that count as written and those that count as skipped are
no more than there are. -/
theorem Run.Result.counts_le {r : Run.Result} (h : ∀ c ∈ r.corrections, c.Apart) :
    r.tallyStats.filesCorrected + r.tallyStats.filesSkipped ≤ r.corrections.length := by
  have hskipped : r.corrections.countP (fun c => !c.skipped.isEmpty) ≤
      r.corrections.countP fun c => ¬ c.written = true := by
    refine List.countP_mono_left fun c hc hskipped => decide_eq_true fun hwritten =>
      h c hc ⟨hwritten, fun hnil => ?_⟩
    rw [hnil] at hskipped
    exact nomatch hskipped
  have hall := r.corrections.length_eq_countP_add_countP (·.written)
  have hwritten : (r.corrections.filter (·.written)).length = r.corrections.countP (·.written) :=
    List.countP_eq_length_filter.symm
  show ((r.corrections.filter (·.written)).length : Int) +
    (r.corrections.countP fun c => !c.skipped.isEmpty : Nat) ≤ r.corrections.length
  omega

namespace Analyzer

variable {a : Analyzer} {requests : List Request} {cs : List Correction} {place : Nat} {c : Correction}

/-- The marks of a correction tell its history. -/
theorem marks_after (hnew : a.corrections = none) (hcs : (a.after requests).corrections = some cs)
    (hc : cs[place]? = some c) :
    (c.written = true ↔ Fate.written ∈ a.history place requests) ∧
      (c.skipped ≠ [] ↔ ∃ current, Fate.overtaken current ∈ a.history place requests) := by
  obtain ⟨hwritten, hskipped⟩ := Prod.mk.inj (((Tracks.of_new hnew).after requests).marks hcs hc)
  rw [hwritten, hskipped]
  refine ⟨List.contains_iff_mem, ⟨fun hany => ?_, fun ⟨current, hmem⟩ => ?_⟩⟩
  · by_contra hnone
    refine hany (if_neg fun htrue => hnone ?_)
    obtain ⟨fate, hmem, hfate⟩ := List.any_eq_true.1 htrue
    cases fate with
    | overtaken current => exact ⟨current, hmem⟩
    | idle | unread _ | refused _ | written => exact nomatch hfate
  · have htrue : (a.history place requests).any Fate.isOvertaken = true :=
      List.any_eq_true.2 ⟨_, hmem, rfl⟩
    rw [List.nil_append, if_pos htrue]
    exact List.cons_ne_nil _ _

/-- **A single call that writes back** leaves no correction with both marks. -/
theorem apart_of_once (hnew : a.corrections = none) (honce : requests.countP (·.writes) ≤ 1)
    (hcs : (a.after requests).corrections = some cs) (hc : cs[place]? = some c) : c.Apart := by
  obtain ⟨hwritten, hskipped⟩ := marks_after hnew hcs hc
  intro ⟨h, h'⟩
  obtain ⟨current, hovertaken⟩ := hskipped.1 h'
  have hlength := Nat.le_trans (a.length_history_le place requests) honce
  -- one fate cannot be both
  match hhistory : a.history place requests with
  | [] =>
    rw [hhistory] at hovertaken
    exact nomatch hovertaken
  | [fate] =>
    have hfirst := List.mem_singleton.1 (hhistory ▸ hwritten.1 h)
    have hsecond := List.mem_singleton.1 (hhistory ▸ hovertaken)
    exact nomatch hfirst.trans hsecond.symm
  | _ :: _ :: _ =>
    rw [hhistory] at hlength
    exact nomatch Nat.le_of_succ_le_succ hlength

end Analyzer

namespace Run

open Analyzer

variable {σ : Type} [Storage σ]

theorem Plan.corrections_analyze {p : Plan} {s : Snapshot} {targets : Option (List Text)}
    {around after : Surroundings} {a : Analyzer} (h : p.analyze s targets around = (.ok a, after)) :
    a.corrections = none := by
  unfold Plan.analyze at h
  cases targets with
  | none | some _ =>
    dsimp only at h
    split at h
    · obtain ⟨hok, -⟩ := Prod.mk.inj h
      rw [← Except.ok.inj hok]
      exact (p.analyzerOf s).corrections_analyze ..
    · cases (Prod.mk.inj h).1

/-- A run corrects with a new analyzer, and writes back once. -/
theorem Plan.apart_correct {p : Plan} {a : Analyzer} (hnew : a.corrections = none) {r r' : Result}
    {store store' : σ} {around after : Surroundings}
    (h : p.correct a r store around = (.ok r', store', after)) : ∀ c ∈ r'.corrections, c.Apart := by
  have hapart (requests : List Request) (honce : requests.countP (·.writes) ≤ 1) :
      ∀ c ∈ (a.after requests).corrections.getD [], c.Apart := by
    intro c hc
    cases hcs : (a.after requests).corrections with
    | none =>
      rw [hcs] at hc
      exact nomatch hc
    | some cs =>
      rw [hcs] at hc
      obtain ⟨place, hplace⟩ := List.mem_iff_getElem?.1 hc
      exact apart_of_once hnew honce hcs hplace
  have hshown := hapart [.correct around] (Nat.zero_le 1)
  have hwritten := hapart [.correct around, .write (a.correct around).around store] (Nat.le_refl 1)
  unfold Plan.correct at h
  dsimp only at h
  split at h
  · exact nomatch (Prod.mk.inj h).1
  · split at h
    · obtain rfl := Except.ok.inj (Prod.mk.inj h).1
      exact hshown
    · split at h
      · obtain rfl := Except.ok.inj (Prod.mk.inj h).1
        exact hwritten
      · split at h
        · exact nomatch (Prod.mk.inj h).1
        · obtain rfl := Except.ok.inj (Prod.mk.inj h).1
          exact hwritten

theorem Plan.corrections_again {p : Plan} {targets : Option (List Text)} {r r' : Result} {store store' : σ}
    {around after : Surroundings} (h : p.again targets r store around = (.ok r', store', after)) :
    r'.corrections = r.corrections := by
  unfold Plan.again at h
  split at h
  · obtain rfl := Except.ok.inj (Prod.mk.inj h).1
    rfl
  · dsimp only at h
    split at h
    · exact nomatch (Prod.mk.inj h).1
    · obtain rfl := Except.ok.inj (Prod.mk.inj h).1
      rfl

theorem Plan.apart_run {p : Plan} {store store' : σ} {around after : Surroundings} {r : Result}
    (h : p.run store around = (.ok r, store', after)) :
    ∃ first : Result, (∀ c ∈ first.corrections, c.Apart) ∧ r = first.tally p.options.failLevel := by
  unfold Plan.run at h
  dsimp only at h
  split at h
  · exact nomatch (Prod.mk.inj h).1
  · split at h
    · exact nomatch (Prod.mk.inj h).1
    · rename_i a _ hanalyze
      split at h
      · exact nomatch (Prod.mk.inj h).1
      · rename_i last _ _ hcorrected
        refine ⟨last, ?_, (Except.ok.inj (Prod.mk.inj h).1).symm⟩
        split at hcorrected
        · split at hcorrected
          · exact nomatch (Prod.mk.inj hcorrected).1
          · rename_i hcorrect
            rw [Plan.corrections_again hcorrected]
            exact Plan.apart_correct (Plan.corrections_analyze hanalyze) hcorrect
        · obtain rfl := Except.ok.inj (Prod.mk.inj hcorrected).1
          exact fun c hc => nomatch hc

/-- **No correction of a run has both marks**, and its numbers count none of them twice. -/
theorem apart_run {o : Options} {store : σ} {around : Surroundings} {r : Result}
    (h : (run o store around).1 = .ok r) :
    (∀ c ∈ r.corrections, c.Apart) ∧
      r.stats.filesCorrected + r.stats.filesSkipped ≤ r.corrections.length := by
  unfold run at h
  split at h
  · exact nomatch h
  · rename_i p _
    cases hrun : p.run store { around with log := [] } with
    | mk outcome rest =>
      rw [hrun] at h
      obtain rfl : outcome = .ok r := h
      obtain ⟨first, hapart, rfl⟩ := Plan.apart_run hrun
      exact ⟨hapart, Result.counts_le hapart⟩

end Run

namespace Analyzer

/-- **When a correction has both marks.**  Whatever calls are made to a new analyzer, each call that writes
back to a storage of its own, a correction is marked as written and as skipped exactly if one of the calls
has written it and another one has found its path changed.  That takes two calls which write back.  A run
makes one at most, so none of its corrections has both marks and its numbers count none of them twice. -/
theorem both_marks_iff {a : Analyzer} (hnew : a.corrections = none) (requests : List Request) :
    (∀ cs, (a.after requests).corrections = some cs → ∀ place c, cs[place]? = some c →
        (c.written = true ∧ c.skipped ≠ [] ↔ Fate.written ∈ a.history place requests ∧
          ∃ current, Fate.overtaken current ∈ a.history place requests) ∧
        (requests.countP (·.writes) ≤ 1 → c.Apart)) ∧
      ∀ {σ : Type} [Storage σ] (o : Run.Options) (store : σ) (around : Surroundings) (r : Run.Result),
        (Run.run o store around).1 = .ok r → (∀ c ∈ r.corrections, c.Apart) ∧
          r.stats.filesCorrected + r.stats.filesSkipped ≤ r.corrections.length := by
  refine ⟨fun cs hcs place c hc => ⟨?_, fun honce => apart_of_once hnew honce hcs hc⟩,
    fun o store around r h => Run.apart_run h⟩
  obtain ⟨hwritten, hskipped⟩ := marks_after hnew hcs hc
  exact and_congr hwritten hskipped

/-- The analysis of one query, which gets a mark. -/
def singleQuery : Analyzer :=
  { snapshot := .ofContents [("app/graphql/a.graphql", "a")], checks := [marksQueries] }

/-- The file of the query. -/
def singleFile : MemoryStore := ⟨.ofList [("app/graphql/a.graphql", "a")]⟩

/-- A run that marks queries. -/
def markingRun : Run.Options :=
  { root := "/p", config := { Config.standard with fix := true }, registry := .ofList [marksQueries] }

/-- The query is written, and then another text is found at its path.  A run writes it once. -/
theorem both_marks_iff_query :
    let requests : List Request := [.analyzeProject {}, .correct {}, .write {} singleFile,
      .write {} (⟨.ofList [("app/graphql/a.graphql", "b")]⟩ : MemoryStore)]
    singleQuery.corrections = none ∧
      (∃ cs c, (singleQuery.after requests).corrections = some cs ∧ cs[0]? = some c ∧
        singleQuery.history 0 requests = [.written, .overtaken "b"] ∧ c.written = true ∧ c.skipped ≠ []) ∧
      ∃ r, (Run.run markingRun singleFile {}).1 = .ok r ∧ r.stats.filesCorrected = 1 ∧
        ∀ c ∈ r.corrections, c.Apart := by
  intro requests
  have hnew : singleQuery.corrections = none := rfl
  obtain ⟨hmarks, hrun⟩ := both_marks_iff hnew requests
  refine ⟨hnew, ?_, ?_⟩
  · obtain ⟨hsome, hhistory⟩ : ((singleQuery.after requests).corrections.bind (·[0]?)).isSome = true ∧
        singleQuery.history 0 requests = [.written, .overtaken "b"] := by
      decide +kernel
    obtain ⟨c, hc⟩ := Option.isSome_iff_exists.1 hsome
    obtain ⟨cs, hcs, hc⟩ := Option.bind_eq_some_iff.1 hc
    have hboth := (hmarks cs hcs 0 c hc).1.2
    rw [hhistory] at hboth
    exact ⟨cs, c, hcs, hc, hhistory,
      hboth ⟨List.mem_cons_self .., "b", List.mem_cons_of_mem _ (List.mem_cons_self ..)⟩⟩
  · have hcorrected : (Run.run markingRun singleFile {}).1.toOption.map (·.stats.filesCorrected) = some 1 := by
      decide +kernel
    obtain ⟨r, hr, hcount⟩ := Option.map_eq_some_iff.1 hcorrected
    cases hok : (Run.run markingRun singleFile {}).1 with
    | error f =>
      rw [hok] at hr
      exact nomatch hr
    | ok r' =>
      rw [hok] at hr
      obtain rfl := Option.some.inj hr
      exact ⟨r', rfl, hcount, (hrun markingRun singleFile {} r' hok).1⟩

/-- **Writing back twice** to a storage that nothing else changes marks the correction as written and as
skipped: the second call takes what the first has written for a change. -/
theorem both_marks_retried :
    let first := (singleQuery.after [.analyzeProject {}, .correct {}]).writeCorrections {} singleFile
    let second := first.2.2.1.writeCorrections {} first.2.2.2.2
    first.1 = [("app/graphql/a.graphql" : Text)] ∧ first.2.1 = none ∧ second.1 = [] ∧ second.2.1 = none ∧
      ∃ c ∈ second.2.2.1.corrections.getD [], c.written = true ∧ c.skipped ≠ [] := by
  decide +kernel

end Analyzer
end LiquidLint
