import LiquidLint.Proofs.LeftOutPaths

/-!
# Corrections that are written back

Corrections are written back one after the other.  Each has its turn (`turns`), and what becomes of it is
told by what the storage answers then (`Turn.fate`): it is idle, its path cannot be read or reads differently
than it did for the analysis, the new content is refused, or it is written.  No fate ends the call, so a call
comes to what its turns come to (`writeAll_turns`).

A storage may fail to read or to write any path, and then keeps what it holds (`Storage.View`).  So a turn
changes the content of its path at most, and only if its correction is written (`content_after`).  As the
corrections of an analyzer are for different paths and carry no mark (`fresh_of_correct`), the first call
leaves every file alone that is not as the analysis read it (`changed_files_spared`).
-/

namespace LiquidLint

open Source Store Analysis

/-- What a storage holds, seen from outside.  Reading leaves it as it is.  Writing a path sets the content of
that path and no other one, or fails and leaves everything as it is.  Storages in memory have a view
(`FaultyStore.view`).  A project on a disk has none, since two of its paths can lead to one file, and a write
can put the copy of a file at another path. -/
structure Storage.View (σ : Type) [Storage σ] where
  /-- The content that is held at a path. -/
  content : σ → (path : Text) → Option Text
  content_read : ∀ store path, content (Storage.read store path).2 = content store
  content_write : ∀ {store path text}, (Storage.write store path text).1 = .ok () → ∀ other,
    content (Storage.write store path text).2 other =
      if other = path then some text else content store other
  content_refused : ∀ {store path text failure}, (Storage.write store path text).1 = .error failure →
    content (Storage.write store path text).2 = content store

/-- The view of a storage in memory that fails where it is told to. -/
def FaultyStore.view : Storage.View FaultyStore where
  content s path := s.store.files.get? path
  content_read s path := by
    show (s.read path).2.store.files.get? = _
    unfold FaultyStore.read
    split <;> rfl
  content_write {s path text} h other := by
    change (s.write path text).1 = .ok () at h
    show (s.write path text).2.store.files.get? other = _
    unfold FaultyStore.write at h ⊢
    split
    · rename_i hbroken
      rw [if_pos hbroken] at h
      cases h
    · exact Table.get?_insert ..
  content_refused {s path text failure} h := by
    change (s.write path text).1 = .error failure at h
    show (s.write path text).2.store.files.get? = _
    unfold FaultyStore.write at h ⊢
    split
    · rfl
    · rename_i hbroken
      rw [if_neg hbroken] at h
      cases h

namespace Analyzer

/-! ## Turns -/

/-- What becomes of a correction. -/
inductive Fate where
  /-- It changes nothing. -/
  | idle
  /-- Its path could not be read. -/
  | unread (failure : Failure)
  /-- Its path reads differently than it did for the analysis. -/
  | overtaken (current : Text)
  /-- The storage did not take its content. -/
  | refused (failure : Failure)
  /-- The storage took its content. -/
  | written
deriving DecidableEq

/-- Why a correction was overtaken. -/
def overtakenReason : Text := "file modified during analysis"

namespace Fate

/-- Whether the path of the correction reads differently than it did for the analysis. -/
def isOvertaken : Fate → Bool
  | overtaken _ => true
  | idle | unread _ | refused _ | written => false

/-- What is reported of a correction for `path`. -/
def failure? (path : Text) : Fate → Option Failure
  | unread f => some (f.within ("read " ++ path))
  | refused f => some (f.within ("write " ++ path))
  | idle | overtaken _ | written => none

/-- The correction with the marks of its fate. -/
def mark (c : Correction) (fate : Fate) : Correction :=
  { c with
    written := c.written || fate = written
    skipped := if fate.isOvertaken then overtakenReason else c.skipped }

end Fate

/-- The turn of a correction: the storage is as the corrections before it have left it. -/
structure Turn (σ : Type) where
  correction : Correction
  store : σ

variable {σ : Type} [Storage σ]

namespace Turn

variable (t : Turn σ)

/-- The path that the turn is about. -/
def path : Text := t.correction.path

/-- What reading the path gives, and the storage after that. -/
def reading : Except Failure Text × σ := Storage.read t.store t.path

/-- What writing the new content gives once the path was read, and the storage after that. -/
def writing : Except Failure Unit × σ := Storage.write t.reading.2 t.path t.correction.content

/-- What becomes of the correction. -/
def fate : Fate :=
  if t.correction.changed then
    match t.reading.1 with
    | .error f => .unread f
    | .ok current =>
      if current = t.correction.stored then
        match t.writing.1 with
        | .error f => .refused f
        | .ok () => .written
      else .overtaken current
  else .idle

/-- What the storage answers in a turn with the given fate. -/
def Answers : Fate → Prop
  | .idle => t.correction.changed = false
  | .unread f => t.correction.changed = true ∧ t.reading.1 = .error f
  | .overtaken current =>
    t.correction.changed = true ∧ t.reading.1 = .ok current ∧ current ≠ t.correction.stored
  | .refused f =>
    t.correction.changed = true ∧ t.reading.1 = .ok t.correction.stored ∧ t.writing.1 = .error f
  | .written =>
    t.correction.changed = true ∧ t.reading.1 = .ok t.correction.stored ∧ t.writing.1 = .ok ()

theorem answers_fate : t.Answers t.fate := by
  unfold fate
  split
  · rename_i hchanged
    split
    · exact ⟨hchanged, ‹_›⟩
    · rename_i current hread
      split
      · rename_i hsame
        subst hsame
        split
        · exact ⟨hchanged, hread, ‹_›⟩
        · exact ⟨hchanged, hread, ‹_›⟩
      · exact ⟨hchanged, hread, ‹_›⟩
  · exact Bool.eq_false_iff.2 ‹_›

/-- **The fate of a correction is what the storage answers.** -/
theorem fate_eq_iff (fate : Fate) : t.fate = fate ↔ t.Answers fate := by
  refine ⟨fun h => h ▸ t.answers_fate, fun h => ?_⟩
  unfold Turn.fate
  cases fate with
  | idle => rw [show t.correction.changed = false from h, if_neg Bool.false_ne_true]
  | unread f => rw [h.1, if_pos rfl, h.2]
  | overtaken current =>
    obtain ⟨hchanged, hread, hother⟩ := h
    rw [hchanged, if_pos rfl, hread]
    exact if_neg hother
  | refused f =>
    obtain ⟨hchanged, hread, hwrite⟩ := h
    rw [hchanged, if_pos rfl, hread]
    dsimp only
    rw [if_pos rfl, hwrite]
  | written =>
    obtain ⟨hchanged, hread, hwrite⟩ := h
    rw [hchanged, if_pos rfl, hread]
    dsimp only
    rw [if_pos rfl, hwrite]

/-- The storage after the turn. -/
def after : σ :=
  match t.fate with
  | .idle => t.store
  | .unread _ | .overtaken _ => t.reading.2
  | .refused _ | .written => t.writing.2

end Turn

/-- A correction that is neither written nor overtaken gets no mark. -/
theorem Fate.mark_of_kept (c : Correction) (fate : Fate) (hwritten : fate ≠ .written)
    (hovertaken : fate.isOvertaken = false) : fate.mark c = c := by
  unfold mark
  rw [decide_eq_false hwritten, hovertaken, Bool.or_false, if_neg Bool.false_ne_true]

/-- **One turn.**  The correction is marked by its fate, the path is told if it was written, a failure is
reported, and the others go on with the storage that the turn has left. -/
theorem writeAll_cons (store : σ) (c : Correction) (rest : List Correction) :
    let t := Turn.mk c store
    let w := writeAll t.after rest
    let w' := writeAll store (c :: rest)
    w'.corrections = t.fate.mark c :: w.corrections ∧
      w'.paths = (if t.fate = .written then [c.path] else []) ++ w.paths ∧
      w'.failures = (t.fate.failure? c.path).toList ++ w.failures ∧ w'.store = w.store := by
  -- the storage answers the turn as it answers the call
  have hfate : (Turn.mk c store).fate =
      if c.changed then
        match (Storage.read store c.path).1 with
        | .error f => .unread f
        | .ok current =>
          if current = c.stored then
            match (Storage.write (Storage.read store c.path).2 c.path c.content).1 with
            | .error f => .refused f
            | .ok () => .written
          else .overtaken current
      else .idle := rfl
  dsimp only
  unfold Turn.after Turn.writing Turn.reading Turn.path
  dsimp only
  rw [writeAll]
  cases hchanged : c.changed with
  | false =>
    rw [hchanged, if_neg Bool.false_ne_true] at hfate
    rw [hfate, Fate.mark_of_kept c .idle nofun rfl]
    exact ⟨rfl, rfl, rfl, rfl⟩
  | true =>
    rw [hchanged, if_pos rfl] at hfate
    rw [Bool.not_true, if_neg Bool.false_ne_true]
    generalize Storage.read store c.path = answer at hfate ⊢
    obtain ⟨f | current, opened⟩ := answer
    · rw [hfate, Fate.mark_of_kept c (.unread f) nofun rfl]
      exact ⟨rfl, rfl, rfl, rfl⟩
    · dsimp only at hfate ⊢
      by_cases hsame : current = c.stored
      · rw [if_pos hsame] at hfate
        rw [if_neg (not_not_intro hsame)]
        generalize Storage.write opened c.path c.content = answer at hfate ⊢
        obtain ⟨f | _, closed⟩ := answer
        · rw [hfate, Fate.mark_of_kept c (.refused f) nofun rfl]
          exact ⟨rfl, rfl, rfl, rfl⟩
        · rw [hfate]
          refine ⟨?_, rfl, rfl, rfl⟩
          show _ = { c with written := c.written || true } :: _
          rw [Bool.or_true, hchanged]
      · rw [if_neg hsame] at hfate
        rw [hfate, if_pos hsame]
        refine ⟨?_, rfl, rfl, rfl⟩
        show _ = { c with written := c.written || false, skipped := overtakenReason } :: _
        rw [Bool.or_false, hchanged]
        rfl

/-! ## Calls -/

/-- The turns of corrections that are written back one after the other. -/
def turns (store : σ) : List Correction → List (Turn σ)
  | [] => []
  | c :: rest => ⟨c, store⟩ :: turns (writeAll store [c]).store rest

/-- The turns in which a correction is written. -/
def landed (store : σ) (cs : List Correction) : List (Turn σ) :=
  (turns store cs).filter fun t => t.fate = .written

section Turns

variable (store : σ) (c : Correction) (rest cs : List Correction)

theorem turns_cons : turns store (c :: rest) = ⟨c, store⟩ :: turns (Turn.mk c store).after rest := by
  rw [turns, (writeAll_cons store c []).2.2.2]
  rfl

theorem landed_cons :
    landed store (c :: rest) =
      (if (Turn.mk c store).fate = .written then [⟨c, store⟩] else []) ++
        landed (Turn.mk c store).after rest := by
  rw [landed, turns_cons, List.filter_cons]
  by_cases hwritten : (Turn.mk c store).fate = .written
  · rw [if_pos (decide_eq_true hwritten), if_pos hwritten]
    rfl
  · rw [if_neg (by rwa [decide_eq_true_iff]), if_neg hwritten]
    rfl

/-- Every correction has its turn. -/
theorem map_correction_turns : (turns store cs).map (·.correction) = cs := by
  induction cs generalizing store with
  | nil => rfl
  | cons c rest ih => exact congrArg (c :: ·) (ih _)

theorem path_of_mem_turns {t : Turn σ} (ht : t ∈ turns store cs) : t.path ∈ cs.map (·.path) := by
  have hmem : t.correction ∈ cs := map_correction_turns store cs ▸ List.mem_map_of_mem ht
  exact List.mem_map_of_mem hmem

/-- **A call comes to what its turns come to.**  Each correction is marked by its fate, and what goes wrong
in a turn keeps no other correction from its own. -/
theorem writeAll_turns :
    let w := writeAll store cs
    w.corrections = (turns store cs).map (fun t => t.fate.mark t.correction) ∧
      w.paths = (landed store cs).map Turn.path ∧
      w.failures = (turns store cs).filterMap fun t => t.fate.failure? t.path := by
  induction cs generalizing store with
  | nil => exact ⟨rfl, rfl, rfl⟩
  | cons c rest ih =>
    obtain ⟨hcorrections, hpaths, hfailures, -⟩ := writeAll_cons store c rest
    obtain ⟨ihcorrections, ihpaths, ihfailures⟩ := ih (Turn.mk c store).after
    dsimp only at hcorrections hpaths hfailures ⊢
    rw [hcorrections, hpaths, hfailures, ihcorrections, ihpaths, ihfailures, turns_cons, landed_cons,
      List.map_cons, List.filterMap_cons, List.map_append]
    refine ⟨rfl, ?_, ?_⟩
    · split <;> rfl
    · rw [show (Turn.mk c store).path = c.path from rfl]
      cases (Turn.mk c store).fate.failure? c.path <;> rfl

end Turns

/-! ## What a storage holds -/

section View

variable (view : Storage.View σ)

/-- **A turn changes the content of its path at most**, and only if its correction is written. -/
theorem content_after (t : Turn σ) (path : Text) :
    view.content t.after path =
      if path = t.path ∧ t.fate = .written then some t.correction.content
      else view.content t.store path := by
  have hread : view.content t.reading.2 = view.content t.store := view.content_read ..
  have hanswers := t.answers_fate
  unfold Turn.after
  cases hfate : t.fate with
  | idle => rw [if_neg fun h => nomatch h.2]
  | unread f =>
    rw [if_neg fun h => nomatch h.2]
    exact congrFun hread path
  | overtaken current =>
    rw [if_neg fun h => nomatch h.2]
    exact congrFun hread path
  | refused f =>
    rw [hfate] at hanswers
    rw [if_neg fun h => nomatch h.2]
    exact congrFun ((view.content_refused hanswers.2.2).trans hread) path
  | written =>
    rw [hfate] at hanswers
    refine (view.content_write hanswers.2.2 path).trans ?_
    rw [hread]
    simp only [and_true]

variable {store : σ} {cs : List Correction}

/-- **A path for which no correction is written** holds what it held before the call. -/
theorem content_of_not_landed {path : Text} (h : path ∉ (landed store cs).map Turn.path) :
    view.content (writeAll store cs).store path = view.content store path := by
  induction cs generalizing store with
  | nil => rfl
  | cons c rest ih =>
    rw [landed_cons, List.map_append, List.mem_append, not_or] at h
    have hturn : ¬ (path = c.path ∧ (Turn.mk c store).fate = .written) := fun ⟨hpath, hwritten⟩ => by
      rw [if_pos hwritten] at h
      exact h.1 (List.mem_singleton.2 hpath)
    rw [(writeAll_cons store c rest).2.2.2, ih h.2, content_after]
    exact if_neg hturn

/-- A path holds at its turn what it held before the call. -/
theorem content_at_turn (hnodup : (cs.map (·.path)).Nodup) {t : Turn σ} (ht : t ∈ turns store cs) :
    view.content t.store t.path = view.content store t.path := by
  induction cs generalizing store with
  | nil => exact nomatch ht
  | cons c rest ih =>
    obtain ⟨hfirst, hrest⟩ := List.nodup_cons.1 hnodup
    rw [turns_cons] at ht
    rcases List.mem_cons.1 ht with rfl | ht
    · rfl
    · have hne : t.path ≠ c.path := fun heq =>
        hfirst (show c.path ∈ _ from heq ▸ path_of_mem_turns _ rest ht)
      rw [ih hrest ht, content_after]
      exact if_neg fun h => hne h.1

/-- **A path for which a correction is written** holds the corrected content after the call. -/
theorem content_of_landed (hnodup : (cs.map (·.path)).Nodup) {t : Turn σ} (ht : t ∈ landed store cs) :
    view.content (writeAll store cs).store t.path = some t.correction.content := by
  induction cs generalizing store with
  | nil => exact nomatch ht
  | cons c rest ih =>
    obtain ⟨hfirst, hrest⟩ := List.nodup_cons.1 hnodup
    rw [landed_cons, List.mem_append] at ht
    rw [(writeAll_cons store c rest).2.2.2]
    rcases ht with ht | ht
    · split at ht
      · rename_i hwritten
        obtain rfl := List.mem_singleton.1 ht
        -- no later correction is for this path
        have hothers : c.path ∉ (landed (Turn.mk c store).after rest).map Turn.path := fun hmem => by
          obtain ⟨t, ht, hpath⟩ := List.mem_map.1 hmem
          exact hfirst (show c.path ∈ _ from hpath ▸ path_of_mem_turns _ rest (List.mem_filter.1 ht).1)
        rw [show (Turn.mk c store).path = c.path from rfl, content_of_not_landed view hothers,
          content_after]
        exact if_pos ⟨rfl, hwritten⟩
      · exact nomatch ht
    · exact ih hrest ht

end View

end Analyzer

/-! ## Corrections of an analyzer -/

/-- What writing back tells of a correction: whether it was written, and why it was left alone. -/
def Correction.marks (c : Correction) : Bool × Text := (c.written, c.skipped)

theorem Correction.marks_merge (c : Correction) (o : Outcome) (failures : List Failure) :
    (c.merge o failures).marks = c.marks := by
  unfold merge
  split <;> rfl

namespace Analyzer

variable {a : Analyzer} {around : Surroundings} {cs : List Correction}

theorem marks_correctAll (paths : List Text) {done : List Correction} (around : Surroundings)
    (hdone : ∀ c ∈ done, c.marks = (false, [])) :
    ∀ c ∈ (a.correctAll paths done around).1, c.marks = (false, []) := by
  induction paths generalizing done around with
  | nil => exact hdone
  | cons path rest ih =>
    unfold correctAll
    split
    · exact hdone
    · refine ih _ fun c hc => ?_
      rcases List.mem_append.1 hc with hc | hc
      · exact hdone c hc
      · rw [List.mem_singleton.1 hc]
        exact kept_correctFile a Correction.marks_merge (fun _ _ => rfl) path around

/-- **What an analyzer corrects**: each path once, and nothing is marked yet. -/
theorem fresh_of_correct (hnew : a.corrections = none)
    (hcs : (a.correct around).analyzer.corrections = some cs) :
    a.stage = .done ∧ (a.correct around).analyzer = { a with corrections := some cs } ∧
      (cs.map (·.path)).Nodup ∧ ∀ c ∈ cs, c.marks = (false, []) := by
  by_cases hdone : a.stage = .done
  · unfold correct at hcs ⊢
    rw [if_neg (not_not_intro hdone), hnew, if_neg (by exact Bool.false_ne_true)] at hcs ⊢
    dsimp only at hcs ⊢
    obtain rfl := Option.some.inj hcs
    obtain ⟨cs, hcs, hpaths⟩ := a.paths_correctAll (Text.sortDedup (a.fixes.map (·.path))) []
      { around with log := [⟨.debug, "analyzer state", [("state", Stage.correcting.label)]⟩] }
    refine ⟨hdone, rfl, ?_, marks_correctAll _ _ fun _ hc => nomatch hc⟩
    rw [hcs]
    exact hpaths.sublist.nodup (Text.nodup_sortDedup _)
  · have hcorrect : a.correct around = ⟨.error notAnalyzed, a, around⟩ := if_pos hdone
    rw [hcorrect, hnew] at hcs
    exact nomatch hcs

/-- What the first call that writes corrections back comes to, where the storage `store` becomes `after`. -/
structure WrittenBack {σ : Type} [Storage σ] (view : Storage.View σ) (store : σ) (cs : List Correction)
    (paths : List Text) (failure : Option Failure) (marked : List Correction) (after : σ) : Prop where
  /-- Every correction has its turn. -/
  turns : (turns store cs).map (·.correction) = cs
  /-- Its path holds then what it held when the call was made. -/
  standing : ∀ t ∈ Analyzer.turns store cs, view.content t.store t.path = view.content store t.path
  /-- A path whose correction is written holds the corrected content. -/
  written : ∀ t ∈ landed store cs, view.content after t.path = some t.correction.content
  /-- Every other path holds what it held. -/
  spared : ∀ path, path ∉ (landed store cs).map Turn.path →
    view.content after path = view.content store path
  /-- The paths that were written are told in order. -/
  told : paths = (landed store cs).map Turn.path
  /-- So are all failures, as one. -/
  reported : failure =
    Failure.joined? ((Analyzer.turns store cs).filterMap fun t => t.fate.failure? t.path)
  /-- The corrections that were written or overtaken are marked, and no others. -/
  marks : marked = (Analyzer.turns store cs).map fun t =>
    { t.correction with
      written := t.fate = .written
      skipped := if t.fate.isOvertaken then overtakenReason else [] }

/-- **A file that changed is not written over.**  Let an analyzer have corrected, and let the corrections
`cs` be written back for the first time, to a storage that may fail to read or to write any path, in a run
that is not cancelled.  Every correction has its turn, and what the storage answers then decides its fate:
it is written exactly if it changes something, its path reads as it did for the analysis, and the storage
takes the new content.  The storage changes at the paths of these corrections only, and holds their contents
there; these paths are told, in order, and these corrections are marked as written.  A correction whose path
reads differently is marked as skipped, and a path that could not be read or written is reported. -/
theorem changed_files_spared {σ : Type} [Storage σ] (view : Storage.View σ) {live : Surroundings}
    (hnew : a.corrections = none) (hcs : (a.correct around).analyzer.corrections = some cs)
    (hlive : live.cancelled = false) (store : σ) :
    let call := (a.correct around).analyzer.writeCorrections live store
    (∃ marked, call.2.2.1 = { a with corrections := some marked } ∧
        WrittenBack view store cs call.1 call.2.1 marked call.2.2.2.2) ∧
      ∀ t ∈ turns store cs, ∀ fate, t.fate = fate ↔ t.Answers fate := by
  obtain ⟨hdone, hanalyzer, hnodup, hmarks⟩ := fresh_of_correct hnew hcs
  obtain ⟨hmarked, hpaths, hfailures⟩ := writeAll_turns store cs
  have hcall : (a.correct around).analyzer.writeCorrections live store =
      let w := writeAll store cs
      (w.paths, Failure.joined? w.failures, { a with corrections := some w.corrections },
        { live with log := live.log ++ w.log.map (·.within a.logFields) }, w.store) := by
    rw [hanalyzer]
    unfold writeCorrections
    rw [if_neg (not_not_intro hdone)]
    dsimp only
    rw [hlive, if_neg (by exact Bool.false_ne_true)]
    rfl
  intro call
  refine ⟨⟨(writeAll store cs).corrections, congrArg (·.2.2.1) hcall, ?_⟩, fun t _ => t.fate_eq_iff⟩
  rw [show call = _ from hcall]
  exact
    { turns := map_correction_turns store cs
      standing := fun t ht => content_at_turn view hnodup ht
      written := fun t ht => content_of_landed view hnodup ht
      spared := fun path hpath => content_of_not_landed view hpath
      told := hpaths
      reported := congrArg Failure.joined? hfailures
      marks := by
        refine hmarked.trans (List.map_congr_left fun t ht => ?_)
        have hmem : t.correction ∈ cs := map_correction_turns store cs ▸ List.mem_map_of_mem ht
        obtain ⟨hwritten, hskipped⟩ := Prod.mk.inj (hmarks _ hmem)
        unfold Fate.mark
        rw [hwritten, hskipped, Bool.false_or] }

/-- The paths of four queries. -/
def queryPaths : List Text := ["a.graphql", "b.graphql", "c.graphql", "d.graphql"]

/-- The analysis of four queries, each without a mark. -/
def fourQueries : Analyzer :=
  (analyzeProject
    { snapshot := .ofContents (queryPaths.map fun path => (path, "a")), checks := [marksQueries] } {}).analyzer

/-- The four corrections. -/
def fourCorrections : List Correction :=
  let logged : Surroundings := { log := [⟨.debug, "analyzer state", [("state", Stage.correcting.label)]⟩] }
  (fourQueries.correctAll queryPaths [] logged).1

theorem corrections_fourQueries :
    fourQueries.corrections = none ∧ (fourQueries.correct {}).analyzer.corrections = some fourCorrections := by
  obtain ⟨hnone, hdone, hfixes⟩ : fourQueries.corrections.isNone = true ∧ fourQueries.stage = .done ∧
      fourQueries.fixes.map (·.path) = queryPaths := by
    decide +kernel
  have hnew : fourQueries.corrections = none := Option.isNone_iff_eq_none.1 hnone
  have hpaths : Text.sortDedup (fourQueries.fixes.map (·.path)) = queryPaths := by
    rw [hfixes]
    exact Text.sortDedup_eq (by decide +kernel) fun _ => Iff.rfl
  refine ⟨hnew, ?_⟩
  unfold correct
  rw [if_neg (not_not_intro hdone), hnew, if_neg (by exact Bool.false_ne_true), hpaths]
  rfl

/-- A storage where the second query has changed, the third cannot be read and the fourth not be written. -/
def fourFiles : FaultyStore :=
  { store := ⟨.ofList [("a.graphql", "a"), ("b.graphql", "x"), ("c.graphql", "a"), ("d.graphql", "a")]⟩
    brokenReads := ["c.graphql"]
    brokenWrites := ["d.graphql"] }

/-- Of the four queries the first alone is written. -/
theorem changed_files_spared_queries :
    let corrected := (fourQueries.correct {}).analyzer
    let call := corrected.writeCorrections {} fourFiles
    fourQueries.corrections = none ∧ corrected.corrections = some fourCorrections ∧
      ({} : Surroundings).cancelled = false ∧
      (turns fourFiles fourCorrections).map Turn.fate =
        [.written, .overtaken "x", .unread (.plain "disk on fire"), .refused (.plain "read-only storage")] ∧
      call.1 = [("a.graphql" : Text)] ∧
      FaultyStore.view.content call.2.2.2.2 "a.graphql" = some ("#a" : Text) ∧
      FaultyStore.view.content call.2.2.2.2 "b.graphql" = some ("x" : Text) := by
  obtain ⟨hnew, hcs⟩ := corrections_fourQueries
  have hlive : ({} : Surroundings).cancelled = false := rfl
  obtain ⟨hfates, hlanded⟩ : (turns fourFiles fourCorrections).map Turn.fate =
        [.written, .overtaken "x", .unread (.plain "disk on fire"), .refused (.plain "read-only storage")] ∧
      (landed fourFiles fourCorrections).map (fun t => (t.path, t.correction.content)) =
        [(("a.graphql" : Text), ("#a" : Text))] := by
    decide +kernel
  have hold : FaultyStore.view.content fourFiles "b.graphql" = some ("x" : Text) := by
    decide +kernel
  obtain ⟨⟨marked, -, h⟩, -⟩ := changed_files_spared FaultyStore.view hnew hcs hlive fourFiles
  dsimp only
  -- what the call comes to is known from here on, and is not computed
  generalize (fourQueries.correct {}).analyzer.writeCorrections {} fourFiles = call at h ⊢
  obtain ⟨t, ht, hwritten⟩ := List.map_eq_singleton_iff.1 hlanded
  obtain ⟨hpath, hcontent⟩ := Prod.mk.inj hwritten
  have hpaths : (landed fourFiles fourCorrections).map Turn.path = [("a.graphql" : Text)] := by
    rw [ht, List.map_singleton, hpath]
  have hstored := h.written t (ht ▸ List.mem_singleton.2 rfl)
  rw [hpath, hcontent] at hstored
  have hspared := h.spared "b.graphql" (by rw [hpaths]; decide)
  exact ⟨hnew, hcs, hlive, hfates, h.told.trans hpaths, hstored, hspared.trans hold⟩

end Analyzer
end LiquidLint
