import LiquidLint.Proofs.OrderedTables
import LiquidLint.Proofs.SessionVersions

/-!
# Runs that are recorded again

A run that is recorded once more offers the same results for the same versions, so it is taken up wherever it
was taken up before, and what it replaces stays as it is.  But the offenses that it found in a file without
visiting it (`outside`) are added to those that are held of the same version, and so they are added once more
each time (`recordRun_again`).
-/

namespace LiquidLint
namespace Session

/-- The offenses that a run found in a file that it did not visit, as a failure to read it. -/
def outside (f : Findings) (path : Text) : List Offense :=
  if f.paths.contains path then [] else offensesAt f.single path

/-- Whether a run adds to what is held of a path, and so adds once more when it is recorded again. -/
def repeats (f : Findings) (st : Standing) (path : Text) : Bool :=
  !(outside f path).isEmpty && takes f st path

namespace Standing

/-- With more offenses of the file. -/
def addSingle (st : Standing) (os : List Offense) : Standing :=
  { st with record := st.record.map fun r => { r with single := r.single ++ os } }

@[simp] theorem addSingle_nil (st : Standing) : st.addSingle [] = st := by
  obtain ⟨record, gone⟩ := st
  cases record with
  | none => rfl
  | some r =>
    exact congrArg (fun os => (⟨some { r with single := os }, gone⟩ : Standing)) (List.append_nil r.single)

theorem addSingle_addSingle (st : Standing) (os more : List Offense) :
    (st.addSingle os).addSingle more = st.addSingle (os ++ more) := by
  obtain ⟨record, gone⟩ := st
  cases record with
  | none => rfl
  | some r =>
    exact congrArg (fun os => (⟨some { r with single := os }, gone⟩ : Standing))
      (List.append_assoc r.single os more)

theorem addSingle_eq_self_iff (r : Record) (os : List Offense) :
    (⟨some r, none⟩ : Standing).addSingle os = ⟨some r, none⟩ ↔ os = [] := by
  refine ⟨fun h => ?_, fun h => h ▸ addSingle_nil _⟩
  exact List.append_right_eq_self.1 (congrArg Record.single (Option.some.inj (congrArg Standing.record h)))

end Standing

/-! ## What a run offers again -/

section Offers

variable (f : Findings) (cur : Option Record) (path : Text)

/-- A run looked at the same version as before. -/
theorem versionOf_runRecord :
    versionOf f (some (runRecord f cur path)) path = (runRecord f cur path).version := by
  show versionOf f (some (runRecord f cur path)) path = versionOf f cur path
  unfold versionOf
  cases hnamed : f.versions.get? path with
  | some version => rfl
  | none =>
    cases hfound : (offensesAt f.single path ++ offensesAt f.project path).find? fun o => 0 < o.version with
    | some o => rfl
    | none =>
      -- no version is told, so it was the recorded one
      show versionOf f cur path = _
      unfold versionOf
      rw [hnamed]
      dsimp only
      rw [hfound]

/-- **A run offers what it has offered before**, with the offenses outside its paths once more. -/
theorem runRecord_again :
    runRecord f (some (runRecord f cur path)) path =
      { runRecord f cur path with single := (runRecord f cur path).single ++ outside f path } := by
  have hsame : (some (runRecord f cur path)).filter (fun r => r.version = (runRecord f cur path).version) =
      some (runRecord f cur path) := if_pos (decide_eq_true rfl)
  rw [runRecord, versionOf_runRecord, recordAfter, hsame]
  unfold outside
  refine congrArg₂ (Record.mk (runRecord f cur path).version) ?_ ?_
  · by_cases hvisited : f.paths.contains path = true
    · rw [if_pos hvisited, if_pos hvisited, List.append_nil]
      exact (if_pos hvisited).symm
    · rw [if_neg hvisited, if_neg hvisited]
      rfl
  · by_cases hpass : f.projectPass = true
    · rw [if_pos hpass]
      exact (if_pos hpass).symm
    · rw [if_neg hpass]
      rfl

/-- What a run offers again does not come too late. -/
theorem takes_again : takes f ⟨some (runRecord f cur path), none⟩ path = true := by
  have hversion : (runRecord f (some (runRecord f cur path)) path).version = (runRecord f cur path).version := by
    rw [runRecord_again]
  have hlate : Standing.isStale ⟨some (runRecord f cur path), none⟩
      (runRecord f (some (runRecord f cur path)) path).version = false := by
    rw [hversion]
    exact (Bool.or_false _).trans (decide_eq_false (Int.lt_irrefl _))
  exact congrArg (!·) hlate

end Offers

/-! ## The paths that a run touches -/

section Touched

variable {s : Session} {f : Findings} {path : Text}

theorem mem_touched_iff :
    path ∈ s.touched f ↔
      path ∈ f.paths ∨ path ∈ f.single.map (·.path) ∨ path ∈ f.project.map (·.path) ∨
      f.projectPass = true ∧ ∃ r, (path, r) ∈ s.records.entries ∧ r.project.isEmpty = false := by
  have hkept : (path ∈ if f.projectPass then (s.records.filter fun _ r => !r.project.isEmpty).keys else []) ↔
      f.projectPass = true ∧ ∃ r, (path, r) ∈ s.records.entries ∧ r.project.isEmpty = false := by
    by_cases hpass : f.projectPass = true
    · rw [if_pos hpass]
      refine ⟨fun hmem => ⟨hpass, ?_⟩, fun ⟨_, r, hr, hproject⟩ => ?_⟩
      · obtain ⟨⟨key, r⟩, hr, rfl⟩ := List.mem_map.1 hmem
        obtain ⟨hr, hproject⟩ := List.mem_filter.1 hr
        exact ⟨r, hr, Bool.not_eq_true' _ ▸ hproject⟩
      · exact List.mem_map.2 ⟨(path, r), List.mem_filter.2 ⟨hr, Bool.not_eq_true' _ ▸ hproject⟩, rfl⟩
    · rw [if_neg hpass]
      exact iff_of_false List.not_mem_nil fun h => hpass h.1
  unfold touched
  rw [Text.mem_sortDedup, List.mem_append, List.mem_append, List.mem_append, hkept, or_assoc, or_assoc]

theorem touched_of_outside (h : outside f path ≠ []) : path ∈ s.touched f := by
  unfold outside at h
  by_cases hvisited : f.paths.contains path = true
  · exact absurd (if_pos hvisited) h
  · rw [if_neg hvisited] at h
    obtain ⟨o, ho⟩ := List.exists_mem_of_ne_nil _ h
    obtain ⟨ho, hpath⟩ := List.mem_filter.1 ho
    exact mem_touched_iff.2 (.inr (.inl (List.mem_map.2 ⟨o, ho, of_decide_eq_true hpath⟩)))

/-- What a session holds after a run was recorded is at paths that it touches, or was held before. -/
theorem mem_entries_recordPaths {paths : List Text} {n : Nat} {e : Text × Record}
    (h : e ∈ (recordPaths f paths s n).1.records.entries) : e ∈ s.records.entries ∨ e.1 ∈ paths := by
  induction paths generalizing s n with
  | nil => exact .inl h
  | cons first rest ih =>
    rw [recordPaths_cons] at h
    rcases ih h with hkept | hrest
    · rw [recordPath_eq, offer] at hkept
      split at hkept
      · exact .inl hkept
      · rcases Table.key_of_mem_insertEntry hkept with hfirst | hold
        · exact .inr (hfirst ▸ List.mem_cons_self ..)
        · exact .inl hold
    · exact .inr (List.mem_cons_of_mem _ hrest)

/-- **A run touches no further path** when it is recorded again. -/
theorem touched_of_touched_again (h : path ∈ (s.recordRun f).1.touched f) : path ∈ s.touched f := by
  rcases mem_touched_iff.1 h with hvisited | hsingle | hproject | ⟨hpass, r, hr, hproject⟩
  · exact mem_touched_iff.2 (.inl hvisited)
  · exact mem_touched_iff.2 (.inr (.inl hsingle))
  · exact mem_touched_iff.2 (.inr (.inr (.inl hproject)))
  · rcases mem_entries_recordPaths hr with hold | htouched
    · exact mem_touched_iff.2 (.inr (.inr (.inr ⟨hpass, r, hold, hproject⟩)))
    · exact htouched

end Touched

/-! ## Recording again -/

/-- Records a run `n` times. -/
def recordTimes (f : Findings) : (n : Nat) → Session → Session
  | 0, s => s
  | n + 1, s => recordTimes f n (s.recordRun f).1

section Again

variable {f : Findings} {path : Text}

/-- **Where a run is not taken up**, it is not taken up again. -/
theorem standing_of_not_taken {s : Session}
    (h : ¬ (path ∈ s.touched f ∧ takes f (s.standing path) path = true)) :
    (s.recordRun f).1.standing path = s.standing path ∧
      ¬ (path ∈ (s.recordRun f).1.touched f ∧ takes f ((s.recordRun f).1.standing path) path = true) := by
  have hkept : (s.recordRun f).1.standing path = s.standing path :=
    ((recordRun_spec s f).2 path).trans (if_neg h)
  exact ⟨hkept, fun ⟨htouched, htakes⟩ => h ⟨touched_of_touched_again htouched, hkept ▸ htakes⟩⟩

theorem standing_recordTimes_of_not_taken {s : Session} (n : Nat)
    (h : ¬ (path ∈ s.touched f ∧ takes f (s.standing path) path = true)) :
    (recordTimes f n s).standing path = s.standing path := by
  induction n generalizing s with
  | zero => rfl
  | succ n ih =>
    obtain ⟨hkept, hagain⟩ := standing_of_not_taken h
    exact (ih hagain).trans hkept

/-- **Where a run was taken up**, it is taken up again, and adds the offenses outside its paths. -/
theorem standing_recordRun_of_taken {s : Session} {cur : Option Record}
    (h : s.standing path = ⟨some (runRecord f cur path), none⟩) :
    (s.recordRun f).1.standing path = (s.standing path).addSingle (outside f path) := by
  have hrecord : (s.standing path).record = some (runRecord f cur path) := congrArg Standing.record h
  have htakes : takes f (s.standing path) path = true := h ▸ takes_again f cur path
  rw [(recordRun_spec s f).2 path]
  by_cases htouched : path ∈ s.touched f
  · rw [if_pos ⟨htouched, htakes⟩, hrecord, runRecord_again, h]
    rfl
  · have hnothing : outside f path = [] := by
      by_contra hsome
      exact htouched (touched_of_outside hsome)
    rw [if_neg fun hboth => htouched hboth.1, hnothing, Standing.addSingle_nil]

theorem standing_recordTimes_of_taken {s : Session} {cur : Option Record} (n : Nat)
    (h : s.standing path = ⟨some (runRecord f cur path), none⟩) :
    (recordTimes f n s).standing path =
      (s.standing path).addSingle (List.replicate n (outside f path)).flatten := by
  induction n generalizing s cur with
  | zero => exact (Standing.addSingle_nil _).symm
  | succ n ih =>
    have hnext := standing_recordRun_of_taken h
    -- what is held now is what the run offers where it is held already
    have hoffered : (s.recordRun f).1.standing path =
        ⟨some (runRecord f (some (runRecord f cur path)) path), none⟩ := by
      rw [hnext, h, runRecord_again]
      rfl
    rw [recordTimes, ih hoffered, hnext, Standing.addSingle_addSingle, List.replicate_succ, List.flatten_cons]

end Again

/-- **What recording a run again does.**  For every session, run and path, recording the run `n` times more
keeps the version, the dropped version and the offenses of the project that are held of the path after the
first time.  The offenses that the run found in the file without visiting it come once more each time, if it
is taken up at all; so a second time changes nothing exactly if there are none of these or it is not. -/
theorem recordRun_again (s : Session) (f : Findings) (path : Text) :
    let once := (s.recordRun f).1
    let added := if repeats f (s.standing path) path then outside f path else []
    (∀ n, (recordTimes f n once).standing path =
        (once.standing path).addSingle (List.replicate n added).flatten) ∧
      ((once.recordRun f).1.standing path = once.standing path ↔ repeats f (s.standing path) path = false) := by
  have hspec := (recordRun_spec s f).2 path
  dsimp only
  by_cases htaken : path ∈ s.touched f ∧ takes f (s.standing path) path = true
  · rw [if_pos htaken] at hspec
    have hrepeats : repeats f (s.standing path) path = !(outside f path).isEmpty := by
      unfold repeats
      rw [htaken.2, Bool.and_true]
    have hadded : (if repeats f (s.standing path) path then outside f path else []) = outside f path := by
      rw [hrepeats]
      cases outside f path <;> rfl
    rw [hadded]
    refine ⟨fun n => standing_recordTimes_of_taken n hspec, ?_⟩
    rw [standing_recordRun_of_taken hspec, hspec, Standing.addSingle_eq_self_iff, hrepeats,
      Bool.not_eq_false', List.isEmpty_iff]
  · have hrepeats : repeats f (s.standing path) path = false := by
      by_contra hrepeats
      obtain ⟨hsome, htakes⟩ := Bool.and_eq_true_iff.1 (Bool.not_eq_false _ ▸ hrepeats)
      refine htaken ⟨touched_of_outside fun hnil => ?_, htakes⟩
      rw [hnil] at hsome
      exact nomatch hsome
    obtain ⟨hkept, hagain⟩ := standing_of_not_taken htaken
    rw [hrepeats, if_neg Bool.false_ne_true]
    refine ⟨fun n => ?_, iff_of_true (standing_of_not_taken hagain).1 rfl⟩
    rw [standing_recordTimes_of_not_taken n hagain, List.flatten_replicate_nil, Standing.addSingle_nil]

/-- A run that could not read a file, and did not visit it. -/
def unreadRun : Findings :=
  { single :=
      [{ code := "StorageError", message := "Could not read file", path := "a.liquid", severity := .error }] }

/-- **A failure to read is held twice** when the run that has it is recorded twice. -/
theorem recordRun_again_unread :
    let once := (recordRun {} unreadRun).1
    let twice := (once.recordRun unreadRun).1
    (once.records.get? "a.liquid").map (·.single) = some unreadRun.single ∧
      (twice.records.get? "a.liquid").map (·.single) = some (unreadRun.single ++ unreadRun.single) := by
  decide +kernel

end Session
end LiquidLint
