import LiquidLint.Analysis.Visit

/-!
# What visits add

What checks do on a visit depends on the file and on what they were called for before, and not on what
was raised so far.  So visiting a file adds to a tally what it adds to an empty one
(`visitFile_append`): offenses, fixes, lines, and whether the run was cancelled.
-/

namespace LiquidLint
namespace Analysis

/-- What two runs leave behind, one after the other. -/
instance : Append Surroundings where
  append s t := ⟨s.cancelled || t.cancelled, s.trace ++ t.trace, s.log ++ t.log⟩

/-- What two runs raise, one after the other. -/
instance : Append Tally where
  append s t := ⟨s.offenses ++ t.offenses, s.fixes ++ t.fixes, s.around ++ t.around⟩

namespace Tally

variable {s t : Tally}

theorem fixes_append (s t : Tally) : (s ++ t).fixes = s.fixes ++ t.fixes := rfl

theorem append_empty (s : Tally) : s ++ ({} : Tally) = s := by
  show (⟨s.offenses ++ [], s.fixes ++ [],
    ⟨s.around.cancelled || false, s.around.trace ++ [], s.around.log ++ []⟩⟩ : Tally) = s
  rw [List.append_nil, List.append_nil, List.append_nil, List.append_nil, Bool.or_false]

theorem add_append (o : Offense) (fix : Option PendingFix) :
    (s ++ t).add o fix = s ++ t.add o fix := by
  show (⟨(s.offenses ++ t.offenses) ++ [o], (s.fixes ++ t.fixes) ++ fix.toList, _⟩ : Tally) = _
  rw [List.append_assoc, List.append_assoc]
  rfl

theorem note_append (e : Log.Entry) : (s ++ t).note e = s ++ t.note e := by
  show (⟨_, _, ⟨_, _, (s.around.log ++ t.around.log) ++ [e]⟩⟩ : Tally) = _
  rw [List.append_assoc]
  rfl

variable {ρ : Type} (raise : ρ → Option (Offense × Option PendingFix))

theorem effect_append (e : Effect ρ) : (s ++ t).effect raise e = s ++ t.effect raise e := by
  cases e with
  | report r =>
    dsimp only [effect]
    cases raise r with
    | none => rfl
    | some raised => exact add_append raised.1 raised.2
  | trace line =>
    show (⟨_, _, ⟨_, (s.around.trace ++ t.around.trace) ++ [line], _⟩⟩ : Tally) = _
    rw [List.append_assoc]
    rfl
  | cancel =>
    show (⟨_, _, ⟨true, _, _⟩⟩ : Tally) = ⟨_, _, ⟨s.around.cancelled || true, _, _⟩⟩
    rw [Bool.or_true]
    rfl

theorem effects_append (effects : List (Effect ρ)) :
    effects.foldl (effect raise) (s ++ t) = s ++ effects.foldl (effect raise) t := by
  induction effects generalizing t with
  | nil => rfl
  | cons e rest ih => rw [List.foldl_cons, List.foldl_cons, effect_append, ih]

theorem react_append (code : Text) (file : Option SourceFile) (node : Option Source.Node)
    (r : Reaction ρ) :
    (s ++ t).react raise code file node r = s ++ t.react raise code file node r := by
  unfold react
  rw [effects_append]
  cases r.crash with
  | none => rfl
  | some detail =>
    dsimp only
    rw [note_append, add_append]

end Tally

/-! ## Visits -/

section Visits

variable {o : AnalyzerOptions} {parsed : List ParsedFile} {f : SourceFile} {s t : Tally}

theorem callSlot_append (node : Option Source.Node) (v : Visit) (slot : Slot) :
    callSlot o parsed f node v slot (s ++ t) =
      ((callSlot o parsed f node v slot t).1, s ++ (callSlot o parsed f node v slot t).2) := by
  unfold callSlot
  split
  · rfl
  · dsimp only
    rw [Tally.react_append]

theorem callSlots_append (node : Option Source.Node) (v : Visit) (wanted : Check → Bool)
    (slots : List Slot) :
    callSlots o parsed f node v wanted slots (s ++ t) =
      ((callSlots o parsed f node v wanted slots t).1,
        s ++ (callSlots o parsed f node v wanted slots t).2) := by
  induction slots generalizing t with
  | nil => rfl
  | cons slot rest ih =>
    rw [callSlots, callSlots]
    by_cases h : wanted slot.check = true
    · rw [if_pos h, if_pos h, callSlot_append]
      dsimp only
      rw [ih]
    · rw [if_neg h, if_neg h]
      dsimp only
      rw [ih]

theorem callFirings_append (c : Project.Category) (firings : List (Source.Event × Source.Node))
    (slots : List Slot) :
    callFirings o parsed f c firings (slots, s ++ t) =
      ((callFirings o parsed f c firings (slots, t)).1,
        s ++ (callFirings o parsed f c firings (slots, t)).2) := by
  induction firings generalizing slots t with
  | nil => rfl
  | cons firing rest ih =>
    obtain ⟨e, n⟩ := firing
    rw [callFirings, callFirings, callSlots_append]
    exact ih _

theorem callTrees_append (trees : List Source.Node) (slots : List Slot) :
    callTrees o parsed f trees (slots, s ++ t) =
      ((callTrees o parsed f trees (slots, t)).1,
        s ++ (callTrees o parsed f trees (slots, t)).2) := by
  induction trees generalizing slots t with
  | nil => rfl
  | cons tree rest ih =>
    rw [callTrees, callTrees, callFirings_append]
    exact ih _

/-- **Visiting a file does not depend on what was raised before.** -/
theorem visitFile_append (slots : List Slot) :
    visitFile o parsed f slots (s ++ t) =
      ((visitFile o parsed f slots t).1, s ++ (visitFile o parsed f slots t).2) := by
  dsimp only [visitFile]
  rw [callTrees_append]
  exact callSlots_append ..

end Visits

end Analysis
end LiquidLint
