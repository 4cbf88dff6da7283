import LiquidLint.Proofs.Tallies

/-!
# Visits moment by moment

Visiting a file calls the checks at one moment after the other: for each event that its trees fire, and
at its end (`moments`).  What a check does at a moment depends on the check, on what it was called for
before and on whether it broke down in this file (`Slot.reaction?`), and on nothing that other checks
did.  So a visit takes each slot on by itself, and adds what the slots raise, moment by moment and slot
by slot (`visitFile_eq`).

What holds of all that checks raise when they are called, and of tallies put together, holds of a visit
(`raisedIn_induction`): that its offenses are about the file (`path_raisedIn`), and that the run goes on
where no check cancels it (`live_raisedIn`).  The same goes for the look at the project
(`projectPass_live`).
-/

namespace LiquidLint

open Source

/-- The check never cancels a run. -/
structure Check.NeverCancels (k : Check) : Prop where
  visit : ∀ past v, .cancel ∉ (k.onVisit past v).effects
  project : ∀ react, k.onProject = some react → ∀ past v, .cancel ∉ (react past v).effects

namespace Analysis

/-! ## Tallies put together -/

namespace Tally

variable {s t : Tally}

theorem empty_append (t : Tally) : ({} : Tally) ++ t = t := rfl

theorem append_assoc (s t u : Tally) : s ++ t ++ u = s ++ (t ++ u) := by
  show (⟨s.offenses ++ t.offenses ++ u.offenses, s.fixes ++ t.fixes ++ u.fixes,
    ⟨s.around.cancelled || t.around.cancelled || u.around.cancelled,
      s.around.trace ++ t.around.trace ++ u.around.trace,
      s.around.log ++ t.around.log ++ u.around.log⟩⟩ : Tally) = _
  rw [List.append_assoc, List.append_assoc, List.append_assoc, List.append_assoc, Bool.or_assoc]
  rfl

theorem offenses_append (s t : Tally) : (s ++ t).offenses = s.offenses ++ t.offenses := rfl

theorem cancelled_append (s t : Tally) :
    (s ++ t).around.cancelled = (s.around.cancelled || t.around.cancelled) := rfl

/-- What tallies come to, one after the other. -/
def join (ts : List Tally) : Tally := ts.foldr (· ++ ·) {}

theorem join_cons (t : Tally) (ts : List Tally) : join (t :: ts) = t ++ join ts := rfl

theorem offenses_join (ts : List Tally) :
    (join ts).offenses = ts.flatMap (·.offenses) := by
  induction ts with
  | nil => rfl
  | cons t rest ih => rw [join_cons, offenses_append, ih, List.flatMap_cons]

theorem fixes_join (ts : List Tally) : (join ts).fixes = ts.flatMap (·.fixes) := by
  induction ts with
  | nil => rfl
  | cons t rest ih => rw [join_cons, fixes_append, ih, List.flatMap_cons]

/-- What holds of tallies and of tallies put together. -/
structure Additive (T : Tally → Prop) : Prop where
  empty : T {}
  append : ∀ {s t}, T s → T t → T (s ++ t)

theorem Additive.join {T : Tally → Prop} (hT : Additive T) {ts : List Tally} (h : ∀ t ∈ ts, T t) :
    T (join ts) := by
  induction ts with
  | nil => exact hT.empty
  | cons t rest ih =>
    rw [join_cons]
    exact hT.append (h t (List.mem_cons_self ..)) (ih fun u hu => h u (List.mem_cons_of_mem _ hu))

theorem additive_offenses (P : Offense → Prop) : Additive fun t => ∀ o ∈ t.offenses, P o where
  empty _ hnone := absurd hnone List.not_mem_nil
  append hs ht o ho := (List.mem_append.1 ho).elim (hs o) (ht o)

theorem additive_fixes (P : PendingFix → Prop) : Additive fun t => ∀ p ∈ t.fixes, P p where
  empty _ hnone := absurd hnone List.not_mem_nil
  append hs ht p hp := (List.mem_append.1 hp).elim (hs p) (ht p)

theorem additive_live : Additive fun t => t.around.cancelled = false where
  empty := rfl
  append hs ht := by
    rw [cancelled_append, hs, ht]
    rfl

/-! ## Reactions -/

variable {ρ : Type} {raise : ρ → Option (Offense × Option PendingFix)} {code : Text}
  {file : Option SourceFile} {node : Option Node} {r : Reaction ρ}

/-- What is added to a tally is what is added to an empty one. -/
theorem react_eq_append (t : Tally) :
    t.react raise code file node r = t ++ react raise code file node r {} := by
  calc t.react raise code file node r
    _ = (t ++ ({} : Tally)).react raise code file node r := by rw [append_empty]
    _ = t ++ react raise code file node r {} := react_append ..

/-- **What a reaction raises** is what its reports raise one by one, and its breakdown. -/
theorem Additive.react {T : Tally → Prop} (hT : Additive T)
    (heffect : ∀ e ∈ r.effects, T (effect raise {} e))
    (hbreakdown : ∀ detail, r.crash = some detail → T
      (({} : Tally).note ⟨.warn, "check failed",
        [("check", code), ("path", (breakdown code file node detail).path), ("error", detail)]⟩ |>.add
        (breakdown code file node detail))) :
    T (react raise code file node r {}) := by
  have heffects {effects : List (Effect ρ)} (h : ∀ e ∈ effects, T (effect raise {} e)) :
      T (effects.foldl (effect raise) {}) := by
    induction effects with
    | nil => exact hT.empty
    | cons e rest ih =>
      have hfold := effects_append raise (s := effect raise {} e) (t := {}) rest
      rw [append_empty] at hfold
      rw [List.foldl_cons, hfold]
      exact hT.append (h e (List.mem_cons_self ..)) (ih fun e' he' => h e' (List.mem_cons_of_mem _ he'))
  unfold Tally.react
  cases hcrash : r.crash with
  | none => exact heffects heffect
  | some detail =>
    dsimp only
    rw [← append_empty (r.effects.foldl (effect raise) {}), note_append, add_append]
    exact hT.append (heffects heffect) (hbreakdown detail hcrash)

/-- The offenses of a reaction are those of its reports, and that of its breakdown. -/
theorem offenses_react {P : Offense → Prop} (hraise : ∀ r o fix, raise r = some (o, fix) → P o)
    (hbreakdown : ∀ detail, P (breakdown code file node detail)) :
    ∀ o ∈ (react raise code file node r {}).offenses, P o := by
  refine (additive_offenses P).react (fun e _ => ?_) fun detail _ o ho => ?_
  · cases e with
    | report r =>
      unfold effect
      dsimp only
      split
      · rename_i o fix hr
        intro o' ho'
        obtain rfl := List.mem_singleton.1 ho'
        exact hraise r _ fix hr
      · exact fun _ hnone => absurd hnone List.not_mem_nil
    | trace => exact fun _ hnone => absurd hnone List.not_mem_nil
    | cancel => exact fun _ hnone => absurd hnone List.not_mem_nil
  · obtain rfl := List.mem_singleton.1 ho
    exact hbreakdown detail

/-- The fixes of a reaction are those of its reports. -/
theorem fixes_react {P : PendingFix → Prop}
    (hraise : ∀ report, .report report ∈ r.effects → ∀ o p, raise report = some (o, some p) → P p) :
    ∀ p ∈ (react raise code file node r {}).fixes, P p := by
  refine (additive_fixes P).react (fun e he => ?_) fun _ _ => nofun
  cases e with
  | report report =>
    unfold effect
    dsimp only
    split
    · rename_i o fix hreport
      intro p hp
      obtain rfl := Option.mem_toList.1 hp
      exact hraise report he o p hreport
    · exact nofun
  | trace => exact nofun
  | cancel => exact nofun

/-- A reaction that does not cancel the run lets it go on. -/
theorem live_react (hr : .cancel ∉ r.effects) :
    (react raise code file node r {}).around.cancelled = false := by
  refine additive_live.react (fun e he => ?_) fun _ _ => rfl
  cases e with
  | report r =>
    unfold effect
    dsimp only
    split <;> rfl
  | trace => rfl
  | cancel => exact absurd he hr

end Tally

/-! ## Moments -/

/-- A moment of a visit: the node at hand, what checks are called for, and which checks. -/
structure Moment where
  node : Option Node
  visit : Visit
  wanted : Check → Bool

/-- The moments of walking a tree. -/
def treeMoments (f : SourceFile) (tree : Node) : List Moment :=
  tree.firings.map fun p =>
    ⟨some p.2, .node f p.1 p.2, fun k => k.listensTo (Check.treeCategory f tree) p.1⟩

/-- The moments of visiting a file: what its trees fire, then its end. -/
def moments (f : SourceFile) : List Moment :=
  f.trees.flatMap (treeMoments f) ++ [⟨none, .endFile f, fun k => k.info.appliesTo f.info.category⟩]

end Analysis

/-- The file that a check is called for. -/
def Visit.file : Visit → SourceFile
  | .node f _ _ => f
  | .endFile f => f

theorem Analysis.file_of_mem_moments {f : SourceFile} {m : Analysis.Moment}
    (hm : m ∈ Analysis.moments f) : m.visit.file = f := by
  rcases List.mem_append.1 hm with hm | hm
  · obtain ⟨tree, -, hm⟩ := List.mem_flatMap.1 hm
    obtain ⟨p, -, rfl⟩ := List.mem_map.1 hm
    rfl
  · obtain rfl := List.mem_singleton.1 hm
    rfl

/-- The check is called for `v` at some moment of the file. -/
def Check.CalledIn (k : Check) (f : SourceFile) (v : Visit) : Prop :=
  ∃ m ∈ Analysis.moments f, v = m.visit ∧ m.wanted k = true

namespace Analysis

namespace Slot

/-- What the check does at a moment, if it is called then. -/
def reaction? (m : Moment) (s : Slot) : Option (Reaction Report) :=
  if m.wanted s.check && !s.failed then some (s.check.onVisit s.past m.visit) else none

/-- The slot after a moment. -/
def after (s : Slot) (m : Moment) : Slot :=
  match s.reaction? m with
  | some r => { s with past := m.visit :: s.past, failed := r.crash.isSome }
  | none => s

/-- What the check raises at a moment. -/
def raised (o : AnalyzerOptions) (parsed : List ParsedFile) (f : SourceFile) (m : Moment)
    (s : Slot) : Tally :=
  match s.reaction? m with
  | some r => Tally.react (raise? o parsed s.check.info f) s.check.info.code (some f) m.node r {}
  | none => {}

/-- The slot at the start of a file. -/
def fresh (s : Slot) : Slot := { s with failed := false }

/-- The slot after a file. -/
def visited (f : SourceFile) (s : Slot) : Slot := (moments f).foldl after s.fresh

@[simp] theorem check_after (s : Slot) (m : Moment) : (s.after m).check = s.check := by
  unfold after
  split <;> rfl

theorem check_foldl_after (ms : List Moment) (s : Slot) : (ms.foldl after s).check = s.check := by
  induction ms generalizing s with
  | nil => rfl
  | cons m rest ih => rw [List.foldl_cons, ih, check_after]

@[simp] theorem check_visited (f : SourceFile) (s : Slot) : (s.visited f).check = s.check :=
  check_foldl_after _ _

/-- A check is called only at moments that want it. -/
theorem past_after {s : Slot} {m : Moment} {v : Visit} (hv : v ∈ (s.after m).past) :
    v ∈ s.past ∨ (v = m.visit ∧ m.wanted s.check = true) := by
  unfold after reaction? at hv
  split at hv
  · rename_i r hr
    split at hr
    · rename_i hwanted
      rcases List.mem_cons.1 hv with rfl | hv
      · exact .inr ⟨rfl, (Bool.and_eq_true_iff.1 hwanted).1⟩
      · exact .inl hv
    · exact nomatch hr
  · exact .inl hv

/-- What a check was called for in a file, it was called for at a moment that wants it. -/
theorem past_visited {f : SourceFile} {s : Slot} {v : Visit} (hv : v ∈ (s.visited f).past) :
    v ∈ s.past ∨ s.check.CalledIn f v := by
  have hfold (ms : List Moment) (s : Slot) (hv : v ∈ (ms.foldl after s).past) :
      v ∈ s.past ∨ ∃ m ∈ ms, v = m.visit ∧ m.wanted s.check = true := by
    induction ms generalizing s with
    | nil => exact .inl hv
    | cons m rest ih =>
      rcases ih _ hv with hv | ⟨m', hm', hvisit, hwanted⟩
      · exact (past_after hv).imp_right fun h => ⟨m, List.mem_cons_self .., h⟩
      · rw [check_after] at hwanted
        exact .inr ⟨m', List.mem_cons_of_mem _ hm', hvisit, hwanted⟩
  exact hfold (moments f) s.fresh hv

end Slot

/-! ## Visits -/

section Visits

variable (o : AnalyzerOptions) (parsed : List ParsedFile) (f : SourceFile)

/-- What the checks raise at one moment after the other. -/
def raisedOver : List Moment → List Slot → Tally
  | [], _ => {}
  | m :: rest, slots =>
    Tally.join (slots.map (Slot.raised o parsed f m)) ++ raisedOver rest (slots.map (·.after m))

/-- What the checks raise in a file. -/
def raisedIn (slots : List Slot) : Tally := raisedOver o parsed f (moments f) (slots.map Slot.fresh)

/-- Calls the checks at one moment. -/
def callAt (st : List Slot × Tally) (m : Moment) : List Slot × Tally :=
  callSlots o parsed f m.node m.visit m.wanted st.1 st.2

/-- **A moment takes each slot on by itself.** -/
theorem callAt_eq (m : Moment) (slots : List Slot) (t : Tally) :
    callAt o parsed f (slots, t) m =
      (slots.map (·.after m), t ++ Tally.join (slots.map (Slot.raised o parsed f m))) := by
  have hcall (s : Slot) (t : Tally) :
      (if m.wanted s.check then callSlot o parsed f m.node m.visit s t else (s, t)) =
        (s.after m, t ++ s.raised o parsed f m) := by
    unfold callSlot Slot.after Slot.raised Slot.reaction?
    by_cases hwanted : m.wanted s.check = true
    · by_cases hfailed : s.failed = true
      · rw [if_pos hwanted, if_pos hfailed, hwanted, hfailed]
        exact Prod.ext rfl t.append_empty.symm
      · rw [if_pos hwanted, if_neg hfailed, hwanted, Bool.eq_false_iff.2 hfailed]
        exact Prod.ext rfl (Tally.react_eq_append t)
    · rw [if_neg hwanted, Bool.eq_false_iff.2 hwanted]
      exact Prod.ext rfl t.append_empty.symm
  unfold callAt
  dsimp only
  induction slots generalizing t with
  | nil => exact Prod.ext rfl t.append_empty.symm
  | cons s rest ih =>
    rw [callSlots, hcall]
    dsimp only
    rw [ih, List.map_cons, List.map_cons, Tally.join_cons, Tally.append_assoc]

theorem foldl_callAt (ms : List Moment) (slots : List Slot) (t : Tally) :
    ms.foldl (callAt o parsed f) (slots, t) =
      (slots.map fun s => ms.foldl Slot.after s, t ++ raisedOver o parsed f ms slots) := by
  induction ms generalizing slots t with
  | nil => exact Prod.ext (List.map_id _).symm t.append_empty.symm
  | cons m rest ih =>
    rw [List.foldl_cons, callAt_eq, ih, List.map_map, raisedOver, Tally.append_assoc]
    rfl

theorem callTrees_eq (trees : List Node) (st : List Slot × Tally) :
    callTrees o parsed f trees st = (trees.flatMap (treeMoments f)).foldl (callAt o parsed f) st := by
  have hfirings (c : Project.Category) (firings : List (Event × Node)) (st : List Slot × Tally) :
      callFirings o parsed f c firings st =
        (firings.map fun p => (⟨some p.2, .node f p.1 p.2, fun k => k.listensTo c p.1⟩ : Moment)).foldl
          (callAt o parsed f) st := by
    induction firings generalizing st with
    | nil => rfl
    | cons p rest ih =>
      obtain ⟨e, n⟩ := p
      rw [callFirings, ih]
      rfl
  induction trees generalizing st with
  | nil => rfl
  | cons tree rest ih => rw [callTrees, ih, hfirings, List.flatMap_cons, List.foldl_append, treeMoments]

/-- **Visiting a file takes each slot on by itself**, and adds what the slots raise. -/
theorem visitFile_eq (slots : List Slot) (t : Tally) :
    visitFile o parsed f slots t = (slots.map (Slot.visited f), t ++ raisedIn o parsed f slots) := by
  have hmoments : visitFile o parsed f slots t =
      (moments f).foldl (callAt o parsed f) (slots.map Slot.fresh, t) := by
    dsimp only [visitFile]
    rw [callTrees_eq, moments, List.foldl_append]
    rfl
  rw [hmoments, foldl_callAt, List.map_map]
  rfl

/-- **What holds of all that the checks raise when they are called holds of a visit.**  A check is called
at moments that want it, and what it was called for in the file before are such moments too. -/
theorem raisedIn_induction {T : Tally → Prop} (hT : Tally.Additive T) {slots : List Slot}
    (h : ∀ s ∈ slots, ∀ past, (∀ v ∈ past, v ∈ s.past ∨ s.check.CalledIn f v) → ∀ m ∈ moments f,
      m.wanted s.check = true →
      T (Tally.react (raise? o parsed s.check.info f) s.check.info.code (some f) m.node
        (s.check.onVisit past m.visit) {})) :
    T (raisedIn o parsed f slots) := by
  -- `origin` takes each slot of the run back to the one that it started from
  have hover (ms : List Moment) (hms : ∀ m ∈ ms, m ∈ moments f) (running : List Slot)
      (hrunning : ∀ s ∈ running, ∃ origin ∈ slots, s.check = origin.check ∧
        ∀ v ∈ s.past, v ∈ origin.past ∨ origin.check.CalledIn f v) :
      T (raisedOver o parsed f ms running) := by
    induction ms generalizing running with
    | nil => exact hT.empty
    | cons m rest ih =>
      have hm := hms m (List.mem_cons_self ..)
      refine hT.append (hT.join fun t ht => ?_)
        (ih (fun m' hm' => hms m' (List.mem_cons_of_mem _ hm')) _ fun s hs => ?_)
      · obtain ⟨s, hs, rfl⟩ := List.mem_map.1 ht
        obtain ⟨origin, horigin, hcheck, hpast⟩ := hrunning s hs
        unfold Slot.raised Slot.reaction?
        by_cases hcalled : (m.wanted s.check && !s.failed) = true
        · rw [if_pos hcalled]
          have hwanted := (Bool.and_eq_true_iff.1 hcalled).1
          rw [hcheck] at hwanted ⊢
          exact h origin horigin s.past hpast m hm hwanted
        · rw [if_neg hcalled]
          exact hT.empty
      · obtain ⟨s', hs', rfl⟩ := List.mem_map.1 hs
        obtain ⟨origin, horigin, hcheck, hpast⟩ := hrunning s' hs'
        refine ⟨origin, horigin, (Slot.check_after s' m).trans hcheck, fun v hv => ?_⟩
        rcases Slot.past_after hv with hv | ⟨rfl, hwanted⟩
        · exact hpast v hv
        · exact .inr ⟨m, hm, rfl, hcheck ▸ hwanted⟩
  refine hover _ (fun _ hm => hm) _ fun s hs => ?_
  obtain ⟨s', hs', rfl⟩ := List.mem_map.1 hs
  exact ⟨s', hs', rfl, fun v hv => .inl hv⟩

theorem path_raise? {info : CheckInfo} {r : Report} {offense : Offense} {fix : Option PendingFix}
    (h : raise? o parsed info f r = some (offense, fix)) : offense.path = f.path := by
  unfold raise? at h
  dsimp only at h
  split at h
  · exact nomatch h
  · obtain ⟨rfl, -⟩ := Prod.mk.inj (Option.some.inj h)
    rfl

/-- The fix that is raised with a report is the one that is attached to it. -/
theorem of_raise?_fix {info : CheckInfo} {f : SourceFile} {r : Report} {offense : Offense}
    {p : PendingFix} (h : raise? o parsed info f r = some (offense, some p)) :
    p.path = f.path ∧ r.fix = some p.fix := by
  unfold raise? at h
  dsimp only at h
  split at h
  · exact nomatch h
  · obtain ⟨-, hfix⟩ := Prod.mk.inj (Option.some.inj h)
    obtain ⟨fix, hr, rfl⟩ := Option.map_eq_some_iff.1 hfix
    exact ⟨rfl, hr⟩

/-- **The offenses of a visit are about the file.** -/
theorem path_raisedIn (slots : List Slot) :
    ∀ offense ∈ (raisedIn o parsed f slots).offenses, offense.path = f.path :=
  raisedIn_induction o parsed f (Tally.additive_offenses (·.path = f.path)) fun _ _ _ _ _ _ _ =>
    Tally.offenses_react (fun _ _ _ => path_raise? o parsed f) fun _ => rfl

/-- **The fixes of a visit are about the file.** -/
theorem fixes_path_raisedIn (slots : List Slot) :
    ∀ p ∈ (raisedIn o parsed f slots).fixes, p.path = f.path :=
  raisedIn_induction o parsed f (Tally.additive_fixes (·.path = f.path)) fun _ _ _ _ _ _ _ =>
    Tally.fixes_react fun _ _ _ _ hraise => (of_raise?_fix o parsed hraise).1

/-- **A visit lets the run go on** where no check cancels it. -/
theorem live_raisedIn {slots : List Slot} (h : ∀ s ∈ slots, s.check.NeverCancels) :
    (raisedIn o parsed f slots).around.cancelled = false :=
  raisedIn_induction o parsed f Tally.additive_live fun s hs past _ m _ _ =>
    Tally.live_react ((h s hs).visit past m.visit)

/-- Only the comments of the file count. -/
theorem raisedIn_congr {parsed' : List ParsedFile}
    (h : parsed.find? (fun p => p.file.path = f.path) = parsed'.find? fun p => p.file.path = f.path)
    (slots : List Slot) : raisedIn o parsed f slots = raisedIn o parsed' f slots := by
  have hraise (info : CheckInfo) : raise? o parsed info f = raise? o parsed' info f := by
    funext r
    unfold raise?
    rw [h]
  have hraised (m : Moment) : Slot.raised o parsed f m = Slot.raised o parsed' f m := by
    funext s
    unfold Slot.raised
    rw [hraise]
  have hover (ms : List Moment) (slots : List Slot) :
      raisedOver o parsed f ms slots = raisedOver o parsed' f ms slots := by
    induction ms generalizing slots with
    | nil => rfl
    | cons m rest ih => rw [raisedOver, raisedOver, ih, hraised]
  exact hover _ _

end Visits

/-! ## Visits of several files -/

/-- What the checks raise in one file after the other. -/
def raisedAcross (o : AnalyzerOptions) (parsed : List ParsedFile) :
    List SourceFile → List Slot → Tally
  | [], _ => {}
  | f :: rest, slots =>
    raisedIn o parsed f slots ++ raisedAcross o parsed rest (slots.map (Slot.visited f))

/-- The slot after some files. -/
def Slot.visitedAll (files : List SourceFile) (s : Slot) : Slot :=
  files.foldl (fun s f => s.visited f) s

@[simp] theorem Slot.check_visitedAll (files : List SourceFile) (s : Slot) :
    (s.visitedAll files).check = s.check := by
  unfold visitedAll
  induction files generalizing s with
  | nil => rfl
  | cons f rest ih => rw [List.foldl_cons, ih, check_visited]

theorem raisedAcross_append (o : AnalyzerOptions) (parsed : List ParsedFile)
    (files rest : List SourceFile) (slots : List Slot) :
    raisedAcross o parsed (files ++ rest) slots =
      raisedAcross o parsed files slots ++
        raisedAcross o parsed rest (slots.map (Slot.visitedAll files)) := by
  induction files generalizing slots with
  | nil => exact congrArg _ (List.map_id _).symm
  | cons f files ih =>
    rw [List.cons_append, raisedAcross, raisedAcross, ih, List.map_map, Tally.append_assoc]
    rfl

/-- What a check was called for across files, it was called for at a moment of one of them. -/
theorem Slot.past_visitedAll {files : List SourceFile} {s : Slot} {v : Visit}
    (hv : v ∈ (s.visitedAll files).past) :
    v ∈ s.past ∨ ∃ f ∈ files, ∃ m ∈ moments f, v = m.visit ∧ m.wanted s.check = true := by
  unfold visitedAll at hv
  induction files generalizing s with
  | nil => exact .inl hv
  | cons f rest ih =>
    rcases ih hv with hv | ⟨f', hf', m, hm, hvisit, hwanted⟩
    · rcases past_visited hv with hv | hmoment
      · exact .inl hv
      · exact .inr ⟨f, List.mem_cons_self .., hmoment⟩
    · rw [check_visited] at hwanted
      exact .inr ⟨f', List.mem_cons_of_mem _ hf', m, hm, hvisit, hwanted⟩

theorem live_raisedAcross (o : AnalyzerOptions) (parsed : List ParsedFile)
    (files : List SourceFile) {slots : List Slot} (h : ∀ s ∈ slots, s.check.NeverCancels) :
    (raisedAcross o parsed files slots).around.cancelled = false := by
  induction files generalizing slots with
  | nil => rfl
  | cons f rest ih =>
    refine Tally.additive_live.append (live_raisedIn o parsed f h) (ih fun s hs => ?_)
    obtain ⟨s', hs', rfl⟩ := List.mem_map.1 hs
    rw [Slot.check_visited]
    exact h s' hs'

/-- What holds of each visit holds of all of them together. -/
theorem raisedAcross_induction (o : AnalyzerOptions) (parsed : List ParsedFile) {T : Tally → Prop}
    (hT : Tally.Additive T) {files : List SourceFile}
    (h : ∀ f ∈ files, ∀ slots, T (raisedIn o parsed f slots)) (slots : List Slot) :
    T (raisedAcross o parsed files slots) := by
  induction files generalizing slots with
  | nil => exact hT.empty
  | cons f rest ih =>
    exact hT.append (h f (List.mem_cons_self ..) slots)
      (ih (fun f hf => h f (List.mem_cons_of_mem _ hf)) _)

/-- What is raised across files is about one of them. -/
theorem path_raisedAcross (o : AnalyzerOptions) (parsed : List ParsedFile)
    (files : List SourceFile) (slots : List Slot) :
    ∀ offense ∈ (raisedAcross o parsed files slots).offenses, ∃ f ∈ files, offense.path = f.path :=
  raisedAcross_induction o parsed (Tally.additive_offenses _)
    (fun f hf slots offense h => ⟨f, hf, path_raisedIn o parsed f slots offense h⟩) slots

/-- The fixes that are raised across files are about one of them. -/
theorem fixes_path_raisedAcross (o : AnalyzerOptions) (parsed : List ParsedFile)
    (files : List SourceFile) (slots : List Slot) :
    ∀ p ∈ (raisedAcross o parsed files slots).fixes, ∃ f ∈ files, p.path = f.path :=
  raisedAcross_induction o parsed (Tally.additive_fixes _)
    (fun f hf slots p h => ⟨f, hf, fixes_path_raisedIn o parsed f slots p h⟩) slots

/-! ## The look at the project -/

section Project

variable (o : AnalyzerOptions) (parsed : List ParsedFile) (view : ProjectView)

/-- What a check raises when it looks at the project. -/
def Slot.raisedOn (s : Slot) : Tally :=
  match s.check.onProject with
  | some react =>
    Tally.react (raiseReport? o parsed s.check.info) s.check.info.code none none (react s.past view) {}
  | none => {}

/-- **Checks look at the project each by itself**, where none cancels the run. -/
theorem projectPass_live {slots : List Slot} (h : ∀ s ∈ slots, s.check.NeverCancels) {t : Tally}
    (ht : t.around.cancelled = false) :
    projectPass o parsed view slots t =
      t ++ Tally.join (slots.map (Slot.raisedOn o parsed view)) := by
  induction slots generalizing t with
  | nil => exact t.append_empty.symm
  | cons s rest ih =>
    have hrest := fun s' hs' => h s' (List.mem_cons_of_mem s hs')
    rw [projectPass, List.map_cons, Tally.join_cons]
    unfold Slot.raisedOn
    cases hproject : s.check.onProject with
    | none => exact ih hrest ht
    | some react =>
      have hlive := (h s (List.mem_cons_self ..)).project react hproject s.past view
      dsimp only
      rw [if_neg (by rw [ht]; exact Bool.false_ne_true), Tally.react_eq_append,
        ih hrest (Tally.additive_live.append ht (Tally.live_react hlive)), Tally.append_assoc]
      rfl

/-- A cancelled run does not look at the project. -/
theorem projectPass_cancelled (slots : List Slot) {t : Tally} (ht : t.around.cancelled = true) :
    projectPass o parsed view slots t = t := by
  induction slots with
  | nil => rfl
  | cons s rest ih =>
    rw [projectPass]
    split
    · exact ih
    · rw [if_pos ht]

/-- Checks that do not cancel a run leave it as it is when they look at the project. -/
theorem cancelled_projectPass {slots : List Slot} (h : ∀ s ∈ slots, s.check.NeverCancels) (t : Tally) :
    (projectPass o parsed view slots t).around.cancelled = t.around.cancelled := by
  cases ht : t.around.cancelled with
  | true => rw [projectPass_cancelled _ _ _ _ ht, ht]
  | false =>
    rw [projectPass_live o parsed view h ht]
    refine Tally.additive_live.append ht (Tally.additive_live.join fun raised hraised => ?_)
    obtain ⟨s, hs, rfl⟩ := List.mem_map.1 hraised
    unfold Slot.raisedOn
    cases hproject : s.check.onProject with
    | none => rfl
    | some react => exact Tally.live_react ((h s hs).project react hproject s.past view)

end Project

end Analysis
end LiquidLint
