import LiquidLint.Proofs.OrderedTables
import LiquidLint.Session

/-!
# Versions in a session

A session answers to results in the order in which they arrive.  What it holds of a path is a record or
the version that was dropped last, never both (`Standing.Sound`), and gives the version from which on
results are accepted (`Standing.floor`).  A result is accepted exactly if its version reaches that floor
(`Sound.isStale_eq`), so that no result of an older version comes back.

A call keeps what is held of a path, takes up a result that reaches the floor or drops the path
(`Sound.step_change`); from this follows by induction what a run of calls keeps (`sound_run`).
-/

namespace LiquidLint
namespace Session

/-- What is held of a path. -/
structure Standing where
  record : Option Record
  /-- The version that was dropped last. -/
  gone : Option Int

namespace Standing

/-- The version from which on results are accepted: the recorded one, else the one after the version
that was dropped last, else zero. -/
def floor (st : Standing) : Int :=
  match st.record, st.gone with
  | some r, _ => r.version
  | none, some gone => gone + 1
  | none, none => 0

/-- There is no record and dropped version together, and a recorded version is not negative. -/
structure Sound (st : Standing) : Prop where
  apart : st.record = none ∨ st.gone = none
  recorded : ∀ r, st.record = some r → 0 ≤ r.version

/-- The last version that is known of a path when it is at least `version`. -/
def last (st : Standing) (version : Int) : Int :=
  let version := match st.record with
    | some r => max version r.version
    | none => version
  max version (st.gone.getD 0)

/-- What is held of a path that was dropped and whose last version is at least `version`. -/
def dropped (st : Standing) (version : Int) : Standing :=
  { record := none, gone := if 0 < st.last version then some (st.last version) else st.gone }

theorem sound_dropped (st : Standing) (version : Int) : (st.dropped version).Sound :=
  ⟨.inl rfl, nofun⟩

theorem record_le_last {st : Standing} {r : Record} (h : st.record = some r) (version : Int) :
    r.version ≤ st.last version := by
  unfold last
  rw [h]
  dsimp only
  omega

theorem gone_le_last {st : Standing} {gone : Int} (h : st.gone = some gone) (version : Int) :
    gone ≤ st.last version := by
  unfold last
  rw [h]
  dsimp only [Option.getD_some]
  omega

/-- **Dropping a path does not lower its floor.** -/
theorem Sound.floor_le_dropped {st : Standing} (h : st.Sound) (version : Int) :
    st.floor ≤ (st.dropped version).floor := by
  have hfloor : (st.dropped version).floor =
      if 0 < st.last version then st.last version + 1
      else (⟨none, st.gone⟩ : Standing).floor := by
    unfold dropped
    split
    · rfl
    · rfl
  rw [hfloor]
  -- a path without a positive version leaves no mark, and then its floor was zero
  cases hrecord : st.record with
  | some r =>
    have hle := record_le_last hrecord version
    have hgone : st.gone = none := h.apart.resolve_left (by rw [hrecord]; nofun)
    unfold floor
    rw [hrecord, hgone]
    dsimp only
    split <;> omega
  | none =>
    cases hgone : st.gone with
    | some gone =>
      have hle := gone_le_last hgone version
      unfold floor
      rw [hrecord, hgone]
      dsimp only
      split <;> omega
    | none =>
      unfold floor
      rw [hrecord, hgone]
      dsimp only
      split <;> omega

end Standing

/-- What a session holds of a path. -/
def standing (s : Session) (path : Text) : Standing :=
  ⟨s.records.get? path, s.forgotten.get? path⟩

/-- What the session holds of each path is sound. -/
def Sound (s : Session) : Prop := ∀ path, (s.standing path).Sound

theorem sound_empty : Sound {} := fun _ => ⟨.inl rfl, nofun⟩

/-! ## Steps -/

section Step

variable {s : Session}

/-- **A result comes too late exactly if its version is below the floor.** -/
theorem Sound.isStale_eq (hs : s.Sound) (path : Text) {version : Int} (hversion : 0 ≤ version) :
    s.isStale path version = decide (version < (s.standing path).floor) := by
  have hapart := (hs path).apart
  unfold isStale standing Standing.floor at *
  cases hrecord : s.records.get? path with
  | some r =>
    have hgone : s.forgotten.get? path = none := by
      rw [hrecord] at hapart
      exact hapart.resolve_left nofun
    rw [hgone]
    exact Bool.or_false _
  | none =>
    cases hgone : s.forgotten.get? path with
    | some gone =>
      refine (Bool.false_or _).trans (decide_eq_decide.2 ?_)
      dsimp only
      omega
    | none =>
      refine (decide_eq_false ?_).symm
      dsimp only
      omega

theorem standing_setRecord (target : Text) (r : Record) (path : Text) :
    (s.setRecord target r).standing path = if path = target then ⟨some r, none⟩ else s.standing path := by
  unfold standing setRecord
  rw [Table.get?_insert, Table.get?_erase]
  by_cases h : path = target
  · rw [if_pos h, if_pos h, if_pos h]
  · rw [if_neg h, if_neg h, if_neg h]

theorem standing_forgetAt (target : Text) (version : Int) (path : Text) :
    (s.forgetAt target version).standing path =
      if path = target then (s.standing path).dropped version else s.standing path := by
  have hforget : (s.forgetAt target version).standing path =
      ⟨(s.records.erase target).get? path,
        (if 0 < (s.standing target).last version then
          s.forgotten.insert target ((s.standing target).last version)
        else s.forgotten).get? path⟩ := rfl
  rw [hforget, Table.get?_erase, apply_ite (Table.get? · path), Table.get?_insert]
  by_cases h : path = target
  · subst h
    rw [if_pos rfl, if_pos rfl, if_pos rfl]
    rfl
  · rw [if_neg h, if_neg h, if_neg h, ite_self]
    rfl

/-- Takes up a result unless it comes too late. -/
def offer (s : Session) (path : Text) (r : Record) : Session × Bool :=
  if s.isStale path r.version then (s, false) else (s.setRecord path r, true)

/-- **A result is taken up exactly if its version reaches the floor of its path**, and nothing else
changes. -/
theorem Sound.offer (hs : s.Sound) (target : Text) {r : Record} (hr : 0 ≤ r.version) :
    ((s.offer target r).2 = true ↔ (s.standing target).floor ≤ r.version) ∧
      ∀ path, (s.offer target r).1.standing path =
        if path = target ∧ (s.standing target).floor ≤ r.version then ⟨some r, none⟩
        else s.standing path := by
  unfold Session.offer
  rw [hs.isStale_eq target hr]
  by_cases hlate : r.version < (s.standing target).floor
  · rw [decide_eq_true hlate, if_pos rfl]
    refine ⟨iff_of_false nofun (Int.not_le.2 hlate), fun path => (if_neg ?_).symm⟩
    exact fun h => absurd h.2 (Int.not_le.2 hlate)
  · have hreach := Int.not_lt.1 hlate
    rw [decide_eq_false hlate, if_neg Bool.false_ne_true]
    refine ⟨iff_of_true rfl hreach, fun path => ?_⟩
    rw [standing_setRecord]
    by_cases h : path = target
    · rw [if_pos h, if_pos ⟨h, hreach⟩]
    · rw [if_neg h, if_neg fun hboth => h hboth.1]

end Step

/-! ## Runs of an analysis -/

/-- The record that a run of an analysis offers for a path of which `cur` is recorded. -/
def runRecord (f : Findings) (cur : Option Record) (path : Text) : Record :=
  recordAfter f cur path (versionOf f cur path)

/-- The versions that a run names are not negative. -/
def NonNegative (f : Findings) : Prop := ∀ path version, f.versions.get? path = some version → 0 ≤ version

theorem version_runRecord_nonneg {f : Findings} (hf : NonNegative f) {st : Standing} (hst : st.Sound)
    (path : Text) : 0 ≤ (runRecord f st.record path).version := by
  show 0 ≤ versionOf f st.record path
  unfold versionOf
  split
  · rename_i version hversion
    exact hf path version hversion
  · split
    · rename_i o ho
      have hpositive := List.find?_some ho
      exact Int.le_of_lt (of_decide_eq_true hpositive)
    · cases hrecord : st.record with
      | some r => exact hst.recorded r hrecord
      | none => exact Int.le_refl 0

/-- Recording a run for one path offers its record. -/
theorem recordPath_eq (s : Session) (f : Findings) (path : Text) :
    s.recordPath f path = s.offer path (runRecord f (s.standing path).record path) := rfl

/-- Records a run for paths one after the other, and counts those that were updated. -/
def recordPaths (f : Findings) (paths : List Text) (s : Session) (n : Nat) : Session × Nat :=
  paths.foldl (fun (s, n) path =>
    let (s, updated) := s.recordPath f path
    (s, if updated then n + 1 else n)) (s, n)

theorem recordPaths_cons (f : Findings) (first : Text) (rest : List Text) (s : Session) (n : Nat) :
    recordPaths f (first :: rest) s n =
      recordPaths f rest (s.recordPath f first).1
        (if (s.recordPath f first).2 then n + 1 else n) := rfl

/-- Whether a result for a version comes too late for what is held of a path. -/
def Standing.isStale (st : Standing) (version : Int) : Bool :=
  st.record.any (fun r => version < r.version) || st.gone.any fun gone => version ≤ gone

/-- Whether what a run offers for a path is taken up. -/
def takes (f : Findings) (st : Standing) (path : Text) : Bool :=
  !st.isStale (runRecord f st.record path).version

/-- **Recording a run for one path** takes up what it offers unless that comes too late, and changes
nothing else. -/
theorem recordPath_spec (s : Session) (f : Findings) (target : Text) :
    (s.recordPath f target).2 = takes f (s.standing target) target ∧
      ∀ path, (s.recordPath f target).1.standing path =
        if path = target ∧ takes f (s.standing target) target = true then
          ⟨some (runRecord f (s.standing target).record target), none⟩
        else s.standing path := by
  have hstale : s.isStale target (runRecord f (s.standing target).record target).version =
      !takes f (s.standing target) target := (Bool.not_not _).symm
  rw [recordPath_eq, offer, hstale]
  cases takes f (s.standing target) target with
  | true =>
    refine ⟨rfl, fun path => ?_⟩
    rw [Bool.not_true, if_neg Bool.false_ne_true, standing_setRecord]
    simp only [and_true]
  | false => exact ⟨rfl, fun path => (if_neg fun h => Bool.false_ne_true h.2).symm⟩

/-- **A run is recorded path by path.**  What it offers for each of some different paths is taken up
unless that comes too late for what was held of the path before, and nothing else changes. -/
theorem recordPaths_spec {f : Findings} {paths : List Text} (hpaths : paths.Nodup) (s : Session)
    (n : Nat) :
    (recordPaths f paths s n).2 = n + paths.countP (fun path => takes f (s.standing path) path) ∧
      ∀ path, (recordPaths f paths s n).1.standing path =
        if path ∈ paths ∧ takes f (s.standing path) path = true then
          ⟨some (runRecord f (s.standing path).record path), none⟩
        else s.standing path := by
  induction paths generalizing s n with
  | nil => exact ⟨rfl, fun path => (if_neg fun h => nomatch h.1).symm⟩
  | cons first rest ih =>
    obtain ⟨hfirst, hrest⟩ := List.nodup_cons.1 hpaths
    obtain ⟨htold, hstanding⟩ := recordPath_spec s f first
    -- the paths that are left stand as before
    have hother (path : Text) (hpath : path ≠ first) :
        (s.recordPath f first).1.standing path = s.standing path := by
      rw [hstanding, if_neg fun h => hpath h.1]
    obtain ⟨hcount, hafter⟩ := ih hrest (s.recordPath f first).1
      (if (s.recordPath f first).2 then n + 1 else n)
    rw [recordPaths_cons]
    refine ⟨?_, fun path => ?_⟩
    · -- so what is offered for them is taken up as before
      have hsame : rest.countP (fun path =>
            takes f ((s.recordPath f first).1.standing path) path) =
          rest.countP (fun path => takes f (s.standing path) path) := by
        refine List.countP_congr fun path hpath => ?_
        rw [hother path fun h => hfirst (h ▸ hpath)]
      rw [hcount, hsame, htold, List.countP_cons]
      split <;> omega
    · rw [hafter]
      by_cases hpath : path = first
      · subst hpath
        rw [if_neg fun h => hfirst h.1, hstanding]
        simp only [List.mem_cons, true_or, true_and]
      · rw [hother path hpath]
        simp only [List.mem_cons, hpath, false_or]

/-- **Recording a run** takes up what it offers for the paths that it touches, unless that comes too
late. -/
theorem recordRun_spec (s : Session) (f : Findings) :
    (s.recordRun f).2 = (s.touched f).countP (fun path => takes f (s.standing path) path) ∧
      ∀ path, (s.recordRun f).1.standing path =
        if path ∈ s.touched f ∧ takes f (s.standing path) path = true then
          ⟨some (runRecord f (s.standing path).record path), none⟩
        else s.standing path := by
  have hrun : s.recordRun f = Session.recordPaths f (s.touched f) s 0 := rfl
  have htouched : (s.touched f).Nodup := Text.nodup_sortDedup _
  obtain ⟨hcount, hafter⟩ := recordPaths_spec htouched s 0
  rw [hrun]
  exact ⟨hcount.trans (Nat.zero_add _), hafter⟩

/-- Whether a run offers a result for a path that reaches its floor. -/
def reaches (f : Findings) (st : Standing) (path : Text) : Bool :=
  st.floor ≤ (runRecord f st.record path).version

/-- In a sound session, recording a run takes up the results that reach the floors. -/
theorem Sound.recordRun {s : Session} (hs : s.Sound) {f : Findings} (hf : NonNegative f) :
    (s.recordRun f).2 = (s.touched f).countP (fun path => reaches f (s.standing path) path) ∧
      ∀ path, (s.recordRun f).1.standing path =
        if path ∈ s.touched f ∧ reaches f (s.standing path) path = true then
          ⟨some (runRecord f (s.standing path).record path), none⟩
        else s.standing path := by
  have htakes : (fun path => takes f (s.standing path) path) =
      fun path => reaches f (s.standing path) path := by
    funext path
    have hstale := hs.isStale_eq path (version_runRecord_nonneg hf (hs path) path)
    show (!s.isStale path _) = _
    rw [hstale, ← decide_not]
    exact decide_eq_decide.2 Int.not_lt
  obtain ⟨hcount, hafter⟩ := recordRun_spec s f
  refine ⟨hcount.trans (by rw [htakes]), fun path => ?_⟩
  rw [hafter, congrFun htakes path]

/-! ## Changes -/

/-- A call that changes what a session holds. -/
inductive Change where
  | record (path : Text) (version : Int) (offenses : List Offense)
  | recordRun (findings : Findings)
  | forget (path : Text)
  | forgetAt (path : Text) (version : Int)

/-- The versions that a call names are not negative. -/
def Change.NonNegative : Change → Prop
  | .record _ version _ => 0 ≤ version
  | .recordRun findings => Session.NonNegative findings
  | .forget _ => True
  | .forgetAt _ version => 0 ≤ version

/-- The session after a call, with the number of results that the call says it has accepted. -/
def change (s : Session) : Change → Session × Nat
  | .record path version offenses =>
    let (s, accepted) := s.record path version offenses
    (s, accepted.toNat)
  | .recordRun findings => s.recordRun findings
  | .forget path => (s.forget path, 0)
  | .forgetAt path version => (s.forgetAt path version, 0)

/-- The results that a call offers, by path. -/
def results (s : Session) : Change → List (Text × Record)
  | .record path version offenses => [(path, { version, single := offenses })]
  | .recordRun findings =>
    (s.touched findings).map fun path =>
      (path, runRecord findings (s.standing path).record path)
  | .forget _ | .forgetAt .. => []

/-- Whether a result reaches the floor of its path. -/
def isCurrent (s : Session) (result : Text × Record) : Bool :=
  (s.standing result.1).floor ≤ result.2.version

/-- What a call can do to what is held of a path: nothing, to take up one of the results that are
offered for the path if it reaches the floor, or to drop the path. -/
inductive Step (offered : Record → Prop) (st : Standing) : Standing → Prop where
  | keep : Step offered st st
  | take {r : Record} : offered r → 0 ≤ r.version → st.floor ≤ r.version →
      Step offered st ⟨some r, none⟩
  | drop (version : Int) : Step offered st (st.dropped version)

namespace Step

variable {offered : Record → Prop} {st st' : Standing}

theorem sound (h : Step offered st st') (hst : st.Sound) : st'.Sound := by
  cases h with
  | keep => exact hst
  | take _ hversion _ => exact ⟨.inr rfl, fun r hr => Option.some.inj hr ▸ hversion⟩
  | drop version => exact st.sound_dropped version

/-- **No call lowers the floor of a path.** -/
theorem floor_le (h : Step offered st st') (hst : st.Sound) : st.floor ≤ st'.floor := by
  cases h with
  | keep => exact Int.le_refl _
  | take _ _ hreach => exact hreach
  | drop version => exact hst.floor_le_dropped version

/-- What is recorded after a call was recorded before it, or was offered and reaches the floor. -/
theorem of_record {r : Record} (h : Step offered st st') (hr : st'.record = some r) :
    st.record = some r ∨ offered r ∧ st.floor ≤ r.version := by
  cases h with
  | keep => exact .inl hr
  | take hoffered _ hreach =>
    obtain rfl := Option.some.inj hr
    exact .inr ⟨hoffered, hreach⟩
  | drop => exact nomatch hr

end Step

section Change

variable {s : Session} {c : Change}

/-- Recording a result offers it. -/
theorem change_record (s : Session) (path : Text) (version : Int) (offenses : List Offense) :
    s.change (.record path version offenses) =
      let (t, accepted) := s.offer path { version, single := offenses }
      (t, accepted.toNat) := rfl

/-- **What a call does to what is held of a path.** -/
theorem Sound.step_change (hs : s.Sound) (hc : c.NonNegative) (path : Text) :
    Step (fun r => (path, r) ∈ s.results c) (s.standing path) ((s.change c).1.standing path) := by
  cases c with
  | record target version offenses =>
    have hversion : 0 ≤ ({ version, single := offenses } : Record).version := hc
    rw [change_record, (hs.offer target hversion).2 path]
    split
    · rename_i h
      obtain ⟨rfl, hreach⟩ := h
      exact .take (List.mem_singleton.2 rfl) hversion hreach
    · exact .keep
  | recordRun findings =>
    rw [show s.change (.recordRun findings) = s.recordRun findings from rfl, (hs.recordRun hc).2 path]
    split
    · rename_i h
      obtain ⟨htouched, hreach⟩ := h
      exact .take (List.mem_map.2 ⟨path, htouched, rfl⟩)
        (version_runRecord_nonneg hc (hs path) path) (of_decide_eq_true hreach)
    · exact .keep
  | forget target =>
    rw [show (s.change (.forget target)).1 = s.forgetAt target 0 from rfl, standing_forgetAt]
    split
    · exact .drop 0
    · exact .keep
  | forgetAt target version =>
    rw [show (s.change (.forgetAt target version)).1 = s.forgetAt target version from rfl,
      standing_forgetAt]
    split
    · exact .drop version
    · exact .keep

/-- **A result that a call offers replaces what is held of its path exactly if it reaches the floor.** -/
theorem Sound.standing_result (hs : s.Sound) (hc : c.NonNegative) {path : Text} {r : Record}
    (hr : (path, r) ∈ s.results c) :
    (s.change c).1.standing path =
      if (s.standing path).floor ≤ r.version then ⟨some r, none⟩ else s.standing path := by
  cases c with
  | record target version offenses =>
    obtain ⟨rfl, rfl⟩ := Prod.mk.inj (List.mem_singleton.1 hr)
    have hversion : 0 ≤ ({ version, single := offenses } : Record).version := hc
    rw [change_record, (hs.offer path hversion).2 path]
    simp only [true_and]
  | recordRun findings =>
    obtain ⟨target, htarget, heq⟩ := List.mem_map.1 hr
    obtain ⟨rfl, rfl⟩ := Prod.mk.inj heq
    rw [show s.change (.recordRun findings) = s.recordRun findings from rfl, (hs.recordRun hc).2 target]
    simp only [reaches, decide_eq_true_eq, htarget, true_and]
  | forget => exact nomatch hr
  | forgetAt => exact nomatch hr

/-- A call says how many of the results that it offers reach the floors of their paths. -/
theorem Sound.accepted_change (hs : s.Sound) (hc : c.NonNegative) :
    (s.change c).2 = (s.results c).countP s.isCurrent := by
  cases c with
  | record path version offenses =>
    have hversion : 0 ≤ ({ version, single := offenses } : Record).version := hc
    have htold : (s.offer path { version, single := offenses }).2 =
        s.isCurrent (path, { version, single := offenses }) :=
      Bool.eq_iff_iff.2 ((hs.offer path hversion).1.trans decide_eq_true_iff.symm)
    rw [change_record]
    dsimp only [results]
    rw [htold, List.countP_singleton]
    cases s.isCurrent (path, { version, single := offenses }) <;> rfl
  | recordRun findings =>
    refine (hs.recordRun hc).1.trans ?_
    rw [results, List.countP_map]
    rfl
  | forget => rfl
  | forgetAt => rfl

end Change

/-! ## Runs of calls -/

/-- The session after calls to an empty one. -/
def run (changes : List Change) : Session := changes.foldl (fun s c => (s.change c).1) {}

theorem sound_run {changes : List Change} (h : ∀ c ∈ changes, c.NonNegative) : (run changes).Sound := by
  -- the calls go on from any sound session
  have hfrom (s : Session) (hs : s.Sound) :
      (changes.foldl (fun s c => (s.change c).1) s).Sound := by
    induction changes generalizing s with
    | nil => exact hs
    | cons c rest ih =>
      refine ih (fun c' hc' => h c' (List.mem_cons_of_mem _ hc')) _ fun path => ?_
      exact (hs.step_change (h c (List.mem_cons_self ..)) path).sound (hs path)
  exact hfrom {} sound_empty

/-- **Results never go back.**  After any calls to a session, one call more does not lower the floor of
any path.  What it records of a path was recorded before or was offered and reaches the floor; a result
that reaches the floor is held from then on, and one that does not leaves the record and the dropped
version of the path as they are.  The call counts the results that it accepted, and no path has a record
and a dropped version together. -/
theorem floor_never_falls {changes : List Change} (hchanges : ∀ c ∈ changes, c.NonNegative)
    {c : Change} (hc : c.NonNegative) (path : Text) :
    let s := run changes
    let before := s.standing path
    let after := (s.change c).1.standing path
    before.floor ≤ after.floor ∧
      (∀ r, after.record = some r →
        before.record = some r ∨ (path, r) ∈ s.results c ∧ before.floor ≤ r.version) ∧
      (∀ r, (path, r) ∈ s.results c →
        (before.floor ≤ r.version ∧ after = ⟨some r, none⟩) ∨
          (r.version < before.floor ∧ after = before)) ∧
      (s.change c).2 = (s.results c).countP s.isCurrent ∧
      (after.record = none ∨ after.gone = none) := by
  intro s before after
  have hs : s.Sound := sound_run hchanges
  have hstep := hs.step_change hc path
  refine ⟨hstep.floor_le (hs path), fun r => hstep.of_record, fun r hr => ?_,
    hs.accepted_change hc, (hstep.sound (hs path)).apart⟩
  have hafter : after = if before.floor ≤ r.version then ⟨some r, none⟩ else before :=
    hs.standing_result hc hr
  by_cases hreach : before.floor ≤ r.version
  · exact .inl ⟨hreach, hafter.trans (if_pos hreach)⟩
  · exact .inr ⟨Int.not_le.1 hreach, hafter.trans (if_neg hreach)⟩

/-- A run that looked at the third version of a file comes too late when that version was recorded and
dropped, and changes nothing. -/
theorem floor_never_falls_removed :
    let changes : List Change := [.record "a" 3 [], .forget "a"]
    let late : Change := .recordRun { paths := ["a"], versions := ⟨[("a", 3)]⟩ }
    (∀ c ∈ changes, c.NonNegative) ∧ late.NonNegative ∧
      ((run changes).standing "a").floor = 4 ∧
      ((run changes).change late).1.standing "a" = (run changes).standing "a" := by
  intro changes late
  have hchanges : ∀ c ∈ changes, c.NonNegative := by
    intro c hc
    rcases List.mem_cons.1 hc with rfl | hc
    · exact (by decide : (0 : Int) ≤ 3)
    · obtain rfl := List.mem_singleton.1 hc
      exact trivial
  have hlate : late.NonNegative := by
    intro path version hversion
    rw [Table.get?, List.lookup_cons] at hversion
    split at hversion
    · obtain rfl := Option.some.inj hversion
      decide
    · exact nomatch hversion
  have hfloor : ((run changes).standing "a").floor = 4 := by decide +kernel
  refine ⟨hchanges, hlate, hfloor, ?_⟩
  obtain ⟨-, -, hoffered, -⟩ := floor_never_falls hchanges hlate "a"
  have hresult : (("a" : Text), ({ version := 3 } : Record)) ∈ (run changes).results late :=
    List.mem_map.2 ⟨"a", by decide +kernel, rfl⟩
  rcases hoffered { version := 3 } hresult with ⟨hreach, -⟩ | ⟨-, hkept⟩
  · rw [hfloor] at hreach
    exact absurd hreach (by decide)
  · exact hkept

end Session
end LiquidLint
