import Mathlib.Data.List.Zip
import LiquidLint.Proofs.EditMerge

/-!
# Accepted edits

Of edits that cannot all be made, the one that was asked for first wins.  An edit is judged by the accepted
edits that were asked for before it (`settle_eq_verdicts`), and since these stand apart it cannot repeat one
of them and overlap another (`judge_of_same`).  So each edit that fits the source is accepted, or dropped for
the first accepted edit that it overlaps, or passed over (`firstWins`).

An edit that does not fit takes a number and leaves a failure, and does nothing else: what is accepted and
dropped depends on the edits that fit (`plain_apply`), and the failures that a corrector reports are those
of the edits that do not, as far as nobody took them (`refused_ofCalls`).
-/

namespace LiquidLint

open Source

/-! ## Calls -/

/-- A call of a corrector. -/
inductive CorrectorCall where
  | ask (request : EditRequest)
  /-- Takes the failures of the edits that were refused so far. -/
  | takeFailures

namespace CorrectorCall

/-- What the call replaces, and by what. -/
def edit? : CorrectorCall → Option (Range × Text)
  | .ask (.replace range text) => some (range, text)
  | .ask (.insert offset text) => some (⟨offset, offset⟩, text)
  | .ask (.remove range) => some (range, [])
  | .ask (.setCheck _) | .takeFailures => none

/-- The check that edits are attributed to after the call. -/
def checkAfter (check : Text) : CorrectorCall → Text
  | .ask (.setCheck code) => code
  | _ => check

/-- Whether the call takes failures. -/
def takes : CorrectorCall → Bool
  | .takeFailures => true
  | .ask _ => false

/-- Whether the call asks for an edit that does not fit a source of `size` bytes. -/
def isRefused (size : Nat) (call : CorrectorCall) : Bool :=
  call.edit?.any fun edit => (EditFault.of? edit.1 size).isSome

end CorrectorCall

/-- An edit as it was asked for. -/
structure AskedEdit where
  range : Range
  text : Text
  check : Text
  /-- How many edits were asked for before. -/
  seq : Nat
  /-- Whether failures were taken after it was asked for. -/
  taken : Bool

namespace AskedEdit

/-- The edit, where it fits a source of `size` bytes. -/
def edit? (size : Nat) (a : AskedEdit) : Option Edit :=
  match EditFault.of? a.range size with
  | none => some ⟨a.range.start.toNat, a.range.stop.toNat, a.text, a.check, a.seq⟩
  | some _ => none

/-- The refused edit, where it does not fit a source of `size` bytes. -/
def refused? (size : Nat) (a : AskedEdit) : Option RefusedEdit :=
  (EditFault.of? a.range size).map (⟨a.range, a.check, ·⟩)

end AskedEdit

/-- The edits that some calls ask for, where edits are attributed to `check` at first and `seq` of them were
asked for before. -/
def asked (check : Text) (seq : Nat) : List CorrectorCall → List AskedEdit
  | [] => []
  | call :: rest =>
    match call.edit? with
    | some (range, text) =>
      ⟨range, text, check, seq, rest.any CorrectorCall.takes⟩ :: asked check (seq + 1) rest
    | none => asked (call.checkAfter check) seq rest

/-- The edits that some calls ask for and that fit `f`, in the order in which they are asked for. -/
def fittingEdits (f : SourceFile) (calls : List CorrectorCall) : List Edit :=
  (asked [] 0 calls).filterMap (AskedEdit.edit? f.source.length)

/-- The edits that some calls ask for and that do not fit `f`, as far as nobody took their failures. -/
def pendingRefusals (f : SourceFile) (calls : List CorrectorCall) : List RefusedEdit :=
  ((asked [] 0 calls).filter (!·.taken)).filterMap (AskedEdit.refused? f.source.length)

namespace Corrector

/-- Answers a call. -/
def answer (c : Corrector) : CorrectorCall → Corrector
  | .ask request => c.follow request
  | .takeFailures => c.takeFailures.2

/-- The corrector of a file after some calls. -/
def ofCalls (f : SourceFile) (calls : List CorrectorCall) : Corrector :=
  calls.foldl answer { file := f }

/-- A call that asks for an edit. -/
theorem answer_of_edit {call : CorrectorCall} {range : Range} {text : Text}
    (h : call.edit? = some (range, text)) (c : Corrector) : c.answer call = c.replace range text := by
  rcases call with (code | ⟨range', text'⟩ | ⟨offset, text'⟩ | range') | _ <;> cases h <;> rfl

/-- A call that asks for no edit keeps the edits and their number. -/
theorem answer_of_none {call : CorrectorCall} (h : call.edit? = none) (c : Corrector) :
    c.answer call =
      { c with check := call.checkAfter c.check, refused := if call.takes then [] else c.refused } := by
  rcases call with (code | ⟨range', text'⟩ | ⟨offset, text'⟩ | range') | _ <;> cases h <;> rfl

/-- **What a corrector keeps are the edits that fit and the refusals that nobody took.** -/
theorem foldl_answer (c : Corrector) (calls : List CorrectorCall) :
    (calls.foldl answer c).file = c.file ∧
      (calls.foldl answer c).edits = c.edits ++
        (asked c.check c.seq calls).filterMap (AskedEdit.edit? c.file.source.length) ∧
      (calls.foldl answer c).refused = (if calls.any CorrectorCall.takes then [] else c.refused) ++
        ((asked c.check c.seq calls).filter (!·.taken)).filterMap
          (AskedEdit.refused? c.file.source.length) := by
  induction calls generalizing c with
  | nil => simp [asked]
  | cons call rest ih =>
    obtain ⟨hfile, hedits, hrefused⟩ := ih (c.answer call)
    rw [List.foldl_cons, hfile, hedits, hrefused, asked]
    cases hedit : call.edit? with
    | none =>
      rw [answer_of_none hedit]
      refine ⟨rfl, rfl, ?_⟩
      by_cases hrest : rest.any CorrectorCall.takes = true
      · simp [hrest]
      · simp [hrest]
    | some edit =>
      obtain ⟨range, text⟩ := edit
      have htakes : call.takes = false := by
        cases call with
        | ask _ => rfl
        | takeFailures => cases hedit
      rw [answer_of_edit hedit, replace]
      cases hfault : EditFault.of? range c.file.source.length with
      | some fault =>
        by_cases hrest : rest.any CorrectorCall.takes = true
        · simp [AskedEdit.edit?, hfault, htakes, hrest]
        · simp [AskedEdit.edit?, AskedEdit.refused?, hfault, htakes, hrest]
      | none =>
        by_cases hrest : rest.any CorrectorCall.takes = true
        · simp [AskedEdit.edit?, hfault, htakes, hrest]
        · simp [AskedEdit.edit?, AskedEdit.refused?, hfault, htakes, hrest]

theorem edits_ofCalls (f : SourceFile) (calls : List CorrectorCall) :
    (ofCalls f calls).edits = fittingEdits f calls := by
  obtain ⟨_, hedits, _⟩ := foldl_answer { file := f } calls
  exact hedits

theorem refused_ofCalls (f : SourceFile) (calls : List CorrectorCall) :
    (ofCalls f calls).refused = pendingRefusals f calls := by
  obtain ⟨_, _, hrefused⟩ := foldl_answer { file := f } calls
  rw [ofCalls, hrefused, ite_self, List.nil_append]
  rfl

theorem kept_ofCalls (f : SourceFile) (calls : List CorrectorCall) : Kept f (ofCalls f calls) := by
  have hrun (c : Corrector) (hc : Kept f c) : Kept f (calls.foldl answer c) := by
    induction calls generalizing c with
    | nil => exact hc
    | cons call rest ih =>
      apply ih
      cases call with
      | ask request => exact hc.follow request
      | takeFailures => exact ⟨hc.file, hc.placed, hc.numbered, hc.below⟩
  exact hrun _ (kept_empty f)

/-! ## Verdicts -/

/-- Edits that replace the same bytes overlap the same edits. -/
theorem overlaps_of_same {a b : Edit} (h : a.same b = true) (x : Edit) : x.overlaps a = x.overlaps b := by
  obtain ⟨hstart, hstop, _⟩ := (Edit.same_iff a b).1 h
  unfold Edit.overlaps Edit.isInsertion
  rw [hstart, hstop]

/-- **An edit that repeats an accepted one overlaps none of the others.** -/
theorem judge_of_same {e a : Edit} {accepted : List Edit}
    (hapart : accepted.Pairwise fun a b => a.overlaps b = false) (ha : a ∈ accepted)
    (hsame : a.same e = true) : judge e accepted = .repeated := by
  induction accepted with
  | nil => cases ha
  | cons x rest ih =>
    obtain ⟨hx, hrest⟩ := List.pairwise_cons.1 hapart
    rw [judge]
    by_cases hxsame : x.same e = true
    · rw [if_pos hxsame]
    · rcases List.mem_cons.1 ha with rfl | ha
      · exact absurd hsame hxsame
      · have hxapart : x.overlaps e = false := by rw [← overlaps_of_same hsame x, hx a ha]
        rw [if_neg hxsame, hxapart]
        exact ih hrest ha

/-- A dropped edit is dropped for the first accepted edit that it overlaps. -/
theorem judge_clash {e kept : Edit} {accepted : List Edit} (h : judge e accepted = .clash kept) :
    ∃ before behind, accepted = before ++ kept :: behind ∧ kept.overlaps e = true ∧
      ∀ a ∈ before, a.overlaps e = false := by
  induction accepted with
  | nil => cases h
  | cons x rest ih =>
    rw [judge] at h
    by_cases hsame : x.same e = true
    · rw [if_pos hsame] at h
      cases h
    · rw [if_neg hsame] at h
      by_cases hover : x.overlaps e = true
      · rw [if_pos hover] at h
        cases h
        exact ⟨[], rest, rfl, hover, nofun⟩
      · rw [if_neg hover] at h
        obtain ⟨before, behind, rfl, hkept, hbefore⟩ := ih h
        refine ⟨x :: before, behind, rfl, hkept, ?_⟩
        intro a ha
        rcases List.mem_cons.1 ha with rfl | ha
        · exact Bool.eq_false_iff.2 hover
        · exact hbefore a ha

/-- No accepted edit that was asked for earlier overlaps the dropped one. -/
theorem seq_le_of_judge_clash {e kept a : Edit} {accepted : List Edit} (h : judge e accepted = .clash kept)
    (hnumbered : accepted.Pairwise fun a b => a.seq < b.seq) (ha : a ∈ accepted)
    (hover : a.overlaps e = true) : kept.seq ≤ a.seq := by
  obtain ⟨before, behind, rfl, _, hbefore⟩ := judge_clash h
  rcases List.mem_append.1 ha with ha | ha
  · rw [hbefore a ha] at hover
    cases hover
  · rcases List.mem_cons.1 ha with rfl | ha
    · exact Nat.le_refl _
    · exact Nat.le_of_lt ((List.pairwise_cons.1 (List.pairwise_append.1 hnumbered).2.1).1 a ha)

/-- Whether the edit is accepted. -/
def Verdict.accepts : Verdict → Bool
  | .accept => true
  | .repeated | .clash _ => false

/-- The edit that another one is dropped for. -/
def Verdict.kept? : Verdict → Option Edit
  | .clash kept => some kept
  | .accept | .repeated => none

theorem Verdict.kept?_eq_some_iff {verdict : Verdict} {kept : Edit} :
    verdict.kept? = some kept ↔ verdict = .clash kept := by
  cases verdict <;> simp [Verdict.kept?]

/-- The edits among `applied` that were asked for before `e`. -/
def earlier (applied : List Edit) (e : Edit) : List Edit := applied.filter fun a => a.seq < e.seq

/-- Accepted edits stay accepted, and those that come later are some of the others. -/
theorem settle_extends (accepted edits : List Edit) (conflicts : List Conflict) :
    ∃ more, (settle accepted conflicts edits).1 = accepted ++ more ∧ more.Sublist edits := by
  induction edits generalizing accepted conflicts with
  | nil => exact ⟨[], (List.append_nil _).symm, .refl _⟩
  | cons e rest ih =>
    rw [settle]
    cases judge e accepted with
    | accept =>
      obtain ⟨more, hmore, hsub⟩ := ih (accepted ++ [e]) conflicts
      exact ⟨e :: more, by simpa using hmore, hsub.cons_cons e⟩
    | repeated =>
      obtain ⟨more, hmore, hsub⟩ := ih accepted conflicts
      exact ⟨more, hmore, hsub.cons e⟩
    | clash kept =>
      obtain ⟨more, hmore, hsub⟩ := ih accepted (conflicts ++ [⟨e, kept⟩])
      exact ⟨more, hmore, hsub.cons e⟩

/-- **Every edit is judged by the accepted edits that were asked for before it.** -/
theorem settle_eq_verdicts {accepted edits : List Edit} (conflicts : List Conflict) {applied : List Edit}
    (hnumbered : (accepted ++ edits).Pairwise fun a b => a.seq < b.seq)
    (happlied : (settle accepted conflicts edits).1 = applied) :
    settle accepted conflicts edits =
      (accepted ++ edits.filter fun e => (judge e (earlier applied e)).accepts,
        conflicts ++ edits.filterMap fun e => (judge e (earlier applied e)).kept?.map (⟨e, ·⟩)) := by
  induction edits generalizing accepted conflicts with
  | nil => simp [settle]
  | cons e rest ih =>
    obtain ⟨more, hmore, hsub⟩ := settle_extends accepted (e :: rest) conflicts
    obtain ⟨_, hedits, hcross⟩ := List.pairwise_append.1 hnumbered
    have hearlier : earlier applied e = accepted := by
      rw [← happlied, hmore, earlier, List.filter_append, List.filter_eq_self.2, List.filter_eq_nil_iff.2,
        List.append_nil]
      · intro a ha
        rcases List.mem_cons.1 (hsub.subset ha) with rfl | ha
        · simp
        · have := (List.pairwise_cons.1 hedits).1 a ha
          simp only [decide_eq_true_eq]
          omega
      · intro a ha
        simpa using hcross a ha e (List.mem_cons_self ..)
    have hskip : (accepted ++ rest).Pairwise fun a b => a.seq < b.seq :=
      hnumbered.sublist ((List.sublist_cons_self e rest).append_left accepted)
    rw [settle] at happlied ⊢
    rw [List.filter_cons, List.filterMap_cons, hearlier]
    cases hjudge : judge e accepted with
    | accept =>
      simp only [hjudge] at happlied ⊢
      rw [ih conflicts (by rwa [List.append_assoc]) happlied]
      simp [Verdict.accepts, Verdict.kept?]
    | repeated =>
      simp only [hjudge] at happlied ⊢
      rw [ih conflicts hskip happlied]
      simp [Verdict.accepts, Verdict.kept?]
    | clash kept =>
      simp only [hjudge] at happlied ⊢
      rw [ih _ hskip happlied]
      simp [Verdict.accepts, Verdict.kept?]

/-! ## The first edit wins -/

/-- The edits that repeat an edit that was applied before. -/
def repeats (edits : List Edit) (out : Outcome) : List Edit :=
  edits.filter fun e => (earlier out.applied e).any fun a => a.same e

/-- Of edits that are asked for in this order, those that were asked for first are applied. -/
structure FirstWins (edits : List Edit) (out : Outcome) : Prop where
  numbered : edits.Pairwise fun a b => a.seq < b.seq
  inOrder : out.applied.Sublist edits
  apart : out.applied.Pairwise fun a b => a.overlaps b = false
  /-- An edit is applied, or dropped in one conflict, or passed over. -/
  once : ∀ e ∈ edits, out.applied.count e + (out.conflicts.map Conflict.dropped).count e +
    (repeats edits out).count e = 1
  /-- An edit that repeats none is dropped for overlapping an edit that was applied before. -/
  dropped_iff : ∀ e ∈ edits, e ∉ repeats edits out →
    (e ∈ out.conflicts.map Conflict.dropped ↔ ∃ a ∈ out.applied, a.seq < e.seq ∧ a.overlaps e = true)
  /-- An edit is dropped for the first one that it overlaps. -/
  kept : ∀ c ∈ out.conflicts, c.dropped ∈ edits ∧ c.kept ∈ out.applied ∧ c.kept.seq < c.dropped.seq ∧
    c.kept.overlaps c.dropped = true ∧ ∀ a ∈ out.applied, a.overlaps c.dropped = true → c.kept.seq ≤ a.seq

/-- An edit repeats an applied one exactly if that is the verdict on it. -/
theorem mem_repeats_iff {edits : List Edit} {out : Outcome}
    (hapart : out.applied.Pairwise fun a b => a.overlaps b = false) {e : Edit} (he : e ∈ edits) :
    e ∈ repeats edits out ↔ judge e (earlier out.applied e) = .repeated := by
  rw [repeats, List.mem_filter, List.any_eq_true]
  constructor
  · rintro ⟨_, a, ha, hsame⟩
    exact judge_of_same (hapart.sublist List.filter_sublist) ha hsame
  · intro hjudge
    rcases judge_cases e (earlier out.applied e) with ⟨haccept, _⟩ | ⟨_, hrepeated⟩ | ⟨_, _, hclash, _⟩
    · rw [hjudge] at haccept
      cases haccept
    · exact ⟨he, hrepeated⟩
    · rw [hjudge] at hclash
      cases hclash

/-- An edit is dropped exactly if the verdict on it names another one. -/
theorem dropped_filterMap (edits : List Edit) (verdict : Edit → Verdict) :
    (edits.filterMap fun e => (verdict e).kept?.map fun kept => Conflict.mk e kept).map Conflict.dropped =
      edits.filter fun e => (verdict e).kept?.isSome := by
  rw [List.map_filterMap, ← List.filterMap_eq_filter]
  congr
  funext e
  cases hkept : (verdict e).kept? <;> simp [Option.guard, hkept]

theorem mem_earlier {applied : List Edit} {a e : Edit} :
    a ∈ earlier applied e ↔ a ∈ applied ∧ a.seq < e.seq := by
  simp [earlier]

/-- Each edit is accepted, passed over or dropped by the verdict of the edits that were applied before it. -/
structure Judged (edits : List Edit) (out : Outcome) : Prop where
  numbered : edits.Pairwise fun a b => a.seq < b.seq
  inOrder : out.applied.Sublist edits
  apart : out.applied.Pairwise fun a b => a.overlaps b = false
  applied_eq : out.applied = edits.filter fun e => (judge e (earlier out.applied e)).accepts
  conflicts_eq : out.conflicts = edits.filterMap fun e =>
    (judge e (earlier out.applied e)).kept?.map (⟨e, ·⟩)

theorem judged_apply {f : SourceFile} {c : Corrector} (h : Kept f c) (stored : Text) :
    Judged c.edits (c.apply stored) where
  numbered := h.numbered
  inOrder := applied_sublist c stored
  apart := applied_apart c stored
  applied_eq :=
    congrArg Prod.fst (@settle_eq_verdicts [] c.edits [] (c.apply stored).applied h.numbered rfl)
  conflicts_eq :=
    congrArg Prod.snd (@settle_eq_verdicts [] c.edits [] (c.apply stored).applied h.numbered rfl)

namespace Judged

variable {edits : List Edit} {out : Outcome} (h : Judged edits out) {e : Edit}

include h

theorem nodup : edits.Nodup := h.numbered.imp fun hlt heq => by simp [heq] at hlt

theorem mem_applied_iff (he : e ∈ edits) :
    e ∈ out.applied ↔ (judge e (earlier out.applied e)).accepts = true := by
  conv => lhs; rw [h.applied_eq]
  simp [he]

theorem dropped_eq : out.conflicts.map Conflict.dropped =
    edits.filter fun e => (judge e (earlier out.applied e)).kept?.isSome := by
  rw [h.conflicts_eq, dropped_filterMap]

theorem mem_dropped_iff (he : e ∈ edits) :
    e ∈ out.conflicts.map Conflict.dropped ↔ (judge e (earlier out.applied e)).kept?.isSome = true := by
  rw [h.dropped_eq]
  simp [he]

/-- One verdict is passed on each edit. -/
theorem count_eq_one (he : e ∈ edits) :
    out.applied.count e + (out.conflicts.map Conflict.dropped).count e + (repeats edits out).count e = 1 := by
  have hdropped : (out.conflicts.map Conflict.dropped).Nodup := by
    rw [h.dropped_eq]
    exact h.nodup.filter _
  have hrepeats : (repeats edits out).Nodup := h.nodup.filter _
  rw [(h.nodup.sublist h.inOrder).count, hdropped.count, hrepeats.count]
  have hmem := mem_repeats_iff h.apart he
  simp only [h.mem_applied_iff he, h.mem_dropped_iff he]
  cases hjudge : judge e (earlier out.applied e) <;> simp [Verdict.accepts, Verdict.kept?, hmem, hjudge]

theorem dropped_iff_overlaps (he : e ∈ edits) (hrepeats : e ∉ repeats edits out) :
    e ∈ out.conflicts.map Conflict.dropped ↔
      ∃ a ∈ out.applied, a.seq < e.seq ∧ a.overlaps e = true := by
  rw [mem_repeats_iff h.apart he] at hrepeats
  rw [h.mem_dropped_iff he]
  rcases judge_cases e (earlier out.applied e) with ⟨hjudge, hall⟩ | ⟨hjudge, _⟩ |
    ⟨kept, hkept, hjudge, _, hover⟩
  · rw [hjudge]
    constructor
    · nofun
    · rintro ⟨a, ha, hlt, hover⟩
      rw [(hall a (mem_earlier.2 ⟨ha, hlt⟩)).2] at hover
      cases hover
  · exact absurd hjudge hrepeats
  · rw [hjudge]
    obtain ⟨happlied, hlt⟩ := mem_earlier.1 hkept
    exact ⟨fun _ => ⟨kept, happlied, hlt, hover⟩, fun _ => rfl⟩

/-- An edit is dropped for the applied edit that was asked for first of those that it overlaps. -/
theorem kept_first {conflict : Conflict} (hconflict : conflict ∈ out.conflicts) :
    conflict.dropped ∈ edits ∧ conflict.kept ∈ out.applied ∧ conflict.kept.seq < conflict.dropped.seq ∧
      conflict.kept.overlaps conflict.dropped = true ∧
      ∀ a ∈ out.applied, a.overlaps conflict.dropped = true → conflict.kept.seq ≤ a.seq := by
  rw [h.conflicts_eq, List.mem_filterMap] at hconflict
  obtain ⟨e, he, hverdict⟩ := hconflict
  obtain ⟨kept, hkept, rfl⟩ := Option.map_eq_some_iff.1 hverdict
  have hjudge := Verdict.kept?_eq_some_iff.1 hkept
  obtain ⟨before, behind, hsplit, hover, _⟩ := judge_clash hjudge
  obtain ⟨happlied, hlt⟩ := mem_earlier.1 (show kept ∈ earlier out.applied e by simp [hsplit])
  refine ⟨he, happlied, hlt, hover, fun a ha haover => ?_⟩
  show kept.seq ≤ a.seq
  by_cases hearlier : a.seq < e.seq
  · have hnumbered : (earlier out.applied e).Pairwise fun a b => a.seq < b.seq :=
      h.numbered.sublist (List.filter_sublist.trans h.inOrder)
    exact seq_le_of_judge_clash hjudge hnumbered (mem_earlier.2 ⟨ha, hearlier⟩) haover
  · omega

end Judged

/-- **The edits that were asked for first win.** -/
theorem firstWins {f : SourceFile} {c : Corrector} (h : Kept f c) (stored : Text) :
    FirstWins c.edits (c.apply stored) :=
  have hjudged := judged_apply h stored
  { numbered := hjudged.numbered
    inOrder := hjudged.inOrder
    apart := hjudged.apart
    once := fun _ => hjudged.count_eq_one
    dropped_iff := fun _ => hjudged.dropped_iff_overlaps
    kept := fun _ => hjudged.kept_first }

/-! ## What refused edits change -/

end Corrector

/-- The conflict without the places that its edits have among others. -/
def Conflict.plain (c : Conflict) : Conflict := ⟨c.dropped.plain, c.kept.plain⟩

/-- The outcome without the places that edits have among others. -/
def Outcome.plain (out : Outcome) : Outcome :=
  { out with applied := out.applied.map Edit.plain, conflicts := out.conflicts.map Conflict.plain }

namespace Corrector

/-- The verdict without the place that an edit has among others. -/
def Verdict.plain : Verdict → Verdict
  | .clash kept => .clash kept.plain
  | verdict => verdict

theorem judge_plain (e : Edit) (accepted : List Edit) :
    judge e.plain (accepted.map Edit.plain) = (judge e accepted).plain := by
  induction accepted with
  | nil => rfl
  | cons a rest ih =>
    have hsame : a.plain.same e.plain = a.same e := rfl
    have hover : a.plain.overlaps e.plain = a.overlaps e := rfl
    rw [List.map_cons, judge, judge, hsame, hover, ih]
    split
    · rfl
    · split <;> rfl

/-- Edits are accepted and dropped whatever numbers they have. -/
theorem settle_plain (accepted edits : List Edit) (conflicts : List Conflict) :
    settle (accepted.map Edit.plain) (conflicts.map Conflict.plain) (edits.map Edit.plain) =
      ((settle accepted conflicts edits).1.map Edit.plain,
        (settle accepted conflicts edits).2.map Conflict.plain) := by
  induction edits generalizing accepted conflicts with
  | nil => rfl
  | cons e rest ih =>
    rw [List.map_cons, settle, settle, judge_plain]
    cases judge e accepted with
    | accept => simpa [Verdict.plain] using ih (accepted ++ [e]) conflicts
    | repeated => simpa [Verdict.plain] using ih accepted conflicts
    | clash kept =>
      have hrest := ih accepted (conflicts ++ [⟨e, kept⟩])
      rw [List.map_append] at hrest
      exact hrest

/-- **Edits are merged by the order of their numbers only.** -/
theorem merge_of_plain (source : Text) {xs ys : List Edit}
    (hx : xs.Pairwise fun a b => a.seq < b.seq) (hy : ys.Pairwise fun a b => a.seq < b.seq)
    (h : xs.map Edit.plain = ys.map Edit.plain) : merge source xs = merge source ys := by
  have hlength : xs.length = ys.length := by simpa using congrArg List.length h
  have hfst : (xs.zip ys).map Prod.fst = xs := List.map_fst_zip (Nat.le_of_eq hlength)
  have hsnd : (xs.zip ys).map Prod.snd = ys := List.map_snd_zip (Nat.le_of_eq hlength.symm)
  generalize xs.zip ys = pairs at hfst hsnd
  subst hfst hsnd
  have hplain : ∀ p ∈ pairs, p.1.plain = p.2.plain := by simpa using h
  have hsorted : pairs.Pairwise fun p q => p.1.seq < q.1.seq ∧ p.2.seq < q.2.seq := by
    rw [List.pairwise_map] at hx hy
    exact hx.and hy
  have hparts : ∀ p ∈ pairs, p.1.start = p.2.start ∧ p.1.stop = p.2.stop := by
    intro p hp
    obtain ⟨hstart, hstop, _⟩ := Edit.mk.inj (hplain p hp)
    exact ⟨hstart, hstop⟩
  let alike (p q : Edit × Edit) : Prop :=
    (p.1.Before q.1 ↔ p.2.Before q.2) ∧ (q.1.Before p.1 ↔ q.2.Before p.2)
  have : Std.Symm alike := ⟨fun _ _ h => h.symm⟩
  have halike : pairs.Pairwise alike := by
    refine hsorted.imp_of_mem ?_
    intro p q hp hq hseq
    have hp := hparts p hp
    have hq := hparts q hq
    constructor <;> unfold Edit.Before <;> omega
  have hbefore := halike.forall_of_forall fun p _ =>
    ⟨iff_of_true (Edit.Before.refl _) (Edit.Before.refl _), iff_of_true (Edit.Before.refl _) (Edit.Before.refl _)⟩
  have hmapFst := List.map_mergeSort (r := fun p q : Edit × Edit => decide (p.1.Before q.1))
    (s := fun a b => decide (a.Before b)) (f := Prod.fst) (l := pairs) fun _ _ _ _ => rfl
  have hmapSnd := List.map_mergeSort (r := fun p q : Edit × Edit => decide (p.1.Before q.1))
    (s := fun a b => decide (a.Before b)) (f := Prod.snd) (l := pairs)
    fun p hp q hq => decide_eq_decide.2 (hbefore hp hq).1
  rw [merge, merge, inSourceOrder, inSourceOrder, ← hmapFst, ← hmapSnd]
  generalize hmerged : pairs.mergeSort (fun p q => decide (p.1.Before q.1)) = merged
  have hplainMerged : (merged.map Prod.fst).map Edit.plain = (merged.map Prod.snd).map Edit.plain := by
    rw [List.map_map, List.map_map]
    refine List.map_congr_left fun p hp => hplain p ?_
    rw [← hmerged] at hp
    exact (List.mergeSort_perm _ _).subset hp
  have hpatch (edits : List Edit) :
      patch source 0 source.length (edits.map Edit.plain) = patch source 0 source.length edits :=
    patch_map source 0 source.length edits fun _ _ => Edit.same_of_plain rfl
  rw [← hpatch, hplainMerged, hpatch]

/-- **What edits come to depends on the edits that fit, and their numbers matter only by their order.** -/
theorem plain_apply {f : SourceFile} {c c' : Corrector} (h : Kept f c) (h' : Kept f c')
    (hplain : c.edits.map Edit.plain = c'.edits.map Edit.plain) (stored : Text) :
    (c.apply stored).plain = (c'.apply stored).plain := by
  have hsettle := (settle_plain [] c.edits []).symm
  rw [hplain, settle_plain [] c'.edits []] at hsettle
  have happlied : (c.apply stored).applied.map Edit.plain = (c'.apply stored).applied.map Edit.plain :=
    congrArg Prod.fst hsettle
  have hconflicts : (c.apply stored).conflicts.map Conflict.plain =
      (c'.apply stored).conflicts.map Conflict.plain := congrArg Prod.snd hsettle
  have hmerge := merge_of_plain f.source (h.numbered.sublist (applied_sublist c stored))
    (h'.numbered.sublist (applied_sublist c' stored)) happlied
  have hnil : (c.apply stored).applied = [] ↔ (c'.apply stored).applied = [] := by
    rw [← List.map_eq_nil_iff (f := Edit.plain), happlied, List.map_eq_nil_iff]
  have hcontent : (c.apply stored).content = (c'.apply stored).content := by
    rw [h.content_apply, h'.content_apply, hmerge]
    simp only [hnil]
  have hchanged : (c.apply stored).changed = (c'.apply stored).changed := by
    show decide ((c.apply stored).content ≠ stored) = decide ((c'.apply stored).content ≠ stored)
    rw [hcontent]
  rw [Outcome.plain, Outcome.plain, hcontent, hchanged, happlied, hconflicts]

end Corrector

/-- Leaving out the calls that ask for edits that do not fit leaves those that fit. -/
theorem asked_filter (size : Nat) (check : Text) (seq seq' : Nat) (calls : List CorrectorCall) :
    ((asked check seq' (calls.filter (!·.isRefused size))).filterMap (AskedEdit.edit? size)).map Edit.plain =
      ((asked check seq calls).filterMap (AskedEdit.edit? size)).map Edit.plain := by
  induction calls generalizing check seq seq' with
  | nil => rfl
  | cons call rest ih =>
    cases hedit : call.edit? with
    | none => simpa [CorrectorCall.isRefused, asked, hedit] using ih _ _ _
    | some edit =>
      obtain ⟨range, text⟩ := edit
      cases hfault : EditFault.of? range size with
      | some fault =>
        simpa [CorrectorCall.isRefused, asked, AskedEdit.edit?, hedit, hfault] using ih _ _ _
      | none =>
        simpa [CorrectorCall.isRefused, asked, AskedEdit.edit?, hedit, hfault, Edit.plain] using ih _ _ _

/-- **The edit that was asked for first wins.**  After some calls, the edits that fit the source are each
applied, dropped in one conflict, or passed over for repeating an applied one.  Applied edits stand apart and
in the order in which they were asked for; an edit is dropped if it overlaps one that was applied before it,
and for the first of these.  Edits that do not fit change nothing but the numbers of the others, and all of
them are reported until their failures are taken. -/
theorem first_asked_wins (f : SourceFile) (calls : List CorrectorCall) (stored : Text) :
    let c := Corrector.ofCalls f calls
    let fitting := calls.filter (!·.isRefused f.source.length)
    Corrector.FirstWins (fittingEdits f calls) (c.apply stored) ∧
      (c.apply stored).plain = ((Corrector.ofCalls f fitting).apply stored).plain ∧
      c.failure? = Failure.joined? ((pendingRefusals f calls).map RefusedEdit.failure) := by
  intro c fitting
  have hkept := Corrector.kept_ofCalls f calls
  have hwins := Corrector.firstWins hkept stored
  rw [Corrector.edits_ofCalls] at hwins
  refine ⟨hwins, Corrector.plain_apply hkept (Corrector.kept_ofCalls f fitting) ?_ stored, ?_⟩
  · rw [Corrector.edits_ofCalls, Corrector.edits_ofCalls]
    exact (asked_filter f.source.length [] 0 0 calls).symm
  · rw [Corrector.failure?, Corrector.refused_ofCalls]

/-- **A refused edit takes a number.**  The edit that is asked for after it is applied in both cases, but as
the second one of two. -/
theorem refused_edit_takes_number :
    let f := SourceFile.parse "notes.txt" "abc" 1
    let refused : CorrectorCall := .ask (.replace ⟨-1, 0⟩ "x")
    let fitting : CorrectorCall := .ask (.replace ⟨0, 1⟩ "y")
    refused.isRefused f.source.length = true ∧
      ((Corrector.ofCalls f [fitting]).apply "abc").applied = [⟨0, 1, "y", [], 0⟩] ∧
      ((Corrector.ofCalls f [refused, fitting]).apply "abc").applied = [⟨0, 1, "y", [], 1⟩] := by
  refine ⟨?_, ?_, ?_⟩
  · decide +kernel
  · decide +kernel
  · decide +kernel

end LiquidLint
