import LiquidLint.Proofs.EditScript

/-!
# Merging edits into a source

Whatever is asked of a corrector, the edits that it keeps lie in the source and are numbered in the
order in which they were asked for (`Corrector.Kept`, `kept_ofRequests`).  Those that it accepts are
therefore merged into the source from left to right (`merge`), though they are applied from the end
backwards: when the turn of an edit comes, the text up to its end is still the source (`FitsInTurn`).
-/

namespace LiquidLint

open Source

/-- What may be asked of a corrector. -/
inductive EditRequest where
  /-- Attributes the edits that follow to a check. -/
  | setCheck (code : Text)
  | replace (range : Range) (text : Text)
  | insert (offset : Int) (text : Text)
  | remove (range : Range)

namespace Edit

instance : DecidableRel Before := fun a b =>
  inferInstanceAs (Decidable (a.start < b.start ∨
    a.start = b.start ∧ (a.stop < b.stop ∨ a.stop = b.stop ∧ a.seq ≤ b.seq)))

theorem Before.refl (a : Edit) : a.Before a := by
  unfold Before
  omega

/-- In a list from left to right, an edit that does not stand behind another one precedes it. -/
theorem pair_sublist {edits : List Edit} (hsorted : edits.Pairwise Before) {a b : Edit}
    (ha : a ∈ edits) (hb : b ∈ edits) (h : ¬ b.Before a) : [a, b].Sublist edits := by
  induction edits with
  | nil => cases ha
  | cons x rest ih =>
    obtain ⟨hx, hrest⟩ := List.pairwise_cons.1 hsorted
    rcases List.mem_cons.1 ha with rfl | harest
    · rcases List.mem_cons.1 hb with rfl | hbrest
      · exact absurd (Before.refl b) h
      · exact (List.singleton_sublist.2 hbrest).cons_cons a
    · rcases List.mem_cons.1 hb with rfl | hbrest
      · exact absurd (hx a harest) h
      · exact (ih hrest harest hbrest).cons x

end Edit

/-! ## The left-to-right merge -/

/-- Edits by where they start, then by where they stop, then by when they were asked for. -/
def inSourceOrder (edits : List Edit) : List Edit := edits.mergeSort fun a b => decide (a.Before b)

/-- The source with edits merged into it: going through them from left to right, what stands between
two edits is copied, and each edit is replaced by its text. -/
def merge (source : Text) (edits : List Edit) : Text :=
  patch source 0 source.length (inSourceOrder edits)

theorem inSourceOrder_perm (edits : List Edit) : (inSourceOrder edits).Perm edits :=
  List.mergeSort_perm _ _

theorem inSourceOrder_before (edits : List Edit) : (inSourceOrder edits).Pairwise Edit.Before := by
  have hsorted := @List.pairwise_mergeSort _ (fun a b => decide (Edit.Before a b))
    (fun a b c hab hbc =>
      decide_eq_true ((of_decide_eq_true hab).trans (of_decide_eq_true hbc)))
    (fun a b => by
      rw [Bool.or_eq_true, decide_eq_true_iff, decide_eq_true_iff]
      exact Edit.before_total a b)
    edits
  exact hsorted.imp fun h => of_decide_eq_true h

/-- Each edit lies in the text when its turn comes, and the text up to its end is still the source. -/
def FitsInTurn (source : Text) : (text : Text) → List Edit → Prop
  | _, [] => True
  | text, e :: rest =>
    e.start ≤ e.stop ∧ e.stop ≤ text.length ∧ text.take e.stop = source.take e.stop ∧
      FitsInTurn source (Edit.apply text e) rest

/-- How insertions stand among accepted edits when these are put in order. -/
structure InsertionsInPlace (accepted ordered : List Edit) : Prop where
  /-- Insertions at one offset stand in the order in which they were asked for. -/
  asked : ∀ a b, [a, b].Sublist accepted → a.isInsertion = true → b.isInsertion = true →
    a.start = b.start → [a, b].Sublist ordered
  /-- An insertion stands before a replacement that starts there. -/
  beforeStart : ∀ a ∈ accepted, ∀ b ∈ accepted, a.isInsertion = true → b.isInsertion = false →
    a.start = b.start → [a, b].Sublist ordered
  /-- An insertion stands behind a replacement that ends there. -/
  behindEnd : ∀ a ∈ accepted, ∀ b ∈ accepted, a.isInsertion = true → b.isInsertion = false →
    b.stop = a.start → [b, a].Sublist ordered

/-! ## Fitting -/

/-- What stands before the last of some edits in order ends where it starts. -/
theorem InOrder.of_concat {lo hi : Nat} {edits : List Edit} {e : Edit}
    (h : InOrder lo (edits ++ [e]) hi) : InOrder lo edits e.start ∧ e.start ≤ e.stop ∧ e.stop ≤ hi := by
  induction edits generalizing lo with
  | nil => exact ⟨h.1, h.2⟩
  | cons first rest ih =>
    obtain ⟨hlo, hle, hrest⟩ := h
    obtain ⟨horder, hplace⟩ := ih hrest
    exact ⟨⟨hlo, hle, horder⟩, hplace⟩

/-- **Edits in order fit one after the other from the last one to the first one.** -/
theorem fitsInTurn_of_inOrder {source text : Text} {hi : Nat} {edits : List Edit}
    (h : InOrder 0 edits.reverse hi) (hlength : hi ≤ text.length)
    (hsame : text.take hi = source.take hi) : FitsInTurn source text edits := by
  -- the bytes up to `hi`, where the edits that are left lie, are not touched yet
  induction edits generalizing text hi with
  | nil => trivial
  | cons e rest ih =>
    rw [List.reverse_cons] at h
    obtain ⟨horder, hle, hstop⟩ := h.of_concat
    have hsame' (n : Nat) (hn : n ≤ hi) : text.take n = source.take n := by
      have := congrArg (List.take n) hsame
      rwa [List.take_take, List.take_take, Nat.min_eq_left hn] at this
    have hstart : (text.take e.start).length = e.start := List.length_take_of_le (by omega)
    refine ⟨hle, by omega, hsame' e.stop hstop, ih horder ?_ ?_⟩
    · unfold Edit.apply
      rw [List.length_append, List.length_append, hstart]
      omega
    · unfold Edit.apply
      rw [List.append_assoc, List.take_append_of_le_length (Nat.le_of_eq hstart.symm), List.take_take,
        Nat.min_self, hsame' e.start (by omega)]

namespace Corrector

/-! ## What a corrector keeps -/

/-- Answers a request. -/
def follow (c : Corrector) : EditRequest → Corrector
  | .setCheck code => { c with check := code }
  | .replace range text => c.replace range text
  | .insert offset text => c.insert offset text
  | .remove range => c.remove range

/-- The corrector of a file after some requests. -/
def ofRequests (f : SourceFile) (requests : List EditRequest) : Corrector :=
  requests.foldl follow { file := f }

/-- The edits that a corrector of `f` keeps lie in the source and are numbered. -/
structure Kept (f : SourceFile) (c : Corrector) : Prop where
  file : c.file = f
  placed : ∀ e ∈ c.edits, e.start ≤ e.stop ∧ e.stop ≤ f.source.length
  numbered : c.edits.Pairwise fun a b => a.seq < b.seq
  below : ∀ e ∈ c.edits, e.seq < c.seq

section Kept

variable {f : SourceFile} {c : Corrector}

theorem kept_empty (f : SourceFile) : Kept f { file := f } := ⟨rfl, nofun, .nil, nofun⟩

theorem Kept.replace (h : Kept f c) (range : Range) (text : Text) : Kept f (c.replace range text) := by
  unfold Corrector.replace
  cases hfault : EditFault.of? range c.file.source.length with
  | some fault =>
    exact ⟨h.file, h.placed, h.numbered, fun e he => Nat.lt_succ_of_lt (h.below e he)⟩
  | none =>
    have hrange : 0 ≤ range.start ∧ range.start ≤ range.stop ∧
        range.stop ≤ c.file.source.length := by
      unfold EditFault.of? at hfault
      split at hfault
      · cases hfault
      · split at hfault
        · cases hfault
        · split at hfault
          · cases hfault
          · omega
    rw [h.file] at hrange
    refine ⟨h.file, fun e he => ?_, ?_, fun e he => ?_⟩
    · rcases List.mem_append.1 he with he | he
      · exact h.placed e he
      · rw [List.mem_singleton.1 he]
        dsimp only
        omega
    · refine List.pairwise_append.2 ⟨h.numbered, List.pairwise_singleton .., ?_⟩
      intro a ha b hb
      rw [List.mem_singleton.1 hb]
      exact h.below a ha
    · rcases List.mem_append.1 he with he | he
      · exact Nat.lt_succ_of_lt (h.below e he)
      · rw [List.mem_singleton.1 he]
        exact Nat.lt_succ_self _

/-- Whatever is asked, the corrector keeps edits that lie in the source. -/
theorem Kept.follow (h : Kept f c) (request : EditRequest) : Kept f (c.follow request) := by
  cases request with
  | setCheck code => exact ⟨h.file, h.placed, h.numbered, h.below⟩
  | replace range text => exact h.replace range text
  | insert offset text => exact h.replace ⟨offset, offset⟩ text
  | remove range => exact h.replace range []

theorem kept_ofRequests (f : SourceFile) (requests : List EditRequest) :
    Kept f (ofRequests f requests) := by
  have hrun (c : Corrector) (hc : Kept f c) : Kept f (requests.foldl Corrector.follow c) := by
    induction requests generalizing c with
    | nil => exact hc
    | cons first rest ih => exact ih _ (hc.follow first)
  exact hrun _ (kept_empty f)

/-! ## What is accepted -/

/-- Accepted edits are some of those that the corrector keeps, in order. -/
theorem applied_sublist (c : Corrector) (stored : Text) : (c.apply stored).applied.Sublist c.edits :=
  settle_sublist [] c.edits []

theorem applied_apart (c : Corrector) (stored : Text) :
    (c.apply stored).applied.Pairwise fun a b => a.overlaps b = false :=
  (settle_pairwise c.edits [] .nil).imp fun h => h.2

/-- Edits that are numbered have one order from left to right. -/
theorem leftToRight_eq_inSourceOrder {edits : List Edit}
    (hnumbered : edits.Pairwise fun a b => a.seq < b.seq) : leftToRight edits = inSourceOrder edits := by
  have hperm := (leftToRight_perm edits).trans (inSourceOrder_perm edits).symm
  refine hperm.eq_of_pairwise ?_ (leftToRight_before edits) (inSourceOrder_before edits)
  intro a b ha hb hab hba
  have hseq : a.seq = b.seq := by
    unfold Edit.Before at hab hba
    omega
  have hnodup : (edits.map Edit.seq).Nodup :=
    List.pairwise_map.2 (hnumbered.imp fun h => Nat.ne_of_lt h)
  exact List.inj_on_of_nodup_map hnodup ((leftToRight_perm edits).subset ha)
    ((inSourceOrder_perm edits).subset hb) hseq

variable (h : Kept f c) (stored : Text)

include h

theorem Kept.placed_applied {e : Edit} (he : e ∈ (c.apply stored).applied) :
    e.start ≤ e.stop ∧ e.stop ≤ f.source.length :=
  h.placed e ((applied_sublist c stored).subset he)

theorem Kept.leftToRight_applied :
    leftToRight (c.apply stored).applied = inSourceOrder (c.apply stored).applied :=
  leftToRight_eq_inSourceOrder (h.numbered.sublist (applied_sublist c stored))

/-- Accepted edits stand one after the other in the source. -/
theorem Kept.inOrder_applied : InOrder 0 (inSourceOrder (c.apply stored).applied) f.source.length := by
  have hperm := inSourceOrder_perm (c.apply stored).applied
  have hapart := (hperm.pairwise_iff fun h => by rwa [Edit.overlaps_comm]).2 (applied_apart c stored)
  exact inOrder_of_apart (inSourceOrder_before _) hapart (fun _ _ => Nat.zero_le _)
    (fun e he => h.placed_applied stored (hperm.subset he)) (Nat.zero_le _)

/-- **Splicing accepted edits from the end backwards merges them from left to right.** -/
theorem Kept.splice_applied :
    splice f.source (c.apply stored).applied = merge f.source (c.apply stored).applied := by
  rw [splice_eq_patch (applied_apart c stored) fun e he => h.placed_applied stored he,
    h.leftToRight_applied stored]
  rfl

theorem Kept.content_apply :
    (c.apply stored).content = if (c.apply stored).applied = [] then stored
      else f.encode (merge f.source (c.apply stored).applied) := by
  rw [← h.splice_applied stored, ← h.file]
  unfold Corrector.apply
  dsimp only
  by_cases hnone : (settle [] [] c.edits).1 = []
  · rw [if_pos hnone, if_pos (List.isEmpty_iff.2 hnone)]
  · rw [if_neg hnone, if_neg fun hempty => hnone (List.isEmpty_iff.1 hempty)]

/-- **Every accepted edit lies in the text when its turn comes.** -/
theorem Kept.fitsInTurn :
    FitsInTurn f.source f.source
      ((c.apply stored).applied.mergeSort fun a b => Edit.applyOrder a b != .gt) := by
  have horder := h.inOrder_applied stored
  rw [← h.leftToRight_applied stored] at horder
  exact fitsInTurn_of_inOrder horder (Nat.le_refl _) rfl

theorem Kept.insertionsInPlace :
    InsertionsInPlace (c.apply stored).applied (inSourceOrder (c.apply stored).applied) := by
  have hsorted := inSourceOrder_before (c.apply stored).applied
  have hmem {e : Edit} (he : e ∈ (c.apply stored).applied) :
      e ∈ inSourceOrder (c.apply stored).applied := (inSourceOrder_perm _).symm.subset he
  have hplaced {e : Edit} (he : e ∈ (c.apply stored).applied) := h.placed_applied stored he
  have hnumbered := h.numbered.sublist (applied_sublist c stored)
  constructor
  · intro a b hab ha hb hstart
    have hseq := List.pairwise_iff_forall_sublist.1 hnumbered hab
    have hmemA := hab.subset (List.mem_cons_self ..)
    have hmemB := hab.subset (List.mem_cons_of_mem _ (List.mem_cons_self ..))
    refine Edit.pair_sublist hsorted (hmem hmemA) (hmem hmemB) ?_
    have ha := of_decide_eq_true ha
    have hb := of_decide_eq_true hb
    unfold Edit.Before
    omega
  · intro a hmemA b hmemB ha hb hstart
    refine Edit.pair_sublist hsorted (hmem hmemA) (hmem hmemB) ?_
    have ha := of_decide_eq_true ha
    have hb := of_decide_eq_false hb
    have := hplaced hmemB
    unfold Edit.Before
    omega
  · intro a hmemA b hmemB ha hb hend
    refine Edit.pair_sublist hsorted (hmem hmemB) (hmem hmemA) ?_
    have ha := of_decide_eq_true ha
    have hb := of_decide_eq_false hb
    have := hplaced hmemB
    unfold Edit.Before
    omega

end Kept

/-- **Applying a corrector merges the accepted edits from left to right.**  Whatever replacements,
insertions and removals were asked for, the source with the accepted edits is what going through them
from left to right gives, and the content is that text in its stored form.  The accepted edits stand
one after the other in the source, each of them lies in the text when its turn comes, and insertions
at one offset stand in the order in which they were asked for, before a replacement that starts there
and behind one that ends there. -/
theorem apply_eq_merge (f : SourceFile) (requests : List EditRequest) (stored : Text) :
    let out := (ofRequests f requests).apply stored
    splice f.source out.applied = merge f.source out.applied ∧
      out.content = (if out.applied = [] then stored else f.encode (merge f.source out.applied)) ∧
      InOrder 0 (inSourceOrder out.applied) f.source.length ∧
      FitsInTurn f.source f.source (out.applied.mergeSort fun a b => Edit.applyOrder a b != .gt) ∧
      InsertionsInPlace out.applied (inSourceOrder out.applied) := by
  have h := kept_ofRequests f requests
  exact ⟨h.splice_applied stored, h.content_apply stored, h.inOrder_applied stored,
    h.fitsInTurn stored, h.insertionsInPlace stored⟩

end Corrector
end LiquidLint
