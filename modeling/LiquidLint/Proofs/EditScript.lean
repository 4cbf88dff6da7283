import Mathlib.Data.List.Pairwise
import Mathlib.Data.List.Sort
import LiquidLint.Fix.Corrector

/-!
# Edits from left to right

Accepted edits are applied from the end of a source backwards, so that the places of the others stay
valid.  Since no two of them overlap, the same text is put together from left to right: what stands
before an edit is copied, then comes its text, and reading goes on behind what it replaces
(`patch`, `splice_eq_patch`).

An edit is dropped only for one that was accepted before (`judge_cases`).  So if edits that overlap are
always the same edit, none is dropped, and each of them is made (`settle_of_agree`).
-/

namespace LiquidLint

namespace Edit

/-! ## Overlapping and order -/

theorem overlaps_comm (a b : Edit) : a.overlaps b = b.overlaps a := by
  unfold overlaps
  cases a.isInsertion <;> cases b.isInsertion
  · simp only [Bool.and_self, Bool.false_eq_true, if_false]
    exact Bool.and_comm ..
  · rfl
  · rfl
  · rfl

theorem same_iff (a b : Edit) :
    a.same b = true ↔ a.start = b.start ∧ a.stop = b.stop ∧ a.text = b.text := by
  unfold same
  rw [Bool.and_eq_true, Bool.and_eq_true, decide_eq_true_iff, decide_eq_true_iff,
    decide_eq_true_iff, and_assoc]

theorem same_refl (e : Edit) : e.same e = true := (same_iff e e).2 ⟨rfl, rfl, rfl⟩

theorem same_trans {a b c : Edit} (hab : a.same b = true) (hbc : b.same c = true) :
    a.same c = true := by
  obtain ⟨h₁, h₂, h₃⟩ := (same_iff a b).1 hab
  obtain ⟨h₁', h₂', h₃'⟩ := (same_iff b c).1 hbc
  exact (same_iff a c).2 ⟨h₁.trans h₁', h₂.trans h₂', h₃.trans h₃'⟩

/-- The order in which edits stand in a source: by where they start, then by where they stop, then by
when they were asked for. -/
def Before (a b : Edit) : Prop :=
  a.start < b.start ∨ a.start = b.start ∧ (a.stop < b.stop ∨ a.stop = b.stop ∧ a.seq ≤ b.seq)

theorem applyOrder_ne_gt (a b : Edit) : (applyOrder a b != .gt) = true ↔ b.Before a := by
  unfold applyOrder Before
  rw [bne_iff_ne, ne_eq, Ordering.then_eq_gt, Ordering.then_eq_gt, Nat.compare_eq_gt,
    Nat.compare_eq_gt, Nat.compare_eq_gt, Nat.compare_eq_eq, Nat.compare_eq_eq]
  omega

theorem Before.trans {a b c : Edit} (hab : a.Before b) (hbc : b.Before c) : a.Before c := by
  unfold Before at *
  omega

theorem before_total (a b : Edit) : a.Before b ∨ b.Before a := by
  unfold Before
  omega

/-- Of two edits that do not overlap, the one that stands before ends where the other starts or
before. -/
theorem Before.stop_le_start {a b : Edit} (h : a.Before b) (ha : a.start ≤ a.stop)
    (hb : b.start ≤ b.stop) (hapart : a.overlaps b = false) : a.stop ≤ b.start := by
  unfold Before at h
  unfold overlaps isInsertion at hapart
  by_cases hains : a.start = a.stop
  · omega
  · by_cases hbins : b.start = b.stop
    · simp [hains, hbins] at hapart
      omega
    · simp [hains, hbins] at hapart
      omega

/-- Edits overlap only if each of them starts before the other one ends. -/
theorem lt_of_overlaps {a b : Edit} (h : a.overlaps b = true) :
    a.start < b.stop ∧ b.start < a.stop := by
  unfold overlaps isInsertion at h
  split at h
  · cases h
  · split at h
    · rename_i hins
      have hins := of_decide_eq_true hins
      rw [Bool.and_eq_true, decide_eq_true_iff, decide_eq_true_iff] at h
      omega
    · split at h
      · rename_i hins
        have hins := of_decide_eq_true hins
        rw [Bool.and_eq_true, decide_eq_true_iff, decide_eq_true_iff] at h
        omega
      · rw [Bool.and_eq_true, decide_eq_true_iff, decide_eq_true_iff] at h
        exact h

/-- The edit without the place it has among others. -/
def plain (e : Edit) : Edit := { e with seq := 0 }

theorem same_of_plain {a b : Edit} (h : a.plain = b.plain) : a.same b = true := by
  obtain ⟨hstart, hstop, htext, _, _⟩ := Edit.mk.inj h
  exact (same_iff a b).2 ⟨hstart, hstop, htext⟩

end Edit

/-! ## Patches -/

/-- The source from `pos` up to `stop` with edits made from left to right. -/
def patch (source : Text) (pos stop : Nat) : List Edit → Text
  | [] => Text.slice source pos stop
  | e :: rest => Text.slice source pos e.start ++ (e.text ++ patch source e.stop stop rest)

theorem patch_nil (source : Text) (pos stop : Nat) :
    patch source pos stop [] = Text.slice source pos stop := rfl

/-- The edits stand one after the other between `lo` and `hi`. -/
def InOrder (lo : Nat) : List Edit → Nat → Prop
  | [], hi => lo ≤ hi
  | e :: rest, hi => lo ≤ e.start ∧ e.start ≤ e.stop ∧ InOrder e.stop rest hi

theorem InOrder.le {lo hi : Nat} {edits : List Edit} (h : InOrder lo edits hi) : lo ≤ hi := by
  induction edits generalizing lo with
  | nil => exact h
  | cons e rest ih =>
    obtain ⟨hlo, hle, hrest⟩ := h
    have := ih hrest
    omega

theorem InOrder.append {lo mid hi : Nat} {xs ys : List Edit} (hx : InOrder lo xs mid)
    (hy : InOrder mid ys hi) : InOrder lo (xs ++ ys) hi := by
  induction xs generalizing lo with
  | nil =>
    cases ys with
    | nil => exact Nat.le_trans hx hy
    | cons e rest => exact ⟨Nat.le_trans hx hy.1, hy.2⟩
  | cons e rest ih =>
    obtain ⟨hlo, hle, hrest⟩ := hx
    exact ⟨hlo, hle, ih hrest⟩

theorem InOrder.bounds {lo hi : Nat} {edits : List Edit} (h : InOrder lo edits hi) {e : Edit}
    (he : e ∈ edits) : lo ≤ e.start ∧ e.start ≤ e.stop ∧ e.stop ≤ hi := by
  induction edits generalizing lo with
  | nil => cases he
  | cons first rest ih =>
    obtain ⟨hlo, hle, hrest⟩ := h
    rcases List.mem_cons.1 he with rfl | he
    · exact ⟨hlo, hle, hrest.le⟩
    · obtain ⟨hlo', hplace⟩ := ih hrest he
      exact ⟨by omega, hplace⟩

theorem InOrder.pairwise {lo hi : Nat} {edits : List Edit} (h : InOrder lo edits hi) :
    edits.Pairwise fun a b => a.stop ≤ b.start := by
  induction edits generalizing lo with
  | nil => exact .nil
  | cons e rest ih =>
    obtain ⟨_, _, hrest⟩ := h
    exact .cons (fun e' he' => (hrest.bounds he').1) (ih hrest)

/-- Edits of which each stops before the later ones start stand one after the other. -/
theorem inOrder_of_pairwise {edits : List Edit} {lo hi : Nat}
    (h : edits.Pairwise fun a b => a.stop ≤ b.start)
    (hplaced : ∀ e ∈ edits, lo ≤ e.start ∧ e.start ≤ e.stop ∧ e.stop ≤ hi) (hle : lo ≤ hi) :
    InOrder lo edits hi := by
  induction edits generalizing lo with
  | nil => exact hle
  | cons e rest ih =>
    obtain ⟨hfirst, hrest⟩ := List.pairwise_cons.1 h
    obtain ⟨hlo, hstart, hstop⟩ := hplaced e (List.mem_cons_self ..)
    refine ⟨hlo, hstart, ih hrest (fun e' he' => ?_) hstop⟩
    exact ⟨hfirst e' he', (hplaced e' (List.mem_cons_of_mem _ he')).2⟩

theorem Text.slice_split (source : Text) {i j k : Nat} (hij : i ≤ j) (hjk : j ≤ k) :
    Text.slice source i k = Text.slice source i j ++ Text.slice source j k := by
  unfold Text.slice
  rw [show k - i = (j - i) + (k - j) from by omega, List.take_add, List.drop_drop,
    Nat.add_sub_cancel' hij]

/-- **A source is patched part by part.** -/
theorem patch_append (source : Text) {lo mid hi : Nat} {xs ys : List Edit} (hx : InOrder lo xs mid)
    (hy : InOrder mid ys hi) :
    patch source lo hi (xs ++ ys) = patch source lo mid xs ++ patch source mid hi ys := by
  induction xs generalizing lo with
  | nil =>
    rw [List.nil_append]
    cases ys with
    | nil => exact Text.slice_split source hx hy
    | cons e rest =>
      unfold patch
      rw [Text.slice_split source hx hy.1, List.append_assoc]
  | cons e rest ih =>
    obtain ⟨_, _, hrest⟩ := hx
    rw [List.cons_append, patch, ih hrest, patch, List.append_assoc, List.append_assoc]

/-- Patching asks for the places and the texts of edits only. -/
theorem patch_map (source : Text) (pos stop : Nat) {h : Edit → Edit} (edits : List Edit)
    (hsame : ∀ e ∈ edits, (h e).same e = true) :
    patch source pos stop (edits.map h) = patch source pos stop edits := by
  induction edits generalizing pos with
  | nil => rfl
  | cons e rest ih =>
    obtain ⟨hstart, hstop, htext⟩ := (Edit.same_iff _ _).1 (hsame e (List.mem_cons_self ..))
    rw [List.map_cons, patch, patch, hstart, hstop, htext,
      ih e.stop fun e' he' => hsame e' (List.mem_cons_of_mem _ he')]

/-- Edits in order, made from the last one to the first one, leave what stands before them as it
is. -/
theorem foldr_apply {source : Text} {lo : Nat} {edits : List Edit}
    (h : InOrder lo edits source.length) :
    edits.foldr (fun e t => Edit.apply t e) source =
      source.take lo ++ patch source lo source.length edits := by
  induction edits generalizing lo with
  | nil =>
    unfold patch Text.slice
    rw [← List.length_drop, List.take_length, List.take_append_drop]
    rfl
  | cons e rest ih =>
    obtain ⟨hlo, hle, hrest⟩ := h
    have hstop := hrest.le
    have htake : (source.take e.stop).length = e.stop := List.length_take_of_le hstop
    have hbefore : source.take lo ++ Text.slice source lo e.start = source.take e.start := by
      unfold Text.slice
      rw [← List.take_add, Nat.add_sub_cancel' hlo]
    rw [List.foldr_cons, ih hrest]
    unfold Edit.apply
    rw [List.take_append_of_le_length (by omega), List.take_take, Nat.min_eq_left hle,
      List.drop_left' htake, patch, ← List.append_assoc, hbefore, List.append_assoc]

namespace Corrector

/-- Accepted edits from left to right. -/
def leftToRight (edits : List Edit) : List Edit :=
  (edits.mergeSort fun a b => Edit.applyOrder a b != .gt).reverse

theorem leftToRight_perm (edits : List Edit) : (leftToRight edits).Perm edits :=
  (List.reverse_perm _).trans (List.mergeSort_perm _ _)

theorem leftToRight_before (edits : List Edit) : (leftToRight edits).Pairwise Edit.Before := by
  have hsorted := @List.pairwise_mergeSort _ (fun a b => Edit.applyOrder a b != .gt)
    (fun a b c hab hbc => (Edit.applyOrder_ne_gt a c).2
      (((Edit.applyOrder_ne_gt b c).1 hbc).trans ((Edit.applyOrder_ne_gt a b).1 hab)))
    (fun a b => by
      rw [Bool.or_eq_true, Edit.applyOrder_ne_gt, Edit.applyOrder_ne_gt]
      exact Edit.before_total b a)
    edits
  exact List.pairwise_reverse.2 (hsorted.imp fun h => (Edit.applyOrder_ne_gt _ _).1 h)

/-- Of edits that start one behind the other, no two start together. -/
theorem eq_of_start {edits : List Edit} (h : edits.Pairwise fun a b => a.start < b.start) {a b : Edit}
    (ha : a ∈ edits) (hb : b ∈ edits) (heq : a.start = b.start) : a = b :=
  List.inj_on_of_nodup_map (List.pairwise_map.2 (h.imp fun hlt => Nat.ne_of_lt hlt)) ha hb heq

/-- **Edits that differ in their starts have one order from left to right.** -/
theorem leftToRight_eq {accepted edits : List Edit}
    (hstarts : edits.Pairwise fun a b => a.start < b.start)
    (hdiffer : accepted.Pairwise fun a b => a.plain ≠ b.plain)
    (hmem : ∀ e, e ∈ edits ↔ ∃ a ∈ accepted, a.plain = e) :
    (leftToRight accepted).map Edit.plain = edits := by
  have hperm := leftToRight_perm accepted
  have hdiffer : (leftToRight accepted).Pairwise fun a b => a.plain ≠ b.plain :=
    (hperm.pairwise_iff fun h => h.symm).2 hdiffer
  have hin (a : Edit) (ha : a ∈ leftToRight accepted) : a.plain ∈ edits :=
    (hmem a.plain).2 ⟨a, hperm.subset ha, rfl⟩
  have hsorted : ((leftToRight accepted).map Edit.plain).Pairwise fun a b => a.start < b.start := by
    rw [List.pairwise_map]
    refine (List.Pairwise.and (leftToRight_before accepted) hdiffer).imp_of_mem ?_
    rintro a b ha hb ⟨hbefore, hne⟩
    refine Nat.lt_of_le_of_ne ?_ fun heq => hne (eq_of_start hstarts (hin a ha) (hin b hb) heq)
    unfold Edit.Before at hbefore
    show a.start ≤ b.start
    omega
  have : Std.Irrefl fun a b : Edit => a.start < b.start := ⟨fun _ => Nat.lt_irrefl _⟩
  have : Std.Antisymm fun a b : Edit => a.start < b.start :=
    ⟨fun _ _ h h' => absurd h (Nat.lt_asymm h')⟩
  refine List.Pairwise.eq_of_mem_iff hsorted hstarts fun e => ?_
  rw [hmem, List.mem_map]
  constructor
  · rintro ⟨a, ha, heq⟩
    exact ⟨a, hperm.subset ha, heq⟩
  · rintro ⟨a, ha, heq⟩
    exact ⟨a, hperm.symm.subset ha, heq⟩

/-- Edits inside a source that do not overlap stand one after the other. -/
theorem inOrder_of_apart {edits : List Edit} {lo hi : Nat} (hbefore : edits.Pairwise Edit.Before)
    (hapart : edits.Pairwise fun a b => a.overlaps b = false) (hlo : ∀ e ∈ edits, lo ≤ e.start)
    (hplaced : ∀ e ∈ edits, e.start ≤ e.stop ∧ e.stop ≤ hi) (hle : lo ≤ hi) :
    InOrder lo edits hi := by
  have hpairwise : edits.Pairwise fun a b => a.stop ≤ b.start := by
    refine (hbefore.and hapart).imp_of_mem ?_
    rintro a b ha hb ⟨hbefore, hapart⟩
    exact hbefore.stop_le_start (hplaced a ha).1 (hplaced b hb).1 hapart
  exact inOrder_of_pairwise hpairwise (fun e he => ⟨hlo e he, hplaced e he⟩) hle

/-- **Applying edits from the end backwards makes them from left to right.** -/
theorem splice_eq_patch {source : Text} {edits : List Edit}
    (hapart : edits.Pairwise fun a b => a.overlaps b = false)
    (hplaced : ∀ e ∈ edits, e.start ≤ e.stop ∧ e.stop ≤ source.length) :
    splice source edits = patch source 0 source.length (leftToRight edits) := by
  have hperm := leftToRight_perm edits
  have horder : InOrder 0 (leftToRight edits) source.length :=
    inOrder_of_apart (leftToRight_before edits)
      ((hperm.pairwise_iff fun h => by rwa [Edit.overlaps_comm]).2 hapart) (fun _ _ => Nat.zero_le _)
      (fun e he => hplaced e (hperm.subset he)) (Nat.zero_le _)
  have hfold := foldr_apply horder
  rw [List.take_zero, List.nil_append] at hfold
  unfold splice
  rw [← hfold]
  unfold leftToRight
  rw [List.foldr_reverse]

/-! ## Accepting edits -/

/-- What the verdict on an edit says about the edits that were accepted before. -/
theorem judge_cases (e : Edit) (accepted : List Edit) :
    judge e accepted = .accept ∧ (∀ a ∈ accepted, a.same e = false ∧ a.overlaps e = false) ∨
      judge e accepted = .repeated ∧ (∃ a ∈ accepted, a.same e = true) ∨
      ∃ a ∈ accepted, judge e accepted = .clash a ∧ a.same e = false ∧ a.overlaps e = true := by
  induction accepted with
  | nil => exact .inl ⟨rfl, nofun⟩
  | cons a rest ih =>
    unfold judge
    by_cases hsame : a.same e = true
    · rw [if_pos hsame]
      exact .inr (.inl ⟨rfl, a, List.mem_cons_self .., hsame⟩)
    · by_cases hover : a.overlaps e = true
      · rw [if_neg hsame, if_pos hover]
        exact .inr (.inr ⟨a, List.mem_cons_self .., rfl, Bool.eq_false_iff.2 hsame, hover⟩)
      · rw [if_neg hsame, if_neg hover]
        rcases ih with ⟨haccept, hall⟩ | ⟨hrepeated, b, hb, hbsame⟩ | ⟨b, hb, hclash⟩
        · refine .inl ⟨haccept, fun b hb => ?_⟩
          rcases List.mem_cons.1 hb with rfl | hb
          · exact ⟨Bool.eq_false_iff.2 hsame, Bool.eq_false_iff.2 hover⟩
          · exact hall b hb
        · exact .inr (.inl ⟨hrepeated, b, List.mem_cons_of_mem _ hb, hbsame⟩)
        · exact .inr (.inr ⟨b, List.mem_cons_of_mem _ hb, hclash⟩)

/-- Accepted edits stay accepted, in order, and the others come from the list. -/
theorem settle_sublist (accepted edits : List Edit) (conflicts : List Conflict) :
    (settle accepted conflicts edits).1.Sublist (accepted ++ edits) := by
  induction edits generalizing accepted conflicts with
  | nil =>
    rw [List.append_nil]
    exact .refl _
  | cons e rest ih =>
    unfold settle
    have hskip : (accepted ++ rest).Sublist (accepted ++ e :: rest) :=
      (List.Sublist.refl accepted).append (List.sublist_cons_self e rest)
    cases judge e accepted with
    | accept =>
      have h := ih (accepted ++ [e]) conflicts
      rwa [List.append_assoc] at h
    | repeated => exact (ih accepted conflicts).trans hskip
    | clash kept => exact (ih accepted _).trans hskip

/-- **No two accepted edits overlap**, and none repeats another. -/
theorem settle_pairwise {accepted : List Edit} (edits : List Edit) (conflicts : List Conflict)
    (h : accepted.Pairwise fun a b => a.same b = false ∧ a.overlaps b = false) :
    (settle accepted conflicts edits).1.Pairwise fun a b =>
      a.same b = false ∧ a.overlaps b = false := by
  induction edits generalizing accepted conflicts with
  | nil => exact h
  | cons e rest ih =>
    unfold settle
    rcases judge_cases e accepted with ⟨hjudge, hall⟩ | ⟨hjudge, _⟩ | ⟨a, _, hjudge, _⟩
    · rw [hjudge]
      refine ih conflicts (List.pairwise_append.2 ⟨h, List.pairwise_singleton .., ?_⟩)
      intro a ha b hb
      rw [List.mem_singleton.1 hb]
      exact hall a ha
    · rw [hjudge]
      exact ih conflicts h
    · rw [hjudge]
      exact ih _ h

/-- **Edits that overlap only where they are the same are all made**, and none is dropped. -/
theorem settle_of_agree {accepted edits : List Edit} (conflicts : List Conflict)
    (hagree : ∀ a ∈ accepted ++ edits, ∀ b ∈ accepted ++ edits,
      a.overlaps b = true → a.same b = true) :
    (settle accepted conflicts edits).2 = conflicts ∧
      ∀ e ∈ accepted ++ edits, ∃ a ∈ (settle accepted conflicts edits).1, a.same e = true := by
  induction edits generalizing accepted with
  | nil =>
    refine ⟨rfl, fun e he => ?_⟩
    rw [List.append_nil] at he
    exact ⟨e, he, Edit.same_refl e⟩
  | cons e rest ih =>
    have hsub : ∀ a ∈ accepted ++ rest, a ∈ accepted ++ e :: rest := by
      intro a ha
      rcases List.mem_append.1 ha with ha | ha
      · exact List.mem_append_left _ ha
      · exact List.mem_append_right _ (List.mem_cons_of_mem _ ha)
    have hmem : e ∈ accepted ++ e :: rest := List.mem_append_right _ (List.mem_cons_self ..)
    unfold settle
    rcases judge_cases e accepted with ⟨hjudge, _⟩ | ⟨hjudge, a, ha, hsame⟩ |
      ⟨a, ha, hjudge, hdiffer, hover⟩
    · rw [hjudge]
      have h := @ih (accepted ++ [e])
      rw [List.append_assoc] at h
      exact h hagree
    · rw [hjudge]
      obtain ⟨hconflicts, hall⟩ := ih fun a ha b hb => hagree a (hsub a ha) b (hsub b hb)
      refine ⟨hconflicts, fun e' he' => ?_⟩
      rcases List.mem_append.1 he' with he' | he'
      · exact hall e' (List.mem_append_left _ he')
      · rcases List.mem_cons.1 he' with rfl | he'
        · -- the edit that `e'` repeats stands for it
          obtain ⟨kept, hkept, hkeptSame⟩ := hall a (List.mem_append_left _ ha)
          exact ⟨kept, hkept, Edit.same_trans hkeptSame hsame⟩
        · exact hall e' (List.mem_append_right _ he')
    · have := hagree a (List.mem_append_left _ ha) e hmem hover
      rw [hdiffer] at this
      cases this

/-- **Edits that stand one behind the other are all made**, however often and in whatever order they
are asked for. -/
theorem settle_of_inOrder {source : Text} {edits target : List Edit}
    (horder : InOrder 0 target source.length)
    (hstarts : target.Pairwise fun a b => a.start < b.start)
    (hmem : ∀ e, e ∈ target ↔ ∃ a ∈ edits, a.plain = e) :
    (settle [] [] edits).2 = [] ∧
      splice source (settle [] [] edits).1 = patch source 0 source.length target ∧
      ∀ e, e ∈ target ↔ ∃ a ∈ (settle [] [] edits).1, a.plain = e := by
  have hin (a : Edit) (ha : a ∈ edits) : a.plain ∈ target := (hmem a.plain).2 ⟨a, ha, rfl⟩
  have hagree : ∀ a ∈ [] ++ edits, ∀ b ∈ [] ++ edits, a.overlaps b = true → a.same b = true := by
    intro a ha b hb hover
    have hsame : a.plain = b.plain := by
      refine Classical.byContradiction fun hne => ?_
      have : Std.Symm fun a b : Edit => a.stop ≤ b.start ∨ b.stop ≤ a.start :=
        ⟨fun _ _ h => h.symm⟩
      have hapart : target.Pairwise fun a b => a.stop ≤ b.start ∨ b.stop ≤ a.start :=
        horder.pairwise.imp fun h => .inl h
      have hlt := Edit.lt_of_overlaps hover
      have hplaces := hapart.forall (hin a ha) (hin b hb) hne
      unfold Edit.plain at hplaces
      dsimp only at hplaces
      omega
    exact Edit.same_of_plain hsame
  obtain ⟨hconflicts, hmade⟩ := settle_of_agree [] hagree
  have hsub := (settle_sublist [] edits []).subset
  have hpairwise := settle_pairwise edits [] List.Pairwise.nil
  rw [List.nil_append] at hsub hmade
  generalize (settle [] [] edits).1 = accepted at hmade hsub hpairwise ⊢
  have hdiffer : accepted.Pairwise fun a b => a.plain ≠ b.plain := by
    refine hpairwise.imp fun hab heq => ?_
    rw [Edit.same_of_plain heq] at hab
    cases hab.1
  have hmemAccepted (e : Edit) : e ∈ target ↔ ∃ a ∈ accepted, a.plain = e := by
    constructor
    · intro he
      obtain ⟨x, hx, rfl⟩ := (hmem e).1 he
      obtain ⟨a, ha, hsame⟩ := hmade x hx
      exact ⟨a, ha, eq_of_start hstarts (hin a (hsub ha)) he ((Edit.same_iff a x).1 hsame).1⟩
    · rintro ⟨a, ha, rfl⟩
      exact hin a (hsub ha)
  have htarget := leftToRight_eq hstarts hdiffer hmemAccepted
  refine ⟨hconflicts, ?_, hmemAccepted⟩
  rw [splice_eq_patch (hpairwise.imp fun h => h.2) fun a ha => (horder.bounds (hin a (hsub ha))).2,
    ← htarget]
  exact (@patch_map source 0 source.length Edit.plain _ fun e _ => Edit.same_of_plain rfl).symm

end Corrector
end LiquidLint
