import Mathlib.Data.List.Infix
import Mathlib.Order.Bounds.Basic
import LiquidLint.Proofs.HunkPatches

/-!
# Edit scripts with as few changes as there can be

The lengths of longest common subsequences obey a recursion over the heads of two lists (`commonLength`), and
what the recursion gives is such a length (`isGreatest_commonLength`).  The table of an edit script holds it for
each rest of the first list and each rest of the second one (`table_eq_lengths`).

A script that follows this table keeps as many lines as a common subsequence can have: equal heads are kept,
and otherwise the head is left out whose list can spare it (`kept_scriptWith_lengths`).  The kept lines of any
script are a common subsequence of its two sides, so that no script has fewer changes (`script_minimal`).
-/

namespace LiquidLint
namespace Diff

/-! ## Lengths of common subsequences -/

/-- The length of a longest common subsequence of two lists of lines. -/
def commonLength : List Text → List Text → Nat
  | [], _ => 0
  | _ :: _, [] => 0
  | a :: as, b :: bs =>
    if a = b then commonLength as bs + 1
    else max (commonLength as (b :: bs)) (commonLength (a :: as) bs)
termination_by as bs => as.length + bs.length

section Lengths

variable {a b : Text} {as bs : List Text}

@[simp] theorem commonLength_nil_left (bs : List Text) : commonLength [] bs = 0 := by
  rw [commonLength]

@[simp] theorem commonLength_nil_right (as : List Text) : commonLength as [] = 0 := by
  cases as <;> rw [commonLength]

theorem commonLength_cons_self (a : Text) (as bs : List Text) :
    commonLength (a :: as) (a :: bs) = commonLength as bs + 1 := by
  rw [commonLength, if_pos rfl]

theorem commonLength_cons_of_ne (h : a ≠ b) : commonLength (a :: as) (b :: bs) =
    max (commonLength as (b :: bs)) (commonLength (a :: as) bs) := by
  rw [commonLength, if_neg h]

/-- There is a common subsequence of that length. -/
theorem exists_common (as bs : List Text) : ∃ s : List Text,
    s.Sublist as ∧ s.Sublist bs ∧ s.length = commonLength as bs := by
  induction as, bs using commonLength.induct with
  | case1 bs => exact ⟨[], List.nil_sublist _, List.nil_sublist _, (commonLength_nil_left bs).symm⟩
  | case2 a as => exact ⟨[], List.nil_sublist _, List.nil_sublist _, (commonLength_nil_right _).symm⟩
  | case3 as b bs ih =>
    obtain ⟨s, hold, hnew, hlength⟩ := ih
    exact ⟨b :: s, hold.cons_cons b, hnew.cons_cons b, by
      rw [commonLength_cons_self, List.length_cons, hlength]⟩
  | case4 a as b bs hne ihold ihnew =>
    rw [commonLength_cons_of_ne hne]
    rcases Nat.le_total (commonLength as (b :: bs)) (commonLength (a :: as) bs) with hle | hle
    · obtain ⟨s, hold, hnew, hlength⟩ := ihnew
      exact ⟨s, hold, hnew.cons b, by rw [hlength, Nat.max_eq_right hle]⟩
    · obtain ⟨s, hold, hnew, hlength⟩ := ihold
      exact ⟨s, hold.cons a, hnew, by rw [hlength, Nat.max_eq_left hle]⟩

/-- No common subsequence is longer. -/
theorem length_le_commonLength {s : List Text} (hold : s.Sublist as) (hnew : s.Sublist bs) :
    s.length ≤ commonLength as bs := by
  induction as, bs using commonLength.induct generalizing s with
  | case1 bs => simp [List.sublist_nil.1 hold]
  | case2 a as => simp [List.sublist_nil.1 hnew]
  | case3 as b bs ih =>
    have htail := ih hold.tail hnew.tail
    rw [List.length_tail] at htail
    rw [commonLength_cons_self]
    omega
  | case4 a as b bs hne ihold ihnew =>
    rw [commonLength_cons_of_ne hne]
    -- the subsequence does without one of the two heads
    cases hold with
    | cons _ hold => exact Nat.le_trans (ihold hold hnew) (Nat.le_max_left _ _)
    | cons_cons _ hold =>
      cases hnew with
      | cons _ hnew => exact Nat.le_trans (ihnew (hold.cons_cons a) hnew) (Nat.le_max_right _ _)
      | cons_cons _ _ => exact absurd rfl hne

/-- The lengths of the common subsequences of two lists of lines. -/
def commonLengths (as bs : List Text) : Set Nat :=
  {n | ∃ s : List Text, s.Sublist as ∧ s.Sublist bs ∧ s.length = n}

/-- **The recursion gives the greatest length.** -/
theorem isGreatest_commonLength (as bs : List Text) :
    IsGreatest (commonLengths as bs) (commonLength as bs) := by
  refine ⟨exists_common as bs, ?_⟩
  rintro _ ⟨s, hold, hnew, rfl⟩
  exact length_le_commonLength hold hnew

end Lengths

/-! ## The table -/

/-- The lengths for each rest of the first list and each rest of the second one. -/
def lengths (as bs : List Text) : List (List Nat) :=
  as.tails.map fun as => bs.tails.map (commonLength as)

theorem lengths_cons (a : Text) (as bs : List Text) :
    lengths (a :: as) bs = bs.tails.map (commonLength (a :: as)) :: lengths as bs := rfl

theorem headD_lengths (as bs : List Text) : (lengths as bs).headD [] = bs.tails.map (commonLength as) := by
  cases as <;> rfl

theorem headD_row (as bs : List Text) : (bs.tails.map (commonLength as)).headD 0 = commonLength as bs := by
  cases bs <;> rfl

/-- The table without its first column is that of the rest of the second list. -/
theorem map_tail_lengths (as : List Text) (b : Text) (bs : List Text) :
    (lengths as (b :: bs)).map List.tail = lengths as bs := by
  unfold lengths
  rw [List.map_map]
  rfl

theorem nextRow_row (a : Text) (as bs : List Text) :
    nextRow a bs (bs.tails.map (commonLength as)) = bs.tails.map (commonLength (a :: as)) := by
  induction bs with
  | nil => simp [nextRow]
  | cons b bs ih =>
    have hrest : ((b :: bs).tails.map (commonLength as)).tail = bs.tails.map (commonLength as) := rfl
    rw [nextRow, hrest, ih, headD_row, headD_row, headD_row]
    refine congrArg (· :: bs.tails.map (commonLength (a :: as))) ?_
    rw [commonLength]

/-- **The table holds the lengths of longest common subsequences.** -/
theorem table_eq_lengths (as bs : List Text) : table as bs = lengths as bs := by
  induction as with
  | nil =>
    have hzero : bs.tails.map (commonLength []) = bs.tails.map fun _ => 0 :=
      List.map_congr_left fun rest _ => commonLength_nil_left rest
    show table [] bs = [bs.tails.map (commonLength [])]
    rw [table, hzero, List.map_const', List.length_tails]
  | cons a as ih => rw [table, ih, headD_lengths, nextRow_row, lengths_cons]

/-! ## Kept lines -/

/-- The lines that a script keeps. -/
def keptLines (ls : List Line) : List Text := (ls.filter isKept).map Line.text

/-- **The kept lines of a script are a common subsequence** of its two sides. -/
theorem keptLines_sublist (ls : List Line) :
    (keptLines ls).Sublist (oldLines ls) ∧ (keptLines ls).Sublist (newLines ls) := by
  constructor
  all_goals
    refine List.Sublist.map _ (List.monotone_filter_right ls fun l hl => ?_)
    rw [of_decide_eq_true hl]
    decide

theorem length_keptLines (ls : List Line) : (keptLines ls).length = ls.countP isKept := by
  rw [keptLines, List.length_map, List.countP_eq_length_filter]

/-- A kept line stands on both sides of a script, and any other line on one of them. -/
theorem length_changes (ls : List Line) :
    (oldLines ls).length + (newLines ls).length = 2 * ls.countP isKept + (changes ls).length := by
  induction ls with
  | nil => rfl
  | cons l ls ih =>
    obtain ⟨kind, text⟩ := l
    cases kind
    all_goals
      simp only [length_oldLines, length_newLines, oldCount, newCount, changes, isKept, List.countP_cons,
        List.filter_cons] at ih ⊢
      simp at ih ⊢
      omega

/-- **A script that follows the lengths** keeps as many lines as a common subsequence can have. -/
theorem kept_scriptWith_lengths (as bs : List Text) :
    (scriptWith as bs (lengths as bs)).countP isKept = commonLength as bs := by
  induction as, bs using commonLength.induct with
  | case1 bs => simp [scriptWith, isKept, List.countP_map, Function.comp_def]
  | case2 a as =>
    rw [scriptWith]
    · simp [isKept, List.countP_map, Function.comp_def]
    · exact List.cons_ne_nil a as
  | case3 as b bs ih =>
    rw [scriptWith, if_pos rfl, lengths_cons, List.tail_cons, map_tail_lengths, List.countP_cons, ih,
      commonLength_cons_self]
    rfl
  | case4 a as b bs hne ihold ihnew =>
    have hright : (((b :: bs).tails.map (commonLength (a :: as))).tail).headD 0 = commonLength (a :: as) bs :=
      headD_row (a :: as) bs
    rw [scriptWith, if_neg hne, lengths_cons, List.headD_cons, hright, List.tail_cons, headD_lengths, headD_row,
      commonLength_cons_of_ne hne]
    split
    · rename_i hle
      rw [List.countP_cons, ihold, Nat.max_eq_left hle]
      rfl
    · rename_i hle
      rw [← lengths_cons, map_tail_lengths, List.countP_cons, ihnew, Nat.max_eq_right (by omega)]
      rfl

/-- **The edit script is minimal.**  Its two sides are the two lists, it keeps as many lines as the longest
common subsequence has, and any other script between these lists has at least as many changes. -/
theorem script_minimal (as bs : List Text) :
    oldLines (script as bs) = as ∧ newLines (script as bs) = bs ∧
      IsGreatest (commonLengths as bs) ((script as bs).countP isKept) ∧
      ∀ ls, oldLines ls = as → newLines ls = bs → (changes (script as bs)).length ≤ (changes ls).length := by
  have hkept : (script as bs).countP isKept = commonLength as bs := by
    rw [script, table_eq_lengths, kept_scriptWith_lengths]
  refine ⟨oldLines_script as bs, newLines_script as bs, ?_, fun ls hold hnew => ?_⟩
  · rw [hkept]
    exact isGreatest_commonLength as bs
  · have hscript := length_changes (script as bs)
    have hother := length_changes ls
    obtain ⟨hsub, hsub'⟩ := keptLines_sublist ls
    rw [hold] at hsub hother
    rw [hnew] at hsub' hother
    have hle := length_le_commonLength hsub hsub'
    rw [length_keptLines] at hle
    rw [oldLines_script, newLines_script, hkept] at hscript
    omega

end Diff
end LiquidLint
