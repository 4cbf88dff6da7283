import LiquidLint.Proofs.EditScript
import LiquidLint.Proofs.TidyReading

/-!
# What is reported on a pair of delimiters

The reports on the delimiters of a variable or tag are those on the two gaps of what stands between
them (`delimited_eq`).  Each asks for one space in place of a gap that is not tidy, so that the edits
of the reports, made from left to right, tidy the variable or tag (`patch_bodySpans`), and nothing is
reported on what is tidy (`bodySpans_tidyBody`).
-/

namespace LiquidLint
namespace Rule
namespace Spacing

open Source Liquid

/-! ## Gaps that are not tidy -/

/-- The place of a gap that starts at `start`, if it is not tidy. -/
def gapSpan? (start : Nat) (gap : Text) : Option Span :=
  if tidyGap gap = gap then none else some ⟨start, start + gap.length⟩

/-- The places of the gaps of a body that starts at `start`, those that are not tidy. -/
def bodySpans (start : Nat) (body : Text) : List Span :=
  if (Text.trimSpace body).isEmpty then []
  else
    (gapSpan? start (lead body)).toList ++
      (gapSpan? (start + body.length - (trail body).length) (trail body)).toList

/-- The reports on a body that starts at `start`. -/
def bodyReports (d : Delimiter) (start : Nat) (body : Text) : List Report :=
  if (Text.trimSpace body).isEmpty then []
  else
    (gapReport? ("after '" ++ d.opener ++ "'") start (start + (lead body).length)
        (lead body)).toList ++
      (gapReport? ("before '" ++ d.closer ++ "'") (start + body.length - (trail body).length)
        (start + body.length) (trail body)).toList

theorem bodyReports_nil (d : Delimiter) (start : Nat) : bodyReports d start [] = [] :=
  if_pos (List.isEmpty_iff.2 (trimSpace_eq_nil fun _ hb => absurd hb List.not_mem_nil))

/-- The fix that puts one space in the place of a span. -/
def spaceFix (s : Span) : Fix := [.edit s.toRange " "]

/-- A gap that is not tidy becomes one space. -/
theorem tidyGap_of_ne {gap : Text} (h : tidyGap gap ≠ gap) : tidyGap gap = " " := by
  unfold tidyGap at h ⊢
  split
  · rfl
  · split
    · rfl
    · rename_i hsome hfew
      rw [if_neg hsome, if_neg hfew] at h
      exact absurd rfl h

/-- The report on a gap asks for a space where the gap is not tidy. -/
theorem fix_gapReport? (side : Text) (start : Nat) (gap : Text) :
    (gapReport? side start (start + gap.length) gap).toList.map Report.fix =
      (gapSpan? start gap).toList.map fun s => some (spaceFix s) := by
  unfold gapSpan?
  by_cases htidy : tidyGap gap = gap
  · rw [if_pos htidy, ← htidy, gapReport?_tidyGap]
    rfl
  · rw [if_neg htidy]
    unfold gapReport?
    unfold tidyGap at htidy
    by_cases hempty : gap.isEmpty = true
    · rw [if_pos hempty, List.isEmpty_iff.1 hempty]
      rfl
    · rw [if_neg hempty] at htidy ⊢
      by_cases hmany : (1 < gap.length && !gap.contains '\n') = true
      · rw [if_pos hmany]
        rfl
      · rw [if_neg hmany] at htidy
        exact absurd rfl htidy

/-- **Each report asks for a space in place of a gap that is not tidy.** -/
theorem fix_bodyReports (d : Delimiter) (start : Nat) (body : Text) :
    (bodyReports d start body).map Report.fix =
      (bodySpans start body).map fun s => some (spaceFix s) := by
  have htrail : (trail body).length ≤ body.length := by
    unfold trail
    rw [List.length_reverse]
    exact Nat.le_trans (List.takeWhile_sublist _).length_le (Nat.le_of_eq (List.length_reverse ..))
  unfold bodyReports bodySpans
  split
  · rfl
  · rw [List.map_append, List.map_append, fix_gapReport?]
    congr 1
    have h := fix_gapReport? ("before '" ++ d.closer ++ "'")
      (start + body.length - (trail body).length) (trail body)
    rwa [show start + body.length - (trail body).length + (trail body).length =
      start + body.length from by omega] at h

/-- Nothing is reported on a tidy body. -/
theorem bodySpans_tidyBody (start : Nat) (body : Text) : bodySpans start (tidyBody body) = [] := by
  unfold bodySpans
  by_cases hblank : Text.trimSpace body = []
  · rw [tidyBody_of_blank hblank, if_pos (List.isEmpty_iff.2 hblank)]
  · obtain ⟨hlead, htrail⟩ := gaps_tidyBody hblank
    split
    · rfl
    · unfold gapSpan?
      rw [hlead, htrail, if_pos (tidyGap_tidyGap _), if_pos (tidyGap_tidyGap _)]
      rfl

/-- The gaps of a body start one behind the other, not before the body. -/
theorem bodySpans_starts (start : Nat) (body : Text) :
    (bodySpans start body).Pairwise (fun a b => a.start < b.start) ∧
      ∀ s ∈ bodySpans start body, start ≤ s.start := by
  by_cases hblank : Text.trimSpace body = []
  · have hnone : bodySpans start body = [] := if_pos (List.isEmpty_iff.2 hblank)
    rw [hnone]
    exact ⟨.nil, fun s hs => (List.not_mem_nil hs).elim⟩
  · obtain ⟨m, hcore, hbody, _⟩ := exists_tidyBody hblank
    have hlt : (trail body).length < body.length := by
      obtain ⟨b, hb, _⟩ := hcore.head
      have hpos := List.length_pos_of_mem (List.mem_of_head? hb)
      have hlength := congrArg List.length hbody
      simp only [List.length_append] at hlength
      omega
    have hstart (s : Span) (i : Nat) (gap : Text) (hs : s ∈ (gapSpan? i gap).toList) :
        s.start = i := by
      unfold gapSpan? at hs
      split at hs
      · cases hs
      · rw [List.mem_singleton.1 hs]
    have hspans : bodySpans start body = (gapSpan? start (lead body)).toList ++
        (gapSpan? (start + body.length - (trail body).length) (trail body)).toList :=
      if_neg fun hempty => hblank (List.isEmpty_iff.1 hempty)
    rw [hspans]
    refine ⟨List.pairwise_append.2 ⟨Option.pairwise_toList, Option.pairwise_toList, ?_⟩, ?_⟩
    · intro a ha b hb
      rw [hstart a _ _ ha, hstart b _ _ hb]
      omega
    · intro s hs
      rcases List.mem_append.1 hs with hs | hs
      · rw [hstart s _ _ hs]
      · rw [hstart s _ _ hs]
        omega

/-- The places of the gaps of a variable or tag with the text `text`, those that are not tidy. -/
def tokenSpans (start : Nat) (text : Text) : List Span :=
  let inner := Inner.ofText (Text.slice text 2 (text.length - 2))
  bodySpans (inner.bodyStart start) inner.body

theorem tokenSpans_delimited (d : Delimiter) (start : Nat) (inner : Text) :
    tokenSpans start (d.opener ++ (inner ++ d.closer)) =
      bodySpans ((Inner.ofText inner).bodyStart start) (Inner.ofText inner).body := by
  unfold tokenSpans
  rw [slice_inner]

/-! ## Finding the body -/

theorem startsWith_dash (t : Text) : Text.startsWith t "-" = decide (t.head? = some Inner.mark) := by
  cases t with
  | nil => rfl
  | cons b t =>
    show (Text.dropStart? [Inner.mark] (b :: t)).isSome = decide (some b = some Inner.mark)
    unfold Text.dropStart?
    by_cases hb : Inner.mark = b
    · simp [hb, Text.dropStart?]
    · simp [hb, Ne.symm hb]

theorem endsWith_dash (t : Text) :
    Text.endsWith t "-" = decide (t.getLast? = some Inner.mark) := by
  show Text.startsWith t.reverse "-" = _
  rw [startsWith_dash, List.head?_reverse]

theorem endsWith_append (t p : Text) : Text.endsWith (t ++ p) p = true := by
  unfold Text.endsWith Text.startsWith
  rw [List.reverse_append, Text.dropStart?_append]
  rfl

/-- The marks of a text between delimiters, seen from both of its ends. -/
theorem marks_ofText {inner : Text} (h : inner ≠ [Inner.mark]) :
    (Inner.ofText inner).left = decide (inner.head? = some Inner.mark) ∧
      (Inner.ofText inner).right = decide (inner.getLast? = some Inner.mark) := by
  refine ⟨rfl, ?_⟩
  unfold Inner.ofText
  dsimp only
  by_cases hhead : inner.head? = some Inner.mark
  · obtain ⟨rest, rfl⟩ := List.head?_eq_some_iff.1 hhead
    have hne : rest ≠ [] := fun hnil => h (by rw [hnil])
    rw [if_pos hhead, List.tail_cons, List.getLast?_cons_of_ne_nil hne]
  · rw [if_neg hhead]

/-- A range that lies in a source is not cut down. -/
theorem within_eq {start stop size : Nat} (hle : start ≤ stop) (hstop : stop ≤ size) :
    Range.within ⟨start, stop⟩ size = ⟨start, stop⟩ := by
  unfold Range.within
  dsimp only
  rw [clamp_natCast (Nat.zero_le start) (by omega), clamp_natCast hle hstop]

/-- The slice of a file between two places. -/
theorem slice_eq (f : SourceFile) {start stop : Nat} (hle : start ≤ stop)
    (hstop : stop ≤ f.source.length) :
    f.slice ⟨start, stop⟩ = Text.slice f.source start stop := by
  unfold SourceFile.slice
  rw [within_eq hle hstop]

/-- **A variable or tag is looked at up to the marks** at both ends of what stands between its delimiters. -/
theorem delimited_marks {f : SourceFile} {d : Delimiter} {start : Nat} {inner : Text}
    (htext : Text.slice f.source start (start + inner.length + 4) = d.opener ++ (inner ++ d.closer))
    (hstop : start + inner.length + 4 ≤ f.source.length) :
    let lo := start + 2 + (Inner.dash (decide (inner.head? = some Inner.mark))).length
    let hi := start + inner.length + 4 - 2 - (Inner.dash (decide (inner.getLast? = some Inner.mark))).length
    delimited f start (start + inner.length + 4) d.opener d.closer =
      if hi ≤ lo then [] else bodyReports d lo (Text.slice f.source lo hi) := by
  have hslice : f.slice ⟨start, ((start + inner.length + 4 : Nat) : Int)⟩ =
      d.opener ++ (inner ++ d.closer) := by
    rw [slice_eq f (by omega) hstop, htext]
  have hlength : (d.opener ++ (inner ++ d.closer)).length = inner.length + 4 := by
    simp only [List.length_append, Delimiter.length_opener, Delimiter.length_closer]
    omega
  have hopens : Text.startsWith (d.opener ++ (inner ++ d.closer)) d.opener = true := by
    unfold Text.startsWith
    rw [Text.dropStart?_append]
    rfl
  have hcloses : Text.endsWith (d.opener ++ (inner ++ d.closer)) d.closer = true := by
    rw [← List.append_assoc]
    exact endsWith_append _ _
  have hlead : decide ((inner ++ d.closer).head? = some Inner.mark) =
      decide (inner.head? = some Inner.mark) := by
    cases inner with
    | nil => cases d <;> rfl
    | cons b rest => rfl
  have hlast : decide ((d.opener ++ inner).getLast? = some Inner.mark) =
      decide (inner.getLast? = some Inner.mark) := by
    cases inner with
    | nil => cases d <;> rfl
    | cons b rest => rw [List.getLast?_append_of_ne_nil _ (List.cons_ne_nil _ _)]
  have hdash (on : Bool) : (if on = true then 1 else 0) = (Inner.dash on).length := by
    cases on <;> rfl
  intro lo hi
  unfold delimited
  dsimp only
  rw [hslice, hopens, hcloses, hlength, Delimiter.length_opener, Delimiter.length_closer,
    List.drop_left' (Delimiter.length_opener d), startsWith_dash, hlead,
    show inner.length + 4 - 2 = (d.opener ++ inner).length from by
      rw [List.length_append, Delimiter.length_opener]; omega,
    ← List.append_assoc, List.take_left, endsWith_dash, hlast, hdash, hdash,
    if_neg (by simp)]
  by_cases hempty : hi ≤ lo
  · exact (if_pos hempty).trans (if_pos hempty).symm
  · have hend : lo + (Text.slice f.source lo hi).length = hi := by
      rw [Text.length_slice (by omega)]
      omega
    refine (if_neg hempty).trans (Eq.trans ?_ (if_neg hempty).symm)
    unfold bodyReports
    rw [hend]
    rfl

/-- What stands between the delimiters of a token has its body between its marks. -/
theorem slice_body {source : Text} {d : Delimiter} {start : Nat} {i : Inner}
    (h : Text.slice source start (start + i.text.length + 4) = d.opener ++ (i.text ++ d.closer)) :
    Text.slice source (i.bodyStart start) (i.bodyStart start + i.body.length) = i.body := by
  have hlength : (d.opener ++ (i.text ++ d.closer)).length = i.text.length + 4 := by
    simp only [List.length_append, Delimiter.length_opener, Delimiter.length_closer]
    omega
  have hcut : d.opener ++ (i.text ++ d.closer) =
      (d.opener ++ Inner.dash i.left) ++ (i.body ++ (Inner.dash i.right ++ d.closer)) := by
    simp only [Inner.text, List.append_assoc]
  rw [Nat.add_assoc, ← hlength, hcut] at h
  have hpart := (Text.slice_halves (Text.slice_halves h).2).1
  rwa [List.length_append, Delimiter.length_opener, ← Nat.add_assoc] at hpart

/-- **The reports on delimiters are those on what they hold.** -/
theorem delimited_eq {f : SourceFile} {d : Delimiter} {start : Nat} {inner : Text}
    (htext : Text.slice f.source start (start + inner.length + 4) = d.opener ++ (inner ++ d.closer))
    (hstop : start + inner.length + 4 ≤ f.source.length) :
    delimited f start (start + inner.length + 4) d.opener d.closer =
      bodyReports d ((Inner.ofText inner).bodyStart start) (Inner.ofText inner).body := by
  rw [delimited_marks htext hstop]
  by_cases hone : inner = [Inner.mark]
  · -- a lone dash is read as both marks here, and leaves nothing between them
    subst hone
    rw [if_pos (by simp [Inner.dash])]
    exact (bodyReports_nil d _).symm
  · obtain ⟨hleft, hright⟩ := marks_ofText hone
    have hparts := Inner.text_ofText inner
    rw [← hleft, ← hright]
    generalize Inner.ofText inner = i at hparts
    subst hparts
    have hbodyStop : start + i.text.length + 4 - 2 - (Inner.dash i.right).length =
        i.bodyStart start + i.body.length := by
      simp only [Inner.text, Inner.bodyStart, List.length_append]
      omega
    have hbodyStart : start + 2 + (Inner.dash i.left).length = i.bodyStart start := rfl
    rw [hbodyStop, hbodyStart, slice_body htext]
    by_cases hempty : i.body = []
    · rw [hempty, bodyReports_nil]
      exact if_pos (Nat.le_refl _)
    · have hpos := List.length_pos_iff.2 hempty
      exact if_neg (by omega)

/-! ## Making the edits -/

/-- The edit that puts one space in the place of a span. -/
def spaceAt (s : Span) : Edit :=
  { start := s.start, stop := s.stop, text := " ", check := "SpaceInsideBraces", seq := 0 }

/-- The edits make `new` of the text `old`, which stands in the source at `start`. -/
structure Turns (source : Text) (start : Nat) (old : Text) (edits : List Edit) (new : Text) : Prop where
  inOrder : InOrder start edits (start + old.length)
  patch_eq : patch source start (start + old.length) edits = new

theorem turns_nil {source t : Text} {start : Nat} (h : Text.slice source start (start + t.length) = t) :
    Turns source start t [] t := ⟨Nat.le_add_right _ _, h⟩

theorem Turns.append {source u u' v v' : Text} {start : Nat} {xs ys : List Edit}
    (hu : Turns source start u xs u') (hv : Turns source (start + u.length) v ys v') :
    Turns source start (u ++ v) (xs ++ ys) (u' ++ v') := by
  have hstop : start + (u ++ v).length = start + u.length + v.length := by
    rw [List.length_append, Nat.add_assoc]
  constructor
  · rw [hstop]
    exact hu.inOrder.append hv.inOrder
  · rw [hstop, patch_append source hu.inOrder hv.inOrder, hu.patch_eq, hv.patch_eq]

/-- Making the edit of a gap tidies it. -/
theorem turns_gapSpan? {source gap : Text} {start : Nat}
    (hgap : Text.slice source start (start + gap.length) = gap) :
    Turns source start gap ((gapSpan? start gap).toList.map spaceAt) (tidyGap gap) := by
  unfold gapSpan?
  by_cases htidy : tidyGap gap = gap
  · rw [if_pos htidy, htidy]
    exact turns_nil hgap
  · rw [if_neg htidy, tidyGap_of_ne htidy]
    have hnone (i : Nat) : Text.slice source i i = [] := by
      unfold Text.slice
      rw [Nat.sub_self, List.take_zero]
    refine ⟨⟨Nat.le_refl _, Nat.le_add_right _ _, Nat.le_refl _⟩, ?_⟩
    show Text.slice source start start ++ (" " ++ Text.slice source (start + gap.length)
      (start + gap.length)) = " "
    rw [hnone, hnone, List.append_nil, List.nil_append]

/-- **Making the edits of a variable or tag tidies it.** -/
theorem patch_bodySpans {source : Text} {d : Delimiter} {start : Nat} {inner : Text}
    (htext : Text.slice source start (start + inner.length + 4) =
      d.opener ++ (inner ++ d.closer)) :
    InOrder start ((bodySpans ((Inner.ofText inner).bodyStart start)
        (Inner.ofText inner).body).map spaceAt) (start + inner.length + 4) ∧
      patch source start (start + inner.length + 4) ((bodySpans ((Inner.ofText inner).bodyStart start)
        (Inner.ofText inner).body).map spaceAt) = d.opener ++ (tidyInner inner ++ d.closer) := by
  have hparts := Inner.text_ofText inner
  unfold tidyInner
  generalize Inner.ofText inner = i at hparts
  subst hparts
  by_cases hblank : Text.trimSpace i.body = []
  · have hnone : bodySpans (i.bodyStart start) i.body = [] := if_pos (List.isEmpty_iff.2 hblank)
    rw [hnone, tidyBody_of_blank hblank]
    have hle : start ≤ start + i.text.length + 4 := by omega
    exact ⟨hle, htext⟩
  · obtain ⟨m, _, hbody, htidy⟩ := exists_tidyBody hblank
    have hspans : bodySpans (i.bodyStart start) i.body = (gapSpan? (i.bodyStart start)
        (lead i.body)).toList ++ (gapSpan? (i.bodyStart start + i.body.length -
          (trail i.body).length) (trail i.body)).toList :=
      if_neg fun hempty => hblank (List.isEmpty_iff.1 hempty)
    rw [hspans, htidy]
    generalize lead i.body = l at *
    generalize trail i.body = t at *
    -- the token, cut at the ends of the gaps
    have hcut : d.opener ++ (i.text ++ d.closer) = (d.opener ++ Inner.dash i.left) ++
        (l ++ (m ++ (t ++ (Inner.dash i.right ++ d.closer)))) := by
      unfold Inner.text
      rw [hbody]
      simp only [List.append_assoc]
    have hlength : i.text.length + 4 = (d.opener ++ (i.text ++ d.closer)).length := by
      simp only [List.length_append, Delimiter.length_opener, Delimiter.length_closer]
      omega
    have hopen : i.bodyStart start = start + (d.opener ++ Inner.dash i.left).length := by
      simp only [Inner.bodyStart, List.length_append, Delimiter.length_opener, Nat.add_assoc]
    have htrail : i.bodyStart start + i.body.length - t.length =
        start + (d.opener ++ Inner.dash i.left).length + l.length + m.length := by
      rw [hbody, hopen]
      simp only [List.length_append]
      omega
    rw [Nat.add_assoc, hlength, hcut] at htext ⊢
    obtain ⟨hfront, hrest⟩ := Text.slice_halves htext
    obtain ⟨hlead, hrest⟩ := Text.slice_halves hrest
    obtain ⟨hmiddle, hrest⟩ := Text.slice_halves hrest
    obtain ⟨hgap, hback⟩ := Text.slice_halves hrest
    have hback' := (turns_gapSpan? hgap).append (turns_nil hback)
    have hturns := (turns_nil hfront).append ((turns_gapSpan? hlead).append ((turns_nil hmiddle).append hback'))
    simp only [List.append_nil, List.nil_append] at hturns
    rw [htrail, hopen, List.map_append]
    refine ⟨hturns.inOrder, hturns.patch_eq.trans ?_⟩
    simp only [Inner.text, List.append_assoc]

end Spacing
end Rule
end LiquidLint
