import Mathlib.Data.List.Basic
import Mathlib.Data.List.Range
import LiquidLint.Proofs.BareTags
import LiquidLint.Proofs.EditScript

/-!
# Parts of an edited source

A list of edits that do not overlap turns each part of a source into a text (`edited`), and the parts of
the edited source are the edited parts of the source, whatever the part (`edited_append`).  A property of
texts that survives one edit survives all of them (`edited_induction`).

Where an edit replaces one word of small letters by another one, trimming is not affected: white space is
trimmed from what stands before the word and from what stands behind it (`trimSpaceStart_word`,
`trimSpaceEnd_word`).
-/

namespace LiquidLint

/-! ## Edited parts -/

/-- What edits make of the byte at `i`: the first byte of an edit becomes its text, and the others nothing. -/
def editedByte (src : Text) (edits : List Edit) (i : Nat) : Text :=
  match edits.find? fun e => e.start = i with
  | some e => e.text
  | none => if edits.any fun e => e.start < i && i < e.stop then [] else Text.slice src i (i + 1)

/-- What edits make of the bytes from `lo` up to `hi`. -/
def edited (src : Text) (edits : List Edit) (lo hi : Nat) : Text :=
  (List.range' lo (hi - lo)).flatMap (editedByte src edits)

/-- The edits replace some bytes each, and those of two edits do not touch unless the edits are alike. -/
structure EditsApart (edits : List Edit) : Prop where
  start_lt_stop : ∀ e ∈ edits, e.start < e.stop
  apart : ∀ e ∈ edits, ∀ e' ∈ edits,
    e'.start = e.start ∧ e'.stop = e.stop ∧ e'.text = e.text ∨ e.stop ≤ e'.start ∨ e'.stop ≤ e.start

/-- No edit replaces a byte from `lo` up to `hi`. -/
def Untouched (edits : List Edit) (lo hi : Nat) : Prop := ∀ e ∈ edits, e.stop ≤ lo ∨ hi ≤ e.start

/-- No edit replaces bytes on both sides of `i`. -/
def Between (edits : List Edit) (i : Nat) : Prop := ∀ e ∈ edits, e.stop ≤ i ∨ i ≤ e.start

theorem Untouched.mono {edits : List Edit} {lo hi lo' hi' : Nat} (h : Untouched edits lo hi)
    (hlo : lo ≤ lo') (hhi : hi' ≤ hi) : Untouched edits lo' hi' := by
  intro e he
  have := h e he
  omega

section Edited

variable {src : Text} {edits : List Edit} {lo mid hi i : Nat}

@[simp] theorem edited_self (src : Text) (edits : List Edit) (lo : Nat) : edited src edits lo lo = [] := by
  simp [edited]

/-- **A source is edited part by part.** -/
theorem edited_append (src : Text) (edits : List Edit) (hlo : lo ≤ mid) (hhi : mid ≤ hi) :
    edited src edits lo hi = edited src edits lo mid ++ edited src edits mid hi := by
  have hrange : List.range' lo (hi - lo) = List.range' lo (mid - lo) ++ List.range' mid (hi - mid) := by
    have happend := @List.range'_append_1 lo (mid - lo) (hi - mid)
    rw [Nat.add_sub_cancel' hlo] at happend
    rw [happend]
    congr 1
    omega
  unfold edited
  rw [hrange, List.flatMap_append]

theorem edited_succ (src : Text) (edits : List Edit) (i : Nat) :
    edited src edits i (i + 1) = editedByte src edits i := by
  simp [edited]

theorem length_edited_mono (src : Text) (edits : List Edit) (hle : mid ≤ hi) :
    (edited src edits 0 mid).length ≤ (edited src edits 0 hi).length := by
  rw [edited_append src edits (Nat.zero_le mid) hle, List.length_append]
  exact Nat.le_add_right _ _

/-- A slice of the edited source is an edited part of the source. -/
theorem slice_edited {size : Nat} (hlo : lo ≤ hi) (hhi : hi ≤ size) :
    Text.slice (edited src edits 0 size) (edited src edits 0 lo).length (edited src edits 0 hi).length =
      edited src edits lo hi := by
  rw [edited_append src edits (Nat.zero_le hi) hhi, edited_append src edits (Nat.zero_le lo) hlo,
    List.length_append, List.append_assoc]
  exact Text.slice_append _ _ _

variable (hedits : EditsApart edits)

include hedits

theorem editedByte_start {e : Edit} (he : e ∈ edits) : editedByte src edits e.start = e.text := by
  unfold editedByte
  cases hfind : edits.find? fun e' => e'.start = e.start with
  | none =>
    have hnone := List.find?_eq_none.1 hfind e he
    simp at hnone
  | some e' =>
    have hstart : e'.start = e.start := by simpa using List.find?_some hfind
    have hlt := hedits.start_lt_stop e he
    have hlt' := hedits.start_lt_stop e' (List.mem_of_find?_eq_some hfind)
    rcases hedits.apart e he e' (List.mem_of_find?_eq_some hfind) with ⟨_, _, htext⟩ | hle | hle
    · exact htext
    · omega
    · omega

theorem editedByte_inside {e : Edit} (he : e ∈ edits) (hstart : e.start < i) (hstop : i < e.stop) :
    editedByte src edits i = [] := by
  have hnone : edits.find? (fun e' => e'.start = i) = none := by
    refine List.find?_eq_none.2 fun e' he' hi => ?_
    have hi : e'.start = i := by simpa using hi
    have hlt := hedits.start_lt_stop e' he'
    have := hedits.apart e he e' he'
    omega
  have hany : (edits.any fun e => e.start < i && i < e.stop) = true :=
    List.any_eq_true.2 ⟨e, he, by simp [hstart, hstop]⟩
  unfold editedByte
  rw [hnone]
  exact if_pos hany

theorem editedByte_of_untouched (h : Untouched edits i (i + 1)) :
    editedByte src edits i = Text.slice src i (i + 1) := by
  have hnone : edits.find? (fun e => e.start = i) = none := by
    refine List.find?_eq_none.2 fun e he hi => ?_
    have hi : e.start = i := by simpa using hi
    have := hedits.start_lt_stop e he
    have := h e he
    omega
  have hany : ¬ (edits.any fun e => e.start < i && i < e.stop) = true := by
    intro hany
    obtain ⟨e, he, hi⟩ := List.any_eq_true.1 hany
    have hi : e.start < i ∧ i < e.stop := by simpa using hi
    have := h e he
    omega
  unfold editedByte
  rw [hnone]
  exact if_neg hany

/-- **A part that no edit touches stays as it is.** -/
theorem edited_of_untouched (hle : lo ≤ hi) (h : Untouched edits lo hi) :
    edited src edits lo hi = Text.slice src lo hi := by
  induction hi, hle using Nat.le_induction with
  | base => simp [Text.slice]
  | succ hi hle ih =>
    rw [edited_append src edits hle (Nat.le_succ hi), Text.slice_split src hle (Nat.le_succ hi),
      ih (h.mono (Nat.le_refl _) (Nat.le_succ hi)), edited_succ,
      editedByte_of_untouched hedits (h.mono hle (Nat.le_refl _))]

/-- **The bytes of an edit become its text.** -/
theorem edited_of_mem {e : Edit} (he : e ∈ edits) : edited src edits e.start e.stop = e.text := by
  have hrest (i : Nat) (hlo : e.start + 1 ≤ i) (hhi : i ≤ e.stop) : edited src edits (e.start + 1) i = [] := by
    induction i, hlo using Nat.le_induction with
    | base => exact edited_self ..
    | succ i hlo ih =>
      rw [edited_append src edits hlo (Nat.le_succ i), ih (by omega), edited_succ,
        editedByte_inside hedits he (by omega) (by omega)]
      rfl
  have hlt := hedits.start_lt_stop e he
  rw [edited_append src edits (Nat.le_succ e.start) hlt, edited_succ, editedByte_start hedits he,
    hrest _ hlt (Nat.le_refl _), List.append_nil]

/-- **What survives one edit survives all of them.** -/
theorem edited_induction {Q : Text → Prop}
    (hstep : ∀ e ∈ edits, lo ≤ e.start → e.stop ≤ hi → ∀ u v : Text,
      Q (u ++ (Text.slice src e.start e.stop ++ v)) → Q (u ++ (e.text ++ v)))
    (hle : lo ≤ hi) (hlo : Between edits lo) (hhi : Between edits hi) (h : Q (Text.slice src lo hi)) :
    Q (edited src edits lo hi) := by
  -- edits are made from left to right; those in front of `mid` have been made
  have hmade (n : Nat) : ∀ mid, hi - mid = n → lo ≤ mid → mid ≤ hi → Between edits mid →
      Q (edited src edits lo mid ++ Text.slice src mid hi) → Q (edited src edits lo hi) := by
    induction n using Nat.strongRecOn with
    | ind n ih =>
      intro mid hn hmid hmid' hbetween hQ
      by_cases hend : mid = hi
      · rw [hend] at hQ
        simpa [Text.slice] using hQ
      · by_cases hstart : ∃ e ∈ edits, e.start = mid
        · obtain ⟨e, he, rfl⟩ := hstart
          have hlt := hedits.start_lt_stop e he
          have hstop : e.stop ≤ hi := by
            have := hhi e he
            omega
          refine ih (hi - e.stop) (by omega) e.stop rfl (by omega) hstop (fun e' he' => ?_) ?_
          · have := hedits.apart e he e' he'
            have := hedits.start_lt_stop e' he'
            omega
          · rw [edited_append src edits hmid (Nat.le_of_lt hlt), edited_of_mem hedits he, List.append_assoc]
            rw [Text.slice_split src (Nat.le_of_lt hlt) hstop] at hQ
            exact hstep e he hmid hstop _ _ hQ
        · have hbyte : Untouched edits mid (mid + 1) := by
            intro e he
            have := hbetween e he
            have : e.start ≠ mid := fun heq => hstart ⟨e, he, heq⟩
            omega
          have hnext : Between edits (mid + 1) := by
            intro e he
            have := hbyte e he
            omega
          refine ih (hi - (mid + 1)) (by omega) (mid + 1) rfl (by omega) (by omega) hnext ?_
          rw [edited_append src edits hmid (Nat.le_succ mid),
            edited_of_untouched hedits (Nat.le_succ mid) hbyte, List.append_assoc,
            ← Text.slice_split src (Nat.le_succ mid) (by omega)]
          exact hQ
  refine hmade _ lo rfl (Nat.le_refl _) hle hlo ?_
  rwa [edited_self, List.nil_append]

/-- **Edits that are made from left to right** make the edited source. -/
theorem patch_eq_edited {target : List Edit} (horder : InOrder lo target hi)
    (htarget : ∀ t ∈ target, ∃ e ∈ edits, e.start = t.start ∧ e.stop = t.stop ∧ e.text = t.text)
    (hall : ∀ e ∈ edits, lo ≤ e.start → e.stop ≤ hi →
      ∃ t ∈ target, e.start = t.start ∧ e.stop = t.stop)
    (hlo : Between edits lo) (hhi : Between edits hi) :
    patch src lo hi target = edited src edits lo hi := by
  induction target generalizing lo with
  | nil =>
    refine (edited_of_untouched hedits horder fun e he => ?_).symm
    have := hlo e he
    have := hhi e he
    by_cases hstart : lo ≤ e.start ∧ e.stop ≤ hi
    · obtain ⟨t, ht, _⟩ := hall e he hstart.1 hstart.2
      cases ht
    · have := hedits.start_lt_stop e he
      omega
  | cons t rest ih =>
    obtain ⟨hstart, hstop, hrest⟩ := horder
    obtain ⟨e, he, hestart, hestop, htext⟩ := htarget t (List.mem_cons_self ..)
    have hlt := hedits.start_lt_stop e he
    have hle := hrest.le
    have hbetween : Between edits t.stop := by
      intro e' he'
      have := hedits.apart e he e' he'
      have := hedits.start_lt_stop e' he'
      omega
    -- no edit stands in front of the first one
    have hfront : Untouched edits lo t.start := by
      intro e' he'
      have hlt' := hedits.start_lt_stop e' he'
      have hapart := hedits.apart e he e' he'
      have := hlo e' he'
      refine Classical.byContradiction fun hnot => ?_
      obtain ⟨t', ht', hstart', _⟩ := hall e' he' (by omega) (by omega)
      rcases List.mem_cons.1 ht' with rfl | ht'
      · omega
      · have := (hrest.bounds ht').1
        omega
    have hmore := ih hrest (fun t' ht' => htarget t' (List.mem_cons_of_mem _ ht'))
      (fun e' he' hlo' hhi' => ?_) hbetween
    · rw [patch, hmore, edited_append src edits hstart (by omega), edited_append src edits hstop hle,
        edited_of_untouched hedits hstart hfront, ← hestart, ← hestop, edited_of_mem hedits he, htext]
    · obtain ⟨t', ht', hstart', hstop'⟩ := hall e' he' (by omega) hhi'
      rcases List.mem_cons.1 ht' with rfl | ht'
      · have := hedits.start_lt_stop e' he'
        omega
      · exact ⟨t', ht', hstart', hstop'⟩

end Edited

/-! ## Words between white space -/

namespace Text

/-- A word of small letters. -/
structure IsWord (w : Text) : Prop where
  ne_nil : w ≠ []
  lower : ∀ b ∈ w, isLower b = true

theorem IsWord.exists_cons {w : Text} (h : IsWord w) : ∃ b t, w = b :: t ∧ isLower b = true := by
  obtain ⟨b, t, rfl⟩ := List.exists_cons_of_ne_nil h.ne_nil
  exact ⟨b, t, rfl, h.lower b (List.mem_cons_self ..)⟩

/-- White space holds no small letter. -/
theorem isLower_of_blanks {p : Text} (hp : p ∈ blanks ++ blanksReversed) :
    p ≠ [] ∧ ∀ b ∈ p, isLower b = false := by
  have hall : ∀ p ∈ blanks ++ blanksReversed, p ≠ [] ∧ ∀ b ∈ p, isLower b = false := by decide +kernel
  exact hall p hp

theorem dropStart?_letter {p : Text} {b : UInt8} (hp : p ≠ []) (hb : b ∉ p) (u v : Text) :
    dropStart? p (u ++ b :: v) = (dropStart? p u).map (· ++ b :: v) := by
  cases u with
  | nil =>
    obtain ⟨a, p, rfl⟩ := List.exists_cons_of_ne_nil hp
    have hne : a ≠ b := fun heq => hb (heq ▸ List.mem_cons_self ..)
    simp [dropStart?, hne]
  | cons c u => exact dropStart?_append_cons (fun hmem => hb (List.mem_of_mem_tail hmem)) (List.cons_ne_nil _ _) v

/-- Trimming ends at a byte that is in none of the forms. -/
theorem trimForms_letter {forms : List Text} {b : UInt8} (hforms : ∀ p ∈ forms, p ≠ [] ∧ b ∉ p) (u v : Text) :
    trimForms forms (u ++ b :: v) = trimForms forms u ++ b :: v := by
  have hdrop (u : Text) : dropForm? forms (u ++ b :: v) = (dropForm? forms u).map (· ++ b :: v) := by
    unfold dropForm?
    induction forms with
    | nil => rfl
    | cons p rest ih =>
      obtain ⟨hp, hb⟩ := hforms p (List.mem_cons_self ..)
      rw [List.findSome?_cons, List.findSome?_cons, dropStart?_letter hp hb]
      cases dropStart? p u with
      | some r => rfl
      | none => exact ih fun q hq => hforms q (List.mem_cons_of_mem _ hq)
  fun_induction trimForms forms u with
  | case1 u hnone => rw [trimForms, hdrop, hnone, Option.map_none]
  | case2 u rest hsome hlt ih =>
    rw [trimForms, hdrop, hsome]
    simp only [Option.map_some, List.length_append, Nat.add_lt_add_iff_right, if_pos hlt]
    exact ih
  | case3 u rest hsome hlt =>
    obtain ⟨p, hp, hdrop⟩ := List.exists_of_findSome?_eq_some hsome
    have hlength := length_of_dropStart? hdrop
    have hpos := List.length_pos_iff.2 (hforms p hp).1
    omega

section Words

variable {w : Text} (hw : IsWord w) (u v : Text)

include hw

/-- White space is trimmed from what stands before a word. -/
theorem trimSpaceStart_word : trimSpaceStart (u ++ (w ++ v)) = trimSpaceStart u ++ (w ++ v) := by
  obtain ⟨b, t, rfl, hb⟩ := hw.exists_cons
  refine trimForms_letter (fun p hp => ?_) u (t ++ v)
  obtain ⟨hne, hlower⟩ := isLower_of_blanks (List.mem_append_left _ hp)
  refine ⟨hne, fun hmem => ?_⟩
  have hnot := hlower b hmem
  rw [hb] at hnot
  cases hnot

/-- White space is trimmed from what stands behind a word. -/
theorem trimSpaceEnd_word : trimSpaceEnd (u ++ (w ++ v)) = u ++ (w ++ trimSpaceEnd v) := by
  have hreverse : IsWord w.reverse :=
    ⟨by simpa using hw.ne_nil, fun b hb => hw.lower b (List.mem_reverse.1 hb)⟩
  obtain ⟨b, t, ht, hb⟩ := hreverse.exists_cons
  have htrim := @trimForms_letter blanksReversed b (fun p hp => ?_) v.reverse (t ++ u.reverse)
  · unfold trimSpaceEnd
    rw [List.reverse_append, List.reverse_append, ht, List.append_assoc, List.cons_append, htrim,
      ← List.cons_append, ← ht]
    simp
  · obtain ⟨hne, hlower⟩ := isLower_of_blanks (List.mem_append_right _ hp)
    refine ⟨hne, fun hmem => ?_⟩
    have hnot := hlower b hmem
    rw [hb] at hnot
    cases hnot

/-- **A word is not trimmed**, and white space around it is. -/
theorem trimSpace_word : trimSpace (u ++ (w ++ v)) = trimSpaceStart u ++ (w ++ trimSpaceEnd v) := by
  rw [trimSpace, trimSpaceStart_word hw, trimSpaceEnd_word hw]

theorem leadingBlanks_word : Liquid.leadingBlanks (u ++ (w ++ v)) = Liquid.leadingBlanks u := by
  obtain ⟨b, t, rfl, hb⟩ := hw.exists_cons
  have hnot : ¬ isAsciiBlank b = true := by
    rw [(ne_of_isLower hb).1]
    exact Bool.false_ne_true
  rw [Liquid.leadingBlanks_eq, Liquid.leadingBlanks_eq, List.takeWhile_append, List.cons_append,
    List.takeWhile_cons_of_neg hnot, List.append_nil]
  split
  · rename_i hall
    rw [(List.takeWhile_prefix _).eq_of_length hall]
  · rfl

end Words

/-! ## Texts with a word in them -/

theorem trimForms_idem {forms : List Text} (hforms : ∀ p ∈ forms, p ≠ []) (t : Text) :
    trimForms forms (trimForms forms t) = trimForms forms t := by
  fun_induction trimForms forms t with
  | case1 t hnone => rw [trimForms, hnone]
  | case2 t rest _ _ ih => exact ih
  | case3 t rest hsome hlt =>
    obtain ⟨p, hp, hdrop⟩ := List.exists_of_findSome?_eq_some hsome
    have hlength := length_of_dropStart? hdrop
    have hpos := List.length_pos_iff.2 (hforms p hp)
    omega

theorem trimSpaceEnd_idem (t : Text) : trimSpaceEnd (trimSpaceEnd t) = trimSpaceEnd t := by
  unfold trimSpaceEnd
  rw [List.reverse_reverse, trimForms_idem (by decide)]

theorem trimSpaceEnd_prefix (t : Text) : trimSpaceEnd t <+: t := by
  have h := trimForms_suffix blanksReversed t.reverse
  rw [← List.reverse_prefix, List.reverse_reverse] at h
  exact h

/-- What is left of a text is part of it. -/
theorem mem_of_mem_trimSpace {t : Text} {b : UInt8} (h : b ∈ trimSpace t) : b ∈ t := by
  have hstart : b ∈ trimSpaceStart t := List.IsPrefix.mem h <| trimSpaceEnd_prefix (trimSpaceStart t)
  exact List.IsSuffix.mem hstart (trimForms_suffix blanks t)

/-- What is trimmed at the start holds no small letter. -/
theorem exists_trimSpaceStart (t : Text) :
    ∃ u, t = u ++ trimSpaceStart t ∧ ∀ b ∈ u, isLower b = false := by
  obtain ⟨u, ht, hu⟩ := exists_trimForms blanks t
  refine ⟨u, ht, fun b hb => ?_⟩
  obtain ⟨p, hp, hmem⟩ := hu b hb
  exact (isLower_of_blanks (List.mem_append_left _ hp)).2 b hmem

/-- `m` is what is left of it when it is trimmed with `u` in front of it, and with `v` behind it. -/
structure Core (u v m : Text) : Prop where
  start_eq : trimSpaceStart (u ++ m) = m
  stop_eq : trimSpaceEnd (m ++ v) = m

/-- Whether a text is trimmed does not depend on the words in it. -/
theorem Core.replace {u v x y w w' : Text} (h : Core u v (x ++ (w ++ y))) (hw : IsWord w) (hw' : IsWord w') :
    Core u v (x ++ (w' ++ y)) := by
  obtain ⟨hstart, hstop⟩ := h
  constructor
  · rw [← List.append_assoc, trimSpaceStart_word hw] at hstart
    rw [← List.append_assoc, trimSpaceStart_word hw', List.append_cancel_right hstart]
  · rw [List.append_assoc, List.append_assoc, trimSpaceEnd_word hw] at hstop
    rw [List.append_assoc, List.append_assoc, trimSpaceEnd_word hw',
      List.append_cancel_left (List.append_cancel_left hstop)]

/-- Nothing is trimmed in front of a word. -/
theorem trimSpaceEnd_append {m x y w : Text} (hw : IsWord w) (hm : m = x ++ (w ++ y)) (u z : Text) :
    trimSpaceEnd (u ++ (m ++ z)) = u ++ trimSpaceEnd (m ++ z) := by
  have h := trimSpaceEnd_word hw (u ++ x) (y ++ z)
  have h' := trimSpaceEnd_word hw x (y ++ z)
  rw [hm]
  simp only [List.append_assoc] at h h' ⊢
  rw [h, h']

/-- A text with a word in it is trimmed at both ends. -/
theorem Core.trimSpace_eq {u v m x y w : Text} (h : Core u v m) (hw : IsWord w) (hm : m = x ++ (w ++ y)) :
    trimSpaceEnd (u ++ (m ++ v)) = u ++ m ∧ trimSpace (u ++ m) = m := by
  constructor
  · rw [trimSpaceEnd_append hw hm, h.stop_eq]
  · rw [trimSpace, h.start_eq]
    conv_lhs => rw [← h.stop_eq]
    rw [trimSpaceEnd_idem, h.stop_eq]

/-- What is read behind a name, when it holds a word: blanks, the markup, and what is trimmed behind it. -/
theorem exists_core {v m x y w : Text} (hw : IsWord w) (hm : trimSpace (trimSpaceEnd v) = m)
    (hword : m = x ++ (w ++ y)) (hv : ∀ b ∈ (trimSpaceEnd v).head?, isAsciiBlank b = true) :
    ∃ u z, v = u ++ (m ++ z) ∧ trimSpaceEnd v = u ++ m ∧ Core u z m ∧ u ≠ [] ∧
      ∀ b ∈ u, isLower b = false := by
  obtain ⟨z₂, hz₂⟩ := trimSpaceEnd_prefix v
  obtain ⟨u, hu, hlower⟩ := exists_trimSpaceStart (trimSpaceEnd v)
  obtain ⟨z₁, hz₁⟩ := trimSpaceEnd_prefix (trimSpaceStart (trimSpaceEnd v))
  have hend : trimSpaceEnd (trimSpaceStart (trimSpaceEnd v)) = m := hm
  rw [hend] at hz₁
  rw [← hz₁] at hu hend
  have hall : v = u ++ (m ++ (z₁ ++ z₂)) := by
    rw [← hz₂, hu]
    simp only [List.append_assoc]
  -- behind the markup, nothing is left over by the first trimming
  have hstop : trimSpaceEnd (m ++ (z₁ ++ z₂)) = m ++ z₁ := by
    have h := trimSpaceEnd_append hw hword u (z₁ ++ z₂)
    rw [← hall, hu] at h
    exact (List.append_cancel_left h).symm
  have hnil : m ++ z₁ = m := by
    have hidem := trimSpaceEnd_idem (m ++ (z₁ ++ z₂))
    rw [hstop, hend] at hidem
    exact hidem.symm
  rw [hnil] at hu hstop hz₁
  refine ⟨u, z₁ ++ z₂, hall, hu, ⟨?_, hstop⟩, ?_, hlower⟩
  · rw [← hu, hz₁]
  · rintro rfl
    rw [List.nil_append] at hu
    -- a trimmed text does not start with a blank
    cases hcons : m with
    | nil =>
      rw [hcons] at hword
      have hnil' := (List.append_eq_nil_iff.1 hword.symm).2
      exact absurd (List.append_eq_nil_iff.1 hnil').1 hw.ne_nil
    | cons b t =>
      have hstart : trimForms blanks (trimSpaceEnd v) = b :: t := by
        rw [← hcons, hz₁]
        rfl
      have hblank := hv b (by rw [hu, hcons]; rfl)
      rw [isAsciiBlank_of_trimForms hstart] at hblank
      cases hblank

/-- Two texts with the same start, one of them behind `q`: the first `b` stands at one place only. -/
theorem eq_nil_of_append_eq {b : UInt8} {q m x y : Text} (hm : b ∈ m) (hq : b ∉ q)
    (h : q ++ (m ++ x) = m ++ y) : q = [] := by
  have hplace := congrArg (List.idxOf b) h
  rw [List.idxOf_append_of_notMem hq, List.idxOf_append_of_mem hm, List.idxOf_append_of_mem hm] at hplace
  exact List.length_eq_zero_iff.1 (by omega)

end Text

end LiquidLint
