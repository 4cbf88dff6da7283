import LiquidLint.Proofs.Masking

/-!
# What the mask leaves

The mask of a source is as long as the source and has its line feeds.  All that it changes stands in a region,
which starts at an opener and goes through the first closer behind it, or through the source if there is none
(`IsRegion`).

No opener is left (`openerFree_maskFrom`).  An opener would need two bytes next to each other.  A blanked byte is
no brace, so none starts in a region.  A brace that was kept is followed by the byte that follows it in the
source, unless a region starts there, and a region leaves no brace and no percent sign at its start.  Braces that
overlap, as in three braces in a row, are settled from left to right: the first two open a region.

A source without openers is its own mask (`maskFrom_of_openerFree`), so masking twice is masking once.
-/

namespace LiquidLint

open Liquid

namespace Text

section Search

variable {t p : Text}

theorem not_infix_of_offsetOf?_eq_none (h : offsetOf? t p = none) : ¬ p <:+: t := by
  induction t with
  | nil =>
    intro hp
    obtain rfl := List.infix_nil.1 hp
    cases h
  | cons b t ih =>
    rw [offsetOf?_cons] at h
    split at h
    · cases h
    · rename_i hstarts
      intro hp
      rcases List.infix_cons_iff.1 hp with ⟨rest, hrest⟩ | hp
      · exact hstarts (startsWith_iff.2 ⟨rest, hrest.symm⟩)
      · exact ih (Option.map_eq_none_iff.1 h) hp

/-- A text stands nowhere before the place where it is found. -/
theorem not_infix_take_of_offsetOf? {n : Nat} (h : offsetOf? t p = some n) (hp : p ≠ []) :
    ¬ p <:+: t.take (n + (p.length - 1)) := by
  have hlength := List.length_pos_iff.2 hp
  induction t generalizing n with
  | nil =>
    rw [List.take_nil]
    exact fun hnil => hp (List.infix_nil.1 hnil)
  | cons b t ih =>
    rw [offsetOf?_cons] at h
    split at h
    · -- what is left is too short
      obtain rfl := Option.some.inj h
      intro hinfix
      have hle := hinfix.length_le
      rw [List.length_take] at hle
      omega
    · rename_i hstarts
      obtain ⟨m, hm, rfl⟩ := Option.map_eq_some_iff.1 h
      rw [Nat.add_right_comm, List.take_succ_cons]
      intro hinfix
      rcases List.infix_cons_iff.1 hinfix with hprefix | hinfix
      · obtain ⟨rest, hrest⟩ := hprefix.trans ((List.prefix_cons_inj b).2 (List.take_prefix ..))
        exact hstarts (startsWith_iff.2 ⟨rest, hrest.symm⟩)
      · exact ih hm hinfix

end Search
end Text

namespace Markup

/-! ## Regions -/

/-- A region of a source starts at an opener.  It ends with the first closer behind the opener, or with the source
if there is none. -/
inductive IsRegion (src : Text) (d : Delimiter) : Nat → Nat → Prop
  | closed {before inner after : Text} (hsrc : src = before ++ (d.opener ++ (inner ++ (d.closer ++ after))))
      (hfirst : ¬ d.closer <:+: inner ++ [d.closeMark]) :
      IsRegion src d before.length (before.length + (inner.length + 4))
  | unclosed {before inner : Text} (hsrc : src = before ++ (d.opener ++ inner))
      (hnone : ¬ d.closer <:+: inner) : IsRegion src d before.length (before.length + (inner.length + 2))

/-- The region that the scan finds. -/
theorem isRegion_of_opener? {src body : Text} {d : Delimiter} (h : opener? src = some (d, body)) :
    IsRegion src d 0 (regionLength d body) := by
  obtain rfl := eq_append_of_opener? h
  unfold regionLength
  cases hoffset : Text.offsetOf? body (closer d) with
  | none =>
    have hregion : IsRegion (d.opener ++ body) d 0 (0 + (body.length + 2)) :=
      @IsRegion.unclosed _ d [] body rfl (Text.not_infix_of_offsetOf?_eq_none hoffset)
    rwa [Nat.zero_add] at hregion
  | some n =>
    have hfirst := Text.not_infix_take_of_offsetOf? hoffset (p := closer d) nofun
    obtain ⟨inner, after, rfl, rfl⟩ := Text.exists_of_offsetOf? hoffset
    have htake : (inner ++ (closer d ++ after)).take (inner.length + ((closer d).length - 1)) =
        inner ++ [d.closeMark] := by
      rw [List.take_length_add_append]
      rfl
    rw [htake] at hfirst
    have hregion : IsRegion (d.opener ++ (inner ++ (closer d ++ after))) d 0 (0 + (inner.length + 4)) :=
      @IsRegion.closed _ d [] inner after rfl hfirst
    rwa [Nat.zero_add] at hregion

/-- A region has an opener, and ends in the source. -/
theorem IsRegion.bounds {src : Text} {d : Delimiter} {start stop : Nat} (h : IsRegion src d start stop) :
    start + 2 ≤ stop ∧ stop ≤ src.length := by
  cases h with
  | closed hsrc =>
    rw [hsrc]
    simp only [List.length_append, Delimiter.length_opener, Delimiter.length_closer]
    omega
  | unclosed hsrc =>
    rw [hsrc]
    simp only [List.length_append, Delimiter.length_opener]
    omega

theorem IsRegion.opener_prefix {src : Text} {d : Delimiter} {stop : Nat} (h : IsRegion src d 0 stop) :
    d.opener <+: src := by
  generalize hstart : 0 = start at h
  cases h with
  | closed hsrc =>
    obtain rfl := List.length_eq_zero_iff.1 hstart.symm
    exact ⟨_, hsrc.symm⟩
  | unclosed hsrc =>
    obtain rfl := List.length_eq_zero_iff.1 hstart.symm
    exact ⟨_, hsrc.symm⟩

/-- A region of a text is one behind another text. -/
theorem IsRegion.append_left {src : Text} {d : Delimiter} {start stop : Nat} (h : IsRegion src d start stop)
    (t : Text) : IsRegion (t ++ src) d (t.length + start) (t.length + stop) := by
  cases h with
  | @closed before inner after hsrc hfirst =>
    have hregion : IsRegion (t ++ src) d (t ++ before).length ((t ++ before).length + (inner.length + 4)) :=
      .closed (by rw [hsrc, List.append_assoc]) hfirst
    rwa [List.length_append, Nat.add_assoc] at hregion
  | @unclosed before inner hsrc hnone =>
    have hregion : IsRegion (t ++ src) d (t ++ before).length ((t ++ before).length + (inner.length + 2)) :=
      .unclosed (by rw [hsrc, List.append_assoc]) hnone
    rwa [List.length_append, Nat.add_assoc] at hregion

/-! ## Texts without openers -/

/-- No opener stands in the text. -/
def OpenerFree (t : Text) : Prop := ∀ d : Delimiter, ¬ d.opener <:+: t

theorem opener?_eq_none_iff {t : Text} : opener? t = none ↔ ∀ d : Delimiter, ¬ d.opener <+: t := by
  constructor
  · rintro h d ⟨rest, rfl⟩
    rw [opener?_opener] at h
    cases h
  · intro h
    refine Option.eq_none_iff_forall_ne_some.2 fun ⟨d, body⟩ hopen => h d ⟨body, ?_⟩
    exact (eq_append_of_opener? hopen).symm

theorem openerFree_nil : OpenerFree [] := fun _ h => List.cons_ne_nil _ _ (List.infix_nil.1 h)

theorem openerFree_cons_iff {b : UInt8} {t : Text} :
    OpenerFree (b :: t) ↔ opener? (b :: t) = none ∧ OpenerFree t := by
  rw [opener?_eq_none_iff]
  simp only [OpenerFree, List.infix_cons_iff, not_or, forall_and]

/-- No opener starts where there is no brace. -/
theorem OpenerFree.append {t u : Text} (ht : ('{' : UInt8) ∉ t) (hu : OpenerFree u) : OpenerFree (t ++ u) := by
  induction t with
  | nil => exact hu
  | cons b t ih =>
    obtain ⟨hb, ht⟩ := List.ne_and_not_mem_of_not_mem_cons ht
    exact openerFree_cons_iff.2 ⟨opener?_cons_of_ne (Ne.symm hb) _, ih ht⟩

/-! ## Blanking -/

theorem fillOf_cases (a : Bool) : fillOf a = ' ' ∨ fillOf a = 'x' := by
  cases a
  · exact .inl rfl
  · exact .inr rfl

/-- A blanked text has no brace. -/
theorem not_mem_blankOut (a : Bool) (t : Text) : ('{' : UInt8) ∉ blankOut (fillOf a) t := by
  intro hmem
  obtain ⟨b, -, hb⟩ := List.mem_map.1 hmem
  split at hb
  · rename_i hfeed
    rw [hfeed] at hb
    exact absurd hb (by decide)
  · cases a
    · exact absurd hb (by decide)
    · exact absurd hb (by decide)

/-- A byte that blanking changes becomes the fill. -/
theorem getElem?_blankOut_of_ne {fill : UInt8} {t : Text} {i : Nat} (h : (blankOut fill t)[i]? ≠ t[i]?) :
    (blankOut fill t)[i]? = some fill := by
  have hi : i < t.length := by
    refine Nat.lt_of_not_le fun hlate => h ?_
    rw [List.getElem?_eq_none hlate, List.getElem?_eq_none (by rwa [length_blankOut])]
  rw [blankOut, List.getElem?_map, List.getElem?_eq_getElem hi, Option.map_some] at h ⊢
  split at h
  · exact absurd rfl h
  · rename_i hfeed
    rw [if_neg hfeed]

/-- Which bytes of a text are line feeds. -/
def lineFeeds (t : Text) : List Bool := t.map fun b : UInt8 => decide (b = '\n')

theorem lineFeeds_append (t u : Text) : lineFeeds (t ++ u) = lineFeeds t ++ lineFeeds u := List.map_append

theorem getElem?_eq_feed_iff {t : Text} {i : Nat} :
    t[i]? = some ('\n' : UInt8) ↔ (lineFeeds t)[i]? = some true := by
  unfold lineFeeds
  rw [List.getElem?_map]
  cases t[i]? with
  | none => exact iff_of_false nofun nofun
  | some b => simp

theorem lineFeeds_blankOut (a : Bool) (t : Text) : lineFeeds (blankOut (fillOf a) t) = lineFeeds t := by
  unfold lineFeeds blankOut
  rw [List.map_map]
  refine List.map_congr_left fun b _ => ?_
  show decide ((if b = '\n' then b else fillOf a) = '\n') = decide (b = '\n')
  by_cases hb : b = '\n'
  · rw [if_pos hb]
  · rw [if_neg hb, decide_eq_false hb]
    rcases fillOf_cases a with hfill | hfill
    · rw [hfill]
      rfl
    · rw [hfill]
      rfl

/-! ## The scan -/

/-- The scan that makes a mask: a byte that opens no region is kept, and a region is blanked out. -/
inductive Scanned : Bool → Text → Text → Prop
  | nil (a : Bool) : Scanned a [] []
  | plain {a : Bool} {b : UInt8} {rest masked : Text} (hopen : opener? (b :: rest) = none)
      (hrest : Scanned (b = '=') rest masked) : Scanned a (b :: rest) (b :: masked)
  | region {a : Bool} {d : Delimiter} {region after masked : Text}
      (hregion : IsRegion (region ++ after) d 0 region.length) (hafter : Scanned false after masked) :
      Scanned a (region ++ after) (blankOut (fillOf a) region ++ masked)

theorem scanned_maskFrom (a : Bool) (src : Text) : Scanned a src (maskFrom a src) := by
  fun_induction maskFrom a src with
  | case1 a => exact .nil a
  | case2 a b rest hopen ih => exact .plain hopen ih
  | case3 a b rest d body hopen n ih =>
    have hregion := isRegion_of_opener? hopen
    have htake : ((b :: rest).take n).length = n := List.length_take_of_le hregion.bounds.2
    have hcut := List.take_append_drop n (b :: rest)
    rw [← hcut, show regionLength d body = ((b :: rest).take n).length from htake.symm] at hregion
    have hscanned := Scanned.region (a := a) hregion ih
    rwa [hcut] at hscanned

namespace Scanned

variable {a : Bool} {src masked : Text}

/-- **The mask has the line feeds of the source**, each at its place. -/
theorem lineFeeds_eq (h : Scanned a src masked) : lineFeeds masked = lineFeeds src := by
  induction h with
  | nil => rfl
  | plain _ _ ih => exact congrArg (_ :: ·) ih
  | region _ _ ih => rw [lineFeeds_append, lineFeeds_blankOut, ih, ← lineFeeds_append]

/-- A byte that opens nothing in the source opens nothing in the mask. -/
theorem opener?_cons (h : Scanned a src masked) {b : UInt8} (hopen : opener? (b :: src) = none) :
    opener? (b :: masked) = none := by
  by_cases hb : b = '{'
  · cases h with
    | nil => exact hopen
    | @plain _ c rest =>
      rw [← Option.not_isSome_iff_eq_none, isSome_opener?_cons_cons] at hopen ⊢
      exact hopen
    | @region _ d region after _ hregion =>
      -- the brace and the first one of the region open a variable
      obtain ⟨rest, hrest⟩ := hregion.opener_prefix
      rw [← hrest, hb] at hopen
      cases hopen
  · exact opener?_cons_of_ne hb masked

/-- **The mask has no openers.** -/
theorem openerFree (h : Scanned a src masked) : OpenerFree masked := by
  induction h with
  | nil => exact openerFree_nil
  | plain hopen hrest ih => exact openerFree_cons_iff.2 ⟨hrest.opener?_cons hopen, ih⟩
  | region _ _ ih => exact ih.append (not_mem_blankOut _ _)

/-- **A byte that the mask changes stands in a region**, and becomes a space or a letter. -/
theorem region_of_changed (h : Scanned a src masked) {i : Nat} (hne : masked[i]? ≠ src[i]?) :
    (∃ d start stop, IsRegion src d start stop ∧ start ≤ i ∧ i < stop) ∧
      (masked[i]? = some (' ' : UInt8) ∨ masked[i]? = some ('x' : UInt8)) := by
  induction h generalizing i with
  | nil => exact absurd rfl hne
  | @plain _ b rest masked _ _ ih =>
    cases i with
    | zero => exact absurd rfl hne
    | succ i =>
      obtain ⟨⟨d, start, stop, hregion, hstart, hstop⟩, hfill⟩ := ih hne
      refine ⟨⟨d, 1 + start, 1 + stop, hregion.append_left [b], by omega, by omega⟩, hfill⟩
  | @region a d region after masked hregion _ ih =>
    have hblank := length_blankOut (fillOf a) region
    by_cases hi : i < region.length
    · rw [List.getElem?_append_left (by omega), List.getElem?_append_left hi] at hne
      rw [List.getElem?_append_left (by omega), getElem?_blankOut_of_ne hne]
      exact ⟨⟨d, 0, _, hregion, Nat.zero_le _, hi⟩, (fillOf_cases a).imp (congrArg some) (congrArg some)⟩
    · rw [List.getElem?_append_right (by omega), List.getElem?_append_right (by omega), hblank] at hne
      rw [List.getElem?_append_right (by omega), hblank]
      obtain ⟨⟨e, start, stop, hlater, hstart, hstop⟩, hfill⟩ := ih hne
      exact ⟨⟨e, _, _, hlater.append_left region, by omega, by omega⟩, hfill⟩

end Scanned

/-- A text without openers is its own mask. -/
theorem maskFrom_of_openerFree (a : Bool) {t : Text} (h : OpenerFree t) : maskFrom a t = t := by
  induction t generalizing a with
  | nil => exact maskFrom_nil a
  | cons b t ih =>
    obtain ⟨hopen, ht⟩ := openerFree_cons_iff.1 h
    rw [maskFrom_plain a hopen, ih _ ht]

/-- **The mask blanks out regions and leaves no opener.**  It is as long as the source and has its line feeds.
Neither opener stands in it.  A byte that it changes stands in a region of the source and becomes a space or a
letter.  Masking it again changes nothing. -/
theorem mask_blanks_regions (src : Text) :
    (mask src).length = src.length ∧
      (∀ i : Nat, (mask src)[i]? = some ('\n' : UInt8) ↔ src[i]? = some ('\n' : UInt8)) ∧
      (∀ d : Delimiter, ¬ d.opener <:+: mask src) ∧
      (∀ i : Nat, (mask src)[i]? ≠ src[i]? →
        (∃ d start stop, IsRegion src d start stop ∧ start ≤ i ∧ i < stop) ∧
          ((mask src)[i]? = some (' ' : UInt8) ∨ (mask src)[i]? = some ('x' : UInt8))) ∧
      mask (mask src) = mask src := by
  have hscanned := scanned_maskFrom false src
  refine ⟨length_maskFrom false src, fun i => ?_, hscanned.openerFree, fun i => hscanned.region_of_changed,
    maskFrom_of_openerFree false hscanned.openerFree⟩
  rw [getElem?_eq_feed_iff, getElem?_eq_feed_iff, mask, hscanned.lineFeeds_eq]

/-- Of three braces the first two open, of three closing ones the last one is left, and a tag without a closer
reaches the end. -/
example : mask "a=\x7b\x7b\x7b x \x7d\x7d\x7d\x7b% y" = "a=xxxxxxxx\x7d    " := by decide +kernel

end Markup
end LiquidLint
