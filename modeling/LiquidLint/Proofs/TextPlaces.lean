import Mathlib.Data.List.Chain
import LiquidLint.Proofs.TokenPlaces

/-!
# Where a trimmed text stands

A text is trimmed of all white-space characters, and its new offset is found by counting the ASCII blanks
in front of it.  The two agree unless another white-space character comes first behind these blanks: it
is trimmed and not counted.  `overlookedAt` says where in a source that happens, and `Stands` carries
through every step of the reading that a text stands where it is said to stand, or further on and then
behind such a place.

Each step goes on behind a byte of the source that tells such a place: a brace, percent sign or dash of a
delimiter, the `#` of a comment, a line feed, or another blank (`leads`).  So what has been trimmed once
need not be looked at again, and white space inside a markup does not count.
-/

namespace LiquidLint
namespace Text

/-- The white-space characters that are no ASCII blanks. -/
def wideBlanks : List Text := blanks.filter fun p => 1 < p.length

/-- Whether `t` starts with white space that is no ASCII blank. -/
def startsWide (t : Text) : Bool := wideBlanks.any fun p => startsWith t p

theorem startsWide_eq_false {t : Text} :
    startsWide t = false ↔ ∀ p ∈ wideBlanks, dropStart? p t = none := by
  simp [startsWide, startsWith]

theorem startsWide_append {t : Text} (h : startsWide t = true) (more : Text) :
    startsWide (t ++ more) = true := by
  obtain ⟨p, hp, hstarts⟩ := List.any_eq_true.1 h
  obtain ⟨rest, hrest⟩ := Option.isSome_iff_exists.1 hstarts
  refine List.any_eq_true.2 ⟨p, hp, Option.isSome_iff_exists.2 ⟨rest ++ more, ?_⟩⟩
  rw [dropStart?_eq_some.1 hrest, List.append_assoc]
  exact dropStart?_eq_some.2 rfl

/-- What starts with an ASCII blank starts with no other. -/
theorem startsWide_of_isAsciiBlank {b : UInt8} (hb : isAsciiBlank b = true) (t : Text) :
    startsWide (b :: t) = false := by
  have hheads : ∀ p ∈ wideBlanks, ∃ a q, p = a :: q ∧ isAsciiBlank a = false := by
    have hall : ∀ p ∈ wideBlanks, p.head?.any (fun a => !isAsciiBlank a) = true := by decide +kernel
    intro p hp
    have := hall p hp
    cases p with
    | nil => cases this
    | cons a q => exact ⟨a, q, rfl, by simpa using this⟩
  refine startsWide_eq_false.2 fun p hp => ?_
  obtain ⟨a, q, rfl, ha⟩ := hheads p hp
  rw [dropStart?, if_neg]
  rintro rfl
  rw [hb] at ha
  cases ha

/-- Behind the ASCII blanks there is nothing to trim at the start, unless another blank comes first. -/
theorem dropForm?_blanks_eq_none {t : Text} (hwide : startsWide t = false)
    (hhead : ∀ b ∈ t.head?, isAsciiBlank b = false) : dropForm? blanks t = none := by
  have hforms : ∀ p ∈ blanks, 1 < p.length ∨ p.head?.any isAsciiBlank = true := by decide +kernel
  refine List.findSome?_eq_none_iff.2 fun p hp => ?_
  rcases hforms p hp with hlong | hascii
  · exact startsWide_eq_false.1 hwide p (List.mem_filter.2 ⟨hp, by simpa using hlong⟩)
  · cases p with
    | nil => cases hascii
    | cons a q =>
      cases t with
      | nil => rfl
      | cons b t =>
        rw [dropStart?, if_neg]
        rintro rfl
        have hnot := hhead a rfl
        rw [show isAsciiBlank a = true from hascii] at hnot
        cases hnot

theorem dropForm?_blanks_trimForms (t : Text) : dropForm? blanks (trimForms blanks t) = none := by
  fun_induction trimForms blanks t with
  | case1 t hnone => exact hnone
  | case2 t rest _ _ ih => exact ih
  | case3 t rest hsome hlt => exact absurd (length_lt_of_dropForm?_blanks hsome) hlt

/-- What is left of a text stands behind its ASCII blanks; between the two there is nothing unless
another blank comes first. -/
theorem exists_trimSpace (t : Text) :
    ∃ gap trail, t.dropWhile isAsciiBlank = gap ++ (trimSpace t ++ trail) ∧
      (startsWide (t.dropWhile isAsciiBlank) = false → gap = []) := by
  rw [← trimSpace_dropWhile]
  have hhead : ∀ b ∈ (t.dropWhile isAsciiBlank).head?, isAsciiBlank b = false := by
    intro b hb
    have := List.head?_dropWhile_not isAsciiBlank t
    rw [Option.mem_def.1 hb] at this
    simpa using this
  generalize t.dropWhile isAsciiBlank = s at hhead
  obtain ⟨gap, hgap⟩ := trimForms_suffix blanks s
  obtain ⟨trail, htrail⟩ : trimSpace s <+: trimForms blanks s := by
    have h := trimForms_suffix blanksReversed (trimForms blanks s).reverse
    rwa [← List.reverse_prefix, List.reverse_reverse] at h
  refine ⟨gap, trail, by rw [htrail, hgap], fun hwide => ?_⟩
  have hsame : trimForms blanks s = s := by rw [trimForms, dropForm?_blanks_eq_none hwide hhead]
  rw [hsame] at hgap
  exact List.append_left_eq_self.1 hgap

/-- Trimmed text starts with no blank. -/
theorem startsWide_trimSpace (t : Text) : startsWide (trimSpace t) = false := by
  refine Bool.eq_false_iff.2 fun hwide => ?_
  have h := trimForms_suffix blanksReversed (trimForms blanks t).reverse
  rw [← List.reverse_prefix, List.reverse_reverse] at h
  obtain ⟨more, hmore⟩ : trimSpace t <+: trimForms blanks t := h
  have hstarts := startsWide_append hwide more
  rw [hmore] at hstarts
  obtain ⟨p, hp, hsome⟩ := List.any_eq_true.1 hstarts
  have hnone := List.findSome?_eq_none_iff.1 (dropForm?_blanks_trimForms t) p (List.mem_filter.1 hp).1
  rw [startsWith, hnone] at hsome
  cases hsome

/-! ## Lines -/

theorem flatten_linesWithEnds (t : Text) : (linesWithEnds t).flatten = t := by
  induction t with
  | nil => rfl
  | cons b rest ih =>
    rw [linesWithEnds]
    split
    · rw [List.flatten_cons, ih, List.singleton_append]
    · split
      · rename_i h
        rw [h] at ih
        rw [← ih]
        rfl
      · rename_i line more h
        rw [h] at ih
        rw [← ih]
        rfl

/-- Each line but the last one ends in a line feed. -/
theorem isChain_linesWithEnds (t : Text) :
    (linesWithEnds t).IsChain fun line _ => line.getLast? = some ('\n' : UInt8) := by
  induction t with
  | nil => exact List.isChain_singleton _
  | cons b rest ih =>
    rw [linesWithEnds]
    split
    · rename_i hb
      rw [hb]
      cases hlines : linesWithEnds rest with
      | nil => exact List.isChain_singleton _
      | cons line more =>
        rw [hlines] at ih
        exact List.isChain_cons_cons.2 ⟨rfl, ih⟩
    · split
      · exact List.isChain_singleton _
      · rename_i line more hlines
        rw [hlines] at ih
        cases more with
        | nil => exact List.isChain_singleton _
        | cons next more =>
          obtain ⟨hline, hmore⟩ := List.isChain_cons_cons.1 ih
          refine List.isChain_cons_cons.2 ⟨?_, hmore⟩
          obtain ⟨front, rfl⟩ := List.getLast?_eq_some_iff.1 hline
          exact @List.getLast?_concat _ (b :: front) _

end Text

namespace Liquid

/-! ## Places in a source -/

/-- `t` stands in `src` at the offset `p`. -/
def StandsAt (src : Text) (p : Nat) (t : Text) : Prop :=
  ∃ u v, u.length = p ∧ src = u ++ (t ++ v)

theorem StandsAt.slice_eq {src t : Text} {p : Nat} (h : StandsAt src p t) :
    Text.slice src p (p + t.length) = t := by
  obtain ⟨u, v, rfl, rfl⟩ := h
  exact Text.slice_append u t v

theorem StandsAt.le_length {src t : Text} {p : Nat} (h : StandsAt src p t) :
    p + t.length ≤ src.length := by
  obtain ⟨u, v, rfl, rfl⟩ := h
  simp only [List.length_append]
  omega

theorem standsAt_of_slice {src t : Text} {i j : Nat} (ht : t ≠ []) (h : Text.slice src i j = t) :
    StandsAt src i t := by
  have hlength : i < src.length := by
    refine Nat.lt_of_not_le fun hle => ht ?_
    rw [← h, Text.slice, List.drop_eq_nil_of_le hle, List.take_nil]
  refine ⟨src.take i, (src.drop i).drop (j - i), List.length_take_of_le (Nat.le_of_lt hlength), ?_⟩
  rw [← h, Text.slice, List.take_append_drop, List.take_append_drop]

/-- Whether blanks are counted behind the byte: it is a blank itself, belongs to the opener of a tag or
variable, or is the name of a comment tag. -/
def leads (b : UInt8) : Bool :=
  Text.isAsciiBlank b || b = '{' || b = '%' || b = '-' || b = '#'

/-- Whether a white-space character at the offset `i` is trimmed without being counted. -/
def overlookedAt (src : Text) (i : Nat) : Bool :=
  Text.startsWide (src.drop i) && (src.take i).getLast?.any leads

/-- A blank is overlooked at one of the offsets from `lo` to `hi`. -/
def Overlooks (src : Text) (lo hi : Nat) : Prop :=
  ∃ i, lo ≤ i ∧ i ≤ hi ∧ overlookedAt src i = true

theorem Overlooks.of_le {src : Text} {lo hi hi' : Nat} (h : Overlooks src lo hi) (hle : hi ≤ hi') :
    Overlooks src lo hi' := by
  obtain ⟨i, hlo, hhi, hi⟩ := h
  exact ⟨i, hlo, Nat.le_trans hhi hle, hi⟩

/-- Blanks are counted at `start`: a byte in front of it says so, or one was overlooked before. -/
def Guarded (src : Text) (lo start : Nat) : Prop :=
  (src.take start).getLast?.any leads = true ∨ Overlooks src lo start

/-- `t` stands at `start`, or further on if a blank is overlooked from `lo` on. -/
def Stands (src : Text) (lo start : Nat) (t : Text) : Prop :=
  ∃ p, start ≤ p ∧ StandsAt src p t ∧ (p = start ∨ Overlooks src lo start)

namespace Stands

variable {src t u v : Text} {lo start : Nat}

theorem left (h : Stands src lo start (u ++ v)) : Stands src lo start u := by
  obtain ⟨p, hle, ⟨x, y, hx, rfl⟩, hp⟩ := h
  exact ⟨p, hle, ⟨x, v ++ y, hx, by simp only [List.append_assoc]⟩, hp⟩

theorem right (h : Stands src lo start (u ++ v)) : Stands src lo (start + u.length) v := by
  obtain ⟨p, hle, ⟨x, y, rfl, rfl⟩, hp⟩ := h
  refine ⟨x.length + u.length, by omega, ⟨x ++ u, y, List.length_append, ?_⟩, ?_⟩
  · simp only [List.append_assoc]
  · exact hp.imp (by omega) fun h => h.of_le (Nat.le_add_right _ _)

theorem guarded (h : Stands src lo start (u ++ v)) (hlast : u.getLast?.any leads = true) :
    Guarded src lo (start + u.length) := by
  obtain ⟨p, hle, ⟨x, y, rfl, rfl⟩, rfl | hover⟩ := h
  · refine .inl ?_
    have hne : u ≠ [] := fun hnil => by simp [hnil] at hlast
    rw [← List.append_assoc, ← List.append_assoc, List.append_assoc (x ++ u),
      List.take_left' List.length_append, List.getLast?_append_of_ne_nil _ hne]
    exact hlast
  · exact .inr (hover.of_le (Nat.le_add_right _ _))

/-- **Trimming.**  The text that is left stands behind the ASCII blanks, or a blank is overlooked. -/
theorem trim (h : Stands src lo start t) (hlo : lo ≤ start)
    (hstart : Text.startsWide t = false ∨ Guarded src lo start) :
    Stands src lo (start + leadingBlanks t) (Text.trimSpace t) := by
  obtain ⟨gap, trail, hcut, hgap⟩ := Text.exists_trimSpace t
  have hsplit := List.takeWhile_append_dropWhile (p := Text.isAsciiBlank) (l := t)
  rw [leadingBlanks_eq]
  have hguard : Text.startsWide (t.dropWhile Text.isAsciiBlank) = true →
      Guarded src lo (start + (t.takeWhile Text.isAsciiBlank).length) := by
    intro hwide
    cases hlast : (t.takeWhile Text.isAsciiBlank).getLast? with
    | none =>
      have hnone := List.getLast?_eq_none_iff.1 hlast
      rw [hnone, List.nil_append] at hsplit
      rw [hsplit] at hwide
      rw [hnone]
      exact hstart.resolve_left fun hnot => by rw [hwide] at hnot; cases hnot
    | some b =>
      rw [← hsplit] at h
      refine h.guarded ?_
      have hb := List.all_eq_true.1 List.all_takeWhile b (List.mem_of_getLast? hlast)
      rw [hlast]
      show leads b = true
      simp [leads, hb]
  rw [← hsplit] at h
  have hrest := h.right
  cases hwide : Text.startsWide (t.dropWhile Text.isAsciiBlank) with
  | false =>
    rw [hcut, hgap hwide, List.nil_append] at hrest
    exact hrest.left
  | true =>
    -- the gap is not counted, so a blank is overlooked in front of it
    have hover : Overlooks src lo (start + (t.takeWhile Text.isAsciiBlank).length) := by
      obtain ⟨p, hle, ⟨x, y, rfl, hsrc⟩, hp | hover⟩ := hrest
      · rcases hguard hwide with hlead | hover
        · refine ⟨x.length, by omega, by omega, ?_⟩
          rw [← hp, hsrc] at hlead
          rw [hsrc, overlookedAt, hlead, Bool.and_true, List.drop_left]
          exact Text.startsWide_append hwide y
        · exact hover
      · exact hover
    rw [hcut] at hrest
    obtain ⟨p, hle, hat, _⟩ := hrest.right.left
    exact ⟨p, by omega, hat, .inr hover⟩

/-- The markup of a tag behind its name. -/
theorem splitTag (h : Stands src lo start t) (hlo : lo ≤ start) :
    Stands src lo (splitTag t start).2.2 (splitTag t start).2.1 ∧
      Text.startsWide (Liquid.splitTag t start).2.1 = false := by
  cases t with
  | nil => exact ⟨h, rfl⟩
  | cons b rest =>
    unfold Liquid.splitTag
    by_cases hb : b = '#'
    · simp only [if_pos hb]
      have hcut : Stands src lo start ([b] ++ rest) := h
      refine ⟨?_, Text.startsWide_trimSpace rest⟩
      refine hcut.right.trim (by omega) (.inr (hcut.guarded ?_))
      rw [hb]
      rfl
    · simp only [if_neg hb]
      refine ⟨?_, Text.startsWide_trimSpace _⟩
      rw [← List.takeWhile_append_dropWhile (p := fun b => !Text.isAsciiBlank b) (l := b :: rest)] at h
      refine h.right.trim (by omega) (.inl ?_)
      -- a name ends at an ASCII blank or with the tag
      have hhead := List.head?_dropWhile_not (fun b => !Text.isAsciiBlank b) (b :: rest)
      cases hmore : (b :: rest).dropWhile fun b => !Text.isAsciiBlank b with
      | nil => rfl
      | cons c more =>
        rw [hmore] at hhead
        exact Text.startsWide_of_isAsciiBlank (by simpa using hhead) more

/-- **The lines of a tag.** -/
theorem lineTokens {lines : List Text}
    (hends : lines.IsChain fun line _ => line.getLast? = some ('\n' : UInt8))
    (h : Stands src lo start lines.flatten) (hlo : lo ≤ start)
    (hstart : Text.startsWide lines.flatten = false ∨ Guarded src lo start) :
    ∀ tok ∈ lineTokens start lines, Stands src lo tok.markupStart tok.markup ∧
      Text.startsWide tok.markup = false := by
  induction lines generalizing start with
  | nil => exact fun tok htok => nomatch htok
  | cons line rest ih =>
    rw [List.flatten_cons] at h hstart
    have hrest : ∀ tok ∈ Liquid.lineTokens (start + line.length) rest,
        Stands src lo tok.markupStart tok.markup ∧ Text.startsWide tok.markup = false := by
      cases rest with
      | nil => exact fun tok htok => nomatch htok
      | cons next more =>
        obtain ⟨hline, hmore⟩ := List.isChain_cons_cons.1 hends
        refine ih hmore h.right (by omega) (.inr (h.guarded ?_))
        rw [hline]
        rfl
    have hline : Text.startsWide line = false ∨ Guarded src lo start := by
      refine hstart.imp_left fun hnot => Bool.eq_false_iff.2 fun hwide => ?_
      rw [Text.startsWide_append hwide] at hnot
      cases hnot
    rw [Liquid.lineTokens]
    dsimp only
    split
    · exact hrest
    · intro tok htok
      rcases List.mem_cons.1 htok with rfl | htok
      · exact (h.left.trim hlo hline).splitTag (by omega)
      · exact hrest tok htok

end Stands

end Liquid
end LiquidLint
