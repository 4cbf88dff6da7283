import LiquidLint.Liquid.Token

/-!
# Trimming and offsets

The markup of a tag is trimmed of all white-space characters, while its offset is found by counting
ASCII blanks only.  The two agree in one direction: what is trimmed at the start includes every
ASCII blank there, so the trimmed text, put at the counted offset, still ends inside the text it was
cut from.

White space is trimmed character by character, and no character is part of another one.  So a character at
an end of a text is trimmed whatever it stands beside (`trimSpace_form_append`, `trimSpace_append_form`), and
so are ASCII blanks (`trimSpace_blanks_append`, `trimSpace_append_blanks`).
-/

namespace LiquidLint
namespace Text

theorem dropStart?_eq_some {p t rest : Text} : dropStart? p t = some rest ↔ t = p ++ rest := by
  induction p generalizing t with
  | nil => exact Option.some_inj
  | cons a p ih =>
    cases t with
    | nil => simp [dropStart?]
    | cons b t =>
      unfold dropStart?
      by_cases hab : a = b
      · subst hab
        simp [ih]
      · simp [hab, Ne.symm hab]

theorem slice_append (a b c : Text) :
    slice (a ++ (b ++ c)) a.length (a.length + b.length) = b := by
  unfold slice
  rw [List.drop_left, Nat.add_sub_cancel_left, List.take_left]

theorem length_slice {t : Text} {j : Nat} (hj : j ≤ t.length) (i : Nat) : (slice t i j).length = j - i := by
  rw [slice, List.length_take, List.length_drop]
  omega

theorem slice_slice (t : Text) {i j x y : Nat} (h : i + y ≤ j) :
    slice (slice t i j) x y = slice t (i + x) (i + y) := by
  unfold slice
  rw [List.drop_take, List.drop_drop, List.take_take]
  congr 1
  omega

/-- The two parts of a slice are slices. -/
theorem slice_halves {t u v : Text} {i : Nat} (h : slice t i (i + (u ++ v).length) = u ++ v) :
    slice t i (i + u.length) = u ∧ slice t (i + u.length) (i + u.length + v.length) = v := by
  rw [List.length_append] at h
  have hfirst := slice_slice t (i := i) (j := i + (u.length + v.length)) (x := 0) (y := u.length)
    (by omega)
  have hlast := slice_slice t (i := i) (j := i + (u.length + v.length)) (x := u.length)
    (y := u.length + v.length) (by omega)
  rw [h] at hfirst hlast
  have hu := slice_append [] u v
  have hv := slice_append u v []
  rw [List.append_nil] at hv
  rw [List.nil_append, List.length_nil, Nat.zero_add] at hu
  rw [hu] at hfirst
  rw [hv] at hlast
  exact ⟨hfirst.symm, by rw [Nat.add_assoc]; exact hlast.symm⟩

theorem eq_of_isAsciiBlank {b : UInt8} (hb : isAsciiBlank b = true) :
    b = 0x20 ∨ b = 0x0A ∨ b = 0x09 ∨ b = 0x0D ∨ b = 0x0B ∨ b = 0x0C := by
  simp only [isAsciiBlank, Bool.or_eq_true, decide_eq_true_eq, Bool.and_eq_true,
    UInt8.le_iff_toNat_le] at hb
  simp only [← UInt8.toNat_inj] at *
  simp only [UInt8.reduceToNat] at *
  omega

/-- What is trimmed at the start belongs to the forms. -/
theorem exists_trimForms (forms : List Text) (t : Text) :
    ∃ u, t = u ++ trimForms forms t ∧ ∀ b ∈ u, ∃ p ∈ forms, b ∈ p := by
  fun_induction trimForms forms t with
  | case1 t _ => exact ⟨[], rfl, fun _ hb => (List.not_mem_nil hb).elim⟩
  | case2 t rest hsome _ ih =>
    obtain ⟨p, hp, hdrop⟩ := List.exists_of_findSome?_eq_some hsome
    obtain ⟨u, hrest, hu⟩ := ih
    refine ⟨p ++ u, ?_, fun b hb => ?_⟩
    · rw [List.append_assoc, ← hrest]
      exact dropStart?_eq_some.1 hdrop
    · exact (List.mem_append.1 hb).elim (fun hb => ⟨p, hp, hb⟩) (hu b)
  | case3 t rest _ _ => exact ⟨[], rfl, fun _ hb => (List.not_mem_nil hb).elim⟩

/-! ## Characters -/

section Forms

variable {forms : List Text} {p : Text}

/-- Where no form starts with another one, the form that a text starts with is found. -/
theorem dropForm?_append (hforms : ∀ p ∈ forms, ∀ q ∈ forms, q <+: p → q = p) (hp : p ∈ forms) (t : Text) :
    dropForm? forms (p ++ t) = some t := by
  cases hdrop : dropForm? forms (p ++ t) with
  | none =>
    have hnone := List.findSome?_eq_none_iff.1 hdrop p hp
    rw [dropStart?_eq_some.2 rfl] at hnone
    exact nomatch hnone
  | some rest =>
    obtain ⟨q, hq, hrest⟩ := List.exists_of_findSome?_eq_some hdrop
    have happend : p ++ t = q ++ rest := dropStart?_eq_some.1 hrest
    obtain rfl : q = p :=
      (List.prefix_or_prefix_of_prefix ⟨rest, happend.symm⟩ ⟨t, rfl⟩).elim (hforms p hp q hq)
        fun h => (hforms q hq p hp h).symm
    rw [List.append_cancel_left happend]

theorem trimForms_append (hforms : ∀ p ∈ forms, ∀ q ∈ forms, q <+: p → q = p) (hp : p ∈ forms)
    (hne : p ≠ []) (t : Text) : trimForms forms (p ++ t) = trimForms forms t := by
  have hlonger : t.length < (p ++ t).length := by
    have hpos := List.length_pos_iff.2 hne
    rw [List.length_append]
    omega
  rw [trimForms, dropForm?_append hforms hp]
  exact if_pos hlonger

theorem blanks_ne_nil (hp : p ∈ blanks) : p ≠ [] := by
  have hall : ∀ p ∈ blanks, p ≠ [] := by decide
  exact hall p hp

theorem trimSpaceStart_form_append (hp : p ∈ blanks) (t : Text) :
    trimSpaceStart (p ++ t) = trimSpaceStart t :=
  trimForms_append (by decide +kernel) hp (blanks_ne_nil hp) t

theorem trimSpaceEnd_append_form (hp : p ∈ blanks) (t : Text) :
    trimSpaceEnd (t ++ p) = trimSpaceEnd t := by
  have hreverse : p.reverse ∈ blanksReversed := List.mem_map_of_mem hp
  have hne : p.reverse ≠ [] := fun h => blanks_ne_nil hp (List.reverse_eq_nil_iff.1 h)
  unfold trimSpaceEnd
  rw [List.reverse_append, trimForms_append (by decide +kernel) hreverse hne]

/-- A form that does not go on with `b` stands before `b` or not at all. -/
theorem dropStart?_append_cons {p t : Text} {b : UInt8} (hb : b ∉ p.tail) (ht : t ≠ [])
    (more : Text) : dropStart? p (t ++ b :: more) = (dropStart? p t).map (· ++ b :: more) := by
  induction p generalizing t with
  | nil => rfl
  | cons a p ih =>
    obtain ⟨c, t, rfl⟩ := List.exists_cons_of_ne_nil ht
    simp only [List.cons_append, dropStart?]
    split
    · cases t with
      | nil =>
        cases p with
        | nil => rfl
        | cons a' p =>
          have hne : a' ≠ b := fun heq => hb (heq ▸ List.mem_cons_self ..)
          simp [dropStart?, hne]
      | cons c' t =>
        refine ih (fun hmem => hb ?_) (List.cons_ne_nil _ _)
        exact List.mem_of_mem_tail hmem
    · rfl

theorem length_lt_of_dropForm?_blanks {t r : Text} (h : dropForm? blanks t = some r) :
    r.length < t.length := by
  obtain ⟨p, hp, hdrop⟩ := List.exists_of_findSome?_eq_some h
  have := length_of_dropStart? hdrop
  have := List.length_pos_iff.2 (blanks_ne_nil hp)
  omega

/-- No character goes on with the first byte of one. -/
theorem dropForm?_blanks_append_form (hp : p ∈ blanks) {t : Text} (ht : t ≠ []) :
    dropForm? blanks (t ++ p) = (dropForm? blanks t).map (· ++ p) := by
  have hapart : ∀ p ∈ blanks, ∀ b ∈ p.head?, ∀ q ∈ blanks, b ∉ q.tail := by decide +kernel
  obtain ⟨b, more, rfl⟩ := List.exists_cons_of_ne_nil (blanks_ne_nil hp)
  have hforms : ∀ q ∈ blanks, b ∉ q.tail := hapart _ hp b rfl
  unfold dropForm?
  generalize blanks = forms at hforms
  induction forms with
  | nil => rfl
  | cons q rest ih =>
    rw [List.findSome?_cons, List.findSome?_cons,
      dropStart?_append_cons (hforms q (List.mem_cons_self ..)) ht]
    cases dropStart? q t with
    | some r => rfl
    | none => exact ih fun q hq => hforms q (List.mem_cons_of_mem _ hq)

theorem trimSpace_form_append (hp : p ∈ blanks) (t : Text) : trimSpace (p ++ t) = trimSpace t :=
  congrArg trimSpaceEnd (trimSpaceStart_form_append hp t)

/-- **A white-space character at the end is trimmed**, whatever stands in front of it. -/
theorem trimSpace_append_form (hp : p ∈ blanks) (t : Text) : trimSpace (t ++ p) = trimSpace t := by
  unfold trimSpace trimSpaceStart
  fun_induction trimForms blanks t with
  | case1 t hnone =>
    by_cases ht : t = []
    · subst ht
      have hall : trimForms blanks p = [] := by
        have htrim := trimSpaceStart_form_append hp []
        rw [List.append_nil] at htrim
        exact htrim.trans (by rw [trimSpaceStart, trimForms, hnone])
      rw [List.nil_append, hall]
    · rw [trimForms, dropForm?_blanks_append_form hp ht, hnone]
      exact trimSpaceEnd_append_form hp t
  | case2 t rest hsome hlt ih =>
    have ht : t ≠ [] := fun hnil => by
      rw [hnil] at hlt
      exact Nat.not_lt_zero _ hlt
    rw [trimForms, dropForm?_blanks_append_form hp ht, hsome]
    simp only [Option.map_some, List.length_append, Nat.add_lt_add_iff_right, if_pos hlt]
    exact ih
  | case3 t rest hsome hlt => exact absurd (length_lt_of_dropForm?_blanks hsome) hlt

end Forms

/-! ## Blanks around a text -/

theorem mem_blanks_of_isAsciiBlank {b : UInt8} (hb : isAsciiBlank b = true) : [b] ∈ blanks := by
  rcases eq_of_isAsciiBlank hb with rfl | rfl | rfl | rfl | rfl | rfl <;> decide

/-- ASCII blanks at the start are trimmed with the rest. -/
theorem trimSpace_dropWhile (t : Text) :
    trimSpace (t.dropWhile isAsciiBlank) = trimSpace t := by
  unfold trimSpace
  congr 1
  induction t with
  | nil => rfl
  | cons b rest ih =>
    by_cases hb : isAsciiBlank b = true
    · rw [List.dropWhile_cons_of_pos hb, ih, ← List.singleton_append,
        trimSpaceStart_form_append (mem_blanks_of_isAsciiBlank hb) rest]
    · rw [List.dropWhile_cons_of_neg hb]

theorem trimSpace_blanks_append {lead : Text} (hlead : ∀ b ∈ lead, isAsciiBlank b = true)
    (t : Text) : trimSpace (lead ++ t) = trimSpace t := by
  induction lead with
  | nil => rfl
  | cons b rest ih =>
    rw [← ih fun c hc => hlead c (List.mem_cons_of_mem _ hc)]
    exact trimSpace_form_append (mem_blanks_of_isAsciiBlank (hlead b (List.mem_cons_self ..))) _

theorem trimSpace_append_blanks (t : Text) {trail : Text}
    (htrail : ∀ b ∈ trail, isAsciiBlank b = true) : trimSpace (t ++ trail) = trimSpace t := by
  induction trail generalizing t with
  | nil => rw [List.append_nil]
  | cons b rest ih =>
    rw [← List.singleton_append, ← List.append_assoc,
      ih _ fun c hc => htrail c (List.mem_cons_of_mem _ hc)]
    exact trimSpace_append_form (mem_blanks_of_isAsciiBlank (htrail b (List.mem_cons_self ..))) t

end Text

namespace Liquid

theorem leadingBlanks_eq (t : Text) : leadingBlanks t = (t.takeWhile Text.isAsciiBlank).length := by
  have h := congrArg List.length (List.takeWhile_append_dropWhile (p := Text.isAsciiBlank) (l := t))
  rw [List.length_append] at h
  unfold leadingBlanks Text.trimLeft
  omega

/-- The trimmed text, put after the ASCII blanks, ends inside the text. -/
theorem leadingBlanks_add_length_trimSpace_le (t : Text) :
    leadingBlanks t + (Text.trimSpace t).length ≤ t.length := by
  have h := Text.length_trimSpace_le (t.dropWhile Text.isAsciiBlank)
  have h' := (List.dropWhile_sublist (l := t) Text.isAsciiBlank).length_le
  rw [Text.trimSpace_dropWhile] at h
  unfold leadingBlanks Text.trimLeft
  omega

/-- The name and the rest of a tag do not reach past its markup, and the rest starts no earlier than
the name ends. -/
theorem splitTag_places (markup : Text) (start : Nat) :
    start + (splitTag markup start).1.length ≤ (splitTag markup start).2.2 ∧
      (splitTag markup start).2.2 + (splitTag markup start).2.1.length ≤ start + markup.length := by
  cases markup with
  | nil => exact ⟨Nat.le_refl _, Nat.le_refl _⟩
  | cons b rest =>
    simp only [splitTag]
    split
    · have h := leadingBlanks_add_length_trimSpace_le rest
      simp only [List.length_cons, List.length_nil]
      omega
    · have h := leadingBlanks_add_length_trimSpace_le
        ((b :: rest).dropWhile fun b => !Text.isAsciiBlank b)
      have h' := congrArg List.length
        (List.takeWhile_append_dropWhile (p := fun b => !Text.isAsciiBlank b) (l := b :: rest))
      rw [List.length_append] at h'
      dsimp only at h ⊢
      omega

/-- The parts of a tag depend on where it starts in their offset only. -/
theorem splitTag_start (markup : Text) (start : Nat) :
    splitTag markup start =
      ((splitTag markup 0).1, (splitTag markup 0).2.1, start + (splitTag markup 0).2.2) := by
  cases markup with
  | nil => rfl
  | cons b rest =>
    simp only [splitTag]
    split
    · simp only [Prod.mk.injEq, true_and]
      omega
    · simp only [Prod.mk.injEq, true_and]
      omega

end Liquid
end LiquidLint
