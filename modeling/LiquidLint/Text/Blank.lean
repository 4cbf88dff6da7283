import LiquidLint.Text.Basic

/-!
# White space

Two notions of white space meet in a template: the six ASCII bytes that separate the words of a tag,
and the characters with the Unicode property White_Space, in their UTF-8 form, that are trimmed from
both ends of a text.
-/

namespace LiquidLint
namespace Text

/-- Whether `b` is a space, tab, line feed, carriage return, form feed or vertical tab. -/
def isAsciiBlank (b : UInt8) : Bool := b = 0x20 || (0x09 ≤ b && b ≤ 0x0D)

/-- Whether `b` is white space of a bare block tag: an ASCII blank other than the vertical tab. -/
def isTagBlank (b : UInt8) : Bool := isAsciiBlank b && b ≠ 0x0B

/-- The UTF-8 forms of the characters with the property White_Space. -/
def blanks : List Text :=
  [[0x20], [0x0A], [0x09], [0x0D], [0x0B], [0x0C], [0xC2, 0x85], [0xC2, 0xA0], [0xE1, 0x9A, 0x80],
    [0xE2, 0x80, 0x80], [0xE2, 0x80, 0x81], [0xE2, 0x80, 0x82], [0xE2, 0x80, 0x83],
    [0xE2, 0x80, 0x84], [0xE2, 0x80, 0x85], [0xE2, 0x80, 0x86], [0xE2, 0x80, 0x87],
    [0xE2, 0x80, 0x88], [0xE2, 0x80, 0x89], [0xE2, 0x80, 0x8A], [0xE2, 0x80, 0xA8],
    [0xE2, 0x80, 0xA9], [0xE2, 0x80, 0xAF], [0xE2, 0x81, 0x9F], [0xE3, 0x80, 0x80]]

/-- The same forms, each written backwards. -/
def blanksReversed : List Text := blanks.map List.reverse

/-- What follows the first of `forms` that `t` starts with. -/
def dropForm? (forms : List Text) (t : Text) : Option Text := forms.findSome? (dropStart? · t)

/-- `t` without any of `forms` at its start. -/
def trimForms (forms : List Text) (t : Text) : Text :=
  match dropForm? forms t with
  | none => t
  | some rest => if rest.length < t.length then trimForms forms rest else t
termination_by t.length

/-- `t` without white-space characters at its start. -/
def trimSpaceStart (t : Text) : Text := trimForms blanks t

/-- `t` without white-space characters at its end. -/
def trimSpaceEnd (t : Text) : Text := (trimForms blanksReversed t.reverse).reverse

/-- `t` without white-space characters at both ends. -/
def trimSpace (t : Text) : Text := trimSpaceEnd (trimSpaceStart t)

/-- The words of `t`: its longest runs without white-space characters. -/
def wordsFrom (word : Text) (t : Text) : List Text :=
  let closed := if word.isEmpty then [] else [word.reverse]
  match t with
  | [] => closed
  | b :: rest =>
    match dropForm? blanks (b :: rest) with
    | some more =>
      if more.length < rest.length + 1 then closed ++ wordsFrom [] more else closed
    | none => wordsFrom (b :: word) rest
termination_by t.length

/-- The words of `t`, from left to right. -/
def words (t : Text) : List Text := wordsFrom [] t

/-! ## Lengths -/

theorem length_of_dropStart? {p t r : Text} (h : dropStart? p t = some r) :
    t.length = p.length + r.length := by
  induction p generalizing t with
  | nil => simp_all [dropStart?]
  | cons a p ih =>
    cases t with
    | nil => simp [dropStart?] at h
    | cons b t =>
      simp only [dropStart?] at h
      split at h
      · have := ih h
        simp only [List.length_cons]
        omega
      · simp at h

theorem length_trimForms_le (forms : List Text) (t : Text) :
    (trimForms forms t).length ≤ t.length := by
  fun_induction trimForms forms t with
  | case1 => simp
  | case2 t rest _ hlt ih => omega
  | case3 => simp

theorem length_trimSpace_le (t : Text) : (trimSpace t).length ≤ t.length := by
  have h := length_trimForms_le blanks t
  have h' := length_trimForms_le blanksReversed (trimForms blanks t).reverse
  simp only [trimSpace, trimSpaceEnd, trimSpaceStart, List.length_reverse] at *
  omega

/-! ## What is left after trimming -/

theorem suffix_of_dropStart? {p t r : Text} (h : dropStart? p t = some r) : r <:+ t := by
  induction p generalizing t with
  | nil => simp_all [dropStart?]
  | cons a p ih =>
    cases t with
    | nil => simp [dropStart?] at h
    | cons b t =>
      simp only [dropStart?] at h
      split at h
      · exact (ih h).trans (List.suffix_cons b t)
      · simp at h

theorem suffix_of_dropForm? {forms : List Text} {t r : Text} (h : dropForm? forms t = some r) :
    r <:+ t := by
  obtain ⟨p, _, hp⟩ := List.exists_of_findSome?_eq_some h
  exact suffix_of_dropStart? hp

theorem trimForms_suffix (forms : List Text) (t : Text) : trimForms forms t <:+ t := by
  fun_induction trimForms forms t with
  | case1 => exact List.suffix_refl _
  | case2 t rest h _ ih => exact ih.trans (suffix_of_dropForm? h)
  | case3 => exact List.suffix_refl _

theorem dropForm?_blanks_isSome {b : UInt8} (t : Text) (hb : isAsciiBlank b = true) :
    ∃ r, dropForm? blanks (b :: t) = some r ∧ r.length < (b :: t).length := by
  have : b = 0x20 ∨ b = 0x0A ∨ b = 0x09 ∨ b = 0x0D ∨ b = 0x0B ∨ b = 0x0C := by
    simp only [isAsciiBlank, Bool.or_eq_true, decide_eq_true_eq, Bool.and_eq_true,
      UInt8.le_iff_toNat_le] at hb
    simp only [← UInt8.toNat_inj] at *
    simp only [UInt8.reduceToNat] at *
    omega
  refine ⟨t, ?_, by simp⟩
  rcases this with rfl | rfl | rfl | rfl | rfl | rfl <;> simp [dropForm?, blanks, dropStart?]

theorem isAsciiBlank_of_trimForms {b : UInt8} {t r : Text} (h : trimForms blanks t = b :: r) :
    isAsciiBlank b = false := by
  fun_induction trimForms blanks t with
  | case1 t hnone =>
    subst h
    cases hb : isAsciiBlank b with
    | false => rfl
    | true =>
      obtain ⟨r', hr, _⟩ := dropForm?_blanks_isSome r hb
      simp [hr] at hnone
  | case2 t rest _ _ ih => exact ih h
  | case3 t rest hsome hlt =>
    subst h
    cases hb : isAsciiBlank b with
    | false => rfl
    | true =>
      obtain ⟨r', hr, hr'⟩ := dropForm?_blanks_isSome r hb
      rw [hr] at hsome
      exact absurd (Option.some.inj hsome ▸ hr') hlt

/-- A trimmed text starts with no ASCII blank. -/
theorem isAsciiBlank_of_trimSpace {b : UInt8} {t r : Text} (h : trimSpace t = b :: r) :
    isAsciiBlank b = false := by
  have hsuf := trimForms_suffix blanksReversed (trimSpaceStart t).reverse
  rw [← List.reverse_prefix, List.reverse_reverse] at hsuf
  have hpre : b :: r <+: trimSpaceStart t := by
    rw [← h]
    exact hsuf
  obtain ⟨more, hmore⟩ := hpre
  exact isAsciiBlank_of_trimForms (r := r ++ more) (by simpa [trimSpaceStart] using hmore.symm)

end Text
end LiquidLint
