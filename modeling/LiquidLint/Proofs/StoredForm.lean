import Mathlib.Data.List.Chain
import LiquidLint.Proofs.BareTags
import LiquidLint.Proofs.Utf8Text
import LiquidLint.Source.File

/-!
# The stored form of a source

A source is put into the stored form of its file and read back (`sourceOf_encode`): line breaks that
were written in two bytes become one again, a byte order mark that was put in front is taken away, and
what was well-formed is not touched.  Without a mark the source may not start with one, and where line
breaks are single bytes none may be written in two.
-/

namespace LiquidLint
namespace Source

/-- No line feed stands behind a carriage return. -/
def PlainBreaks (t : Text) : Prop := t.IsChain fun (a b : UInt8) => ¬ (a = '\r' ∧ b = '\n')

theorem startsWith_crlf (a : UInt8) (t : Text) :
    Text.startsWith (a :: t) "\r\n" = true ↔ a = '\r' ∧ t.head? = some '\n' := by
  show (Text.dropStart? ['\r', '\n'] (a :: t)).isSome = true ↔ _
  cases t with
  | nil => by_cases ha : ('\r' : UInt8) = a <;> simp [Text.dropStart?, ha]
  | cons b t =>
    by_cases ha : ('\r' : UInt8) = a
    · by_cases hb : ('\n' : UInt8) = b
      · simp [Text.dropStart?, ha, hb]
      · simp [Text.dropStart?, ha, hb, Ne.symm hb]
    · simp [Text.dropStart?, ha, Ne.symm ha]

theorem plainBreaks_cons (a : UInt8) (t : Text) :
    PlainBreaks (a :: t) ↔ Text.startsWith (a :: t) "\r\n" = false ∧ PlainBreaks t := by
  unfold PlainBreaks
  rw [← Bool.not_eq_true, startsWith_crlf]
  cases t with
  | nil => simp
  | cons b t =>
    rw [List.isChain_cons_cons]
    simp

theorem plainBreaks_append (t u : Text) :
    PlainBreaks (t ++ u) ↔
      PlainBreaks t ∧ PlainBreaks u ∧ ¬ (t.getLast? = some '\r' ∧ u.head? = some '\n') := by
  unfold PlainBreaks
  rw [List.isChain_append]
  refine and_congr_right fun _ => and_congr_right fun _ => ⟨fun h hjoint => ?_, fun h a ha b hb => ?_⟩
  · exact h _ hjoint.1 _ hjoint.2 ⟨rfl, rfl⟩
  · rintro ⟨rfl, rfl⟩
    exact h ⟨ha, hb⟩

/-- Line breaks are plain where none in two bytes is found. -/
theorem hasText_crlf (t : Text) : Text.hasText t "\r\n" = false ↔ PlainBreaks t := by
  unfold Text.hasText
  induction t with
  | nil => exact iff_of_true rfl .nil
  | cons a t ih =>
    rw [plainBreaks_cons, ← ih, Text.offsetOf?]
    by_cases h : Text.startsWith (a :: t) "\r\n" = true
    · rw [if_pos h, h]
      exact iff_of_false nofun fun hfalse => nomatch hfalse.1
    · rw [if_neg h, Bool.not_eq_true] at *
      rw [h]
      simp

/-! ## Line breaks -/

/-- Where line breaks are plain there is none to replace. -/
theorem replaceText_of_plainBreaks {t : Text} (h : PlainBreaks t) :
    Text.replaceText t "\r\n" "\n" = t := by
  show Text.replaceFrom "\r\n" "\n" 0 t = t
  induction t with
  | nil => rfl
  | cons a t ih =>
    obtain ⟨hhead, hrest⟩ := (plainBreaks_cons a t).1 h
    rw [Text.replaceFrom, if_neg (Bool.eq_false_iff.1 hhead), ih hrest]

theorem replaceFrom_lf_cons (a : UInt8) (t : Text) :
    Text.replaceFrom "\n" "\r\n" 0 (a :: t) =
      (if a = '\n' then ("\r\n" : Text) else [a]) ++ Text.replaceFrom "\n" "\r\n" 0 t := by
  have hstarts : Text.startsWith (a :: t) "\n" = true ↔ a = '\n' := by
    show (Text.dropStart? ['\n'] (a :: t)).isSome = true ↔ _
    by_cases ha : ('\n' : UInt8) = a
    · simp [Text.dropStart?, ha]
    · simp [Text.dropStart?, ha, Ne.symm ha]
  rw [Text.replaceFrom]
  by_cases ha : a = '\n'
  · rw [if_pos (hstarts.2 ha), if_pos ha]
    rfl
  · rw [if_neg fun h => ha (hstarts.1 h), if_neg ha]
    rfl

/-- **Line breaks that were written in two bytes are found again.** -/
theorem replaceText_replaceText (t : Text) :
    Text.replaceText (Text.replaceText t "\n" "\r\n") "\r\n" "\n" = t := by
  show Text.replaceFrom "\r\n" "\n" 0 (Text.replaceFrom "\n" "\r\n" 0 t) = t
  -- a written text never starts with a line feed
  have hhead (t : Text) : (Text.replaceFrom "\n" "\r\n" 0 t).head? ≠ some '\n' := by
    cases t with
    | nil => nofun
    | cons a t =>
      rw [replaceFrom_lf_cons]
      by_cases ha : a = '\n'
      · rw [if_pos ha]
        exact fun h => absurd (Option.some.inj h) (by decide)
      · rw [if_neg ha]
        exact fun h => ha (Option.some.inj h)
  induction t with
  | nil => rfl
  | cons a t ih =>
    rw [replaceFrom_lf_cons]
    by_cases ha : a = '\n'
    · rw [if_pos ha, ha]
      show Text.replaceFrom "\r\n" "\n" 0 ('\r' :: '\n' :: Text.replaceFrom "\n" "\r\n" 0 t) = _
      rw [Text.replaceFrom, if_pos ((startsWith_crlf _ _).2 ⟨rfl, rfl⟩)]
      show ('\n' : UInt8) :: Text.replaceFrom "\r\n" "\n" 0 (Text.replaceFrom "\n" "\r\n" 0 t) = _
      rw [ih]
    · rw [if_neg ha, List.singleton_append, Text.replaceFrom,
        if_neg fun h => hhead t ((startsWith_crlf _ _).1 h).2, ih]

theorem replaceFrom_skip (p r : Text) (n : Nat) (t : Text) :
    Text.replaceFrom p r n t = Text.replaceFrom p r 0 (t.drop n) := by
  induction t generalizing n with
  | nil => cases n <;> rfl
  | cons b t ih =>
    cases n with
    | zero => rfl
    | succ n => exact ih n

/-- A text that starts with none of the written texts' first byte starts as before. -/
theorem startsWith_of_replaceFrom {p q r t : Text} {c : UInt8} (hc : c ∉ p)
    (h : Text.startsWith (Text.replaceFrom q (c :: r) 0 t) p = true) :
    Text.startsWith t p = true := by
  unfold Text.startsWith at h ⊢
  induction p generalizing t with
  | nil => rfl
  | cons a p ih =>
    obtain ⟨hne, hc⟩ := not_or.1 fun hmem => hc (List.mem_cons.2 hmem)
    cases t with
    | nil => cases h
    | cons b t =>
      rw [Text.replaceFrom] at h
      split at h
      · rw [List.cons_append, Text.dropStart?, if_neg (Ne.symm hne)] at h
        cases h
      · rw [Text.dropStart?] at h ⊢
        split at h
        · rename_i hab
          rw [if_pos hab]
          exact ih hc h
        · cases h

/-- What may be replaced anywhere may be replaced everywhere. -/
theorem wellFormed_replaceFrom {q r : Text} (hq : q ≠ [])
    (hswap : ∀ u v, Text.WellFormed (u ++ (q ++ v)) → Text.WellFormed (u ++ (r ++ v)))
    {u t : Text} (h : Text.WellFormed (u ++ t)) :
    Text.WellFormed (u ++ Text.replaceFrom q r 0 t) := by
  -- by the length of what is left; `u` is what stands before it, already written
  induction hlen : t.length using Nat.strong_induction_on generalizing u t with
  | _ n ih =>
    cases t with
    | nil => exact h
    | cons b t =>
      rw [Text.replaceFrom]
      split
      · rename_i hstarts
        obtain ⟨v, hv⟩ := Option.isSome_iff_exists.1 hstarts
        have hv := Text.dropStart?_eq_some.1 hv
        have hpos := List.length_pos_iff.2 hq
        have hlength := congrArg List.length hv
        have hdrop : t.drop (q.length - 1) = v := by
          have htail : t.drop (q.length - 1) = (b :: t).drop q.length := by
            rw [← Nat.sub_add_cancel hpos, List.drop_succ_cons, Nat.add_sub_cancel]
          rw [htail, hv, List.drop_left]
        rw [List.length_append] at hlength
        rw [replaceFrom_skip, hdrop, ← List.append_assoc]
        rw [hv] at h
        refine ih v.length (by omega) ?_ rfl
        rw [List.append_assoc]
        exact hswap u v h
      · have hnext := @ih t.length (by rw [← hlen]; exact Nat.lt_succ_self _) (u ++ [b]) t
          (by rwa [List.append_assoc]) rfl
        rwa [List.append_assoc] at hnext

/-- Line breaks may be written in two bytes. -/
theorem wellFormed_twoByteBreaks {t : Text} (h : Text.WellFormed t) :
    Text.WellFormed (Text.replaceText t "\n" "\r\n") := by
  refine @wellFormed_replaceFrom "\n" "\r\n" (by decide) (fun u v hv => ?_) [] t h
  have hbreak : Text.WellFormed "\r\n" := ⟨['\r', '\n'], rfl⟩
  obtain ⟨hu, hv⟩ := hv.cut (by decide)
  exact hu.append (hbreak.append hv)

/-- Line breaks in two bytes may be written in one. -/
theorem wellFormed_plainBreaks {t : Text} (h : Text.WellFormed t) :
    Text.WellFormed (Text.replaceText t "\r\n" "\n") := by
  refine @wellFormed_replaceFrom "\r\n" "\n" (by decide) (fun u v hv => ?_) [] t h
  obtain ⟨hu, hv⟩ := hv.cut (by decide)
  exact hu.append hv

/-! ## Invalid bytes -/

theorem plainBreaks_replacement {u : Text} (hu : PlainBreaks u) :
    PlainBreaks (Text.ofChar Text.replacement ++ u) ∧
      (Text.ofChar Text.replacement ++ u).head? ≠ some '\n' := by
  have hbytes : Text.ofChar Text.replacement = [0xEF, 0xBF, 0xBD] := by decide
  have hplain : PlainBreaks [0xEF, 0xBF, 0xBD] := by
    unfold PlainBreaks
    decide
  rw [hbytes]
  refine ⟨(plainBreaks_append _ _).2 ⟨hplain, hu, fun hjoint => ?_⟩, fun hhead => ?_⟩
  · exact absurd (Option.some.inj hjoint.1) (by decide)
  · exact absurd (Option.some.inj hhead) (by decide)

/-- Replacing what is invalid brings in no line break in two bytes. -/
theorem plainBreaks_replaceInvalid {t : Text} (h : PlainBreaks t) :
    PlainBreaks (Text.replaceInvalid t) ∧
      ((Text.replaceInvalid t).head? = some '\n' → t.head? = some '\n') := by
  fun_induction Text.replaceInvalid t with
  | case1 => exact ⟨.nil, id⟩
  | case2 b rest c more hread hle ih =>
    have hcut := Text.eq_append_of_nextChar? hread
    rw [hcut] at h ⊢
    obtain ⟨hchar, hmore, hjoint⟩ := (plainBreaks_append _ _).1 h
    obtain ⟨hplain, hhead⟩ := ih hmore
    refine ⟨(plainBreaks_append _ _).2 ⟨hchar, hplain, fun hnew => ?_⟩, fun hfirst => ?_⟩
    · exact hjoint ⟨hnew.1, hhead hnew.2⟩
    · rwa [List.head?_append_of_ne_nil _ (Text.ofChar_ne_nil c)] at hfirst ⊢
  | case3 => exact ⟨.nil, fun hfirst => by cases hfirst⟩
  | case4 b rest _ hseq ih =>
    obtain ⟨hplain, hhead⟩ := plainBreaks_replacement (ih ((plainBreaks_cons b rest).1 h).2).1
    exact ⟨hplain, fun hfirst => absurd hfirst hhead⟩
  | case5 b rest _ n lo hi hseq ih =>
    have hrest := ((plainBreaks_cons b rest).1 h).2
    rw [← List.take_append_drop (Text.followers n lo hi rest).length rest] at hrest
    obtain ⟨hplain, hhead⟩ := plainBreaks_replacement (ih ((plainBreaks_append _ _).1 hrest).2.1).1
    exact ⟨hplain, fun hfirst => absurd hfirst hhead⟩

/-! ## Storing and reading -/

/-- The text can be stored in the form of the file and read back. -/
structure Storable (f : SourceFile) (x : Text) : Prop where
  /-- A marked file is decoded, so that it has to be well-formed. -/
  valid : f.marked = true → Text.WellFormed x
  /-- Where line breaks are single bytes, no two bytes may look like one. -/
  breaks : f.lineBreak = .lf → PlainBreaks x
  /-- Without a mark the text may not start with one. -/
  mark : f.marked = false → Text.startsWith x byteOrderMark = false

theorem unmarked_mark (t : Text) : unmarked (byteOrderMark ++ t) = Text.replaceInvalid t := by
  unfold unmarked
  rw [Text.dropStart?_append]

theorem unmarked_of_startsWith {t : Text} (h : Text.startsWith t byteOrderMark = false) :
    unmarked t = t := by
  unfold unmarked
  rw [Option.isSome_eq_false_iff.1 h |> Option.isNone_iff_eq_none.1]

theorem not_mem_byteOrderMark {b : UInt8} (h : b.toNat < 0x80) : b ∉ byteOrderMark := by
  unfold byteOrderMark
  simp only [List.mem_cons, List.not_mem_nil, or_false, ← UInt8.toNat_inj]
  simp only [UInt8.reduceToNat]
  omega

/-- **A source that is put into stored form is read back as it was.** -/
theorem Storable.sourceOf_encode {f : SourceFile} {x : Text} (h : Storable f x) :
    sourceOf (f.encode x) = x := by
  -- the text with the line breaks of the file
  obtain ⟨broken, hencode, hvalid, hmark, hbreaks⟩ : ∃ broken : Text,
      f.encode x = (if f.marked then byteOrderMark ++ broken else broken) ∧
      (f.marked = true → Text.WellFormed broken) ∧
      (f.marked = false → Text.startsWith broken byteOrderMark = false) ∧
      Text.replaceText broken "\r\n" "\n" = x := by
    unfold SourceFile.encode
    cases hbreak : f.lineBreak with
    | lf => exact ⟨x, rfl, h.valid, h.mark, replaceText_of_plainBreaks (h.breaks hbreak)⟩
    | crlf =>
      refine ⟨Text.replaceText x "\n" "\r\n", rfl, fun hmarked => ?_, fun hmarked => ?_,
        replaceText_replaceText x⟩
      · exact wellFormed_twoByteBreaks (h.valid hmarked)
      · refine Bool.eq_false_iff.2 fun hstarts => ?_
        have := @startsWith_of_replaceFrom byteOrderMark "\n" "\n" x '\r'
          (not_mem_byteOrderMark (by decide)) hstarts
        rw [h.mark hmarked] at this
        cases this
  rw [hencode]
  unfold sourceOf
  cases hmarked : f.marked with
  | true => rw [if_pos rfl, unmarked_mark, (hvalid hmarked).replaceInvalid_eq, hbreaks]
  | false => rw [if_neg Bool.false_ne_true, unmarked_of_startsWith (hmark hmarked), hbreaks]

/-- The source of a file can be stored. -/
theorem storable_source (path stored : Text) (v : Int) :
    Storable (SourceFile.parse path stored v) (SourceFile.parse path stored v).source where
  valid hmarked := by
    have hmarked : Text.startsWith stored byteOrderMark = true := hmarked
    obtain ⟨rest, hrest⟩ := Option.isSome_iff_exists.1 hmarked
    show Text.WellFormed (sourceOf stored)
    unfold sourceOf
    rw [Text.dropStart?_eq_some.1 hrest, unmarked_mark]
    exact wellFormed_plainBreaks (Text.wellFormed_replaceInvalid rest)
  breaks hbreak := by
    have hbreak : LineBreak.of stored = .lf := hbreak
    have hplain : PlainBreaks stored := by
      unfold LineBreak.of at hbreak
      split at hbreak
      · cases hbreak
      · rename_i hnone
        exact (hasText_crlf stored).1 (Bool.eq_false_iff.2 hnone)
    have hunmarked : PlainBreaks (unmarked stored) := by
      unfold unmarked
      split
      · rename_i rest hrest
        rw [Text.dropStart?_eq_some.1 hrest] at hplain
        exact (plainBreaks_replaceInvalid ((plainBreaks_append _ _).1 hplain).2.1).1
      · exact hplain
    show PlainBreaks (sourceOf stored)
    unfold sourceOf
    rwa [replaceText_of_plainBreaks hunmarked]
  mark hmarked := by
    have hmarked : Text.startsWith stored byteOrderMark = false := hmarked
    show Text.startsWith (sourceOf stored) byteOrderMark = false
    unfold sourceOf
    rw [unmarked_of_startsWith hmarked]
    refine Bool.eq_false_iff.2 fun hstarts => ?_
    have := @startsWith_of_replaceFrom byteOrderMark "\r\n" [] stored '\n'
      (not_mem_byteOrderMark (by decide)) hstarts
    rw [hmarked] at this
    cases this

/-! ## Spaces -/

/-- What stands around ASCII bytes of a well-formed text, with an ASCII byte before or behind them,
is well-formed. -/
theorem wellFormed_around {u g v : Text} (h : Text.WellFormed (u ++ (g ++ v)))
    (hg : ∀ b ∈ g, b.toNat < 0x80)
    (hedge : (∃ b ∈ u.getLast?, b.toNat < 0x80) ∨ ∃ b ∈ v.head?, b.toNat < 0x80) :
    Text.WellFormed u ∧ Text.WellFormed v := by
  rcases List.eq_nil_or_concat' g with rfl | ⟨g', z, rfl⟩
  · rcases hedge with ⟨b, hb, hascii⟩ | ⟨b, hb, hascii⟩
    · obtain ⟨u, rfl⟩ := List.getLast?_eq_some_iff.1 hb
      rw [List.append_assoc] at h
      obtain ⟨hu, hv⟩ := h.cut hascii
      exact ⟨hu.append (Text.wellFormed_singleton hascii), hv⟩
    · obtain ⟨v, rfl⟩ := List.head?_eq_some_iff.1 hb
      obtain ⟨hu, hv⟩ := h.cut hascii
      exact ⟨hu, (Text.wellFormed_singleton hascii).append hv⟩
  · have hz := hg z (List.mem_append_right _ (List.mem_singleton.2 rfl))
    rw [List.append_assoc, ← List.append_assoc u] at h
    obtain ⟨hfront, hv⟩ := h.cut hz
    refine ⟨?_, hv⟩
    cases g' with
    | nil => rwa [List.append_nil] at hfront
    | cons a g' => exact (hfront.cut (hg a (List.mem_cons_self ..))).1

/-- Whether a text starts with bytes that do not hold `c` is settled in front of `c`. -/
theorem startsWith_of_cons {p u v w : Text} {c : UInt8} (hc : c ∉ p)
    (h : Text.startsWith (u ++ c :: v) p = true) : Text.startsWith (u ++ w) p = true := by
  unfold Text.startsWith at h ⊢
  induction p generalizing u with
  | nil => rfl
  | cons a p ih =>
    obtain ⟨hne, hc⟩ := not_or.1 fun hmem => hc (List.mem_cons.2 hmem)
    cases u with
    | nil =>
      rw [List.nil_append, Text.dropStart?, if_neg (Ne.symm hne)] at h
      cases h
    | cons b u =>
      rw [List.cons_append, Text.dropStart?] at h ⊢
      split at h
      · rename_i hab
        rw [if_pos hab]
        exact ih hc h
      · cases h

/-- **A space in place of blanks can be stored where the blanks can.** -/
theorem Storable.space {f : SourceFile} {u g v : Text} (h : Storable f (u ++ (g ++ v)))
    (hg : ∀ b ∈ g, b.toNat < 0x80)
    (hedge : (∃ b ∈ u.getLast?, b.toNat < 0x80) ∨ ∃ b ∈ v.head?, b.toNat < 0x80) :
    Storable f (u ++ (" " ++ v)) where
  valid hmarked := by
    have hspace : Text.WellFormed " " := ⟨[' '], rfl⟩
    obtain ⟨hu, hv⟩ := wellFormed_around (h.valid hmarked) hg hedge
    exact hu.append (hspace.append hv)
  breaks hbreak := by
    obtain ⟨hu, hgv, _⟩ := (plainBreaks_append _ _).1 (h.breaks hbreak)
    obtain ⟨_, hv, _⟩ := (plainBreaks_append _ _).1 hgv
    have hspace : PlainBreaks (" " ++ v) :=
      (plainBreaks_append _ _).2 ⟨List.isChain_singleton _, hv, fun hjoint =>
        absurd (Option.some.inj hjoint.1) (by decide)⟩
    exact (plainBreaks_append _ _).2 ⟨hu, hspace, fun hjoint =>
      absurd (Option.some.inj hjoint.2) (by decide)⟩
  mark hmarked := by
    refine Bool.eq_false_iff.2 fun hstarts => ?_
    have := @startsWith_of_cons byteOrderMark u v (g ++ v) ' ' (not_mem_byteOrderMark (by decide))
      hstarts
    rw [h.mark hmarked] at this
    cases this

end Source
end LiquidLint
