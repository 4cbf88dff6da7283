import LiquidLint.Proofs.PathNames
import LiquidLint.Proofs.StoredEdits

/-!
# Stored form and source are inverse

A file is stored with one kind of line break, or with both.  `StoredForm` shows that a source comes back
from its stored form; here is the other direction: a stored content comes back from its source unless it
holds both kinds (`encode_inverse`).

The reason is on the side of what is written, not of what is read: in a text whose line breaks were
written in two bytes, every line feed stands behind a carriage return (`pairedBreaks_twoByteBreaks`),
so nothing else can come back; and such a text does come back (`PairedBreaks.twoByteBreaks_plainBreaks`),
also where carriage returns stand by themselves or in runs.
-/

namespace LiquidLint
namespace Source

/-- Every line feed stands behind a carriage return. -/
def PairedBreaks (t : Text) : Prop :=
  ∀ u v : Text, t = u ++ ('\n' : UInt8) :: v → u.getLast? = some ('\r' : UInt8)

/-- What follows the first byte, or the first two, is paired too if they do not end in a carriage return
that its first line feed needs. -/
theorem PairedBreaks.of_append {t u : Text} (h : PairedBreaks (t ++ u))
    (hjoint : t.getLast? = some ('\r' : UInt8) → u.head? ≠ some ('\n' : UInt8)) : PairedBreaks u := by
  intro v w hu
  have hlast := h (t ++ v) w (by rw [hu, List.append_assoc])
  cases v with
  | nil =>
    rw [List.append_nil] at hlast
    exact absurd (congrArg List.head? hu) (hjoint hlast)
  | cons b v => rwa [List.getLast?_append_of_ne_nil _ (List.cons_ne_nil b v)] at hlast

/-- In front of a paired text may stand anything that holds no line feed. -/
theorem PairedBreaks.append {t u : Text} (ht : ('\n' : UInt8) ∉ t) (h : PairedBreaks u) :
    PairedBreaks (t ++ u) := by
  intro v w hcut
  rcases List.append_eq_append_iff.1 hcut with ⟨v', rfl, hrest⟩ | ⟨t', rfl, hrest⟩
  · have hlast := h v' w hrest
    have hne : v' ≠ [] := fun hnil => by simp [hnil] at hlast
    rw [List.getLast?_append_of_ne_nil _ hne, hlast]
  · cases t' with
    | nil =>
      -- the line feed is the first byte behind `t`
      exact absurd (h [] w hrest.symm) (by decide)
    | cons b t' =>
      obtain ⟨rfl, -⟩ := List.cons.inj hrest
      exact absurd (List.mem_append_right _ (List.mem_cons_self ..)) ht

/-- **Written in two bytes, line breaks are paired.** -/
theorem pairedBreaks_twoByteBreaks (t : Text) : PairedBreaks (Text.replaceText t "\n" "\r\n") := by
  show PairedBreaks (Text.replaceFrom "\n" "\r\n" 0 t)
  induction t with
  | nil => exact fun u v h => absurd h (by cases u <;> nofun)
  | cons a t ih =>
    rw [replaceFrom_lf_cons]
    by_cases ha : a = ('\n' : UInt8)
    · rw [if_pos ha]
      intro u v h
      rcases u with _ | ⟨b, _ | ⟨c, u⟩⟩
      · exact absurd (List.cons.inj h).1 (by decide)
      · rw [← (List.cons.inj h).1]
        rfl
      · have hrest := (List.cons.inj (List.cons.inj h).2)
        have hlast := ih u v hrest.2
        have hne : u ≠ [] := fun hnil => by simp [hnil] at hlast
        rw [← hlast]
        exact List.getLast?_append_of_ne_nil [b, c] hne
    · rw [if_neg ha]
      exact ih.append fun hmem => ha (List.mem_singleton.1 hmem).symm

/-- **Paired line breaks come back** when they are written in one byte and in two again. -/
theorem PairedBreaks.twoByteBreaks_plainBreaks {t : Text} (h : PairedBreaks t) :
    Text.replaceText (Text.replaceText t "\r\n" "\n") "\n" "\r\n" = t := by
  show Text.replaceFrom "\n" "\r\n" 0 (Text.replaceFrom "\r\n" "\n" 0 t) = t
  -- by the length of what is left, as a line break is read in one go
  induction hlen : t.length using Nat.strong_induction_on generalizing t with
  | _ n ih =>
    cases t with
    | nil => rfl
    | cons a t =>
      rw [Text.replaceFrom]
      by_cases hstarts : Text.startsWith (a :: t) "\r\n" = true
      · rw [if_pos hstarts]
        obtain ⟨rfl, hhead⟩ := (startsWith_crlf a t).1 hstarts
        obtain ⟨t, rfl⟩ := List.head?_eq_some_iff.1 hhead
        have hrest := @PairedBreaks.of_append ['\r', '\n'] t h fun hlast =>
          absurd (Option.some.inj hlast) (by decide)
        have hback := ih t.length (by rw [← hlen]; simp only [List.length_cons]; omega) hrest rfl
        show Text.replaceFrom "\n" "\r\n" 0 ('\n' :: Text.replaceFrom "\r\n" "\n" 0 t) = _
        rw [replaceFrom_lf_cons, if_pos rfl, hback]
        rfl
      · rw [if_neg hstarts]
        have ha : a ≠ ('\n' : UInt8) := fun heq => absurd (h [] t (by rw [heq]; rfl)) (by decide)
        have hrest := @PairedBreaks.of_append [a] t h fun hlast hhead =>
          hstarts ((startsWith_crlf a t).2 ⟨Option.some.inj hlast, hhead⟩)
        have hback := ih t.length (by rw [← hlen]; simp only [List.length_cons]; omega) hrest rfl
        rw [replaceFrom_lf_cons, if_neg ha, hback]
        rfl

/-! ## What reading looks for -/

theorem startsWith_iff_begins {t p : Text} : Text.startsWith t p = true ↔ p <+: t :=
  Text.startsWith_iff.trans (exists_congr fun _ => eq_comm)

/-- Line breaks are plain where there is none in two bytes. -/
theorem plainBreaks_iff {t : Text} : PlainBreaks t ↔ ¬ ("\r\n" : Text) <:+: t := by
  induction t with
  | nil => exact iff_of_true .nil fun h => nomatch List.infix_nil.1 h
  | cons a t ih =>
    rw [plainBreaks_cons, ← Bool.not_eq_true, startsWith_iff_begins, ih, List.infix_cons_iff, not_or]

theorem lineBreak_of {content : Text} :
    LineBreak.of content = .crlf ↔ ("\r\n" : Text) <:+: content := by
  unfold LineBreak.of
  cases h : Text.hasText content "\r\n" with
  | false => exact iff_of_false nofun (plainBreaks_iff.1 ((hasText_crlf content).1 h))
  | true =>
    refine iff_of_true rfl (Classical.byContradiction fun hnone => ?_)
    rw [(hasText_crlf content).2 (plainBreaks_iff.2 hnone)] at h
    cases h

/-- A mark is taken off a well-formed content, and what follows it stays as it is. -/
theorem unmarked_of_wellFormed {content : Text} (hcontent : Text.WellFormed content) :
    content = (if Text.startsWith content byteOrderMark then byteOrderMark else []) ++
      unmarked content := by
  cases hmark : Text.startsWith content byteOrderMark with
  | false => rw [if_neg Bool.false_ne_true, List.nil_append, unmarked_of_startsWith hmark]
  | true =>
    obtain ⟨rest, rfl⟩ := startsWith_iff_begins.1 hmark
    have hrest : Text.WellFormed rest := by
      obtain ⟨cs, hcs⟩ := hcontent
      -- the mark is the first character
      cases cs with
      | nil => exact nomatch hcs
      | cons c cs =>
        have hread := Text.nextChar?_ofChar c (Text.ofChars cs)
        have hfirst : Text.nextChar? (byteOrderMark ++ rest) = some (Char.ofNat 0xFEFF, rest) :=
          Text.nextChar?_ofChar (Char.ofNat 0xFEFF) rest
        have hcons : byteOrderMark ++ rest = Text.ofChar c ++ Text.ofChars cs := hcs
        rw [hcons, hread] at hfirst
        exact ⟨cs, (Prod.mk.inj (Option.some.inj hfirst)).2.symm⟩
    rw [if_pos rfl, unmarked_mark, hrest.replaceInvalid_eq]

/-! ## Both directions -/

/-- A content comes back from the source of its file exactly if it does not hold line breaks of both kinds. -/
theorem encode_source_iff (path : Text) {content : Text} (hcontent : Text.WellFormed content) (version : Int) :
    let f := SourceFile.parse path content version
    f.encode f.source = content ↔ ¬ ("\r\n" : Text) <:+: content ∨ PairedBreaks content := by
  intro f
  have hmarked : f.marked = Text.startsWith content byteOrderMark := rfl
  have hsource : f.source = Text.replaceText (unmarked content) "\r\n" "\n" := rfl
  have hcut := unmarked_of_wellFormed hcontent
  rw [← hmarked] at hcut
  -- the content is a mark, or nothing, in front of the body
  generalize unmarked content = body at hsource hcut
  obtain ⟨lead, hlead, hmark⟩ : ∃ lead : Text, lead = (if f.marked then byteOrderMark else []) ∧
      ('\n' : UInt8) ∉ lead ∧ lead.getLast? ≠ some ('\r' : UInt8) := by
    cases f.marked with
    | false => exact ⟨[], rfl, List.not_mem_nil, by decide⟩
    | true => exact ⟨byteOrderMark, rfl, by decide, by decide⟩
  rw [← hlead] at hcut
  have hencode : f.encode f.source = lead ++ f.lineBreak.spell f.source := by
    rw [SourceFile.encode_eq, hlead]
  cases hbreak : f.lineBreak with
  | lf =>
    have hplain : ¬ ("\r\n" : Text) <:+: content := fun h => by
      rw [show f.lineBreak = .crlf from lineBreak_of.2 h] at hbreak
      cases hbreak
    have hbody : PlainBreaks body := by
      refine plainBreaks_iff.2 fun h => hplain ?_
      rw [hcut]
      exact h.trans (List.suffix_append ..).isInfix
    refine iff_of_true ?_ (.inl hplain)
    rw [hencode, hbreak, LineBreak.spell_lf, hsource, replaceText_of_plainBreaks hbody, hcut]
  | crlf =>
    have hsome : ("\r\n" : Text) <:+: content := lineBreak_of.1 hbreak
    rw [hencode, hbreak, LineBreak.spell_crlf]
    constructor
    · intro hback
      rw [← hback]
      exact .inr ((pairedBreaks_twoByteBreaks f.source).append hmark.1)
    · rintro (hnone | hpaired)
      · exact absurd hsome hnone
      · rw [hcut] at hpaired ⊢
        have hbody := hpaired.of_append fun hlast => absurd hlast hmark.2
        rw [hsource, hbody.twoByteBreaks_plainBreaks]

/-- A text can be stored in a file if it looks like a source of that file. -/
theorem storable_of {f : SourceFile} {x : Text} (hx : Text.WellFormed x)
    (hbreaks : f.lineBreak = .crlf ∨ ¬ ("\r\n" : Text) <:+: x)
    (hstart : f.marked = true ∨ ¬ byteOrderMark <+: x) : Storable f x := by
  refine ⟨fun _ => hx, fun hlf => ?_, fun hunmarked => ?_⟩
  · refine plainBreaks_iff.2 (hbreaks.resolve_left fun hcrlf => ?_)
    rw [hlf] at hcrlf
    cases hcrlf
  · have hnone := hstart.resolve_left fun hmark => by rw [hunmarked] at hmark; cases hmark
    exact Bool.eq_false_iff.2 fun hsome => hnone (startsWith_iff_begins.1 hsome)

/-- **Stored form and source are inverse.**  A content comes back from the source of its file exactly if
it does not hold line breaks of both kinds; and a text comes back from its stored form in a file if it
looks like a source of that file: without line breaks in two bytes unless the file has them, and without
a byte order mark at its start unless the file has one. -/
theorem encode_inverse (path : Text) {content : Text} (hcontent : Text.WellFormed content)
    (version : Int) :
    let f := SourceFile.parse path content version
    (f.encode f.source = content ↔ ¬ ("\r\n" : Text) <:+: content ∨ PairedBreaks content) ∧
      ∀ x : Text, Text.WellFormed x → (f.lineBreak = .crlf ∨ ¬ ("\r\n" : Text) <:+: x) →
        (f.marked = true ∨ ¬ byteOrderMark <+: x) →
        ∀ version' : Int, (SourceFile.parse path (f.encode x) version').source = x := by
  intro f
  exact ⟨encode_source_iff path hcontent version, fun x hx hbreaks hstart version' =>
    (storable_of hx hbreaks hstart).sourceOf_encode⟩

/-- A marked content with a lone carriage return in front of a line break, and a text with line breaks
of both kinds that is stored in its file. -/
theorem encode_inverse_marked :
    let content : Text := byteOrderMark ++ "a\r\r\nb"
    let x : Text := byteOrderMark ++ "c\r\nd\n"
    let f := SourceFile.parse "a.liquid" content 1
    Text.WellFormed content ∧ f.source = "a\r\nb" ∧ f.encode f.source = content ∧
      (SourceFile.parse "a.liquid" (f.encode x) 2).source = x := by
  intro content x f
  have hcontent : Text.WellFormed content :=
    ⟨[Char.ofNat 0xFEFF, 'a', '\r', '\r', '\n', 'b'], by decide⟩
  have hx : Text.WellFormed x := ⟨[Char.ofNat 0xFEFF, 'c', '\r', '\n', 'd', '\n'], by decide⟩
  have hsome : ("\r\n" : Text) <:+: content := ⟨byteOrderMark ++ "a\r", "b", by decide⟩
  have hpaired : PairedBreaks content := by
    have hbreaks : Text.replaceText "a\r\nb" "\n" "\r\n" = ("a\r\r\nb" : Text) := by decide
    have hbody := pairedBreaks_twoByteBreaks "a\r\nb"
    rw [hbreaks] at hbody
    exact hbody.append (by decide)
  obtain ⟨hback, hforth⟩ := encode_inverse "a.liquid" hcontent 1
  exact ⟨hcontent, by decide +kernel, hback.2 (.inr hpaired),
    hforth x hx (.inl (lineBreak_of.2 hsome)) (.inl (by decide +kernel)) 2⟩

end Source
end LiquidLint
