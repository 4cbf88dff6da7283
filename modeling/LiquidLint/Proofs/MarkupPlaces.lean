import LiquidLint.Proofs.CleanFixes
import LiquidLint.Proofs.TextPlaces
import LiquidLint.Proofs.TokenTexts

/-!
# Where the markup of a node stands

The markup of a variable or tag is put together from what stands between delimiters, or in a line of a
`liquid` tag, by up to four steps that trim and split; its offset is counted along.  By the lemmas on one
step (`Stands.trim`, `Stands.splitTag`, `Stands.lineTokens`) it stands where it is said to stand, or
further on and then behind a blank that was overlooked in the same token (`Token.Located`).  The tree takes
markup and offset over as they are, so the same holds of its nodes (`markup_stands`).

Without an overlooked blank the place is exact.  With one it is not, which is shown by a variable whose
name stands behind a no-break space (`markup_displaced`).
-/

namespace LiquidLint
namespace Liquid

/-! ## Tokens -/

/-- What stands between delimiters. -/
theorem stands_delimited {src : Text} {tok : Token} (htok : tok ∈ tokens src)
    (hkind : ¬ tok.kind.IsText) :
    Stands src tok.start tok.markupStart tok.markup ∧ Text.startsWide tok.markup = false := by
  obtain ⟨d, inner, heq, htext⟩ := exists_delimited htok hkind
  have hread := heq.trans (Token.delimited_eq d tok.start inner)
  have hinner := Inner.text_ofText inner
  generalize Inner.ofText inner = i at hread hinner
  -- the body stands behind the opener and its dash
  have hcut : d.opener ++ (inner ++ d.closer) =
      (d.opener ++ Inner.dash i.left) ++ (i.body ++ (Inner.dash i.right ++ d.closer)) := by
    rw [← hinner, Inner.text]
    simp only [List.append_assoc]
  have hat := standsAt_of_slice (by cases d <;> simp [Delimiter.opener]) (htext.trans hcut)
  have hwhole : Stands src tok.start tok.start _ := ⟨tok.start, Nat.le_refl _, hat, .inl rfl⟩
  have hlead : (d.opener ++ Inner.dash i.left).getLast?.any leads = true := by
    cases d <;> cases i.left <;> decide
  have hstart : tok.start + (d.opener ++ Inner.dash i.left).length = i.bodyStart tok.start := by
    rw [List.length_append, Delimiter.length_opener, Inner.bodyStart]
    omega
  have hbody := hwhole.right.left
  have hguarded := hwhole.guarded hlead
  rw [hstart] at hbody hguarded
  have htrim := hbody.trim (by omega) (.inr hguarded)
  have hle : tok.start ≤ i.bodyStart tok.start + leadingBlanks i.body := by omega
  generalize tok.start = start at hread htrim hle
  cases d with
  | «variable» =>
    subst hread
    exact ⟨htrim, Text.startsWide_trimSpace _⟩
  | tag =>
    subst hread
    exact htrim.splitTag hle

/-- The token stands in one of the tokens of the source, and so does its markup. -/
def Token.Located (src : Text) (tok : Token) : Prop :=
  ∃ owner ∈ tokens src, owner.start ≤ tok.start ∧ tok.Placed ∧ tok.stop ≤ owner.stop ∧
    Stands src owner.start tok.markupStart tok.markup ∧ Text.startsWide tok.markup = false

theorem located_of_mem {src : Text} {tok : Token} (htok : tok ∈ tokens src)
    (hkind : ¬ tok.kind.IsText) : tok.Located src :=
  ⟨tok, htok, Nat.le_refl _, ((tiles_tokens src).follows.placed htok).2.1, Nat.le_refl _,
    stands_delimited htok hkind⟩

/-- The lines of a tag are located in the token of the tag. -/
theorem Token.Located.liquidLines {src : Text} {tok : Token} (h : tok.Located src) {line : Token}
    (hline : line ∈ liquidLines tok.markup tok.markupStart) : line.Located src := by
  obtain ⟨owner, howner, hstart, hplaced, hstop, hstands, hwide⟩ := h
  obtain ⟨hlo, hline', hhi⟩ := (follows_liquidLines tok.markup tok.markupStart).placed hline
  have hle := hplaced.start_le_markup
  have hle' := hplaced.markup_le_stop
  refine ⟨owner, howner, by omega, hline', by omega, ?_⟩
  rw [← Text.flatten_linesWithEnds tok.markup] at hstands hwide
  exact hstands.lineTokens (Text.isChain_linesWithEnds _) (by omega) (.inl hwide) line hline

/-! ## Nodes -/

/-- The markup of a node stands in one of the tokens of the source. -/
def Head.Located (src : Text) (h : Head) : Prop :=
  ∃ owner ∈ tokens src, owner.start ≤ h.start ∧ h.openEnd ≤ owner.stop ∧
    h.markupStart + h.markup.length ≤ h.openEnd ∧ Stands src owner.start h.markupStart h.markup

theorem Token.Located.head {src : Text} {tok : Token} (h : tok.Located src) (kind : NodeKind) :
    (tok.head kind).Located src := by
  obtain ⟨owner, howner, hstart, hplaced, hstop, hstands, _⟩ := h
  exact ⟨owner, howner, hstart, hstop, hplaced.markup_le_stop, hstands⟩

open Classical in
/-- One if the node is a variable or tag whose markup is not located, else zero. -/
noncomputable def Head.unlocated (src : Text) (h : Head) : Nat :=
  if (h.kind = .variable ∨ h.kind = .tag) ∧ ¬ h.Located src then 1 else 0

theorem unlocated_of_located {src : Text} {h : Head} (hh : h.Located src) : h.unlocated src = 0 :=
  if_neg fun hnot => hnot.2 hh

theorem steady_unlocated (src : Text) :
    Steady (fun _ => true) (Head.unlocated src) (fun _ _ => 0) where
  descend_cutAt _ _ _ := rfl
  descend_closedBy _ _ _ := rfl
  cutAt_eq _ _ _ := rfl
  closedBy_eq _ _ _ := rfl

theorem Builder.LeafOf.unlocated_eq {src : Text} {b : Builder} {tok : Token} {n : Node}
    (h : LeafOf src b tok n) (htok : ¬ tok.kind.IsText → tok.Located src) :
    n.total (fun _ => true) (Head.unlocated src) = 0 := by
  have hraw (start stop : Nat) (markup : Text) :
      (rawNode start stop markup).total (fun _ => true) (Head.unlocated src) = 0 :=
    (total_leaf _).trans (if_neg fun hnot => hnot.1.elim nofun nofun)
  cases h with
  | text _ => exact hraw _ _ _
  | comment _ _ _ => exact hraw _ _ _
  | «variable» hkind =>
    rw [total_leaf]
    exact unlocated_of_located ((htok (by rw [hkind]; exact id)).head _)
  | inline hreads _ _ =>
    rw [total_leaf]
    exact unlocated_of_located ((htok (by rw [hreads.kind_eq]; exact id)).head _)

/-- The markup of every variable and tag is located. -/
theorem located_of_walk {src : Text} {h : Head} (hh : h ∈ (parse src).root.walk fun _ => true)
    (hkind : h.kind = .variable ∨ h.kind = .tag) : h.Located src := by
  have hnone : h.unlocated src = 0 := by
    refine eq_zero_below_root (Q := fun tok => ¬ tok.kind.IsText → tok.Located src)
      (steady_unlocated src) (fun tok htok hnot => located_of_mem htok hnot)
      (fun tok htok htag line hline _ => ?_) (fun b tok n htok hleaf => hleaf.unlocated_eq htok)
      (fun tok htok htag => ?_) (mem_below_of_walk hh ?_)
    · exact (htok (by rw [htag]; exact id)).liquidLines hline
    · have hlocated := htok (by rw [htag]; exact id)
      exact ⟨unlocated_of_located (hlocated.head _), unlocated_of_located (hlocated.head .tag)⟩
    · rcases hkind with hkind | hkind <;>
        · rw [hkind]
          nofun
  refine Classical.byContradiction fun hnot => ?_
  rw [Head.unlocated, if_pos ⟨hkind, hnot⟩] at hnone
  cases hnone

/-- **The markup of a variable or tag stands where the node says**, lines of `liquid` tags included,
unless a blank is overlooked in front of it: white space that is no ASCII blank, behind an opener, an
ASCII blank or a `#` of the same token.  Then the markup stands further on.  Its span ends inside the
source in any case, and where it is exact, a file holds the markup in the markup span of the node. -/
theorem markup_stands (src : Text) {h : Head} (hh : h ∈ (parse src).root.walk fun _ => true)
    (hkind : h.kind = .variable ∨ h.kind = .tag) :
    h.markupStart + h.markup.length ≤ src.length ∧
    ∃ tok ∈ tokens src, tok.start ≤ h.start ∧ h.openEnd ≤ tok.stop ∧
      (∃ p, h.markupStart ≤ p ∧ p + h.markup.length ≤ src.length ∧
        Text.slice src p (p + h.markup.length) = h.markup) ∧
      ((∀ i, tok.start ≤ i → i ≤ h.markupStart → overlookedAt src i = false) →
        Text.slice src h.markupStart (h.markupStart + h.markup.length) = h.markup ∧
        ∀ (f : SourceFile) (n : Source.Node), f.source = src → n.shape = .liquid h →
          f.slice (n.markupSpan f.source.length).toRange = n.markup) := by
  obtain ⟨owner, howner, hstart, hstop, hend, p, hle, hat, hp⟩ := located_of_walk hh hkind
  have hsize := hat.le_length
  have hinside : h.markupStart + h.markup.length ≤ src.length := by omega
  refine ⟨hinside, owner, howner, hstart, hstop, ⟨p, hle, hsize, hat.slice_eq⟩, fun hnone => ?_⟩
  have hexact : p = h.markupStart := by
    refine hp.resolve_right ?_
    rintro ⟨i, hlo, hhi, hover⟩
    rw [hnone i hlo hhi] at hover
    cases hover
  rw [hexact] at hat
  refine ⟨hat.slice_eq, fun f n hsource hshape => ?_⟩
  have hmarkup : n.markup = h.markup := by rw [Source.Node.markup, hshape]; rfl
  have hspan : n.markupSpan f.source.length = ⟨h.markupStart, h.markupStart + h.markup.length⟩ := by
    rw [Source.Node.markupSpan, hshape]
    exact Rule.Spacing.within_eq (Nat.le_add_right _ _) (by rw [hsource]; exact hinside)
  rw [hspan, hmarkup]
  refine (Rule.Spacing.slice_eq f (Nat.le_add_right _ _) (by rw [hsource]; exact hinside)).trans ?_
  rw [hsource]
  exact hat.slice_eq

/-- The second line of a `liquid` tag, behind a line whose string holds a no-break space. -/
theorem markup_stands_line :
    let src : Text := "\x7b%- liquid\n  echo 'a\u00A0b'\n\t# note %\x7d"
    ∃ h ∈ (parse src).root.walk (fun _ => true), h.kind = .tag ∧ h.inLiquid = true ∧
      h.markup = "note" ∧ h.markupStart = 28 ∧ h.markupStart + h.markup.length ≤ src.length ∧
      Text.slice src h.markupStart (h.markupStart + h.markup.length) = h.markup := by
  intro src
  obtain ⟨h, hh, hkind, hline, hmarkup, hplace⟩ :
      ∃ h ∈ (parse src).root.walk (fun _ => true), h.kind = .tag ∧ h.inLiquid = true ∧
        h.markup = "note" ∧ h.markupStart = 28 := by decide +kernel
  have hnone : ∀ i < 29, overlookedAt src i = false := by decide +kernel
  obtain ⟨hinside, tok, -, -, -, -, hexact⟩ := markup_stands src hh (.inr hkind)
  exact ⟨h, hh, hkind, hline, hmarkup, hplace, hinside,
    (hexact fun i _ hi => hnone i (by omega)).1⟩

/-- The name behind a no-break space is not where the node says. -/
theorem markup_displaced :
    ¬ ∀ (src : Text) (h : Head), h ∈ (parse src).root.walk (fun _ => true) →
        h.kind = .variable ∨ h.kind = .tag →
        Text.slice src h.markupStart (h.markupStart + h.markup.length) = h.markup := by
  intro hall
  have hwrong : ∃ h ∈ (parse "\x7b\x7b\u00A0a\x7d\x7d").root.walk (fun _ => true),
      (h.kind = .variable ∨ h.kind = .tag) ∧
        Text.slice "\x7b\x7b\u00A0a\x7d\x7d" h.markupStart (h.markupStart + h.markup.length) ≠
          h.markup := by decide +kernel
  obtain ⟨h, hh, hkind, hne⟩ := hwrong
  exact hne (hall _ h hh hkind)

end Liquid
end LiquidLint
