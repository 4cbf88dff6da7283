import LiquidLint.Proofs.InlineTags
import LiquidLint.Proofs.PathNames
import LiquidLint.Proofs.SpacingVisits
import LiquidLint.Proofs.TextPlaces
import LiquidLint.Proofs.TreeOrder
import LiquidLint.Proofs.WordReading
import LiquidLint.Rule.Reference

/-!
# Where references stand

A tag names a template by a quoted text.  The text stands at the start of the markup, or behind the first equals
sign of a `function` tag (`Head.NamesAt`), and what is found there is the quoted text, if there is one
(`literalRef?_eq_some_iff`).  The offset is counted from the end of the markup, so it is exact whatever was trimmed
in front: where the source holds the markup at its place, it holds the quoted text at the place of the reference
(`references_at_literals`).

The literals stand inside their tags (`start_of_referencedTemplate?`), and tags stand one behind the other, so no
two references of a template start at the same place (`pairwise_references`), and to report each place once is to
report each reference.
-/

namespace LiquidLint
namespace Liquid

open Source

/-! ## Literals -/

theorem literalRef?_quoted (q : Quoted) (rest : Text) (start : Nat) :
    literalRef? (q.text ++ rest) start = some ⟨q.content, start, start + q.text.length⟩ := by
  have hquote : (decide (q.quote = '\'') || decide (q.quote = '"')) = true := by
    simpa [or_comm] using q.isQuote
  rw [q.text_append, literalRef?]
  dsimp only
  rw [if_pos hquote, q.takeWhile_content, if_pos (by simp), q.length_text, Nat.add_assoc]

/-- **What is found is the quoted text that `t` starts with**, with its quotes. -/
theorem literalRef?_eq_some_iff {t : Text} {start : Nat} {r : TemplateRef} :
    literalRef? t start = some r ↔
      ∃ q : Quoted, q.text <+: t ∧ r = ⟨q.content, start, start + q.text.length⟩ := by
  constructor
  · intro h
    cases t with
    | nil => cases h
    | cons b rest =>
      have hclosed : (b = '"' ∨ b = '\'') ∧ b ∈ rest := by
        rw [literalRef?] at h
        split at h
        · rename_i hquote
          refine ⟨by simpa [or_comm] using hquote, Classical.not_not.1 fun hfree => ?_⟩
          have hall : rest.takeWhile (· ≠ b) = rest :=
            List.takeWhile_eq_self_iff.2 fun c hc => decide_eq_true (ne_of_mem_of_not_mem hc hfree)
          dsimp only at h
          rw [hall, if_neg (Nat.lt_irrefl _)] at h
          cases h
        · cases h
      obtain ⟨q, more, hcut⟩ := exists_quoted hclosed.1 hclosed.2
      rw [hcut, literalRef?_quoted] at h
      exact ⟨q, ⟨more, hcut.symm⟩, (Option.some.inj h).symm⟩
  · rintro ⟨q, ⟨more, rfl⟩, rfl⟩
    exact literalRef?_quoted q more start

/-! ## Where a tag names a template -/

/-- A tag names a template at the start of `t`: this is its markup, or what a `function` tag has behind its first
equals sign and the blanks there. -/
inductive Head.NamesAt (h : Head) : (t : Text) → Prop where
  | markup (hname : h.name ∈ (["render", "include", "theme_render", "include_form"] : List Text)) :
    NamesAt h h.markup
  | assigned {target gap t : Text} (hname : h.name = "function")
    (hmarkup : h.markup = target ++ ('=' : UInt8) :: (gap ++ t)) (hfirst : ('=' : UInt8) ∉ target)
    (hgap : ∀ b ∈ gap, Text.isAsciiBlank b = true) (hstart : ∀ b ∈ t.head?, Text.isAsciiBlank b = false) :
    NamesAt h t

namespace Head.NamesAt

variable {h : Head} {t : Text}

theorem suffix (ht : h.NamesAt t) : t <:+ h.markup := by
  cases ht with
  | markup hname => exact List.suffix_rfl
  | @assigned target gap _ _ hmarkup _ _ _ => exact ⟨target ++ ('=' : UInt8) :: gap, by rw [hmarkup]; simp⟩

theorem name_ne (ht : h.NamesAt t) : h.name ≠ ("liquid" : Text) := by
  cases ht with
  | markup hname =>
    rintro heq
    rw [heq] at hname
    exact absurd hname (by decide)
  | assigned hname _ _ _ _ =>
    rw [hname]
    decide

/-- The text is looked at where it stands. -/
theorem referencedTemplate?_eq (ht : h.NamesAt t) (hkind : h.kind = .tag) :
    referencedTemplate? h = literalRef? t (h.markupStart + (h.markup.length - t.length)) := by
  rw [referencedTemplate?, if_neg (not_not_intro hkind)]
  cases ht with
  | markup hname =>
    have htag : templateTags.contains h.name = true := List.contains_iff_mem.2 hname
    rw [if_pos htag, Nat.sub_self, Nat.add_zero]
  | @assigned target gap _ hname hmarkup hfirst hgap hstart =>
    have htag : ¬ templateTags.contains h.name = true := by
      rw [hname]
      decide
    rw [if_neg htag, if_pos hname, Text.cut?_eq_some_iff.2 ⟨hmarkup, hfirst⟩]
    dsimp only
    rw [Text.trimLeft, (read_word hgap hstart).2]

end Head.NamesAt

/-- A tag that names a template names it somewhere. -/
theorem exists_namesAt {h : Head} {r : TemplateRef} (hr : referencedTemplate? h = some r) :
    h.kind = .tag ∧ ∃ t, h.NamesAt t := by
  unfold referencedTemplate? at hr
  split at hr
  · cases hr
  · rename_i hkind
    refine ⟨Classical.not_not.1 hkind, ?_⟩
    split at hr
    · rename_i htag
      exact ⟨_, .markup (List.contains_iff_mem.1 htag)⟩
    · split at hr
      · rename_i hname
        split at hr
        · cases hr
        · rename_i left right hcut
          obtain ⟨hmarkup, hfirst⟩ := Text.cut?_eq_some_iff.1 hcut
          rw [← List.takeWhile_append_dropWhile (p := Text.isAsciiBlank) (l := right)] at hmarkup
          exact ⟨_, .assigned hname hmarkup hfirst (fun b hb => List.mem_takeWhile_imp hb)
            (head_dropWhile Text.isAsciiBlank right)⟩
      · cases hr

/-- **A tag names a template by the quoted text where it names one.** -/
theorem referencedTemplate?_eq_some_iff {h : Head} {r : TemplateRef} :
    referencedTemplate? h = some r ↔ h.kind = .tag ∧ ∃ lead more, ∃ q : Quoted,
      h.markup = lead ++ (q.text ++ more) ∧ h.NamesAt (q.text ++ more) ∧
        r = ⟨q.content, h.markupStart + lead.length, h.markupStart + lead.length + q.text.length⟩ := by
  constructor
  · intro hr
    obtain ⟨hkind, t, ht⟩ := exists_namesAt hr
    rw [ht.referencedTemplate?_eq hkind] at hr
    obtain ⟨q, ⟨more, rfl⟩, hr⟩ := literalRef?_eq_some_iff.1 hr
    obtain ⟨lead, hlead⟩ := ht.suffix
    rw [← hlead, List.length_append, Nat.add_sub_cancel] at hr
    exact ⟨hkind, lead, more, q, hlead.symm, ht, hr⟩
  · rintro ⟨hkind, lead, more, q, hlead, ht, rfl⟩
    rw [ht.referencedTemplate?_eq hkind, literalRef?_quoted, hlead, List.length_append, Nat.add_sub_cancel]

/-- The literal that a tag names a template by starts inside its markup. -/
theorem start_of_referencedTemplate? {h : Head} {r : TemplateRef} (hr : referencedTemplate? h = some r) :
    h.kind = .tag ∧ h.IsPlain ∧ h.markupStart ≤ r.start ∧ r.start < h.markupStart + h.markup.length := by
  obtain ⟨hkind, lead, more, q, hmarkup, ht, rfl⟩ := referencedTemplate?_eq_some_iff.1 hr
  have hlength := q.length_text
  rw [hmarkup, List.length_append, List.length_append]
  exact ⟨hkind, ⟨by rw [hkind]; nofun, ht.name_ne⟩, Nat.le_add_right .., by dsimp only; omega⟩

/-- **A reference stands at its literal.**  The span of a reference that a tag of a source makes lies inside the
node of the tag.  Where the source holds the markup of the tag at its place, it holds there a text between two equal
quotes that is the name of the template and does not hold that quote.  A tag that names templates somewhere makes
a reference exactly if a quoted text stands there, and other tags make none. -/
theorem references_at_literals (src : Text) {h : Head} (hh : h ∈ (parse src).root.walk fun _ => true)
    (hkind : h.kind = .tag) :
    (∀ r, referencedTemplate? h = some r →
      h.start ≤ r.start ∧ r.start < r.stop ∧ r.stop ≤ h.stop ∧
        (Text.slice src h.markupStart (h.markupStart + h.markup.length) = h.markup →
          ∃ q : Quoted, q.content = r.name ∧ Text.slice src r.start r.stop = q.text)) ∧
    (∀ t, h.NamesAt t → ((referencedTemplate? h).isSome = true ↔ ∃ q : Quoted, q.text <+: t)) ∧
    ((¬ ∃ t, h.NamesAt t) → referencedTemplate? h = none) := by
  refine ⟨fun r hr => ?_, fun t ht => ?_, fun hnone => ?_⟩
  · obtain ⟨-, lead, more, q, hmarkup, -, rfl⟩ := referencedTemplate?_eq_some_iff.1 hr
    obtain ⟨hfront, hback⟩ := markup_inside hh hkind
    obtain ⟨-, hstop, -⟩ := placed_of_walk hh
    have hlength := q.length_text
    have hparts := congrArg List.length hmarkup
    rw [List.length_append, List.length_append] at hparts
    dsimp only
    refine ⟨by omega, by omega, by omega, fun hslice => ⟨q, rfl, ?_⟩⟩
    have hne : h.markup ≠ [] := List.ne_nil_of_length_pos (by omega)
    obtain ⟨u, v, hu, hsrc⟩ := standsAt_of_slice hne hslice
    have hcut : src = (u ++ lead) ++ (q.text ++ (more ++ v)) := by
      rw [hsrc, hmarkup]
      simp only [List.append_assoc]
    rw [hcut, ← hu, ← List.length_append]
    exact Text.slice_append (u ++ lead) q.text (more ++ v)
  · rw [ht.referencedTemplate?_eq hkind, Option.isSome_iff_exists]
    constructor
    · rintro ⟨r, hr⟩
      obtain ⟨q, hq, -⟩ := literalRef?_eq_some_iff.1 hr
      exact ⟨q, hq⟩
    · rintro ⟨q, hq⟩
      exact ⟨_, literalRef?_eq_some_iff.2 ⟨q, hq, rfl⟩⟩
  · refine Option.eq_none_iff_forall_ne_some.2 fun r hr => hnone ?_
    exact (exists_namesAt hr).2

/-- A line of a `liquid` tag that names a template behind an equals sign, a tab and a blank. -/
theorem references_at_literals_line :
    let src : Text := "\x7b%- liquid\n  function res =\t \"shop/create\", a: 'x'\n%\x7d"
    let t : Text := "\"shop/create\", a: 'x'"
    ∃ h ∈ (parse src).root.walk (fun _ => true), h.kind = .tag ∧ h.inLiquid = true ∧
      Text.slice src h.markupStart (h.markupStart + h.markup.length) = h.markup ∧
      referencedTemplate? h = some ⟨"shop/create", 29, 42⟩ ∧ h.start ≤ 29 ∧ 42 ≤ h.stop ∧
      (∃ q : Quoted, q.content = "shop/create" ∧ Text.slice src 29 42 = q.text) ∧
      h.NamesAt t ∧ ∃ q : Quoted, q.text <+: t := by
  intro src t
  obtain ⟨h, hh, hkind, hline, hslice, hr, hname, hmarkup⟩ :
      ∃ h ∈ (parse src).root.walk (fun _ => true), h.kind = .tag ∧ h.inLiquid = true ∧
        Text.slice src h.markupStart (h.markupStart + h.markup.length) = h.markup ∧
        referencedTemplate? h = some ⟨"shop/create", 29, 42⟩ ∧ h.name = "function" ∧
        h.markup = "res " ++ ('=' : UInt8) :: ("\t " ++ t) := by decide +kernel
  have ht : h.NamesAt t := .assigned hname hmarkup (by decide) (by decide +kernel) (by decide +kernel)
  obtain ⟨hplaces, hsome, -⟩ := references_at_literals src hh hkind
  obtain ⟨hstart, -, hstop, hliteral⟩ := hplaces _ hr
  exact ⟨h, hh, hkind, hline, hslice, hr, hstart, hstop, hliteral hslice, ht,
    (hsome t ht).1 (Option.isSome_iff_exists.2 ⟨_, hr⟩)⟩

end Liquid

namespace Source.Node

mutual

/-- A tree of HTML holds HTML. -/
theorem shape_walk_ofHtml (size : Nat) : (html : Markup.Node) →
    ∀ n ∈ (ofHtml size html).walk, ∃ head, n.shape = .html head
  | .mk h cs, n, hn => by
    rw [ofHtml, walk] at hn
    rcases List.mem_cons.1 hn with rfl | hn
    · exact ⟨h, rfl⟩
    · exact shape_walkAll_ofHtml size cs n hn

theorem shape_walkAll_ofHtml (size : Nat) : (htmls : List Markup.Node) →
    ∀ n ∈ walkAll (ofHtmlAll size htmls), ∃ head, n.shape = .html head
  | [], n, hn => by cases hn
  | html :: rest, n, hn => by
    rw [ofHtmlAll, walkAll] at hn
    rcases List.mem_append.1 hn with hn | hn
    · exact shape_walk_ofHtml size html n hn
    · exact shape_walkAll_ofHtml size rest n hn

end

end Source.Node

namespace Rule.Reference

open Source Liquid

/-- The head of a tag. -/
def tagHead? : Shape → Option Head
  | .liquid h => if h.kind = .tag then some h else none
  | _ => none

theorem tagHeads_eq (f : SourceFile) :
    tagHeads f = (f.nodes.map Source.Node.shape).filterMap tagHead? := by
  rw [List.filterMap_map]
  rfl

/-- The tags of a template are those of its own tree. -/
theorem tagHeads_of_template {f : SourceFile} (hf : Spacing.IsTemplate f) :
    tagHeads f = ((parse f.source).root.walk fun _ => true).filter (·.kind = .tag) := by
  obtain ⟨html, htrees⟩ := hf.trees
  have hhtml : ((Source.Node.ofHtml f.source.length html).walk.map Source.Node.shape).filterMap tagHead? =
      [] := by
    refine List.filterMap_eq_nil_iff.2 fun s hs => ?_
    obtain ⟨n, hn, rfl⟩ := List.mem_map.1 hs
    obtain ⟨head, hshape⟩ := Source.Node.shape_walk_ofHtml _ _ n hn
    rw [hshape]
    rfl
  rw [tagHeads_eq, SourceFile.nodes, htrees, List.flatMap_cons, List.flatMap_cons, List.flatMap_nil,
    List.append_nil, List.map_append, List.filterMap_append, hhtml, List.append_nil,
    Source.Node.shape_walk_ofLiquid, List.filterMap_map]
  refine Eq.trans (List.filterMap_congr fun h _ => ?_) (congrFun List.filterMap_eq_filter _)
  simp only [Option.guard_apply, decide_eq_true_eq]
  rfl

/-- **No two references of a template start at the same place.** -/
theorem pairwise_references {f : SourceFile} (hf : Spacing.IsTemplate f) :
    (references f).Pairwise fun r s => r.range.start < s.range.start := by
  have horder : ((parse f.source).root.walk fun _ => true).Pairwise fun h g =>
      ∀ r, referencedTemplate? h = some r → ∀ s, referencedTemplate? g = some s → r.start < s.start := by
    refine (openings_in_order f.source).imp_of_mem fun {h g} hh hg hapart r hr s hs => ?_
    obtain ⟨hkind, hplain, _, hlt⟩ := start_of_referencedTemplate? hr
    obtain ⟨hkind', hplain', hle, _⟩ := start_of_referencedTemplate? hs
    have hend := (markup_inside hh hkind).2
    have hstart := (markup_inside hg hkind').1
    have hbehind := hapart hplain hplain'
    omega
  unfold references
  rw [tagHeads_of_template hf]
  refine List.pairwise_filterMap.2 ((horder.sublist List.filter_sublist).imp fun {h g} hstarts r hr s hs => ?_)
  obtain ⟨r', hr', rfl⟩ := Option.map_eq_some_iff.1 hr
  obtain ⟨s', hs', rfl⟩ := Option.map_eq_some_iff.1 hs
  exact Int.ofNat_lt.2 (hstarts r' hr' s' hs')

end Rule.Reference
end LiquidLint
