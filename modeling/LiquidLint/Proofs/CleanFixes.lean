import Mathlib.Data.List.TakeWhile
import LiquidLint.Proofs.FreshStarts
import LiquidLint.Proofs.InlineTags
import LiquidLint.Proofs.PathNames
import LiquidLint.Proofs.SpacingVisits
import LiquidLint.Proofs.TextPlaces
import LiquidLint.Proofs.TextSeams

/-!
# Clean fixes

A fix is clean if all it does is to put well-formed texts between seams of the source.  Three built-in
checks attach fixes, and in well-formed files these are clean (`Rule.fixesCleanly_of_mem_all`):

* a gap stands next to a delimiter or to the dash beside it, and these are ASCII;
* the name of a deprecated tag is ASCII itself;
* an assignment that is removed starts and stops at a delimiter, or with its lines.

So what built-in checks raise in a well-formed file are clean fixes of that file (`fixes_raisedIn`), and
on the project they raise none (`fixes_raisedOn`).
-/

namespace LiquidLint

open Source Analysis Text

/-- The fix does nothing but make clean edits. -/
def Fix.Clean (source : Text) (fix : Fix) : Prop :=
  ∀ step ∈ fix, ∃ e : Edit, e.Clean source ∧ step = .edit (Span.mk e.start e.stop).toRange e.text

theorem Fix.clean_replace {source text : Text} {s : Span} (hstart : Seam source s.start)
    (hstop : Seam source s.stop) (htext : WellFormed text) :
    Fix.Clean source [.edit s.toRange text] := by
  intro step hstep
  obtain rfl := List.mem_singleton.1 hstep
  exact ⟨⟨s.start, s.stop, text, [], 0⟩, ⟨hstart, hstop, htext⟩, rfl⟩

/-- In well-formed files, the check attaches clean fixes. -/
def Check.FixesCleanly (k : Check) : Prop :=
  ∀ path content version, WellFormed content →
    let f := SourceFile.parse path content version
    ∀ past, (∀ v ∈ past, k.CalledIn f v) → ∀ v, k.CalledIn f v →
      ∀ r, .report r ∈ (k.onVisit past v).effects → ∀ fix, r.fix = some fix → Fix.Clean f.source fix

/-- A check that attaches no fixes attaches clean ones. -/
theorem Check.fixesCleanly_of_fixless {k : Check}
    (h : ∀ past v r, .report r ∈ (k.onVisit past v).effects → r.fix = none) : k.FixesCleanly := by
  intro path content version _ f past _ v _ r hr fix hfix
  rw [h past v r hr] at hfix
  exact nomatch hfix

/-! ## Nodes of a template -/

namespace Source.Node

mutual

/-- The nodes of a template's tree as nodes of a file, each with its place. -/
theorem walk_ofLiquid (size : Nat) : (n : Liquid.Node) →
    (ofLiquid size n).walk.map (fun m => (m.shape, m.span)) =
      (n.walk fun _ => true).map fun h => (.liquid h, Range.within ⟨h.start, h.stop⟩ size)
  | .mk h cs => by
    rw [ofLiquid, walk, Liquid.Node.walk, if_pos rfl, List.map_cons, List.map_cons,
      walkAll_ofLiquid size cs]
    rfl

theorem walkAll_ofLiquid (size : Nat) : (ns : List Liquid.Node) →
    (walkAll (ofLiquidAll size ns)).map (fun m => (m.shape, m.span)) =
      (Liquid.Node.walkAll (fun _ => true) ns).map
        fun h => (.liquid h, Range.within ⟨h.start, h.stop⟩ size)
  | [] => rfl
  | n :: rest => by
    rw [ofLiquidAll, walkAll, Liquid.Node.walkAll, List.map_append, List.map_append,
      walk_ofLiquid size n, walkAll_ofLiquid size rest]

end

/-- A node of a template's tree stands where its head says. -/
theorem exists_head_of_walk {src : Text} {n : Node}
    (hn : n ∈ (ofLiquid src.length (Liquid.parse src).root).walk) :
    ∃ h ∈ (Liquid.parse src).root.walk (fun _ => true),
      n.shape = .liquid h ∧ n.span = ⟨h.start, h.stop⟩ := by
  have hmem := List.mem_map_of_mem (f := fun m : Node => (m.shape, m.span)) hn
  rw [walk_ofLiquid] at hmem
  obtain ⟨h, hh, heq⟩ := List.mem_map.1 hmem
  obtain ⟨hshape, hspan⟩ := Prod.mk.inj heq
  obtain ⟨hopen, hclose, hstop⟩ := Liquid.placed_of_walk hh
  rw [Rule.Spacing.within_eq (Nat.le_trans hopen hclose) hstop] at hspan
  exact ⟨h, hh, hshape.symm, hspan.symm⟩

end Source.Node

/-- What a check of templates is called for, besides the ends of files. -/
structure CalledAtNode (k : Check) (f : SourceFile) (e : Event) (n : Node) (h : Liquid.Head) :
    Prop where
  template : Rule.Spacing.IsTemplate f
  subscribed : e ∈ k.subscriptions
  fired : e.kind ∈ n.eventKinds
  head : h ∈ (Liquid.parse f.source).root.walk fun _ => true
  shape : n.shape = .liquid h
  span : n.span = ⟨h.start, h.stop⟩

/-- **A check of templates is called for nodes of the template.** -/
theorem calledAtNode {k : Check} (hk : k.info.categories = [.liquid]) {path content : Text}
    {version : Int} {g : SourceFile} {e : Event} {n : Node}
    (h : k.CalledIn (SourceFile.parse path content version) (.node g e n)) :
    g = SourceFile.parse path content version ∧ ∃ head, CalledAtNode k g e n head := by
  obtain ⟨m, hm, hvisit, hwanted⟩ := h
  rcases List.mem_append.1 hm with hm | hm
  · obtain ⟨tree, htree, hm⟩ := List.mem_flatMap.1 hm
    obtain ⟨⟨e', n'⟩, hfired, rfl⟩ := List.mem_map.1 hm
    obtain ⟨rfl, rfl, rfl⟩ := Visit.node.inj hvisit
    obtain ⟨hcategory, hsubscribed⟩ := Bool.and_eq_true_iff.1 hwanted
    rw [hk, List.contains_iff_mem, List.mem_singleton] at hcategory
    -- only the first tree of a template is of that category
    have htrees : (SourceFile.parse path content version).trees =
        (SourceFile.parts (Project.classify path).category (sourceOf content)
          (lineTable (sourceOf content))).2 := rfl
    have hinfo : (SourceFile.parse path content version).info = Project.classify path := rfl
    rw [htrees] at htree
    unfold Check.treeCategory at hcategory
    rw [hinfo] at hcategory
    cases hc : (Project.classify path).category with
    | liquid =>
      have htemplate := Rule.Spacing.isTemplate_parse hc content version
      rw [hc] at htree
      rcases List.mem_cons.1 htree with rfl | htree
      · obtain ⟨hwalk, phase, hevent⟩ := Node.mem_walk_of_firings _ hfired
        obtain ⟨head, hhead, hshape, hspan⟩ := Node.exists_head_of_walk hwalk
        exact ⟨rfl, head, htemplate, List.contains_iff_mem.1 hsubscribed,
          Node.kind_mem_eventKinds hevent, hhead, hshape, hspan⟩
      · obtain rfl := List.mem_singleton.1 htree
        cases hroot : (Markup.parse (sourceOf content)).root
        rw [hroot] at hcategory
        exact nomatch hcategory
    | html =>
      rw [hc] at htree
      obtain rfl := List.mem_singleton.1 htree
      cases hroot : (Markup.parse (sourceOf content)).root
      rw [hroot] at hcategory
      exact nomatch hcategory
    | yaml | graphql =>
      rw [hc] at htree hcategory
      obtain rfl := List.mem_singleton.1 htree
      exact nomatch hcategory
    | asset | other =>
      rw [hc] at htree
      exact nomatch htree
  · obtain rfl := List.mem_singleton.1 hm
    exact nomatch hvisit

namespace Rule

/-! ## Gaps -/

namespace Spacing

open Liquid

theorem eq_of_mem_gapSpan? {start : Nat} {gap : Text} {s : Span} (hs : s ∈ (gapSpan? start gap).toList) :
    s = ⟨start, start + gap.length⟩ := by
  unfold gapSpan? at hs
  split at hs
  · cases hs
  · exact List.mem_singleton.1 hs

/-- There are seams on both sides of a gap in a body that stands between ASCII bytes. -/
theorem seams_bodySpans {front body back : Text} (hsrc : WellFormed (front ++ (body ++ back)))
    (hfront : ∃ b ∈ front.getLast?, b.toNat < 0x80) (hback : ∃ b ∈ back.head?, b.toNat < 0x80) {s : Span}
    (hs : s ∈ bodySpans front.length body) :
    Seam (front ++ (body ++ back)) s.start ∧ Seam (front ++ (body ++ back)) s.stop := by
  by_cases hblank : Text.trimSpace body = []
  · rw [show bodySpans _ _ = [] from if_pos (List.isEmpty_iff.2 hblank)] at hs
    exact nomatch hs
  · obtain ⟨m, -, hbody, -⟩ := exists_tidyBody hblank
    rw [show bodySpans _ _ = _ from if_neg fun hempty => hblank (List.isEmpty_iff.1 hempty)] at hs
    have hlead (b : UInt8) (hb : b ∈ lead body) : b.toNat < 0x80 := ascii_of_isGap (isGap_lead _ b hb)
    have htrail (b : UInt8) (hb : b ∈ trail body) : b.toNat < 0x80 := ascii_of_isGap (isGap_trail _ b hb)
    generalize lead body = l at *
    generalize trail body = t at *
    subst hbody
    rcases List.mem_append.1 hs with hs | hs
    · obtain rfl := eq_of_mem_gapSpan? hs
      rw [List.append_assoc] at hsrc ⊢
      exact seams_around hsrc hlead (.inl hfront)
    · obtain rfl := eq_of_mem_gapSpan? hs
      have hcut : front ++ (l ++ (m ++ t) ++ back) = (front ++ (l ++ m)) ++ (t ++ back) := by
        simp only [List.append_assoc]
      have hstart : front.length + (l ++ (m ++ t)).length - t.length = (front ++ (l ++ m)).length := by
        simp only [List.length_append]
        omega
      rw [hstart]
      rw [hcut] at hsrc ⊢
      exact seams_around hsrc htrail (.inr hback)

/-- **There are seams on both sides of a gap.** -/
theorem seams_pieceSpans {src : Text} (hsrc : WellFormed src) {p : Piece}
    (hp : p ∈ (parse src).root.braces) {s : Span} (hs : s ∈ pieceSpans src p) :
    Seam src s.start ∧ Seam src s.stop := by
  obtain ⟨inner, -, -, htext⟩ := exists_text_of_braces hp
  unfold pieceSpans at hs
  rw [htext, tokenSpans_delimited] at hs
  have hparts := Inner.text_ofText inner
  generalize Inner.ofText inner = i at hparts hs
  subst hparts
  have hne : p.delimiter.opener ++ (i.text ++ p.delimiter.closer) ≠ [] := List.cons_ne_nil _ _
  obtain ⟨u, v, hu, hcut⟩ := standsAt_of_slice hne htext
  have hsource : src = (u ++ (p.delimiter.opener ++ Inner.dash i.left)) ++
      (i.body ++ (Inner.dash i.right ++ (p.delimiter.closer ++ v))) := by
    rw [hcut]
    simp only [Inner.text, List.append_assoc]
  have hbefore : ∃ b ∈ (u ++ (p.delimiter.opener ++ Inner.dash i.left)).getLast?, b.toNat < 0x80 := by
    have hne : p.delimiter.opener ++ Inner.dash i.left ≠ [] := List.cons_ne_nil _ _
    rw [List.getLast?_append_of_ne_nil u hne]
    cases i.left <;> cases p.delimiter <;> exact ⟨_, rfl, by decide⟩
  have hafter : ∃ b ∈ (Inner.dash i.right ++ (p.delimiter.closer ++ v)).head?, b.toNat < 0x80 := by
    cases i.right <;> cases p.delimiter <;> exact ⟨_, rfl, by decide⟩
  have hopen : (u ++ (p.delimiter.opener ++ Inner.dash i.left)).length = i.bodyStart p.start := by
    simp only [Inner.bodyStart, List.length_append, Delimiter.length_opener, hu, Nat.add_assoc]
  rw [← hopen] at hs
  rw [hsource] at hsrc ⊢
  exact seams_bodySpans hsrc hbefore hafter hs

/-- **There are seams on both sides of a variable or tag.** -/
theorem seams_of_braces {src : Text} (hsrc : WellFormed src) {p : Piece}
    (hp : p ∈ (parse src).root.braces) : Seam src p.start ∧ Seam src p.stop := by
  obtain ⟨inner, hstop, -, htext⟩ := exists_text_of_braces hp
  have hne : p.delimiter.opener ++ (inner ++ p.delimiter.closer) ≠ [] := List.cons_ne_nil _ _
  obtain ⟨u, v, hu, hfirst⟩ := standsAt_of_slice hne htext
  rw [List.append_assoc] at hfirst
  have hlast : src = (u ++ (p.delimiter.opener ++ inner)) ++ (p.delimiter.closer ++ v) := by
    rw [hfirst]
    simp only [List.append_assoc]
  have hlength : p.stop = (u ++ (p.delimiter.opener ++ inner)).length + p.delimiter.closer.length := by
    simp only [List.length_append, Delimiter.length_opener, Delimiter.length_closer]
    omega
  constructor
  · rw [hfirst] at hsrc ⊢
    rw [← hu]
    exact (seams_of_ascii hsrc (by cases p.delimiter <;> decide)).1
  · rw [hlength]
    rw [hlast] at hsrc ⊢
    exact (seams_of_ascii hsrc (by cases p.delimiter <;> decide)).2

end Spacing

theorem fixesCleanly_spaceInsideBraces : spaceInsideBraces.FixesCleanly := by
  intro path content version hvalid f past _ v hv r hr fix hfix
  cases v with
  | endFile g => exact nomatch hr
  | node g e n =>
    obtain ⟨hfile, h, hnode⟩ := calledAtNode rfl hv
    have hr := mem_reports.1 hr
    have hkind : h.kind = .variable ∨ h.kind = .tag := by
      refine (Spacing.mem_eventKinds hnode.shape).1 ?_
      have hsubscribed : e ∈ [(⟨.on, "variable"⟩ : Event), ⟨.on, "tag"⟩] := hnode.subscribed
      rcases List.mem_cons.1 hsubscribed with rfl | hsubscribed
      · exact .inl hnode.fired
      · obtain rfl := List.mem_singleton.1 hsubscribed
        exact .inr hnode.fired
    rw [Spacing.nodeReports_eq hnode.shape hnode.head hkind] at hr
    obtain ⟨p, hp, hr⟩ := List.mem_flatMap.1 hr
    have hbraces : p ∈ (Liquid.parse g.source).root.braces :=
      Spacing.watched_subset _ (List.mem_flatMap.2 ⟨h, hnode.head, hp⟩)
    have hmem := List.mem_map_of_mem (f := Report.fix) hr
    rw [Spacing.fix_pieceReports hbraces, hfix] at hmem
    obtain ⟨s, hs, hsome⟩ := List.mem_map.1 hmem
    obtain rfl := Option.some.inj hsome
    have hsource : WellFormed g.source := by
      rw [hfile]
      exact wellFormed_sourceOf hvalid
    obtain ⟨hstart, hstop⟩ := Spacing.seams_pieceSpans hsource hbraces hs
    rw [hfile] at hstart hstop
    exact Fix.clean_replace hstart hstop ⟨[' '], rfl⟩

/-! ## Names of tags -/

/-- There are seams on both sides of the word that replaces a tag. -/
theorem clean_rename? {f : SourceFile} (hsource : WellFormed f.source) {h : Liquid.Head}
    (hstart : h.start ≤ f.source.length) {name : Text} (hname : h.name = "include") {fix : Fix}
    (hname' : WellFormed name) (hfix : Deprecation.rename? f h name = some fix) :
    Fix.Clean f.source fix := by
  obtain ⟨place, hplace, rfl⟩ := Option.map_eq_some_iff.1 hfix
  obtain ⟨i, hi, hsome⟩ := Option.bind_eq_some_iff.1 hplace
  obtain rfl : (i : Int) = place := Option.some.inj hsome
  obtain ⟨u, v, hslice, hlength⟩ := Text.exists_of_offsetOf? hi
  have hplace : (Range.within ⟨h.start, h.markupStart⟩ f.source.length).start = h.start :=
    clamp_natCast (Nat.zero_le _) hstart
  unfold SourceFile.slice at hslice
  dsimp only at hslice
  rw [hplace, hname] at hslice
  generalize (Range.within ⟨h.start, h.markupStart⟩ f.source.length).stop = stop at hslice
  have hcut : f.source = (f.source.take h.start ++ u) ++
      (("include" : Text) ++ (v ++ (f.source.drop h.start).drop (stop - h.start))) := by
    calc f.source
      _ = f.source.take h.start ++ f.source.drop h.start := (List.take_append_drop ..).symm
      _ = f.source.take h.start ++ (Text.slice f.source h.start stop ++
            (f.source.drop h.start).drop (stop - h.start)) := by
          unfold Text.slice
          rw [List.take_append_drop (stop - h.start)]
      _ = _ := by
          rw [hslice]
          simp only [List.append_assoc]
  have hfront : (f.source.take h.start ++ u).length = h.start + i := by
    rw [List.length_append, List.length_take_of_le hstart, hlength]
  have hseams : Seam f.source (h.start + i) ∧ Seam f.source (h.start + i + h.name.length) := by
    rw [← hfront, hname]
    generalize f.source.take h.start ++ u = front at hcut
    rw [hcut] at hsource ⊢
    exact seams_of_ascii hsource (by decide)
  exact Fix.clean_replace (s := ⟨h.start + i, h.start + i + h.name.length⟩) hseams.1 hseams.2 hname'

theorem Deprecation.eq_of_lookup {name successor : Text}
    (h : Deprecation.successors.lookup name = some successor) : name = "include" ∧ successor = "render" := by
  unfold Deprecation.successors at h
  rw [List.lookup_cons] at h
  split at h
  · rename_i hname
    exact ⟨beq_iff_eq.1 hname, (Option.some.inj h).symm⟩
  · exact nomatch h

theorem fixesCleanly_deprecatedTag : deprecatedTag.FixesCleanly := by
  intro path content version hvalid f past _ v hv r hr fix hfix
  cases v with
  | endFile g => exact nomatch hr
  | node g e n =>
    obtain ⟨hfile, h, hnode⟩ := calledAtNode rfl hv
    have hr := Option.mem_toList.1 (mem_reports.1 hr)
    unfold Deprecation.nodeReport? at hr
    rw [hnode.shape] at hr
    obtain ⟨successor, hsuccessor, rfl⟩ := Option.map_eq_some_iff.1 hr
    have hword := Deprecation.eq_of_lookup hsuccessor
    obtain ⟨hopen, hclose, hstop⟩ := Liquid.placed_of_walk hnode.head
    have hsource : WellFormed g.source := by
      rw [hfile]
      exact wellFormed_sourceOf hvalid
    have hrender : WellFormed successor := by
      rw [hword.2]
      exact ⟨['r', 'e', 'n', 'd', 'e', 'r'], by decide⟩
    have hclean := clean_rename? hsource (by omega) hword.1 hrender hfix
    rwa [hfile] at hclean

/-! ## Assignments -/

namespace Assignment

/-- A text is all of one line, or a line feed ends its first line. -/
theorem firstLine_cases (t : Text) :
    t.takeWhile (fun (b : UInt8) => b ≠ '\n') = t ∨
      ∃ rest, t = t.takeWhile (fun (b : UInt8) => b ≠ '\n') ++ ('\n' : UInt8) :: rest := by
  induction t with
  | nil => exact .inl rfl
  | cons b t ih =>
    by_cases hb : b = '\n'
    · refine .inr ⟨t, ?_⟩
      rw [List.takeWhile_cons_of_neg (by simpa using hb), hb]
      rfl
    · rw [List.takeWhile_cons_of_pos (by simpa using hb)]
      refine ih.imp (congrArg (b :: ·)) fun ⟨rest, hrest⟩ => ⟨rest, congrArg (b :: ·) hrest⟩

/-- There is a seam where the line of a place starts: the source starts there, or it is behind a line feed. -/
theorem seam_lineStart {source : Text} (hsource : WellFormed source) {i : Nat} (hi : i ≤ source.length) :
    Seam source (i - ((source.take i).reverse.takeWhile fun (b : UInt8) => b ≠ '\n').length) := by
  have hbefore : (source.take i).length = i := List.length_take_of_le hi
  rcases firstLine_cases (source.take i).reverse with hall | ⟨rest, hrest⟩
  · rw [hall, List.length_reverse, hbefore, Nat.sub_self]
    exact seam_zero hsource
  · have hlength := congrArg List.length hrest
    have hcut := congrArg List.reverse hrest
    rw [List.length_reverse, hbefore, List.length_append, List.length_cons] at hlength
    rw [List.reverse_reverse, List.reverse_append, List.reverse_cons, List.append_assoc] at hcut
    have hplace : i - ((source.take i).reverse.takeWhile fun (b : UInt8) => b ≠ '\n').length =
        rest.reverse.length + [('\n' : UInt8)].length := by
      rw [List.length_reverse, List.length_singleton]
      omega
    rw [hplace]
    generalize (source.take i).reverse.takeWhile (fun (b : UInt8) => b ≠ '\n') = line at hcut
    have hsplit : source = rest.reverse ++ ([('\n' : UInt8)] ++ (line.reverse ++ source.drop i)) := by
      rw [← List.append_assoc [_], ← List.append_assoc, ← hcut, List.take_append_drop]
    rw [hsplit] at hsource ⊢
    exact (seams_of_ascii hsource (by decide)).2

/-- There is a seam where the line of a place stops: the source stops there, or it is behind a line feed. -/
theorem seam_lineStop {source : Text} (hsource : WellFormed source) {i : Nat} (hi : i ≤ source.length) :
    let stop := i + ((source.drop i).takeWhile fun (b : UInt8) => b ≠ '\n').length
    Seam source (if stop < source.length then stop + 1 else stop) := by
  dsimp only
  rcases firstLine_cases (source.drop i) with hall | ⟨rest, hrest⟩
  · rw [hall, List.length_drop, if_neg (by omega)]
    exact seam_of_length_le hsource (by omega)
  · have hlength := congrArg List.length hrest
    rw [List.length_drop, List.length_append, List.length_cons] at hlength
    rw [if_pos (by omega)]
    generalize (source.drop i).takeWhile (fun (b : UInt8) => b ≠ '\n') = line at *
    have hsplit : source = (source.take i ++ line) ++ ([('\n' : UInt8)] ++ rest) := by
      rw [List.append_assoc, List.singleton_append, ← hrest, List.take_append_drop]
    have hplace : i + line.length + 1 = (source.take i ++ line).length + [('\n' : UInt8)].length := by
      rw [List.length_append, List.length_take_of_le hi]
      rfl
    rw [hplace]
    generalize source.take i ++ line = front at hsplit
    rw [hsplit] at hsource ⊢
    exact (seams_of_ascii hsource (by decide)).2

/-- **A span that is removed has seams on both sides** if the span of the node has. -/
theorem seams_removalSpan {source : Text} (hsource : WellFormed source) {s : Span}
    (hle : s.start ≤ s.stop) (hstop : s.stop ≤ source.length)
    (hseams : Seam source s.start ∧ Seam source s.stop) :
    Seam source (removalSpan source s).start ∧ Seam source (removalSpan source s).stop := by
  have hstart := seam_lineStart hsource (Nat.le_trans hle hstop)
  rw [← List.length_reverse] at hstart
  unfold removalSpan
  dsimp only
  split
  · exact hseams
  · exact ⟨hstart, seam_lineStop hsource hstop⟩

/-- A visited node was visited for an event that starts no document. -/
theorem exists_visit {past : List Visit} {n : Node} (hn : n ∈ visitedNodes past) :
    ∃ f e, .node f e n ∈ past ∧ e.kind ≠ ("document" : Text) := by
  obtain ⟨v, hv, hnode⟩ := List.mem_filterMap.1 hn
  have hv := List.mem_reverse.1 hv
  have hpast := (List.takeWhile_sublist _).subset hv
  have hkind := List.mem_takeWhile_imp hv
  cases v with
  | endFile f => exact nomatch hnode
  | node f e m =>
    obtain rfl := Option.some.inj hnode
    exact ⟨f, e, hpast, by simpa using hkind⟩

/-- **An assignment stands between delimiters**, and there are seams on both sides of it. -/
theorem seams_assigned {f : SourceFile} (hsource : WellFormed f.source) {e : Event} {n : Node}
    {h : Liquid.Head} (hnode : CalledAtNode unusedAssign f e n h) (he : e.kind ≠ ("document" : Text))
    {name : Text} (hassigned : assigned? n = some name) (hline : inLiquid n = false) :
    Seam f.source n.span.start ∧ Seam f.source n.span.stop := by
  obtain ⟨hother, hname⟩ : n.kind ≠ "variable" ∧ h.name = "assign" := by
    unfold assigned? at hassigned
    split at hassigned
    · rename_i hkind
      obtain ⟨hkind, htag⟩ := Bool.and_eq_true_iff.1 hkind
      have htag : n.shape.tag = "assign" := of_decide_eq_true htag
      rw [hnode.shape] at htag
      exact ⟨of_decide_eq_true hkind, htag⟩
    · exact nomatch hassigned
  have hkind : h.kind = .tag := by
    have hsubscribed : e ∈ [(⟨.on, "document"⟩ : Event), ⟨.on, "variable"⟩, ⟨.on, "tag"⟩] :=
      hnode.subscribed
    simp only [List.mem_cons, List.not_mem_nil, or_false] at hsubscribed
    have hevent : ("variable" : Text) ∈ n.eventKinds ∨ ("tag" : Text) ∈ n.eventKinds := by
      rcases hsubscribed with rfl | rfl | rfl
      · exact absurd rfl he
      · exact .inl hnode.fired
      · exact .inr hnode.fired
    refine ((Spacing.mem_eventKinds hnode.shape).1 hevent).resolve_left fun hvariable => hother ?_
    exact (congrArg Shape.kind hnode.shape).trans (Spacing.kind_of_variable hvariable)
  have hline : h.inLiquid = false := by
    unfold inLiquid at hline
    rwa [hnode.shape] at hline
  have hopening : (⟨.opening, h.name, h.start, h.openEnd⟩ : Liquid.Piece) ∈
      (Liquid.parse f.source).root.braces := by
    refine List.mem_flatMap.2 ⟨h, hnode.head, ?_⟩
    rw [Spacing.braces_of_tag hkind hline]
    exact List.mem_cons_self ..
  have hend : h.stop = h.openEnd := by
    refine Liquid.stop_of_inline hnode.head ?_
    rw [hname]
    decide
  rw [hnode.span, hend]
  exact Spacing.seams_of_braces hsource hopening

end Assignment

theorem fixesCleanly_unusedAssign : unusedAssign.FixesCleanly := by
  intro path content version hvalid f past hpast v hv r hr fix hfix
  cases v with
  | node g e n => exact nomatch hr
  | endFile g =>
    obtain ⟨m, hm, hvisit, -⟩ := hv
    obtain rfl : g = f := (congrArg Visit.file hvisit).trans (file_of_mem_moments hm)
    obtain ⟨n, hn, hreport⟩ := List.mem_filterMap.1 (mem_reports.1 hr)
    obtain ⟨g, e, hvisit, hkind⟩ := Assignment.exists_visit hn
    obtain ⟨rfl, h, hnode⟩ := calledAtNode rfl (hpast _ hvisit)
    cases hassigned : Assignment.assigned? n with
    | none =>
      rw [hassigned] at hreport
      exact nomatch hreport
    | some name =>
      rw [hassigned] at hreport
      dsimp only at hreport
      split at hreport
      · exact nomatch hreport
      · obtain rfl := Option.some.inj hreport
        unfold Assignment.unusedReport at hfix
        dsimp only at hfix
        split at hfix
        · exact nomatch hfix
        · rename_i hline
          obtain rfl := Option.some.inj hfix
          have hsource := wellFormed_sourceOf hvalid
          obtain ⟨hopen, hclose, hstop⟩ := Liquid.placed_of_walk hnode.head
          have hspan := hnode.span
          obtain ⟨hstart, hend⟩ := Assignment.seams_removalSpan hsource
            (by rw [hspan]; exact Nat.le_trans hopen hclose) (by rw [hspan]; exact hstop)
            (Assignment.seams_assigned hsource hnode hkind hassigned (Bool.eq_false_iff.2 hline))
          exact Fix.clean_replace hstart hend .nil

/-! ## All checks -/

theorem fixesCleanly_warningCheck (info : CheckInfo) (origin : WarningOrigin) (lead : Text) :
    (warningCheck info origin lead).FixesCleanly := by
  refine Check.fixesCleanly_of_fixless fun past v r hr => ?_
  cases v with
  | node g e n => exact nomatch hr
  | endFile g =>
    obtain ⟨w, -, rfl⟩ := List.mem_map.1 (mem_reports.1 hr)
    rfl

theorem fix_of_mem_scriptReport? {h : Markup.Head} {r : Report} (hr : r ∈ Element.scriptReport? h) :
    r.fix = none := by
  unfold Element.scriptReport? at hr
  split at hr
  · obtain rfl := Option.some.inj hr
    rfl
  · exact nomatch hr

theorem fix_of_mem_imageReport? {h : Markup.Head} {r : Report} (hr : r ∈ Element.imageReport? h) :
    r.fix = none := by
  unfold Element.imageReport? at hr
  split at hr
  · split at hr
    · exact nomatch hr
    all_goals
      obtain rfl := Option.some.inj hr
      rfl
  · exact nomatch hr

theorem fixesCleanly_elementCheck (info : CheckInfo) {report? : Markup.Head → Option Report}
    (hreport : ∀ h, ∀ r ∈ report? h, r.fix = none) : (Element.elementCheck info report?).FixesCleanly := by
  refine Check.fixesCleanly_of_fixless fun past v r hr => ?_
  cases v with
  | endFile g => exact nomatch hr
  | node g e n =>
    dsimp only [Element.elementCheck] at hr
    split at hr
    · exact hreport _ r (Option.mem_toList.1 (mem_reports.1 hr))
    · exact nomatch hr

/-- **In well-formed files, built-in checks attach clean fixes.** -/
theorem fixesCleanly_of_mem_all {k : Check} (hk : k ∈ all) : k.FixesCleanly := by
  simp only [all, List.mem_cons, List.not_mem_nil, or_false] at hk
  rcases hk with rfl | rfl | rfl | rfl | rfl | rfl | rfl | rfl | rfl | rfl
  case inr.inl => exact fixesCleanly_spaceInsideBraces
  case inr.inr.inl => exact fixesCleanly_unusedAssign
  case inr.inr.inr.inl => exact fixesCleanly_deprecatedTag
  case inr.inr.inr.inr.inl => exact fixesCleanly_elementCheck _ fun _ _ => fix_of_mem_scriptReport?
  case inr.inr.inr.inr.inr.inl => exact fixesCleanly_elementCheck _ fun _ _ => fix_of_mem_imageReport?
  case inl => exact fixesCleanly_warningCheck _ _ _
  case inr.inr.inr.inr.inr.inr.inl => exact fixesCleanly_warningCheck _ _ _
  case inr.inr.inr.inr.inr.inr.inr.inl => exact fixesCleanly_warningCheck _ _ _
  all_goals exact Check.fixesCleanly_of_fixless fun _ _ _ hr => absurd hr List.not_mem_nil

end Rule

/-! ## What is raised -/

namespace Analysis

variable (o : AnalyzerOptions) (parsed : List ParsedFile)

/-- **What checks raise in a well-formed file are clean fixes of that file.** -/
theorem fixes_raisedIn {path content : Text} (version : Int) (hvalid : WellFormed content)
    {slots : List Slot} (hnew : ∀ s ∈ slots, s.past = [])
    (hclean : ∀ s ∈ slots, s.check.FixesCleanly) :
    ∀ p ∈ (raisedIn o parsed (SourceFile.parse path content version) slots).fixes,
      p.path = path ∧ Fix.Clean (sourceOf content) p.fix := by
  refine raisedIn_induction o parsed _ (Tally.additive_fixes _) fun s hs past hpast m hm hwanted => ?_
  refine Tally.fixes_react fun r hr offense p hraise => ?_
  obtain ⟨hpath, hfix⟩ := of_raise?_fix o parsed hraise
  refine ⟨hpath, hclean s hs path content version hvalid past (fun v hv => ?_) m.visit
    ⟨m, hm, rfl, hwanted⟩ r hr p.fix hfix⟩
  refine (hpast v hv).resolve_left ?_
  rw [hnew s hs]
  exact List.not_mem_nil

/-- **Built-in checks raise no fixes on the project.** -/
theorem fixes_raisedOn (view : ProjectView) {s : Slot} (hs : s.check ∈ Rule.all) :
    (s.raisedOn o parsed view).fixes = [] := by
  have hreports {rs : List ProjectReport} (hrs : ∀ r ∈ rs, r.report.fix = none) :
      (Tally.react (raiseReport? o parsed s.check.info) s.check.info.code none none
        (.reports rs) {}).fixes = [] := by
    refine List.eq_nil_iff_forall_not_mem.2 (Tally.fixes_react fun r hr offense p hraise => ?_)
    unfold raiseReport? at hraise
    split at hraise
    · have hfix := (of_raise?_fix o parsed hraise).2
      rw [hrs r (Rule.mem_reports.1 hr)] at hfix
      exact nomatch hfix
    · obtain ⟨_, _, heq⟩ := Option.map_eq_some_iff.1 hraise
      exact nomatch heq
  unfold Slot.raisedOn
  rcases Rule.onProject_of_mem_all hs with hnone | hmissing | hunused
  · rw [hnone]
  · rw [hmissing] at hreports ⊢
    refine hreports fun r hr => ?_
    obtain ⟨e, -, hr⟩ := List.mem_flatMap.1 hr
    obtain ⟨reference, -, rfl⟩ := List.mem_map.1 hr
    rfl
  · rw [hunused] at hreports ⊢
    refine hreports fun r hr => ?_
    unfold Rule.Reference.unusedReports at hr
    split at hr
    · exact nomatch hr
    · obtain ⟨f, -, rfl⟩ := List.mem_map.1 hr
      rfl

end Analysis
end LiquidLint
