import LiquidLint.Proofs.CheckIsolation
import LiquidLint.Proofs.CleanFixes
import LiquidLint.Proofs.MarkupPlaces
import LiquidLint.Proofs.RenamedTemplates
import LiquidLint.Proofs.SingleCheck

/-!
# Deprecated tags that are replaced

A fix of the check of deprecated tags puts `render` in place of the name of an `include` tag, where that name is
found (`renames_of_fixOf`).  Two such names stand apart, so all the fixes are made, and `deprecatedTag_renames`
says what becomes of the template.
-/

namespace LiquidLint

open Source Analysis Liquid

/-- What a check visits in a file it is called for. -/
theorem Check.calledIn_of_fileVisits {k : Check} {f : SourceFile} {v : Visit} (hv : v ∈ k.fileVisits f) :
    k.CalledIn f v := by
  rcases List.mem_append.1 hv with hv | hv
  · obtain ⟨tree, htree, hv⟩ := List.mem_flatMap.1 hv
    obtain ⟨p, hp, rfl⟩ := List.mem_map.1 hv
    obtain ⟨hp, hlistens⟩ := List.mem_filter.1 hp
    exact ⟨_, List.mem_append_left _ (List.mem_flatMap.2 ⟨tree, htree, List.mem_map_of_mem hp⟩), rfl, hlistens⟩
  · split at hv
    · rename_i happlies
      obtain rfl := List.mem_singleton.1 hv
      exact ⟨_, List.mem_append_right _ (List.mem_singleton_self _), rfl, happlies⟩
    · cases hv

namespace Rule.Deprecation

/-! ## What the check asks for -/

/-- Where the name of an `include` tag is found. -/
def nameSpan? (src : Text) (h : Head) : Option Span :=
  if h.kind = .tag ∧ h.name = "include" then
    (Text.offsetOf? (Text.slice src h.start h.markupStart) "include").map fun i =>
      ⟨h.start + i, h.start + i + 7⟩
  else none

/-- The edit that puts `render` in place of a name. -/
def nameEdit (s : Span) : Edit := ⟨s.start, s.stop, "render", deprecatedTag.info.code, 0⟩

/-- The fix that puts `render` in place of a name. -/
def nameFix (f : SourceFile) (s : Span) : PendingFix :=
  ⟨f.path, deprecatedTag.info.code, [.edit s.toRange "render"]⟩

theorem eq_of_nameFix {f : SourceFile} {s t : Span} (h : nameFix f s = nameFix f t) : s = t := by
  have hrange : s.toRange = t.toRange := by simpa [nameFix] using h
  obtain ⟨hstart, hstop⟩ := Range.mk.inj hrange
  cases s
  cases t
  exact congrArg₂ Span.mk (Int.ofNat_inj.1 hstart) (Int.ofNat_inj.1 hstop)

theorem renames_nameEdit {src : Text} {h : Head} {s : Span} (hs : nameSpan? src h = some s) :
    (nameEdit s).Renames src h := by
  unfold nameSpan? at hs
  split at hs
  · rename_i htag
    obtain ⟨i, hfound, rfl⟩ := Option.map_eq_some_iff.1 hs
    exact ⟨htag.1, htag.2, ⟨i, hfound, rfl⟩, rfl, rfl⟩
  · cases hs

/-- The fix puts `render` in place of the name of the tag. -/
structure FixOf (f : SourceFile) (h : Head) (p : PendingFix) : Prop where
  kind : h.kind = .tag
  name : h.name = "include"
  fix : rename? f h "render" = some p.fix
  path : p.path = f.path
  code : p.code = deprecatedTag.info.code

section Files

variable {f : SourceFile}

theorem rename?_eq {h : Head} (hh : h ∈ (parse f.source).root.walk fun _ => true) (hkind : h.kind = .tag)
    (hname : h.name = "include") :
    rename? f h "render" = (Text.offsetOf? (Text.slice f.source h.start h.markupStart) "include").map fun i =>
      [.edit (⟨h.start + i, h.start + i + 7⟩ : Span).toRange "render"] := by
  have hmarkup := markup_inside hh hkind
  have hplaced := placed_of_walk hh
  have hword : ("include" : Text).length = 7 := by decide
  unfold rename?
  rw [Spacing.slice_eq f hmarkup.1 (by omega), hname, hword]
  cases Text.offsetOf? (Text.slice f.source h.start h.markupStart) "include" with
  | none => rfl
  | some i => simp [Span.toRange]

/-- **What a fix of the check asks for** is an edit of the name that is found. -/
theorem fixOf_iff {h : Head} (hh : h ∈ (parse f.source).root.walk fun _ => true) {p : PendingFix} :
    FixOf f h p ↔ ∃ s, nameSpan? f.source h = some s ∧ p = nameFix f s := by
  constructor
  · rintro ⟨hkind, hname, hfix, hpath, hcode⟩
    rw [rename?_eq hh hkind hname] at hfix
    obtain ⟨i, hfound, hfix⟩ := Option.map_eq_some_iff.1 hfix
    refine ⟨⟨h.start + i, h.start + i + 7⟩, ?_, ?_⟩
    · rw [nameSpan?, if_pos ⟨hkind, hname⟩, hfound]
      rfl
    · cases p
      subst hpath hcode hfix
      rfl
  · rintro ⟨s, hs, rfl⟩
    have hrenames := renames_nameEdit hs
    refine ⟨hrenames.kind, hrenames.name, ?_, rfl, rfl⟩
    rw [nameSpan?, if_pos ⟨hrenames.kind, hrenames.name⟩] at hs
    obtain ⟨i, hfound, rfl⟩ := Option.map_eq_some_iff.1 hs
    rw [rename?_eq hh hrenames.kind hrenames.name, hfound]
    rfl

/-- A name belongs to one tag only. -/
theorem eq_of_nameSpan? {h g : Head} (hh : h ∈ (parse f.source).root.walk fun _ => true)
    (hg : g ∈ (parse f.source).root.walk fun _ => true) {s : Span} (hs : nameSpan? f.source h = some s)
    {e : Edit} (he : e.Renames f.source g) (hstart : e.start = s.start) : g = h := by
  have hrenames := renames_nameEdit hs
  have hinside := inside_of_renames hh hrenames
  have hinside' := inside_of_renames hg he
  have hstop := he.stop
  have hstop' := hrenames.stop
  have hedit : (nameEdit s).start = s.start := rfl
  rcases eq_or_apart hg hh he.isPlain hrenames.isPlain with hsame | hle | hle
  · exact hsame
  · omega
  · omega

end Files

/-! ## What the check leaves behind -/

theorem onlyReports_deprecatedTag : deprecatedTag.OnlyReports fun _ v =>
    match v with
    | .node f _ n => (nodeReport? f n).toList
    | .endFile _ => [] := by
  intro past v
  cases v <;> rfl

/-- A node that is called `include` is a tag. -/
theorem kind_of_fired {n : Source.Node} {h : Head} (hshape : n.shape = .liquid h)
    (hfired : ("include" : Text) ∈ n.eventKinds) : h.kind = .tag := by
  have hnode : n.kind = (Shape.liquid h).kind := congrArg Shape.kind hshape
  have htag : n.isTag = decide (h.kind = .tag) := congrArg Shape.isTag hshape
  unfold Source.Node.eventKinds at hfired
  rw [htag, hnode, Shape.kind] at hfired
  cases hkind : h.kind with
  | tag => rfl
  | document | raw | «variable» =>
    rw [hkind] at hfired
    dsimp only at hfired
    exact absurd hfired (by decide)

/-- **A fix of the check is one of an `include` tag.** -/
theorem exists_fixOf {path content : Text} {version : Int} {p : PendingFix}
    (hp : p ∈ (visitAlone deprecatedTag (SourceFile.parse path content version)).fixes) :
    let f := SourceFile.parse path content version
    ∃ h ∈ (parse f.source).root.walk (fun _ => true), FixOf f h p := by
  intro f
  rw [visitAlone_eq onlyReports_deprecatedTag] at hp
  obtain ⟨r, hr, o, _, hraised⟩ := exists_offense_of_fix rfl hp
  obtain ⟨hpath, hfix⟩ := of_raise?_fix _ _ hraised
  have hcode := (raise?_code _ _ _ _ _ hraised).2 p rfl
  obtain ⟨v, hv, hr⟩ := List.mem_flatMap.1 hr
  cases v with
  | endFile g => cases hr
  | node g e n =>
    obtain ⟨rfl, h, hnode⟩ := calledAtNode rfl (Check.calledIn_of_fileVisits hv)
    have hr := Option.mem_toList.1 hr
    unfold nodeReport? at hr
    rw [hnode.shape] at hr
    obtain ⟨successor, hsuccessor, rfl⟩ := Option.map_eq_some_iff.1 hr
    obtain ⟨hname, rfl⟩ := eq_of_lookup hsuccessor
    obtain rfl := List.mem_singleton.1 hnode.subscribed
    exact ⟨h, hnode.head, kind_of_fired hnode.shape hnode.fired, hname, hfix, hpath, hcode⟩

/-! ## What becomes of the template -/

/-- The edits of some names, from left to right. -/
def nameEdits (src : Text) (spans : List Span) : List Edit :=
  ((((parse src).root.walk fun _ => true).filterMap (nameSpan? src)).filter (· ∈ spans)).map nameEdit

/-- **Names stand one behind the other.** -/
theorem inOrder_nameEdits (src : Text) (spans : List Span) :
    InOrder 0 (nameEdits src spans) src.length ∧ (nameEdits src spans).Pairwise fun a b => a.start < b.start := by
  have hplace {h : Head} (hh : h ∈ (parse src).root.walk fun _ => true) {s : Span} (hs : nameSpan? src h = some s) :
      h.start ≤ s.start ∧ s.start < s.stop ∧ s.stop ≤ h.openEnd ∧ s.stop ≤ src.length := by
    have hrenames := renames_nameEdit hs
    have hstop : s.stop = s.start + 7 := hrenames.stop
    have hinside : h.start ≤ s.start ∧ s.stop ≤ h.openEnd := inside_of_renames hh hrenames
    have hplaced := placed_of_walk hh
    omega
  have hedits (e : Edit) (he : e ∈ nameEdits src spans) : e.start < e.stop ∧ e.stop ≤ src.length := by
    obtain ⟨s, hs, rfl⟩ := List.mem_map.1 he
    obtain ⟨h, hh, hspan⟩ := List.mem_filterMap.1 (List.mem_filter.1 hs).1
    exact ⟨(hplace hh hspan).2.1, (hplace hh hspan).2.2.2⟩
  have hnames : (((parse src).root.walk fun _ => true).filterMap (nameSpan? src)).Pairwise
      fun s t => s.stop ≤ t.start := by
    refine List.pairwise_filterMap.2 ((openings_in_order src).imp_of_mem fun {h g} hh hg hapart s hs t ht => ?_)
    have hbehind := hapart (renames_nameEdit hs).isPlain (renames_nameEdit ht).isPlain
    have := hplace hh hs
    have := hplace hg ht
    omega
  have happart : (nameEdits src spans).Pairwise fun a b => a.stop ≤ b.start :=
    List.pairwise_map.2 (hnames.filter _)
  constructor
  · refine inOrder_of_pairwise happart (fun e he => ?_) (Nat.zero_le _)
    obtain ⟨hlt, hle⟩ := hedits e he
    exact ⟨Nat.zero_le _, Nat.le_of_lt hlt, hle⟩
  · exact happart.imp_of_mem fun ha _ hle => Nat.lt_of_lt_of_le (hedits _ ha).1 hle

section Applied

variable {f : SourceFile} {spans : List Span} {applied : List Edit}
variable (hspans : ∀ s ∈ spans, ∃ h ∈ (parse f.source).root.walk fun _ => true, nameSpan? f.source h = some s)

include hspans

/-- These are the edits that fixes of these names ask for. -/
theorem mem_nameEdits (e : Edit) : e ∈ nameEdits f.source spans ↔ e ∈ spans.map nameEdit := by
  constructor
  · intro he
    obtain ⟨s, hs, rfl⟩ := List.mem_map.1 he
    exact List.mem_map_of_mem (of_decide_eq_true (List.mem_filter.1 hs).2)
  · intro he
    obtain ⟨s, hs, rfl⟩ := List.mem_map.1 he
    exact List.mem_map_of_mem (List.mem_filter.2 ⟨List.mem_filterMap.2 (hspans s hs), decide_eq_true hs⟩)

variable (happlied : ∀ e, e ∈ nameEdits f.source spans ↔ ∃ a ∈ applied, a.plain = e)

include happlied

/-- An edit that is made is that of one of the names. -/
theorem exists_span {a : Edit} (ha : a ∈ applied) : ∃ s ∈ spans, nameEdit s = a.plain :=
  List.mem_map.1 ((mem_nameEdits hspans _).1 ((happlied _).2 ⟨a, ha, rfl⟩))

/-- **Every edit that is made renames a tag.** -/
theorem exists_renamed {a : Edit} (ha : a ∈ applied) :
    ∃ h ∈ (parse f.source).root.walk fun _ => true, a.Renames f.source h := by
  obtain ⟨s, hs, heq⟩ := exists_span hspans happlied ha
  obtain ⟨h, hh, hspan⟩ := hspans s hs
  have hrenames := renames_nameEdit hspan
  rw [heq] at hrenames
  exact ⟨h, hh, hrenames.of_plain⟩

/-- **The tags whose names are replaced** are those that fixes were registered for. -/
theorem registered_iff {h : Head} (hh : h ∈ (parse f.source).root.walk fun _ => true) :
    (∃ p ∈ spans.map (nameFix f), FixOf f h p) ↔ ∃ a ∈ applied, a.Renames f.source h := by
  constructor
  · rintro ⟨p, hp, hfix⟩
    obtain ⟨s, hs, rfl⟩ := List.mem_map.1 hp
    obtain ⟨s', hs', hsame⟩ := (fixOf_iff hh).1 hfix
    obtain rfl := eq_of_nameFix hsame
    obtain ⟨a, ha, heq⟩ := (happlied _).1 ((mem_nameEdits hspans _).2 (List.mem_map_of_mem hs))
    have hrenames := renames_nameEdit hs'
    rw [← heq] at hrenames
    exact ⟨a, ha, hrenames.of_plain⟩
  · rintro ⟨a, ha, hrenames⟩
    obtain ⟨s, hs, heq⟩ := exists_span hspans happlied ha
    obtain ⟨g, hg, hspan⟩ := hspans s hs
    obtain rfl := eq_of_nameSpan? hg hh hspan hrenames (congrArg Edit.start heq).symm
    exact ⟨_, List.mem_map_of_mem hs, (fixOf_iff hg).2 ⟨s, hspan, rfl⟩⟩

theorem patch_nameEdits :
    patch f.source 0 f.source.length (nameEdits f.source spans) =
      edited f.source applied 0 f.source.length := by
  have hrenaming := renaming_of_renames fun a ha => exists_renamed hspans happlied ha
  refine patch_eq_edited hrenaming.toEditsApart (inOrder_nameEdits f.source spans).1 (fun t ht => ?_)
    (fun a ha _ _ => ?_) (fun a _ => .inr (Nat.zero_le _)) fun a ha => .inl ?_
  · obtain ⟨a, ha, rfl⟩ := (happlied t).1 ht
    exact ⟨a, ha, rfl, rfl, rfl⟩
  · exact ⟨a.plain, (happlied _).2 ⟨a, ha, rfl⟩, rfl, rfl⟩
  · obtain ⟨h, hh, hrenames⟩ := exists_renamed hspans happlied ha
    have hinside := inside_of_renames hh hrenames
    have hplaced := placed_of_walk hh
    omega

end Applied

/-- Where no blank is overlooked, the lines of all tags stand in place. -/
theorem linesInPlace_of_counted {src : Text} (h : ∀ i ≤ src.length, overlookedAt src i = false) :
    LinesInPlace src := by
  intro g hg hname _
  have hkind : g.kind = .variable ∨ g.kind = .tag := by
    have hword : ("liquid" : Text) ≠ [] := by decide
    rw [← hname] at hword
    cases hkind : g.kind with
    | «variable» => exact .inl rfl
    | tag => exact .inr rfl
    | document => exact absurd (name_of_nameless hg (.inl hkind)) hword
    | raw => exact absurd (name_of_nameless hg (.inr hkind)) hword
  obtain ⟨_, _, _, _, _, p, _, hat, hp⟩ := located_of_walk hg hkind
  have hsize := hat.le_length
  rcases hp with rfl | ⟨i, _, hi, hover⟩
  · exact hat.slice_eq
  · rw [h i (by omega)] at hover
    cases hover

/-- **Fixes of deprecated tags rename and do nothing else.**  Let all fixes that the check asks for in a file be
applied.  No edit is dropped for another one, none is refused, and each fix is that of an `include` tag.  Where
the lines of `liquid` tags stand in place, the corrected source has the tree of the source, with offsets moved:
the tags that a fix was registered for are called `render` then, the markup of a `liquid` tag shows the names of
its lines as they are then, and nothing else is changed. -/
theorem deprecatedTag_renames (path stored : Text) (version : Int) :
    let f := SourceFile.parse path stored version
    let heads := (parse f.source).root.walk fun _ => true
    let raised := visitAlone deprecatedTag f
    let fixed := replay (some f) stored raised.fixes {}
    let edits := fixed.outcome.applied
    let corrected := Corrector.splice f.source edits
    let r := Recast.ofEdits f.source edits
    fixed.outcome.conflicts = [] ∧ fixed.failures = [] ∧
      fixed.outcome.content = (if edits.isEmpty then stored else f.encode corrected) ∧
      (∀ p ∈ raised.fixes, ∃ h ∈ heads, FixOf f h p) ∧
      (∀ h ∈ heads, (∃ p ∈ raised.fixes, FixOf f h p) → (h.recast r).name = "render") ∧
      (∀ h ∈ heads, ¬ (∃ p ∈ raised.fixes, FixOf f h p) → (h.recast r).name = h.name) ∧
      (∀ h ∈ heads, h.name ≠ "liquid" → (h.recast r).markup = h.markup) ∧
      (LinesInPlace f.source → (parse corrected).root = (parse f.source).root.recast r ∧
        (parse corrected).warnings = (parse f.source).warnings.map (Warning.moved r.move)) := by
  intro f heads raised fixed edits corrected r
  have hall : ∀ p ∈ raised.fixes, ∃ s, (∃ h ∈ heads, nameSpan? f.source h = some s) ∧ p = nameFix f s := by
    intro p hp
    obtain ⟨h, hh, hfix⟩ := exists_fixOf hp
    obtain ⟨s, hs, heq⟩ := (fixOf_iff hh).1 hfix
    exact ⟨s, ⟨h, hh, hs⟩, heq⟩
  obtain ⟨spans, hfixes, hspans⟩ := exists_eq_map hall
  obtain ⟨horder, hstarts⟩ := inOrder_nameEdits f.source spans
  obtain ⟨hconflicts, hfailures, hcontent, hsplice, happlied⟩ :=
    replay_spans stored hfixes horder hstarts (mem_nameEdits hspans)
  have hedits : ∀ a ∈ edits, ∃ h ∈ heads, a.Renames f.source h := fun a ha =>
    exists_renamed hspans happlied ha
  have hregistered (h : Head) (hh : h ∈ heads) :
      (∃ p ∈ raised.fixes, FixOf f h p) ↔ ∃ a ∈ edits, a.Renames f.source h := by
    rw [hfixes]
    exact registered_iff hspans happlied hh
  have hcorrected : corrected = edited f.source edits 0 f.source.length :=
    hsplice.trans (patch_nameEdits hspans happlied)
  refine ⟨hconflicts, hfailures, hcontent, fun p hp => exists_fixOf hp, fun h hh hfix => ?_, fun h hh hnone => ?_,
    fun h _ hname => if_neg fun hliquid => hname hliquid.1, fun hplace => ?_⟩
  · obtain ⟨a, ha, hrenames⟩ := (hregistered h hh).1 hfix
    exact if_pos ⟨hrenames.name, (hasEdit_iff hedits hh hrenames.isPlain).2 ⟨a, ha, hrenames⟩⟩
  · refine if_neg fun hinclude => hnone ((hregistered h hh).2 ?_)
    exact (hasEdit_iff hedits hh (isPlain_of_include hh hinclude.1)).1 hinclude.2
  · rw [hcorrected]
    exact parse_renamed hedits hplace

/-- A page that includes two templates, one of them by a line. -/
def includingPage : Text :=
  "\x7b% include \'include\' %\x7d\x7b%- liquid\n  include \'b\'\n  assign include = 1 -%\x7d"

/-- Both tags are renamed, and neither the literal nor the variable is. -/
theorem deprecatedTag_renames_page :
    let f := SourceFile.parse "app/views/pages/a.liquid" includingPage 1
    let fixed := replay (some f) includingPage (visitAlone deprecatedTag f).fixes {}
    let corrected := Corrector.splice f.source fixed.outcome.applied
    LinesInPlace f.source ∧ fixed.outcome.conflicts = [] ∧ fixed.failures = [] ∧
      ((parse f.source).root.walk fun _ => true).flatMap Head.entry =
        ([("include", "\'include\'"), ("liquid", "include \'b\'\n  assign include = 1"), ("include", "\'b\'"),
          ("assign", "include = 1")] : List (Text × Text)) ∧
      ((parse corrected).root.walk fun _ => true).flatMap Head.entry =
        ([("render", "\'include\'"), ("liquid", "render \'b\'\n  assign include = 1"), ("render", "\'b\'"),
          ("assign", "include = 1")] : List (Text × Text)) := by
  dsimp only
  have hplace : LinesInPlace (SourceFile.parse "app/views/pages/a.liquid" includingPage 1).source :=
    linesInPlace_of_counted (by decide +kernel)
  have hrenames := deprecatedTag_renames "app/views/pages/a.liquid" includingPage 1
  dsimp only at hrenames
  obtain ⟨hconflicts, hfailures, _, _, _, _, _, htree⟩ := hrenames
  refine ⟨hplace, hconflicts, hfailures, by decide +kernel, ?_⟩
  rw [(htree hplace).1]
  decide +kernel

/-- A page with no-break spaces in front of the lines of a tag. -/
def overlookingPage : Text :=
  "\x7b% liquid \u00A0\u00A0\u00A0\u00A0assign x = include\ninclude \'y\' %\x7d\x7b\x7b x \x7d\x7d"

/-- The name of the tag is found in the line in front of it, and the variable there is renamed. -/
theorem deprecatedTag_misplaced :
    ¬ ∀ (path stored : Text) (version : Int), (Project.classify path).category = .liquid →
      let f := SourceFile.parse path stored version
      let fixed := replay (some f) stored (visitAlone deprecatedTag f).fixes {}
      let corrected := Corrector.splice f.source fixed.outcome.applied
      (((parse corrected).root.walk fun _ => true).filter fun h => h.name ≠ ("liquid" : Text)).map Head.markup =
        (((parse f.source).root.walk fun _ => true).filter fun h => h.name ≠ ("liquid" : Text)).map Head.markup := by
  intro hall
  have hsame := hall "app/views/pages/a.liquid" overlookingPage 1 (by decide +kernel)
  have happlied :
      let f := SourceFile.parse "app/views/pages/a.liquid" overlookingPage 1
      (replay (some f) overlookingPage (visitAlone deprecatedTag f).fixes {}).outcome.applied =
        [⟨29, 36, "render", "DeprecatedTag", 0⟩] := by decide +kernel
  dsimp only at hsame happlied
  rw [happlied, Corrector.splice, List.mergeSort_singleton] at hsame
  exact absurd hsame (by decide +kernel)

end Rule.Deprecation
end LiquidLint
