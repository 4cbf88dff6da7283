import LiquidLint.Proofs.SingleCheck
import LiquidLint.Proofs.SpacingReports
import LiquidLint.Proofs.TokenTexts
import LiquidLint.Proofs.TreeBraces

/-!
# What is reported on a template

The rule is called for the variables and tags of a template.  It leaves out lines of `liquid` tags,
inline comments, and tags that are named like a variable; what it looks at are the other variables and
tags with the end tags of blocks (`watched`).  Its reports on a file are those on the delimiters of
these (`nodeReports_eq`), and each asks for a space in place of a gap that is not tidy
(`fix_fileReports`, `mem_fileSpans`).
-/

namespace LiquidLint
namespace Liquid

/-- The delimiters that a piece stands between. -/
def Piece.delimiter (p : Piece) : Delimiter := if p.kind = .variable then .variable else .tag

theorem not_isText_of_piece {tok : Token} (h : tok.piece.kind ≠ .text) : ¬ tok.kind.IsText := by
  intro htext
  unfold Token.piece at h
  cases hkind : tok.kind with
  | text | unterminated _ => exact h (by rw [hkind])
  | «variable» | tag =>
    rw [hkind] at htext
    exact htext

/-- **A variable or tag of a tree stands between its delimiters.** -/
theorem exists_text_of_braces {src : Text} {p : Piece} (hp : p ∈ (parse src).root.braces) :
    ∃ inner, p.stop = p.start + inner.length + 4 ∧ p.stop ≤ src.length ∧
      Text.slice src p.start p.stop = p.delimiter.opener ++ (inner ++ p.delimiter.closer) := by
  obtain ⟨hkind, tok, htok, rfl⟩ := exists_token_of_braces hp
  have htext := not_isText_of_piece hkind
  obtain ⟨d, inner, heq, hslice⟩ := exists_delimited htok htext
  have hdelimiter : tok.piece.delimiter = d := by
    have hkind : tok.kind = (Token.delimited d tok.start inner).kind := congrArg Token.kind heq
    unfold Piece.delimiter Token.piece
    rw [hkind]
    cases d with
    | «variable» => rfl
    | tag =>
      have htag : (Token.delimited .tag tok.start inner).kind = .tag := rfl
      rw [htag]
      cases closedBlock? tok.name <;> rfl
  have hplaced := (tiles_tokens src).follows.placed htok
  rw [Token.start_piece, Token.stop_piece, hdelimiter]
  refine ⟨inner, ?_, hplaced.2.2, hslice⟩
  rw [heq, Token.stop_delimited, Token.start_delimited]

end Liquid

namespace Rule
namespace Spacing

open Source Liquid

/-! ## Variables and tags -/

/-- The places of the gaps of a variable or tag that are not tidy. -/
def pieceSpans (src : Text) (p : Piece) : List Span :=
  tokenSpans p.start (Text.slice src p.start p.stop)

/-- The reports on a variable or tag. -/
def pieceReports (f : SourceFile) (p : Piece) : List Report :=
  delimited f p.start p.stop p.delimiter.opener p.delimiter.closer

/-- Each report on a variable or tag asks for a space in place of a gap that is not tidy. -/
theorem fix_pieceReports {f : SourceFile} {p : Piece} (hp : p ∈ (parse f.source).root.braces) :
    (pieceReports f p).map Report.fix =
      (pieceSpans f.source p).map fun s => some (spaceFix s) := by
  obtain ⟨inner, hstop, hle, htext⟩ := exists_text_of_braces hp
  unfold pieceReports pieceSpans
  rw [htext, tokenSpans_delimited, ← fix_bodyReports p.delimiter, hstop,
    delimited_eq (hstop ▸ htext) (hstop ▸ hle)]

/-- The variables and tags of a node that the rule looks at. -/
def watched (h : Head) : List Piece :=
  if h.name = "#" ∨ h.kind = .tag ∧ h.name = "variable" then [] else h.braces

/-- The variables and tags of a tree that the rule looks at. -/
def watchedIn (n : Liquid.Node) : List Piece := (n.walk fun _ => true).flatMap watched

theorem watched_subset (n : Liquid.Node) : watchedIn n ⊆ n.braces := by
  intro p hp
  obtain ⟨h, hh, hp⟩ := List.mem_flatMap.1 hp
  refine List.mem_flatMap.2 ⟨h, hh, ?_⟩
  unfold watched at hp
  split at hp
  · cases hp
  · exact hp

/-- A moved tree has what the rule looks at moved. -/
theorem watchedIn_moved (move : Nat → Nat) (n : Liquid.Node) :
    watchedIn (n.moved move) = (watchedIn n).map (Piece.moved move) := by
  have hhead (h : Head) : watched (h.moved move) = (watched h).map (Piece.moved move) := by
    unfold watched
    rw [Head.braces_moved]
    show (if h.name = "#" ∨ h.kind = .tag ∧ h.name = "variable" then [] else _) = _
    split
    · rfl
    · rfl
  unfold watchedIn
  rw [Node.walk_moved, List.flatMap_map, List.map_flatMap]
  exact congrArg (List.flatMap · _) (funext hhead)

/-- Only variables and tags are looked at. -/
theorem kind_of_watched {h : Head} {p : Piece} (hp : p ∈ watched h) :
    h.kind = .variable ∨ h.kind = .tag := by
  unfold watched Head.braces Head.pieces at hp
  split at hp
  · cases hp
  · split at hp
    · cases hp
    · cases hkind : h.kind with
      | document | raw =>
        rw [hkind] at hp
        cases hp
      | «variable» => exact .inl rfl
      | tag => exact .inr rfl

/-- A tag is not taken for a variable. -/
theorem delimited_of_tag {f : SourceFile} {start openEnd : Nat} {t : Text}
    (h : Text.slice f.source start openEnd = Delimiter.tag.opener ++ t) (stop : Nat) :
    delimited f start stop Delimiter.variable.opener Delimiter.variable.closer = [] := by
  have h : f.source.drop start =
      Delimiter.tag.opener ++ (t ++ (f.source.drop start).drop (openEnd - start)) := by
    rw [← List.append_assoc, ← h]
    exact (List.take_append_drop _ _).symm
  have hlt : start < f.source.length := by
    have hlength := congrArg List.length h
    rw [List.length_drop, List.length_append, Delimiter.length_opener] at hlength
    omega
  have hstarts (k : Nat) :
      Text.startsWith ((f.source.drop start).take k) Delimiter.variable.opener = false := by
    rw [h]
    rcases k with _ | _ | k <;> rfl
  have hslice : Text.startsWith (f.slice ⟨start, stop⟩) Delimiter.variable.opener = false := by
    unfold SourceFile.slice Range.within
    rw [clamp_natCast (Nat.zero_le start) (by omega)]
    exact hstarts _
  unfold delimited
  dsimp only
  rw [hslice]
  rfl

/-! ## Nodes -/

section Nodes

variable {h : Head}

theorem kind_of_variable (hkind : h.kind = .variable) : (Shape.liquid h).kind = "variable" := by
  unfold Shape.kind
  dsimp only
  rw [hkind]

/-- Which tags have the kind of a variable. -/
theorem kind_of_tag (hkind : h.kind = .tag) :
    (Shape.liquid h).kind = "variable" ↔ h.name = "variable" := by
  unfold Shape.kind
  dsimp only
  rw [hkind]
  dsimp only
  split
  · rename_i hcomment
    have hne : h.name ≠ "variable" := by
      intro heq
      rw [heq] at hcomment
      exact absurd hcomment (by decide)
    exact iff_of_false (by decide) hne
  · exact Iff.rfl

theorem braces_of_variable (hkind : h.kind = .variable) (hline : h.inLiquid = false) :
    h.braces = [⟨.variable, [], h.start, h.stop⟩] := by
  unfold Head.braces Head.pieces
  rw [hkind, hline]
  rfl

theorem braces_of_tag (hkind : h.kind = .tag) (hline : h.inLiquid = false) :
    h.braces = ⟨.opening, h.name, h.start, h.openEnd⟩ ::
      if h.closed then h.closeStart.toList.map fun close => ⟨.closing, h.name, close, h.stop⟩
      else [] := by
  unfold Head.braces Head.pieces
  rw [hkind, hline]
  cases h.closed with
  | false => rfl
  | true => cases h.closeStart <;> rfl

/-- **The reports on a node are those on its variables and tags.** -/
theorem nodeReports_eq {f : SourceFile} {n : Source.Node} (hshape : n.shape = .liquid h)
    (hh : h ∈ (parse f.source).root.walk fun _ => true) (hkind : h.kind = .variable ∨ h.kind = .tag) :
    nodeReports f n = (watched h).flatMap (pieceReports f) := by
  have hnode : n.kind = (Shape.liquid h).kind := congrArg Shape.kind hshape
  unfold nodeReports
  rw [hshape]
  dsimp only
  by_cases hleft : (h.inLiquid || decide (h.name = "#")) = true
  · have hnone : watched h = [] := by
      unfold watched
      rcases Bool.or_eq_true_iff.1 hleft with hline | hname
      · rw [show h.braces = [] from if_pos hline, ite_self]
      · exact if_pos (.inl (of_decide_eq_true hname))
    rw [if_pos hleft, hnone]
    rfl
  · obtain ⟨hline, hname⟩ := Bool.or_eq_false_iff.1 (Bool.eq_false_iff.2 hleft)
    have hname : h.name ≠ "#" := of_decide_eq_false hname
    rw [if_neg hleft]
    rcases hkind with hkind | hkind
    · have hwatched : watched h = h.braces := by
        refine if_neg ?_
        rintro (heq | ⟨htag, _⟩)
        · exact hname heq
        · rw [hkind] at htag
          cases htag
      rw [if_pos (hnode.trans (kind_of_variable hkind)), hwatched, braces_of_variable hkind hline,
        List.flatMap_singleton]
      rfl
    · have hpieces := braces_of_tag hkind hline
      by_cases hlike : h.name = "variable"
      · -- the tag is read as a variable, but it does not start like one
        have hopening : (⟨.opening, h.name, h.start, h.openEnd⟩ : Piece) ∈
            (parse f.source).root.braces := by
          refine List.mem_flatMap.2 ⟨h, hh, ?_⟩
          rw [hpieces]
          exact List.mem_cons_self ..
        obtain ⟨inner, hstop, hle, htext⟩ := exists_text_of_braces hopening
        have hwatched : watched h = [] := if_pos (.inr ⟨hkind, hlike⟩)
        rw [if_pos (hnode.trans ((kind_of_tag hkind).2 hlike)), hwatched]
        exact delimited_of_tag htext h.stop
      · have hwatched : watched h = h.braces :=
          if_neg (not_or.2 ⟨hname, fun hand => hlike hand.2⟩)
        have hother : n.kind ≠ "variable" := by
          rw [hnode]
          exact fun heq => hlike ((kind_of_tag hkind).1 heq)
        rw [if_neg hother, hwatched, hpieces, List.flatMap_cons]
        cases h.closed with
        | false => rfl
        | true =>
          cases h.closeStart with
          | none => rfl
          | some close => exact congrArg _ (List.append_nil _).symm

end Nodes

/-! ## Files -/

/-- The reports on a visit. -/
def visitReports : Visit → List Report
  | .node f _ n => nodeReports f n
  | .endFile _ => []

theorem onlyReports_spaceInsideBraces :
    spaceInsideBraces.OnlyReports fun _ v => visitReports v := by
  intro past v
  cases v <;> rfl

/-- The reports on a file. -/
def fileReports (f : SourceFile) : List Report :=
  (spaceInsideBraces.fileVisits f).flatMap visitReports

theorem listensTo_spaceInsideBraces {c : Project.Category} {e : Event} :
    spaceInsideBraces.listensTo c e = true ↔
      c = .liquid ∧ (e = ⟨.on, "variable"⟩ ∨ e = ⟨.on, "tag"⟩) := by
  unfold Check.listensTo
  rw [Bool.and_eq_true, List.contains_iff_mem, List.contains_iff_mem]
  show c ∈ [.liquid] ∧ e ∈ [(⟨.on, "variable"⟩ : Event), ⟨.on, "tag"⟩] ↔ _
  rw [List.mem_singleton, List.mem_cons, List.mem_singleton]

/-- The rule is called for the variables and tags of a template. -/
theorem mem_eventKinds {n : Source.Node} {h : Head} (hshape : n.shape = .liquid h) :
    ("variable" : Text) ∈ n.eventKinds ∨ ("tag" : Text) ∈ n.eventKinds ↔
      h.kind = .variable ∨ h.kind = .tag := by
  have hnode : n.kind = (Shape.liquid h).kind := congrArg Shape.kind hshape
  have htag : n.isTag = decide (h.kind = .tag) := congrArg Shape.isTag hshape
  unfold Source.Node.eventKinds
  rw [htag, hnode]
  cases hkind : h.kind with
  | document =>
    have hword : (Shape.liquid h).kind = "document" := by
      unfold Shape.kind
      dsimp only
      rw [hkind]
    rw [hword]
    exact iff_of_false (by decide) (by decide)
  | raw =>
    have hword : (Shape.liquid h).kind = "raw" := by
      unfold Shape.kind
      dsimp only
      rw [hkind]
    rw [hword]
    exact iff_of_false (by decide) (by decide)
  | «variable» =>
    rw [kind_of_variable hkind]
    exact iff_of_true (by decide) (.inl rfl)
  | tag => exact iff_of_true (.inr (List.mem_cons_of_mem _ (List.mem_cons_self ..))) (.inr rfl)

/-- The file was read as a template. -/
structure IsTemplate (f : SourceFile) : Prop where
  category : f.info.category = .liquid
  trees : ∃ html : Markup.Node, f.trees =
    [.ofLiquid f.source.length (parse f.source).root, .ofHtml f.source.length html]

theorem isTemplate_parse {path : Text} (h : (Project.classify path).category = .liquid)
    (stored : Text) (v : Int) : IsTemplate (SourceFile.parse path stored v) := by
  refine ⟨h, (Markup.parse (sourceOf stored)).root, ?_⟩
  unfold SourceFile.parse SourceFile.parts
  dsimp only
  rw [h]
  rfl

section Files

variable {f : SourceFile} (hf : IsTemplate f)

include hf

/-- The visits of a template are those of its own tree, and that of its end. -/
theorem fileVisits_of_template {k : Check} (hk : k.info.categories = [.liquid]) :
    k.fileVisits f = k.visitsFor f .liquid
      (Source.Node.ofLiquid f.source.length (parse f.source).root).firings ++ [.endFile f] := by
  obtain ⟨html, htrees⟩ := hf.trees
  have hliquid : Check.treeCategory f (.ofLiquid f.source.length (parse f.source).root) = .liquid :=
    rfl
  have hhtml : Check.treeCategory f (.ofHtml f.source.length html) = .html := by
    cases html
    rfl
  have hnone (firings : List (Event × Source.Node)) : k.visitsFor f .html firings = [] := by
    unfold Check.visitsFor
    rw [List.filter_eq_nil_iff.2, List.map_nil]
    intro p _ hlistens
    have hcategory := (Bool.and_eq_true_iff.1 hlistens).1
    rw [hk] at hcategory
    cases hcategory
  have happlies : k.info.appliesTo f.info.category = true := by
    unfold CheckInfo.appliesTo
    rw [hf.category, hk]
    decide
  unfold Check.fileVisits
  rw [htrees, happlies, if_pos rfl, List.flatMap_cons, List.flatMap_cons, List.flatMap_nil, hliquid,
    hhtml, hnone, List.append_nil, List.append_nil]

/-- A visit of a template is that of a variable or tag, or that of its end. -/
theorem fileVisits_cases {visit : Visit} (h : visit ∈ spaceInsideBraces.fileVisits f) :
    visit = .endFile f ∨ ∃ (e : Event) (n : Source.Node) (h : Head), visit = .node f e n ∧
      n.shape = .liquid h ∧ h ∈ ((parse f.source).root.walk fun _ => true) ∧
      (h.kind = .variable ∨ h.kind = .tag) := by
  rw [fileVisits_of_template hf rfl] at h
  rcases List.mem_append.1 h with hvisit | hvisit
  · obtain ⟨⟨e, n⟩, hfired, rfl⟩ := List.mem_map.1 hvisit
    obtain ⟨hfired, hlistens⟩ := List.mem_filter.1 hfired
    obtain ⟨hwalk, phase, hevent⟩ := Source.Node.mem_walk_of_firings _ hfired
    obtain ⟨_, hkind⟩ := listensTo_spaceInsideBraces.1 hlistens
    have hshape := List.mem_map_of_mem (f := Source.Node.shape) hwalk
    rw [Source.Node.shape_walk_ofLiquid] at hshape
    obtain ⟨h, hh, hshape⟩ := List.mem_map.1 hshape
    have hword := Source.Node.kind_mem_eventKinds hevent
    refine .inr ⟨e, n, h, rfl, hshape.symm, hh, (mem_eventKinds hshape.symm).1 ?_⟩
    rcases hkind with rfl | rfl
    · exact .inl hword
    · exact .inr hword
  · exact .inl (List.mem_singleton.1 hvisit)

/-- Each variable and tag of a template is visited. -/
theorem exists_fileVisit {h : Head} (hh : h ∈ (parse f.source).root.walk fun _ => true)
    (hkind : h.kind = .variable ∨ h.kind = .tag) :
    ∃ (e : Event) (n : Source.Node), .node f e n ∈ spaceInsideBraces.fileVisits f ∧
      n.shape = .liquid h := by
  have hshape := List.mem_map_of_mem (f := Shape.liquid) hh
  rw [← Source.Node.shape_walk_ofLiquid f.source.length] at hshape
  obtain ⟨n, hn, hshape⟩ := List.mem_map.1 hshape
  have hheard {e : Event} (he : e ∈ n.events .on)
      (hlistens : spaceInsideBraces.listensTo .liquid e = true) :
      .node f e n ∈ spaceInsideBraces.fileVisits f := by
    rw [fileVisits_of_template hf rfl]
    refine List.mem_append_left _ (List.mem_map.2 ⟨(e, n), List.mem_filter.2 ⟨?_, hlistens⟩, rfl⟩)
    exact Source.Node.mem_firings_of_walk _ hn he
  rcases (mem_eventKinds hshape).2 hkind with hword | hword
  · exact ⟨⟨.on, "variable"⟩, n, hheard (List.mem_map_of_mem hword) (by decide), hshape⟩
  · exact ⟨⟨.on, "tag"⟩, n, hheard (List.mem_map_of_mem hword) (by decide), hshape⟩

/-! ## Places -/

/-- The places that a visit reports on. -/
def visitSpans (src : Text) : Visit → List Span
  | .node _ _ n =>
    match n.shape with
    | .liquid h => (watched h).flatMap (pieceSpans src)
    | _ => []
  | .endFile _ => []

/-- The places that are reported on in a file. -/
def fileSpans (f : SourceFile) : List Span :=
  (spaceInsideBraces.fileVisits f).flatMap (visitSpans f.source)

/-- **Each report on a template asks for a space in one place.** -/
theorem fix_fileReports :
    (fileReports f).map Report.fix = (fileSpans f).map fun s => some (spaceFix s) := by
  unfold fileReports fileSpans
  rw [List.map_flatMap, List.map_flatMap]
  refine List.flatMap_congr fun visit hvisit => ?_
  rcases fileVisits_cases hf hvisit with rfl | ⟨e, n, h, rfl, hshape, hh, hkind⟩
  · rfl
  · show (nodeReports f n).map Report.fix = _
    have hspans : visitSpans f.source (.node f e n) = (watched h).flatMap (pieceSpans f.source) := by
      unfold visitSpans
      dsimp only
      rw [hshape]
    rw [hspans, nodeReports_eq hshape hh hkind, List.map_flatMap, List.map_flatMap]
    refine List.flatMap_congr fun p hp => fix_pieceReports ?_
    exact watched_subset _ (List.mem_flatMap.2 ⟨h, hh, hp⟩)

/-- The places are those of the variables and tags that the rule looks at. -/
theorem mem_fileSpans {s : Span} :
    s ∈ fileSpans f ↔ ∃ p ∈ watchedIn (parse f.source).root, s ∈ pieceSpans f.source p := by
  constructor
  · intro hs
    obtain ⟨visit, hvisit, hs⟩ := List.mem_flatMap.1 hs
    rcases fileVisits_cases hf hvisit with rfl | ⟨e, n, h, rfl, hshape, hh, hkind⟩
    · cases hs
    · unfold visitSpans at hs
      dsimp only at hs
      rw [hshape] at hs
      obtain ⟨p, hp, hs⟩ := List.mem_flatMap.1 hs
      exact ⟨p, List.mem_flatMap.2 ⟨h, hh, hp⟩, hs⟩
  · rintro ⟨p, hp, hs⟩
    obtain ⟨h, hh, hp⟩ := List.mem_flatMap.1 hp
    obtain ⟨e, n, hvisit, hshape⟩ := exists_fileVisit hf hh (kind_of_watched hp)
    refine List.mem_flatMap.2 ⟨_, hvisit, ?_⟩
    unfold visitSpans
    dsimp only
    rw [hshape]
    exact List.mem_flatMap.2 ⟨p, hp, hs⟩

end Files

end Spacing
end Rule
end LiquidLint
