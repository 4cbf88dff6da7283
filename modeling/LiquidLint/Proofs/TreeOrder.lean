import Mathlib.Data.List.Forall2
import LiquidLint.Proofs.BlockNesting
import LiquidLint.Proofs.TreeTotals
import LiquidLint.Source.Position

/-!
# Document order

The nodes of a template come in the order of its tokens.  An end tag brings no node of its own, and every
other token brings a node that stands behind all those that are in the tree already, so that what is seen at
the nodes, from the first one to the last one, only grows (`Builder.seen_add`, `Builder.seen_prefix`).
Ending a block moves nodes, and leaves their order as it is.

What is seen may not depend on the end of a node, which is not known while the node is open (`Blind`).

In this order, nodes stand one behind the other, up to their bodies, and lines in place of the tag that holds
them (`openings_in_order`).
-/

namespace LiquidLint
namespace Liquid

/-- What is seen at a head does not depend on where a block ends. -/
structure Blind {α : Type} (look : Head → List α) : Prop where
  cutAt_eq : ∀ (h : Head) (stop : Nat), look (h.cutAt stop) = look h
  closedBy_eq : ∀ (h : Head) (tok : Token), look (h.closedBy tok) = look h

section Seen

variable {α : Type} (look : Head → List α)

/-- What is seen at several nodes and below them, in document order. -/
def seenAll (ns : List Node) : List α := (Node.walkAll (fun _ => true) ns).flatMap look

/-- What is seen at an open block. -/
def Frame.seen (f : Frame) : List α :=
  look f.block ++ seenAll look f.done ++
    match f.branch with
    | none => []
    | some (h, cs) => look h ++ seenAll look cs

/-- What is seen at the tree under construction. -/
def Builder.seen (b : Builder) : List α :=
  seenAll look b.done ++ b.frames.reverse.flatMap (Frame.seen look)

/-- What is seen at the node of a token, which is added to the tree `b`. -/
def Builder.seenBy (src : Text) (b : Builder) (tok : Token) : List α :=
  match tok.kind with
  | .text | .unterminated _ => seenAll look [rawNode tok.start tok.stop tok.markup]
  | .variable => look (tok.head .variable)
  | .tag =>
    if tok.inLiquid && b.inComment tok then
      seenAll look [rawNode tok.start tok.stop (Text.slice src tok.start tok.stop)]
    else
      match tagRole tok.name with
      | .closes _ => []
      | .opens => look { tok.head .tag with block := true }
      | .lines => look (tok.head .tag) ++ seenAll look (addLines src b.warnings tok).done
      | .nameless | .branch | .inline | .unknown => look (tok.head .tag)

end Seen

section Steps

variable {α : Type} {look : Head → List α} {b : Builder} {f : Frame} {outer : List Frame}

@[simp] theorem seenAll_nil : seenAll look [] = [] := rfl

@[simp] theorem seenAll_append (ns ms : List Node) :
    seenAll look (ns ++ ms) = seenAll look ns ++ seenAll look ms := by
  induction ns with
  | nil => rfl
  | cons n rest ih =>
    simp only [seenAll, List.cons_append, Node.walkAll, List.flatMap_append, List.append_assoc] at ih ⊢
    rw [ih]

@[simp] theorem seenAll_mk (h : Head) (cs : List Node) :
    seenAll look [.mk h cs] = look h ++ seenAll look cs := by
  simp [seenAll, Node.walkAll, Node.walk]

@[simp] theorem seenAll_leaf (h : Head) : seenAll look [.leaf h] = look h := by
  simp [Node.leaf]

theorem Frame.seen_push (f : Frame) (n : Node) :
    (f.push n).seen look = f.seen look ++ seenAll look [n] := by
  unfold Frame.push Frame.seen
  cases f.branch with
  | none => simp
  | some opened => simp

theorem Builder.seen_cons (hframes : b.frames = f :: outer) :
    b.seen look = ({ b with frames := outer } : Builder).seen look ++ f.seen look := by
  simp [Builder.seen, hframes]

/-- **A node that is pushed is seen last.** -/
theorem Builder.seen_push (b : Builder) (n : Node) :
    (b.push n).seen look = b.seen look ++ seenAll look [n] := by
  unfold Builder.push
  cases hframes : b.frames with
  | nil => simp [Builder.seen, hframes]
  | cons f outer => simp [Builder.seen, hframes, Frame.seen_push]

section CutShort

variable (hcut : ∀ (h : Head) (stop : Nat), look (h.cutAt stop) = look h)

include hcut

theorem Frame.seen_childrenAt (f : Frame) (stop : Nat) :
    look f.block ++ seenAll look (f.childrenAt stop) = f.seen look := by
  unfold Frame.childrenAt Frame.seen
  cases f.branch with
  | none => simp
  | some opened =>
    have hbranch := hcut opened.1 stop
    unfold Head.cutAt at hbranch
    simp [hbranch]

theorem Frame.seen_cutShort (f : Frame) (stop : Nat) : seenAll look [f.cutShort stop] = f.seen look := by
  have hblock := hcut f.block stop
  unfold Head.cutAt at hblock
  rw [Frame.cutShort, seenAll_mk, hblock, seen_childrenAt hcut]

theorem Frame.seen_openBranch (f : Frame) (tok : Token) :
    (f.openBranch tok).seen look = f.seen look ++ look (tok.head .tag) := by
  rw [← seen_childrenAt hcut f tok.start]
  simp [Frame.openBranch, Frame.seen]

/-- **Ending the innermost block changes nothing that is seen.** -/
theorem Builder.seen_cutInnermost (hframes : b.frames = f :: outer) (stop : Nat) :
    (b.cutInnermost stop).seen look = b.seen look := by
  rw [cutInnermost_cons hframes, Builder.seen_push, Frame.seen_cutShort hcut, Builder.seen_cons hframes]
  rfl

end CutShort

variable (hlook : Blind look)

include hlook

theorem Frame.seen_closeWith (f : Frame) (tok : Token) : seenAll look [f.closeWith tok] = f.seen look := by
  have hclosed := hlook.closedBy_eq f.block tok
  unfold Head.closedBy at hclosed
  rw [Frame.closeWith, seenAll_mk, hclosed, seen_childrenAt hlook.cutAt_eq]

theorem Builder.seen_finish (b : Builder) (stop : Nat) :
    seenAll look (b.finish stop).done = b.seen look := by
  obtain ⟨hseen, hframes⟩ := Builder.finish_induction (P := fun b' => b'.seen look = b.seen look) stop
    (fun _ _ _ hframes h => (Builder.seen_cutInnermost hlook.cutAt_eq hframes stop).trans h) b rfl
  unfold Builder.seen at hseen
  rwa [hframes, List.reverse_nil, List.flatMap_nil, List.append_nil] at hseen

theorem Builder.seen_closeThrough {block : Text} {tok : Token}
    (hopen : ∃ f ∈ b.frames, f.block.name = block) :
    (b.closeThrough block tok).seen look = b.seen look := by
  refine Builder.closeThrough_induction (P := fun b' => b'.seen look = b.seen look)
    (Q := fun b' => b'.seen look = b.seen look)
    (fun _ _ _ hframes h => (Builder.seen_cutInnermost hlook.cutAt_eq hframes _).trans h) ?_ b hopen rfl
  intro b' f outer hframes _ h
  rw [Builder.seen_push, Frame.seen_closeWith hlook, ← h, Builder.seen_cons hframes]

/-- **The node of a token is seen last.** -/
theorem Builder.seen_add (src : Text) (b : Builder) (tok : Token) :
    (b.add src tok).seen look = b.seen look ++ b.seenBy look src tok := by
  unfold add seenBy
  cases tok.kind with
  | text | unterminated _ => exact seen_push b _
  | «variable» => rw [seen_push, seenAll_leaf]
  | tag =>
    have hmisfit (d : Defect) : ((b.warn d tok.start).push (.leaf (tok.head .tag))).seen look =
        b.seen look ++ look (tok.head .tag) := by
      rw [seen_push, seenAll_leaf]
      rfl
    dsimp only
    by_cases hcomment : (tok.inLiquid && b.inComment tok) = true
    · rw [if_pos hcomment, if_pos hcomment]
      exact seen_push b _
    · rw [if_neg hcomment, if_neg hcomment]
      cases tagRole tok.name with
      | nameless | unknown => exact hmisfit _
      | inline => exact (seen_push b _).trans (by rw [seenAll_leaf])
      | closes block =>
        dsimp only [addTag]
        rw [closeBlock, List.append_nil]
        split
        · rename_i hopen
          obtain ⟨f, hf, hname⟩ := List.any_eq_true.1 hopen
          exact seen_closeThrough hlook ⟨f, hf, of_decide_eq_true hname⟩
        · rfl
      | branch =>
        dsimp only [addTag]
        rw [branch]
        cases hframes : b.frames with
        | nil => exact hmisfit _
        | cons f outer =>
          dsimp only
          split
          · rw [seen_cons hframes, seen_cons rfl, Frame.seen_openBranch hlook.cutAt_eq, List.append_assoc]
          · exact hmisfit _
      | opens => simp [addTag, seen, Frame.seen]
      | lines =>
        dsimp only [addTag]
        rw [seen_push, seenAll_mk]
        rfl

/-- **What is seen once is seen to the end of a run.** -/
theorem Builder.seen_prefix (src : Text) (b : Builder) (toks : List Token) :
    b.seen look <+: (b.addTokens src toks).seen look := by
  induction toks generalizing b with
  | nil => simp only [addTokens_nil, List.prefix_rfl]
  | cons tok rest ih =>
    rw [addTokens_cons]
    refine List.IsPrefix.trans ?_ (ih (b.add src tok))
    rw [seen_add hlook]
    exact List.prefix_append _ _

end Steps

/-! ## Names and markups -/

/-- The name and the markup of a variable or tag. -/
def Head.entry (h : Head) : List (Text × Text) :=
  match h.kind with
  | .variable | .tag => [(h.name, h.markup)]
  | .document | .raw => []

theorem blind_entry : Blind Head.entry := ⟨fun _ _ => rfl, fun _ _ => rfl⟩

theorem entry_of_document {h : Head} (hkind : h.kind = .document) : h.entry = [] := by
  unfold Head.entry
  rw [hkind]

/-- A line with the same name and markup, elsewhere. -/
structure Token.AlikeLine (tok tok' : Token) : Prop where
  kind_eq : tok'.kind = tok.kind
  name_eq : tok'.name = tok.name
  markup_eq : tok'.markup = tok.markup
  inLiquid : tok.inLiquid = true ∧ tok'.inLiquid = true

theorem alikeLine_lineTokens (start start' : Nat) (lines : List Text) :
    List.Forall₂ Token.AlikeLine (lineTokens start lines) (lineTokens start' lines) := by
  induction lines generalizing start start' with
  | nil => exact .nil
  | cons line rest ih =>
    rw [lineTokens, lineTokens]
    dsimp only
    split
    · exact ih _ _
    · rw [splitTag_start _ (start + _), splitTag_start _ (start' + _)]
      exact .cons ⟨rfl, rfl, rfl, rfl, rfl⟩ (ih _ _)

/-- The lines of `liquid` tags are seen by their names and markups. -/
def SeesLines (look : Head → List (Text × Text)) : Prop :=
  ∀ h : Head, h.inLiquid = true ∨ h.kind = .raw → look h = h.entry

namespace Builder

variable {b b' : Builder} {src src' : Text} {tok tok' : Token}

/-- The names of the open blocks behind a token, innermost first. -/
def namesAfter (names : List Text) (tok : Token) : List Text :=
  match tok.kind with
  | .tag =>
    if tok.inLiquid && (names.head? = some ("comment" : Text) && tok.name ≠ "endcomment") then names
    else
      match tagRole tok.name with
      | .closes block => if block ∈ names then (names.dropWhile (· ≠ block)).tail else names
      | .opens => tok.name :: names
      | _ => names
  | _ => names

theorem inComment_eq (b : Builder) (tok : Token) :
    b.inComment tok = (b.openNames.head? = some ("comment" : Text) && tok.name ≠ "endcomment") := by
  unfold inComment openNames
  cases b.frames with
  | nil => rfl
  | cons f outer => simp

theorem openNames_closeThrough {block : Text} (hopen : block ∈ b.openNames) :
    (b.closeThrough block tok).openNames = (b.openNames.dropWhile (· ≠ block)).tail := by
  fun_induction closeThrough b block tok with
  | case1 b hframes => simp [openNames, hframes] at hopen
  | case2 b f outer hframes hname =>
    rw [openNames_push]
    simp [openNames, hframes, hname]
  | case3 b f outer hframes hname ih =>
    have hnames : b.openNames = f.block.name :: (b.cutInnermost tok.start).openNames := by
      have hblocks := congrArg (List.map Head.name) (blocks_cutInnermost hframes tok.start)
      simp only [List.map_map] at hblocks
      unfold openNames
      rw [hframes, List.map_cons]
      exact congrArg _ hblocks.symm
    rw [hnames] at hopen ⊢
    rw [ih ((List.mem_cons.1 hopen).resolve_left (Ne.symm hname)), List.dropWhile_cons_of_pos (by simpa using hname)]

theorem openNames_add (src : Text) (b : Builder) (tok : Token) :
    (b.add src tok).openNames = namesAfter b.openNames tok := by
  unfold add namesAfter
  cases tok.kind with
  | text | unterminated _ | «variable» => exact openNames_push b _
  | tag =>
    dsimp only
    rw [inComment_eq]
    split
    · exact openNames_push b _
    · cases tagRole tok.name with
      | nameless | unknown | inline => exact openNames_push _ _
      | opens => rfl
      | lines => exact openNames_push _ _
      | closes block =>
        dsimp only [addTag]
        have hmem : (b.frames.any fun f => f.block.name = block) = true ↔ block ∈ b.openNames := by
          simp [openNames]
        rw [closeBlock]
        by_cases hopen : block ∈ b.openNames
        · rw [if_pos (hmem.2 hopen), if_pos hopen, openNames_closeThrough hopen]
        · rw [if_neg (mt hmem.1 hopen), if_neg hopen]
          rfl
      | branch =>
        dsimp only [addTag]
        rw [branch]
        cases hframes : b.frames with
        | nil => exact openNames_push _ _
        | cons f outer =>
          dsimp only
          split
          · simp [openNames, hframes, Frame.openBranch]
          · exact openNames_push _ _

/-- **Lines are seen by their names and markups**, wherever they stand. -/
theorem seen_of_alikeLine {look : Head → List (Text × Text)} (hlook : Blind look) (hsees : SeesLines look)
    {toks toks' : List Token} (halike : List.Forall₂ Token.AlikeLine toks toks')
    (hnames : b'.openNames = b.openNames) (hseen : b'.seen look = b.seen Head.entry) :
    (b'.addTokens src' toks').seen look = (b.addTokens src toks).seen Head.entry := by
  induction toks using tokens_induction generalizing b b' toks' with
  | nil =>
    cases halike
    rwa [addTokens_nil, addTokens_nil]
  | cons tok rest ihlines ihrest =>
    cases halike with
    | @cons _ tok' _ rest' htok hrest =>
    obtain ⟨hkind, hname, hmarkup, hline, hline'⟩ := htok
    have hlines (warnings warnings' : List Warning) :
        seenAll look (addLines src' warnings' tok').done =
          seenAll Head.entry (addLines src warnings tok).done := by
      unfold addLines
      rw [seen_finish hlook, seen_finish blind_entry, hmarkup]
      exact ihlines (alikeLine_lineTokens _ _ _) rfl rfl
    have hby : b'.seenBy look src' tok' = b.seenBy Head.entry src tok := by
      have hhead (kind : NodeKind) : look (tok'.head kind) = (tok.head kind).entry := by
        rw [hsees _ (.inl hline')]
        simp [Token.head, Head.entry, hname, hmarkup]
      have hblock : look { tok'.head .tag with block := true } =
          ({ tok.head .tag with block := true } : Head).entry := by
        rw [hsees _ (.inl hline')]
        simp [Token.head, Head.entry, hname, hmarkup]
      have hraw (start stop : Nat) (markup : Text) : seenAll look [rawNode start stop markup] = [] := by
        rw [rawNode, seenAll_leaf]
        exact hsees _ (.inr rfl)
      have hraw' (start stop : Nat) (markup : Text) :
          seenAll Head.entry [rawNode start stop markup] = [] := by
        rw [rawNode, seenAll_leaf]
        rfl
      unfold seenBy
      rw [hkind, inComment_eq, inComment_eq, hnames, hname, hline, hline',
        hlines b.warnings b'.warnings]
      simp only [hhead, hblock, hraw, hraw']
    rw [addTokens_cons, addTokens_cons]
    refine ihrest hrest ?_ ?_
    · rw [openNames_add, openNames_add, hnames]
      unfold namesAfter
      rw [hkind, hname, hline, hline']
    · rw [seen_add hlook, seen_add blind_entry, hseen, hby]

end Builder

/-- The names and markups of the lines of a `liquid` tag with this markup. -/
def lineEntries (markup : Text) : List (Text × Text) :=
  (Builder.addTokens [] {} (liquidLines markup 0)).seen Head.entry

/-- What is seen at the node of a token that is no line. -/
def Token.seen (look : Head → List (Text × Text)) (tok : Token) : List (Text × Text) :=
  match tok.kind with
  | .text | .unterminated _ => []
  | .variable => look (tok.head .variable)
  | .tag =>
    match tagRole tok.name with
    | .closes _ => []
    | .opens => look { tok.head .tag with block := true }
    | .lines => look (tok.head .tag) ++ lineEntries tok.markup
    | .nameless | .branch | .inline | .unknown => look (tok.head .tag)

section Templates

variable {look : Head → List (Text × Text)} (hlook : Blind look) (hsees : SeesLines look)

include hlook hsees

theorem Builder.seen_addTokens (src : Text) (b : Builder) {toks : List Token}
    (htoks : ∀ tok ∈ toks, tok.inLiquid = false) :
    (b.addTokens src toks).seen look = b.seen look ++ toks.flatMap (Token.seen look) := by
  induction toks generalizing b with
  | nil => simp
  | cons tok rest ih =>
    have hlines : seenAll look (addLines src b.warnings tok).done = lineEntries tok.markup := by
      unfold addLines
      rw [seen_finish hlook]
      exact seen_of_alikeLine hlook hsees (alikeLine_lineTokens _ _ _) rfl rfl
    have hraw (start stop : Nat) (markup : Text) : seenAll look [rawNode start stop markup] = [] := by
      rw [rawNode, seenAll_leaf]
      exact hsees _ (.inr rfl)
    have hby : b.seenBy look src tok = tok.seen look := by
      unfold seenBy Token.seen
      rw [htoks tok (List.mem_cons_self ..), hlines]
      simp only [hraw, Bool.false_and, Bool.false_eq_true, if_false]
    rw [addTokens_cons, ih _ fun t ht => htoks t (List.mem_cons_of_mem _ ht), seen_add hlook, hby,
      List.flatMap_cons, List.append_assoc]

/-- **The nodes of a template come in the order of its tokens.** -/
theorem seen_parse (src : Text) :
    seenAll look (parse src).root.children = (tokens src).flatMap (Token.seen look) := by
  unfold parse
  exact (Builder.seen_finish hlook _ _).trans
    (Builder.seen_addTokens hlook hsees _ _ fun tok htok => inLiquid_tokens htok)

/-- The nodes of a template, with its root, where nothing is seen at the root. -/
theorem flatMap_walk_parse (src : Text) (hroot : ∀ h : Head, h.kind = .document → look h = []) :
    ((parse src).root.walk fun _ => true).flatMap look = (tokens src).flatMap (Token.seen look) := by
  rw [← seen_parse hlook hsees]
  unfold parse
  rw [Node.walk, if_pos rfl, List.flatMap_cons, hroot _ rfl]
  rfl

end Templates

/-! ## Nodes one behind the other -/

open Source

/-- The node is not the root, and no tag that holds lines. -/
def Head.IsPlain (h : Head) : Prop := h.kind ≠ .document ∧ h.name ≠ ("liquid" : Text)

instance (h : Head) : Decidable h.IsPlain := inferInstanceAs (Decidable (_ ∧ _))

/-- Where a node stands, up to its body, which does not depend on the end of the node. -/
def Head.opening (h : Head) : Span := ⟨h.start, h.openEnd⟩

/-- Where the nodes stand that hold no lines. -/
def plainOpenings (h : Head) : List Span := if h.IsPlain then [h.opening] else []

theorem blind_plainOpenings : Blind plainOpenings := ⟨fun _ _ => rfl, fun _ _ => rfl⟩

/-- The spans stand between `lo` and `hi`, in order and apart from each other. -/
structure SpansInOrder (lo : Nat) (spans : List Span) (hi : Nat) : Prop where
  apart : spans.Pairwise fun s t => s.stop ≤ t.start
  inside : ∀ s ∈ spans, lo ≤ s.start ∧ s.stop ≤ hi

theorem spansInOrder_nil (lo hi : Nat) : SpansInOrder lo [] hi :=
  ⟨.nil, fun _ hs => (List.not_mem_nil hs).elim⟩

theorem SpansInOrder.append {lo mid mid' hi : Nat} {spans more : List Span}
    (h : SpansInOrder lo spans mid) (h' : SpansInOrder mid' more hi) (hlo : lo ≤ mid')
    (hmid : mid ≤ mid') (hhi : mid ≤ hi) : SpansInOrder lo (spans ++ more) hi := by
  refine ⟨List.pairwise_append.2 ⟨h.apart, h'.apart, fun s hs t ht => ?_⟩, fun s hs => ?_⟩
  · have hstop := (h.inside s hs).2
    have hstart := (h'.inside t ht).1
    omega
  · rcases List.mem_append.1 hs with hs | hs
    · obtain ⟨hstart, hstop⟩ := h.inside s hs
      exact ⟨hstart, Nat.le_trans hstop hhi⟩
    · obtain ⟨hstart, hstop⟩ := h'.inside s hs
      exact ⟨Nat.le_trans hlo hstart, hstop⟩

/-- What a token adds stands inside it. -/
theorem spansInOrder_seenBy {src : Text} {b : Builder} {tok : Token} {lo : Nat} (hle : lo ≤ tok.start)
    (hlines : SpansInOrder tok.start (seenAll plainOpenings (Builder.addLines src b.warnings tok).done)
      tok.stop) : SpansInOrder lo (b.seenBy plainOpenings src tok) tok.stop := by
  have hone {h : Head} (hopening : h.opening = ⟨tok.start, tok.stop⟩) :
      SpansInOrder lo (plainOpenings h) tok.stop := by
    unfold plainOpenings
    split
    · refine ⟨List.pairwise_singleton .., fun s hs => ?_⟩
      rw [List.mem_singleton.1 hs, hopening]
      exact ⟨hle, Nat.le_refl _⟩
    · exact spansInOrder_nil ..
  have hself (kind : NodeKind) : SpansInOrder lo (plainOpenings (tok.head kind)) tok.stop := hone rfl
  have hraw (markup : Text) :
      SpansInOrder lo (seenAll plainOpenings [rawNode tok.start tok.stop markup]) tok.stop := by
    rw [rawNode, seenAll_leaf]
    exact hone rfl
  unfold Builder.seenBy
  cases tok.kind with
  | text | unterminated _ => exact hraw _
  | «variable» => exact hself .variable
  | tag =>
    dsimp only
    split
    · exact hraw _
    · cases hrole : tagRole tok.name with
      | closes block => exact spansInOrder_nil ..
      | opens | nameless | branch | inline | unknown => exact hself .tag
      | lines =>
        have hempty : plainOpenings (tok.head .tag) = [] :=
          if_neg fun hplain => hplain.2 (name_of_lines hrole)
        dsimp only
        rw [hempty, List.nil_append]
        exact ⟨hlines.apart, fun s hs => ⟨Nat.le_trans hle (hlines.inside s hs).1, (hlines.inside s hs).2⟩⟩

/-- **The nodes of a run stand in order**, as its tokens do. -/
theorem spansInOrder_seen {src : Text} {toks : List Token} :
    ∀ {b : Builder} {lo hi : Nat}, Follows lo toks hi →
      ∃ spans, (b.addTokens src toks).seen plainOpenings = b.seen plainOpenings ++ spans ∧
        SpansInOrder lo spans hi := by
  induction toks using Builder.tokens_induction with
  | nil =>
    intro b lo hi _
    exact ⟨[], by rw [Builder.addTokens_nil, List.append_nil], spansInOrder_nil ..⟩
  | cons tok rest ihlines ih =>
    intro b lo hi hfollows
    obtain ⟨hle, hplaced, hrest⟩ := hfollows
    obtain ⟨spans, hseen, horder⟩ := ih (b := b.add src tok) hrest
    have hby : SpansInOrder lo (b.seenBy plainOpenings src tok) tok.stop := by
      refine spansInOrder_seenBy hle ?_
      obtain ⟨lines, hseen, horder⟩ := ihlines (b := { warnings := b.warnings })
        (follows_liquidLines tok.markup tok.markupStart)
      have hempty : ({ warnings := b.warnings } : Builder).seen plainOpenings = [] := rfl
      have hlines : seenAll plainOpenings (Builder.addLines src b.warnings tok).done = lines := by
        rw [Builder.addLines, Builder.seen_finish blind_plainOpenings, hseen, hempty, List.nil_append]
      have hmarkup := hplaced.start_le_markup
      have hstop := hplaced.markup_le_stop
      rw [hlines]
      refine ⟨horder.apart, fun s hs => ?_⟩
      obtain ⟨hlo, hhi⟩ := horder.inside s hs
      exact ⟨Nat.le_trans hmarkup hlo, Nat.le_trans hhi hstop⟩
    refine ⟨b.seenBy plainOpenings src tok ++ spans, ?_, ?_⟩
    · rw [Builder.addTokens_cons, hseen, Builder.seen_add blind_plainOpenings, List.append_assoc]
    · have hlt := hplaced.start_lt_stop
      exact hby.append horder (by omega) (Nat.le_refl _) hrest.le

/-- **The nodes of a template stand one behind the other**, up to their bodies, and lines in place of the tag
that holds them. -/
theorem openings_in_order (src : Text) :
    ((parse src).root.walk fun _ => true).Pairwise fun h g =>
      h.IsPlain → g.IsPlain → h.openEnd ≤ g.start := by
  obtain ⟨spans, hseen, horder⟩ := @spansInOrder_seen src _
    { warnings := unterminatedWarnings (tokens src) } _ _ (tiles_tokens src).follows
  have hempty : ({ warnings := unterminatedWarnings (tokens src) } : Builder).seen plainOpenings = [] := rfl
  have hbelow : (Node.walkAll (fun _ => true) (parse src).root.children).flatMap plainOpenings = spans := by
    have hrun := Builder.seen_finish blind_plainOpenings (Builder.addTokens src
      { warnings := unterminatedWarnings (tokens src) } (tokens src)) src.length
    rw [hseen, hempty, List.nil_append] at hrun
    exact hrun
  have hheads : (Node.walkAll (fun _ => true) (parse src).root.children).Pairwise fun h g =>
      h.IsPlain → g.IsPlain → h.openEnd ≤ g.start := by
    have hmap : plainOpenings = fun h : Head => (if h.IsPlain then some h.opening else none).toList := by
      funext h
      unfold plainOpenings
      split <;> rfl
    have hapart := horder.apart
    rw [← hbelow, hmap, ← List.filterMap_eq_flatMap_toList] at hapart
    refine (List.pairwise_filterMap.1 hapart).imp fun {h g} hplaces hh hg => ?_
    exact hplaces h.opening (if_pos hh) g.opening (if_pos hg)
  exact List.pairwise_cons.2 ⟨fun _ _ hroot => absurd rfl hroot.1, hheads⟩

/-- The markup of a tag stands inside it. -/
theorem markup_inside {src : Text} {h : Head} (hh : h ∈ (parse src).root.walk fun _ => true)
    (hkind : h.kind = .tag) :
    h.start ≤ h.markupStart ∧ h.markupStart + h.markup.length ≤ h.openEnd := by
  refine forall_below_root
    (P := fun h => h.kind = .tag →
      h.start ≤ h.markupStart ∧ h.markupStart + h.markup.length ≤ h.openEnd)
    (Q := Token.Placed) (fun _ _ _ _ => Iff.rfl) (fun tok htok => ?_) (fun tok _ _ line hline => ?_)
    (fun b tok n htok hleaf => ?_) (fun tok htok _ => ?_) (mem_below_of_walk hh (by rw [hkind]; nofun)) hkind
  · exact ((tiles_tokens src).follows.placed htok).2.1
  · exact ((follows_liquidLines tok.markup tok.markupStart).placed hline).2.1
  · cases hleaf with
    | text _ | comment _ _ _ | «variable» _ => exact fun htag => nomatch htag
    | inline _ _ _ => exact fun _ => ⟨htok.start_le_markup, htok.markup_le_stop⟩
  · have hplace : tok.start ≤ tok.markupStart ∧ tok.markupStart + tok.markup.length ≤ tok.stop :=
      ⟨htok.start_le_markup, htok.markup_le_stop⟩
    exact ⟨fun _ => hplace, fun _ => hplace⟩

end Liquid
end LiquidLint
