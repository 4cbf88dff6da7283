import LiquidLint.Proofs.InlineTags
import LiquidLint.Proofs.TreeOrder

/-!
# Trees of templates that differ in offsets, names and markups

When a template is changed so that its tokens stay the same but for their places, the names of some tags
that stand alone, and some markups (`Token.recast`), its tree changes in the same way, and the order of its
warnings does not (`parse_recast`).  The builder follows the roles of tags and the names of open blocks, and
these are kept (`Recast.Keeps`).

The one place where the builder looks at the source again is a line inside a comment of a `liquid` tag,
which is kept as it stands.  Such a line is a raw node, and what is required of the bytes of a raw node is
put as something that is not seen in the tree (`Recast.Carries`).
-/

namespace LiquidLint
namespace Liquid

/-- How the tokens and nodes of a template are changed. -/
structure Recast where
  /-- Where an offset moves. -/
  move : Nat → Nat
  /-- What becomes of the name of a tag that stands from `start` to `stop`. -/
  name : (start stop : Nat) → Text → Text
  /-- What becomes of the markup at `start` of a tag with the name `name`. -/
  markup : (name : Text) → (start : Nat) → Text → Text

/-- The warning with its offset moved. -/
def Warning.moved (move : Nat → Nat) (w : Warning) : Warning := ⟨w.message, move w.offset⟩

section Recasts

variable (r : Recast)

/-- The token with its parts changed. -/
def Token.recast (tok : Token) : Token :=
  { tok with
    start := r.move tok.start
    stop := r.move tok.stop
    name := r.name tok.start tok.stop tok.name
    markup := r.markup tok.name tok.markupStart tok.markup
    markupStart := r.move tok.markupStart }

/-- The head with its parts changed. -/
def Head.recast (h : Head) : Head :=
  { h with
    start := r.move h.start
    stop := r.move h.stop
    name := r.name h.start h.openEnd h.name
    markup := r.markup h.name h.markupStart h.markup
    markupStart := r.move h.markupStart
    openEnd := r.move h.openEnd
    closeStart := h.closeStart.map r.move }

mutual

/-- The node with all its parts changed. -/
def Node.recast : Node → Node
  | .mk h cs => .mk (h.recast r) (Node.recastAll cs)

/-- `recast` of each node. -/
def Node.recastAll : List Node → List Node
  | [] => []
  | n :: rest => Node.recast n :: Node.recastAll rest

end

theorem Node.recastAll_eq_map (ns : List Node) : Node.recastAll r ns = ns.map (Node.recast r) := by
  induction ns with
  | nil => rfl
  | cons n rest ih => rw [Node.recastAll, List.map_cons, ih]

/-- The open block with all its parts changed. -/
def Frame.recast (f : Frame) : Frame :=
  { block := f.block.recast r
    done := f.done.map (Node.recast r)
    branch := f.branch.map fun opened => (opened.1.recast r, opened.2.map (Node.recast r)) }

/-- The tree under construction with all its parts changed. -/
def Builder.recast (b : Builder) : Builder :=
  { done := b.done.map (Node.recast r)
    frames := b.frames.map (Frame.recast r)
    warnings := b.warnings.map (Warning.moved r.move) }

end Recasts

/-- Roles are kept, and only tags that stand alone get another name; a node without a name keeps its
markup. -/
structure Recast.Keeps (r : Recast) : Prop where
  role_eq : ∀ start stop name, tagRole (r.name start stop name) = tagRole name
  name_eq : ∀ start stop name, tagRole name ≠ .inline → r.name start stop name = name
  markup_eq : ∀ start markup, r.markup [] start markup = markup

section Steps

variable {r : Recast}

theorem Node.recast_mk (h : Head) (cs : List Node) :
    (Node.mk h cs).recast r = .mk (h.recast r) (cs.map (Node.recast r)) := by
  rw [Node.recast, Node.recastAll_eq_map]

@[simp] theorem Node.recast_leaf (h : Head) : (Node.leaf h).recast r = .leaf (h.recast r) := rfl

@[simp] theorem Token.head_recast (kind : NodeKind) (tok : Token) :
    (tok.head kind).recast r = (tok.recast r).head kind := rfl

theorem Recast.Keeps.rawNode (hr : r.Keeps) (start stop : Nat) (markup : Text) :
    (rawNode start stop markup).recast r = rawNode (r.move start) (r.move stop) markup := by
  unfold Liquid.rawNode
  rw [Node.recast_leaf]
  simp [Head.recast, hr.markup_eq, hr.name_eq start stop [] (by decide)]

/-! ## Open blocks -/

namespace Frame

theorem push_recast (f : Frame) (n : Node) :
    (f.push n).recast r = (f.recast r).push (n.recast r) := by
  unfold Frame.push Frame.recast
  cases f.branch with
  | none => simp
  | some opened => simp

theorem childrenAt_recast (f : Frame) (stop : Nat) :
    (f.childrenAt stop).map (Node.recast r) = (f.recast r).childrenAt (r.move stop) := by
  unfold Frame.childrenAt Frame.recast
  cases f.branch with
  | none => rfl
  | some opened =>
    simp only [Option.map_some, List.map_append, List.map_cons, List.map_nil, Node.recast_mk]
    rfl

theorem openBranch_recast (f : Frame) (tok : Token) :
    (f.openBranch tok).recast r = (f.recast r).openBranch (tok.recast r) := by
  have hchildren := @childrenAt_recast r f tok.start
  unfold Frame.openBranch
  rw [show (tok.recast r).start = r.move tok.start from rfl, ← hchildren]
  rfl

theorem cutShort_recast (f : Frame) (stop : Nat) :
    (f.cutShort stop).recast r = (f.recast r).cutShort (r.move stop) := by
  unfold Frame.cutShort
  rw [Node.recast_mk, childrenAt_recast]
  rfl

theorem closeWith_recast (f : Frame) (tok : Token) :
    (f.closeWith tok).recast r = (f.recast r).closeWith (tok.recast r) := by
  unfold Frame.closeWith
  rw [Node.recast_mk, childrenAt_recast]
  rfl

/-- An open block keeps its name. -/
theorem Alone.name_recast {f : Frame} (h : f.Alone) (hr : r.Keeps) :
    (f.recast r).block.name = f.block.name :=
  hr.name_eq _ _ _ (by rw [h.opens]; nofun)

end Frame

namespace Builder

variable {b : Builder} {f : Frame} {outer : List Frame}

theorem frames_recast (hframes : b.frames = f :: outer) :
    (b.recast r).frames = f.recast r :: outer.map (Frame.recast r) := by
  simp [Builder.recast, hframes]

theorem frames_recast_nil (hframes : b.frames = []) : (b.recast r).frames = [] := by
  simp [Builder.recast, hframes]

theorem push_recast (b : Builder) (n : Node) :
    (b.push n).recast r = (b.recast r).push (n.recast r) := by
  unfold Builder.push Builder.recast
  cases b.frames with
  | nil => simp
  | cons f outer => simp [Frame.push_recast]

theorem warn_recast (b : Builder) (d : Defect) (offset : Nat) :
    (b.warn d offset).recast r = (b.recast r).warn d (r.move offset) := by
  unfold Builder.warn Builder.recast
  simp only [List.map_append]
  rfl

theorem misfit_recast (b : Builder) (d : Defect) (tok : Token) :
    ((b.warn d tok.start).push (.leaf (tok.head .tag))).recast r =
      ((b.recast r).warn d (tok.recast r).start).push (.leaf ((tok.recast r).head .tag)) := by
  rw [push_recast, warn_recast]
  rfl

variable (hr : r.Keeps)

include hr

theorem inComment_recast (hb : b.Alone) (tok : Token) :
    (b.recast r).inComment (tok.recast r) = b.inComment tok := by
  have hend : (tok.recast r).name = "endcomment" ↔ tok.name = "endcomment" := by
    have hrole := hr.role_eq tok.start tok.stop tok.name
    constructor
    · intro hname
      have hname' : r.name tok.start tok.stop tok.name = "endcomment" := hname
      rw [← hname', hr.name_eq]
      rw [← hrole, hname']
      decide
    · intro hname
      refine (hr.name_eq tok.start tok.stop tok.name ?_).trans hname
      rw [hname]
      decide
  unfold Builder.inComment
  cases hframes : b.frames with
  | nil => rw [frames_recast_nil hframes]
  | cons f outer =>
    have hf := (hb.of_cons hframes).1
    rw [frames_recast hframes]
    dsimp only
    rw [hf.name_recast hr]
    simp only [ne_eq, hend]

theorem cutInnermost_recast (hb : b.Alone) (stop : Nat) :
    (b.cutInnermost stop).recast r = (b.recast r).cutInnermost (r.move stop) := by
  cases hframes : b.frames with
  | nil =>
    unfold Builder.cutInnermost
    rw [hframes, frames_recast_nil hframes]
  | cons f outer =>
    have hf := (hb.of_cons hframes).1
    rw [cutInnermost_cons hframes, cutInnermost_cons (frames_recast hframes), push_recast, warn_recast,
      Frame.cutShort_recast, hf.name_recast hr]
    rfl

theorem finish_recast (hb : b.Alone) (stop : Nat) :
    (b.finish stop).recast r = (b.recast r).finish (r.move stop) := by
  fun_induction finish b stop with
  | case1 b hempty =>
    have hempty' : (b.recast r).frames.isEmpty = true := by
      simpa [Builder.recast] using hempty
    rw [finish, if_pos hempty']
  | case2 b hne ih =>
    have hne' : ¬ (b.recast r).frames.isEmpty = true := by
      simpa [Builder.recast] using hne
    rw [ih (hb.cutInnermost stop), cutInnermost_recast hr hb, finish.eq_def (b.recast r), if_neg hne']

theorem closeThrough_recast (hb : b.Alone) (block : Text) (tok : Token) :
    (b.closeThrough block tok).recast r = (b.recast r).closeThrough block (tok.recast r) := by
  fun_induction closeThrough b block tok with
  | case1 b hframes =>
    have hframes' := @frames_recast_nil r b hframes
    rw [closeThrough]
    split
    · rfl
    · rename_i hcons
      rw [hframes'] at hcons
      cases hcons
  | case2 b f outer hframes hname =>
    have hf := (hb.of_cons hframes).1
    have hclose := closeThrough_innermost (@frames_recast r b f outer hframes) (tok.recast r)
    rw [hf.name_recast hr, hname] at hclose
    rw [hclose, push_recast, Frame.closeWith_recast]
    rfl
  | case3 b f outer hframes hname ih =>
    have hf := (hb.of_cons hframes).1
    rw [ih (hb.cutInnermost _), cutInnermost_recast hr hb, closeThrough.eq_def (b.recast r)]
    split
    · rename_i hnil
      rw [frames_recast hframes] at hnil
      cases hnil
    · rename_i f' outer' hcons
      rw [frames_recast hframes] at hcons
      obtain ⟨rfl, _⟩ := List.cons.inj hcons
      rw [if_neg (by rw [hf.name_recast hr]; exact hname)]
      rfl

theorem closeBlock_recast (hb : b.Alone) (block : Text) {tok : Token}
    (hname : (tok.recast r).name = tok.name) :
    (b.closeBlock block tok).recast r = (b.recast r).closeBlock block (tok.recast r) := by
  have hany : ((b.recast r).frames.any fun f => f.block.name = block) =
      b.frames.any fun f => f.block.name = block := by
    have hnames := hb.frames
    simp only [Builder.recast, List.any_map]
    generalize b.frames = frames at hnames
    induction frames with
    | nil => rfl
    | cons f outer ih =>
      rw [List.any_cons, List.any_cons, ih fun g hg => hnames g (List.mem_cons_of_mem _ hg),
        Function.comp_apply, (hnames f (List.mem_cons_self ..)).name_recast hr]
  unfold Builder.closeBlock
  rw [hany, hname]
  split
  · exact closeThrough_recast hr hb block tok
  · exact warn_recast b _ tok.start

theorem branch_recast (hb : b.Alone) {tok : Token} (hname : (tok.recast r).name = tok.name) :
    (b.branch tok).recast r = (b.recast r).branch (tok.recast r) := by
  have hmisfit := @misfit_recast r b (.unknownTag tok.name) tok
  unfold Builder.branch
  cases hframes : b.frames with
  | nil =>
    rw [frames_recast_nil hframes]
    dsimp only
    rw [hname]
    exact hmisfit
  | cons f outer =>
    have hf := (hb.of_cons hframes).1
    rw [frames_recast hframes]
    dsimp only
    rw [hf.name_recast hr, hname]
    by_cases hbranch : isBranchOf f.block.name tok.name = true
    · rw [if_pos hbranch, if_pos hbranch, ← Frame.openBranch_recast]
      rfl
    · rw [if_neg hbranch, if_neg hbranch]
      exact hmisfit

end Builder

end Steps

/-! ## Runs -/

/-- The change of tokens with `Q` is a change of the source from `src` to `src'`: it comes to the lines of a
tag, and a line that is kept as it stands is as it was, unless something `bad` is seen at it. -/
structure Recast.Carries {α : Type} (r : Recast) (src src' : Text) (bad : Head → List α)
    (Q : Token → Prop) : Prop where
  keeps : r.Keeps
  text_eq : ∀ tok, Q tok → tok.kind ≠ .tag → (tok.recast r).markup = tok.markup
  lines : ∀ tok, Q tok → tok.kind = .tag → tagRole tok.name = .lines →
    ∀ line ∈ liquidLines tok.markup tok.markupStart, Q line
  lines_eq : ∀ tok, Q tok → tok.kind = .tag → tagRole tok.name = .lines →
    liquidLines (tok.recast r).markup (tok.recast r).markupStart =
      (liquidLines tok.markup tok.markupStart).map (Token.recast r)
  raw_eq : ∀ tok, Q tok → tok.inLiquid = true →
    seenAll bad [rawNode tok.start tok.stop (Text.slice src tok.start tok.stop)] = [] →
    Text.slice src' (r.move tok.start) (r.move tok.stop) = Text.slice src tok.start tok.stop

section Runs

variable {α : Type} {r : Recast} {src src' : Text} {bad : Head → List α} {Q : Token → Prop}

namespace Builder

variable {b : Builder} {tok : Token}

/-- **One token.** -/
theorem add_recast (h : r.Carries src src' bad Q) (hb : b.Alone) (htok : Q tok)
    (hbad : b.seenBy bad src tok = [])
    (hlines : tok.kind = .tag → tagRole tok.name = .lines →
      seenAll bad (addLines src b.warnings tok).done = [] →
      (addLines src b.warnings tok).recast r =
        addLines src' (b.warnings.map (Warning.moved r.move)) (tok.recast r)) :
    (b.add src tok).recast r = (b.recast r).add src' (tok.recast r) := by
  unfold seenBy at hbad
  unfold add
  rw [show (tok.recast r).kind = tok.kind from rfl,
    show (tok.recast r).inLiquid = tok.inLiquid from rfl, inComment_recast h.keeps hb]
  cases hkind : tok.kind with
  | text | unterminated _ =>
    dsimp only
    rw [push_recast, h.keeps.rawNode, h.text_eq tok htok (by rw [hkind]; nofun)]
    rfl
  | «variable» => exact push_recast b _
  | tag =>
    rw [hkind] at hbad
    dsimp only at hbad ⊢
    by_cases hcomment : (tok.inLiquid && b.inComment tok) = true
    · rw [if_pos hcomment] at hbad
      rw [if_pos hcomment, if_pos hcomment, push_recast, h.keeps.rawNode]
      refine congrArg (fun t => (b.recast r).push (rawNode _ _ t)) ?_
      exact (h.raw_eq tok htok (Bool.and_eq_true_iff.1 hcomment).1 hbad).symm
    · rw [if_neg hcomment] at hbad
      rw [if_neg hcomment, if_neg hcomment,
        show tagRole (tok.recast r).name = tagRole tok.name from h.keeps.role_eq _ _ _]
      have hname (hrole : tagRole tok.name ≠ .inline) : (tok.recast r).name = tok.name :=
        h.keeps.name_eq _ _ _ hrole
      cases hrole : tagRole tok.name with
      | nameless => exact misfit_recast b _ tok
      | closes block => exact closeBlock_recast h.keeps hb block (hname (by rw [hrole]; nofun))
      | branch => exact branch_recast h.keeps hb (hname (by rw [hrole]; nofun))
      | opens => rfl
      | lines =>
        rw [hrole] at hbad
        have hsame := hlines hkind hrole (List.append_eq_nil_iff.1 hbad).2
        unfold addTag
        rw [push_recast, Node.recast_mk,
          show (b.recast r).warnings = b.warnings.map (Warning.moved r.move) from rfl, ← hsame]
        rfl
      | inline => exact push_recast b _
      | unknown =>
        have hmisfit := @misfit_recast r b (.unknownTag tok.name) tok
        unfold addTag
        rw [hname (by rw [hrole]; nofun)]
        exact hmisfit

/-- **A run on changed tokens gives the changed tree.** -/
theorem addTokens_recast (h : r.Carries src src' bad Q) (hblind : Blind bad) {toks : List Token}
    (hb : b.Alone) (htoks : ∀ tok ∈ toks, Q tok) (hbad : (b.addTokens src toks).seen bad = []) :
    (b.addTokens src toks).recast r = (b.recast r).addTokens src' (toks.map (Token.recast r)) := by
  induction toks using tokens_induction generalizing b with
  | nil => rw [addTokens_nil, List.map_nil, addTokens_nil]
  | cons tok rest ihlines ihrest =>
    have htok := htoks tok (List.mem_cons_self ..)
    rw [addTokens_cons] at hbad ⊢
    -- what is not seen in the end is not seen at this token
    have hadded : (b.add src tok).seen bad = [] := by
      have hprefix := seen_prefix hblind src (b.add src tok) rest
      rw [hbad] at hprefix
      exact List.prefix_nil.1 hprefix
    rw [seen_add hblind] at hadded
    rw [List.map_cons, addTokens_cons,
      ihrest (hb.add fun ws => (Alone.addTokens (.empty ws)).finish tok.stop)
        (fun tok' htok' => htoks tok' (List.mem_cons_of_mem _ htok')) hbad,
      add_recast h hb htok (List.append_eq_nil_iff.1 hadded).2]
    intro hkind hrole hseen
    unfold addLines at hseen ⊢
    rw [seen_finish hblind] at hseen
    rw [finish_recast h.keeps (Alone.addTokens (.empty b.warnings)),
      ihlines (.empty b.warnings) (h.lines tok htok hkind hrole) hseen, h.lines_eq tok htok hkind hrole]
    rfl

end Builder

end Runs

/-! ## Where warnings stand -/

namespace Builder

/-- Warnings stand at places that `P` accepts, and so do open blocks. -/
structure Within (P : Nat → Prop) (b : Builder) : Prop where
  warnings : ∀ w ∈ b.warnings, P w.offset
  frames : ∀ h ∈ b.frames.map (·.block), P h.start

namespace Within

variable {P : Nat → Prop} {b : Builder} {src : Text} {tok : Token}

theorem push (h : b.Within P) (n : Node) : (b.push n).Within P := by
  refine ⟨?_, ?_⟩
  · rw [warnings_push]
    exact h.warnings
  · rw [blocks_push]
    exact h.frames

theorem warn (h : b.Within P) (d : Defect) {offset : Nat} (hoffset : P offset) :
    (b.warn d offset).Within P := by
  refine ⟨fun w hw => ?_, h.frames⟩
  rcases List.mem_append.1 hw with hw | hw
  · exact h.warnings w hw
  · rw [List.mem_singleton.1 hw]
    exact hoffset

theorem of_cons {f : Frame} {outer : List Frame} (h : b.Within P) (hframes : b.frames = f :: outer) :
    P f.block.start ∧ ({ b with frames := outer } : Builder).Within P := by
  have hall := h.frames
  rw [hframes] at hall
  exact ⟨hall _ (List.mem_cons_self ..), h.warnings, fun g hg => hall g (List.mem_cons_of_mem _ hg)⟩

theorem cutInnermost {f : Frame} {outer : List Frame} (h : b.Within P)
    (hframes : b.frames = f :: outer) (stop : Nat) : (b.cutInnermost stop).Within P := by
  obtain ⟨hf, houter⟩ := h.of_cons hframes
  rw [cutInnermost_cons hframes]
  exact (houter.warn _ hf).push _

theorem finish (h : b.Within P) (stop : Nat) : (b.finish stop).Within P :=
  (finish_induction (P := Builder.Within P) stop
    (fun _ _ _ hframes h => h.cutInnermost hframes stop) b h).1

theorem add (h : b.Within P) (htok : P tok.start)
    (hlines : tok.kind = .tag → tagRole tok.name = .lines → ∀ warnings : List Warning,
      (∀ w ∈ warnings, P w.offset) → (addLines src warnings tok).Within P) : (b.add src tok).Within P := by
  have hadded := added_add src b tok
  generalize b.add src tok = after at hadded
  cases hadded with
  | leaf _ => exact h.push _
  | misfit d _ _ _ => exact (h.warn d htok).push _
  | opens _ _ _ =>
    refine ⟨h.warnings, fun g hg => ?_⟩
    rcases List.mem_cons.1 hg with rfl | hg
    · exact htok
    · exact h.frames g hg
  | branch _ _ _ hframes _ =>
    obtain ⟨hf, houter⟩ := h.of_cons hframes
    refine ⟨h.warnings, fun g hg => ?_⟩
    rcases List.mem_cons.1 hg with rfl | hg
    · exact hf
    · exact houter.frames g hg
  | closes _ _ hopen =>
    exact closeThrough_induction (P := Builder.Within P) (Q := Builder.Within P)
      (fun _ _ _ hframes h => h.cutInnermost hframes _)
      (fun _ _ _ hframes _ h => (h.of_cons hframes).2.push _) b hopen h
  | stray _ _ _ => exact h.warn _ htok
  | lines htag _ hrole =>
    have hb : ({ b with warnings := (addLines src b.warnings tok).warnings } : Builder).Within P :=
      ⟨(hlines htag.kind_eq hrole b.warnings h.warnings).warnings, h.frames⟩
    exact hb.push _

/-- **The warnings of a run** stand at starts of tokens. -/
theorem addTokens {Q : Token → Prop} (hstart : ∀ tok, Q tok → P tok.start)
    (hlines : ∀ tok, Q tok → tok.kind = .tag → tagRole tok.name = .lines →
      ∀ line ∈ liquidLines tok.markup tok.markupStart, Q line)
    {toks : List Token} (h : b.Within P) (src : Text) (htoks : ∀ tok ∈ toks, Q tok) :
    (b.addTokens src toks).Within P := by
  induction toks using tokens_induction generalizing b with
  | nil => rwa [addTokens_nil]
  | cons tok rest ihlines ihrest =>
    have htok := htoks tok (List.mem_cons_self ..)
    rw [addTokens_cons]
    refine ihrest (h.add (hstart tok htok) fun hkind hrole warnings hwarnings => ?_) fun tok' htok' =>
      htoks tok' (List.mem_cons_of_mem _ htok')
    have hempty : ({ warnings } : Builder).Within P :=
      ⟨hwarnings, fun g hg => (List.not_mem_nil hg).elim⟩
    exact (ihlines hempty (hlines tok htok hkind hrole)).finish _

end Within

end Builder

/-! ## Templates -/

theorem unterminatedWarnings_recast (r : Recast) (toks : List Token) :
    unterminatedWarnings (toks.map (Token.recast r)) =
      (unterminatedWarnings toks).map (Warning.moved r.move) := by
  unfold unterminatedWarnings
  rw [List.filterMap_map, List.map_filterMap]
  refine congrArg (List.filterMap · toks) (funext fun tok => ?_)
  cases hkind : tok.kind <;> simp only [Function.comp_apply, Token.recast, hkind] <;> rfl

theorem offset_unterminatedWarnings {toks : List Token} {w : Warning}
    (hw : w ∈ unterminatedWarnings toks) : ∃ tok ∈ toks, w.offset = tok.start := by
  obtain ⟨tok, htok, hsome⟩ := List.mem_filterMap.1 hw
  cases hkind : tok.kind with
  | unterminated d =>
    rw [hkind] at hsome
    exact ⟨tok, htok, by rw [← Option.some.inj hsome]; rfl⟩
  | text | «variable» | tag =>
    rw [hkind] at hsome
    cases hsome

/-- How the tokens of a template become those of another one.  `P` are the places where warnings may stand,
and their order is kept. -/
structure Recast.Connects {α : Type} (r : Recast) (P : Nat → Prop) (bad : Head → List α) (Q : Token → Prop)
    (src src' : Text) : Prop extends r.Carries src src' bad Q where
  tokens_eq : tokens src' = (tokens src).map (Token.recast r)
  holds : ∀ tok ∈ tokens src, Q tok
  within : ∀ tok, Q tok → P tok.start
  le_iff : ∀ i j, P i → P j → (r.move i ≤ r.move j ↔ i ≤ j)
  start_eq : r.move 0 = 0
  stop_eq : r.move src.length = src'.length

/-- **Changed tokens give the changed tree and the moved warnings**, unless something `bad` is seen. -/
theorem parse_recast {α : Type} {r : Recast} {P : Nat → Prop} {bad : Head → List α} {Q : Token → Prop}
    {src src' : Text} (h : r.Connects P bad Q src src') (hblind : Blind bad)
    (hbad : seenAll bad (parse src).root.children = []) :
    (parse src').root = (parse src).root.recast r ∧
      (parse src').warnings = (parse src).warnings.map (Warning.moved r.move) := by
  have hempty := Builder.Alone.empty (unterminatedWarnings (tokens src))
  have hseen : (Builder.addTokens src { warnings := unterminatedWarnings (tokens src) }
      (tokens src)).seen bad = [] := (Builder.seen_finish hblind _ _).symm.trans hbad
  have hrun : (Builder.addTokens src' { warnings := unterminatedWarnings (tokens src') }
      (tokens src')).finish src'.length =
      ((Builder.addTokens src { warnings := unterminatedWarnings (tokens src) }
        (tokens src)).finish src.length).recast r := by
    rw [Builder.finish_recast h.keeps hempty.addTokens,
      Builder.addTokens_recast h.toCarries hblind hempty h.holds hseen, h.stop_eq, h.tokens_eq,
      unterminatedWarnings_recast]
    rfl
  have hwithin : ((Builder.addTokens src { warnings := unterminatedWarnings (tokens src) }
      (tokens src)).finish src.length).Within P := by
    refine Builder.Within.finish (Builder.Within.addTokens h.within h.lines ⟨fun w hw => ?_, fun g hg => ?_⟩
      src h.holds) _
    · obtain ⟨tok, htok, hoffset⟩ := offset_unterminatedWarnings hw
      rw [hoffset]
      exact h.within tok (h.holds tok htok)
    · exact (List.not_mem_nil hg).elim
  unfold parse
  dsimp only
  rw [hrun]
  constructor
  · rw [Node.recast_mk]
    refine congrArg (Node.mk · _) ?_
    simp only [Head.recast, h.start_eq, h.stop_eq, h.keeps.markup_eq, h.keeps.name_eq 0 0 [] (by decide)]
    rfl
  · refine (List.map_mergeSort fun v hv w hw => ?_).symm
    have hiff := h.le_iff _ _ (hwithin.warnings v hv) (hwithin.warnings w hw)
    exact decide_eq_decide.2 hiff.symm

/-!
## Templates that differ in their offsets

When the text of a template changes only where nobody looks, its tokens stay the same apart from the
places where they stand: the token at `i` has moved to `move i`.  The tree is then the same apart from
these places, and so are the warnings, with their order (`parse_moved`).  This is a change of tokens that
keeps names and markups (`Recast.ofMove`).

For the line that the builder looks up in the source, the markup of a tag has to be carried over byte by byte
(`Carried`).
-/

section Moved

variable (move : Nat → Nat)

/-- The token with its offsets moved. -/
def Token.moved (tok : Token) : Token :=
  { tok with start := move tok.start, stop := move tok.stop, markupStart := move tok.markupStart }

/-- The head with its offsets moved. -/
def Head.moved (h : Head) : Head :=
  { h with
    start := move h.start
    stop := move h.stop
    markupStart := move h.markupStart
    openEnd := move h.openEnd
    closeStart := h.closeStart.map move }

mutual

/-- The node with all offsets moved. -/
def Node.moved : Node → Node
  | .mk h cs => .mk (h.moved move) (Node.movedAll cs)

/-- `moved` of each node. -/
def Node.movedAll : List Node → List Node
  | [] => []
  | n :: rest => Node.moved n :: Node.movedAll rest

end

end Moved

/-- The change that moves places and does nothing else. -/
def Recast.ofMove (move : Nat → Nat) : Recast := ⟨move, fun _ _ name => name, fun _ _ markup => markup⟩

theorem Recast.keeps_ofMove (move : Nat → Nat) : (Recast.ofMove move).Keeps :=
  ⟨fun _ _ _ => rfl, fun _ _ _ _ => rfl, fun _ _ => rfl⟩

mutual

theorem Node.recast_ofMove (move : Nat → Nat) : (n : Node) → n.recast (.ofMove move) = n.moved move
  | .mk h cs => by
    rw [Node.recast, Node.moved, Node.recastAll_ofMove move cs]
    rfl

theorem Node.recastAll_ofMove (move : Nat → Nat) : (ns : List Node) →
    Node.recastAll (.ofMove move) ns = Node.movedAll move ns
  | [] => rfl
  | n :: rest => by rw [Node.recastAll, Node.movedAll, Node.recast_ofMove move n, Node.recastAll_ofMove move rest]

end

/-! ## Lines that move with their tag -/

/-- The bytes from `lo` up to `hi` of `src` stand in `src'` as well, from `move lo` on. -/
structure Carried (move : Nat → Nat) (src src' : Text) (lo hi : Nat) : Prop where
  shift : ∀ i, lo ≤ i → i ≤ hi → move i = move lo + (i - lo)
  slice : ∀ i j, lo ≤ i → i ≤ j → j ≤ hi → Text.slice src' (move i) (move j) = Text.slice src i j

theorem Carried.mono {move : Nat → Nat} {src src' : Text} {lo lo' hi hi' : Nat}
    (h : Carried move src src' lo hi) (hlo : lo ≤ lo') (hhi : hi' ≤ hi) :
    Carried move src src' lo' hi' where
  shift i hi hi' := by
    have hi := h.shift i (by omega) (by omega)
    have hlo' := h.shift lo' hlo (by omega)
    omega
  slice i j hi hij hj := h.slice i j (by omega) hij (by omega)

/-- The markup of a tag is carried over; for a line, all of it is. -/
structure Token.Carried (move : Nat → Nat) (src src' : Text) (tok : Token) : Prop where
  markup : tok.kind = .tag →
    Liquid.Carried move src src' tok.markupStart (tok.markupStart + tok.markup.length)
  line : tok.inLiquid = true →
    tok.start ≤ tok.stop ∧ Liquid.Carried move src src' tok.start tok.stop

section Runs

variable {move : Nat → Nat} {src src' : Text}

theorem lineTokens_moved {start : Nat} {lines : List Text}
    (hshift : ∀ i ≤ sumOf (lines.map List.length), move (start + i) = move start + i) :
    lineTokens (move start) lines = (lineTokens start lines).map (Token.moved move) := by
  induction lines generalizing start with
  | nil => rfl
  | cons line rest ih =>
    simp only [List.map_cons, sumOf_cons] at hshift
    have hline := hshift line.length (by omega)
    have hrest : lineTokens (move start + line.length) rest =
        (lineTokens (start + line.length) rest).map (Token.moved move) := by
      rw [← hline]
      refine ih fun i hi => ?_
      rw [Nat.add_assoc, hshift _ (by omega), hline, Nat.add_assoc]
    have htrim := leadingBlanks_add_length_trimSpace_le line
    have hsplit := (splitTag_places (Text.trimSpace line) 0).2
    simp only [lineTokens]
    rw [hrest]
    split
    · rfl
    · rw [splitTag_start _ (move start + leadingBlanks line),
        splitTag_start _ (start + leadingBlanks line), List.map_cons]
      refine congrArg (· :: _) ?_
      simp only [Token.moved, Token.mk.injEq, true_and, and_true]
      refine ⟨?_, ?_, ?_⟩
      · rw [hshift _ (by omega)]
      · rw [Nat.add_assoc start, hshift _ (by omega), Nat.add_assoc]
      · rw [Nat.add_assoc start, hshift _ (by omega), Nat.add_assoc]

theorem liquidLines_moved {tok : Token} (h : tok.Carried move src src') (hkind : tok.kind = .tag) :
    liquidLines tok.markup (tok.moved move).markupStart =
      (liquidLines tok.markup tok.markupStart).map (Token.moved move) := by
  refine lineTokens_moved fun i hi => ?_
  rw [sumOf_length_linesWithEnds] at hi
  rw [(h.markup hkind).shift _ (by omega) (by omega), Nat.add_sub_cancel_left]

theorem carried_liquidLines {tok line : Token} (h : tok.Carried move src src')
    (hkind : tok.kind = .tag) (hline : line ∈ liquidLines tok.markup tok.markupStart) : line.Carried move src src' := by
  obtain ⟨hlo, hplaced, hhi⟩ := (follows_liquidLines tok.markup tok.markupStart).placed hline
  have hmarkup := hplaced.start_le_markup
  have hstop := hplaced.markup_le_stop
  exact ⟨fun _ => (h.markup hkind).mono (by omega) (by omega),
    fun _ => ⟨Nat.le_of_lt hplaced.start_lt_stop, (h.markup hkind).mono hlo hhi⟩⟩

end Runs

/-! ## Where warnings stand -/

/-- The token starts at a place that `P` accepts, and so do the bytes of the markup of a tag. -/
structure Token.Within (P : Nat → Prop) (tok : Token) : Prop where
  start : P tok.start
  markup : tok.kind = .tag →
    ∀ i, tok.markupStart ≤ i → i ≤ tok.markupStart + tok.markup.length → P i

theorem within_liquidLines {P : Nat → Prop} {tok line : Token} (h : tok.Within P)
    (hkind : tok.kind = .tag) (hline : line ∈ liquidLines tok.markup tok.markupStart) : line.Within P := by
  obtain ⟨hlo, hplaced, hhi⟩ := (follows_liquidLines tok.markup tok.markupStart).placed hline
  have hlt := hplaced.start_lt_stop
  have hmarkup := hplaced.start_le_markup
  have hstop := hplaced.markup_le_stop
  exact ⟨h.markup hkind _ hlo (by omega), fun _ i hi hi' => h.markup hkind i (by omega) (by omega)⟩

/-! ## Templates -/

/-- How the places of a template move to those of another one with the same tokens: `P` are the
places where warnings may stand, and their order is kept. -/
structure MovesTo (move : Nat → Nat) (P : Nat → Prop) (src src' : Text) : Prop where
  tokens_eq : tokens src' = (tokens src).map (Token.moved move)
  carried : ∀ tok ∈ tokens src, tok.Carried move src src'
  within : ∀ tok ∈ tokens src, tok.Within P
  le_iff : ∀ i j, P i → P j → (move i ≤ move j ↔ i ≤ j)
  start_eq : move 0 = 0
  stop_eq : move src.length = src'.length

/-- **Moved tokens give the moved tree and the moved warnings.** -/
theorem parse_moved {move : Nat → Nat} {P : Nat → Prop} {src src' : Text}
    (h : MovesTo move P src src') :
    (parse src').root = (parse src).root.moved move ∧
      (parse src').warnings = (parse src).warnings.map (Warning.moved move) := by
  have hconnects : (Recast.ofMove move).Connects P (fun _ => ([] : List Unit))
      (fun tok => tok.Carried move src src' ∧ tok.Within P) src src' :=
    { keeps := Recast.keeps_ofMove move
      text_eq := fun _ _ _ => rfl
      lines := fun tok htok hkind _ line hline =>
        ⟨carried_liquidLines htok.1 hkind hline, within_liquidLines htok.2 hkind hline⟩
      lines_eq := fun tok htok hkind _ => liquidLines_moved htok.1 hkind
      raw_eq := fun tok htok hline _ => by
        obtain ⟨hle, hcarried⟩ := htok.1.line hline
        exact hcarried.slice _ _ (Nat.le_refl _) hle (Nat.le_refl _)
      tokens_eq := h.tokens_eq
      holds := fun tok htok => ⟨h.carried tok htok, h.within tok htok⟩
      within := fun tok htok => htok.2.start
      le_iff := h.le_iff
      start_eq := h.start_eq
      stop_eq := h.stop_eq }
  obtain ⟨hroot, hwarnings⟩ := parse_recast hconnects ⟨fun _ _ => rfl, fun _ _ => rfl⟩ (by simp [seenAll])
  exact ⟨hroot.trans (Node.recast_ofMove move _), hwarnings⟩

/-! ## Trees without places -/

/-- The tree with all offsets put to zero: what is left are the kinds, names, markups and flags of its
nodes, and which of them have an end tag. -/
def Node.unplaced (n : Node) : Node := n.moved fun _ => 0

mutual

theorem Node.moved_moved (move move' : Nat → Nat) : (n : Node) →
    (n.moved move).moved move' = n.moved (move' ∘ move)
  | .mk h cs => by
    have hhead : (h.moved move).moved move' = h.moved (move' ∘ move) := by
      unfold Head.moved
      dsimp only
      rw [Option.map_map]
      rfl
    rw [Node.moved, Node.moved, Node.moved, hhead, Node.movedAll_movedAll move move' cs]

theorem Node.movedAll_movedAll (move move' : Nat → Nat) : (ns : List Node) →
    Node.movedAll move' (Node.movedAll move ns) = Node.movedAll (move' ∘ move) ns
  | [] => rfl
  | n :: rest => by
    rw [Node.movedAll, Node.movedAll, Node.movedAll, Node.moved_moved move move' n,
      Node.movedAll_movedAll move move' rest]

end

/-- Moving a tree changes nothing but its places. -/
theorem Node.unplaced_moved (move : Nat → Nat) (n : Node) : (n.moved move).unplaced = n.unplaced :=
  Node.moved_moved move _ n

end Liquid
end LiquidLint
