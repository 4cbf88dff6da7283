import LiquidLint.Proofs.RenamedTokens
import LiquidLint.Proofs.TreeOrder

/-!
# Outlines of trees

The outline of a tree is what its nodes are and hold, without where they stand and how they were written.
Tokens with the same names and markups (`Token.Like`) may come from lines of a `liquid` tag or from tags of
their own.  What is built from them has the same outline and the same warnings, offsets apart
(`Builder.Like`), and each step of the builder keeps this.

A line inside a comment is the one thing that is read otherwise than a tag of its own.  So there must be no
token behind one that opens a comment, which holds for the one line of a `liquid` tag that has no other
(`addTokens_like`).
-/

namespace LiquidLint
namespace Liquid

/-! ## Outlines -/

/-- What a node is and holds itself. -/
structure Look where
  kind : NodeKind
  name : Text
  markup : Text
  /-- Whether the tag takes a body and an end tag. -/
  block : Bool
  /-- Whether the end tag of the block was seen. -/
  closed : Bool
deriving DecidableEq

/-- A tree of what nodes are and hold. -/
inductive Outline where
  | mk (look : Look) (children : List Outline)

def Head.look (h : Head) : Look := ⟨h.kind, h.name, h.markup, h.block, h.closed⟩

mutual

/-- The outline of a node. -/
def Node.outline : Node → Outline
  | .mk h cs => .mk h.look (Node.outlines cs)

/-- The outlines of several nodes. -/
def Node.outlines : List Node → List Outline
  | [] => []
  | n :: rest => Node.outline n :: Node.outlines rest

end

@[simp] theorem Node.outlines_append (ns ms : List Node) :
    Node.outlines (ns ++ ms) = Node.outlines ns ++ Node.outlines ms := by
  induction ns with
  | nil => rfl
  | cons n rest ih => rw [List.cons_append, Node.outlines, Node.outlines, ih, List.cons_append]

theorem Node.outlines_singleton (n : Node) : Node.outlines [n] = [n.outline] := rfl

/-! ## Tokens -/

/-- A token of the same kind, with the same name and markup. -/
structure Token.Like (tok tok' : Token) : Prop where
  kind_eq : tok.kind = tok'.kind
  name_eq : tok.name = tok'.name
  markup_eq : tok.markup = tok'.markup

namespace Token.Like

variable {tok tok' : Token} (h : tok.Like tok')

include h

theorem look_head (kind : NodeKind) : (tok.head kind).look = (tok'.head kind).look := by
  unfold Token.head Head.look
  rw [h.name_eq, h.markup_eq]

theorem outline_leaf (kind : NodeKind) :
    (Node.leaf (tok.head kind)).outline = (Node.leaf (tok'.head kind)).outline :=
  congrArg (Outline.mk · []) (h.look_head kind)

end Token.Like

/-! ## Open blocks -/

/-- An open block with the same outline. -/
structure Frame.Like (f g : Frame) : Prop where
  block : f.block.look = g.block.look
  done : Node.outlines f.done = Node.outlines g.done
  branch : (f.branch.map fun opened => (opened.1.look, Node.outlines opened.2)) =
    g.branch.map fun opened => (opened.1.look, Node.outlines opened.2)

namespace Frame.Like

variable {f g : Frame} {n m : Node} {tok tok' : Token}

theorem name_eq (h : f.Like g) : f.block.name = g.block.name := congrArg Look.name h.block

/-- Both blocks have no open branch, or both have one with the same outline. -/
theorem branch_cases (h : f.Like g) :
    (f.branch = none ∧ g.branch = none) ∨ ∃ k cs k' cs', f.branch = some (k, cs) ∧ g.branch = some (k', cs') ∧
      k.look = k'.look ∧ Node.outlines cs = Node.outlines cs' := by
  have hbranch := h.branch
  cases hf : f.branch with
  | none =>
    cases hg : g.branch with
    | none => exact .inl ⟨rfl, rfl⟩
    | some opened =>
      rw [hf, hg] at hbranch
      exact nomatch hbranch
  | some opened =>
    cases hg : g.branch with
    | none =>
      rw [hf, hg] at hbranch
      exact nomatch hbranch
    | some opened' =>
      rw [hf, hg] at hbranch
      obtain ⟨hlook, hcs⟩ := Prod.mk.inj (Option.some.inj hbranch)
      exact .inr ⟨_, _, _, _, rfl, rfl, hlook, hcs⟩

theorem push (h : f.Like g) (hn : n.outline = m.outline) : (f.push n).Like (g.push m) := by
  unfold Frame.push
  rcases h.branch_cases with ⟨hf, hg⟩ | ⟨k, cs, k', cs', hf, hg, hlook, hcs⟩
  · rw [hf, hg]
    refine ⟨h.block, ?_, rfl⟩
    rw [Node.outlines_append, Node.outlines_append, h.done, Node.outlines_singleton,
      Node.outlines_singleton, hn]
  · rw [hf, hg]
    refine ⟨h.block, h.done, ?_⟩
    rw [Option.map_some, Option.map_some, Node.outlines_append, Node.outlines_append, hlook, hcs,
      Node.outlines_singleton, Node.outlines_singleton, hn]

/-- Where a branch ends is not in its outline. -/
theorem childrenAt (h : f.Like g) (stop stop' : Nat) :
    Node.outlines (f.childrenAt stop) = Node.outlines (g.childrenAt stop') := by
  unfold Frame.childrenAt
  rcases h.branch_cases with ⟨hf, hg⟩ | ⟨k, cs, k', cs', hf, hg, hlook, hcs⟩
  · rw [hf, hg]
    exact h.done
  · rw [hf, hg]
    dsimp only
    rw [Node.outlines_append, Node.outlines_append, h.done]
    refine congrArg (fun o => _ ++ [o]) (congrArg₂ Outline.mk ?_ hcs)
    exact hlook

theorem openBranch (h : f.Like g) (ht : tok.Like tok') : (f.openBranch tok).Like (g.openBranch tok') where
  block := h.block
  done := h.childrenAt _ _
  branch := congrArg (fun look => some (look, [])) (ht.look_head .tag)

theorem cutShort (h : f.Like g) (stop stop' : Nat) : (f.cutShort stop).outline = (g.cutShort stop').outline :=
  congrArg₂ Outline.mk h.block (h.childrenAt stop stop')

theorem closeWith (h : f.Like g) (tok tok' : Token) : (f.closeWith tok).outline = (g.closeWith tok').outline :=
  congrArg₂ (fun (look : Look) cs => Outline.mk { look with closed := true } cs) h.block (h.childrenAt _ _)

end Frame.Like

/-! ## Trees under construction -/

/-- A tree under construction with the same outline, and with the same warnings at other places. -/
structure Builder.Like (b b' : Builder) : Prop where
  done : Node.outlines b.done = Node.outlines b'.done
  frames : List.Forall₂ Frame.Like b.frames b'.frames
  messages : b.warnings.map (·.message) = b'.warnings.map (·.message)

namespace Builder.Like

variable {b b' : Builder} {n m : Node} {tok tok' : Token}

/-- A tree with nothing in it yet. -/
theorem empty {ws ws' : List Warning} (h : ws.map (·.message) = ws'.map (·.message)) :
    ({ warnings := ws } : Builder).Like { warnings := ws' } :=
  ⟨rfl, .nil, h⟩

theorem openNames_eq (h : b.Like b') : b.openNames = b'.openNames := by
  have hframes := h.frames
  unfold openNames
  generalize b.frames = frames at hframes ⊢
  generalize b'.frames = frames' at hframes ⊢
  induction hframes with
  | nil => rfl
  | cons hf _ ih => rw [List.map_cons, List.map_cons, hf.name_eq, ih]

/-- Both trees have no open block, or both have innermost ones with the same outline. -/
theorem frames_cases (h : b.Like b') :
    (b.frames = [] ∧ b'.frames = []) ∨ ∃ f outer f' outer', b.frames = f :: outer ∧ b'.frames = f' :: outer' ∧
      f.Like f' ∧ ({ b with frames := outer } : Builder).Like { b' with frames := outer' } := by
  have hframes := h.frames
  cases hb : b.frames with
  | nil =>
    rw [hb] at hframes
    exact .inl ⟨rfl, List.forall₂_nil_left_iff.1 hframes⟩
  | cons f outer =>
    rw [hb] at hframes
    obtain ⟨f', outer', hf, houter, hb'⟩ := List.forall₂_cons_left_iff.1 hframes
    exact .inr ⟨f, outer, f', outer', rfl, hb', hf, h.done, houter, h.messages⟩

theorem push (h : b.Like b') (hn : n.outline = m.outline) : (b.push n).Like (b'.push m) := by
  unfold Builder.push
  rcases h.frames_cases with ⟨hb, hb'⟩ | ⟨f, outer, f', outer', hb, hb', hf, houter⟩
  · rw [hb, hb']
    refine ⟨?_, .nil, h.messages⟩
    rw [Node.outlines_append, Node.outlines_append, h.done, Node.outlines_singleton,
      Node.outlines_singleton, hn]
  · rw [hb, hb']
    exact ⟨h.done, .cons (hf.push hn) houter.frames, h.messages⟩

theorem warn (h : b.Like b') (d : Defect) (offset offset' : Nat) : (b.warn d offset).Like (b'.warn d offset') := by
  refine ⟨h.done, h.frames, ?_⟩
  unfold Builder.warn
  rw [List.map_append, List.map_append, h.messages]
  rfl

/-- A tag that does not fit. -/
theorem misfit (h : b.Like b') (ht : tok.Like tok') (d : Defect) :
    ((b.warn d tok.start).push (.leaf (tok.head .tag))).Like
      ((b'.warn d tok'.start).push (.leaf (tok'.head .tag))) :=
  (h.warn d _ _).push (ht.outline_leaf .tag)

theorem cutInnermost (h : b.Like b') (stop stop' : Nat) : (b.cutInnermost stop).Like (b'.cutInnermost stop') := by
  rcases h.frames_cases with ⟨hb, hb'⟩ | ⟨f, outer, f', outer', hb, hb', hf, houter⟩
  · unfold Builder.cutInnermost
    rw [hb, hb']
    exact h
  · rw [cutInnermost_cons hb, cutInnermost_cons hb', hf.name_eq]
    exact (houter.warn _ _ _).push (hf.cutShort stop stop')

theorem finish (h : b.Like b') (stop stop' : Nat) : (b.finish stop).Like (b'.finish stop') := by
  fun_induction Builder.finish b stop generalizing b' with
  | case1 b hempty =>
    have hempty' : b'.frames.isEmpty = true := by
      have hframes := h.frames
      rw [List.isEmpty_iff.1 hempty] at hframes
      exact List.isEmpty_iff.2 (List.forall₂_nil_left_iff.1 hframes)
    rw [Builder.finish, if_pos hempty']
    exact h
  | case2 b hne ih =>
    have hne' : ¬ b'.frames.isEmpty = true := by
      intro hempty'
      have hframes := h.frames
      rw [List.isEmpty_iff.1 hempty'] at hframes
      exact hne (List.isEmpty_iff.2 (List.forall₂_nil_right_iff.1 hframes))
    rw [Builder.finish.eq_def b', if_neg hne']
    exact ih (h.cutInnermost stop stop')

theorem closeThrough (h : b.Like b') (block : Text) (tok tok' : Token) :
    (b.closeThrough block tok).Like (b'.closeThrough block tok') := by
  fun_induction Builder.closeThrough b block tok generalizing b' with
  | case1 b hframes =>
    rcases h.frames_cases with ⟨-, hb'⟩ | ⟨f, outer, -, -, hb, -⟩
    · rw [Builder.closeThrough.eq_def b']
      split
      · exact h
      · rename_i hcons
        cases hb'.symm.trans hcons
    · cases hframes.symm.trans hb
  | case2 b f outer hframes hname =>
    rcases h.frames_cases with ⟨hb, -⟩ | ⟨g, outer₂, f', outer', hb, hb', hf, houter⟩
    · cases hb.symm.trans hframes
    · obtain ⟨rfl, rfl⟩ := List.cons.inj (hb.symm.trans hframes)
      have hclose := closeThrough_innermost hb' tok'
      rw [← hf.name_eq, hname] at hclose
      rw [hclose]
      exact houter.push (hf.closeWith tok tok')
  | case3 b f outer hframes hname ih =>
    rcases h.frames_cases with ⟨hb, -⟩ | ⟨g, outer₂, f', outer', hb, hb', hf, -⟩
    · cases hb.symm.trans hframes
    · obtain ⟨rfl, rfl⟩ := List.cons.inj (hb.symm.trans hframes)
      rw [Builder.closeThrough.eq_def b']
      split
      · rename_i hnil
        cases hb'.symm.trans hnil
      · rename_i f₂ outer₂ hcons
        obtain ⟨rfl, rfl⟩ := List.cons.inj (hb'.symm.trans hcons)
        rw [if_neg (by rw [← hf.name_eq]; exact hname)]
        exact ih (h.cutInnermost _ _)

theorem closeBlock (h : b.Like b') (block : Text) (ht : tok.Like tok') :
    (b.closeBlock block tok).Like (b'.closeBlock block tok') := by
  have hany : (b'.frames.any fun f => f.block.name = block) = b.frames.any fun f => f.block.name = block := by
    have hnames := congrArg (fun names => names.any fun name => decide (name = block)) h.openNames_eq
    unfold openNames at hnames
    rw [List.any_map, List.any_map] at hnames
    exact hnames.symm
  unfold Builder.closeBlock
  rw [hany, ht.name_eq]
  split
  · exact h.closeThrough block tok tok'
  · exact h.warn _ _ _

theorem branch (h : b.Like b') (ht : tok.Like tok') : (b.branch tok).Like (b'.branch tok') := by
  unfold Builder.branch
  rcases h.frames_cases with ⟨hb, hb'⟩ | ⟨f, outer, f', outer', hb, hb', hf, houter⟩
  · rw [hb, hb', ht.name_eq]
    exact h.misfit ht _
  · rw [hb, hb']
    dsimp only
    rw [hf.name_eq, ht.name_eq]
    by_cases hbranch : isBranchOf f'.block.name tok'.name = true
    · rw [if_pos hbranch, if_pos hbranch]
      exact ⟨h.done, .cons (hf.openBranch ht) houter.frames, h.messages⟩
    · rw [if_neg hbranch, if_neg hbranch]
      exact h.misfit ht _

variable {src src' : Text}

/-- **One token**, where no comment is open. -/
theorem add (h : b.Like b') (ht : tok.Like tok') (hcomment : ("comment" : Text) ∉ b.openNames)
    (hlines : tok.kind = .tag → tagRole tok.name = .lines →
      (addLines src b.warnings tok).Like (addLines src' b'.warnings tok')) :
    (b.add src tok).Like (b'.add src' tok') := by
  have houtside (b : Builder) (tok : Token) (hcomment : ("comment" : Text) ∉ b.openNames) :
      b.inComment tok = false := by
    have hhead : b.openNames.head? ≠ some ("comment" : Text) := fun h => hcomment (List.mem_of_mem_head? h)
    rw [inComment_eq, decide_eq_false hhead, Bool.false_and]
  unfold Builder.add
  rw [houtside b tok hcomment, houtside b' tok' (h.openNames_eq ▸ hcomment), Bool.and_false, Bool.and_false,
    ← ht.kind_eq]
  cases hkind : tok.kind with
  | text | unterminated _ =>
    refine h.push ?_
    show Outline.mk ⟨.raw, [], tok.markup, false, false⟩ [] = Outline.mk ⟨.raw, [], tok'.markup, false, false⟩ []
    rw [ht.markup_eq]
  | «variable» => exact h.push (ht.outline_leaf .variable)
  | tag =>
    rw [hkind] at hlines
    dsimp only
    rw [if_neg Bool.false_ne_true, if_neg Bool.false_ne_true, ← ht.name_eq]
    cases hrole : tagRole tok.name with
    | nameless => exact h.misfit ht _
    | closes block => exact h.closeBlock block ht
    | branch => exact h.branch ht
    | opens =>
      refine ⟨h.done, .cons ⟨?_, rfl, rfl⟩ h.frames, h.messages⟩
      exact congrArg (fun look : Look => { look with block := true }) (ht.look_head .tag)
    | lines =>
      have hinner := hlines rfl hrole
      have hb : ({ b with warnings := (addLines src b.warnings tok).warnings } : Builder).Like
          { b' with warnings := (addLines src' b'.warnings tok').warnings } :=
        ⟨h.done, h.frames, hinner.messages⟩
      exact hb.push (congrArg₂ Outline.mk (ht.look_head .tag) hinner.done)
    | inline => exact h.push (ht.outline_leaf .tag)
    | unknown =>
      unfold addTag
      rw [ht.name_eq]
      exact h.misfit ht _

end Builder.Like

/-! ## Runs -/

/-- A comment is opened by a tag of that name only. -/
theorem Builder.comment_not_mem_add {src : Text} {b : Builder} {tok : Token}
    (hcomment : ("comment" : Text) ∉ b.openNames) (hname : tok.name ≠ "comment") :
    ("comment" : Text) ∉ (b.add src tok).openNames := by
  rw [openNames_add]
  unfold namesAfter
  split
  · split
    · exact hcomment
    · split
      · split
        · exact fun hmem => hcomment ((List.dropWhile_suffix _).subset (List.mem_of_mem_tail hmem))
        · exact hcomment
      · exact fun hmem => (List.mem_cons.1 hmem).elim (fun h => hname h.symm) hcomment
      · exact hcomment
  · exact hcomment

/-- The markup of a tag is part of it. -/
theorem mem_of_mem_splitTag {t : Text} {start : Nat} {b : UInt8} (h : b ∈ (splitTag t start).2.1) : b ∈ t := by
  cases t with
  | nil => exact nomatch h
  | cons c rest =>
    rw [splitTag] at h
    split at h
    · exact List.mem_cons_of_mem _ (Text.mem_of_mem_trimSpace h)
    · exact (List.dropWhile_suffix _).subset (Text.mem_of_mem_trimSpace h)

/-- A text without a line feed is one line at most, which has no line feed in its markup. -/
theorem liquidLines_of_not_mem {markup : Text} (hmarkup : ('\n' : UInt8) ∉ markup) (start : Nat) :
    liquidLines markup start = [] ∨
      ∃ line, liquidLines markup start = [line] ∧ ('\n' : UInt8) ∉ line.markup := by
  unfold liquidLines
  rw [Text.linesWithEnds_of_not_mem hmarkup, lineTokens]
  dsimp only
  split
  · exact .inl rfl
  · exact .inr ⟨_, rfl, fun hmem => hmarkup (Text.mem_of_mem_trimSpace (mem_of_mem_splitTag hmem))⟩

/-- What is read in one piece: no token follows one that opens a comment, and each `liquid` tag has one line. -/
structure Flat (toks : List Token) : Prop where
  comment : toks.Pairwise fun tok _ => tok.name ≠ ("comment" : Text)
  lines : ∀ tok ∈ toks, tok.name = ("liquid" : Text) → ('\n' : UInt8) ∉ tok.markup

theorem flat_liquidLines {markup : Text} (hmarkup : ('\n' : UInt8) ∉ markup) (start : Nat) :
    Flat (liquidLines markup start) := by
  rcases liquidLines_of_not_mem hmarkup start with hnone | ⟨line, hone, hline⟩
  · rw [hnone]
    exact ⟨.nil, nofun⟩
  · rw [hone]
    exact ⟨List.pairwise_singleton .., fun tok htok _ => List.mem_singleton.1 htok ▸ hline⟩

namespace Builder

variable {src src' : Text} {b b' : Builder}

/-- **Like tokens give like trees.** -/
theorem addTokens_like {toks toks' : List Token} (ht : List.Forall₂ Token.Like toks toks') (hflat : Flat toks)
    (hcomment : ("comment" : Text) ∉ b.openNames) (h : b.Like b') :
    (b.addTokens src toks).Like (b'.addTokens src' toks') := by
  induction toks using tokens_induction generalizing b b' toks' with
  | nil =>
    cases ht
    rw [addTokens_nil, addTokens_nil]
    exact h
  | cons tok rest ihlines ihrest =>
    obtain ⟨tok', rest', htok, hrest, rfl⟩ := List.forall₂_cons_left_iff.1 ht
    obtain ⟨hfirst, hlater⟩ := List.pairwise_cons.1 hflat.comment
    have hadded : (b.add src tok).Like (b'.add src' tok') := by
      refine h.add htok hcomment fun _ hrole => ?_
      have hline := hflat.lines tok (List.mem_cons_self ..) (name_of_lines hrole)
      have hsame : List.Forall₂ Token.Like (liquidLines tok.markup tok.markupStart)
          (liquidLines tok'.markup tok'.markupStart) := by
        rw [← htok.markup_eq]
        exact (alikeLine_lineTokens _ _ _).imp fun _ _ halike =>
          ⟨halike.kind_eq.symm, halike.name_eq.symm, halike.markup_eq.symm⟩
      exact (ihlines hsame (flat_liquidLines hline _) List.not_mem_nil (.empty h.messages)).finish _ _
    rw [addTokens_cons, addTokens_cons]
    cases rest with
    | nil =>
      cases hrest
      rw [addTokens_nil, addTokens_nil]
      exact hadded
    | cons next more =>
      have hname : tok.name ≠ "comment" := hfirst next (List.mem_cons_self ..)
      exact ihrest hrest ⟨hlater, fun t ht => hflat.lines t (List.mem_cons_of_mem _ ht)⟩
        (comment_not_mem_add hcomment hname) hadded

end Builder
end Liquid
end LiquidLint
