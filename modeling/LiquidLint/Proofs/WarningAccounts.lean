import LiquidLint.Proofs.TreeOrder

/-!
# Accounts of warnings

Every warning of a template is told for one defect, and every defect is told once: an opener without a closer,
a block without an end tag, a tag that does not fit where it stands.  The first are known from the tokens and
the second from the tree; the third are told by a walk over the tokens that keeps the names of the open blocks
(`tagDefects`).

The warnings arise in an order that has nothing to do with the source, and one end tag may end many blocks.  So
the account is kept by counting (`Builder.Balanced`): what the tree under construction has warned of, together
with what it will warn of for its open blocks if nothing closes them, is what was told of its tokens together
with the blocks in it that are not closed.  Each step keeps the balance: a block that is cut short moves from
the open ones to the warnings, and one that is closed leaves both sides.
-/

namespace LiquidLint
namespace Liquid

/-! ## Defects -/

/-- The warning for a block that was never closed. -/
def Head.unclosed (h : Head) : List Warning :=
  if h.block && !h.closed then [(Defect.neverClosed h.name).at h.start] else []

/-- What is wrong with a tag called `name` where the blocks called `names` are open, innermost first. -/
def misfit? (names : List Text) (name : Text) : Option Defect :=
  match tagRole name with
  | .nameless => some .nameless
  | .closes block => if names.contains block then none else some (.unexpectedEnd name block)
  | .branch => if names.head?.any (isBranchOf · name) then none else some (.unknownTag name)
  | .unknown => some (.unknownTag name)
  | .opens | .lines | .inline => none

/-- Whether the token is a tag that counts: not a line inside a comment, unless it ends the comment. -/
def Token.counts (names : List Text) (tok : Token) : Bool :=
  tok.kind = .tag &&
    !(tok.inLiquid && (names.head? = some ("comment" : Text) && tok.name ≠ "endcomment"))

/-- The warnings for the tags among some tokens, where the blocks called `names` are open.  The lines of a
`liquid` tag are tags as well, and see no blocks but their own. -/
def tagDefects (names : List Text) : List Token → List Warning
  | [] => []
  | tok :: rest =>
    (if tok.counts names then
      (misfit? names tok.name).toList.map (·.at tok.start) ++
        if tagRole tok.name = .lines then tagDefects [] (liquidLines tok.markup tok.markupStart) else []
    else []) ++ tagDefects (Builder.namesAfter names tok) rest
termination_by toks => weight toks
decreasing_by
  all_goals simp only [weight, List.map_cons, sumOf_cons]
  · have := weight_liquidLines_le tok.markup tok.markupStart
    simp only [weight] at this
    omega
  · omega

/-- The warnings for one token. -/
def defectsAt (names : List Text) (tok : Token) : List Warning :=
  if tok.counts names then
    (misfit? names tok.name).toList.map (·.at tok.start) ++
      if tagRole tok.name = .lines then tagDefects [] (liquidLines tok.markup tok.markupStart) else []
  else []

theorem tagDefects_nil (names : List Text) : tagDefects names [] = [] := by rw [tagDefects]

theorem tagDefects_cons (names : List Text) (tok : Token) (rest : List Token) :
    tagDefects names (tok :: rest) =
      defectsAt names tok ++ tagDefects (Builder.namesAfter names tok) rest := by
  rw [tagDefects]
  rfl

/-- Whatever its role, the defect of a token is told where the token starts, or in one of its lines. -/
theorem mem_defectsAt {names : List Text} {tok : Token} {w : Warning} (hw : w ∈ defectsAt names tok) :
    w.offset = tok.start ∨ w ∈ tagDefects [] (liquidLines tok.markup tok.markupStart) := by
  unfold defectsAt at hw
  split at hw
  · rcases List.mem_append.1 hw with hw | hw
    · obtain ⟨d, -, rfl⟩ := List.mem_map.1 hw
      exact .inl rfl
    · split at hw
      · exact .inr hw
      · cases hw
  · cases hw

/-- **Defects of tags are told inside the tokens.** -/
theorem offset_of_mem_tagDefects {toks : List Token} :
    ∀ {names : List Text} {lo hi : Nat}, Follows lo toks hi →
      ∀ w ∈ tagDefects names toks, lo ≤ w.offset ∧ w.offset < hi := by
  induction toks using Builder.tokens_induction with
  | nil =>
    intro names lo hi _ w hw
    rw [tagDefects_nil] at hw
    cases hw
  | cons tok rest ihlines ih =>
    intro names lo hi hfollows w hw
    obtain ⟨hle, htok, hrest⟩ := hfollows
    have hlt := htok.start_lt_stop
    have hstop := hrest.le
    rw [tagDefects_cons] at hw
    rcases List.mem_append.1 hw with hw | hw
    · rcases mem_defectsAt hw with hoffset | hw
      · omega
      · have hinside := (follows_liquidLines tok.markup tok.markupStart).of_le htok.start_le_markup
          htok.markup_le_stop
        obtain ⟨hlo, hhi⟩ := ihlines hinside w hw
        omega
    · obtain ⟨hlo, hhi⟩ := ih hrest w hw
      omega

/-! ## The balance -/

/-- The warnings for the open blocks, should nothing close them. -/
def Builder.pendingWarnings (b : Builder) : List Warning :=
  b.frames.map fun f => (Defect.neverClosed f.block.name).at f.block.start

/-- The warnings of the tree and those that its open blocks may bring are what was `told` of its tokens and of
the blocks in it that are not closed. -/
structure Builder.Balanced (b : Builder) (told : List Warning) : Prop where
  opened : ∀ f ∈ b.frames, f.block.block = true ∧ f.block.closed = false
  count_eq : ∀ w, b.warnings.count w + b.pendingWarnings.count w =
    told.count w + (b.seen Head.unclosed).count w

theorem unclosed_cutAt (h : Head) (stop : Nat) : (h.cutAt stop).unclosed = h.unclosed := rfl

theorem unclosed_head (tok : Token) (kind : NodeKind) : (tok.head kind).unclosed = [] := rfl

/-- An open block counts as one that is not closed. -/
theorem unclosed_of_open {h : Head} (hopen : h.block = true ∧ h.closed = false) :
    h.unclosed = [(Defect.neverClosed h.name).at h.start] := by
  unfold Head.unclosed
  rw [hopen.1, hopen.2]
  rfl

namespace Builder

theorem pendingWarnings_push (b : Builder) (n : Node) : (b.push n).pendingWarnings = b.pendingWarnings := by
  have hblocks := congrArg (List.map fun h : Head => (Defect.neverClosed h.name).at h.start)
    (blocks_push b n)
  rwa [List.map_map, List.map_map] at hblocks

/-- A node leaves the open blocks as they are. -/
theorem opened_push {b : Builder} (h : ∀ f ∈ b.frames, f.block.block = true ∧ f.block.closed = false)
    (n : Node) : ∀ f ∈ (b.push n).frames, f.block.block = true ∧ f.block.closed = false := by
  intro f hf
  have hmem : f.block ∈ b.frames.map (·.block) := by
    rw [← blocks_push b n]
    exact List.mem_map_of_mem hf
  obtain ⟨g, hg, hsame⟩ := List.mem_map.1 hmem
  rw [← hsame]
  exact h g hg

namespace Balanced

variable {b : Builder} {f : Frame} {outer : List Frame} {told more : List Warning} {tok : Token}

/-- **A node that is pushed** is told with what was warned of for its sake. -/
theorem push (h : b.Balanced told) {warnings : List Warning} {n : Node}
    (hcount : ∀ w, warnings.count w =
      b.warnings.count w + more.count w + (seenAll Head.unclosed [n]).count w) :
    (({ b with warnings } : Builder).push n).Balanced (told ++ more) := by
  have hopened : ∀ f ∈ ({ b with warnings } : Builder).frames, _ := h.opened
  refine ⟨opened_push hopened n, fun w => ?_⟩
  have hw := h.count_eq w
  have hpending : ({ b with warnings } : Builder).pendingWarnings = b.pendingWarnings := rfl
  have hseen : ({ b with warnings } : Builder).seen Head.unclosed = b.seen Head.unclosed := rfl
  rw [warnings_push, pendingWarnings_push, seen_push, List.count_append, List.count_append, hpending,
    hseen, hcount]
  omega

/-- A node without a body, and with nothing wrong with it. -/
theorem pushLeaf (h : b.Balanced told) {head : Head} (hleaf : head.unclosed = []) :
    (b.push (.leaf head)).Balanced told := by
  have hcount (w : Warning) : b.warnings.count w =
      b.warnings.count w + ([] : List Warning).count w + (seenAll Head.unclosed [.leaf head]).count w := by
    rw [seenAll_leaf, hleaf]
    rfl
  have hpush : (b.push (.leaf head)).Balanced (told ++ []) := h.push hcount
  rwa [List.append_nil] at hpush

/-- A warning that is told. -/
theorem warn (h : b.Balanced told) (d : Defect) (offset : Nat) :
    (b.warn d offset).Balanced (told ++ [d.at offset]) := by
  refine ⟨h.opened, fun w => ?_⟩
  have hw := h.count_eq w
  show (b.warnings ++ [d.at offset]).count w + b.pendingWarnings.count w =
    (told ++ [d.at offset]).count w + (b.seen Head.unclosed).count w
  rw [List.count_append, List.count_append]
  omega

/-- A tag that does not fit. -/
theorem misfit (h : b.Balanced told) (d : Defect) (tok : Token) :
    ((b.warn d tok.start).push (.leaf (tok.head .tag))).Balanced (told ++ [d.at tok.start]) :=
  (h.warn d tok.start).pushLeaf (unclosed_head tok .tag)

/-- A block that is opened may still be closed. -/
theorem opens (h : b.Balanced told) (tok : Token) :
    ({ b with frames := { block := { tok.head .tag with block := true } } :: b.frames } :
      Builder).Balanced told := by
  refine ⟨List.forall_mem_cons.2 ⟨⟨rfl, rfl⟩, h.opened⟩, fun w => ?_⟩
  have hw := h.count_eq w
  have hpending : ({ b with frames := { block := { tok.head .tag with block := true } } :: b.frames } :
      Builder).pendingWarnings = (Defect.neverClosed tok.name).at tok.start :: b.pendingWarnings := rfl
  rw [hpending, List.count_cons, seen_cons rfl, List.count_append]
  have hframe : ({ block := { tok.head .tag with block := true } } : Frame).seen Head.unclosed =
      [(Defect.neverClosed tok.name).at tok.start] := by
    simp [Frame.seen, Head.unclosed, Token.head]
  have hseen : ({ b with frames := b.frames } : Builder).seen Head.unclosed = b.seen Head.unclosed := rfl
  rw [hframe, List.count_singleton, hseen]
  show b.warnings.count w + _ = _
  omega

/-- A branch is told of nothing. -/
theorem openBranch (h : b.Balanced told) (hframes : b.frames = f :: outer) (tok : Token) :
    ({ b with frames := f.openBranch tok :: outer } : Builder).Balanced told := by
  have hopened := h.opened
  rw [hframes] at hopened
  refine ⟨List.forall_mem_cons.2 (List.forall_mem_cons.1 hopened), fun w => ?_⟩
  have hw := h.count_eq w
  have hpending : ({ b with frames := f.openBranch tok :: outer } : Builder).pendingWarnings =
      b.pendingWarnings := by
    unfold pendingWarnings
    rw [hframes]
    rfl
  have hseen : ({ b with frames := f.openBranch tok :: outer } : Builder).seen Head.unclosed =
      b.seen Head.unclosed := by
    rw [seen_cons rfl, Frame.seen_openBranch unclosed_cutAt, unclosed_head, List.append_nil,
      seen_cons hframes]
  rwa [hpending, hseen]

/-- **A block that is cut short** is told at last. -/
theorem cutInnermost (h : b.Balanced told) (hframes : b.frames = f :: outer) (stop : Nat) :
    (b.cutInnermost stop).Balanced told := by
  have hopened := h.opened
  rw [hframes] at hopened
  refine ⟨?_, fun w => ?_⟩
  · rw [cutInnermost_cons hframes]
    exact opened_push (List.forall_mem_cons.1 hopened).2 _
  · have hw := h.count_eq w
    rw [seen_cutInnermost unclosed_cutAt hframes, ← hw, cutInnermost_cons hframes, warnings_push,
      pendingWarnings_push]
    show (b.warnings ++ [_]).count w + (outer.map _).count w = _
    unfold pendingWarnings
    rw [hframes, List.map_cons, List.count_append, List.count_singleton, List.count_cons]
    omega

/-- **A block that is closed** is not told. -/
theorem closeWith (h : b.Balanced told) (hframes : b.frames = f :: outer) (tok : Token) :
    (({ b with frames := outer } : Builder).push (f.closeWith tok)).Balanced told := by
  have hopened := h.opened
  rw [hframes] at hopened
  obtain ⟨hf, houter⟩ := List.forall_mem_cons.1 hopened
  refine ⟨opened_push houter _, fun w => ?_⟩
  have hw := h.count_eq w
  have hclosed : seenAll Head.unclosed [f.closeWith tok] =
      seenAll Head.unclosed (f.childrenAt tok.start) := by
    rw [Frame.closeWith, seenAll_mk]
    simp [Head.unclosed]
  have hpending : b.pendingWarnings.count w = ({ b with frames := outer } : Builder).pendingWarnings.count w +
      f.block.unclosed.count w := by
    unfold pendingWarnings
    rw [hframes, List.map_cons, List.count_cons, unclosed_of_open hf, List.count_singleton]
  rw [seen_cons hframes, ← Frame.seen_childrenAt unclosed_cutAt f tok.start, List.count_append,
    List.count_append, hpending] at hw
  rw [warnings_push, pendingWarnings_push, seen_push, List.count_append, hclosed]
  show b.warnings.count w + _ = _
  omega

theorem closeThrough {block : Text} (h : b.Balanced told)
    (hopen : ∃ f ∈ b.frames, f.block.name = block) : (b.closeThrough block tok).Balanced told :=
  closeThrough_induction (P := fun b => b.Balanced told) (Q := fun b => b.Balanced told)
    (fun _ _ _ hframes hb => hb.cutInnermost hframes _) (fun _ _ _ hframes _ hb => hb.closeWith hframes _)
    b hopen h

/-- An end tag ends an open block, or is told. -/
theorem closeBlock (h : b.Balanced told) (block : Text) (tok : Token) :
    (b.closeBlock block tok).Balanced (told ++ (if b.openNames.contains block then none
      else some (Defect.unexpectedEnd tok.name block)).toList.map (·.at tok.start)) := by
  have hmem : (b.frames.any fun f => f.block.name = block) = true ↔ b.openNames.contains block = true := by
    simp [openNames]
  unfold Builder.closeBlock
  by_cases hopen : b.openNames.contains block = true
  · rw [if_pos (hmem.2 hopen), if_pos hopen]
    show Balanced _ (told ++ [])
    rw [List.append_nil]
    obtain ⟨f, hf, hname⟩ := List.any_eq_true.1 (hmem.2 hopen)
    exact h.closeThrough ⟨f, hf, of_decide_eq_true hname⟩
  · rw [if_neg (mt hmem.1 hopen), if_neg hopen]
    exact h.warn (.unexpectedEnd tok.name block) tok.start

/-- A branch tag opens a branch of the innermost block, or is told. -/
theorem branch (h : b.Balanced told) (tok : Token) :
    (b.branch tok).Balanced (told ++ (if b.openNames.head?.any (isBranchOf · tok.name) then none
      else some (Defect.unknownTag tok.name)).toList.map (·.at tok.start)) := by
  unfold Builder.branch openNames
  cases hframes : b.frames with
  | nil => exact h.misfit (.unknownTag tok.name) tok
  | cons f outer =>
    rw [List.map_cons, List.head?_cons, Option.any_some]
    dsimp only
    by_cases hbranch : isBranchOf f.block.name tok.name = true
    · rw [if_pos hbranch, if_pos hbranch]
      show Balanced _ (told ++ [])
      rw [List.append_nil]
      exact h.openBranch hframes tok
    · rw [if_neg hbranch, if_neg hbranch]
      exact h.misfit (.unknownTag tok.name) tok

/-- **When everything has ended, everything is told.** -/
theorem finish (h : b.Balanced told) (stop : Nat) (w : Warning) :
    (b.finish stop).warnings.count w =
      told.count w + (seenAll Head.unclosed (b.finish stop).done).count w := by
  obtain ⟨hbalanced, hframes⟩ := finish_induction (P := fun b => b.Balanced told) stop
    (fun _ _ _ hframes hb => hb.cutInnermost hframes stop) b h
  have hw := hbalanced.count_eq w
  unfold pendingWarnings Builder.seen at hw
  rwa [hframes, List.map_nil, List.count_nil, Nat.add_zero, List.reverse_nil, List.flatMap_nil,
    List.append_nil] at hw

/-- **One token is told by its defects.** -/
theorem add (h : b.Balanced told) (src : Text) (tok : Token)
    (hlines : ∀ warnings, (addTokens src { warnings }
      (liquidLines tok.markup tok.markupStart)).Balanced
        (warnings ++ tagDefects [] (liquidLines tok.markup tok.markupStart))) :
    (b.add src tok).Balanced (told ++ defectsAt b.openNames tok) := by
  -- a token that is kept as it is has no defects
  have hkept {head : Head} (hhead : head.unclosed = []) (hnone : defectsAt b.openNames tok = []) :
      (b.push (.leaf head)).Balanced (told ++ defectsAt b.openNames tok) := by
    rw [hnone, List.append_nil]
    exact h.pushLeaf hhead
  have huncounted (hcounts : tok.counts b.openNames = false) : defectsAt b.openNames tok = [] :=
    if_neg (by rw [hcounts]; exact Bool.false_ne_true)
  unfold Builder.add
  cases hkind : tok.kind with
  | text | unterminated _ | «variable» =>
    exact hkept rfl (huncounted (by unfold Token.counts; rw [hkind]; rfl))
  | tag =>
    dsimp only
    by_cases hcomment : (tok.inLiquid && b.inComment tok) = true
    · rw [if_pos hcomment]
      rw [inComment_eq] at hcomment
      exact hkept rfl (huncounted (by unfold Token.counts; rw [hcomment]; simp))
    · rw [if_neg hcomment]
      rw [inComment_eq] at hcomment
      have hcounts : tok.counts b.openNames = true := by
        unfold Token.counts
        rw [hkind, Bool.eq_false_iff.2 hcomment]
        rfl
      unfold defectsAt misfit?
      rw [if_pos hcounts]
      cases hrole : tagRole tok.name with
      | nameless => exact h.misfit .nameless tok
      | unknown => exact h.misfit (.unknownTag tok.name) tok
      | inline =>
        show Balanced _ (told ++ [])
        rw [List.append_nil]
        exact h.pushLeaf (unclosed_head tok .tag)
      | opens =>
        show Balanced _ (told ++ [])
        rw [List.append_nil]
        exact h.opens tok
      | closes block =>
        rw [if_neg (show TagRole.closes block ≠ .lines from nofun), List.append_nil]
        exact h.closeBlock block tok
      | branch =>
        rw [if_neg (show TagRole.branch ≠ .lines from nofun), List.append_nil]
        exact h.branch tok
      | lines =>
        rw [if_pos rfl]
        refine h.push fun w => ?_
        unfold addLines
        rw [(hlines b.warnings).finish tok.stop w, List.count_append, seenAll_mk, unclosed_head,
          List.nil_append]
        rfl

/-- **A run is told by the defects of its tokens.** -/
theorem addTokens (src : Text) {toks : List Token} :
    ∀ {b : Builder} {told : List Warning}, b.Balanced told →
      (b.addTokens src toks).Balanced (told ++ tagDefects b.openNames toks) := by
  induction toks using tokens_induction with
  | nil =>
    intro b told h
    rwa [addTokens_nil, tagDefects_nil, List.append_nil]
  | cons tok rest ihlines ih =>
    intro b told h
    rw [addTokens_cons, tagDefects_cons, ← List.append_assoc, ← openNames_add src b tok]
    refine ih (h.add src tok fun warnings => ?_)
    have hempty : ({ warnings } : Builder).Balanced warnings :=
      ⟨fun _ hf => absurd hf List.not_mem_nil, fun _ => rfl⟩
    exact ihlines hempty

end Balanced

end Builder

/-! ## The accounts of a template -/

/-- The warnings of openers without a closer are told where these stand. -/
theorem offset_of_mem_unterminatedWarnings {toks : List Token} {w : Warning}
    (hw : w ∈ unterminatedWarnings toks) : ∃ tok ∈ toks, w.offset = tok.start := by
  obtain ⟨tok, htok, hsome⟩ := List.mem_filterMap.1 hw
  split at hsome
  · rw [← Option.some.inj hsome]
    exact ⟨tok, htok, rfl⟩
  · cases hsome

/-- Every block of a template starts inside it. -/
theorem start_lt_of_block {src : Text} {h : Head} (hh : h ∈ (parse src).root.walk fun _ => true)
    (hblock : h.block = true) : h.start < src.length := by
  have hbelow : h ∈ Node.walkAll (fun _ => true) (parse src).root.children := by
    rcases List.mem_cons.1 hh with rfl | hh
    · cases hblock
    · exact hh
  refine forall_below_root (P := fun h => h.start < src.length)
    (Q := fun tok => tok.Placed ∧ tok.stop ≤ src.length) (fun _ _ _ _ => Iff.rfl) (fun tok htok => ?_)
    (fun tok htok _ line hline => ?_) (fun b tok n htok hleaf => ?_) (fun tok htok _ => ?_) hbelow
  · exact ((tiles_tokens src).follows.placed htok).2
  · obtain ⟨-, hplaced, hstop⟩ := (follows_liquidLines tok.markup tok.markupStart).placed hline
    exact ⟨hplaced, Nat.le_trans hstop (Nat.le_trans htok.1.markup_le_stop htok.2)⟩
  · have hlt : tok.start < src.length := Nat.lt_of_lt_of_le htok.1.start_lt_stop htok.2
    cases hleaf <;> exact hlt
  · have hlt : tok.start < src.length := Nat.lt_of_lt_of_le htok.1.start_lt_stop htok.2
    exact ⟨hlt, hlt⟩

/-- **Warnings account for every defect exactly once.**  The warnings of a template are in the order of their
offsets, all of which lie in it, and they are those of the openers without a closer, of the blocks that are
not closed, and of the tags that do not fit where they stand. -/
theorem warnings_account (src : Text) :
    ((parse src).warnings.Pairwise fun v w => v.offset ≤ w.offset) ∧
      (∀ w ∈ (parse src).warnings, w.offset < src.length) ∧
      (parse src).warnings.Perm
        (unterminatedWarnings (tokens src) ++
          ((parse src).root.walk fun _ => true).flatMap Head.unclosed ++ tagDefects [] (tokens src)) := by
  have hperm : (parse src).warnings.Perm
      (unterminatedWarnings (tokens src) ++
        ((parse src).root.walk fun _ => true).flatMap Head.unclosed ++ tagDefects [] (tokens src)) := by
    have hempty : ({ warnings := unterminatedWarnings (tokens src) } : Builder).Balanced
        (unterminatedWarnings (tokens src)) := ⟨fun _ hf => absurd hf List.not_mem_nil, fun _ => rfl⟩
    refine (List.mergeSort_perm ..).trans (List.perm_iff_count.2 fun w => ?_)
    have hrun : (Builder.addTokens src _ (tokens src)).Balanced _ := hempty.addTokens src
    have hw := hrun.finish src.length w
    have hnames : ({ warnings := unterminatedWarnings (tokens src) } : Builder).openNames = [] := rfl
    -- the root itself is no block
    have hroot : ((parse src).root.walk fun _ => true).flatMap Head.unclosed =
        seenAll Head.unclosed (parse src).root.children := rfl
    rw [hnames] at hw
    rw [hw, hroot, List.count_append, List.count_append, List.count_append, Nat.add_right_comm]
    rfl
  refine ⟨?_, fun w hw => ?_, hperm⟩
  · refine (List.pairwise_mergeSort (fun u v w huv hvw => ?_) (fun v w => ?_) _).imp fun h =>
      of_decide_eq_true h
    · exact decide_eq_true (Nat.le_trans (of_decide_eq_true huv) (of_decide_eq_true hvw))
    · rw [Bool.or_eq_true, decide_eq_true_iff, decide_eq_true_iff]
      exact Nat.le_total ..
  · have hfollows := (tiles_tokens src).follows
    rcases List.mem_append.1 (hperm.mem_iff.1 hw) with hw | hw
    · rcases List.mem_append.1 hw with hw | hw
      · obtain ⟨tok, htok, hoffset⟩ := offset_of_mem_unterminatedWarnings hw
        obtain ⟨-, hplaced, hstop⟩ := hfollows.placed htok
        rw [hoffset]
        exact Nat.lt_of_lt_of_le hplaced.start_lt_stop hstop
      · obtain ⟨h, hh, hw⟩ := List.mem_flatMap.1 hw
        unfold Head.unclosed at hw
        split at hw
        · rename_i hopen
          rw [List.mem_singleton.1 hw]
          exact start_lt_of_block hh (Bool.and_eq_true_iff.1 hopen).1
        · cases hw
    · exact (offset_of_mem_tagDefects hfollows w hw).2

end Liquid
end LiquidLint
