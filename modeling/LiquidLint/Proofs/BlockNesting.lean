import LiquidLint.Proofs.BareTags
import LiquidLint.Proofs.TreeSteps

/-!
# Blocks and their nesting

A template without mistakes is a sequence of items: texts, variables, tags that stand alone, `liquid`
tags whose lines are items again, and blocks.  A block is its opening tag, items, any number of
branches with items after them, and its end tag; what a comment holds is free.

`Items` is this grammar, on tokens.  It is recursive, while the tree is built with a stack of open
blocks.  `Moves` is the stack machine of the grammar: what one token may do to the names of the open
blocks.  The two agree (`completes_cons`): the tokens that complete a stack of open blocks are those
that the machine reads one after the other.

The tree builder warns exactly where its tokens leave the grammar of blocks.  Each token that it takes
without a warning is a move of the stack machine of the grammar, on the names of the open blocks, and
the other way round (`add_of_moves`, `exists_moves`).  Warnings are never taken back, so a run without
a new warning is a run of the machine (`warnings_run_iff`), which reads the tokens of the grammar.

In a comment the builder would take tags as tags; that it never meets one there is a fact about how
comments are read (`Sealed`).
-/

namespace LiquidLint
namespace Liquid

/-! ## The grammar -/

/-- The end tag of the block `block`. -/
structure Token.Ends (tok : Token) (block : Text) : Prop where
  kind_eq : tok.kind = .tag
  name_eq : tok.name = "end" ++ block

/-- What may stand in a comment: text, or a line that is not the end of the comment. -/
def Token.Free (tok : Token) : Prop :=
  tok.kind = .text ∨ tok.kind = .tag ∧ tok.inLiquid = true ∧ tok.name ≠ "endcomment"

mutual

/-- An item of one token. -/
inductive Single : Token → Prop where
  | text {tok : Token} (hkind : tok.kind = .text) : Single tok
  | «variable» {tok : Token} (hkind : tok.kind = .variable) : Single tok
  | inline {tok : Token} (hkind : tok.kind = .tag) (hname : inlineTags.contains tok.name = true)
      (hne : tok.name ≠ "liquid") : Single tok
  | lines {tok : Token} (hkind : tok.kind = .tag) (hname : tok.name = "liquid")
      (hlines : Items (liquidLines tok.markup tok.markupStart)) : Single tok

/-- Items one after the other. -/
inductive Items : List Token → Prop where
  | nil : Items []
  | single {tok : Token} {rest : List Token} (hitem : Single tok) (hrest : Items rest) :
      Items (tok :: rest)
  | block {opening ending : Token} {body rest : List Token} (hkind : opening.kind = .tag)
      (hblock : isBlockTag opening.name = true) (hbody : Body opening.name body)
      (hend : ending.Ends opening.name) (hrest : Items rest) :
      Items (opening :: (body ++ ending :: rest))

/-- What stands between the opening tag and the end tag of a block. -/
inductive Body : Text → List Token → Prop where
  | comment {body : List Token} (hfree : ∀ tok ∈ body, tok.Free) : Body "comment" body
  | items {block : Text} {first branches : List Token} (hblock : block ≠ "comment")
      (hfirst : Items first) (hbranches : Branches block branches) : Body block (first ++ branches)

/-- Branches of a block, each with the items after it. -/
inductive Branches : Text → List Token → Prop where
  | nil {block : Text} : Branches block []
  | cons {block : Text} {tok : Token} {items branches : List Token} (hkind : tok.kind = .tag)
      (hbranch : isBranchOf block tok.name = true) (hitems : Items items)
      (hbranches : Branches block branches) : Branches block (tok :: (items ++ branches))

end

/-! ## The stack machine -/

/-- What one token does to the names of the open blocks, innermost first.  Inside a comment only free
tokens and its end tag can be read. -/
inductive Moves : List Text → Token → List Text → Prop where
  | free {tok : Token} {outer : List Text} (hfree : tok.Free) :
      Moves ("comment" :: outer) tok ("comment" :: outer)
  | single {tok : Token} {stack : List Text} (hstack : stack.head? ≠ some ("comment" : Text))
      (hitem : Single tok) : Moves stack tok stack
  | opens {tok : Token} {stack : List Text} (hstack : stack.head? ≠ some ("comment" : Text))
      (hkind : tok.kind = .tag) (hblock : isBlockTag tok.name = true) :
      Moves stack tok (tok.name :: stack)
  | branch {tok : Token} {block : Text} {outer : List Text} (hkind : tok.kind = .tag)
      (hbranch : isBranchOf block tok.name = true) : Moves (block :: outer) tok (block :: outer)
  | ends {tok : Token} {block : Text} {outer : List Text} (hblock : isBlockTag block = true)
      (hend : tok.Ends block) : Moves (block :: outer) tok outer

/-- The tokens complete the open blocks: they hold the rest of the innermost block and its end tag,
then the rest of the block around it, and so on, and items at last. -/
def Completes : (stack : List Text) → List Token → Prop
  | [], toks => Items toks
  | block :: outer, toks => ∃ body ending rest, toks = body ++ ending :: rest ∧
      isBlockTag block = true ∧ Body block body ∧ ending.Ends block ∧ Completes outer rest

theorem completes_nil {stack : List Text} : Completes stack [] ↔ stack = [] := by
  constructor
  · intro h
    cases stack with
    | nil => rfl
    | cons block outer =>
      obtain ⟨body, ending, rest, heq, _⟩ := h
      exact absurd heq (by simp)
  · rintro rfl
    exact .nil

theorem not_isBranchOf_comment (name : Text) : isBranchOf "comment" name = false := by
  have hall : ∀ entry ∈ branchTable, (entry.1 == ("comment" : Text)) = false := by decide
  refine List.any_eq_false.2 fun entry hentry => ?_
  rw [hall entry hentry]
  exact nofun

theorem Body.nil (block : Text) : Body block [] := by
  by_cases hblock : block = "comment"
  · subst hblock
    exact .comment nofun
  · exact .items hblock .nil .nil

/-- Items may stand before the rest of a body. -/
theorem Body.parts {block : Text} {body : List Token} (h : Body block body)
    (hblock : block ≠ "comment") :
    ∃ first branches, body = first ++ branches ∧ Items first ∧ Branches block branches := by
  cases h with
  | comment _ => exact absurd rfl hblock
  | items _ hfirst hbranches => exact ⟨_, _, rfl, hfirst, hbranches⟩

theorem head?_ne_of_cons {block : Text} {outer : List Text}
    (h : (block :: outer).head? ≠ some ("comment" : Text)) : block ≠ "comment" :=
  fun heq => h (by rw [heq]; rfl)

namespace Completes

variable {stack outer : List Text} {block : Text} {tok : Token} {rest : List Token}

theorem free (hfree : tok.Free) (h : Completes ("comment" :: outer) rest) :
    Completes ("comment" :: outer) (tok :: rest) := by
  obtain ⟨body, ending, rest, rfl, hblock, hbody, hend, houter⟩ := h
  refine ⟨tok :: body, ending, rest, rfl, hblock, ?_, hend, houter⟩
  cases hbody with
  | comment hbody =>
    refine .comment fun tok' htok => ?_
    rcases List.mem_cons.1 htok with rfl | htok
    · exact hfree
    · exact hbody tok' htok
  | items hne _ _ => exact absurd rfl hne

theorem single (hstack : stack.head? ≠ some ("comment" : Text)) (hitem : Single tok)
    (h : Completes stack rest) : Completes stack (tok :: rest) := by
  cases stack with
  | nil => exact Items.single hitem h
  | cons block outer =>
    obtain ⟨body, ending, rest, rfl, hblock, hbody, hend, houter⟩ := h
    have hne := head?_ne_of_cons hstack
    obtain ⟨first, branches, rfl, hfirst, hbranches⟩ := hbody.parts hne
    exact ⟨(tok :: first) ++ branches, ending, rest, rfl, hblock,
      .items hne (.single hitem hfirst) hbranches, hend, houter⟩

/-- A block that is opened and completed is an item of what stands around it. -/
theorem opens (hstack : stack.head? ≠ some ("comment" : Text)) (hkind : tok.kind = .tag)
    (h : Completes (tok.name :: stack) rest) : Completes stack (tok :: rest) := by
  obtain ⟨body, ending, rest, rfl, hblock, hbody, hend, houter⟩ := h
  cases stack with
  | nil => exact Items.block hkind hblock hbody hend houter
  | cons block outer =>
    obtain ⟨body', ending', rest, rfl, hblock', hbody', hend', houter⟩ := houter
    have hne := head?_ne_of_cons hstack
    obtain ⟨first, branches, rfl, hfirst, hbranches⟩ := hbody'.parts hne
    refine ⟨(tok :: (body ++ ending :: first)) ++ branches, ending', rest, ?_, hblock',
      .items hne (.block hkind hblock hbody hend hfirst) hbranches, hend', houter⟩
    simp only [List.cons_append, List.append_assoc]

theorem branch (hkind : tok.kind = .tag) (hbranch : isBranchOf block tok.name = true)
    (h : Completes (block :: outer) rest) : Completes (block :: outer) (tok :: rest) := by
  obtain ⟨body, ending, rest, rfl, hblock, hbody, hend, houter⟩ := h
  have hne : block ≠ "comment" := by
    rintro rfl
    rw [not_isBranchOf_comment] at hbranch
    cases hbranch
  obtain ⟨first, branches, rfl, hfirst, hbranches⟩ := hbody.parts hne
  exact ⟨[] ++ (tok :: (first ++ branches)), ending, rest, rfl, hblock,
    .items hne .nil (.cons hkind hbranch hfirst hbranches), hend, houter⟩

end Completes

/-- What the first of some items does, and what is left to complete after it. -/
theorem Items.moves {tok : Token} {items more : List Token} {stack : List Text}
    (h : Items (tok :: items)) (hstack : stack.head? ≠ some ("comment" : Text))
    (hmore : ∀ rest, Items rest → Completes stack (rest ++ more)) :
    ∃ stack', Moves stack tok stack' ∧ Completes stack' (items ++ more) := by
  cases h with
  | single hitem hrest => exact ⟨stack, .single hstack hitem, hmore _ hrest⟩
  | @block _ ending body rest hkind hblock hbody hend hrest =>
    refine ⟨tok.name :: stack, .opens hstack hkind hblock, body, ending, rest ++ more, ?_, hblock,
      hbody, hend, hmore _ hrest⟩
    simp only [List.append_assoc, List.cons_append]

/-- **The grammar is read by the stack machine.**  Tokens complete a stack exactly when the first one
can be read and the others complete the stack that it leaves. -/
theorem completes_cons {stack : List Text} {tok : Token} {rest : List Token} :
    Completes stack (tok :: rest) ↔ ∃ stack', Moves stack tok stack' ∧ Completes stack' rest := by
  constructor
  · intro h
    cases stack with
    | nil =>
      have hmoves := @Items.moves tok rest [] [] h nofun fun rest hrest => by rwa [List.append_nil]
      rwa [List.append_nil] at hmoves
    | cons block outer =>
      obtain ⟨body, ending, after, heq, hblock, hbody, hend, houter⟩ := h
      cases body with
      | nil =>
        obtain ⟨rfl, rfl⟩ := List.cons.inj heq
        exact ⟨outer, .ends hblock hend, houter⟩
      | cons first body =>
        obtain ⟨rfl, rfl⟩ := List.cons.inj heq
        generalize hall : tok :: body = whole at hbody
        cases hbody with
        | comment hfree =>
          subst hall
          refine ⟨_, .free (hfree tok (List.mem_cons_self ..)), body, ending, after, rfl, hblock,
            .comment fun tok' htok => hfree tok' (List.mem_cons_of_mem _ htok), hend, houter⟩
        | @items _ first branches hne hfirst hbranches =>
          cases first with
          | nil =>
            cases hbranches with
            | nil => cases hall
            | cons hkind hbranch hitems hbranches =>
              obtain ⟨rfl, rfl⟩ := List.cons.inj hall
              exact ⟨_, .branch hkind hbranch, _, ending, after, rfl, hblock,
                .items hne hitems hbranches, hend, houter⟩
          | cons first items =>
            obtain ⟨rfl, rfl⟩ := List.cons.inj hall
            have hstack : (block :: outer).head? ≠ some ("comment" : Text) :=
              fun hsome => hne (Option.some.inj hsome)
            have hmoves := @Items.moves tok items (branches ++ ending :: after) (block :: outer)
              hfirst hstack fun rest hrest => ⟨rest ++ branches, ending, after,
                (List.append_assoc ..).symm, hblock, .items hne hrest hbranches, hend, houter⟩
            rwa [← List.append_assoc] at hmoves
  · rintro ⟨stack', hmove, h⟩
    cases hmove with
    | free hfree => exact h.free hfree
    | single hstack hitem => exact h.single hstack hitem
    | opens hstack hkind _ => exact h.opens hstack hkind
    | branch hkind hbranch => exact h.branch hkind hbranch
    | ends hblock hend => exact ⟨[], tok, rest, rfl, hblock, .nil _, hend, h⟩

/-! ## Names and roles -/

theorem tagRole_end {block : Text} (h : isBlockTag block = true) :
    tagRole ("end" ++ block) = .closes block := by
  have hclose : closedBlock? ("end" ++ block) = some block := by
    unfold closedBlock?
    rw [Text.dropStart?_append]
    exact Option.filter_eq_some_iff.2 ⟨rfl, h⟩
  unfold tagRole
  rw [hclose]
  rfl

theorem Token.Ends.of_closes {tok : Token} {block : Text} (hkind : tok.kind = .tag)
    (h : tagRole tok.name = .closes block) : tok.Ends block ∧ isBlockTag block = true := by
  obtain ⟨hname, hblock⟩ := Option.filter_eq_some_iff.1 (closedBlock?_of_closes h)
  exact ⟨⟨hkind, Text.dropStart?_eq_some.1 hname⟩, hblock⟩

theorem tagRole_of_isBlockTag {name : Text} (h : isBlockTag name = true) :
    tagRole name = .opens := by
  have hall : ∀ name ∈ blockTags, tagRole name = .opens := by decide
  exact hall name (List.contains_iff_mem.1 h)

theorem tagRole_of_isBranchOf {block name : Text} (h : isBranchOf block name = true) :
    tagRole name = .branch := by
  have hall : ∀ entry ∈ branchTable, ∀ name ∈ entry.2, tagRole name = .branch := by decide
  obtain ⟨entry, hentry, hname⟩ := List.any_eq_true.1 h
  exact hall entry hentry name (List.contains_iff_mem.1 (Bool.and_eq_true_iff.1 hname).2)

theorem tagRole_of_inlineTags {name : Text} (h : inlineTags.contains name = true)
    (hne : name ≠ "liquid") : tagRole name = .inline := by
  have hall : ∀ name ∈ inlineTags, name ≠ "liquid" → tagRole name = .inline := by decide
  exact hall name (List.contains_iff_mem.1 h) hne

theorem isBlockTag_of_opens {name : Text} (h : tagRole name = .opens) : isBlockTag name = true := by
  unfold tagRole at h
  repeat' split at h
  all_goals first
    | assumption
    | cases h

theorem inlineTags_of_inline {name : Text} (h : tagRole name = .inline) :
    inlineTags.contains name = true ∧ name ≠ "liquid" := by
  unfold tagRole at h
  split at h
  · cases h
  · split at h
    · cases h
    · split at h
      · cases h
      · split at h
        · cases h
        · rename_i hblock
          split at h
          · cases h
          · rename_i hne
            split at h
            · rename_i hknown
              rcases Bool.or_eq_true_iff.1 hknown with hknown | hknown
              · exact absurd hknown hblock
              · exact ⟨hknown, hne⟩
            · cases h

/-! ## Comments hold no tags -/

/-- Free tokens up to the end of a comment. -/
def FreeUntilEnd : List Token → Prop
  | [] => True
  | tok :: rest => tok.Ends "comment" ∨ tok.Free ∧ FreeUntilEnd rest

/-- Only free tokens stand in the comments of the tokens. -/
def CommentsFree : List Token → Prop
  | [] => True
  | tok :: rest =>
    (tok.kind = .tag → tok.name = "comment" → FreeUntilEnd rest) ∧ CommentsFree rest

theorem CommentsFree.textTokens_append {start : Nat} {t : Text} {toks : List Token}
    (h : CommentsFree toks) : CommentsFree (textTokens start t ++ toks) := by
  unfold textTokens
  split
  · exact h
  · exact ⟨nofun, h⟩

theorem FreeUntilEnd.textTokens_append {start : Nat} {t : Text} {toks : List Token}
    (h : FreeUntilEnd toks) : FreeUntilEnd (textTokens start t ++ toks) := by
  unfold textTokens
  split
  · exact h
  · exact .inr ⟨.inl rfl, h⟩

theorem Reads.nil_of_nil {start : Nat} {toks : List Token} (h : Reads start [] toks) :
    toks = [] := by
  have hplain : Reads start [] (textTokens start []) := .plain rfl
  rw [← h.tokensFrom_eq, hplain.tokensFrom_eq]
  rfl

/-- A comment is read up to its end tag, as one text. -/
theorem Reads.commentsFree {start : Nat} {src : Text} {toks : List Token}
    (h : Reads start src toks) : CommentsFree toks := by
  induction h with
  | @plain start src _ =>
    rw [← List.append_nil (textTokens start src)]
    have hnil : CommentsFree [] := trivial
    exact hnil.textTokens_append
  | unterminated _ _ _ _ ih => exact CommentsFree.textTokens_append ⟨nofun, ih⟩
  | @delimited start before inner body rest d toks _ _ hbody hrest ih =>
    refine CommentsFree.textTokens_append ⟨fun hkind hname => ?_, ih.textTokens_append⟩
    refine FreeUntilEnd.textTokens_append ?_
    unfold verbatimBody at hbody
    rw [if_pos hkind, hname, if_neg (by decide), if_pos rfl] at hbody
    rcases after_commentBody (congrArg (· ++ rest) hbody) with rfl | hbare
    · rw [hrest.nil_of_nil]
      trivial
    · obtain ⟨tok, toks, rfl, hkind, hname⟩ := hrest.head_of_bareTag? hbare (by decide)
      exact .inl ⟨hkind, hname⟩

theorem freeUntilEnd_of_lines {toks : List Token}
    (h : ∀ tok ∈ toks, tok.kind = .tag ∧ tok.inLiquid = true) : FreeUntilEnd toks := by
  induction toks with
  | nil => trivial
  | cons tok rest ih =>
    obtain ⟨hkind, hline⟩ := h tok (List.mem_cons_self ..)
    by_cases hname : tok.name = "endcomment"
    · exact .inl ⟨hkind, hname⟩
    · exact .inr ⟨.inr ⟨hkind, hline, hname⟩, ih fun tok' htok => h tok' (List.mem_cons_of_mem _ htok)⟩

theorem commentsFree_of_lines {toks : List Token}
    (h : ∀ tok ∈ toks, tok.kind = .tag ∧ tok.inLiquid = true) : CommentsFree toks := by
  induction toks with
  | nil => trivial
  | cons tok rest ih =>
    have hrest : ∀ tok ∈ rest, tok.kind = .tag ∧ tok.inLiquid = true :=
      fun tok' htok => h tok' (List.mem_cons_of_mem _ htok)
    exact ⟨fun _ _ => freeUntilEnd_of_lines hrest, ih hrest⟩

/-- Before the tokens `toks`, with the blocks `stack` open: every opener has a closer, and comments
hold free tokens only. -/
structure Sealed (stack : List Text) (toks : List Token) : Prop where
  terminated : ∀ tok ∈ toks, ∀ d, tok.kind ≠ .unterminated d
  comments : CommentsFree toks
  inside : stack.head? = some ("comment" : Text) → FreeUntilEnd toks
  outside : ("comment" : Text) ∉ stack.tail

namespace Sealed

variable {stack stack' : List Text} {tok : Token} {rest : List Token}

theorem of_lines {toks : List Token} (h : ∀ tok ∈ toks, tok.kind = .tag ∧ tok.inLiquid = true) :
    Sealed [] toks where
  terminated tok htok d hkind := by
    rw [(h tok htok).1] at hkind
    cases hkind
  comments := commentsFree_of_lines h
  inside := nofun
  outside := nofun

/-- In a comment, the next token is free or ends the comment. -/
theorem head (h : Sealed stack (tok :: rest)) (hstack : stack.head? = some ("comment" : Text)) :
    tok.Free ∨ tok.Ends "comment" :=
  (h.inside hstack).elim .inr fun hfree => .inl hfree.1

theorem step (h : Sealed stack (tok :: rest)) (hmove : Moves stack tok stack') :
    Sealed stack' rest := by
  have hterminated : ∀ tok ∈ rest, ∀ d, tok.kind ≠ .unterminated d :=
    fun tok' htok => h.terminated tok' (List.mem_cons_of_mem _ htok)
  have houtside := h.outside
  cases hmove with
  | free hfree =>
    refine ⟨hterminated, h.comments.2, fun _ => ?_, houtside⟩
    rcases h.inside rfl with hend | ⟨_, hrest⟩
    · -- a free token is not the end of the comment
      rcases hfree with hkind | ⟨_, _, hname⟩
      · rw [hend.kind_eq] at hkind
        cases hkind
      · exact absurd hend.name_eq hname
    · exact hrest
  | single hstack _ => exact ⟨hterminated, h.comments.2, fun h => absurd h hstack, houtside⟩
  | opens hstack hkind _ =>
    refine ⟨hterminated, h.comments.2, fun hname => h.comments.1 hkind (Option.some.inj hname), ?_⟩
    intro hmem
    cases stack with
    | nil => cases hmem
    | cons block outer =>
      rcases List.mem_cons.1 hmem with heq | hmem
      · exact hstack (by rw [← heq]; rfl)
      · exact houtside hmem
  | @branch _ block outer hkind hbranch =>
    refine ⟨hterminated, h.comments.2, fun hname => ?_, houtside⟩
    rw [Option.some.inj hname, not_isBranchOf_comment] at hbranch
    cases hbranch
  | ends _ _ =>
    refine ⟨hterminated, h.comments.2, fun hname => absurd ?_ houtside, fun hmem => houtside ?_⟩
    · exact List.mem_of_mem_head? hname
    · exact List.mem_of_mem_tail hmem

end Sealed

/-! ## Warnings are never taken back -/

namespace Builder

/-- The names of the open blocks, innermost first. -/
def openNames (b : Builder) : List Text := b.frames.map (·.block.name)

@[simp] theorem openNames_push (b : Builder) (n : Node) : (b.push n).openNames = b.openNames := by
  have h := congrArg (List.map Head.name) (blocks_push b n)
  rwa [List.map_map, List.map_map] at h

theorem warnings_cutInnermost {b : Builder} {f : Frame} {outer : List Frame}
    (hframes : b.frames = f :: outer) (stop : Nat) :
    (b.cutInnermost stop).warnings =
      b.warnings ++ [(Defect.neverClosed f.block.name).at f.block.start] := by
  rw [cutInnermost_cons hframes, warnings_push]
  rfl

theorem warnings_prefix_cutInnermost {b : Builder} {f : Frame} {outer : List Frame}
    (hframes : b.frames = f :: outer) (stop : Nat) :
    b.warnings <+: (b.cutInnermost stop).warnings := by
  rw [warnings_cutInnermost hframes]
  exact List.prefix_append _ _

theorem warnings_prefix_finish (b : Builder) (stop : Nat) :
    b.warnings <+: (b.finish stop).warnings :=
  (finish_induction (P := fun b' => b.warnings <+: b'.warnings) stop
    (fun _ _ _ hframes h => h.trans (warnings_prefix_cutInnermost hframes stop)) b
    (List.prefix_refl _)).1

theorem warnings_prefix_closeThrough {b : Builder} {block : Text} {tok : Token}
    (hopen : ∃ f ∈ b.frames, f.block.name = block) :
    b.warnings <+: (b.closeThrough block tok).warnings := by
  refine closeThrough_induction (P := fun b' => b.warnings <+: b'.warnings)
    (Q := fun b' => b.warnings <+: b'.warnings)
    (fun _ _ _ hframes h => h.trans (warnings_prefix_cutInnermost hframes _)) ?_ b hopen
    (List.prefix_refl _)
  intro b' f outer _ _ h
  rwa [warnings_push]

theorem warnings_prefix_add {src : Text} {tok : Token} (b : Builder)
    (hlines : ∀ warnings, warnings <+: (addLines src warnings tok).warnings) :
    b.warnings <+: (b.add src tok).warnings := by
  have hadded := added_add src b tok
  generalize b.add src tok = after at hadded
  cases hadded with
  | leaf _ => simp
  | misfit _ _ _ _ =>
    rw [warnings_push]
    exact List.prefix_append _ _
  | opens _ _ _ => exact List.prefix_refl _
  | branch _ _ _ _ _ => exact List.prefix_refl _
  | closes _ _ hopen => exact warnings_prefix_closeThrough hopen
  | stray _ _ _ => exact List.prefix_append _ _
  | lines _ _ _ =>
    rw [warnings_push]
    exact hlines b.warnings

theorem warnings_prefix_addTokens (src : Text) (toks : List Token) (b : Builder) :
    b.warnings <+: (b.addTokens src toks).warnings := by
  induction toks using tokens_induction generalizing b with
  | nil =>
    rewrite [addTokens_nil]
    exact List.prefix_refl _
  | cons tok rest ihlines ihrest =>
    rw [addTokens_cons]
    refine (warnings_prefix_add b fun warnings => ?_).trans (ihrest _)
    exact (ihlines { warnings }).trans (warnings_prefix_finish _ _)

theorem warnings_prefix_addLines (src : Text) (warnings : List Warning) (tok : Token) :
    warnings <+: (addLines src warnings tok).warnings :=
  (warnings_prefix_addTokens src _ { warnings }).trans (warnings_prefix_finish _ _)

/-- Ending every open block is silent when there is none. -/
theorem warnings_finish_iff {b : Builder} {stop : Nat} :
    (b.finish stop).warnings = b.warnings ↔ b.frames = [] := by
  constructor
  · intro h
    cases hframes : b.frames with
    | nil => rfl
    | cons f outer =>
      rw [finish, if_neg (by rw [hframes]; exact nofun)] at h
      have hprefix := warnings_prefix_finish (b.cutInnermost stop) stop
      rw [h, warnings_cutInnermost hframes] at hprefix
      have hlen := hprefix.length_le
      rw [List.length_append, List.length_singleton] at hlen
      omega
  · intro h
    rw [finish, h]
    rfl

/-- An end tag is silent only when it closes the innermost block. -/
theorem innermost_of_warnings_closeThrough {b : Builder} {block : Text} {tok : Token}
    (hopen : ∃ f ∈ b.frames, f.block.name = block)
    (h : (b.closeThrough block tok).warnings = b.warnings) :
    ∃ f outer, b.frames = f :: outer ∧ f.block.name = block := by
  have hgrow : (∃ f outer, b.frames = f :: outer ∧ f.block.name = block) ∨
      b.warnings.length < (b.closeThrough block tok).warnings.length := by
    -- the first block that is cut short leaves a warning
    refine closeThrough_induction
      (P := fun b' => b' = b ∨ b.warnings.length < b'.warnings.length)
      (Q := fun b' => (∃ f outer, b.frames = f :: outer ∧ f.block.name = block) ∨
        b.warnings.length < b'.warnings.length) ?_ ?_ b hopen (.inl rfl)
    · intro b' f outer hframes hb'
      rw [warnings_cutInnermost hframes, List.length_append, List.length_singleton]
      rcases hb' with rfl | hlt
      · exact .inr (Nat.lt_succ_self _)
      · exact .inr (Nat.lt_succ_of_lt hlt)
    · intro b' f outer hframes hname hb'
      rw [warnings_push]
      rcases hb' with rfl | hlt
      · exact .inl ⟨f, outer, hframes, hname⟩
      · exact .inr hlt
  rcases hgrow with hfound | hlt
  · exact hfound
  · rw [h] at hlt
    exact absurd hlt (Nat.lt_irrefl _)

/-! ## A silent step is a move -/

section Step

variable {src : Text} {b : Builder} {tok : Token} {rest : List Token} {stack : List Text}

theorem inComment_of_head? (hstack : b.openNames.head? = some ("comment" : Text))
    (hname : tok.name ≠ "endcomment") : b.inComment tok = true := by
  unfold inComment
  unfold openNames at hstack
  cases hframes : b.frames with
  | nil =>
    rw [hframes] at hstack
    cases hstack
  | cons f outer =>
    rw [hframes] at hstack
    have hcomment : f.block.name = "comment" := Option.some.inj hstack
    simp [hcomment, hname]

theorem head?_of_inComment (h : b.inComment tok = true) :
    (∃ outer, b.openNames = ("comment" : Text) :: outer) ∧ tok.name ≠ "endcomment" := by
  unfold inComment at h
  unfold openNames
  cases hframes : b.frames with
  | nil =>
    rw [hframes] at h
    cases h
  | cons f outer =>
    rw [hframes] at h
    obtain ⟨hcomment, hname⟩ := Bool.and_eq_true_iff.1 h
    rw [List.map_cons, of_decide_eq_true hcomment]
    exact ⟨⟨_, rfl⟩, of_decide_eq_true hname⟩

/-- A tag that ends nothing is met outside of comments only. -/
theorem ReadsTag.head?_ne (htag : b.ReadsTag tok)
    (hhead : b.openNames.head? = some ("comment" : Text) → tok.Free ∨ tok.Ends "comment")
    (hclose : closedBlock? tok.name = none) : b.openNames.head? ≠ some ("comment" : Text) := by
  intro hstack
  rcases hhead hstack with (hkind | ⟨_, hline, hname⟩) | hend
  · rw [htag.kind_eq] at hkind
    cases hkind
  · have hcomment := htag.comment_eq
    rw [hline, inComment_of_head? hstack hname] at hcomment
    cases hcomment
  · rw [hend.name_eq] at hclose
    cases hclose

/-- **A step without a warning is a move.** -/
theorem exists_moves (hseal : Sealed b.openNames (tok :: rest))
    (hlines : ∀ warnings, (addLines src warnings tok).warnings = warnings →
      Items (liquidLines tok.markup tok.markupStart))
    (h : (b.add src tok).warnings = b.warnings) : ∃ stack, Moves b.openNames tok stack := by
  have hterminated := hseal.terminated tok (List.mem_cons_self ..)
  have hadded := added_add src b tok
  generalize b.add src tok = after at hadded h
  cases hadded with
  | leaf hleaf =>
    cases hleaf with
    | text hkind =>
      have hkind : tok.kind = .text := by
        cases hk : tok.kind with
        | text => rfl
        | unterminated d => exact absurd hk (hterminated d)
        | «variable» | tag =>
          rw [hk] at hkind
          exact hkind.elim
      by_cases hstack : b.openNames.head? = some ("comment" : Text)
      · obtain ⟨outer, houter⟩ := List.head?_eq_some_iff.1 hstack
        rw [houter]
        exact ⟨_, .free (.inl hkind)⟩
      · exact ⟨_, .single hstack (.text hkind)⟩
    | «variable» hkind =>
      refine ⟨_, .single (fun hstack => ?_) (.variable hkind)⟩
      rcases hseal.head hstack with (hkind' | ⟨hkind', _⟩) | ⟨hkind', _⟩ <;>
        rw [hkind] at hkind' <;> cases hkind'
    | comment hkind hline hin =>
      obtain ⟨⟨outer, houter⟩, hname⟩ := head?_of_inComment hin
      rw [houter]
      exact ⟨_, .free (.inr ⟨hkind, hline, hname⟩)⟩
    | inline htag hclose hrole =>
      obtain ⟨hname, hne⟩ := inlineTags_of_inline hrole
      exact ⟨_, .single (htag.head?_ne hseal.head hclose) (.inline htag.kind_eq hname hne)⟩
  | misfit d _ _ _ =>
    rw [warnings_push] at h
    exact absurd h (by simp [warn])
  | opens htag hclose hrole =>
    exact ⟨_, .opens (htag.head?_ne hseal.head hclose) htag.kind_eq (isBlockTag_of_opens hrole)⟩
  | branch htag _ _ hframes hbranch =>
    unfold openNames
    rw [hframes]
    exact ⟨_, .branch htag.kind_eq hbranch⟩
  | closes htag hrole hopen =>
    obtain ⟨f, outer, hframes, hname⟩ := innermost_of_warnings_closeThrough hopen h
    obtain ⟨hend, hblock⟩ := Token.Ends.of_closes htag.kind_eq hrole
    unfold openNames
    rw [hframes, List.map_cons, hname]
    exact ⟨_, .ends hblock hend⟩
  | stray _ _ _ => exact absurd h (by simp [warn])
  | lines htag hclose hrole =>
    rw [warnings_push] at h
    exact ⟨_, .single (htag.head?_ne hseal.head hclose)
      (.lines htag.kind_eq (name_of_lines hrole) (hlines _ h))⟩

/-! ## A move is a silent step -/

theorem readsTag_of_head?_ne (hkind : tok.kind = .tag)
    (hstack : b.openNames.head? ≠ some ("comment" : Text)) : b.ReadsTag tok := by
  refine ⟨hkind, ?_⟩
  cases hcomment : b.inComment tok with
  | false => rw [Bool.and_false]
  | true =>
    obtain ⟨⟨outer, houter⟩, _⟩ := head?_of_inComment hcomment
    exact absurd (by rw [houter]; rfl) hstack

theorem frames_of_openNames {block : Text} {outer : List Text}
    (h : b.openNames = block :: outer) :
    ∃ f frames, b.frames = f :: frames ∧ f.block.name = block ∧
      frames.map (·.block.name) = outer := by
  unfold openNames at h
  obtain ⟨f, frames, hframes, hname, houter⟩ := List.map_eq_cons_iff.1 h
  exact ⟨f, frames, hframes, hname, houter⟩

theorem add_of_readsTag (htag : b.ReadsTag tok) {role : TagRole} (hrole : tagRole tok.name = role) :
    b.add src tok = b.addTag src tok role := by
  unfold add
  rw [htag.kind_eq, hrole]
  simp only [htag.comment_eq, Bool.false_eq_true, if_false]

/-- The end tag of the innermost block closes it and nothing else. -/
theorem add_of_ends {f : Frame} {frames : List Frame} (hblock : isBlockTag f.block.name = true)
    (hend : tok.Ends f.block.name) (hframes : b.frames = f :: frames) :
    b.add src tok = { b with frames := frames }.push (f.closeWith tok) := by
  have htag : b.ReadsTag tok := by
    refine ⟨hend.kind_eq, ?_⟩
    cases hcomment : b.inComment tok with
    | false => rw [Bool.and_false]
    | true =>
      obtain ⟨⟨outer, houter⟩, hname⟩ := head?_of_inComment hcomment
      unfold openNames at houter
      rw [hframes] at houter
      have hcomment : f.block.name = "comment" := (List.cons.inj houter).1
      have hname' := hend.name_eq
      rw [hcomment] at hname'
      exact absurd hname' hname
  have hrole : tagRole tok.name = .closes f.block.name := by
    rw [hend.name_eq]
    exact tagRole_end hblock
  rw [add_of_readsTag htag hrole]
  show b.closeBlock f.block.name tok = _
  unfold closeBlock
  rw [if_pos (by rw [hframes]; simp), closeThrough_innermost hframes]

/-- **A move is a step without a warning.** -/
theorem add_of_moves (hmove : Moves b.openNames tok stack)
    (hlines : Items (liquidLines tok.markup tok.markupStart) →
      ∀ warnings, (addLines src warnings tok).warnings = warnings) :
    (b.add src tok).warnings = b.warnings ∧ (b.add src tok).openNames = stack := by
  generalize hnames : b.openNames = names at hmove
  have hpush (n : Node) (h : b.add src tok = b.push n) (hstack : stack = names) :
      (b.add src tok).warnings = b.warnings ∧ (b.add src tok).openNames = stack := by
    rw [h, warnings_push, openNames_push, hnames, hstack]
    exact ⟨rfl, rfl⟩
  cases hmove with
  | free hfree =>
    rcases hfree with hkind | ⟨hkind, hline, hname⟩
    · refine hpush (rawNode tok.start tok.stop tok.markup) ?_ rfl
      unfold add
      rw [hkind]
    · have hin : b.inComment tok = true := inComment_of_head? (by rw [hnames]; rfl) hname
      refine hpush (rawNode tok.start tok.stop (Text.slice src tok.start tok.stop)) ?_ rfl
      unfold add
      rw [hkind]
      simp only [hline, hin]
      rfl
  | single hstack hitem =>
    rw [← hnames] at hstack
    cases hitem with
    | text hkind =>
      refine hpush (rawNode tok.start tok.stop tok.markup) ?_ rfl
      unfold add
      rw [hkind]
    | «variable» hkind =>
      refine hpush (.leaf (tok.head .variable)) ?_ rfl
      unfold add
      rw [hkind]
    | inline hkind hname hne =>
      exact hpush (.leaf (tok.head .tag)) (add_of_readsTag (readsTag_of_head?_ne hkind hstack)
        (tagRole_of_inlineTags hname hne)) rfl
    | lines hkind hname hitems =>
      have hrole : tagRole tok.name = .lines := by
        rw [hname]
        decide
      rw [add_of_readsTag (readsTag_of_head?_ne hkind hstack) hrole, addTag, warnings_push,
        openNames_push]
      exact ⟨hlines hitems b.warnings, hnames⟩
  | opens hstack hkind hblock =>
    rw [← hnames] at hstack
    rw [add_of_readsTag (readsTag_of_head?_ne hkind hstack) (tagRole_of_isBlockTag hblock), ← hnames]
    exact ⟨rfl, rfl⟩
  | branch hkind hbranch =>
    obtain ⟨f, frames, hframes, rfl, rfl⟩ := frames_of_openNames hnames
    have hstack : b.openNames.head? ≠ some ("comment" : Text) := by
      rw [hnames]
      intro hcomment
      have hname : f.block.name = "comment" := Option.some.inj hcomment
      rw [hname, not_isBranchOf_comment] at hbranch
      cases hbranch
    rw [add_of_readsTag (readsTag_of_head?_ne hkind hstack) (tagRole_of_isBranchOf hbranch)]
    show (b.branch tok).warnings = b.warnings ∧ (b.branch tok).openNames = _
    unfold branch
    rw [hframes]
    dsimp only
    rw [if_pos hbranch]
    exact ⟨rfl, rfl⟩
  | ends hblock hend =>
    obtain ⟨f, frames, hframes, rfl, rfl⟩ := frames_of_openNames hnames
    rw [add_of_ends hblock hend hframes, warnings_push, openNames_push]
    exact ⟨rfl, rfl⟩

end Step

/-! ## Runs -/

/-- The first step of a silent run is silent. -/
theorem warnings_add_of_run {src : Text} {b : Builder} {tok : Token} {rest : List Token} {stop : Nat}
    (h : (((b.add src tok).addTokens src rest).finish stop).warnings = b.warnings) :
    (b.add src tok).warnings = b.warnings := by
  have hadd := warnings_prefix_add b fun warnings => warnings_prefix_addLines src warnings tok
  have hrun := (warnings_prefix_addTokens src rest (b.add src tok)).trans
    (warnings_prefix_finish _ stop)
  rw [h] at hrun
  exact (hadd.eq_of_length (Nat.le_antisymm hadd.length_le hrun.length_le)).symm

/-- **A run is silent exactly on the tokens that complete the open blocks.** -/
theorem warnings_run_iff (src : Text) (toks : List Token) (b : Builder) (stop : Nat)
    (hseal : Sealed b.openNames toks) :
    ((b.addTokens src toks).finish stop).warnings = b.warnings ↔ Completes b.openNames toks := by
  induction toks using tokens_induction generalizing b stop with
  | nil =>
    rw [addTokens_nil, warnings_finish_iff, completes_nil]
    unfold openNames
    rw [List.map_eq_nil_iff]
  | cons tok rest ihlines ihrest =>
    have hitems (warnings : List Warning) : (addLines src warnings tok).warnings = warnings ↔
        Items (liquidLines tok.markup tok.markupStart) :=
      ihlines { warnings } tok.stop (.of_lines fun line hline => kind_liquidLines hline)
    rw [addTokens_cons, completes_cons]
    constructor
    · intro h
      have hsame := warnings_add_of_run h
      obtain ⟨stack, hmove⟩ := exists_moves hseal (fun warnings => (hitems warnings).1) hsame
      obtain ⟨_, hnames⟩ := @add_of_moves src _ _ _ hmove fun h warnings => (hitems warnings).2 h
      have hseal' := hseal.step hmove
      rw [← hnames] at hseal' hmove
      exact ⟨_, hmove, (ihrest _ stop hseal').1 (h.trans hsame.symm)⟩
    · rintro ⟨stack, hmove, hcompletes⟩
      obtain ⟨hsame, hnames⟩ :=
        @add_of_moves src _ _ _ hmove fun h warnings => (hitems warnings).2 h
      have hseal' := hseal.step hmove
      rw [← hnames] at hseal' hcompletes
      exact ((ihrest _ stop hseal').2 hcompletes).trans hsame

end Builder

end Liquid
end LiquidLint
