import LiquidLint.Liquid.Tree
import LiquidLint.Proofs.TokenPlaces

/-!
# What one token does to the tree

`Builder.addTokens` is a run: `Builder.add` is what it does with one token (`addTokens_cons`), and
`Added` says once what that can be.  A token becomes a node without children, opens a block, opens a
branch of the innermost block, closes a block together with everything open inside it, closes
nothing, or is a `liquid` tag, whose lines are a run of their own.

An invariant of the tree under construction is then a fact about each of these, carried over a run
by `tokens_induction`, which goes through the lines of each tag as well as through the tokens that
follow it.
-/

namespace LiquidLint
namespace Liquid

/-! ## Tag roles -/

theorem closedBlock?_of_tagRole {name : Text} (h : ∀ block, tagRole name ≠ .closes block) :
    closedBlock? name = none := by
  cases hclose : closedBlock? name with
  | none => rfl
  | some block =>
    refine absurd ?_ (h block)
    unfold tagRole
    split
    · rename_i hempty
      rw [List.isEmpty_iff.1 hempty] at hclose
      cases hclose
    · rw [hclose]

theorem closedBlock?_of_closes {name block : Text} (h : tagRole name = .closes block) :
    closedBlock? name = some block := by
  unfold tagRole at h
  split at h
  · cases h
  · split at h
    · rename_i hclose
      rw [hclose, TagRole.closes.inj h]
    · repeat' split at h
      all_goals cases h

theorem name_of_lines {name : Text} (h : tagRole name = .lines) : name = "liquid" := by
  unfold tagRole at h
  split at h
  · cases h
  · split at h
    · cases h
    · split at h
      · cases h
      · split at h
        · cases h
        · split at h
          · assumption
          · split at h <;> cases h

/-! ## What is finished -/

@[simp] theorem Frame.block_push (f : Frame) (n : Node) : (f.push n).block = f.block := by
  unfold Frame.push
  split <;> rfl

/-- `P` holds of what is finished in an open block, and `Q` of the tag of its open branch. -/
structure Frame.Finished (Q : Head → Prop) (P : Node → Prop) (f : Frame) : Prop where
  done : ∀ n ∈ f.done, P n
  branch : ∀ h cs, f.branch = some (h, cs) → Q h ∧ ∀ n ∈ cs, P n

namespace Frame.Finished

variable {Q : Head → Prop} {P : Node → Prop} {f : Frame} {n : Node}

theorem push (h : f.Finished Q P) (hn : P n) : (f.push n).Finished Q P := by
  unfold Frame.push
  cases hopen : f.branch with
  | none =>
    refine ⟨?_, fun _ _ hsome => nomatch hsome⟩
    exact List.forall_mem_append.2 ⟨h.done, List.forall_mem_singleton.2 hn⟩
  | some opened =>
    obtain ⟨hhead, hcs⟩ := h.branch opened.1 opened.2 hopen
    refine ⟨h.done, fun h' cs' hsome => ?_⟩
    obtain ⟨rfl, rfl⟩ := Prod.mk.inj (Option.some.inj hsome)
    exact ⟨hhead, List.forall_mem_append.2 ⟨hcs, List.forall_mem_singleton.2 hn⟩⟩

/-- When the open branch ends it is finished as well. -/
theorem childrenAt (h : f.Finished Q P) {stop : Nat}
    (hbranch : ∀ h cs, Q h → (∀ n ∈ cs, P n) → P (.mk { h with stop := stop } cs)) :
    ∀ n ∈ f.childrenAt stop, P n := by
  unfold Frame.childrenAt
  cases hopen : f.branch with
  | none => exact h.done
  | some opened =>
    obtain ⟨hhead, hcs⟩ := h.branch opened.1 opened.2 hopen
    exact List.forall_mem_append.2
      ⟨h.done, List.forall_mem_singleton.2 (hbranch opened.1 opened.2 hhead hcs)⟩

theorem openBranch (h : f.Finished Q P) {tok : Token} (htok : Q (tok.head .tag))
    (hbranch : ∀ h cs, Q h → (∀ n ∈ cs, P n) → P (.mk { h with stop := tok.start } cs)) :
    (f.openBranch tok).Finished Q P := by
  refine ⟨h.childrenAt hbranch, fun h' cs' hsome => ?_⟩
  obtain ⟨rfl, rfl⟩ := Prod.mk.inj (Option.some.inj hsome)
  exact ⟨htok, fun _ hn => (List.not_mem_nil hn).elim⟩

end Frame.Finished

/-- A node is finished in the innermost open block, or at the top when none is open. -/
theorem Builder.forall_push {P : Node → Prop} {F : Frame → Prop} {b : Builder} {n : Node}
    (hdone : ∀ m ∈ b.done, P m) (hframes : ∀ f ∈ b.frames, F f) (hn : P n)
    (hpush : ∀ f outer, b.frames = f :: outer → F f → F (f.push n)) :
    (∀ m ∈ (b.push n).done, P m) ∧ ∀ f ∈ (b.push n).frames, F f := by
  unfold Builder.push
  cases hopen : b.frames with
  | nil =>
    rw [hopen] at hframes
    exact ⟨List.forall_mem_append.2 ⟨hdone, List.forall_mem_singleton.2 hn⟩, hframes⟩
  | cons f outer =>
    rw [hopen] at hframes
    obtain ⟨hf, houter⟩ := List.forall_mem_cons.1 hframes
    exact ⟨hdone, List.forall_mem_cons.2 ⟨hpush f outer hopen hf, houter⟩⟩

/-! ## One token -/

namespace Builder

/-- The lines of a `liquid` tag, put into a tree of their own that ends with the tag. -/
def addLines (src : Text) (warnings : List Warning) (tok : Token) : Builder :=
  (addTokens src { warnings } (liquidLines tok.markup tok.markupStart)).finish tok.stop

/-- The tree after one more tag, by the role of its name. -/
def addTag (src : Text) (b : Builder) (tok : Token) : TagRole → Builder
  | .nameless => (b.warn .nameless tok.start).push (.leaf (tok.head .tag))
  | .closes block => b.closeBlock block tok
  | .branch => b.branch tok
  | .opens => { b with frames := { block := { tok.head .tag with block := true } } :: b.frames }
  | .lines =>
    { b with warnings := (addLines src b.warnings tok).warnings }.push
      (.mk (tok.head .tag) (addLines src b.warnings tok).done)
  | .inline => b.push (.leaf (tok.head .tag))
  | .unknown => (b.warn (.unknownTag tok.name) tok.start).push (.leaf (tok.head .tag))

/-- The tree after one more token. -/
def add (src : Text) (b : Builder) (tok : Token) : Builder :=
  match tok.kind with
  | .text | .unterminated _ => b.push (rawNode tok.start tok.stop tok.markup)
  | .variable => b.push (.leaf (tok.head .variable))
  | .tag =>
    if tok.inLiquid && b.inComment tok then
      b.push (rawNode tok.start tok.stop (Text.slice src tok.start tok.stop))
    else b.addTag src tok (tagRole tok.name)

@[simp] theorem addTokens_nil (src : Text) (b : Builder) : addTokens src b [] = b := by
  rw [addTokens]

/-- A run adds its tokens one after the other. -/
theorem addTokens_cons (src : Text) (b : Builder) (tok : Token) (rest : List Token) :
    addTokens src b (tok :: rest) = addTokens src (b.add src tok) rest := by
  rw [addTokens]
  unfold add addTag addLines
  cases tok.kind with
  | text | unterminated _ | «variable» => rfl
  | tag =>
    by_cases hcomment : (tok.inLiquid && b.inComment tok) = true
    · simp only [if_pos hcomment]
    · simp only [if_neg hcomment]
      cases tagRole tok.name <;> rfl

/-- **Induction over a run.**  What follows a token is a smaller run, and so are the lines of its
markup. -/
theorem tokens_induction {P : List Token → Prop} (nil : P [])
    (cons : ∀ tok rest, P (liquidLines tok.markup tok.markupStart) → P rest → P (tok :: rest))
    (toks : List Token) : P toks := by
  induction hn : weight toks using Nat.strongRecOn generalizing toks with
  | ind n ih =>
    cases toks with
    | nil => exact nil
    | cons tok rest =>
      have hlines := weight_liquidLines_le tok.markup tok.markupStart
      simp only [weight, List.map_cons, sumOf_cons] at hn hlines
      refine cons tok rest (ih _ ?_ _ rfl) (ih _ ?_ _ rfl)
      all_goals simp only [weight]
      all_goals omega

/-! ## What it can be -/

/-- The token is a tag and not a line inside a comment. -/
structure ReadsTag (b : Builder) (tok : Token) : Prop where
  kind_eq : tok.kind = .tag
  comment_eq : (tok.inLiquid && b.inComment tok) = false

/-- The token is kept as the node without children `n`, and nothing is wrong with it. -/
inductive LeafOf (src : Text) (b : Builder) (tok : Token) : Node → Prop where
  | text (hkind : tok.kind.IsText) : LeafOf src b tok (rawNode tok.start tok.stop tok.markup)
  | «variable» (hkind : tok.kind = .variable) : LeafOf src b tok (.leaf (tok.head .variable))
  /-- A line inside a comment. -/
  | comment (hkind : tok.kind = .tag) (hline : tok.inLiquid = true) (hin : b.inComment tok = true) :
      LeafOf src b tok (rawNode tok.start tok.stop (Text.slice src tok.start tok.stop))
  | inline (htag : b.ReadsTag tok) (hclose : closedBlock? tok.name = none)
      (hrole : tagRole tok.name = .inline) : LeafOf src b tok (.leaf (tok.head .tag))

/-- What the tree can be after one more token. -/
inductive Added (src : Text) (b : Builder) (tok : Token) : Builder → Prop where
  | leaf {n : Node} (hleaf : LeafOf src b tok n) : Added src b tok (b.push n)
  /-- A tag without a name, or with one that does not fit where it stands, is kept with a warning. -/
  | misfit (d : Defect) (htag : b.ReadsTag tok) (hclose : closedBlock? tok.name = none)
      (hd : d = .nameless ∨ d = .unknownTag tok.name) :
      Added src b tok ((b.warn d tok.start).push (.leaf (tok.head .tag)))
  | opens (htag : b.ReadsTag tok) (hclose : closedBlock? tok.name = none)
      (hrole : tagRole tok.name = .opens) :
      Added src b tok
        { b with frames := { block := { tok.head .tag with block := true } } :: b.frames }
  | branch {f : Frame} {outer : List Frame} (htag : b.ReadsTag tok)
      (hclose : closedBlock? tok.name = none) (hrole : tagRole tok.name = .branch)
      (hframes : b.frames = f :: outer) (hbranch : isBranchOf f.block.name tok.name = true) :
      Added src b tok { b with frames := f.openBranch tok :: outer }
  | closes {block : Text} (htag : b.ReadsTag tok) (hrole : tagRole tok.name = .closes block)
      (hopen : ∃ f ∈ b.frames, f.block.name = block) :
      Added src b tok (b.closeThrough block tok)
  /-- An end tag without its block is left out. -/
  | stray {block : Text} (htag : b.ReadsTag tok) (hrole : tagRole tok.name = .closes block)
      (hopen : ∀ f ∈ b.frames, f.block.name ≠ block) :
      Added src b tok (b.warn (.unexpectedEnd tok.name block) tok.start)
  | lines (htag : b.ReadsTag tok) (hclose : closedBlock? tok.name = none)
      (hrole : tagRole tok.name = .lines) :
      Added src b tok
        ({ b with warnings := (addLines src b.warnings tok).warnings }.push
          (.mk (tok.head .tag) (addLines src b.warnings tok).done))

/-- **One token does one of seven things.** -/
theorem added_add (src : Text) (b : Builder) (tok : Token) : Added src b tok (b.add src tok) := by
  unfold add
  split
  · rename_i hkind
    exact .leaf (.text (by rw [hkind]; trivial))
  · rename_i hkind
    exact .leaf (.text (by rw [hkind]; trivial))
  · exact .leaf (.variable ‹_›)
  · rename_i hkind
    split
    · rename_i hcomment
      obtain ⟨hline, hin⟩ := Bool.and_eq_true_iff.1 hcomment
      exact .leaf (.comment hkind hline hin)
    · rename_i hcomment
      have htag : b.ReadsTag tok := ⟨hkind, Bool.eq_false_iff.2 hcomment⟩
      have hclose {role : TagRole} (hrole : tagRole tok.name = role)
          (hne : ∀ block, role ≠ .closes block) : closedBlock? tok.name = none :=
        closedBlock?_of_tagRole (by rwa [hrole])
      unfold addTag
      cases hrole : tagRole tok.name with
      | nameless => exact .misfit _ htag (hclose hrole (by simp)) (.inl rfl)
      | closes block =>
        dsimp only
        unfold closeBlock
        split
        · rename_i hopen
          obtain ⟨f, hf, hname⟩ := List.any_eq_true.1 hopen
          exact .closes htag hrole ⟨f, hf, of_decide_eq_true hname⟩
        · rename_i hopen
          refine .stray htag hrole fun f hf hname => hopen ?_
          exact List.any_eq_true.2 ⟨f, hf, decide_eq_true hname⟩
      | branch =>
        dsimp only
        unfold branch
        split
        · rename_i f outer hframes
          split
          · exact .branch htag (hclose hrole (by simp)) hrole hframes ‹_›
          · exact .misfit _ htag (hclose hrole (by simp)) (.inr rfl)
        · exact .misfit _ htag (hclose hrole (by simp)) (.inr rfl)
      | opens => exact .opens htag (hclose hrole (by simp)) hrole
      | lines => exact .lines htag (hclose hrole (by simp)) hrole
      | inline => exact .leaf (.inline htag (hclose hrole (by simp)) hrole)
      | unknown => exact .misfit _ htag (hclose hrole (by simp)) (.inr rfl)

/-! ## Open blocks that end -/

@[simp] theorem warnings_push (b : Builder) (n : Node) : (b.push n).warnings = b.warnings := by
  unfold push
  split <;> rfl

/-- A node goes into the innermost block and leaves the tags of the open blocks alone. -/
theorem blocks_push (b : Builder) (n : Node) :
    (b.push n).frames.map (·.block) = b.frames.map (·.block) := by
  unfold push
  split
  · rfl
  · rename_i f outer hframes
    simp [hframes]

theorem cutInnermost_cons {b : Builder} {f : Frame} {outer : List Frame}
    (hframes : b.frames = f :: outer) (stop : Nat) :
    b.cutInnermost stop =
      ({ b with frames := outer }.warn (.neverClosed f.block.name) f.block.start).push
        (f.cutShort stop) := by
  unfold cutInnermost
  rw [hframes]

theorem blocks_cutInnermost {b : Builder} {f : Frame} {outer : List Frame}
    (hframes : b.frames = f :: outer) (stop : Nat) :
    (b.cutInnermost stop).frames.map (·.block) = outer.map (·.block) := by
  rw [cutInnermost_cons hframes, blocks_push]
  rfl

/-- Ending every open block is ending the innermost one until there is none. -/
theorem finish_induction {P : Builder → Prop} (stop : Nat)
    (cut : ∀ (b : Builder) (f : Frame) (outer : List Frame), b.frames = f :: outer → P b →
      P (b.cutInnermost stop)) (b : Builder) (h : P b) :
    P (b.finish stop) ∧ (b.finish stop).frames = [] := by
  fun_induction finish b stop with
  | case1 b hempty => exact ⟨h, List.isEmpty_iff.1 hempty⟩
  | case2 b hne ih =>
    refine ih ?_
    obtain ⟨f, outer, hframes⟩ := List.exists_cons_of_ne_nil (fun hnil => hne (List.isEmpty_iff.2 hnil))
    exact cut b f outer hframes h

/-- The innermost block is closed alone. -/
theorem closeThrough_innermost {b : Builder} {f : Frame} {outer : List Frame}
    (hframes : b.frames = f :: outer) (tok : Token) :
    b.closeThrough f.block.name tok = { b with frames := outer }.push (f.closeWith tok) := by
  rw [closeThrough]
  split
  · rename_i hnil
    rw [hframes] at hnil
    cases hnil
  · rename_i f' outer' hframes'
    obtain ⟨rfl, rfl⟩ := List.cons.inj (hframes.symm.trans hframes')
    rw [if_pos rfl]

/-- Closing a block is ending the open blocks inside it, and then the block. -/
theorem closeThrough_induction {P Q : Builder → Prop} {block : Text} {tok : Token}
    (cut : ∀ (b : Builder) (f : Frame) (outer : List Frame), b.frames = f :: outer → P b →
      P (b.cutInnermost tok.start))
    (close : ∀ (b : Builder) (f : Frame) (outer : List Frame), b.frames = f :: outer →
      f.block.name = block → P b → Q ({ b with frames := outer }.push (f.closeWith tok)))
    (b : Builder) (hopen : ∃ f ∈ b.frames, f.block.name = block) (h : P b) :
    Q (b.closeThrough block tok) := by
  fun_induction closeThrough b block tok with
  | case1 b hframes =>
    obtain ⟨f, hf, _⟩ := hopen
    rw [hframes] at hf
    cases hf
  | case2 b f outer hframes hname => exact close b f outer hframes hname h
  | case3 b f outer hframes hname ih =>
    refine ih ?_ (cut b f outer hframes h)
    -- the block to close is not the innermost one, so it is still open
    obtain ⟨g, hg, hgname⟩ := hopen
    rw [hframes] at hg
    rcases List.mem_cons.1 hg with rfl | hg
    · exact absurd hgname hname
    · have hblock : g.block ∈ (b.cutInnermost tok.start).frames.map (·.block) := by
        rw [blocks_cutInnermost hframes]
        exact List.mem_map_of_mem hg
      obtain ⟨g', hg', hsame⟩ := List.mem_map.1 hblock
      exact ⟨g', hg', by rw [hsame]; exact hgname⟩

end Builder
end Liquid
end LiquidLint
