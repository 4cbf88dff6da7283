import LiquidLint.Proofs.InlineTags
import LiquidLint.Proofs.TreeOrder

/-!
# What comments hold

A comment is read as text up to its end tag, and a line in a comment is not looked at, so that all a
comment holds is text (`quiet_root`).  In particular comments do not nest: in document order each
of them starts where the one before it has ended, or later (`comments_apart`).

As in `InlineTags`, every finished node has the property while the tree is built.  A node that goes into
an open comment has to be text; the token it is made of is free there (`FreeUntilEnd`), and a block that
ends goes into the block around it, which is no comment (`Builder.Quiet.outside`).
-/

namespace LiquidLint
namespace Liquid

/-! ## Finished nodes -/

/-- The node is a comment: a `comment` block or a `#` tag. -/
def Head.IsComment (h : Head) : Prop :=
  h.kind = .tag ∧ (h.name = ("comment" : Text) ∨ h.name = ("#" : Text))

/-- The node is text. -/
def Node.IsRaw (n : Node) : Prop := n.head.kind = .raw ∧ n.children = []

/-- A comment holds text only. -/
def Node.KeepsText (n : Node) : Prop := n.head.IsComment → ∀ c ∈ n.children, c.IsRaw

/-- The comments hold text only, everywhere in a tree. -/
def Node.Quiet (n : Node) : Prop := n.Everywhere Node.KeepsText

theorem quiet_mk {h : Head} {cs : List Node} (hh : h.IsComment → ∀ c ∈ cs, c.IsRaw)
    (hcs : ∀ c ∈ cs, c.Quiet) : (Node.mk h cs).Quiet := .mk hh hcs

theorem quiet_leaf (h : Head) : (Node.leaf h).Quiet :=
  quiet_mk (fun _ _ hc => (List.not_mem_nil hc).elim) fun _ hc => (List.not_mem_nil hc).elim

/-- A comment opens a block, or stands alone. -/
theorem Head.IsComment.role {h : Head} (hh : h.IsComment) :
    h.name = ("comment" : Text) ∧ tagRole h.name = .opens ∨ tagRole h.name = .inline := by
  have hroles : tagRole "comment" = .opens ∧ tagRole "#" = .inline := by decide
  rcases hh.2 with hname | hname
  · exact .inl ⟨hname, by rw [hname]; exact hroles.1⟩
  · exact .inr (by rw [hname]; exact hroles.2)

/-- A branch is no comment. -/
theorem not_isComment_of_branch {h : Head} (hrole : tagRole h.name = .branch) : ¬ h.IsComment := by
  intro hh
  rcases hh.role with ⟨_, hopens⟩ | hinline
  · exact nomatch hrole.symm.trans hopens
  · exact nomatch hrole.symm.trans hinline

/-! ## Open blocks -/

/-- The comments that are finished in an open block hold text only, and so does the block if it is
a comment. -/
structure Frame.Quiet (f : Frame) : Prop where
  opens : tagRole f.block.name = .opens
  done : ∀ n ∈ f.done, n.Quiet
  comment : f.block.name = ("comment" : Text) → f.branch = none ∧ ∀ n ∈ f.done, n.IsRaw
  branch : ∀ h cs, f.branch = some (h, cs) → tagRole h.name = .branch ∧ ∀ n ∈ cs, n.Quiet

namespace Frame.Quiet

variable {f : Frame} {n : Node} {tok : Token}

theorem finished (h : f.Quiet) : f.Finished (fun h => tagRole h.name = .branch) Node.Quiet :=
  ⟨h.done, h.branch⟩

theorem branch_quiet (stop : Nat) (h : Head) (cs : List Node) (hrole : tagRole h.name = .branch)
    (hcs : ∀ n ∈ cs, n.Quiet) : (Node.mk { h with stop := stop } cs).Quiet :=
  quiet_mk (fun hcomment => absurd hcomment (not_isComment_of_branch hrole)) hcs

theorem push (h : f.Quiet) (hn : n.Quiet) (hraw : f.block.name = ("comment" : Text) → n.IsRaw) :
    (f.push n).Quiet := by
  obtain ⟨hdone, hbranch⟩ := h.finished.push hn
  refine ⟨by rw [Frame.block_push]; exact h.opens, hdone, fun hname => ?_, hbranch⟩
  rw [Frame.block_push] at hname
  obtain ⟨hopen, hall⟩ := h.comment hname
  unfold Frame.push
  rw [hopen]
  exact ⟨rfl, List.forall_mem_append.2 ⟨hall, List.forall_mem_singleton.2 (hraw hname)⟩⟩

theorem childrenAt (h : f.Quiet) (stop : Nat) : ∀ n ∈ f.childrenAt stop, n.Quiet :=
  h.finished.childrenAt (branch_quiet stop)

/-- A comment has no branches. -/
theorem raw_childrenAt (h : f.Quiet) {block : Head} (hname : block.name = f.block.name)
    (hcomment : block.IsComment) (stop : Nat) : ∀ n ∈ f.childrenAt stop, n.IsRaw := by
  rcases hcomment.role with ⟨hblock, _⟩ | hinline
  · obtain ⟨hopen, hraw⟩ := h.comment (hname.symm.trans hblock)
    unfold Frame.childrenAt
    rwa [hopen]
  · rw [hname, h.opens] at hinline
    cases hinline

theorem cutShort (h : f.Quiet) (stop : Nat) : (f.cutShort stop).Quiet :=
  quiet_mk (fun hcomment => h.raw_childrenAt rfl hcomment stop) (h.childrenAt stop)

theorem closeWith (h : f.Quiet) (tok : Token) : (f.closeWith tok).Quiet :=
  quiet_mk (fun hcomment => h.raw_childrenAt rfl hcomment tok.start) (h.childrenAt tok.start)

theorem openBranch (h : f.Quiet) (hbranch : isBranchOf f.block.name tok.name = true) :
    (f.openBranch tok).Quiet := by
  obtain ⟨hdone, hcs⟩ := h.finished.openBranch (tagRole_of_isBranchOf hbranch) (branch_quiet tok.start)
  refine ⟨h.opens, hdone, fun hname => ?_, hcs⟩
  have hblock : f.block.name = ("comment" : Text) := hname
  rw [hblock, not_isBranchOf_comment] at hbranch
  cases hbranch

end Frame.Quiet

/-- Behind a token, an open comment goes on with free tokens. -/
theorem freeUntilEnd_namesAfter {names : List Text} {tok : Token} {rest : List Token}
    (houtside : ("comment" : Text) ∉ names.tail) (hfree : CommentsFree (tok :: rest))
    (hinside : names.head? = some ("comment" : Text) → FreeUntilEnd (tok :: rest))
    (h : (Builder.namesAfter names tok).head? = some ("comment" : Text)) : FreeUntilEnd rest := by
  by_cases hstack : names.head? = some ("comment" : Text)
  · rcases hinside hstack with hend | ⟨_, hrest⟩
    · -- the comment ends, and there is none around it
      obtain ⟨outer, rfl⟩ := List.head?_eq_some_iff.1 hstack
      have hrole : tagRole tok.name = .closes "comment" := by
        rw [hend.name_eq]
        exact tagRole_end (by decide)
      have hafter : Builder.namesAfter (("comment" : Text) :: outer) tok = outer := by
        have hname : (tok.name ≠ ("endcomment" : Text)) = False := by
          rw [hend.name_eq]
          exact eq_false (not_not_intro rfl)
        unfold Builder.namesAfter
        rw [hend.kind_eq]
        simp [hname, hrole]
      rw [hafter] at h
      exact absurd (List.mem_of_mem_head? h) houtside
    · exact hrest
  · have hnone : ("comment" : Text) ∉ names := by
      cases names with
      | nil => exact List.not_mem_nil
      | cons name outer =>
        intro hmem
        rcases List.mem_cons.1 hmem with rfl | hmem
        · exact hstack rfl
        · exact houtside hmem
    unfold Builder.namesAfter at h
    cases hkind : tok.kind with
    | text | unterminated _ | «variable» =>
      rw [hkind] at h
      exact absurd h hstack
    | tag =>
      rw [hkind] at h
      dsimp only at h
      split at h
      · exact absurd h hstack
      · cases hrole : tagRole tok.name with
        | opens =>
          rw [hrole] at h
          exact hfree.1 hkind (Option.some.inj h)
        | closes block =>
          rw [hrole] at h
          dsimp only at h
          split at h
          · have hmem := List.mem_of_mem_tail (List.mem_of_mem_head? h)
            exact absurd ((List.dropWhile_sublist _).subset hmem) hnone
          · exact absurd h hstack
        | nameless | branch | lines | inline | unknown =>
          rw [hrole] at h
          exact absurd h hstack

/-- In the tree under construction, comments hold text only, and no block is open in a comment. -/
structure Builder.Quiet (b : Builder) : Prop where
  done : ∀ n ∈ b.done, n.Quiet
  frames : ∀ f ∈ b.frames, f.Quiet
  outside : ("comment" : Text) ∉ b.openNames.tail

namespace Builder.Quiet

theorem empty (ws : List Warning) : ({ warnings := ws } : Builder).Quiet :=
  ⟨fun _ hn => (List.not_mem_nil hn).elim, fun _ hf => (List.not_mem_nil hf).elim,
    fun hc => (List.not_mem_nil hc).elim⟩

variable {b : Builder} {f : Frame} {outer : List Frame} {n : Node} {tok : Token} {src : Text}

theorem push (h : b.Quiet) (hn : n.Quiet)
    (hraw : b.openNames.head? = some ("comment" : Text) → n.IsRaw) : (b.push n).Quiet := by
  have houtside := h.outside
  rw [← openNames_push b n] at houtside
  obtain ⟨hdone, hframes⟩ := forall_push h.done h.frames hn fun f outer hframes hf => by
    refine hf.push hn fun hname => hraw ?_
    rw [openNames, hframes, List.map_cons, hname]
    rfl
  exact ⟨hdone, hframes, houtside⟩

/-- What goes into the block around the innermost one goes into no comment. -/
theorem push_outer (h : b.Quiet) (hframes : b.frames = f :: outer) (ws : List Warning) (hn : n.Quiet) :
    (({ done := b.done, frames := outer, warnings := ws } : Builder).push n).Quiet := by
  have hnames : outer.map (·.block.name) = b.openNames.tail := by
    rw [openNames, hframes]
    rfl
  have hout := h.outside
  rw [← hnames] at hout
  have hquiet : ({ done := b.done, frames := outer, warnings := ws } : Builder).Quiet := by
    refine ⟨h.done, fun f' hf' => h.frames f' ?_, fun hmem => hout (List.mem_of_mem_tail hmem)⟩
    rw [hframes]
    exact List.mem_cons_of_mem _ hf'
  exact hquiet.push hn fun hhead => absurd (List.mem_of_mem_head? hhead) hout

theorem cutInnermost (h : b.Quiet) (stop : Nat) : (b.cutInnermost stop).Quiet := by
  cases hframes : b.frames with
  | nil =>
    unfold Builder.cutInnermost
    rwa [hframes]
  | cons f outer =>
    have hf := h.frames f (by rw [hframes]; exact List.mem_cons_self ..)
    rw [cutInnermost_cons hframes]
    exact h.push_outer hframes _ (hf.cutShort stop)

theorem finish (h : b.Quiet) (stop : Nat) : ∀ n ∈ (b.finish stop).done, n.Quiet :=
  (finish_induction stop (fun _ _ _ _ h => h.cutInnermost stop) b h).1.done

theorem closeThrough {block : Text} (h : b.Quiet) (hopen : ∃ f ∈ b.frames, f.block.name = block) :
    (b.closeThrough block tok).Quiet := by
  refine closeThrough_induction (P := Builder.Quiet) (Q := Builder.Quiet)
    (fun _ _ _ _ h => h.cutInnermost _) (fun b f outer hframes _ h => ?_) b hopen h
  have hf := h.frames f (by rw [hframes]; exact List.mem_cons_self ..)
  exact h.push_outer hframes _ (hf.closeWith tok)

/-- **One token** puts text into an open comment, or ends it. -/
theorem add (h : b.Quiet)
    (hhead : b.openNames.head? = some ("comment" : Text) → tok.Free ∨ tok.Ends "comment")
    (hlines : ∀ ws, ∀ n ∈ (addLines src ws tok).done, n.Quiet) : (b.add src tok).Quiet := by
  have hadded := added_add src b tok
  generalize b.add src tok = after at hadded
  cases hadded with
  | leaf hleaf =>
    cases hleaf with
    | text _ => exact h.push (quiet_leaf _) fun _ => ⟨rfl, rfl⟩
    | comment _ _ _ => exact h.push (quiet_leaf _) fun _ => ⟨rfl, rfl⟩
    | «variable» hkind =>
      refine h.push (quiet_leaf _) fun hstack => ?_
      rcases hhead hstack with (hkind' | ⟨hkind', _⟩) | ⟨hkind', _⟩ <;>
        rw [hkind] at hkind' <;> cases hkind'
    | inline htag hclose _ =>
      exact h.push (quiet_leaf _) fun hstack => absurd hstack (htag.head?_ne hhead hclose)
  | misfit d htag hclose _ =>
    have hwarn : (b.warn d tok.start).Quiet := ⟨h.done, h.frames, h.outside⟩
    exact hwarn.push (quiet_leaf _) fun hstack => absurd hstack (htag.head?_ne hhead hclose)
  | opens htag hclose hrole =>
    have hne := htag.head?_ne hhead hclose
    refine ⟨h.done, fun f' hf' => ?_, fun hmem => ?_⟩
    · rcases List.mem_cons.1 hf' with rfl | hf'
      · exact ⟨hrole, fun _ hn => (List.not_mem_nil hn).elim, fun _ => ⟨rfl, fun _ hn => (List.not_mem_nil hn).elim⟩,
          fun _ _ hsome => by cases hsome⟩
      · exact h.frames f' hf'
    · have hmem : ("comment" : Text) ∈ b.openNames := hmem
      have houtside := h.outside
      generalize b.openNames = names at hne hmem houtside
      cases hmem with
      | head => exact hne rfl
      | tail _ hmem => exact houtside hmem
  | @branch f outer _ _ _ hframes hbranch =>
    have hall := h.frames
    have houtside := h.outside
    rw [openNames, hframes] at houtside
    rw [hframes] at hall
    refine ⟨h.done, fun f' hf' => ?_, houtside⟩
    rcases List.mem_cons.1 hf' with rfl | hf'
    · exact (hall f (List.mem_cons_self ..)).openBranch hbranch
    · exact hall f' (List.mem_cons_of_mem _ hf')
  | closes _ _ hopen => exact h.closeThrough hopen
  | stray _ _ _ => exact ⟨h.done, h.frames, h.outside⟩
  | lines htag hclose hrole =>
    have hwarn : ({ b with warnings := (addLines src b.warnings tok).warnings } : Builder).Quiet :=
      ⟨h.done, h.frames, h.outside⟩
    refine hwarn.push (quiet_mk (fun hcomment => ?_) (hlines b.warnings)) fun hstack =>
      absurd hstack (htag.head?_ne hhead hclose)
    rcases hcomment.role with ⟨_, hopens⟩ | hinline
    · cases hrole.symm.trans hopens
    · cases hrole.symm.trans hinline

theorem addTokens {toks : List Token} : ∀ {b : Builder}, b.Quiet → CommentsFree toks →
    (b.openNames.head? = some ("comment" : Text) → FreeUntilEnd toks) → (b.addTokens src toks).Quiet := by
  induction toks using tokens_induction with
  | nil =>
    intro b h _ _
    rwa [addTokens_nil]
  | cons tok rest ihlines ih =>
    intro b h hfree hinside
    rw [addTokens_cons]
    refine ih (h.add (fun hstack => ?_) fun ws => ?_) hfree.2 ?_
    · exact (hinside hstack).elim .inr fun hfree => .inl hfree.1
    · have hlines : ∀ line ∈ liquidLines tok.markup tok.markupStart, line.kind = .tag ∧ line.inLiquid = true :=
        fun line hline => kind_liquidLines hline
      exact (ihlines (empty ws) (commentsFree_of_lines hlines) nofun).finish tok.stop
    · rw [openNames_add]
      exact freeUntilEnd_namesAfter h.outside hfree hinside

end Builder.Quiet

/-- **Comments hold text only**, everywhere in a template. -/
theorem quiet_root (src : Text) : (parse src).root.Quiet := by
  have hempty := Builder.Quiet.empty (unterminatedWarnings (tokens src))
  have hfree := (reads_tokensFrom 0 src).commentsFree
  unfold parse
  exact quiet_mk (fun hcomment => nomatch hcomment.1)
    ((hempty.addTokens hfree nofun).finish src.length)

/-! ## Comments one after the other -/

/-- The second node starts where the first one has ended, or later, if both are comments. -/
def Head.CommentsApart (h g : Head) : Prop := h.IsComment → g.IsComment → h.stop ≤ g.start

mutual

/-- The nodes of a tree stand inside its root. -/
theorem Node.inside_of_walk {size : Nat} : (n : Node) → n.Everywhere (Node.WellPlaced size) →
    ∀ h ∈ n.walk (fun _ => true), n.head.start ≤ h.start ∧ h.stop ≤ n.head.stop
  | .mk h cs, hn, h', hh' => by
    cases hn with
    | mk here below =>
      rw [Node.walk, if_pos rfl] at hh'
      rcases List.mem_cons.1 hh' with rfl | hh'
      · exact ⟨Nat.le_refl _, Nat.le_refl _⟩
      · obtain ⟨c, hc, hstart, hstop⟩ := Node.inside_of_walkAll cs below h' hh'
        obtain ⟨hlo, hhi⟩ := here.child_inside c hc
        exact ⟨Nat.le_trans hlo hstart, Nat.le_trans hstop hhi⟩

theorem Node.inside_of_walkAll {size : Nat} : (ns : List Node) →
    (∀ n ∈ ns, n.Everywhere (Node.WellPlaced size)) → ∀ h ∈ Node.walkAll (fun _ => true) ns,
    ∃ n ∈ ns, n.head.start ≤ h.start ∧ h.stop ≤ n.head.stop
  | [], _, h, hh => by cases hh
  | n :: rest, hns, h, hh => by
    rw [Node.walkAll] at hh
    rcases List.mem_append.1 hh with hh | hh
    · exact ⟨n, List.mem_cons_self .., Node.inside_of_walk n (hns n (List.mem_cons_self ..)) h hh⟩
    · obtain ⟨m, hm, hplace⟩ :=
        Node.inside_of_walkAll rest (fun m hm => hns m (List.mem_cons_of_mem _ hm)) h hh
      exact ⟨m, List.mem_cons_of_mem _ hm, hplace⟩

end

/-- Below text there is nothing. -/
theorem kind_of_walkAll_raw {ns : List Node} (hraw : ∀ n ∈ ns, n.IsRaw) :
    ∀ h ∈ Node.walkAll (fun _ => true) ns, h.kind = .raw := by
  induction ns with
  | nil => exact fun _ hh => nomatch hh
  | cons n rest ih =>
    intro h hh
    rw [Node.walkAll] at hh
    rcases List.mem_append.1 hh with hh | hh
    · obtain ⟨hkind, hnone⟩ := hraw n (List.mem_cons_self ..)
      cases n with
      | mk head cs =>
        obtain rfl : cs = [] := hnone
        obtain rfl := List.mem_singleton.1 hh
        exact hkind
    · exact ih (fun m hm => hraw m (List.mem_cons_of_mem _ hm)) h hh

mutual

theorem Node.apart_of_walk {size : Nat} : (n : Node) → n.Everywhere (Node.WellPlaced size) → n.Quiet →
    (n.walk fun _ => true).Pairwise Head.CommentsApart
  | .mk h cs, hplaced, hquiet => by
    cases hplaced with
    | mk here below =>
      cases hquiet with
      | mk keeps quiet =>
        rw [Node.walk, if_pos rfl]
        refine List.pairwise_cons.2 ⟨fun g hg hcomment hcomment' => ?_,
          Node.apart_of_walkAll cs below quiet here.siblings_apart⟩
        -- below a comment there is no other one
        have hraw := kind_of_walkAll_raw (keeps hcomment) g hg
        exact nomatch hraw.symm.trans hcomment'.1

theorem Node.apart_of_walkAll {size : Nat} : (ns : List Node) →
    (∀ n ∈ ns, n.Everywhere (Node.WellPlaced size)) → (∀ n ∈ ns, n.Quiet) →
    (ns.Pairwise fun c d => c.head.stop ≤ d.head.start) →
    (Node.walkAll (fun _ => true) ns).Pairwise Head.CommentsApart
  | [], _, _, _ => .nil
  | n :: rest, hplaced, hquiet, hapart => by
    obtain ⟨hfirst, hrest⟩ := List.pairwise_cons.1 hapart
    have hbelow : ∀ m ∈ rest, m.Everywhere (Node.WellPlaced size) :=
      fun m hm => hplaced m (List.mem_cons_of_mem _ hm)
    rw [Node.walkAll]
    refine List.pairwise_append.2 ⟨Node.apart_of_walk n (hplaced n (List.mem_cons_self ..))
      (hquiet n (List.mem_cons_self ..)), Node.apart_of_walkAll rest hbelow
      (fun m hm => hquiet m (List.mem_cons_of_mem _ hm)) hrest, fun h hh g hg _ _ => ?_⟩
    obtain ⟨_, hstop⟩ := Node.inside_of_walk n (hplaced n (List.mem_cons_self ..)) h hh
    obtain ⟨m, hm, hstart, _⟩ := Node.inside_of_walkAll rest hbelow g hg
    exact Nat.le_trans hstop (Nat.le_trans (hfirst m hm) hstart)

end

/-- **In document order, each comment starts where the one before it has ended, or later.** -/
theorem comments_apart (src : Text) :
    ((parse src).root.walk fun _ => true).Pairwise Head.CommentsApart :=
  Node.apart_of_walk _ (wellPlaced_root src) (quiet_root src)

end Liquid
end LiquidLint
