import LiquidLint.Proofs.TreeSteps

/-!
# Sums over a tree under construction

Give each head of a tree a number.  The sum over the tree under construction, open blocks included,
changes with each step by what the step adds: a node that is pushed adds its own sum, and ending an
open block adds nothing, because it only moves nodes that were counted before (`total_push`,
`total_cutInnermost`).  Counting the heads, or the pieces of source, with some property is such a
sum, so nothing is lost or doubled on the way from the tokens to the tree.

`descend` says below which nodes the sum goes on.  The number of a head may not depend on the end of
its node as long as the node is open (`Steady`).
-/

namespace LiquidLint
namespace Liquid

/-- The head of a tag whose body has not ended: an open block, or its open branch. -/
structure Head.Pending (h : Head) : Prop where
  kind_eq : h.kind = .tag
  closeStart_eq : h.closeStart = none
  closed_eq : h.closed = false
  name_ne : h.name ≠ "liquid"

/-- The head of a node that ends at `stop` without an end tag. -/
def Head.cutAt (h : Head) (stop : Nat) : Head := { h with stop := stop }

/-- The head of a node that the end tag `tok` closes. -/
def Head.closedBy (h : Head) (tok : Token) : Head :=
  { h with stop := tok.stop, closeStart := some tok.start, closed := true }

/-- The open tags of a block are pending. -/
structure Frame.Pending (f : Frame) : Prop where
  block : f.block.Pending
  branch : ∀ h cs, f.branch = some (h, cs) → h.Pending

/-- Every open tag is pending. -/
def Builder.Pending (b : Builder) : Prop := ∀ f ∈ b.frames, f.Pending

/-- The sum goes on below open tags and below closed ones, and does not depend on where an open tag
ends; an end tag adds `gain`. -/
structure Steady (descend : Head → Bool) (g : Head → Nat) (gain : Token → Head → Nat) : Prop where
  descend_cutAt : ∀ (h : Head) (stop : Nat), h.Pending → descend (h.cutAt stop) = true
  descend_closedBy : ∀ (h : Head) (tok : Token), h.Pending → descend (h.closedBy tok) = true
  cutAt_eq : ∀ (h : Head) (stop : Nat), h.Pending → g (h.cutAt stop) = g h
  closedBy_eq : ∀ (h : Head) (tok : Token), h.Pending → g (h.closedBy tok) = g h + gain tok h

section Sums

variable (descend : Head → Bool) (g : Head → Nat)

/-- The sum over a node and what lies below it. -/
def Node.total (n : Node) : Nat := sumOf ((n.walk descend).map g)

/-- The sum over several nodes. -/
def totalAll (ns : List Node) : Nat := sumOf ((Node.walkAll descend ns).map g)

/-- The sum over an open block. -/
def Frame.total (f : Frame) : Nat :=
  g f.block + totalAll descend g f.done +
    match f.branch with
    | none => 0
    | some (h, cs) => g h + totalAll descend g cs

/-- The sum over the tree under construction. -/
def Builder.total (b : Builder) : Nat :=
  totalAll descend g b.done + sumOf (b.frames.map (Frame.total descend g))

end Sums

section Steps

variable {descend : Head → Bool} {g : Head → Nat} {gain : Token → Head → Nat}
variable {b : Builder} {f : Frame} {outer : List Frame}

@[simp] theorem totalAll_nil : totalAll descend g [] = 0 := rfl

@[simp] theorem totalAll_cons (n : Node) (ns : List Node) :
    totalAll descend g (n :: ns) = n.total descend g + totalAll descend g ns := by
  simp [totalAll, Node.total, Node.walkAll]

@[simp] theorem totalAll_append (ns ms : List Node) :
    totalAll descend g (ns ++ ms) = totalAll descend g ns + totalAll descend g ms := by
  induction ns with
  | nil => simp
  | cons n rest ih =>
    rw [List.cons_append, totalAll_cons, ih, totalAll_cons]
    omega

theorem total_mk {h : Head} (hdescend : descend h = true) (cs : List Node) :
    (Node.mk h cs).total descend g = g h + totalAll descend g cs := by
  simp [Node.total, Node.walk, totalAll, hdescend]

theorem total_mk_of_not {h : Head} (hdescend : descend h = false) (cs : List Node) :
    (Node.mk h cs).total descend g = g h := by
  simp [Node.total, Node.walk, hdescend]

@[simp] theorem total_leaf (h : Head) : (Node.leaf h).total descend g = g h := by
  cases hdescend : descend h with
  | true => exact total_mk hdescend []
  | false => exact total_mk_of_not hdescend []

theorem Frame.total_push (f : Frame) (n : Node) :
    (f.push n).total descend g = f.total descend g + n.total descend g := by
  unfold Frame.push Frame.total
  cases f.branch with
  | none =>
    simp only [totalAll_append, totalAll_cons, totalAll_nil]
    omega
  | some opened =>
    simp only [totalAll_append, totalAll_cons, totalAll_nil]
    omega

/-- **A node that is pushed adds its own sum.** -/
theorem Builder.total_push (b : Builder) (n : Node) :
    (b.push n).total descend g = b.total descend g + n.total descend g := by
  unfold Builder.push Builder.total
  cases hframes : b.frames with
  | nil =>
    simp only [totalAll_append, totalAll_cons, totalAll_nil, List.map_nil, sumOf_nil]
    omega
  | cons f outer =>
    simp only [List.map_cons, sumOf_cons, Frame.total_push]
    omega

theorem Frame.totalAll_childrenAt (hsteady : Steady descend g gain) (hf : f.Pending) (stop : Nat) :
    g f.block + totalAll descend g (f.childrenAt stop) = f.total descend g := by
  unfold Frame.childrenAt Frame.total
  cases hopen : f.branch with
  | none => rfl
  | some opened =>
    obtain ⟨h, cs⟩ := opened
    have hh := hf.branch h cs hopen
    have hnode : (Node.mk (h.cutAt stop) cs).total descend g = g h + totalAll descend g cs := by
      rw [total_mk (hsteady.descend_cutAt h stop hh), hsteady.cutAt_eq h stop hh]
    unfold Head.cutAt at hnode
    simp only [totalAll_append, totalAll_cons, totalAll_nil, hnode]
    omega

/-- An open block that is cut short keeps its sum. -/
theorem Frame.total_cutShort (hsteady : Steady descend g gain) (hf : f.Pending) (stop : Nat) :
    (f.cutShort stop).total descend g = f.total descend g := by
  have hnode : (f.cutShort stop).total descend g =
      g (f.block.cutAt stop) + totalAll descend g (f.childrenAt stop) :=
    total_mk (hsteady.descend_cutAt f.block stop hf.block) _
  rw [hnode, hsteady.cutAt_eq f.block stop hf.block, Frame.totalAll_childrenAt hsteady hf]

/-- An open block that is closed gains what its end tag adds. -/
theorem Frame.total_closeWith (hsteady : Steady descend g gain) (hf : f.Pending) (tok : Token) :
    (f.closeWith tok).total descend g = f.total descend g + gain tok f.block := by
  have hnode : (f.closeWith tok).total descend g =
      g (f.block.closedBy tok) + totalAll descend g (f.childrenAt tok.start) :=
    total_mk (hsteady.descend_closedBy f.block tok hf.block) _
  have hchildren := Frame.totalAll_childrenAt hsteady hf tok.start
  rw [hnode, hsteady.closedBy_eq f.block tok hf.block]
  omega

theorem Frame.total_openBranch (hsteady : Steady descend g gain) (hf : f.Pending) (tok : Token) :
    (f.openBranch tok).total descend g = f.total descend g + g (tok.head .tag) := by
  have hchildren := Frame.totalAll_childrenAt hsteady hf tok.start
  unfold Frame.openBranch
  simp only [Frame.total, totalAll_nil] at hchildren ⊢
  omega

theorem Builder.total_cons (hframes : b.frames = f :: outer) :
    b.total descend g =
      ({ b with frames := outer } : Builder).total descend g + f.total descend g := by
  unfold Builder.total
  rw [hframes]
  simp only [List.map_cons, sumOf_cons]
  omega

/-- **Ending the innermost block changes no sum.** -/
theorem Builder.total_cutInnermost (hsteady : Steady descend g gain) (hb : b.Pending) (stop : Nat) :
    (b.cutInnermost stop).total descend g = b.total descend g := by
  cases hframes : b.frames with
  | nil =>
    unfold Builder.cutInnermost
    rw [hframes]
  | cons f outer =>
    have hf := hb f (by rw [hframes]; exact List.mem_cons_self ..)
    rw [cutInnermost_cons hframes, Builder.total_push, Frame.total_cutShort hsteady hf,
      Builder.total_cons hframes]
    rfl

end Steps

/-! ## Open tags stay pending -/

/-- A tag that opens a block or a branch is no `liquid` tag. -/
theorem pending_head {tok : Token} (h : tagRole tok.name ≠ .lines) :
    ({ tok.head .tag with block := true } : Head).Pending ∧ (tok.head .tag).Pending := by
  have hname : tok.name ≠ "liquid" := by
    intro hname
    rw [hname] at h
    exact h (by decide)
  exact ⟨⟨rfl, rfl, rfl, hname⟩, ⟨rfl, rfl, rfl, hname⟩⟩

theorem Frame.Pending.push {f : Frame} (h : f.Pending) (n : Node) : (f.push n).Pending := by
  obtain ⟨hblock, hbranch⟩ := h
  unfold Frame.push
  cases hopen : f.branch with
  | none => exact ⟨hblock, fun h' cs' hsome => nomatch hsome⟩
  | some opened =>
    obtain ⟨h, cs⟩ := opened
    refine ⟨hblock, fun h' cs' hsome => ?_⟩
    obtain ⟨rfl, _⟩ := Prod.mk.inj (Option.some.inj hsome)
    exact hbranch _ _ hopen

namespace Builder.Pending

variable {b : Builder} {f : Frame} {outer : List Frame} {tok : Token}

theorem of_cons (h : b.Pending) (hframes : b.frames = f :: outer) :
    f.Pending ∧ ({ b with frames := outer } : Builder).Pending := by
  unfold Builder.Pending at *
  rw [hframes] at h
  exact ⟨h f (List.mem_cons_self ..), fun f' hf' => h f' (List.mem_cons_of_mem _ hf')⟩

theorem cons (hf : f.Pending) (h : ({ b with frames := outer } : Builder).Pending) :
    ({ b with frames := f :: outer } : Builder).Pending := by
  intro f' hf'
  rcases List.mem_cons.1 hf' with rfl | hf'
  · exact hf
  · exact h f' hf'

theorem push (h : b.Pending) (n : Node) : (b.push n).Pending := by
  unfold Builder.push
  cases hframes : b.frames with
  | nil =>
    intro f hf
    cases hf
  | cons f outer =>
    obtain ⟨hf, houter⟩ := h.of_cons hframes
    exact cons (hf.push n) houter

theorem cutInnermost (h : b.Pending) (stop : Nat) : (b.cutInnermost stop).Pending := by
  cases hframes : b.frames with
  | nil =>
    unfold Builder.cutInnermost
    rwa [hframes]
  | cons f outer =>
    rw [cutInnermost_cons hframes]
    have houter : (({ b with frames := outer } : Builder).warn (.neverClosed f.block.name)
        f.block.start).Pending := (h.of_cons hframes).2
    exact houter.push _

theorem closeThrough {block : Text} (h : b.Pending)
    (hopen : ∃ f ∈ b.frames, f.block.name = block) : (b.closeThrough block tok).Pending :=
  closeThrough_induction (P := Builder.Pending) (Q := Builder.Pending)
    (fun _ _ _ _ h => h.cutInnermost _) (fun _ _ _ hframes _ h => (h.of_cons hframes).2.push _)
    b hopen h

/-- One token leaves the open tags pending. -/
theorem add (h : b.Pending) (src : Text) (tok : Token) : (b.add src tok).Pending := by
  have hadded := added_add src b tok
  generalize b.add src tok = after at hadded
  cases hadded with
  | leaf _ => exact h.push _
  | misfit d _ _ _ =>
    have hwarn : (b.warn d tok.start).Pending := h
    exact hwarn.push _
  | opens _ _ hrole =>
    have hlines : tagRole tok.name ≠ .lines := by rw [hrole]; nofun
    exact cons ⟨(pending_head hlines).1, fun _ _ h => nomatch h⟩ h
  | branch _ _ hrole hframes _ =>
    have hlines : tagRole tok.name ≠ .lines := by rw [hrole]; nofun
    obtain ⟨hf, houter⟩ := h.of_cons hframes
    refine cons ⟨hf.block, fun h' cs' hsome => ?_⟩ houter
    obtain ⟨rfl, _⟩ := Prod.mk.inj (Option.some.inj hsome)
    exact (pending_head hlines).2
  | closes _ _ hopen => exact h.closeThrough hopen
  | stray _ _ _ => exact h
  | lines _ _ _ =>
    have hb : ({ b with warnings := (addLines src b.warnings tok).warnings } : Builder).Pending := h
    exact hb.push _

theorem addTokens (h : b.Pending) (src : Text) (toks : List Token) :
    (b.addTokens src toks).Pending := by
  induction toks generalizing b with
  | nil => rwa [addTokens_nil]
  | cons tok rest ih =>
    rw [addTokens_cons]
    exact ih (h.add src tok)

end Builder.Pending

/-! ## Runs -/

section Runs

variable {descend : Head → Bool} {g : Head → Nat} {gain : Token → Head → Nat} {b : Builder}

/-- Ending every open block changes no sum. -/
theorem Builder.total_finish (hsteady : Steady descend g gain) (hb : b.Pending) (stop : Nat) :
    totalAll descend g (b.finish stop).done = b.total descend g := by
  obtain ⟨⟨htotal, _⟩, hframes⟩ := Builder.finish_induction
    (P := fun b' => b'.total descend g = b.total descend g ∧ b'.Pending) stop
    (fun b' _ _ _ h => ⟨(Builder.total_cutInnermost hsteady h.2 stop).trans h.1,
      h.2.cutInnermost stop⟩) b ⟨rfl, hb⟩
  unfold Builder.total at htotal
  rwa [hframes, List.map_nil, sumOf_nil, Nat.add_zero] at htotal

/-- Closing a block adds what its end tag adds. -/
theorem Builder.total_closeThrough (hsteady : Steady descend g gain) (hb : b.Pending)
    {block : Text} {tok : Token} {n : Nat} (hopen : ∃ f ∈ b.frames, f.block.name = block)
    (hgain : ∀ h : Head, h.Pending → h.name = block → gain tok h = n) :
    (b.closeThrough block tok).total descend g = b.total descend g + n := by
  refine Builder.closeThrough_induction
    (P := fun b' => b'.total descend g = b.total descend g ∧ b'.Pending)
    (Q := fun b' => b'.total descend g = b.total descend g + n)
    (fun b' _ _ _ h => ⟨(Builder.total_cutInnermost hsteady h.2 _).trans h.1,
      h.2.cutInnermost _⟩) ?_ b hopen ⟨rfl, hb⟩
  rintro b' f outer hframes hname ⟨htotal, hpending⟩
  obtain ⟨hf, _⟩ := hpending.of_cons hframes
  rw [Builder.total_push, Frame.total_closeWith hsteady hf, hgain _ hf.block hname, ← htotal,
    Builder.total_cons hframes]
  omega

/-- **What no token brings in is not there after a run.**  `Q` says what the tokens of the run and
their lines have in common. -/
theorem Builder.total_addTokens_eq {src : Text} {Q : Token → Prop}
    (hsteady : Steady (fun _ => true) g fun _ _ => 0)
    (hlines : ∀ tok, Q tok → tok.kind = .tag →
      ∀ line ∈ liquidLines tok.markup tok.markupStart, Q line)
    (hleaf : ∀ (b : Builder) (tok : Token) (n : Node), Q tok → LeafOf src b tok n →
      n.total (fun _ => true) g = 0)
    (htag : ∀ tok, Q tok → tok.kind = .tag →
      g (tok.head .tag) = 0 ∧ g { tok.head .tag with block := true } = 0)
    {toks : List Token} : ∀ {b : Builder}, b.Pending → (∀ tok ∈ toks, Q tok) →
      (b.addTokens src toks).total (fun _ => true) g = b.total (fun _ => true) g := by
  induction toks using tokens_induction with
  | nil =>
    intro b _ _
    rw [addTokens_nil]
  | cons tok rest ihlines ih =>
    intro b hb htoks
    have htok := htoks tok (List.mem_cons_self ..)
    have hrest := ih (hb.add src tok) fun t ht => htoks t (List.mem_cons_of_mem _ ht)
    rw [addTokens_cons, hrest]
    have hadded := added_add src b tok
    generalize b.add src tok = after at hadded
    cases hadded with
    | leaf h => rw [total_push, hleaf b tok _ htok h, Nat.add_zero]
    | misfit d hreads _ _ =>
      rw [total_push, total_leaf, (htag tok htok hreads.kind_eq).1]
      rfl
    | opens hreads _ _ =>
      rw [total_cons rfl]
      simp [Frame.total, (htag tok htok hreads.kind_eq).2]
    | branch hreads _ _ hframes _ =>
      rw [total_cons rfl, Frame.total_openBranch hsteady (hb.of_cons hframes).1, total_cons hframes,
        (htag tok htok hreads.kind_eq).1]
      rfl
    | closes _ _ hopen => exact total_closeThrough hsteady hb hopen fun _ _ _ => rfl
    | stray _ _ _ => rfl
    | lines hreads _ _ =>
      have hempty : ({ warnings := b.warnings } : Builder).Pending :=
        fun f hf => (List.not_mem_nil hf).elim
      have hinner : totalAll (fun _ => true) g (addLines src b.warnings tok).done = 0 := by
        unfold addLines
        rw [total_finish hsteady (hempty.addTokens src _), ihlines hempty (hlines tok htok hreads.kind_eq)]
        rfl
      rw [total_push, total_mk rfl, hinner, (htag tok htok hreads.kind_eq).1]
      rfl

/-- Every node of a template but its root stands below the root. -/
theorem mem_below_of_walk {src : Text} {h : Head} (hh : h ∈ (parse src).root.walk fun _ => true)
    (hkind : h.kind ≠ .document) : h ∈ Node.walkAll (fun _ => true) (parse src).root.children := by
  obtain ⟨root, children, hroot, hdocument⟩ : ∃ root children,
      (parse src).root = .mk root children ∧ root.kind = .document := ⟨_, _, rfl, rfl⟩
  rw [hroot, Node.walk, if_pos rfl] at hh
  rw [hroot]
  rcases List.mem_cons.1 hh with rfl | hh
  · exact absurd hdocument hkind
  · exact hh

theorem mem_walk_of_below {src : Text} {h : Head}
    (hh : h ∈ Node.walkAll (fun _ => true) (parse src).root.children) :
    h ∈ (parse src).root.walk fun _ => true :=
  List.mem_cons_of_mem _ hh

/-- **What no token brings in is nowhere below the root.** -/
theorem eq_zero_below_root {src : Text} {Q : Token → Prop}
    (hsteady : Steady (fun _ => true) g fun _ _ => 0) (htoks : ∀ tok ∈ tokens src, Q tok)
    (hlines : ∀ tok, Q tok → tok.kind = .tag →
      ∀ line ∈ liquidLines tok.markup tok.markupStart, Q line)
    (hleaf : ∀ (b : Builder) (tok : Token) (n : Node), Q tok → Builder.LeafOf src b tok n →
      n.total (fun _ => true) g = 0)
    (htag : ∀ tok, Q tok → tok.kind = .tag →
      g (tok.head .tag) = 0 ∧ g { tok.head .tag with block := true } = 0)
    {h : Head} (hh : h ∈ Node.walkAll (fun _ => true) (parse src).root.children) : g h = 0 := by
  have hempty : ({ warnings := unterminatedWarnings (tokens src) } : Builder).Pending :=
    fun f hf => (List.not_mem_nil hf).elim
  have hrun := Builder.total_addTokens_eq hsteady hlines hleaf htag hempty htoks
  have hzero : totalAll (fun _ => true) g (parse src).root.children = 0 :=
    (Builder.total_finish hsteady (hempty.addTokens src (tokens src)) src.length).trans hrun
  exact sumOf_eq_zero_iff.1 hzero _ (List.mem_map_of_mem hh)

/-- **What holds of the node of each token holds of every node below the root**, if it does not depend
on where the node ends. -/
theorem forall_below_root {src : Text} {P : Head → Prop} {Q : Token → Prop}
    (hend : ∀ (h : Head) (stop : Nat) (close : Option Nat) (closed : Bool),
      P { h with stop := stop, closeStart := close, closed := closed } ↔ P h)
    (htoks : ∀ tok ∈ tokens src, Q tok)
    (hlines : ∀ tok, Q tok → tok.kind = .tag →
      ∀ line ∈ liquidLines tok.markup tok.markupStart, Q line)
    (hleaf : ∀ (b : Builder) (tok : Token) (n : Node), Q tok → Builder.LeafOf src b tok n → P n.head)
    (htag : ∀ tok, Q tok → tok.kind = .tag →
      P (tok.head .tag) ∧ P { tok.head .tag with block := true })
    {h : Head} (hh : h ∈ Node.walkAll (fun _ => true) (parse src).root.children) : P h := by
  classical
  have hzero {h : Head} (hP : P h) : (if P h then 0 else 1) = 0 := if_pos hP
  have hsteady : Steady (fun _ => true) (fun h => if P h then 0 else 1) (fun _ _ => 0) := by
    refine ⟨fun _ _ _ => rfl, fun _ _ _ => rfl, fun h stop _ => ?_, fun h tok _ => ?_⟩
    · have hsame : P (h.cutAt stop) ↔ P h := hend h stop h.closeStart h.closed
      simp only [hsame]
    · have hsame : P (h.closedBy tok) ↔ P h := hend h tok.stop (some tok.start) true
      simp only [hsame, Nat.add_zero]
  have hnone := eq_zero_below_root hsteady htoks hlines
    (fun b tok n htok hn => by
      have hP := hleaf b tok n htok hn
      cases hn <;> exact (total_leaf _).trans (hzero hP))
    (fun tok htok hkind => ⟨hzero (htag tok htok hkind).1, hzero (htag tok htok hkind).2⟩) hh
  refine Classical.byContradiction fun hnot => ?_
  rw [if_neg hnot] at hnone
  cases hnone

end Runs

end Liquid
end LiquidLint
