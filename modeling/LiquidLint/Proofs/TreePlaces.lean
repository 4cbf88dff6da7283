import LiquidLint.Proofs.TreeSteps

/-!
# Where the nodes of a tree stand

A node spans its opening tag, its children and its end tag, in this order; its children follow each
other without touching the end tag.  This holds of every tree that `parse` gives, however badly the
tags of the template are nested (`wellPlaced_root`).

The end of a block is known only when something ends it: its own end tag, the end tag of a block
around it, the end of the lines of a `liquid` tag, or the end of the template; the end of a branch
also when the next branch begins.  So the invariant is about a place `pos` in the source: what is
finished stands before `pos`, and each open block starts where the finished part of the block around
it ends (`Stack`).  A token that starts at `pos` or later moves the place to its own end, and ending
a block moves it to the end of the block.
-/

namespace LiquidLint
namespace Liquid

/-- `P` holds of the node and of every node below it. -/
inductive Node.Everywhere (P : Node → Prop) : Node → Prop where
  | mk {h : Head} {cs : List Node} (here : P (.mk h cs)) (below : ∀ c ∈ cs, Everywhere P c) :
      Everywhere P (.mk h cs)

theorem Node.Everywhere.here {P : Node → Prop} {n : Node} (h : n.Everywhere P) : P n := by
  cases h
  assumption

theorem Node.Everywhere.and {P Q : Node → Prop} {n : Node} (hP : n.Everywhere P)
    (hQ : n.Everywhere Q) : n.Everywhere fun m => P m ∧ Q m := by
  induction hP with
  | mk here below ih =>
    cases hQ with
    | mk here' below' => exact .mk ⟨here, here'⟩ fun c hc => ih c hc (below' c hc)

/-- The offsets of a node in a source of `size` bytes are in order, and so are those of its
children. -/
structure Node.WellPlaced (size : Nat) (n : Node) : Prop where
  start_le_openEnd : n.head.start ≤ n.head.openEnd
  openEnd_le_stop : n.head.openEnd ≤ n.head.stop
  stop_le_size : n.head.stop ≤ size
  child_inside : ∀ c ∈ n.children, n.head.start ≤ c.head.start ∧ c.head.stop ≤ n.head.stop
  siblings_apart : n.children.Pairwise fun c d => c.head.stop ≤ d.head.start
  closed_iff : n.head.closed = true ↔ n.head.closeStart.isSome = true
  closing : ∀ close, n.head.closeStart = some close →
    n.head.openEnd ≤ close ∧ close ≤ n.head.stop ∧ ∀ c ∈ n.children, c.head.stop ≤ close

/-! ## Rows of nodes -/

/-- The nodes stand between `lo` and `hi`, in order and apart from each other. -/
def Row (size : Nat) : (lo : Nat) → List Node → (hi : Nat) → Prop
  | lo, [], hi => lo ≤ hi
  | lo, n :: rest, hi =>
    lo ≤ n.head.start ∧ n.Everywhere (Node.WellPlaced size) ∧ Row size n.head.stop rest hi

theorem Node.WellPlaced.start_le_stop {size : Nat} {n : Node} (h : n.WellPlaced size) :
    n.head.start ≤ n.head.stop :=
  Nat.le_trans h.start_le_openEnd h.openEnd_le_stop

namespace Row

variable {size lo mid hi : Nat} {ns : List Node} {n : Node}

theorem le (h : Row size lo ns hi) : lo ≤ hi := by
  induction ns generalizing lo with
  | nil => exact h
  | cons n rest ih =>
    obtain ⟨hstart, hplaced, hrest⟩ := h
    exact Nat.le_trans hstart (Nat.le_trans hplaced.here.start_le_stop (ih hrest))

theorem of_le (h : Row size lo ns mid) (hle : mid ≤ hi) : Row size lo ns hi := by
  induction ns generalizing lo with
  | nil => exact Nat.le_trans h hle
  | cons n rest ih =>
    obtain ⟨hstart, hplaced, hrest⟩ := h
    exact ⟨hstart, hplaced, ih hrest⟩

/-- A row goes on with a node that starts where it ends, or later. -/
theorem concat (h : Row size lo ns mid) (hn : n.Everywhere (Node.WellPlaced size))
    (hle : mid ≤ n.head.start) : Row size lo (ns ++ [n]) n.head.stop := by
  induction ns generalizing lo with
  | nil => exact ⟨Nat.le_trans h hle, hn, Nat.le_refl _⟩
  | cons first rest ih =>
    obtain ⟨hstart, hplaced, hrest⟩ := h
    exact ⟨hstart, hplaced, ih hrest⟩

theorem everywhere (h : Row size lo ns hi) (hn : n ∈ ns) :
    n.Everywhere (Node.WellPlaced size) ∧ lo ≤ n.head.start ∧ n.head.stop ≤ hi := by
  induction ns generalizing lo with
  | nil => cases hn
  | cons first rest ih =>
    obtain ⟨hstart, hplaced, hrest⟩ := h
    rcases List.mem_cons.1 hn with rfl | hn
    · exact ⟨hplaced, hstart, hrest.le⟩
    · obtain ⟨hn, hle, hstop⟩ := ih hrest hn
      have := hplaced.here.start_le_stop
      exact ⟨hn, by omega, hstop⟩

theorem pairwise (h : Row size lo ns hi) : ns.Pairwise fun c d => c.head.stop ≤ d.head.start := by
  induction ns generalizing lo with
  | nil => exact .nil
  | cons first rest ih =>
    obtain ⟨_, _, hrest⟩ := h
    exact .cons (fun d hd => (hrest.everywhere hd).2.1) (ih hrest)

/-- A node around a row. -/
theorem everywhere_mk {h : Head} (hrow : Row size lo ns hi) (hstart : h.start ≤ h.openEnd)
    (hopen : h.openEnd ≤ h.stop) (hsize : h.stop ≤ size) (hlo : h.start ≤ lo) (hhi : hi ≤ h.stop)
    (hclosed : h.closed = true ↔ h.closeStart.isSome = true)
    (hclose : ∀ close, h.closeStart = some close →
      h.openEnd ≤ close ∧ close ≤ h.stop ∧ hi ≤ close) :
    (Node.mk h ns).Everywhere (Node.WellPlaced size) := by
  refine .mk ⟨hstart, hopen, hsize, ?_, hrow.pairwise, hclosed, ?_⟩ fun c hc => (hrow.everywhere hc).1
  · intro c hc
    obtain ⟨_, hle, hstop⟩ := hrow.everywhere hc
    exact ⟨Nat.le_trans hlo hle, Nat.le_trans hstop hhi⟩
  · intro close hsome
    obtain ⟨hle, hle', hhi'⟩ := hclose close hsome
    exact ⟨hle, hle', fun c hc => Nat.le_trans (hrow.everywhere hc).2.2 hhi'⟩

end Row

/-! ## Open blocks -/

/-- The head of a tag whose body has not ended. -/
structure Head.Opened (h : Head) : Prop where
  start_le_openEnd : h.start ≤ h.openEnd
  closeStart_eq : h.closeStart = none
  closed_eq : h.closed = false

/-- A node that ends at `stop` without an end tag. -/
theorem Head.Opened.everywhere_cut {size stop : Nat} {h : Head} {cs : List Node} (hh : h.Opened)
    (hrow : Row size h.openEnd cs stop) (hsize : stop ≤ size) :
    (Node.mk { h with stop := stop } cs).Everywhere (Node.WellPlaced size) := by
  refine hrow.everywhere_mk hh.start_le_openEnd hrow.le hsize hh.start_le_openEnd (Nat.le_refl _) ?_ ?_
  · simp [hh.closeStart_eq, hh.closed_eq]
  · intro close hsome
    rw [hh.closeStart_eq] at hsome
    cases hsome

/-- What an open block holds stands between its opening tag and `pos`. -/
def Frame.Placed (size : Nat) (f : Frame) (pos : Nat) : Prop :=
  f.block.Opened ∧
    match f.branch with
    | none => Row size f.block.openEnd f.done pos
    | some (h, cs) =>
      h.Opened ∧ Row size f.block.openEnd f.done h.start ∧ Row size h.openEnd cs pos

namespace Frame.Placed

variable {size pos : Nat} {f : Frame} {n : Node} {tok : Token}

theorem push (h : f.Placed size pos) (hn : n.Everywhere (Node.WellPlaced size))
    (hle : pos ≤ n.head.start) : (f.push n).Placed size n.head.stop := by
  obtain ⟨hblock, hbody⟩ := h
  unfold Frame.push
  cases hbranch : f.branch with
  | none =>
    rw [hbranch] at hbody
    exact ⟨hblock, Row.concat hbody hn hle⟩
  | some opened =>
    obtain ⟨h, cs⟩ := opened
    rw [hbranch] at hbody
    obtain ⟨hopen, hdone, hrow⟩ := hbody
    exact ⟨hblock, hopen, hdone, hrow.concat hn hle⟩

/-- Ending the open branch leaves a row of children. -/
theorem childrenAt (h : f.Placed size pos) (hsize : pos ≤ size) :
    Row size f.block.openEnd (f.childrenAt pos) pos := by
  obtain ⟨hblock, hbody⟩ := h
  unfold Frame.childrenAt
  cases hbranch : f.branch with
  | none =>
    rw [hbranch] at hbody
    exact hbody
  | some opened =>
    obtain ⟨h, cs⟩ := opened
    rw [hbranch] at hbody
    obtain ⟨hopen, hdone, hrow⟩ := hbody
    exact hdone.concat (hopen.everywhere_cut hrow hsize) (Nat.le_refl _)

theorem of_le {pos' : Nat} (h : f.Placed size pos) (hle : pos ≤ pos') : f.Placed size pos' := by
  obtain ⟨hblock, hbody⟩ := h
  refine ⟨hblock, ?_⟩
  cases hbranch : f.branch with
  | none =>
    rw [hbranch] at hbody
    exact Row.of_le hbody hle
  | some opened =>
    obtain ⟨h, cs⟩ := opened
    rw [hbranch] at hbody
    exact ⟨hbody.1, hbody.2.1, hbody.2.2.of_le hle⟩

theorem cutShort (h : f.Placed size pos) (hsize : pos ≤ size) :
    (f.cutShort pos).Everywhere (Node.WellPlaced size) :=
  h.1.everywhere_cut (h.childrenAt hsize) hsize

theorem closeWith (h : f.Placed size tok.start) (htok : tok.Placed) (hsize : tok.stop ≤ size) :
    (f.closeWith tok).Everywhere (Node.WellPlaced size) := by
  have hlt := htok.start_lt_stop
  have hrow := h.childrenAt (by omega)
  have hle := hrow.le
  refine hrow.everywhere_mk h.1.start_le_openEnd ?_ hsize h.1.start_le_openEnd ?_ ?_ ?_
  · dsimp only
    omega
  · dsimp only
    omega
  · simp
  · intro close hsome
    obtain rfl : tok.start = close := Option.some.inj hsome
    exact ⟨hle, by dsimp only; omega, Nat.le_refl _⟩

theorem openBranch (h : f.Placed size tok.start) (htok : tok.Placed) (hsize : tok.stop ≤ size) :
    (f.openBranch tok).Placed size tok.stop := by
  have hlt := htok.start_lt_stop
  exact ⟨h.1, ⟨by simp only [Token.head]; omega, rfl, rfl⟩, h.childrenAt (by omega), Nat.le_refl _⟩

end Frame.Placed

/-! ## The tree under construction -/

/-- Everything finished stands between `lo` and `pos`; an open block starts where the finished part
of what surrounds it ends. -/
def Stack (size lo : Nat) (done : List Node) : List Frame → (pos : Nat) → Prop
  | [], pos => Row size lo done pos
  | f :: outer, pos => f.Placed size pos ∧ Stack size lo done outer f.block.start

/-- What is finished in the tree under construction stands between `lo` and `pos`. -/
def Builder.Placed (size lo : Nat) (b : Builder) (pos : Nat) : Prop :=
  Stack size lo b.done b.frames pos

namespace Builder.Placed

variable {size lo pos pos' : Nat} {b : Builder} {n : Node} {tok : Token} {src : Text}

theorem of_le (h : b.Placed size lo pos) (hle : pos ≤ pos') : b.Placed size lo pos' := by
  unfold Builder.Placed at *
  cases hframes : b.frames with
  | nil =>
    rw [hframes] at h
    exact Row.of_le h hle
  | cons f outer =>
    rw [hframes] at h
    exact ⟨h.1.of_le hle, h.2⟩

theorem push (h : b.Placed size lo pos) (hn : n.Everywhere (Node.WellPlaced size))
    (hle : pos ≤ n.head.start) : (b.push n).Placed size lo n.head.stop := by
  unfold Builder.Placed Builder.push at *
  cases hframes : b.frames with
  | nil =>
    rw [hframes] at h
    exact Row.concat h hn hle
  | cons f outer =>
    rw [hframes] at h
    refine ⟨h.1.push hn hle, ?_⟩
    rw [Frame.block_push]
    exact h.2

theorem warn (h : b.Placed size lo pos) (d : Defect) (offset : Nat) :
    (b.warn d offset).Placed size lo pos := h

/-- Ending the innermost block at the current place. -/
theorem cutInnermost (h : b.Placed size lo pos) (hsize : pos ≤ size) :
    (b.cutInnermost pos).Placed size lo pos := by
  cases hframes : b.frames with
  | nil =>
    unfold Builder.cutInnermost
    rwa [hframes]
  | cons f outer =>
    rw [cutInnermost_cons hframes]
    unfold Builder.Placed at h
    rw [hframes] at h
    have houter : ({ b with frames := outer } : Builder).Placed size lo f.block.start := h.2
    exact (houter.warn _ _).push (h.1.cutShort hsize) (Nat.le_refl _)

theorem finish (h : b.Placed size lo pos) (hsize : pos ≤ size) :
    Row size lo (b.finish pos).done pos := by
  have hfinish := finish_induction (P := fun b => b.Placed size lo pos) pos
    (fun b f outer _ hb => hb.cutInnermost hsize) b h
  unfold Builder.Placed at hfinish
  rw [hfinish.2] at hfinish
  exact hfinish.1

theorem closeThrough {block : Text} (h : b.Placed size lo tok.start) (htok : tok.Placed)
    (hsize : tok.stop ≤ size) (hopen : ∃ f ∈ b.frames, f.block.name = block) :
    (b.closeThrough block tok).Placed size lo tok.stop := by
  have hlt := htok.start_lt_stop
  refine closeThrough_induction (P := fun b => b.Placed size lo tok.start)
    (Q := fun b => b.Placed size lo tok.stop) (fun b f outer _ hb => hb.cutInnermost (by omega)) ?_
    b hopen h
  intro b f outer hframes _ hb
  unfold Builder.Placed at hb
  rw [hframes] at hb
  have houter : ({ b with frames := outer } : Builder).Placed size lo f.block.start := hb.2
  exact houter.push (hb.1.closeWith htok hsize) (Nat.le_refl _)

theorem opens (h : b.Placed size lo tok.start) (htok : tok.Placed) :
    Builder.Placed size lo
      { b with frames := { block := { tok.head .tag with block := true } } :: b.frames } tok.stop :=
  ⟨⟨⟨Nat.le_of_lt htok.start_lt_stop, rfl, rfl⟩, Nat.le_refl _⟩, h⟩

end Builder.Placed

/-- A node without children and without a body. -/
theorem everywhere_leaf {size : Nat} {h : Head} (hstart : h.start ≤ h.stop)
    (hopen : h.openEnd = h.stop) (hsize : h.stop ≤ size) (hclose : h.closeStart = none)
    (hclosed : h.closed = false) : (Node.leaf h).Everywhere (Node.WellPlaced size) := by
  have hrow : Row size h.stop [] h.stop := Nat.le_refl _
  refine hrow.everywhere_mk (hopen ▸ hstart) (Nat.le_of_eq hopen) hsize hstart (Nat.le_refl _) ?_ ?_
  · simp [hclose, hclosed]
  · intro close hsome
    rw [hclose] at hsome
    cases hsome

theorem Builder.LeafOf.everywhere {size : Nat} {src : Text} {b : Builder} {tok : Token} {n : Node}
    (h : Builder.LeafOf src b tok n) (htok : tok.Placed) (hsize : tok.stop ≤ size) :
    n.Everywhere (Node.WellPlaced size) ∧ n.head.start = tok.start ∧ n.head.stop = tok.stop := by
  have hle := Nat.le_of_lt htok.start_lt_stop
  cases h <;> exact ⟨everywhere_leaf hle rfl hsize rfl rfl, rfl, rfl⟩

/-- **One token moves the place from its start to its end.** -/
theorem Builder.Placed.add {size lo : Nat} {src : Text} {b : Builder} {tok : Token}
    (h : b.Placed size lo tok.start) (htok : tok.Placed) (hsize : tok.stop ≤ size)
    (hlines : ∀ warnings, Row size tok.start (addLines src warnings tok).done tok.stop) :
    (b.add src tok).Placed size lo tok.stop := by
  have hle := Nat.le_of_lt htok.start_lt_stop
  have hadded := added_add src b tok
  generalize b.add src tok = after at hadded
  cases hadded with
  | leaf hleaf =>
    obtain ⟨hn, hstart, hstop⟩ := hleaf.everywhere htok hsize
    exact hstop ▸ h.push hn (Nat.le_of_eq hstart.symm)
  | misfit d _ _ _ =>
    have hn : (Node.leaf (tok.head .tag)).Everywhere (Node.WellPlaced size) :=
      everywhere_leaf hle rfl hsize rfl rfl
    exact (h.warn d tok.start).push hn (Nat.le_refl _)
  | opens _ _ _ => exact h.opens htok
  | branch _ _ _ hframes _ =>
    unfold Builder.Placed at h
    rw [hframes] at h
    exact ⟨h.1.openBranch htok hsize, h.2⟩
  | closes _ _ hopen => exact h.closeThrough htok hsize hopen
  | stray _ _ _ => exact (h.warn _ _).of_le hle
  | lines _ _ _ =>
    have hn : (Node.mk (tok.head .tag) (addLines src b.warnings tok).done).Everywhere
        (Node.WellPlaced size) := by
      refine (hlines b.warnings).everywhere_mk hle (Nat.le_refl _) hsize (Nat.le_refl _)
        (Nat.le_refl _) ?_ ?_
      · simp [Token.head]
      · intro close hsome
        cases hsome
    have hb : ({ b with warnings := (addLines src b.warnings tok).warnings } : Builder).Placed
        size lo tok.start := h
    exact hb.push hn (Nat.le_refl _)

/-- **A run moves the place to where its tokens end.** -/
theorem Builder.Placed.addTokens {size : Nat} {src : Text} {toks : List Token} :
    ∀ {lo pos hi : Nat} {b : Builder}, b.Placed size lo pos → Follows pos toks hi → hi ≤ size →
      (b.addTokens src toks).Placed size lo hi := by
  induction toks using tokens_induction with
  | nil =>
    intro lo pos hi b h hfollows _
    rw [addTokens_nil]
    exact h.of_le hfollows
  | cons tok rest ihlines ih =>
    intro lo pos hi b h hfollows hsize
    obtain ⟨hle, htok, hrest⟩ := hfollows
    have hstop : tok.stop ≤ size := Nat.le_trans hrest.le hsize
    rw [addTokens_cons]
    refine ih ((h.of_le hle).add htok hstop ?_) hrest hsize
    -- the lines are a run that starts with nothing, inside the markup of their tag
    intro warnings
    have hempty : ({ warnings } : Builder).Placed size tok.start tok.start := Nat.le_refl _
    have hfollows := (follows_liquidLines tok.markup tok.markupStart).of_le htok.start_le_markup
      htok.markup_le_stop
    exact (ihlines hempty hfollows hstop).finish hstop

/-- Every node of a template is well placed. -/
theorem wellPlaced_root (src : Text) :
    (parse src).root.Everywhere (Node.WellPlaced src.length) := by
  have hempty : ({ warnings := unterminatedWarnings (tokens src) } : Builder).Placed src.length 0 0 :=
    Nat.le_refl _
  have hrun : (Builder.addTokens src _ (tokens src)).Placed src.length 0 src.length :=
    hempty.addTokens (tiles_tokens src).follows (Nat.le_refl _)
  have hrow := hrun.finish (Nat.le_refl _)
  refine hrow.everywhere_mk (Nat.le_refl _) (Nat.zero_le _) (Nat.le_refl _) (Nat.le_refl _)
    (Nat.le_refl _) ?_ ?_
  · simp
  · intro close hsome
    cases hsome

/-- **Every node of a template is well placed**, and the document, which has no opening tag, starts
with its children. -/
theorem parse_wellPlaced (src : Text) :
    (parse src).root.Everywhere (Node.WellPlaced src.length) ∧
      (parse src).root.head.openEnd = 0 :=
  ⟨wellPlaced_root src, rfl⟩

end Liquid
end LiquidLint
