import LiquidLint.Markup.Tree
import LiquidLint.Proofs.Masking

/-!
# Trees of elements

The tree of HTML elements is put together from tokens, whatever these are, as long as they are consecutive
pieces of the masked source (`Tokenizes`).  The end of an element is known only when something ends it: its
own end tag, the end tag of an element around it, or the end of the source.  So the invariant is about the
place `pos` where the next token starts: what is finished stands before it, and each open element starts where
the finished part of the element around it ends (`Builder.Placed`).

Which elements are open after some tokens, and which end tags are stray, is told without the tree
(`openedBy`, `strays`); the tree under construction agrees token by token (`opened_add`, `warnings_add`), and
what it has finished it keeps (`heads_add`).
-/

namespace LiquidLint
namespace Markup

/-! ## Nodes in place -/

/-- `P` holds of the node and of every node below it. -/
inductive Node.Everywhere (P : Node → Prop) : Node → Prop where
  | mk {h : Head} {cs : List Node} (here : P (.mk h cs)) (below : ∀ c ∈ cs, Everywhere P c) :
      Everywhere P (.mk h cs)

theorem Node.Everywhere.here {P : Node → Prop} {n : Node} (h : n.Everywhere P) : P n := by
  cases h
  assumption

/-- A void element, or a tag that closes itself. -/
def Head.Childless (h : Head) : Prop := h.selfClosing = true ∨ h.tag ∈ voidElements

/-- The offsets of a node in a source of `size` bytes are in order, its children stand between its start tag
and its end, in order and apart from each other, and it has none if it cannot have any. -/
structure Node.WellFormed (size : Nat) (n : Node) : Prop where
  start_le_openEnd : n.head.start ≤ n.head.openEnd
  openEnd_le_stop : n.head.openEnd ≤ n.head.stop
  stop_le_size : n.head.stop ≤ size
  child_inside : ∀ c ∈ n.children, n.head.openEnd ≤ c.head.start ∧ c.head.stop ≤ n.head.stop
  siblings_apart : n.children.Pairwise fun c d => c.head.stop ≤ d.head.start
  childless : n.head.Childless → n.children = []

/-- The nodes stand between `lo` and `hi`, in order and apart from each other. -/
structure Row (size lo : Nat) (ns : List Node) (hi : Nat) : Prop where
  le : lo ≤ hi
  inside : ∀ n ∈ ns, lo ≤ n.head.start ∧ n.head.stop ≤ hi
  apart : ns.Pairwise fun c d => c.head.stop ≤ d.head.start
  everywhere : ∀ n ∈ ns, n.Everywhere (Node.WellFormed size)

namespace Row

variable {size lo mid hi : Nat} {ns : List Node} {n : Node} {h : Head}

theorem nil (h : lo ≤ hi) : Row size lo [] hi where
  le := h
  inside _ hnone := absurd hnone List.not_mem_nil
  apart := .nil
  everywhere _ hnone := absurd hnone List.not_mem_nil

theorem of_le (h : Row size lo ns mid) (hle : mid ≤ hi) : Row size lo ns hi where
  le := Nat.le_trans h.le hle
  inside n hn := ⟨(h.inside n hn).1, Nat.le_trans (h.inside n hn).2 hle⟩
  apart := h.apart
  everywhere := h.everywhere

/-- A row goes on with a node that starts where it ends, or later. -/
theorem concat (h : Row size lo ns mid) (hn : n.Everywhere (Node.WellFormed size))
    (hle : mid ≤ n.head.start) : Row size lo (ns ++ [n]) n.head.stop := by
  have hspan : n.head.start ≤ n.head.stop :=
    Nat.le_trans hn.here.start_le_openEnd hn.here.openEnd_le_stop
  have hmid : mid ≤ n.head.stop := Nat.le_trans hle hspan
  have hbefore := h.of_le hmid
  refine ⟨hbefore.le, ?_, ?_, ?_⟩
  · intro c hc
    rcases List.mem_append.1 hc with hc | hc
    · exact hbefore.inside c hc
    · obtain rfl := List.mem_singleton.1 hc
      exact ⟨Nat.le_trans h.le hle, Nat.le_refl _⟩
  · refine List.pairwise_append.2 ⟨h.apart, List.pairwise_singleton .., fun c hc d hd => ?_⟩
    obtain rfl := List.mem_singleton.1 hd
    exact Nat.le_trans (h.inside c hc).2 hle
  · intro c hc
    rcases List.mem_append.1 hc with hc | hc
    · exact h.everywhere c hc
    · obtain rfl := List.mem_singleton.1 hc
      exact hn

/-- A node around a row. -/
theorem node (hrow : Row size h.openEnd ns h.stop) (hstart : h.start ≤ h.openEnd) (hsize : h.stop ≤ size)
    (hchildless : h.Childless → ns = []) : (Node.mk h ns).Everywhere (Node.WellFormed size) :=
  .mk ⟨hstart, hrow.le, hsize, hrow.inside, hrow.apart, hchildless⟩ hrow.everywhere

end Row

/-! ## The tree under construction stands in place -/

/-- What an open element holds stands between its start tag and `pos`. -/
structure Frame.Placed (size : Nat) (f : Frame) (pos : Nat) : Prop where
  start_le_openEnd : f.head.start ≤ f.head.openEnd
  not_childless : ¬ f.head.Childless
  row : Row size f.head.openEnd f.done pos

/-- Everything finished stands before `pos`; an open element starts where the finished part of what surrounds
it ends. -/
def Stack (size : Nat) (done : List Node) : List Frame → (pos : Nat) → Prop
  | [], pos => Row size 0 done pos
  | f :: outer, pos => f.Placed size pos ∧ Stack size done outer f.head.start

/-- What is finished in the tree under construction stands before `pos`. -/
def Builder.Placed (size : Nat) (b : Builder) (pos : Nat) : Prop := Stack size b.done b.frames pos

namespace Builder

theorem closeInnermost_cons {b : Builder} {f : Frame} {outer : List Frame}
    (hframes : b.frames = f :: outer) (stop : Nat) :
    b.closeInnermost stop = { b with frames := outer }.push (f.closeAt stop) := by
  unfold closeInnermost
  rw [hframes]

/-- Ending every open element is ending the innermost one until there is none. -/
theorem finish_induction {P : Builder → Prop} (stop : Nat)
    (close : ∀ b : Builder, P b → P (b.closeInnermost stop)) (b : Builder) (h : P b) :
    P (b.finish stop) ∧ (b.finish stop).frames = [] := by
  fun_induction finish b stop with
  | case1 b hempty => exact ⟨h, List.isEmpty_iff.1 hempty⟩
  | case2 b hne ih => exact ih (close b h)

namespace Placed

variable {size pos pos' : Nat} {b : Builder} {n : Node} {tag : Text}

theorem of_le (h : b.Placed size pos) (hle : pos ≤ pos') : b.Placed size pos' := by
  unfold Builder.Placed at *
  cases hframes : b.frames with
  | nil =>
    rw [hframes] at h
    exact Row.of_le h hle
  | cons f outer =>
    rw [hframes] at h
    exact ⟨⟨h.1.start_le_openEnd, h.1.not_childless, h.1.row.of_le hle⟩, h.2⟩

theorem push (h : b.Placed size pos) (hn : n.Everywhere (Node.WellFormed size))
    (hle : pos ≤ n.head.start) : (b.push n).Placed size n.head.stop := by
  unfold Builder.Placed Builder.push at *
  cases hframes : b.frames with
  | nil =>
    rw [hframes] at h
    exact Row.concat h hn hle
  | cons f outer =>
    rw [hframes] at h
    exact ⟨⟨h.1.start_le_openEnd, h.1.not_childless, h.1.row.concat hn hle⟩, h.2⟩

/-- **Ending the innermost element** moves the place to its end. -/
theorem closeInnermost (h : b.Placed size pos) (hle : pos ≤ pos') (hsize : pos' ≤ size) :
    (b.closeInnermost pos').Placed size pos' := by
  cases hframes : b.frames with
  | nil =>
    unfold Builder.closeInnermost
    rw [hframes]
    exact h.of_le hle
  | cons f outer =>
    rw [closeInnermost_cons hframes]
    unfold Builder.Placed at h
    rw [hframes] at h
    have houter : ({ b with frames := outer } : Builder).Placed size f.head.start := h.2
    have hnode : (f.closeAt pos').Everywhere (Node.WellFormed size) :=
      Row.node (h.1.row.of_le hle) h.1.start_le_openEnd hsize
        fun hchildless => absurd hchildless h.1.not_childless
    exact houter.push hnode (Nat.le_refl _)

theorem finish (h : b.Placed size pos) (hle : pos ≤ size) : Row size 0 (b.finish size).done size := by
  have hfinish := finish_induction (P := fun b => b.Placed size size) size
    (fun b hb => hb.closeInnermost (Nat.le_refl _) (Nat.le_refl _)) b (h.of_le hle)
  unfold Builder.Placed at hfinish
  rw [hfinish.2] at hfinish
  exact hfinish.1

theorem closeThrough {start stop : Nat} (h : b.Placed size start) (hle : start ≤ stop)
    (hsize : stop ≤ size) : (b.closeThrough tag start stop).Placed size stop := by
  fun_induction Builder.closeThrough b tag start stop with
  | case1 b hframes => exact h.of_le hle
  | case2 b f outer hframes htag => exact h.closeInnermost hle hsize
  | case3 b f outer hframes htag ih =>
    exact ih (h.closeInnermost (Nat.le_refl _) (Nat.le_trans hle hsize))

/-- **One token moves the place from its start to its end.** -/
theorem add (h : b.Placed size pos) (masked src : Text) {tok : Token} (hsize : pos + tok.size ≤ size) :
    (b.add masked src pos tok).Placed size (pos + tok.size) := by
  have hle : pos ≤ pos + tok.size := Nat.le_add_right ..
  -- a node without children, as wide as the token
  have hleaf {head : Head} (hstart : head.start = pos) (hopen : head.openEnd = pos + tok.size)
      (hstop : head.stop = pos + tok.size) : (b.push (.mk head [])).Placed size (pos + tok.size) := by
    have hnode : (Node.mk head []).Everywhere (Node.WellFormed size) :=
      Row.node (.nil (by omega)) (by omega) (by omega) fun _ => rfl
    have hpush := h.push hnode (Nat.le_of_eq hstart.symm)
    rwa [show (Node.mk head []).head.stop = pos + tok.size from hstop] at hpush
  unfold Builder.add
  dsimp only
  cases hkind : tok.kind with
  | text => exact hleaf rfl rfl rfl
  | comment => exact hleaf rfl rfl rfl
  | doctype => exact hleaf rfl rfl rfl
  | startTag name selfClosing =>
    dsimp only
    unfold Builder.start
    dsimp only
    by_cases hchildless : (selfClosing || voidElements.contains name) = true
    · rw [if_pos hchildless]
      exact hleaf rfl rfl rfl
    · rw [if_neg hchildless]
      refine ⟨⟨hle, ?_, .nil (Nat.le_refl _)⟩, h⟩
      rintro (hself | hvoid)
      · exact hchildless (Bool.or_eq_true_iff.2 (.inl hself))
      · exact hchildless (Bool.or_eq_true_iff.2 (.inr (List.contains_iff_mem.2 hvoid)))
  | endTag name =>
    dsimp only
    unfold Builder.close
    split
    · exact h.of_le hle
    · split
      · exact h.closeThrough hle hsize
      · exact h.of_le hle

/-- **A run moves the place to where its tokens end.** -/
theorem addAll (h : b.Placed size pos) (masked src : Text) {toks : List Token}
    (hsize : pos + sumOf (toks.map (·.size)) ≤ size) :
    (b.addAll masked src pos toks).Placed size (pos + sumOf (toks.map (·.size))) := by
  induction toks generalizing b pos with
  | nil => exact h
  | cons tok rest ih =>
    rw [List.map_cons, sumOf_cons, ← Nat.add_assoc] at hsize ⊢
    exact ih (h.add masked src (by omega)) hsize

end Placed

/-! ## What a tree has finished -/

/-- The heads of the open elements, innermost first. -/
def opened (b : Builder) : List Head := b.frames.map (·.head)

/-- The heads of all finished nodes. -/
def heads (b : Builder) : List Head :=
  Node.walkAll b.done ++ b.frames.flatMap fun f => Node.walkAll f.done

end Builder

theorem Node.walkAll_concat (ns : List Node) (n : Node) :
    Node.walkAll (ns ++ [n]) = Node.walkAll ns ++ n.walk := by
  induction ns with
  | nil => rw [List.nil_append, Node.walkAll, Node.walkAll, Node.walkAll, List.append_nil, List.nil_append]
  | cons first rest ih => rw [List.cons_append, Node.walkAll, ih, Node.walkAll, List.append_assoc]

namespace Builder

section Finished

variable {b : Builder} {f : Frame} {outer : List Frame} {h : Head} {tag : Text} {start stop : Nat}

@[simp] theorem opened_push (b : Builder) (n : Node) : (b.push n).opened = b.opened := by
  unfold push opened
  cases b.frames <;> simp

@[simp] theorem warnings_push (b : Builder) (n : Node) : (b.push n).warnings = b.warnings := by
  unfold push
  split <;> rfl

/-- A node that is put into the tree is finished. -/
theorem mem_heads_push (b : Builder) (n : Node) : h ∈ (b.push n).heads ↔ h ∈ b.heads ∨ h ∈ n.walk := by
  unfold push heads
  cases hframes : b.frames with
  | nil =>
    dsimp only
    rw [Node.walkAll_concat]
    simp only [List.flatMap_nil, List.append_nil, List.mem_append]
  | cons f outer =>
    dsimp only
    simp only [List.flatMap_cons, Node.walkAll_concat, List.mem_append, or_assoc]
    exact or_congr_right (or_congr_right or_comm)

theorem opened_closeInnermost (hframes : b.frames = f :: outer) (stop : Nat) :
    (b.closeInnermost stop).opened = outer.map (·.head) := by
  rw [closeInnermost_cons hframes, opened_push]
  rfl

@[simp] theorem warnings_closeInnermost (b : Builder) (stop : Nat) :
    (b.closeInnermost stop).warnings = b.warnings := by
  unfold closeInnermost
  split
  · rfl
  · rw [warnings_push]

/-- **The innermost element that ends is finished**, with its end. -/
theorem mem_heads_closeInnermost (hframes : b.frames = f :: outer) (stop : Nat) :
    h ∈ (b.closeInnermost stop).heads ↔ h ∈ b.heads ∨ h = { f.head with stop } := by
  rw [closeInnermost_cons hframes, mem_heads_push]
  unfold heads Frame.closeAt
  rw [hframes]
  simp only [Node.walk, List.flatMap_cons, List.mem_append, List.mem_cons]
  grind

theorem heads_closeInnermost (b : Builder) (stop : Nat) : b.heads ⊆ (b.closeInnermost stop).heads := by
  intro h hh
  cases hframes : b.frames with
  | nil =>
    unfold closeInnermost
    rwa [hframes]
  | cons f outer => exact (mem_heads_closeInnermost hframes stop).2 (.inl hh)

end Finished

end Builder

/-! ## End tags -/

/-- An end tag `name` from `start` to `stop` ends the innermost of the elements `before` that is called so,
and at `start` those inside it.  It leaves `after` open; `finished` holds the elements that ended. -/
def ClosesInnermost (name : Text) (start stop : Nat) (before after finished : List Head) : Prop :=
  ∃ inside e, before = inside ++ e :: after ∧ e.tag = name ∧ (∀ h ∈ inside, h.tag ≠ name) ∧
    { e with stop } ∈ finished ∧ ∀ h ∈ inside, { h with stop := start } ∈ finished

namespace ClosesInnermost

variable {name : Text} {start stop : Nat} {before after finished : List Head}

theorem mono {finished' : List Head} (h : ClosesInnermost name start stop before after finished)
    (hsub : finished ⊆ finished') : ClosesInnermost name start stop before after finished' := by
  obtain ⟨inside, e, hbefore, htag, hinside, hends, hcut⟩ := h
  exact ⟨inside, e, hbefore, htag, hinside, hsub hends, fun h hh => hsub (hcut h hh)⟩

/-- What is left open are the elements around the one that ends. -/
theorem after_eq (h : ClosesInnermost name start stop before after finished) :
    after = (before.dropWhile fun h => h.tag ≠ name).tail := by
  obtain ⟨inside, e, rfl, htag, hinside, -⟩ := h
  rw [List.dropWhile_append_of_pos fun h hh => decide_eq_true (hinside h hh),
    List.dropWhile_cons_of_neg (by rw [decide_eq_true_iff]; exact not_not_intro htag), List.tail_cons]

end ClosesInnermost

/-- **An end tag ends the innermost element of its name**, together with everything inside it. -/
theorem Builder.closeThrough_closes {b : Builder} {tag : Text} {start stop : Nat}
    (hopen : ∃ f ∈ b.frames, f.head.tag = tag) :
    let after := b.closeThrough tag start stop
    ClosesInnermost tag start stop b.opened after.opened after.heads ∧ b.heads ⊆ after.heads ∧
      after.warnings = b.warnings := by
  dsimp only
  fun_induction closeThrough b tag start stop with
  | case1 b hframes =>
    obtain ⟨f, hf, _⟩ := hopen
    rw [hframes] at hf
    cases hf
  | case2 b f outer hframes htag =>
    refine ⟨⟨[], f.head, ?_, htag, fun _ hnone => absurd hnone List.not_mem_nil, ?_,
      fun _ hnone => absurd hnone List.not_mem_nil⟩, b.heads_closeInnermost stop,
      b.warnings_closeInnermost stop⟩
    · rw [opened_closeInnermost hframes]
      unfold opened
      rw [hframes]
      rfl
    · exact (mem_heads_closeInnermost hframes stop).2 (.inr rfl)
  | case3 b f outer hframes htag ih =>
    -- the element to end is not the innermost one, so it is among those around it
    have hopened := opened_closeInnermost hframes start
    have houter : ∃ g ∈ (b.closeInnermost start).frames, g.head.tag = tag := by
      obtain ⟨g, hg, hgtag⟩ := hopen
      rw [hframes] at hg
      rcases List.mem_cons.1 hg with rfl | hg
      · exact absurd hgtag htag
      · have hmem : g.head ∈ (b.closeInnermost start).opened := by
          rw [hopened]
          exact List.mem_map_of_mem hg
        obtain ⟨g', hg', hsame⟩ := List.mem_map.1 hmem
        exact ⟨g', hg', by rw [hsame]; exact hgtag⟩
    obtain ⟨⟨inside, e, hbefore, hetag, hinside, hends, hcut⟩, hkeeps, hwarnings⟩ := ih houter
    refine ⟨⟨f.head :: inside, e, ?_, hetag, ?_, hends, ?_⟩, ?_, ?_⟩
    · rw [List.cons_append, ← hbefore, hopened]
      unfold opened
      rw [hframes]
      rfl
    · exact List.forall_mem_cons.2 ⟨htag, hinside⟩
    · exact List.forall_mem_cons.2
        ⟨hkeeps ((mem_heads_closeInnermost hframes start).2 (.inr rfl)), hcut⟩
    · exact fun h hh => hkeeps (b.heads_closeInnermost start hh)
    · rw [hwarnings, warnings_closeInnermost]

/-! ## Open elements and stray end tags -/

/-- The head of a start tag. -/
def tagHead (masked src : Text) (start : Nat) (tok : Token) (name : Text) (selfClosing : Bool) : Head :=
  { kind := .element
    tag := name
    attrs := attributes masked src start (start + tok.size)
    start := start
    stop := start + tok.size
    openEnd := start + tok.size
    selfClosing := selfClosing }

/-- The elements that are open after a token, innermost first.  A start tag opens an element, unless it is
void or closes itself; an end tag ends the innermost element of its name with everything inside it, if one is
open. -/
def openedAfter (masked src : Text) (opened : List Head) (start : Nat) (tok : Token) : List Head :=
  match tok.kind with
  | .startTag name selfClosing =>
    if selfClosing || voidElements.contains name then opened
    else tagHead masked src start tok name selfClosing :: opened
  | .endTag name =>
    if voidElements.contains name || !opened.any fun h => h.tag = name then opened
    else (opened.dropWhile fun h => h.tag ≠ name).tail
  | .text | .comment | .doctype => opened

/-- The elements that are open after some tokens. -/
def openedBy (masked src : Text) (opened : List Head) (start : Nat) : List Token → List Head
  | [] => opened
  | tok :: rest =>
    openedBy masked src (openedAfter masked src opened start tok) (start + tok.size) rest

/-- The warning for an end tag that is not void and ends no open element. -/
def stray? (opened : List Head) (start : Nat) (tok : Token) : Option Warning :=
  match tok.kind with
  | .endTag name =>
    if voidElements.contains name || opened.any fun h => h.tag = name then none
    else some (unexpectedClosing name start)
  | .startTag .. | .text | .comment | .doctype => none

/-- The warnings for the stray end tags among some tokens. -/
def strays (masked src : Text) (opened : List Head) (start : Nat) : List Token → List Warning
  | [] => []
  | tok :: rest =>
    (stray? opened start tok).toList ++
      strays masked src (openedAfter masked src opened start tok) (start + tok.size) rest

namespace Builder

section Tokens

variable {b : Builder} (masked src : Text) (start : Nat) (tok : Token)

/-- Whether an element of a name is open. -/
theorem any_frames (b : Builder) (name : Text) :
    (b.frames.any fun f => f.head.tag = name) = b.opened.any fun h => h.tag = name := by
  unfold opened
  rw [List.any_map]
  rfl

/-- **What one token does** to the open elements, to the warnings and to what is finished. -/
theorem add_spec (b : Builder) :
    let after := b.add masked src start tok
    after.opened = openedAfter masked src b.opened start tok ∧
      after.warnings = b.warnings ++ (stray? b.opened start tok).toList ∧ b.heads ⊆ after.heads := by
  -- a node without children only adds itself
  have hleaf (h : Head) : (b.push (.mk h [])).opened = b.opened ∧
      (b.push (.mk h [])).warnings = b.warnings ++ [] ∧ b.heads ⊆ (b.push (.mk h [])).heads :=
    ⟨opened_push .., by rw [warnings_push, List.append_nil],
      fun _ hh => (mem_heads_push ..).2 (.inl hh)⟩
  dsimp only
  unfold add openedAfter stray?
  dsimp only
  cases hkind : tok.kind with
  | text => exact hleaf _
  | comment => exact hleaf _
  | doctype => exact hleaf _
  | startTag name selfClosing =>
    dsimp only
    unfold Builder.start
    dsimp only
    by_cases hchildless : (selfClosing || voidElements.contains name) = true
    · rw [if_pos hchildless, if_pos hchildless]
      exact hleaf _
    · rw [if_neg hchildless, if_neg hchildless]
      refine ⟨rfl, (List.append_nil _).symm, fun h hh => ?_⟩
      unfold heads at hh ⊢
      rwa [List.flatMap_cons, Node.walkAll, List.nil_append]
  | endTag name =>
    dsimp only
    unfold close
    rw [any_frames]
    cases hvoid : voidElements.contains name with
    | true => exact ⟨rfl, (List.append_nil _).symm, fun _ hh => hh⟩
    | false =>
      cases hopen : b.opened.any fun h => h.tag = name with
      | true =>
        have hframe : ∃ f ∈ b.frames, f.head.tag = name := by
          rw [← any_frames] at hopen
          obtain ⟨f, hf, htag⟩ := List.any_eq_true.1 hopen
          exact ⟨f, hf, of_decide_eq_true htag⟩
        obtain ⟨hcloses, hkeeps, hwarnings⟩ :=
          @closeThrough_closes b name start (start + tok.size) hframe
        exact ⟨hcloses.after_eq, hwarnings.trans (List.append_nil _).symm, hkeeps⟩
      | false => exact ⟨rfl, rfl, fun _ hh => hh⟩

/-- **What a run of tokens does** to the open elements, to the warnings and to what is finished. -/
theorem addAll_spec (toks : List Token) (b : Builder) (start : Nat) :
    let after := b.addAll masked src start toks
    after.opened = openedBy masked src b.opened start toks ∧
      after.warnings = b.warnings ++ strays masked src b.opened start toks ∧
      b.heads ⊆ after.heads := by
  induction toks generalizing b start with
  | nil => exact ⟨rfl, (List.append_nil _).symm, fun _ hh => hh⟩
  | cons tok rest ih =>
    obtain ⟨hopened, hwarnings, hkeeps⟩ := b.add_spec masked src start tok
    obtain ⟨hopenedAll, hwarningsAll, hkeepsAll⟩ := ih (b.add masked src start tok) (start + tok.size)
    rw [hopened] at hopenedAll hwarningsAll
    refine ⟨hopenedAll, ?_, fun h hh => hkeepsAll (hkeeps hh)⟩
    rw [addAll, hwarningsAll, hwarnings, strays, List.append_assoc]

theorem addAll_append (before after : List Token) (b : Builder) (start : Nat) :
    b.addAll masked src start (before ++ after) =
      (b.addAll masked src start before).addAll masked src (start + sumOf (before.map (·.size))) after := by
  induction before generalizing b start with
  | nil => rfl
  | cons tok rest ih =>
    rw [List.cons_append, addAll, ih, addAll, List.map_cons, sumOf_cons, Nat.add_assoc]

/-- Ending all elements finishes them, and keeps the rest. -/
theorem finish_spec (b : Builder) (stop : Nat) :
    let after := b.finish stop
    after.warnings = b.warnings ∧ b.heads ⊆ after.heads ∧
      ∀ h ∈ b.opened, { h with stop } ∈ after.heads := by
  dsimp only
  fun_induction finish b stop with
  | case1 b hempty =>
    refine ⟨rfl, fun _ hh => hh, fun h hh => ?_⟩
    rw [opened, List.isEmpty_iff.1 hempty] at hh
    cases hh
  | case2 b hne ih =>
    obtain ⟨hwarnings, hkeeps, hends⟩ := ih
    obtain ⟨f, outer, hframes⟩ :=
      List.exists_cons_of_ne_nil (fun hnil => hne (List.isEmpty_iff.2 hnil))
    refine ⟨hwarnings.trans (b.warnings_closeInnermost stop),
      fun h hh => hkeeps (b.heads_closeInnermost stop hh), fun h hh => ?_⟩
    rw [opened_closeInnermost hframes] at hends
    rw [opened, hframes] at hh
    rcases List.mem_cons.1 hh with rfl | hh
    · exact hkeeps ((mem_heads_closeInnermost hframes stop).2 (.inr rfl))
    · exact hends h hh

/-- An end tag of an open element ends it. -/
theorem add_closes {name : Text} (b : Builder) (hkind : tok.kind = .endTag name)
    (hvoid : name ∉ voidElements) (hopen : ∃ h ∈ b.opened, h.tag = name) :
    ClosesInnermost name start (start + tok.size) b.opened (b.add masked src start tok).opened
      (b.add masked src start tok).heads := by
  obtain ⟨h, hh, htag⟩ := hopen
  obtain ⟨f, hf, rfl⟩ := List.mem_map.1 hh
  have hadd : b.add masked src start tok = b.closeThrough name start (start + tok.size) := by
    unfold add
    rw [hkind]
    dsimp only
    unfold close
    rw [if_neg fun hmem => hvoid (List.contains_iff_mem.1 hmem),
      if_pos (List.any_eq_true.2 ⟨f, hf, decide_eq_true htag⟩)]
  rw [hadd]
  exact (closeThrough_closes ⟨f, hf, htag⟩).1

/-- **An end tag of an open element ends it**, wherever it stands in a run, and what it has ended stays so. -/
theorem addAll_closes (before after : List Token) {tok : Token} {name : Text}
    (hkind : tok.kind = .endTag name) (hvoid : name ∉ voidElements)
    (hopen : ∃ h ∈ openedBy masked src [] 0 before, h.tag = name) :
    let start := sumOf (before.map (·.size))
    ClosesInnermost name start (start + tok.size) (openedBy masked src [] 0 before)
      (openedBy masked src [] 0 (before ++ [tok]))
      (Builder.addAll masked src {} 0 (before ++ tok :: after)).heads := by
  intro start
  obtain ⟨hbefore, -⟩ := addAll_spec masked src before {} 0
  obtain ⟨hbeside, -⟩ := addAll_spec masked src (before ++ [tok]) {} 0
  rw [addAll_append, Nat.zero_add] at hbeside
  rw [addAll_append, Nat.zero_add]
  generalize Builder.addAll masked src {} 0 before = b at hbefore hbeside ⊢
  have hstays := (addAll_spec masked src after (b.add masked src start tok) (start + tok.size)).2.2
  have hcloses := b.add_closes masked src start tok hkind hvoid (hbefore ▸ hopen)
  rw [show (b.add masked src start tok).opened = _ from hbeside, hbefore] at hcloses
  exact hcloses.mono hstays

end Tokens

end Builder

/-! ## Tokenizers -/

/-- The tokens are consecutive pieces of the input, up to some place. -/
def Tokenizes (lex : Text → List Token) : Prop := ∀ t, sumOf ((lex t).map (·.size)) ≤ t.length

/-- Reads a template as HTML, with the tokens that `lex` finds. -/
def parseWith (lex : Text → List Token) (src : Text) : Document := ofTokens (mask src) src (lex (mask src))

theorem tokenizes_tokens : Tokenizes tokens := by
  have hfrom (raw : Option Text) (t : Text) : sumOf ((tokensFrom raw t).map (·.size)) ≤ t.length := by
    fun_induction tokensFrom raw t with
    | case1 raw t hnone => exact Nat.zero_le _
    | case2 raw t kind rest hnext hless ih =>
      rw [List.map_cons, sumOf_cons]
      dsimp only
      omega
    | case3 raw t kind rest hnext hless => exact Nat.zero_le _
  exact hfrom none

/-- **The tree of elements is well-formed, and its stray end tags are reported once.**  Whatever tokens are
read from the masked source, as long as they are consecutive pieces of it: nodes stand where they should and
those that cannot have children have none; the warnings are those for the end tags, in order, of which no
element is open; any other end tag ends the innermost open element of its name together with what is open
inside; and what is never ended runs to the end of the source. -/
theorem parseWith_wellFormed (lex : Text → List Token) (hlex : Tokenizes lex) (src : Text) :
    let masked := mask src
    let toks := lex masked
    let doc := parseWith lex src
    doc.root.Everywhere (Node.WellFormed src.length) ∧
      doc.warnings = strays masked src [] 0 toks ∧
      (∀ before tok after name, toks = before ++ tok :: after → tok.kind = .endTag name →
        name ∉ voidElements → (∃ h ∈ openedBy masked src [] 0 before, h.tag = name) →
        let start := sumOf (before.map (·.size))
        ClosesInnermost name start (start + tok.size) (openedBy masked src [] 0 before)
          (openedBy masked src [] 0 (before ++ [tok])) doc.root.walk) ∧
      ∀ h ∈ openedBy masked src [] 0 toks, { h with stop := src.length } ∈ doc.root.walk := by
  intro masked toks doc
  have hsize : 0 + sumOf (toks.map (·.size)) ≤ src.length := by
    rw [Nat.zero_add]
    exact Nat.le_trans (hlex masked) (Nat.le_of_eq (length_maskFrom false src))
  obtain ⟨hopened, hwarnings, -⟩ := Builder.addAll_spec masked src toks {} 0
  obtain ⟨hkept, hstays, hends⟩ :=
    (Builder.addAll masked src {} 0 toks).finish_spec src.length
  -- all that was finished stands below the document
  have hroot {h : Head} (hh : h ∈ ((Builder.addAll masked src {} 0 toks).finish src.length).heads) :
      h ∈ doc.root.walk := by
    have hnone := (Builder.finish_induction (P := fun _ => True) src.length (fun _ _ => trivial)
      (Builder.addAll masked src {} 0 toks) trivial).2
    unfold Builder.heads at hh
    rw [hnone, List.flatMap_nil, List.append_nil] at hh
    exact List.mem_cons_of_mem _ hh
  refine ⟨?_, hkept.trans hwarnings, ?_, fun h hh => hroot (hends h (hopened ▸ hh))⟩
  · have hempty : ({} : Builder).Placed src.length 0 := Row.nil (Nat.le_refl _)
    have hrow := (hempty.addAll masked src hsize).finish hsize
    refine Row.node hrow (Nat.le_refl _) (Nat.le_refl _) ?_
    have hnotvoid : ([] : Text) ∉ voidElements := by decide
    rintro (hself | hvoid)
    · cases hself
    · exact absurd hvoid hnotvoid
  · intro before tok after name htoks hkind hvoid hopen
    have hcloses := Builder.addAll_closes masked src before after hkind hvoid hopen
    rw [← htoks] at hcloses
    exact hcloses.mono fun h hh => hroot (hstays hh)

/-- A list with an item that has no end tag, the end tags of a void element and of an element that is not
open, and a paragraph that is not ended. -/
def listPage : Text := "<ul><li>a</br></em></ul><p>b"

/-- The end tag of the list ends the item too, where it starts; one of the other end tags is reported. -/
theorem parseWith_wellFormed_list :
    let opened := openedBy (mask listPage) listPage [] 0
    let before := (tokens (mask listPage)).take 5
    let list : Token := ⟨.endTag "ul", 5⟩
    (parse listPage).root.Everywhere (Node.WellFormed listPage.length) ∧
      (parse listPage).warnings = [unexpectedClosing "em" 14] ∧
      (opened before).map (·.tag) = (["li", "ul"] : List Text) ∧
      ClosesInnermost "ul" 19 24 (opened before) (opened (before ++ [list])) (parse listPage).root.walk ∧
      (parse listPage).root.walk.map (fun h => (h.tag, h.start, h.stop)) =
        ([([], 0, 28), ("ul", 0, 24), ("li", 4, 19), ([], 8, 9), ("p", 24, 28), ([], 27, 28)] :
          List (Text × Nat × Nat)) := by
  intro opened before list
  obtain ⟨hplaced, -, hcloses, -⟩ := parseWith_wellFormed tokens tokenizes_tokens listPage
  have htokens : tokens (mask listPage) =
      before ++ list :: [⟨.startTag "p" false, 3⟩, ⟨.text, 1⟩] := by decide +kernel
  have hopened : (opened before).map (·.tag) = (["li", "ul"] : List Text) := by decide +kernel
  have hopen : ∃ h ∈ opened before, h.tag = ("ul" : Text) := by
    refine List.mem_map.1 ?_
    rw [hopened]
    decide
  have hstart : sumOf (before.map (·.size)) = 19 := by decide +kernel
  have hends := hcloses before list _ "ul" htokens rfl (by decide) hopen
  dsimp only at hends
  rw [hstart] at hends
  exact ⟨hplaced, by decide +kernel, hopened, hends, by decide +kernel⟩

end Markup
end LiquidLint
