import LiquidLint.Proofs.CommentBodies

/-!
# Where verbatim blocks end

The body of a `raw` or `comment` tag with delimiters of its own is cut from the bytes of the source, its
end tag is read again as any other tag, and the stack of open blocks decides what that tag closes.  The
three agree: such a block holds text only, and it ends at the first bare end tag that is not taken by a
comment inside it, or with the source when there is none (`verbatim_root`).

What an open block waits for is a fact about the tokens that are left (`Awaits`), and each verbatim tag
announces it when it is read (`Announces`).
-/

namespace LiquidLint
namespace Liquid

/-! ## Bodies -/

/-- How many bare tags `name` start among the first `k` bytes of `t`. -/
def bareCount (name t : Text) (k : Nat) : Nat :=
  (List.range k).countP fun i => bareTag? (t.drop i) = some name

/-- The body of a verbatim block `block` that starts with `t` may end at the offset `k` of `t`: its bare
end tag stands there, and the bare tags of the comments inside a comment are balanced before it.  What
a bare tag looks like is said by `bareTag?_eq_some_iff`. -/
structure MayEnd (block t : Text) (k : Nat) : Prop where
  bare : bareTag? (t.drop k) = some ("end" ++ block)
  balanced : block = ("comment" : Text) → bareCount "endcomment" t k = bareCount "comment" t k

@[simp] theorem bareCount_zero (name t : Text) : bareCount name t 0 = 0 := rfl

theorem bareCount_cons (name : Text) (b : UInt8) (t : Text) (k : Nat) :
    bareCount name (b :: t) (k + 1) =
      (if bareTag? (b :: t) = some name then 1 else 0) + bareCount name t k := by
  unfold bareCount
  rw [List.range_succ_eq_map, List.countP_cons, List.countP_map, Nat.add_comm]
  simp only [List.drop_zero, decide_eq_true_eq, Function.comp_def, List.drop_succ_cons]

theorem MayEnd.lt_length {block t : Text} {k : Nat} (h : MayEnd block t k) : k < t.length := by
  refine Nat.lt_of_not_le fun hle => ?_
  have hbare := h.bare
  rw [List.drop_of_length_le hle] at hbare
  cases hbare

/-- Behind `depth` open comments stand the `n` first bytes of `t`, in which no bare end tag ends the
comment around them all, and `rest`, which is empty or starts with the end tag that does. -/
structure CommentEnds (depth : Nat) (t : Text) (n : Nat) (rest : Text) : Prop where
  inside : ∀ k < n, bareTag? (t.drop k) = some ("endcomment" : Text) →
    bareCount "endcomment" t k < depth + bareCount "comment" t k
  ending : rest = [] ∨ bareTag? rest = some ("endcomment" : Text) ∧
    bareCount "endcomment" t n = depth + bareCount "comment" t n

/-- One byte more in front, where a comment inside may open or close. -/
theorem CommentEnds.cons {depth depth' n : Nat} {b : UInt8} {t rest : Text}
    (h : CommentEnds depth' t n rest) (hhead : bareTag? (b :: t) = some ("endcomment" : Text) → 0 < depth)
    (hdepth : depth' + (if bareTag? (b :: t) = some ("endcomment" : Text) then 1 else 0) =
      depth + if bareTag? (b :: t) = some ("comment" : Text) then 1 else 0) :
    CommentEnds depth (b :: t) (n + 1) rest := by
  refine ⟨fun k hk hbare => ?_, h.ending.imp_right fun ⟨hbare, hcount⟩ => ⟨hbare, ?_⟩⟩
  · cases k with
    | zero => exact hhead hbare
    | succ k =>
      have hinside := h.inside k (Nat.lt_of_succ_lt_succ hk) hbare
      rw [bareCount_cons, bareCount_cons]
      omega
  · rw [bareCount_cons, bareCount_cons]
    omega

theorem commentEnds_commentBody {depth : Nat} {t rest : Text} (h : commentBody depth t ++ rest = t) :
    CommentEnds depth t (commentBody depth t).length rest := by
  have hnames : (some ("endcomment" : Text) : Option Text) ≠ some ("comment" : Text) := by decide
  fun_induction commentBody depth t with
  | case1 => exact ⟨fun _ hk => absurd hk (Nat.not_lt_zero _), .inl h⟩
  | case2 depth b t hopen ih =>
    -- the tests of `commentBody` read a name before they compare it, so they are restated here
    have hopen : bareTag? (b :: t) = some ("comment" : Text) := hopen
    have hclose : bareTag? (b :: t) ≠ some ("endcomment" : Text) := by
      rw [hopen]
      exact hnames.symm
    refine (ih (List.cons.inj h).2).cons (fun hbare => absurd hbare hclose) ?_
    rw [if_neg hclose, if_pos hopen]
  | case3 b t _ hclose =>
    refine ⟨fun _ hk => absurd hk (Nat.not_lt_zero _), .inr ⟨?_, rfl⟩⟩
    rw [← h] at hclose
    exact hclose
  | case4 b t hopen hclose depth ih =>
    have hopen : ¬ bareTag? (b :: t) = some ("comment" : Text) := hopen
    have hclose : bareTag? (b :: t) = some ("endcomment" : Text) := hclose
    refine (ih (List.cons.inj h).2).cons (fun _ => Nat.succ_pos depth) ?_
    rw [if_pos hclose, if_neg hopen]
  | case5 depth b t hopen hclose ih =>
    have hopen : ¬ bareTag? (b :: t) = some ("comment" : Text) := hopen
    have hclose : ¬ bareTag? (b :: t) = some ("endcomment" : Text) := hclose
    refine (ih (List.cons.inj h).2).cons (fun hbare => absurd hbare hclose) ?_
    rw [if_neg hclose, if_neg hopen]

theorem bareTag?_ne_of_rawBody {t : Text} {k : Nat} (hk : k < (rawBody t).length) :
    bareTag? (t.drop k) ≠ some ("endraw" : Text) := by
  induction t generalizing k with
  | nil => exact absurd hk (Nat.not_lt_zero _)
  | cons b t ih =>
    rw [rawBody] at hk
    split at hk
    · exact absurd hk (Nat.not_lt_zero _)
    · rename_i hne
      cases k with
      | zero => exact hne
      | succ k => exact ih (Nat.lt_of_succ_lt_succ hk)

/-- The body of a verbatim block `block` that starts with `t` ends at the offset `k` of `t`, the first
one where it may. -/
structure EndsAt (block t : Text) (k : Nat) : Prop where
  mayEnd : MayEnd block t k
  first : ∀ j < k, ¬ MayEnd block t j

/-- **A verbatim body ends where it may end first**, or nowhere. -/
theorem verbatimBody_ends {tok : Token} {body rest : Text} (hkind : tok.kind = .tag)
    (hname : tok.name = ("raw" : Text) ∨ tok.name = ("comment" : Text))
    (h : verbatimBody tok (body ++ rest) = body) :
    EndsAt tok.name (body ++ rest) body.length ∨
      rest = [] ∧ ∀ k, ¬ MayEnd tok.name (body ++ rest) k := by
  have hends : (∀ k < body.length, ¬ MayEnd tok.name (body ++ rest) k) ∧
      (rest = [] ∨ MayEnd tok.name (body ++ rest) body.length) := by
    unfold verbatimBody at h
    rw [if_pos hkind] at h
    rcases hname with hname | hname
    · rw [hname, if_pos rfl] at h
      rw [hname]
      refine ⟨fun k hk hend => bareTag?_ne_of_rawBody (by rwa [h]) hend.bare,
        (after_rawBody (congrArg (· ++ rest) h)).imp_right fun hbare => ?_⟩
      exact ⟨by rw [List.drop_left]; exact hbare, nofun⟩
    · rw [hname, if_neg (by decide), if_pos rfl] at h
      have hcomment := commentEnds_commentBody (congrArg (· ++ rest) h)
      rw [h] at hcomment
      rw [hname]
      refine ⟨fun k hk hend => ?_,
        hcomment.ending.imp_right fun ⟨hbare, hcount⟩ => ⟨?_, fun _ => ?_⟩⟩
      · have hlt := hcomment.inside k hk hend.bare
        have hbalanced := hend.balanced rfl
        omega
      · rw [List.drop_left]
        exact hbare
      · rw [hcount, Nat.zero_add]
  obtain ⟨hfirst, rfl | hend⟩ := hends
  · refine .inr ⟨rfl, fun k hend => hfirst k ?_ hend⟩
    have hlt := hend.lt_length
    rwa [List.append_nil] at hlt
  · exact .inl ⟨hend, hfirst⟩

/-! ## What an open block waits for -/

/-- The tag opens a verbatim block and has delimiters of its own. -/
structure Token.OpensVerbatim (tok : Token) : Prop where
  kind_eq : tok.kind = .tag
  delimited : tok.inLiquid = false
  name_eq : tok.name = ("raw" : Text) ∨ tok.name = ("comment" : Text)

/-- The end tag of a verbatim block `block`, whose body starts at the offset `lo`, stands from `start`
to `stop`: the first bare tag that may end the body. -/
structure EndTag (src block : Text) (lo start stop : Nat) : Prop where
  lo_le : lo ≤ start
  ends : EndsAt block (src.drop lo) (start - lo)
  bare : ∃ (i : BareInner ("end" ++ block)) (more : Text),
    src.drop start = Delimiter.tag.opener ++ (i.inner.text ++ (Delimiter.tag.closer ++ more)) ∧
      stop = start + i.inner.text.length + 4

/-- The tokens go on with text up to the end tag of a verbatim block whose body starts at `lo`.  Without
that tag they reach to `stop`, the end of the source. -/
def Awaits (src block : Text) (lo stop : Nat) : List Token → Prop
  | [] => stop = src.length ∧ ∀ k, ¬ MayEnd block (src.drop lo) k
  | tok :: rest =>
    tok.kind = .text ∧ Awaits src block lo stop rest ∨
      tok.Ends block ∧ EndTag src block lo tok.start tok.stop

/-- Behind each verbatim tag the tokens are as its block awaits them. -/
def Announces (src : Text) (stop : Nat) : List Token → Prop
  | [] => True
  | tok :: rest =>
    (tok.OpensVerbatim → Awaits src tok.name tok.stop stop rest) ∧ Announces src stop rest

section Announced

variable {src block : Text} {lo start stop : Nat} {t : Text} {toks : List Token}

theorem Awaits.textTokens_append (h : Awaits src block lo stop toks) :
    Awaits src block lo stop (textTokens start t ++ toks) := by
  unfold textTokens
  split
  · exact h
  · exact .inl ⟨rfl, h⟩

theorem Announces.textTokens_append (h : Announces src stop toks) :
    Announces src stop (textTokens start t ++ toks) := by
  unfold textTokens
  split
  · exact h
  · exact ⟨fun hverbatim => (nomatch hverbatim.kind_eq), h⟩

/-- The lines of a `liquid` tag have no verbatim bodies. -/
theorem announces_of_lines (h : ∀ tok ∈ toks, tok.kind = .tag ∧ tok.inLiquid = true) :
    Announces src stop toks := by
  induction toks with
  | nil => trivial
  | cons tok rest ih =>
    refine ⟨fun hverbatim => ?_, ih fun tok' htok => h tok' (List.mem_cons_of_mem _ htok)⟩
    exact nomatch (h tok (List.mem_cons_self ..)).2.symm.trans hverbatim.delimited

theorem drop_add_length {p z : Text} (h : src.drop start = p ++ z) :
    src.drop (start + p.length) = z := by
  rw [← List.drop_drop, h, List.drop_left]

/-- **Each verbatim tag is read with its body behind it**, and the end tag behind that. -/
theorem Reads.announces {t : Text} (h : Reads start t toks) (ht : src.drop start = t) :
    Announces src src.length toks := by
  induction h with
  | @plain start t _ =>
    rw [← List.append_nil (textTokens start t)]
    have hnil : Announces src src.length [] := trivial
    exact hnil.textTokens_append
  | @unterminated start before junk rest d toks _ _ _ _ ih =>
    refine Announces.textTokens_append ⟨fun hverbatim => (nomatch hverbatim.kind_eq), ih ?_⟩
    have hdrop := @drop_add_length src start (before ++ (d.opener ++ junk)) rest
      (by rw [ht, List.append_assoc, List.append_assoc])
    rw [← hdrop]
    congr 1
    simp only [List.length_append, Delimiter.length_opener]
    omega
  | @delimited start before inner body rest d toks _ _ hbody hrest ih =>
    have hopenEnd : src.drop (start + before.length + inner.length + 4) = body ++ rest := by
      have hdrop := @drop_add_length src start (before ++ (d.opener ++ (inner ++ d.closer)))
        (body ++ rest) (by rw [ht]; simp only [List.append_assoc])
      rw [← hdrop]
      congr 1
      simp only [List.length_append, Delimiter.length_opener, Delimiter.length_closer]
      omega
    refine Announces.textTokens_append
      ⟨fun hverbatim => ?_, (ih (drop_add_length hopenEnd)).textTokens_append⟩
    refine Awaits.textTokens_append ?_
    rw [Token.stop_delimited]
    rcases verbatimBody_ends hverbatim.kind_eq hverbatim.name_eq hbody with hends | ⟨rfl, hnone⟩
    · have hbare := hends.mayEnd.bare
      rw [List.drop_left] at hbare
      have hne := List.append_ne_nil_of_left_ne_nil (show ("end" : Text) ≠ [] by decide)
        (Token.delimited d (start + before.length) inner).name
      obtain ⟨i, more, hmore⟩ := (bareTag?_eq_some_iff hne).1 hbare
      have hend := drop_add_length hopenEnd
      rw [hmore] at hrest hend
      obtain ⟨toks, rfl⟩ := hrest.head_of_bare i
      refine .inr ⟨⟨rfl, i.name_delimited hne _⟩, ?_, ?_, i, more, ?_, ?_⟩
      · rw [Token.start_delimited]
        exact Nat.le_add_right _ _
      · rwa [Token.start_delimited, Nat.add_sub_cancel_left, hopenEnd]
      · rwa [Token.start_delimited]
      · rw [Token.start_delimited, Token.stop_delimited]
    · rw [hrest.nil_of_nil]
      exact ⟨rfl, by rwa [hopenEnd]⟩

end Announced

/-! ## Finished nodes -/

/-- The node is a verbatim block whose tag has delimiters of its own. -/
structure Head.IsVerbatim (h : Head) : Prop where
  block_eq : h.block = true
  delimited : h.inLiquid = false
  name_eq : h.name = ("raw" : Text) ∨ h.name = ("comment" : Text)

/-- A verbatim block ends with its end tag, or with the source when its body has no end. -/
inductive Head.EndsIn (src : Text) (h : Head) : Prop where
  | closed {close : Nat} (closed_eq : h.closed = true) (closeStart_eq : h.closeStart = some close)
      (endTag : EndTag src h.name h.openEnd close h.stop)
  | unclosed (closed_eq : h.closed = false) (closeStart_eq : h.closeStart = none)
      (stop_eq : h.stop = src.length) (endless : ∀ k, ¬ MayEnd h.name (src.drop h.openEnd) k)

/-- A verbatim block holds text only, and ends where its body does. -/
def Node.KeepsBody (src : Text) (n : Node) : Prop :=
  n.head.IsVerbatim → (∀ c ∈ n.children, c.IsRaw) ∧ n.head.EndsIn src

/-- The verbatim blocks are as they should be, everywhere in a tree. -/
def Node.Verbatim (src : Text) (n : Node) : Prop := n.Everywhere (Node.KeepsBody src)

section Finished

variable {src : Text} {h : Head} {cs : List Node}

theorem verbatim_mk (hh : h.IsVerbatim → (∀ c ∈ cs, c.IsRaw) ∧ h.EndsIn src)
    (hcs : ∀ c ∈ cs, c.Verbatim src) : (Node.mk h cs).Verbatim src := .mk hh hcs

/-- What is no block is no verbatim block. -/
theorem verbatim_mk_of_not_block (hh : h.block = false) (hcs : ∀ c ∈ cs, c.Verbatim src) :
    (Node.mk h cs).Verbatim src :=
  verbatim_mk (fun hverbatim => (nomatch hh.symm.trans hverbatim.block_eq)) hcs

theorem verbatim_leaf (hh : h.block = false) : (Node.leaf h).Verbatim src :=
  verbatim_mk_of_not_block hh fun _ hc => (List.not_mem_nil hc).elim

end Finished

/-! ## Open blocks -/

/-- What is finished in an open block is as it should be. -/
structure Frame.Verbatim (src : Text) (f : Frame) : Prop
    extends f.Finished (fun h => h.block = false) (Node.Verbatim src) where
  fresh : f.block.closed = false ∧ f.block.closeStart = none

/-- So far an open block holds text only. -/
structure Frame.HoldsText (f : Frame) : Prop where
  branch : f.branch = none
  done : ∀ n ∈ f.done, n.IsRaw

/-- An open verbatim block holds text only and waits for its end tag. -/
structure Frame.Waits (src : Text) (stop : Nat) (toks : List Token) (f : Frame) : Prop
    extends f.HoldsText where
  awaits : Awaits src f.block.name f.block.openEnd stop toks

section Open

variable {src : Text} {stop : Nat} {f : Frame} {n : Node} {tok : Token}

namespace Frame.Verbatim

/-- An open branch is no block. -/
theorem branch_verbatim (stop : Nat) (h : Head) (cs : List Node) (hblock : h.block = false)
    (hcs : ∀ n ∈ cs, n.Verbatim src) : (Node.mk { h with stop := stop } cs).Verbatim src :=
  verbatim_mk_of_not_block hblock hcs

theorem push (h : f.Verbatim src) (hn : n.Verbatim src) : (f.push n).Verbatim src :=
  ⟨h.toFinished.push hn, by rw [Frame.block_push]; exact h.fresh⟩

theorem childrenAt (h : f.Verbatim src) (stop : Nat) : ∀ n ∈ f.childrenAt stop, n.Verbatim src :=
  h.toFinished.childrenAt (branch_verbatim stop)

theorem openBranch (h : f.Verbatim src) (tok : Token) : (f.openBranch tok).Verbatim src :=
  ⟨h.toFinished.openBranch rfl (branch_verbatim tok.start), h.fresh⟩

end Frame.Verbatim

namespace Frame.HoldsText

theorem childrenAt (h : f.HoldsText) (pos : Nat) : ∀ n ∈ f.childrenAt pos, n.IsRaw := by
  unfold Frame.childrenAt
  rw [h.branch]
  exact h.done

theorem push (h : f.HoldsText) (hn : n.IsRaw) : (f.push n).HoldsText := by
  unfold Frame.push
  rw [h.branch]
  exact ⟨rfl, List.forall_mem_append.2 ⟨h.done, List.forall_mem_singleton.2 hn⟩⟩

end Frame.HoldsText

/-- A block that is cut short is no verbatim one, or its body has no end. -/
theorem Frame.Verbatim.cutShort (h : f.Verbatim src)
    (hwaits : f.block.IsVerbatim → f.Waits src stop []) : (f.cutShort stop).Verbatim src := by
  refine verbatim_mk (fun hverbatim => ?_) (h.childrenAt stop)
  have hwaits := hwaits ⟨hverbatim.block_eq, hverbatim.delimited, hverbatim.name_eq⟩
  obtain ⟨hstop, hendless⟩ := hwaits.awaits
  exact ⟨hwaits.toHoldsText.childrenAt stop, .unclosed h.fresh.1 h.fresh.2 hstop hendless⟩

/-- A block that is closed is no verbatim one, or its end tag closes it. -/
theorem Frame.Verbatim.closeWith (h : f.Verbatim src)
    (hends : f.block.IsVerbatim → f.HoldsText ∧
      EndTag src f.block.name f.block.openEnd tok.start tok.stop) : (f.closeWith tok).Verbatim src := by
  refine verbatim_mk (fun hverbatim => ?_) (h.childrenAt tok.start)
  obtain ⟨htext, hend⟩ := hends ⟨hverbatim.block_eq, hverbatim.delimited, hverbatim.name_eq⟩
  exact ⟨htext.childrenAt tok.start, .closed rfl rfl hend⟩

end Open

/-- What is finished in the tree under construction is as it should be.  No block is open in a verbatim
one, and if the innermost block is verbatim then `Waits` holds of it. -/
structure Builder.Verbatim (src : Text) (Waits : Frame → Prop) (b : Builder) : Prop where
  done : ∀ n ∈ b.done, n.Verbatim src
  frames : ∀ f ∈ b.frames, f.Verbatim src
  inner : ∀ f outer, b.frames = f :: outer → f.block.IsVerbatim → Waits f
  outer : ∀ f ∈ b.frames.tail, ¬ f.block.IsVerbatim

/-- No verbatim block is open. -/
abbrev Builder.Outside (src : Text) (b : Builder) : Prop := b.Verbatim src fun _ => False

namespace Builder.Verbatim

variable {src : Text} {W W' : Frame → Prop} {b : Builder} {f : Frame} {outer : List Frame} {n : Node}
  {tok : Token} {stop : Nat}

theorem empty (ws : List Warning) : ({ warnings := ws } : Builder).Verbatim src W :=
  ⟨fun _ hn => (List.not_mem_nil hn).elim, fun _ hf => (List.not_mem_nil hf).elim,
    fun _ _ hframes => (nomatch hframes), fun _ hf => (List.not_mem_nil hf).elim⟩

theorem of_inner (h : b.Verbatim src W)
    (hinner : ∀ f outer, b.frames = f :: outer → f.block.IsVerbatim → W' f) : b.Verbatim src W' :=
  ⟨h.done, h.frames, hinner, h.outer⟩

theorem not_isVerbatim (h : b.Outside src) : ∀ f ∈ b.frames, ¬ f.block.IsVerbatim := by
  have houter := h.outer
  cases hframes : b.frames with
  | nil => exact fun _ hf => (List.not_mem_nil hf).elim
  | cons f outer =>
    rw [hframes] at houter
    intro f' hf'
    rcases List.mem_cons.1 hf' with rfl | hf'
    · exact h.inner f' outer hframes
    · exact houter f' hf'

theorem of_outside (h : b.Outside src) : b.Verbatim src W :=
  h.of_inner fun f outer hframes hverbatim => (h.inner f outer hframes hverbatim).elim

theorem push (h : b.Verbatim src W) (hn : n.Verbatim src) (hpush : ∀ f, W f → W' (f.push n)) :
    (b.push n).Verbatim src W' := by
  obtain ⟨hdone, hframes⟩ := forall_push h.done h.frames hn fun _ _ _ hf => hf.push hn
  have houter := h.outer
  refine ⟨hdone, hframes, fun f' outer' hcons hverbatim => ?_, ?_⟩
  · unfold Builder.push at hcons
    cases hopen : b.frames with
    | nil =>
      rw [hopen] at hcons
      cases hcons
    | cons f outer =>
      rw [hopen] at hcons
      obtain ⟨rfl, _⟩ := List.cons.inj hcons
      rw [Frame.block_push] at hverbatim
      exact hpush f (h.inner f outer hopen hverbatim)
  · unfold Builder.push
    cases hopen : b.frames with
    | nil => exact fun _ hf => (List.not_mem_nil hf).elim
    | cons f outer => rwa [hopen] at houter

/-- No block around the innermost one is verbatim. -/
theorem outside_tail (h : b.Verbatim src W) (hframes : b.frames = f :: outer) (ws : List Warning) :
    ({ done := b.done, frames := outer, warnings := ws } : Builder).Outside src := by
  have hall := h.frames
  have houter := h.outer
  rw [hframes] at hall houter
  refine ⟨h.done, fun f' hf' => hall f' (List.mem_cons_of_mem _ hf'), fun f' _ hcons => ?_,
    fun f' hf' => houter f' (List.mem_of_mem_tail hf')⟩
  have hcons : outer = _ := hcons
  exact houter f' (by rw [List.tail_cons, hcons]; exact List.mem_cons_self ..)

theorem push_outside (h : b.Outside src) (hn : n.Verbatim src) : (b.push n).Outside src :=
  h.push hn fun _ hfalse => hfalse

theorem head (h : b.Verbatim src W) (hframes : b.frames = f :: outer) : f.Verbatim src :=
  h.frames f (by rw [hframes]; exact List.mem_cons_self ..)

theorem cutInnermost (h : b.Verbatim src W) (hframes : b.frames = f :: outer)
    (hwaits : f.block.IsVerbatim → f.Waits src stop []) : (b.cutInnermost stop).Outside src := by
  rw [cutInnermost_cons hframes]
  exact (h.outside_tail hframes _).push_outside ((h.head hframes).cutShort hwaits)

theorem finish (h : b.Verbatim src (Frame.Waits src stop [])) :
    ∀ n ∈ (b.finish stop).done, n.Verbatim src := by
  refine (finish_induction (P := Builder.Verbatim src (Frame.Waits src stop [])) stop
    (fun b f outer hframes h => ?_) b h).1.done
  exact (h.cutInnermost hframes (h.inner f outer hframes)).of_outside

theorem closeThrough {block : Text} (h : b.Outside src) (hopen : ∃ f ∈ b.frames, f.block.name = block) :
    (b.closeThrough block tok).Outside src := by
  refine closeThrough_induction (P := Builder.Outside src) (Q := Builder.Outside src)
    (fun b f outer hframes h => ?_) (fun b f outer hframes _ h => ?_) b hopen h
  · exact h.cutInnermost hframes fun hverbatim => (h.inner f outer hframes hverbatim).elim
  · refine (h.outside_tail hframes _).push_outside ((h.head hframes).closeWith fun hverbatim => ?_)
    exact (h.inner f outer hframes hverbatim).elim

/-- Outside of verbatim blocks, one token opens such a block or none. -/
theorem add_outside (h : b.Outside src)
    (hopens : tok.OpensVerbatim → W { block := { tok.head .tag with block := true } })
    (hlines : ∀ ws, ∀ n ∈ (addLines src ws tok).done, n.Verbatim src) :
    (b.add src tok).Verbatim src W := by
  have hadded := added_add src b tok
  generalize b.add src tok = after at hadded
  cases hadded with
  | leaf hleaf =>
    refine (h.push_outside ?_).of_outside
    cases hleaf <;> exact verbatim_leaf rfl
  | misfit d _ _ _ =>
    have hwarn : (b.warn d tok.start).Outside src := ⟨h.done, h.frames, h.inner, h.outer⟩
    exact (hwarn.push_outside (verbatim_leaf rfl)).of_outside
  | opens htag _ _ =>
    refine ⟨h.done, fun f' hf' => ?_, fun f' outer' hcons hverbatim => ?_, h.not_isVerbatim⟩
    · rcases List.mem_cons.1 hf' with rfl | hf'
      · exact ⟨⟨fun _ hn => (List.not_mem_nil hn).elim, fun _ _ hsome => nomatch hsome⟩, rfl, rfl⟩
      · exact h.frames f' hf'
    · obtain ⟨rfl, _⟩ := List.cons.inj hcons
      exact hopens ⟨htag.kind_eq, hverbatim.delimited, hverbatim.name_eq⟩
  | @branch f outer _ _ _ hframes _ =>
    have hne := h.not_isVerbatim
    have hall := h.frames
    rw [hframes] at hall hne
    refine ⟨h.done, fun f' hf' => ?_, fun f' outer' hcons hverbatim => ?_,
      fun f' hf' => hne f' (List.mem_cons_of_mem _ hf')⟩
    · rcases List.mem_cons.1 hf' with rfl | hf'
      · exact (hall f (List.mem_cons_self ..)).openBranch tok
      · exact hall f' (List.mem_cons_of_mem _ hf')
    · obtain ⟨rfl, _⟩ := List.cons.inj hcons
      exact absurd hverbatim (hne f (List.mem_cons_self ..))
  | closes _ _ hopen => exact (closeThrough h hopen).of_outside
  | stray _ _ _ => exact ⟨h.done, h.frames, fun f' outer' hframes hverbatim =>
      (h.inner f' outer' hframes hverbatim).elim, h.outer⟩
  | lines _ _ _ =>
    have hwarn : ({ b with warnings := (addLines src b.warnings tok).warnings } : Builder).Outside src :=
      ⟨h.done, h.frames, h.inner, h.outer⟩
    exact (hwarn.push_outside (verbatim_mk_of_not_block rfl (hlines b.warnings))).of_outside

/-- Inside a verbatim block, one token goes on with its text or is its end tag. -/
theorem add_inside {rest : List Token} (h : b.Verbatim src (Frame.Waits src stop (tok :: rest)))
    (hframes : b.frames = f :: outer) (hverbatim : f.block.IsVerbatim) :
    (b.add src tok).Verbatim src (Frame.Waits src stop rest) := by
  have hwaits := h.inner f outer hframes hverbatim
  rcases hwaits.awaits with ⟨hkind, hrest⟩ | ⟨hends, hendTag⟩
  · have hadd : b.add src tok = b.push (rawNode tok.start tok.stop tok.markup) := by
      unfold Builder.add
      rw [hkind]
    have hinner : b.Verbatim src fun f' => f' = f := by
      refine h.of_inner fun f' outer' hframes' _ => ?_
      exact (List.cons.inj (hframes'.symm.trans hframes)).1
    rw [hadd]
    refine hinner.push (verbatim_leaf rfl) fun f' hf' => ?_
    rw [hf']
    exact ⟨hwaits.toHoldsText.push ⟨rfl, rfl⟩, by rwa [Frame.block_push]⟩
  · have hblock : isBlockTag f.block.name = true := by
      have hblocks : isBlockTag "raw" = true ∧ isBlockTag "comment" = true := by decide
      rcases hverbatim.name_eq with hname | hname
      · rw [hname]
        exact hblocks.1
      · rw [hname]
        exact hblocks.2
    rw [add_of_ends hblock hends hframes]
    exact ((h.outside_tail hframes _).push_outside
      ((h.head hframes).closeWith fun _ => ⟨hwaits.toHoldsText, hendTag⟩)).of_outside

/-- **One token** leaves what an open verbatim block waits for to the rest of the tokens. -/
theorem add {rest : List Token} (h : b.Verbatim src (Frame.Waits src stop (tok :: rest)))
    (hannounced : tok.OpensVerbatim → Awaits src tok.name tok.stop stop rest)
    (hlines : ∀ ws, ∀ n ∈ (addLines src ws tok).done, n.Verbatim src) :
    (b.add src tok).Verbatim src (Frame.Waits src stop rest) := by
  by_cases hin : ∃ f outer, b.frames = f :: outer ∧ f.block.IsVerbatim
  · obtain ⟨f, outer, hframes, hverbatim⟩ := hin
    exact h.add_inside hframes hverbatim
  · have houtside : b.Outside src :=
      h.of_inner fun f outer hframes hverbatim => hin ⟨f, outer, hframes, hverbatim⟩
    refine houtside.add_outside (fun hverbatim => ?_) hlines
    exact ⟨⟨rfl, fun _ hn => (List.not_mem_nil hn).elim⟩, hannounced hverbatim⟩

theorem addTokens {toks : List Token} : ∀ {b : Builder} {stop : Nat},
    b.Verbatim src (Frame.Waits src stop toks) → Announces src stop toks →
    (b.addTokens src toks).Verbatim src (Frame.Waits src stop []) := by
  induction toks using tokens_induction with
  | nil =>
    intro b stop h _
    rwa [addTokens_nil]
  | cons tok rest ihlines ih =>
    intro b stop h hannounced
    rw [addTokens_cons]
    refine ih (h.add hannounced.1 fun ws => ?_) hannounced.2
    exact (ihlines (empty ws) (announces_of_lines fun line hline => kind_liquidLines hline)).finish

end Builder.Verbatim

/-- **Verbatim blocks stay verbatim.**  Comments hold text only; so does a `raw` or `comment` block
whose tag has delimiters of its own, and it ends at the first bare end tag of its body that closes no
comment inside it, or with the source when there is none. -/
theorem verbatim_root (src : Text) :
    (parse src).root.Everywhere fun n =>
      (n.head.IsComment → ∀ c ∈ n.children, c.IsRaw) ∧
        (n.head.IsVerbatim → (∀ c ∈ n.children, c.IsRaw) ∧ n.head.EndsIn src) := by
  have hverbatim : (parse src).root.Verbatim src := by
    have hempty : ({ warnings := unterminatedWarnings (tokens src) } : Builder).Verbatim src
        (Frame.Waits src src.length (tokens src)) := .empty _
    have hannounced : Announces src src.length (tokens src) := (reads_tokensFrom 0 src).announces rfl
    unfold parse
    exact verbatim_mk_of_not_block rfl (hempty.addTokens hannounced).finish
  exact (quiet_root src).and hverbatim

end Liquid
end LiquidLint
