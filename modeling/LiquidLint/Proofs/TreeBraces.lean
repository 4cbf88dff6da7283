import LiquidLint.Proofs.TreeRecasts
import LiquidLint.Proofs.TreePieces

/-!
# Variables and tags of a tree

The variables and tags that stand between delimiters of their own are those that are no lines of a
`liquid` tag.  A node knows whether it is a line, and every node below a `liquid` tag is one or is a
text (`totalAll_lines`), so a walk over the whole tree that leaves lines out finds the variables and
tags among the tokens of the template (`exists_token_of_braces`).
-/

namespace LiquidLint
namespace Liquid

/-- The pieces of a node that stand between delimiters of their own. -/
def Head.braces (h : Head) : List Piece :=
  if h.inLiquid then [] else h.pieces.filter fun p => p.kind ≠ .text

/-- The pieces of a tree that stand between delimiters of their own. -/
def Node.braces (n : Node) : List Piece := (n.walk fun _ => true).flatMap Head.braces

/-! ## Lines -/

/-- One if the node is neither a text nor a line of a `liquid` tag, else zero. -/
def Head.delimited (h : Head) : Nat := if h.kind ≠ .raw ∧ h.inLiquid = false then 1 else 0

theorem steady_delimited : Steady (fun _ => true) Head.delimited fun _ _ => 0 where
  descend_cutAt _ _ _ := rfl
  descend_closedBy _ _ _ := rfl
  cutAt_eq _ _ _ := rfl
  closedBy_eq _ _ _ := rfl

theorem braces_of_delimited {h : Head} (hh : h.delimited = 0) : h.braces = [] := by
  unfold Head.delimited at hh
  unfold Head.braces
  by_cases hline : h.inLiquid = true
  · exact if_pos hline
  · have hraw : h.kind = .raw := by
      refine Classical.byContradiction fun hne => ?_
      rw [if_pos ⟨hne, Bool.eq_false_iff.2 hline⟩] at hh
      cases hh
    rw [if_neg hline]
    unfold Head.pieces
    rw [hraw]
    rfl

section Lines

variable {src : Text}

/-- The lines of a `liquid` tag have no delimiters of their own. -/
theorem totalAll_lines (ws : List Warning) (tok : Token) :
    totalAll (fun _ => true) Head.delimited (Builder.addLines src ws tok).done = 0 := by
  have hempty : ({ warnings := ws } : Builder).Pending := fun f hf => (List.not_mem_nil hf).elim
  have hhead (tok : Token) (kind : NodeKind) (hline : tok.inLiquid = true) :
      Head.delimited (tok.head kind) = 0 := by
    refine if_neg fun h => ?_
    have := h.2.symm.trans hline
    cases this
  unfold Builder.addLines
  rw [Builder.total_finish steady_delimited (hempty.addTokens src _)]
  refine (Builder.total_addTokens_eq (Q := fun tok => tok.inLiquid = true) steady_delimited
    (fun _ _ _ line hline => (kind_liquidLines hline).2) (fun b tok n hline hleaf => ?_)
    (fun tok hline _ => ⟨hhead tok .tag hline, ?_⟩) hempty
    fun line hline => (kind_liquidLines hline).2).trans rfl
  · cases hleaf with
    | text _ | comment _ _ _ => exact total_leaf _
    | «variable» _ => exact (total_leaf _).trans (hhead tok .variable hline)
    | inline _ _ _ => exact (total_leaf _).trans (hhead tok .tag hline)
  · refine if_neg fun h => ?_
    have := h.2.symm.trans hline
    cases this

/-- **A sum that leaves lines out need not go below `liquid` tags.** -/
theorem Builder.total_eq_outside {g : Head → Nat} {gain : Token → Head → Nat}
    (hall : Steady (fun _ => true) g gain) (hout : Steady outsideLines g gain)
    (hlines : ∀ ws tok, totalAll (fun _ => true) g (addLines src ws tok).done = 0)
    {toks : List Token} {b : Builder} (hb : b.Pending)
    (h : b.total (fun _ => true) g = b.total outsideLines g) :
    (b.addTokens src toks).total (fun _ => true) g = (b.addTokens src toks).total outsideLines g := by
  induction toks generalizing b with
  | nil => rwa [addTokens_nil]
  | cons tok rest ih =>
    rw [addTokens_cons]
    refine ih (hb.add src tok) ?_
    have hadded := added_add src b tok
    generalize b.add src tok = after at hadded
    cases hadded with
    | leaf hleaf =>
      rw [total_push, total_push, h]
      congr 1
      cases hleaf with
      | text _ | comment _ _ _ => exact (total_leaf _).trans (total_leaf _).symm
      | «variable» _ | inline _ _ _ => rw [total_leaf, total_leaf]
    | misfit d _ _ _ =>
      rw [total_push, total_push, total_leaf, total_leaf]
      exact congrArg (· + g (tok.head .tag)) h
    | opens _ _ _ =>
      rw [@total_cons (fun _ => true) g _ _ _ rfl, @total_cons outsideLines g _ _ _ rfl]
      exact congrArg (· + g { tok.head .tag with block := true }) h
    | branch _ _ _ hframes _ =>
      have hf := (hb.of_cons hframes).1
      rw [total_cons hframes, total_cons hframes] at h
      rw [@total_cons (fun _ => true) g _ _ _ rfl, @total_cons outsideLines g _ _ _ rfl,
        Frame.total_openBranch hall hf, Frame.total_openBranch hout hf, ← Nat.add_assoc,
        ← Nat.add_assoc]
      exact congrArg (· + g (tok.head .tag)) h
    | closes _ _ hopen =>
      refine closeThrough_induction
        (P := fun b' => b'.total (fun _ => true) g = b'.total outsideLines g ∧ b'.Pending)
        (Q := fun b' => b'.total (fun _ => true) g = b'.total outsideLines g)
        (fun b' _ _ _ h => ⟨?_, h.2.cutInnermost _⟩) ?_ b hopen ⟨h, hb⟩
      · rw [total_cutInnermost hall h.2, total_cutInnermost hout h.2]
        exact h.1
      · rintro b' f outer hframes _ ⟨htotal, hpending⟩
        have hf := (hpending.of_cons hframes).1
        rw [total_cons hframes, total_cons hframes] at htotal
        rw [total_push, total_push, Frame.total_closeWith hall hf, Frame.total_closeWith hout hf]
        omega
    | stray _ _ _ => exact h
    | lines _ _ hrole =>
      have hbelow : outsideLines (tok.head .tag) = false := by
        simp [outsideLines, Token.head, name_of_lines hrole]
      rw [total_push, total_push, total_mk rfl, total_mk_of_not hbelow, hlines]
      exact congrArg (· + g (tok.head .tag)) h

end Lines

/-! ## Variables and tags are tokens -/

section Counting

variable (q : Piece → Bool)

/-- How many of the variables and tags of a node `q` accepts. -/
def Head.braceCount (h : Head) : Nat := h.braces.countP q

/-- What an end tag adds to those of its block. -/
def closingBraceCount (tok : Token) (h : Head) : Nat :=
  if h.inLiquid then 0 else [(⟨.closing, h.name, tok.start, tok.stop⟩ : Piece)].countP q

theorem steady_braceCount {descend : Head → Bool}
    (hcut : ∀ (h : Head) (stop : Nat), h.Pending → descend (h.cutAt stop) = true)
    (hclosed : ∀ (h : Head) (tok : Token), h.Pending → descend (h.closedBy tok) = true) :
    Steady descend (Head.braceCount q) (closingBraceCount q) where
  descend_cutAt := hcut
  descend_closedBy := hclosed
  cutAt_eq h stop hh := by
    simp [Head.braceCount, Head.braces, Head.pieces, Head.cutAt, hh.kind_eq, hh.closed_eq]
  closedBy_eq h tok hh := by
    unfold Head.braceCount closingBraceCount Head.braces
    by_cases hline : h.inLiquid = true
    · rw [if_pos hline, if_pos hline]
      exact congrArg (List.countP q) (if_pos hline)
    · rw [if_neg hline, if_neg hline, ← List.countP_append]
      refine congrArg (List.countP q) ((if_neg hline).trans ?_)
      simp [Head.pieces, Head.closedBy, hh.kind_eq, hh.closed_eq]

/-- A walk over the whole tree finds as many variables and tags as one that stays above lines. -/
theorem total_braceCount (src : Text) :
    (parse src).root.total (fun _ => true) (Head.braceCount q) =
      (parse src).root.total outsideLines (Head.braceCount q) := by
  have hempty : (Builder.ofTokens (tokens src)).Pending := fun f hf => (List.not_mem_nil hf).elim
  have hall : Steady (fun _ => true) (Head.braceCount q) (closingBraceCount q) :=
    steady_braceCount q (fun _ _ _ => rfl) fun _ _ _ => rfl
  have hout : Steady outsideLines (Head.braceCount q) (closingBraceCount q) :=
    steady_braceCount q (steady_pieceCount q).descend_cutAt (steady_pieceCount q).descend_closedBy
  have hlines (ws : List Warning) (tok : Token) :
      totalAll (fun _ => true) (Head.braceCount q) (Builder.addLines src ws tok).done = 0 := by
    have hzero := @totalAll_lines src ws tok
    refine sumOf_eq_zero_iff.2 fun n hn => ?_
    obtain ⟨h, hh, rfl⟩ := List.mem_map.1 hn
    have hdelimited := sumOf_eq_zero_iff.1 hzero _ (List.mem_map_of_mem hh)
    unfold Head.braceCount
    rw [braces_of_delimited hdelimited]
    rfl
  have hrun := @Builder.total_eq_outside src _ _ hall hout hlines (tokens src) _ hempty rfl
  rw [← Builder.total_finish hall (hempty.addTokens src (tokens src)) src.length,
    ← Builder.total_finish hout (hempty.addTokens src (tokens src)) src.length] at hrun
  unfold parse
  rw [total_mk rfl, total_mk rfl]
  exact congrArg _ hrun

end Counting

/-- **The variables and tags of a tree are tokens of its template.** -/
theorem exists_token_of_braces {src : Text} {p : Piece} (hp : p ∈ (parse src).root.braces) :
    p.kind ≠ .text ∧ ∃ tok ∈ tokens src, tok.piece = p := by
  have hcount (descend : Head → Bool) : ((parse src).root.total descend (Head.braceCount (· = p))) =
      (((parse src).root.walk descend).flatMap Head.braces).countP (· = p) := by
    rw [List.countP_flatMap]
    rfl
  have hpos : 0 < (parse src).root.braces.countP (· = p) :=
    List.countP_pos_iff.2 ⟨p, hp, decide_eq_true rfl⟩
  unfold Node.braces at hpos
  rw [← hcount, total_braceCount, hcount] at hpos
  obtain ⟨p', hp', heq⟩ := List.countP_pos_iff.1 hpos
  obtain rfl : p' = p := of_decide_eq_true heq
  obtain ⟨h, hh, hp'⟩ := List.mem_flatMap.1 hp'
  unfold Head.braces at hp'
  split at hp'
  · cases hp'
  · obtain ⟨hpiece, hkind⟩ := List.mem_filter.1 hp'
    refine ⟨of_decide_eq_true hkind, ?_⟩
    have hin : p' ∈ (parse src).root.pieces := List.mem_flatMap.2 ⟨h, hh, hpiece⟩
    have htokens := countP_pieces_parse src (· = p')
    have hpos : 0 < ((tokens src).map Token.piece).countP (· = p') := by
      rw [← htokens]
      exact Nat.lt_of_lt_of_le (List.countP_pos_iff.2 ⟨p', hin, decide_eq_true rfl⟩)
        (Nat.le_add_right _ _)
    obtain ⟨p'', hp'', heq⟩ := List.countP_pos_iff.1 hpos
    obtain rfl : p'' = p' := of_decide_eq_true heq
    exact List.mem_map.1 hp''

/-! ## Moved trees -/

/-- The piece with its offsets moved. -/
def Piece.moved (move : Nat → Nat) (p : Piece) : Piece :=
  { p with start := move p.start, stop := move p.stop }

theorem Head.braces_moved (move : Nat → Nat) (h : Head) :
    (h.moved move).braces = h.braces.map (Piece.moved move) := by
  have hpieces : (h.moved move).pieces = h.pieces.map (Piece.moved move) := by
    unfold Head.pieces Head.moved
    cases h.kind with
    | document | raw | «variable» => rfl
    | tag =>
      dsimp only
      cases h.closed with
      | false => rfl
      | true => cases h.closeStart <;> rfl
  unfold Head.braces
  rw [hpieces, List.filter_map]
  by_cases hline : h.inLiquid = true
  · rw [if_pos hline]
    exact if_pos hline
  · rw [if_neg hline]
    exact if_neg hline

mutual

theorem Node.walk_moved (move : Nat → Nat) : (n : Node) →
    (n.moved move).walk (fun _ => true) = (n.walk fun _ => true).map (Head.moved move)
  | .mk h cs => by
    rw [Node.moved, Node.walk, Node.walk, if_pos rfl, if_pos rfl, Node.walkAll_moved move cs,
      List.map_cons]

theorem Node.walkAll_moved (move : Nat → Nat) : (ns : List Node) →
    Node.walkAll (fun _ => true) (Node.movedAll move ns) =
      (Node.walkAll (fun _ => true) ns).map (Head.moved move)
  | [] => rfl
  | n :: rest => by
    rw [Node.movedAll, Node.walkAll, Node.walkAll, Node.walk_moved move n,
      Node.walkAll_moved move rest, List.map_append]

end

end Liquid
end LiquidLint
