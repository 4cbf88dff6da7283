import LiquidLint.Proofs.TreeTotals

/-!
# The pieces of a tree

Each token of a template ends up in one place of its tree: as the span of a text or a variable, as
the opening tag of a node, as the end tag of a block, or, if it is an end tag without its block,
nowhere (`countP_pieces_parse`).  The end tags that end nowhere can be told from the tree alone
(`strays_eq`).

The lines of a `liquid` tag lie inside the opening tag of their node, so pieces are those of the
nodes that are not below a `liquid` tag.
-/

namespace LiquidLint
namespace Liquid

/-! ## Pieces -/

/-- What a stretch of the source is to the tree. -/
inductive PieceKind where
  | text
  | variable
  | opening
  | closing
deriving DecidableEq

/-- A stretch of the source that a node was read from. -/
structure Piece where
  kind : PieceKind
  /-- The name of the tag or, for an end tag, of its block. -/
  name : Text
  start : Nat
  stop : Nat
deriving DecidableEq

/-- Whether the byte at `i` belongs to the piece. -/
def Piece.covers (p : Piece) (i : Nat) : Bool := p.start ≤ i && i < p.stop

/-- The pieces of a node: its span if it is a text or a variable, else its opening tag and, if it is
a closed block, its end tag. -/
def Head.pieces (h : Head) : List Piece :=
  match h.kind with
  | .document => []
  | .raw => [⟨.text, [], h.start, h.stop⟩]
  | .variable => [⟨.variable, [], h.start, h.stop⟩]
  | .tag =>
    ⟨.opening, h.name, h.start, h.openEnd⟩ ::
      if h.closed then h.closeStart.toList.map fun close => ⟨.closing, h.name, close, h.stop⟩ else []

/-- Whether the nodes below are not lines of a `liquid` tag. -/
def outsideLines (h : Head) : Bool := h.name ≠ "liquid"

/-- The pieces of a node and of the nodes below it that are no lines of a `liquid` tag. -/
def Node.pieces (n : Node) : List Piece := (n.walk outsideLines).flatMap Head.pieces

/-- The end tags of a template that close nothing: no node has them as its end tag. -/
def strayEnds (src : Text) : List Token :=
  (tokens src).filter fun tok =>
    tok.kind = .tag && (closedBlock? tok.name).isSome &&
      !(parse src).root.pieces.any fun p => p.kind = .closing && p.start = tok.start

/-- The piece that a token is to the tree. -/
def Token.piece (tok : Token) : Piece :=
  match tok.kind with
  | .text | .unterminated _ => ⟨.text, [], tok.start, tok.stop⟩
  | .variable => ⟨.variable, [], tok.start, tok.stop⟩
  | .tag =>
    match closedBlock? tok.name with
    | some block => ⟨.closing, block, tok.start, tok.stop⟩
    | none => ⟨.opening, tok.name, tok.start, tok.stop⟩

@[simp] theorem Token.start_piece (tok : Token) : tok.piece.start = tok.start := by
  unfold Token.piece
  split <;> try rfl
  split <;> rfl

@[simp] theorem Token.stop_piece (tok : Token) : tok.piece.stop = tok.stop := by
  unfold Token.piece
  split <;> try rfl
  split <;> rfl

/-! ## One token, one piece -/

namespace Builder

/-- Whether the token is an end tag that closes nothing here. -/
def isStray (b : Builder) (tok : Token) : Bool :=
  tok.kind = .tag && !(tok.inLiquid && b.inComment tok) &&
    match closedBlock? tok.name with
    | some block => b.frames.all fun f => f.block.name ≠ block
    | none => false

/-- The end tags of a run that close nothing. -/
def strays (src : Text) : Builder → List Token → List Token
  | _, [] => []
  | b, tok :: rest =>
    (if b.isStray tok then [tok] else []) ++ strays src (b.add src tok) rest

variable {src : Text} {b : Builder} {tok : Token} {block : Text}

theorem isStray_of_kind (h : tok.kind ≠ .tag) : b.isStray tok = false := by
  simp [isStray, h]

theorem isStray_of_none (h : closedBlock? tok.name = none) : b.isStray tok = false := by
  simp [isStray, h]

theorem isStray_of_open (hrole : tagRole tok.name = .closes block)
    (hopen : ∃ f ∈ b.frames, f.block.name = block) : b.isStray tok = false := by
  obtain ⟨f, hf, hname⟩ := hopen
  refine Bool.and_eq_false_iff.2 (.inr ?_)
  rw [closedBlock?_of_closes hrole]
  exact List.all_eq_false.2 ⟨f, hf, by simp [hname]⟩

theorem isStray_of_not_open (htag : b.ReadsTag tok) (hrole : tagRole tok.name = .closes block)
    (hopen : ∀ f ∈ b.frames, f.block.name ≠ block) : b.isStray tok = true := by
  simp only [isStray, htag.kind_eq, htag.comment_eq, closedBlock?_of_closes hrole, decide_true,
    Bool.not_false, Bool.true_and]
  exact List.all_eq_true.2 fun f hf => by simpa using hopen f hf

theorem closedBlock?_of_isStray (h : b.isStray tok = true) :
    tok.kind = .tag ∧ ∃ block, closedBlock? tok.name = some block := by
  unfold isStray at h
  obtain ⟨h, hclose⟩ := Bool.and_eq_true_iff.1 h
  refine ⟨of_decide_eq_true (Bool.and_eq_true_iff.1 h).1, ?_⟩
  cases hname : closedBlock? tok.name with
  | some block => exact ⟨block, rfl⟩
  | none =>
    rw [hname] at hclose
    cases hclose

theorem LeafOf.isStray_eq {n : Node} (h : LeafOf src b tok n) : b.isStray tok = false := by
  cases h with
  | text hkind => exact isStray_of_kind fun htag => by rw [htag] at hkind; exact hkind
  | «variable» hkind => exact isStray_of_kind fun htag => by rw [hkind] at htag; cases htag
  | comment _ hline hin => simp [isStray, hline, hin]
  | inline _ hclose _ => exact isStray_of_none hclose

end Builder

section Counting

variable (q : Piece → Bool)

/-- How many of the pieces of a node `q` accepts. -/
def Head.pieceCount (h : Head) : Nat := h.pieces.countP q

/-- What an end tag adds to the pieces of its block. -/
def closingCount (tok : Token) (h : Head) : Nat :=
  [(⟨.closing, h.name, tok.start, tok.stop⟩ : Piece)].countP q

theorem steady_pieceCount : Steady outsideLines (Head.pieceCount q) (closingCount q) where
  descend_cutAt h stop hh := decide_eq_true hh.name_ne
  descend_closedBy h tok hh := decide_eq_true hh.name_ne
  cutAt_eq h stop hh := by
    simp [Head.pieceCount, Head.pieces, Head.cutAt, hh.kind_eq, hh.closed_eq]
  closedBy_eq h tok hh := by
    simp only [Head.pieceCount, closingCount, Head.pieces, Head.closedBy, hh.kind_eq, hh.closed_eq,
      if_true, Bool.false_eq_true, if_false, Option.toList_some, List.map_cons, List.map_nil]
    rw [← List.countP_append, List.singleton_append]

theorem countP_pieces (n : Node) :
    n.pieces.countP q = n.total outsideLines (Head.pieceCount q) := by
  unfold Node.pieces Node.total
  rw [List.countP_flatMap]
  rfl

variable {q}

/-- A node without children has the piece of its token. -/
theorem Builder.LeafOf.total_eq {src : Text} {b : Builder} {tok : Token} {n : Node}
    (h : Builder.LeafOf src b tok n) (hline : tok.inLiquid = false) :
    n.total outsideLines (Head.pieceCount q) = [tok.piece].countP q := by
  cases h with
  | text hkind =>
    unfold rawNode
    rw [total_leaf]
    unfold Token.piece
    cases hk : tok.kind with
    | text | unterminated _ => rfl
    | «variable» | tag =>
      rw [hk] at hkind
      exact hkind.elim
  | «variable» hkind =>
    rw [total_leaf]
    unfold Token.piece
    rw [hkind]
    rfl
  | comment hkind hline' _ =>
    rw [hline] at hline'
    cases hline'
  | inline htag hclose _ =>
    rw [total_leaf]
    unfold Token.piece
    rw [htag.kind_eq, hclose]
    rfl

/-- **One token adds one piece**, unless it is an end tag that closes nothing. -/
theorem Builder.total_add (src : Text) {b : Builder} {tok : Token} (hb : b.Pending)
    (hline : tok.inLiquid = false) :
    (b.add src tok).total outsideLines (Head.pieceCount q) +
        (if b.isStray tok then [tok.piece] else []).countP q =
      b.total outsideLines (Head.pieceCount q) + [tok.piece].countP q := by
  have hsteady := steady_pieceCount q
  have hopening (hkind : tok.kind = .tag) (hclose : closedBlock? tok.name = none) :
      Head.pieceCount q (tok.head .tag) = [tok.piece].countP q := by
    unfold Token.piece
    rw [hkind, hclose]
    rfl
  have hadded := added_add src b tok
  generalize b.add src tok = after at hadded
  cases hadded with
  | leaf hleaf =>
    rw [total_push, hleaf.total_eq hline, hleaf.isStray_eq]
    rfl
  | misfit d htag hclose _ =>
    rw [total_push, total_leaf, hopening htag.kind_eq hclose, isStray_of_none hclose]
    rfl
  | opens htag hclose _ =>
    rw [isStray_of_none hclose, total_cons rfl, ← hopening htag.kind_eq hclose]
    rfl
  | branch htag hclose _ hframes _ =>
    rw [isStray_of_none hclose, total_cons rfl, Frame.total_openBranch hsteady
      (hb.of_cons hframes).1, total_cons hframes, hopening htag.kind_eq hclose, ← Nat.add_assoc]
    rfl
  | @closes block htag hrole hopen =>
    have hpiece : tok.piece = ⟨.closing, block, tok.start, tok.stop⟩ := by
      unfold Token.piece
      rw [htag.kind_eq, closedBlock?_of_closes hrole]
    rw [total_closeThrough hsteady hb hopen (n := [tok.piece].countP q)
      (fun h _ hname => by rw [closingCount, hname, hpiece]), isStray_of_open hrole hopen]
    rfl
  | stray htag hrole hopen =>
    rw [isStray_of_not_open htag hrole hopen]
    rfl
  | lines htag hclose hrole =>
    -- the sum does not go on below a `liquid` tag
    have hbelow : outsideLines (tok.head .tag) = false := by
      simp [outsideLines, Token.head, name_of_lines hrole]
    rw [total_push, total_mk_of_not hbelow, hopening htag.kind_eq hclose, isStray_of_none hclose]
    rfl

/-- **A run adds one piece for each token**, end tags that close nothing apart. -/
theorem Builder.total_addTokens (src : Text) {toks : List Token} {b : Builder} (hb : b.Pending)
    (hline : ∀ tok ∈ toks, tok.inLiquid = false) :
    (b.addTokens src toks).total outsideLines (Head.pieceCount q) +
        ((strays src b toks).map Token.piece).countP q =
      b.total outsideLines (Head.pieceCount q) + (toks.map Token.piece).countP q := by
  induction toks generalizing b with
  | nil =>
    rw [addTokens_nil]
    rfl
  | cons tok rest ih =>
    have hadd := total_add (q := q) src hb (hline tok (List.mem_cons_self ..))
    have hrest := ih (hb.add src tok) fun t ht => hline t (List.mem_cons_of_mem _ ht)
    have hstray : ((if b.isStray tok then [tok] else []).map Token.piece) =
        if b.isStray tok then [tok.piece] else [] := by
      split <;> rfl
    have hcons : (tok.piece :: rest.map Token.piece).countP q =
        [tok.piece].countP q + (rest.map Token.piece).countP q := by
      rw [← List.countP_append, List.singleton_append]
    rw [addTokens_cons, strays, List.map_append, List.countP_append, hstray, List.map_cons, hcons]
    omega

/-- The builder that a template starts with. -/
def Builder.ofTokens (toks : List Token) : Builder := { warnings := unterminatedWarnings toks }

/-- **Every token of a template is one piece of its tree, or closes nothing.** -/
theorem countP_pieces_parse (src : Text) (q : Piece → Bool) :
    (parse src).root.pieces.countP q +
        ((Builder.strays src (.ofTokens (tokens src)) (tokens src)).map Token.piece).countP q =
      ((tokens src).map Token.piece).countP q := by
  have hempty : (Builder.ofTokens (tokens src)).Pending := fun f hf => nomatch hf
  have hrun := Builder.total_addTokens (q := q) src hempty
    fun tok (htok : tok ∈ tokens src) => inLiquid_tokens htok
  have hfinish := Builder.total_finish (steady_pieceCount q) (hempty.addTokens src (tokens src))
    src.length
  have hroot : (parse src).root.total outsideLines (Head.pieceCount q) =
      totalAll outsideLines (Head.pieceCount q)
        ((Builder.addTokens src (.ofTokens (tokens src)) (tokens src)).finish src.length).done := by
    have hdescend : outsideLines { kind := .document, start := 0, stop := src.length, openEnd := 0 } =
        true := rfl
    unfold parse
    rw [total_mk hdescend]
    exact Nat.zero_add _
  rw [countP_pieces, hroot, hfinish, hrun]
  exact Nat.zero_add _

end Counting

/-! ## Each byte once -/

theorem Tiles.countP_covers_of_lt {lo hi i : Nat} {toks : List Token} (h : Tiles lo toks hi)
    (hi' : i < lo) : (toks.map Token.piece).countP (·.covers i) = 0 := by
  rw [List.countP_eq_zero]
  intro p hp
  obtain ⟨tok, htok, rfl⟩ := List.mem_map.1 hp
  have hle := (h.follows.placed htok).1
  simp only [Piece.covers, Token.start_piece, Bool.and_eq_true, decide_eq_true_eq, not_and]
  omega

/-- A byte between the ends of a tiling belongs to exactly one of its tokens. -/
theorem Tiles.countP_covers {lo hi i : Nat} {toks : List Token} (h : Tiles lo toks hi)
    (hlo : lo ≤ i) (hhi : i < hi) : (toks.map Token.piece).countP (·.covers i) = 1 := by
  induction toks generalizing lo with
  | nil =>
    obtain rfl : lo = hi := h
    omega
  | cons tok rest ih =>
    obtain ⟨rfl, _, hrest⟩ := h
    rw [List.map_cons]
    by_cases hstop : i < tok.stop
    · have hcovers : tok.piece.covers i = true := by
        simp only [Piece.covers, Token.start_piece, Token.stop_piece, Bool.and_eq_true,
          decide_eq_true_eq]
        exact ⟨hlo, hstop⟩
      rw [List.countP_cons_of_pos (p := fun x : Piece => x.covers i) hcovers, hrest.countP_covers_of_lt hstop]
    · have hcovers : ¬ tok.piece.covers i = true := by
        simp only [Piece.covers, Token.stop_piece, Bool.and_eq_true, decide_eq_true_eq, not_and]
        omega
      rw [List.countP_cons_of_neg (p := fun x : Piece => x.covers i) hcovers]
      exact ih hrest (by omega)

/-- The tokens of a tiling start at different places. -/
theorem Tiles.pairwise {lo hi : Nat} {toks : List Token} (h : Tiles lo toks hi) :
    toks.Pairwise fun t u => t.start < u.start := by
  refine h.follows.apart.imp_of_mem ?_
  intro t u ht _ hle
  exact Nat.lt_of_lt_of_le (h.follows.placed ht).2.1.start_lt_stop hle

theorem eq_of_start_eq {l : List Token} (h : l.Pairwise fun t u => t.start < u.start)
    {t u : Token} (ht : t ∈ l) (hu : u ∈ l) (heq : t.start = u.start) : t = u := by
  induction h with
  | nil => cases ht
  | cons hlt _ ih =>
    rcases List.mem_cons.1 ht with rfl | ht'
    · rcases List.mem_cons.1 hu with rfl | hu'
      · rfl
      · have := hlt u hu'
        omega
    · rcases List.mem_cons.1 hu with rfl | hu'
      · have := hlt t ht'
        omega
      · exact ih ht' hu'

theorem countP_start_le_one {l : List Token} (h : l.Pairwise fun t u => t.start < u.start)
    (start : Nat) : l.countP (fun t => t.start = start) ≤ 1 := by
  induction h with
  | nil => exact Nat.zero_le _
  | @cons tok l hlt _ ih =>
    rw [List.countP_cons]
    split
    · rename_i heq
      have hzero : l.countP (fun t => t.start = start) = 0 := by
        rw [List.countP_eq_zero]
        intro t ht
        have := hlt t ht
        simp only [decide_eq_true_eq] at heq ⊢
        omega
      omega
    · exact ih

/-- Tokens that are picked in order are those that a test picks, if the two agree on each token. -/
theorem eq_filter_of_sublist {s l : List Token} (h : s.Sublist l)
    (hl : l.Pairwise fun t u => t.start < u.start) {test : Token → Bool}
    (htest : ∀ t ∈ l, test t = true ↔ t ∈ s) : s = l.filter test := by
  induction h with
  | slnil => rfl
  | @cons s l tok hsub ih =>
    obtain ⟨hlt, hl⟩ := List.pairwise_cons.1 hl
    have hnot : ¬ test tok = true := fun h => by
      have := hlt tok (hsub.subset ((htest tok (List.mem_cons_self ..)).1 h))
      omega
    rw [List.filter_cons_of_neg hnot]
    exact ih hl fun t ht => htest t (List.mem_cons_of_mem _ ht)
  | @cons_cons s l tok hsub ih =>
    obtain ⟨hlt, hl⟩ := List.pairwise_cons.1 hl
    rw [List.filter_cons_of_pos ((htest tok (List.mem_cons_self ..)).2 (List.mem_cons_self ..))]
    refine congrArg (tok :: ·) (ih hl fun t ht => (htest t (List.mem_cons_of_mem _ ht)).trans ?_)
    have hne : t ≠ tok := fun h => by
      have := hlt t ht
      rw [h] at this
      omega
    simp [hne]

namespace Builder

theorem strays_sublist (src : Text) (b : Builder) (toks : List Token) :
    (strays src b toks).Sublist toks := by
  induction toks generalizing b with
  | nil => exact .slnil
  | cons tok rest ih =>
    rw [strays]
    split
    · exact (ih _).cons_cons tok
    · exact (ih _).cons tok

theorem closedBlock?_of_mem_strays {src : Text} {b : Builder} {toks : List Token} {tok : Token}
    (h : tok ∈ strays src b toks) : tok.kind = .tag ∧ ∃ block, closedBlock? tok.name = some block := by
  induction toks generalizing b with
  | nil => cases h
  | cons first rest ih =>
    rw [strays] at h
    rcases List.mem_append.1 h with h | h
    · split at h
      · rename_i hstray
        rw [List.mem_singleton.1 h]
        exact closedBlock?_of_isStray hstray
      · cases h
    · exact ih h

end Builder

/-- The end tags that close nothing on the way are those that are in no node at the end. -/
theorem strays_eq (src : Text) :
    Builder.strays src (.ofTokens (tokens src)) (tokens src) = strayEnds src := by
  have hstarts := (tiles_tokens src).pairwise
  have hsub := Builder.strays_sublist src (.ofTokens (tokens src)) (tokens src)
  refine eq_filter_of_sublist hsub hstarts fun tok htok => ?_
  -- count the closing pieces that start with `tok`: the tree has one or the strays have one
  have hcount := countP_pieces_parse src fun p => p.kind = .closing && p.start = tok.start
  have hle : ((tokens src).map Token.piece).countP
      (fun p => p.kind = .closing && p.start = tok.start) ≤ 1 := by
    refine Nat.le_trans ?_ (countP_start_le_one hstarts tok.start)
    rw [List.countP_map]
    refine List.countP_mono_left fun t _ h => ?_
    simp only [Function.comp_apply, Bool.and_eq_true, Token.start_piece] at h
    exact h.2
  have hpiece (t : Token) (block : Text) (hkind : t.kind = .tag)
      (hclose : closedBlock? t.name = some block) : t.piece.kind = .closing := by
    unfold Token.piece
    rw [hkind, hclose]
  constructor
  · intro htest
    simp only [Bool.and_eq_true, decide_eq_true_eq, Bool.not_eq_true'] at htest
    obtain ⟨⟨hkind, hclose⟩, hpieces⟩ := htest
    obtain ⟨block, hclose⟩ := Option.isSome_iff_exists.1 hclose
    rw [List.countP_eq_zero.2 fun p hp => by simpa using List.any_eq_false.1 hpieces p hp,
      Nat.zero_add] at hcount
    have hpos : 0 < ((tokens src).map Token.piece).countP
        (fun p => p.kind = .closing && p.start = tok.start) :=
      List.countP_pos_iff.2 ⟨tok.piece, List.mem_map_of_mem htok, by
        simp [hpiece tok block hkind hclose]⟩
    rw [← hcount] at hpos
    obtain ⟨p, hp, hstart⟩ := List.countP_pos_iff.1 hpos
    obtain ⟨t, ht, rfl⟩ := List.mem_map.1 hp
    simp only [Bool.and_eq_true, decide_eq_true_eq, Token.start_piece] at hstart
    rwa [← eq_of_start_eq hstarts (hsub.subset ht) htok hstart.2]
  · intro hstray
    obtain ⟨hkind, block, hclose⟩ := Builder.closedBlock?_of_mem_strays hstray
    have hpos : 0 < ((Builder.strays src (.ofTokens (tokens src)) (tokens src)).map
        Token.piece).countP (fun p => p.kind = .closing && p.start = tok.start) :=
      List.countP_pos_iff.2 ⟨tok.piece, List.mem_map_of_mem hstray, by
        simp [hpiece tok block hkind hclose]⟩
    have hzero : (parse src).root.pieces.countP
        (fun p => p.kind = .closing && p.start = tok.start) = 0 := by
      omega
    simp only [Bool.and_eq_true, decide_eq_true_eq, Bool.not_eq_true']
    refine ⟨⟨hkind, by rw [hclose]; rfl⟩, List.any_eq_false.2 fun p hp => ?_⟩
    simpa using List.countP_eq_zero.1 hzero p hp

end Liquid
end LiquidLint
