import LiquidLint.Proofs.TreePieces

/-!
# No byte of a template is lost or doubled

The tokens tile the template and each is one piece of the tree or an end tag that closes nothing, so
each byte belongs to exactly one of these (`parse_covers_once`).  An end tag that closes nothing
leaves one warning where it starts: nothing else warns in these words there, since the lines of a
`liquid` tag stand strictly inside it.
-/

namespace LiquidLint
namespace Liquid

/-! ## Warnings about end tags -/

/-- Whether the warning is about an end tag that closes nothing. -/
def Warning.isUnexpected (w : Warning) : Bool := Text.startsWith w.message "Unexpected "

/-- How many of the warnings at an offset are about an end tag that closes nothing. -/
def unexpectedAt (offset : Nat) (ws : List Warning) : Nat :=
  ws.countP fun w => w.offset = offset && w.isUnexpected

/-- Only the warning about an end tag starts with these words. -/
theorem isUnexpected_at (d : Defect) (offset : Nat) :
    (d.at offset).isUnexpected = true ↔ ∃ name block, d = .unexpectedEnd name block := by
  cases d with
  | unexpectedEnd name block => exact iff_of_true rfl ⟨name, block, rfl⟩
  | unterminated e => cases e <;> exact iff_of_false nofun nofun
  | nameless | unknownTag _ | neverClosed _ => exact iff_of_false nofun nofun

theorem unexpectedAt_warn (b : Builder) (d : Defect) (start offset : Nat) :
    unexpectedAt offset (b.warn d start).warnings =
      unexpectedAt offset b.warnings + unexpectedAt offset [d.at start] := by
  unfold unexpectedAt Builder.warn
  rw [List.countP_append]

theorem unexpectedAt_other {d : Defect} (hd : ∀ name block, d ≠ .unexpectedEnd name block)
    (start offset : Nat) : unexpectedAt offset [d.at start] = 0 := by
  have hnot : (d.at start).isUnexpected = false := by
    rw [← Bool.not_eq_true, isUnexpected_at]
    rintro ⟨name, block, h⟩
    exact hd name block h
  simp [unexpectedAt, hnot]

namespace Builder

variable {src : Text} {b : Builder} {tok : Token} {offset : Nat}

theorem unexpectedAt_cutInnermost (b : Builder) (stop offset : Nat) :
    unexpectedAt offset (b.cutInnermost stop).warnings = unexpectedAt offset b.warnings := by
  cases hframes : b.frames with
  | nil =>
    unfold cutInnermost
    rw [hframes]
  | cons f outer =>
    rw [cutInnermost_cons hframes, warnings_push, unexpectedAt_warn,
      unexpectedAt_other (d := .neverClosed _) nofun]
    rfl

theorem unexpectedAt_finish (b : Builder) (stop offset : Nat) :
    unexpectedAt offset (b.finish stop).warnings = unexpectedAt offset b.warnings :=
  (finish_induction (P := fun b' => unexpectedAt offset b'.warnings = unexpectedAt offset b.warnings)
    stop (fun b' _ _ _ h => (unexpectedAt_cutInnermost b' stop offset).trans h) b rfl).1

theorem unexpectedAt_closeThrough {block : Text} (hopen : ∃ f ∈ b.frames, f.block.name = block) :
    unexpectedAt offset (b.closeThrough block tok).warnings = unexpectedAt offset b.warnings := by
  refine closeThrough_induction
    (P := fun b' => unexpectedAt offset b'.warnings = unexpectedAt offset b.warnings)
    (Q := fun b' => unexpectedAt offset b'.warnings = unexpectedAt offset b.warnings)
    (fun b' _ _ _ h => (unexpectedAt_cutInnermost b' _ offset).trans h) ?_ b hopen rfl
  intro b' f outer _ _ h
  rwa [warnings_push]

/-- One token warns of an end tag only if it is one that closes nothing, or in its lines. -/
theorem unexpectedAt_add
    (hlines : tagRole tok.name = .lines →
      ∀ ws, unexpectedAt offset (addLines src ws tok).warnings = unexpectedAt offset ws) :
    unexpectedAt offset (b.add src tok).warnings =
      unexpectedAt offset b.warnings +
        (if b.isStray tok then [tok] else []).countP (fun t => t.start = offset) := by
  have hadded := added_add src b tok
  generalize b.add src tok = after at hadded
  cases hadded with
  | leaf hleaf =>
    rw [warnings_push, hleaf.isStray_eq]
    rfl
  | misfit d _ hclose hd =>
    have hne : ∀ name block, d ≠ .unexpectedEnd name block := by
      rcases hd with rfl | rfl <;> nofun
    rw [warnings_push, unexpectedAt_warn, unexpectedAt_other hne, isStray_of_none hclose]
    rfl
  | opens _ hclose _ =>
    rw [isStray_of_none hclose]
    rfl
  | branch _ hclose _ _ _ =>
    rw [isStray_of_none hclose]
    rfl
  | closes _ hrole hopen =>
    rw [unexpectedAt_closeThrough hopen, isStray_of_open hrole hopen]
    rfl
  | @stray block htag hrole hopen =>
    have hone : unexpectedAt offset [(Defect.unexpectedEnd tok.name block).at tok.start] =
        [tok].countP fun t => t.start = offset := by
      have hyes := (isUnexpected_at (.unexpectedEnd tok.name block) tok.start).2 ⟨_, _, rfl⟩
      unfold unexpectedAt
      rw [List.countP_singleton, List.countP_singleton, hyes, Bool.and_true]
      rfl
    rw [unexpectedAt_warn, isStray_of_not_open htag hrole hopen, if_pos rfl, hone]
  | lines _ hclose hrole =>
    rw [warnings_push, isStray_of_none hclose]
    exact hlines hrole b.warnings

/-- A run does not warn of end tags outside the place where its tokens stand. -/
theorem unexpectedAt_addTokens_of_outside {toks : List Token} :
    ∀ {lo hi : Nat} {b : Builder}, Follows lo toks hi → offset < lo ∨ hi ≤ offset →
      unexpectedAt offset (b.addTokens src toks).warnings = unexpectedAt offset b.warnings := by
  induction toks using tokens_induction with
  | nil =>
    intro lo hi b _ _
    rw [addTokens_nil]
  | cons tok rest ihlines ih =>
    intro lo hi b hfollows hout
    obtain ⟨hle, htok, hrest⟩ := hfollows
    have hlt := htok.start_lt_stop
    have hhi := hrest.le
    have hname := htok.start_le_markup
    have hstop := htok.markup_le_stop
    have hnot : (if b.isStray tok then [tok] else []).countP (fun t => t.start = offset) = 0 := by
      have hne : tok.start ≠ offset := by omega
      split <;> simp [hne]
    rw [addTokens_cons, ih hrest (by omega), unexpectedAt_add, hnot, Nat.add_zero]
    intro _ ws
    unfold addLines
    rw [unexpectedAt_finish, ihlines (follows_liquidLines tok.markup tok.markupStart) (by omega)]

/-- **A run warns of an end tag where one starts that closes nothing**, unless the place lies inside
one of its tokens. -/
theorem unexpectedAt_addTokens {toks : List Token} {lo hi : Nat} (hfollows : Follows lo toks hi)
    (hout : ∀ tok ∈ toks, offset ≤ tok.start ∨ tok.stop ≤ offset) :
    unexpectedAt offset (b.addTokens src toks).warnings =
      unexpectedAt offset b.warnings + (strays src b toks).countP fun t => t.start = offset := by
  induction toks generalizing lo b with
  | nil =>
    rw [addTokens_nil]
    rfl
  | cons tok rest ih =>
    obtain ⟨_, htok, hrest⟩ := hfollows
    have hout' := hout tok (List.mem_cons_self ..)
    rw [addTokens_cons, ih hrest fun t ht => hout t (List.mem_cons_of_mem _ ht), strays,
      List.countP_append, ← Nat.add_assoc]
    congr 1
    -- a `liquid` tag starts before its lines, so they do not warn where it starts
    refine unexpectedAt_add fun hrole ws => ?_
    have hname := htok.name_le_markup
    have hstop := htok.markup_le_stop
    rw [name_of_lines hrole, show (Text.ofString "liquid").length = 6 from rfl] at hname
    unfold addLines
    rw [unexpectedAt_finish, unexpectedAt_addTokens_of_outside
      (follows_liquidLines tok.markup tok.markupStart) (by omega)]

end Builder

theorem unexpectedAt_unterminatedWarnings (offset : Nat) (toks : List Token) :
    unexpectedAt offset (unterminatedWarnings toks) = 0 := by
  unfold unexpectedAt
  rw [List.countP_eq_zero]
  intro w hw
  obtain ⟨tok, _, hw⟩ := List.mem_filterMap.1 hw
  split at hw
  · rename_i d _
    rw [← Option.some.inj hw, Bool.and_eq_true]
    rintro ⟨_, hyes⟩
    obtain ⟨_, _, h⟩ := (isUnexpected_at _ _).1 hyes
    cases h
  · cases hw

/-- Two tokens of a tiling do not overlap. -/
theorem Tiles.apart {lo hi : Nat} {toks : List Token} (h : Tiles lo toks hi) {t u : Token}
    (ht : t ∈ toks) (hu : u ∈ toks) : t.start ≤ u.start ∨ u.stop ≤ t.start := by
  induction toks generalizing lo with
  | nil => cases ht
  | cons tok rest ih =>
    obtain ⟨_, hplaced, hrest⟩ := h
    have hlt := hplaced.start_lt_stop
    rcases List.mem_cons.1 ht with rfl | ht'
    · rcases List.mem_cons.1 hu with rfl | hu'
      · exact .inl (Nat.le_refl _)
      · have := (hrest.follows.placed hu').1
        omega
    · rcases List.mem_cons.1 hu with rfl | hu'
      · exact .inr (hrest.follows.placed ht').1
      · exact ih hrest ht' hu'

/-- An end tag that closes nothing leaves one warning where it starts. -/
theorem unexpectedAt_parse {src : Text} {tok : Token} (htok : tok ∈ strayEnds src) :
    unexpectedAt tok.start (parse src).warnings = 1 := by
  have htiles := tiles_tokens src
  have hmem : tok ∈ tokens src := (List.mem_filter.1 htok).1
  have hsort : unexpectedAt tok.start (parse src).warnings =
      unexpectedAt tok.start ((Builder.addTokens src (.ofTokens (tokens src))
        (tokens src)).finish src.length).warnings :=
    (List.mergeSort_perm _ _).countP_eq _
  rw [hsort, Builder.unexpectedAt_finish,
    Builder.unexpectedAt_addTokens htiles.follows fun u hu => htiles.apart hmem hu, strays_eq]
  have hle : (strayEnds src).countP (fun t => t.start = tok.start) ≤ 1 :=
    countP_start_le_one (htiles.pairwise.sublist List.filter_sublist) tok.start
  have hpos : 0 < (strayEnds src).countP fun t => t.start = tok.start :=
    List.countP_pos_iff.2 ⟨tok, htok, by simp⟩
  have hzero : unexpectedAt tok.start (Builder.ofTokens (tokens src)).warnings = 0 :=
    unexpectedAt_unterminatedWarnings _ _
  omega

/-! ## Texts quote the source -/

/-- One if the node is a text that differs from its span, else zero. -/
def Head.misquotes (src : Text) (h : Head) : Nat :=
  if h.kind = .raw ∧ h.markup ≠ Text.slice src h.start h.stop then 1 else 0

theorem misquotes_of_kind {src : Text} {h : Head} (hkind : h.kind ≠ .raw) :
    h.misquotes src = 0 :=
  if_neg fun hraw => hkind hraw.1

theorem steady_misquotes (src : Text) :
    Steady (fun _ => true) (Head.misquotes src) (fun _ _ => 0) where
  descend_cutAt _ _ _ := rfl
  descend_closedBy _ _ _ := rfl
  cutAt_eq h stop hh := by
    have hkind : h.kind ≠ .raw := by rw [hh.kind_eq]; nofun
    rw [misquotes_of_kind hkind, misquotes_of_kind (h := h.cutAt stop) hkind]
  closedBy_eq h tok hh := by
    have hkind : h.kind ≠ .raw := by rw [hh.kind_eq]; nofun
    rw [misquotes_of_kind hkind, misquotes_of_kind (h := h.closedBy tok) hkind]

namespace Builder

variable {src : Text} {b : Builder} {tok : Token}

theorem LeafOf.misquotes_eq {n : Node} (h : LeafOf src b tok n)
    (htext : tok.kind.IsText → tok.markup = Text.slice src tok.start tok.stop) :
    n.total (fun _ => true) (Head.misquotes src) = 0 := by
  cases h with
  | text hkind =>
    unfold rawNode
    rw [total_leaf]
    exact if_neg fun hraw => hraw.2 (htext hkind)
  | «variable» _ =>
    rw [total_leaf]
    exact misquotes_of_kind nofun
  | comment _ _ _ =>
    unfold rawNode
    rw [total_leaf]
    exact if_neg fun hraw => hraw.2 rfl
  | inline _ _ _ =>
    rw [total_leaf]
    exact misquotes_of_kind nofun

end Builder

/-- The markup of a text node is the source of its span. -/
theorem markup_of_raw {src : Text} {h : Head} (hh : h ∈ (parse src).root.walk fun _ => true)
    (hkind : h.kind = .raw) : h.markup = Text.slice src h.start h.stop := by
  have hnone : h.misquotes src = 0 := by
    refine eq_zero_below_root
      (Q := fun tok => tok.kind.IsText → tok.markup = Text.slice src tok.start tok.stop)
      (steady_misquotes src) (fun tok htok => markup_tokens htok) (fun tok _ _ line hline htext => ?_)
      (fun b tok n htok hleaf => hleaf.misquotes_eq htok)
      (fun tok _ _ => ⟨misquotes_of_kind nofun, misquotes_of_kind nofun⟩)
      (mem_below_of_walk hh (by rw [hkind]; nofun))
    rw [(kind_liquidLines hline).1] at htext
    exact htext.elim
  unfold Head.misquotes at hnone
  split at hnone
  · cases hnone
  · rename_i hnot
    exact Classical.byContradiction fun hne => hnot ⟨hkind, hne⟩

/-- **No byte of a template is lost or doubled.**  Each byte belongs to exactly one text, variable,
opening tag or end tag of the tree, or to an end tag that closes nothing; such an end tag has exactly
one warning in these words where it starts; and text nodes hold the source of their span. -/
theorem parse_covers_once (src : Text) :
    (∀ i < src.length,
      ((parse src).root.pieces ++ (strayEnds src).map Token.piece).countP (·.covers i) = 1) ∧
    (∀ tok ∈ strayEnds src,
      (parse src).warnings.countP (fun w =>
        w.offset = tok.start && Text.startsWith w.message "Unexpected ") = 1) ∧
    ∀ h ∈ (parse src).root.walk (fun _ => true), h.kind = .raw →
      h.markup = Text.slice src h.start h.stop := by
  refine ⟨fun i hi => ?_, fun tok htok => unexpectedAt_parse htok, fun h hh => markup_of_raw hh⟩
  rw [List.countP_append, ← strays_eq, countP_pieces_parse]
  exact (tiles_tokens src).countP_covers (Nat.zero_le i) hi

end Liquid
end LiquidLint
