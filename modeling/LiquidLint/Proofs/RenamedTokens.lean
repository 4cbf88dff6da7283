import LiquidLint.Proofs.RenamedTags
import LiquidLint.Proofs.TextPlaces
import LiquidLint.Proofs.TidyReading

/-!
# Tokens whose names are replaced

When `render` is put in place of names `include`, a template is read round by round as before, with the names
replaced (`tokens_edited`): a line has its token again (`lineToken_edited`), the lines of a tag are cut where they
were (`liquidLines_edited`), and no delimiter is made or broken by a word (`isChain_replace`).
-/

namespace LiquidLint

namespace Text

theorem linesWithEnds_of_not_mem {t : Text} (ht : ('\n' : UInt8) ∉ t) : linesWithEnds t = [t] := by
  induction t with
  | nil => rfl
  | cons b t ih =>
    obtain ⟨hb, ht⟩ := not_or.1 (mt List.mem_cons.2 ht)
    rw [linesWithEnds, if_neg (Ne.symm hb), ih ht]

/-- A text up to its first line feed is its first line. -/
theorem linesWithEnds_append {t : Text} (ht : ('\n' : UInt8) ∉ t) (rest : Text) :
    linesWithEnds (t ++ ('\n' : UInt8) :: rest) = (t ++ [('\n' : UInt8)]) :: linesWithEnds rest := by
  induction t with
  | nil => rw [List.nil_append, linesWithEnds, if_pos rfl, List.nil_append]
  | cons b t ih =>
    obtain ⟨hb, ht⟩ := not_or.1 (mt List.mem_cons.2 ht)
    rw [List.cons_append, linesWithEnds, if_neg (Ne.symm hb), ih ht]
    rfl

/-- The first line feed between two places. -/
theorem exists_break {t : Text} {lo hi : Nat} (hle : lo ≤ hi) (hsize : hi ≤ t.length)
    (hbreak : ('\n' : UInt8) ∈ slice t lo hi) :
    ∃ mid, lo ≤ mid ∧ mid < hi ∧ ('\n' : UInt8) ∉ slice t lo mid ∧ slice t mid (mid + 1) = [('\n' : UInt8)] := by
  obtain ⟨front, rest, hcut, hfront⟩ := List.eq_append_cons_of_mem hbreak
  have hlength := congrArg List.length hcut
  rw [length_slice hsize, List.length_append, List.length_cons] at hlength
  obtain ⟨hfirst, hmore⟩ := @slice_halves t front (('\n' : UInt8) :: rest) lo
    (by rw [List.length_append, List.length_cons, ← hlength, Nat.add_sub_cancel' hle, hcut])
  obtain ⟨hfeed, _⟩ := @slice_halves t [('\n' : UInt8)] rest (lo + front.length) hmore
  exact ⟨lo + front.length, Nat.le_add_right _ _, by omega, by rwa [hfirst], hfeed⟩

/-- What a text holds from some place on, part by part. -/
theorem slice_parts {t u v : Text} {i : Nat} (hle : i ≤ t.length) (h : slice t i t.length = u ++ v) :
    i + u.length ≤ t.length ∧ slice t i (i + u.length) = u ∧ slice t (i + u.length) t.length = v := by
  have hlength := congrArg List.length h
  rw [length_slice (Nat.le_refl _), List.length_append] at hlength
  have hend : i + (u ++ v).length = t.length := by
    rw [List.length_append]
    omega
  obtain ⟨hfirst, hrest⟩ := slice_halves (t := t) (u := u) (v := v) (i := i) (by rw [hend, h])
  rw [List.length_append] at hend
  rw [show i + u.length + v.length = t.length from by omega] at hrest
  exact ⟨by omega, hfirst, hrest⟩

end Text

namespace Liquid

/-- All edits in the token stand at its name, or at names of its lines. -/
def Token.Holds (src : Text) (edits : List Edit) (tok : Token) : Prop :=
  ∀ e ∈ edits, e.stop ≤ tok.start ∨ tok.stop ≤ e.start ∨ Names src e tok

/-- A token where no edit stands at a name holds no edit. -/
theorem Token.Holds.untouched {src : Text} {edits : List Edit} {tok : Token} (hholds : tok.Holds src edits)
    (hnot : ∀ e ∈ edits, ¬ Names src e tok) : Untouched edits tok.start tok.stop := by
  intro e he
  rcases hholds e he with hle | hle | hnames
  · exact .inl hle
  · exact .inr hle
  · exact absurd hnames (hnot e he)

/-! ## Lines -/

theorem lineTokens_cons (start : Nat) (line : Text) (rest : List Text) :
    lineTokens start (line :: rest) = lineTokens start [line] ++ lineTokens (start + line.length) rest := by
  simp only [lineTokens]
  split <;> rfl

/-- Two tokens stand apart from each other. -/
theorem Follows.eq_or_apart {lo hi : Nat} {toks : List Token} (h : Follows lo toks hi) {tok tok' : Token}
    (htok : tok ∈ toks) (htok' : tok' ∈ toks) : tok = tok' ∨ tok.stop ≤ tok'.start ∨ tok'.stop ≤ tok.start :=
  List.Pairwise.forall_of_forall_of_flip (R := fun t u => t = u ∨ t.stop ≤ u.start ∨ u.stop ≤ t.start)
    (fun _ _ => .inl rfl) (h.apart.imp fun hle => .inr (.inl hle)) (h.apart.imp fun hle => .inr (.inr hle))
    htok htok'

/-- A name is not left out. -/
theorem splitTag_ne_nil {b : UInt8} (hb : Text.isAsciiBlank b = false) (t : Text) (start : Nat) :
    (splitTag (b :: t) start).1 ≠ [] := by
  rw [splitTag]
  by_cases hmark : b = '#'
  · rw [if_pos hmark]
    exact List.cons_ne_nil _ _
  · rw [if_neg hmark]
    dsimp only
    rw [List.takeWhile_cons_of_pos (by rw [hb]; rfl)]
    exact List.cons_ne_nil _ _

/-- The token of a line that starts with its name. -/
def lineToken (start : Nat) (t : Text) : Token :=
  { kind := .tag, start, stop := start + (Text.trimSpace t).length, name := (tagAt t start).1
    markup := (tagAt t start).2.1, markupStart := (tagAt t start).2.2, inLiquid := true }

theorem leadingBlanks_blanks {gap : Text} (hgap : ∀ b ∈ gap, Text.isAsciiBlank b = true) (t : Text) :
    leadingBlanks (gap ++ t) = gap.length + leadingBlanks t := by
  rw [leadingBlanks_eq, leadingBlanks_eq, List.takeWhile_append_of_pos hgap, List.length_append]

/-- Blanks in front of a line are not part of its token. -/
theorem lineTokens_blanks {gap t : Text} (hgap : ∀ b ∈ gap, Text.isAsciiBlank b = true)
    (ht : leadingBlanks t = 0) (hne : Text.trimSpace t ≠ []) (start : Nat) :
    lineTokens start [gap ++ t] = [lineToken (start + gap.length) t] := by
  have hne' : ¬ (Text.trimSpace t).isEmpty = true := fun hempty => hne (List.isEmpty_iff.1 hempty)
  simp only [lineTokens, Text.trimSpace_blanks_append hgap, if_neg hne', leadingBlanks_blanks hgap, ht]
  rw [lineToken, tagAt, ht]
  rfl

/-- A line has its token at its first byte that is no blank, or it is blank. -/
theorem exists_line {src : Text} {lo hi : Nat} (hle : lo ≤ hi) (hsize : hi ≤ src.length) :
    lineTokens lo [Text.slice src lo hi] = [] ∨
    ∃ first, lo ≤ first ∧ first ≤ hi ∧ (∀ b ∈ Text.slice src lo first, Text.isAsciiBlank b = true) ∧
      leadingBlanks (Text.slice src first hi) = 0 ∧ Text.trimSpace (Text.slice src first hi) ≠ [] := by
  by_cases hempty : Text.trimSpace (Text.slice src lo hi) = []
  · left
    simp only [lineTokens, if_pos (List.isEmpty_iff.2 hempty)]
  · right
    have hblanks := leadingBlanks_le (Text.slice src lo hi)
    rw [Text.length_slice hsize] at hblanks
    generalize hfirst : lo + leadingBlanks (Text.slice src lo hi) = first
    have hcut := Text.slice_split src (by omega : lo ≤ first) (by omega : first ≤ hi)
    have hgap : Text.slice src lo first = (Text.slice src lo hi).takeWhile Text.isAsciiBlank := by
      refine (List.append_inj (hcut.symm.trans List.takeWhile_append_dropWhile.symm) ?_).1
      rw [← leadingBlanks_eq, Text.length_slice (by omega)]
      omega
    have hblank : ∀ b ∈ Text.slice src lo first, Text.isAsciiBlank b = true := by
      rw [hgap]
      exact fun b hb => List.all_eq_true.1 List.all_takeWhile b hb
    refine ⟨first, by omega, by omega, hblank, ?_, ?_⟩
    · have hsum := leadingBlanks_blanks hblank (Text.slice src first hi)
      rw [← hcut, Text.length_slice (by omega)] at hsum
      omega
    · rw [hcut, Text.trimSpace_blanks_append hblank] at hempty
      exact hempty

theorem name_recast_ne_nil {src : Text} {edits : List Edit} {tok : Token} (hname : tok.name ≠ []) :
    (tok.recast (.ofEdits src edits)).name ≠ [] := by
  show (if tok.name = "include" ∧ _ then ("render" : Text) else tok.name) ≠ []
  split
  · decide
  · exact hname

section Renamings

variable {src : Text} {edits : List Edit} (h : Renaming src edits) {lo hi : Nat}

include h

/-- The token of a line is read again from the line with its name or its markup changed. -/
theorem lineToken_edited (hle : lo ≤ hi) (hsize : hi ≤ src.length)
    (hblank : leadingBlanks (Text.slice src lo hi) = 0) (hne : Text.trimSpace (Text.slice src lo hi) ≠ [])
    (hedits : ∀ e ∈ edits, e.stop ≤ lo ∨ hi ≤ e.start ∨ Names src e (lineToken lo (Text.slice src lo hi))) :
    leadingBlanks (edited src edits lo hi) = 0 ∧ Text.trimSpace (edited src edits lo hi) ≠ [] ∧
      lineToken ((Recast.ofEdits src edits).move lo) (edited src edits lo hi) =
        (lineToken lo (Text.slice src lo hi)).recast (.ofEdits src edits) := by
  have hline := @lineTokens_blanks [] _ nofun hblank hne lo
  have hplaces := tagAt_places (Text.slice src lo hi) lo
  rw [hblank, Text.length_slice hsize] at hplaces
  have hzone : Zone src edits (lineToken lo (Text.slice src lo hi)) lo hi :=
    { placed := ((follows_lineTokens lo [Text.slice src lo hi]).placed
        (by rw [← List.nil_append (Text.slice src lo hi), hline]; exact List.mem_singleton.2 rfl)).2.1
      start_le := Nat.le_refl _
      le := hle
      le_size := hsize
      front := by
        show _ ∉ Text.slice src lo lo
        simp [Text.slice]
      read := rfl
      edits := fun e he => by
        rcases hedits e he with hlo | hhi | hnames
        · exact .inl hlo
        · refine .inr (.inl ⟨Nat.le_trans ?_ hhi, hhi⟩)
          show lo + (Text.trimSpace (Text.slice src lo hi)).length ≤ hi
          omega
        · exact .inr (.inr hnames) }
  obtain ⟨hread, hblanks, hstop⟩ := hzone.kept h
  rw [hblank] at hblanks hstop
  simp only [Nat.add_zero] at hstop
  refine ⟨hblanks, fun hnil => ?_, ?_⟩
  · -- the name is not left out
    rw [tagAt, hnil] at hread
    refine @name_recast_ne_nil src edits _ ?_ (congrArg Prod.fst hread).symm
    show (tagAt (Text.slice src lo hi) lo).1 ≠ []
    cases htrim : Text.trimSpace (Text.slice src lo hi) with
    | nil => exact absurd htrim hne
    | cons b t =>
      rw [tagAt, htrim]
      exact splitTag_ne_nil (Text.isAsciiBlank_of_trimSpace htrim) t _
  · unfold Token.recast
    rw [lineToken, hread, ← hstop]
    rfl

/-- **One line.** -/
theorem lineTokens_edited (hle : lo ≤ hi) (hsize : hi ≤ src.length)
    (hedits : ∀ e ∈ edits, e.stop ≤ lo ∨ hi ≤ e.start ∨
      ∃ tok ∈ lineTokens lo [Text.slice src lo hi], Names src e tok) :
    lineTokens ((Recast.ofEdits src edits).move lo) [edited src edits lo hi] =
      (lineTokens lo [Text.slice src lo hi]).map (Token.recast (.ofEdits src edits)) := by
  rcases exists_line hle hsize with hnone | ⟨first, hlo, hhi, hgap, hblank, hne⟩
  · -- a line without a tag holds no edit
    rw [hnone] at hedits
    have hfree : Untouched edits lo hi := by
      intro e he
      rcases hedits e he with hlo | hhi | ⟨tok, htok, _⟩
      · exact .inl hlo
      · exact .inr hhi
      · cases htok
    rw [edited_of_untouched h.toEditsApart hle hfree, hnone]
    simp only [lineTokens] at hnone ⊢
    split at hnone
    · rename_i hempty
      rw [if_pos hempty]
      rfl
    · cases hnone
  · have htoken := lineTokens_blanks hgap hblank hne lo
    rw [← Text.slice_split src hlo hhi, Text.length_slice (by omega), Nat.add_sub_cancel' hlo] at htoken
    rw [htoken] at hedits ⊢
    have hplaced := (follows_lineTokens lo [Text.slice src lo hi]).placed
      (by rw [htoken]; exact List.mem_singleton.2 rfl)
    have hnames : ∀ e ∈ edits, e.stop ≤ lo ∨ hi ≤ e.start ∨
        Names src e (lineToken first (Text.slice src first hi)) := by
      intro e he
      refine (hedits e he).imp_right fun hedit => hedit.imp_right ?_
      rintro ⟨tok, htok, hnames⟩
      rwa [List.mem_singleton.1 htok] at hnames
    have hfree : Untouched edits lo first := by
      intro e he
      rcases hnames e he with hlo | hhi | hnames
      · exact .inl hlo
      · exact .inr (by omega)
      · exact .inr (hnames.bounds (h.stop_eq e he) hplaced.2.1).1
    obtain ⟨hblank', hne', htoken'⟩ := lineToken_edited h hhi hsize hblank hne fun e he =>
      (hnames e he).imp_left (Nat.le_trans · hlo)
    have hmove := move_of_untouched h hlo (by omega) hfree
    have hline := lineTokens_blanks hgap hblank' hne' ((Recast.ofEdits src edits).move lo)
    rw [Text.length_slice (by omega), ← hmove, htoken'] at hline
    rw [edited_append src edits hlo hhi, edited_of_untouched h.toEditsApart hlo hfree, hline]
    rfl

/-- The bytes of a line feed are not replaced. -/
theorem untouched_break {i : Nat} (hi : Text.slice src i (i + 1) = [('\n' : UInt8)]) :
    Untouched edits i (i + 1) := by
  intro e he
  refine Classical.byContradiction fun hnot => ?_
  have hlt := h.start_lt_stop e he
  have hold := h.old_eq e he
  rw [Text.slice_split src (by omega : e.start ≤ i) (by omega : i ≤ e.stop),
    Text.slice_split src (by omega : i ≤ i + 1) (by omega : i + 1 ≤ e.stop), hi] at hold
  have hmem : ('\n' : UInt8) ∈ ("include" : Text) := by
    rw [← hold]
    exact List.mem_append_right _ (List.mem_append_left _ (List.mem_singleton.2 rfl))
  exact absurd hmem (by decide)

theorem bounds_of_lineTokens {lines : List Text} {e : Edit} (he : e ∈ edits) {tok : Token}
    (htok : tok ∈ lineTokens lo lines) (hnames : Names src e tok) :
    lo ≤ e.start ∧ e.stop ≤ lo + sumOf (lines.map List.length) := by
  obtain ⟨hlo, hplaced, hhi⟩ := (follows_lineTokens lo lines).placed htok
  have := hnames.bounds (h.stop_eq e he) hplaced
  omega

/-- No line feed comes in. -/
theorem notMem_edited (hle : lo ≤ hi) (hlo : Between edits lo) (hhi : Between edits hi)
    (hfree : ('\n' : UInt8) ∉ Text.slice src lo hi) : ('\n' : UInt8) ∉ edited src edits lo hi := by
  have hword : ('\n' : UInt8) ∉ ("render" : Text) := by decide
  refine renamed_induction (Q := fun t => ('\n' : UInt8) ∉ t) h (fun u v hnot => ?_) hle hlo hhi hfree
  simp only [List.mem_append, not_or] at hnot ⊢
  exact ⟨hnot.1, hword, hnot.2.2⟩

/-- **The first line of a part of the source** is the first line with the edits. -/
theorem linesWithEnds_break {mid : Nat} (hle : lo ≤ mid) (hlt : mid < hi)
    (hnot : ('\n' : UInt8) ∉ Text.slice src lo mid) (hfeed : Text.slice src mid (mid + 1) = [('\n' : UInt8)])
    (hlo : Between edits lo) :
    Text.linesWithEnds (Text.slice src lo hi) =
      Text.slice src lo (mid + 1) :: Text.linesWithEnds (Text.slice src (mid + 1) hi) ∧
    Text.linesWithEnds (edited src edits lo hi) =
      edited src edits lo (mid + 1) :: Text.linesWithEnds (edited src edits (mid + 1) hi) := by
  have hfree := untouched_break h hfeed
  constructor
  · rw [Text.slice_split src (by omega : lo ≤ mid + 1) hlt, Text.slice_split src hle (Nat.le_succ mid), hfeed,
      List.append_assoc, List.singleton_append, Text.linesWithEnds_append hnot]
  · have hnot' := notMem_edited h hle hlo (fun e he => (hfree e he).imp_right fun hle => by omega) hnot
    rw [edited_append src edits (by omega : lo ≤ mid + 1) hlt, edited_append src edits hle (Nat.le_succ mid),
      edited_of_untouched h.toEditsApart (Nat.le_succ mid) hfree, hfeed, List.append_assoc,
      List.singleton_append, Text.linesWithEnds_append hnot']

/-- **The lines of a part of the source** are read again with their names and markups changed. -/
theorem lineTokens_linesWithEnds (hle : lo ≤ hi) (hsize : hi ≤ src.length)
    (hedits : ∀ e ∈ edits, e.stop ≤ lo ∨ hi ≤ e.start ∨
      ∃ tok ∈ lineTokens lo (Text.linesWithEnds (Text.slice src lo hi)), Names src e tok) :
    lineTokens ((Recast.ofEdits src edits).move lo) (Text.linesWithEnds (edited src edits lo hi)) =
      (lineTokens lo (Text.linesWithEnds (Text.slice src lo hi))).map (Token.recast (.ofEdits src edits)) := by
  induction hn : hi - lo using Nat.strongRecOn generalizing lo with
  | ind n ih =>
    have hinside : ∀ e ∈ edits, e.stop ≤ lo ∨ hi ≤ e.start ∨ lo ≤ e.start ∧ e.stop ≤ hi := by
      intro e he
      refine (hedits e he).imp_right fun hedit => hedit.imp_right fun ⟨tok, htok, hnames⟩ => ?_
      have hbounds := bounds_of_lineTokens h he htok hnames
      rw [sumOf_length_linesWithEnds, Text.length_slice hsize] at hbounds
      omega
    have hbetween : Between edits lo ∧ Between edits hi := by
      constructor
      all_goals
        intro e he
        have := hinside e he
        omega
    by_cases hbreak : ('\n' : UInt8) ∈ Text.slice src lo hi
    · -- the first line, and the rest
      obtain ⟨mid, hlo, hlt, hnot, hfeed⟩ := Text.exists_break hle hsize hbreak
      obtain ⟨hlines, hlines'⟩ := linesWithEnds_break h hlo hlt hnot hfeed hbetween.1
      have hplace : lo + (Text.slice src lo (mid + 1)).length = mid + 1 := by
        rw [Text.length_slice (by omega)]
        omega
      rw [hlines, lineTokens_cons, hplace] at hedits ⊢
      have hone : ∀ e ∈ edits, e.stop ≤ lo ∨ mid + 1 ≤ e.start ∨
          ∃ tok ∈ lineTokens lo [Text.slice src lo (mid + 1)], Names src e tok := by
        intro e he
        rcases hedits e he with hlo | hhi | ⟨tok, htok, hnames⟩
        · exact .inl hlo
        · exact .inr (.inl (by omega))
        · rcases List.mem_append.1 htok with htok | htok
          · exact .inr (.inr ⟨tok, htok, hnames⟩)
          · exact .inr (.inl (bounds_of_lineTokens h he htok hnames).1)
      have hmore : ∀ e ∈ edits, e.stop ≤ mid + 1 ∨ hi ≤ e.start ∨
          ∃ tok ∈ lineTokens (mid + 1) (Text.linesWithEnds (Text.slice src (mid + 1) hi)), Names src e tok := by
        intro e he
        rcases hedits e he with hlo | hhi | ⟨tok, htok, hnames⟩
        · exact .inl (by omega)
        · exact .inr (.inl hhi)
        · rcases List.mem_append.1 htok with htok | htok
          · have hbounds := (bounds_of_lineTokens h he htok hnames).2
            rw [List.map_singleton, sumOf_cons, sumOf_nil, Nat.add_zero, hplace] at hbounds
            exact .inl hbounds
          · exact .inr (.inr ⟨tok, htok, hnames⟩)
      rw [hlines', lineTokens_cons, move_add src edits (by omega), List.map_append,
        lineTokens_edited h (by omega) (by omega) hone, ih (hi - (mid + 1)) (by omega) (by omega) hmore rfl]
    · rw [Text.linesWithEnds_of_not_mem hbreak] at hedits ⊢
      rw [Text.linesWithEnds_of_not_mem (notMem_edited h hle hbetween.1 hbetween.2 hbreak)]
      exact lineTokens_edited h hle hsize hedits

/-! ## The lines of a tag -/

/-- A token with no edit in it moves. -/
theorem recast_of_untouched {tok : Token} (hplaced : tok.Placed) (hfree : Untouched edits tok.start tok.stop) :
    tok.recast (.ofEdits src edits) = tok.moved (Recast.ofEdits src edits).move := by
  have hmarkup := hplaced.markup_le_stop
  have hstart := hplaced.start_le_markup
  have hname : (tok.recast (.ofEdits src edits)).name = tok.name :=
    if_neg fun hedit => not_hasEdit h hfree hedit.2
  have hmarkup : (tok.recast (.ofEdits src edits)).markup = tok.markup :=
    if_neg fun hedit => not_hasEdit h (hfree.mono hstart hmarkup) hedit.2
  unfold Token.recast at hname hmarkup ⊢
  dsimp only at hname hmarkup
  rw [hname, hmarkup]
  rfl

/-- The edits in a tag of lines stand in its lines. -/
theorem Token.Holds.line {tok : Token} (hholds : tok.Holds src edits) (hname : tok.name = "liquid")
    (hplaced : tok.Placed) {line : Token} (hline : line ∈ liquidLines tok.markup tok.markupStart) :
    line.Holds src edits := by
  have hfollows := follows_liquidLines tok.markup tok.markupStart
  obtain ⟨hlo, _, hhi⟩ := hfollows.placed hline
  have := hplaced.start_le_markup
  have := hplaced.markup_le_stop
  intro e he
  rcases hholds e he with hle | hle | hnames
  · exact .inl (by omega)
  · exact .inr (.inl (by omega))
  · cases hnames with
    | here _ hname' _ _ =>
      rw [hname] at hname'
      exact absurd hname' (by decide)
    | @line _ line' _ _ _ hline' hnames =>
      obtain ⟨_, hplaced', _⟩ := hfollows.placed hline'
      have hbounds := hnames.bounds (h.stop_eq e he) hplaced'
      rcases hfollows.eq_or_apart hline hline' with rfl | hle | hle
      · exact .inr (.inr hnames)
      · exact .inr (.inl (by omega))
      · exact .inl (by omega)

/-- **The lines of a tag** are read again with their names and markups changed. -/
theorem liquidLines_edited {tok : Token} (hholds : tok.Holds src edits) (hname : tok.name = "liquid")
    (hplaced : tok.Placed) (hsize : tok.stop ≤ src.length) :
    liquidLines (tok.recast (.ofEdits src edits)).markup (tok.recast (.ofEdits src edits)).markupStart =
      (liquidLines tok.markup tok.markupStart).map (Token.recast (.ofEdits src edits)) := by
  have hstart := hplaced.start_le_markup
  have hmarkup := hplaced.markup_le_stop
  by_cases hany : ∃ e ∈ edits, Names src e tok
  · obtain ⟨e, he, hnames⟩ := hany
    cases hnames with
    | here _ hname' _ _ =>
      rw [hname] at hname'
      exact absurd hname' (by decide)
    | line _ _ hplace hline hnames =>
      obtain ⟨hfirst, hlast⟩ := Zone.le_of_line h he hline hnames
      have hmarkup' : (tok.recast (.ofEdits src edits)).markup =
          edited src edits tok.markupStart (tok.markupStart + tok.markup.length) :=
        if_pos ⟨hname, hasEdit_of_mem he hfirst hlast⟩
      have hlines := lineTokens_linesWithEnds h (Nat.le_add_right tok.markupStart tok.markup.length) (by omega)
        (fun e' he' => ?_)
      · rw [hplace, ← hmarkup'] at hlines
        exact hlines
      · rw [hplace]
        rcases hholds e' he' with hle | hle | hnames'
        · exact .inl (by omega)
        · exact .inr (.inl (by omega))
        · cases hnames' with
          | here _ hname' _ _ =>
            rw [hname] at hname'
            exact absurd hname' (by decide)
          | line _ _ _ hline' hnames' => exact .inr (.inr ⟨_, hline', hnames'⟩)
  · have hfree := hholds.untouched fun e he hnames => hany ⟨e, he, hnames⟩
    have hmoved : (liquidLines tok.markup tok.markupStart).map (Token.recast (.ofEdits src edits)) =
        (liquidLines tok.markup tok.markupStart).map (Token.moved (Recast.ofEdits src edits).move) := by
      refine List.map_congr_left fun line hline => ?_
      obtain ⟨hlo, hplaced', hhi⟩ := (follows_liquidLines tok.markup tok.markupStart).placed hline
      exact recast_of_untouched h hplaced' (hfree.mono (by omega) (by omega))
    have hsame := recast_of_untouched h hplaced hfree
    rw [hmoved, hsame]
    refine @lineTokens_moved (Recast.ofEdits src edits).move tok.markupStart _ fun i hi => ?_
    rw [sumOf_length_linesWithEnds] at hi
    have hi : i ≤ tok.markup.length := hi
    rw [move_of_untouched h (by omega : tok.markupStart ≤ tok.markupStart + i) (by omega)
      (hfree.mono (by omega) (by omega)), Nat.add_sub_cancel_left]

end Renamings

/-! ## Delimiters -/

/-- No delimiter is made or broken by a word. -/
theorem isChain_replace {d : Delimiter} {u v w w' : Text} (hw' : Text.IsWord w')
    (h : (u ++ (w ++ v)).IsChain (Rule.Spacing.Apart d)) : (u ++ (w' ++ v)).IsChain (Rule.Spacing.Apart d) := by
  have hneutral : ∀ b ∈ w', Rule.Spacing.Neutral b := by
    intro b hb
    have hne := Text.ne_of_isLower (hw'.lower b hb)
    refine ⟨hne.2.2.1, ?_, hne.2.2.2.1⟩
    rintro rfl
    exact absurd (hw'.lower _ hb) (by decide)
  obtain ⟨hu, hrest, _⟩ := List.isChain_append.1 h
  obtain ⟨_, hv, _⟩ := List.isChain_append.1 hrest
  refine List.isChain_append.2 ⟨hu, Rule.Spacing.isChain_neutral_append hneutral hv, fun a _ b hb => ?_⟩
  obtain ⟨c, t, rfl⟩ := List.exists_cons_of_ne_nil hw'.ne_nil
  obtain rfl : c = b := Option.some.inj hb
  exact (hneutral c (List.mem_cons_self ..)).apart_right d a

/-- The body between two delimiters has no dash at an end where there is no mark. -/
structure Inner.Tight (left right : Bool) (body : Text) : Prop where
  ne_nil : body ≠ []
  head : left = false → body.head? ≠ some Inner.mark
  last : right = false → body.getLast? ≠ some Inner.mark

theorem Inner.tight_ofText {inner : Text} (hne : (Inner.ofText inner).body ≠ []) :
    Inner.Tight (Inner.ofText inner).left (Inner.ofText inner).right (Inner.ofText inner).body := by
  refine ⟨hne, fun hleft => ?_, fun hright => ?_⟩
  · have htext := Inner.text_ofText inner
    unfold Inner.text at htext
    rw [hleft] at htext
    have hhead : (Inner.ofText inner).body.head? = inner.head? := by
      conv_rhs => rw [← htext]
      exact (List.head?_append_of_ne_nil _ hne).symm
    rw [hhead]
    exact of_decide_eq_false hleft
  · have hnot := of_decide_eq_false hright
    unfold Inner.ofText
    dsimp only
    rw [if_neg hnot]
    exact hnot

theorem Inner.Tight.replace {left right : Bool} {u v w w' : Text}
    (h : Inner.Tight left right (u ++ (w ++ v))) (hw' : Text.IsWord w') :
    Inner.Tight left right (u ++ (w' ++ v)) := by
  have hmark : ∀ b ∈ w', b ≠ Inner.mark := fun b hb => (Text.ne_of_isLower (hw'.lower b hb)).2.1
  refine ⟨by simp [hw'.ne_nil], fun hleft => ?_, fun hright => ?_⟩
  · have hhead := h.head hleft
    cases u with
    | nil =>
      rw [List.nil_append, List.head?_append_of_ne_nil _ hw'.ne_nil]
      exact fun hmem => hmark _ (List.mem_of_mem_head? hmem) rfl
    | cons b u => exact hhead
  · have hlast := h.last hright
    rw [← List.append_assoc] at hlast ⊢
    by_cases hv : v = []
    · rw [hv, List.append_nil, List.getLast?_append_of_ne_nil _ hw'.ne_nil]
      exact fun hmem => hmark _ (List.mem_of_getLast? hmem) rfl
    · rw [List.getLast?_append_of_ne_nil _ hv] at hlast ⊢
      exact hlast

/-- The parts between the delimiters of a tag. -/
theorem slices_delimited {src : Text} {start : Nat} {inner : Text}
    (hslice : Text.slice src start (start + inner.length + 4) =
      Delimiter.tag.opener ++ (inner ++ Delimiter.tag.closer)) {lo hi : Nat}
    (hlo : lo = (Inner.ofText inner).bodyStart start) (hhi : hi = lo + (Inner.ofText inner).body.length) :
    Text.slice src start lo = Delimiter.tag.opener ++ Inner.dash (Inner.ofText inner).left ∧
      Text.slice src lo hi = (Inner.ofText inner).body ∧
      Text.slice src hi (start + inner.length + 4) =
        Inner.dash (Inner.ofText inner).right ++ Delimiter.tag.closer ∧
      start ≤ lo ∧ lo ≤ hi ∧ hi ≤ start + inner.length + 4 := by
  have htext := Inner.text_ofText inner
  generalize Inner.ofText inner = i at *
  subst htext
  have hcut : Delimiter.tag.opener ++ (i.text ++ Delimiter.tag.closer) =
      (Delimiter.tag.opener ++ Inner.dash i.left) ++
        (i.body ++ (Inner.dash i.right ++ Delimiter.tag.closer)) := by
    simp only [Inner.text, List.append_assoc]
  have hlength : start + i.text.length + 4 =
      start + (Delimiter.tag.opener ++ (i.text ++ Delimiter.tag.closer)).length := by
    simp only [List.length_append, Delimiter.length_opener, Delimiter.length_closer]
    omega
  rw [hlength, hcut] at hslice
  obtain ⟨hfront, hrest⟩ := Text.slice_halves hslice
  obtain ⟨hbody, hback⟩ := Text.slice_halves hrest
  have hlo' : start + (Delimiter.tag.opener ++ Inner.dash i.left).length = lo := by
    rw [hlo, List.length_append, Delimiter.length_opener, Inner.bodyStart]
    omega
  rw [hlo'] at hfront hbody hback
  rw [← hhi] at hbody hback
  have hend : hi + (Inner.dash i.right ++ Delimiter.tag.closer).length = start + i.text.length + 4 := by
    rw [hlength, hcut, hhi, ← hlo']
    simp only [List.length_append]
    omega
  rw [hend] at hback
  exact ⟨hfront, hbody, hback, by omega, by omega, by omega⟩

/-- A tag is read from what stands between its delimiters, without marks. -/
theorem delimited_tag_eq (start : Nat) (inner : Text) :
    Token.delimited .tag start inner =
      let i := Inner.ofText inner
      let parts := tagAt i.body (i.bodyStart start)
      { kind := .tag, start, stop := start + inner.length + 4, name := parts.1, markup := parts.2.1,
        markupStart := parts.2.2, trimLeft := i.left, trimRight := i.right } :=
  Token.delimited_eq .tag start inner

/-- The bytes between the delimiters of a tag, without marks, are where the tag is read from. -/
theorem zone_delimited {src : Text} {edits : List Edit} {start : Nat} {inner : Text}
    (hsize : start + inner.length + 4 ≤ src.length)
    (hslice : Text.slice src start (start + inner.length + 4) =
      Delimiter.tag.opener ++ (inner ++ Delimiter.tag.closer))
    (hholds : (Token.delimited .tag start inner).Holds src edits) {lo hi : Nat}
    (hlo : lo = (Inner.ofText inner).bodyStart start) (hhi : hi = lo + (Inner.ofText inner).body.length) :
    Zone src edits (Token.delimited .tag start inner) lo hi := by
  obtain ⟨hfront, hbody, _, hle, hle', hle''⟩ := slices_delimited hslice hlo hhi
  refine ⟨Token.placed_delimited _ _ _, hle, hle', by omega, ?_, ?_, fun e he => ?_⟩
  · rw [Token.start_delimited, hfront]
    cases (Inner.ofText inner).left <;> decide
  · rw [hbody, delimited_tag_eq, hlo]
  · rcases hholds e he with hlo | hhi | hnames
    · exact .inl hlo
    · rw [Token.stop_delimited] at hhi
      exact .inr (.inl ⟨by rwa [Token.stop_delimited], by omega⟩)
    · exact .inr (.inr hnames)

section Renamings

variable {src : Text} {edits : List Edit} (h : Renaming src edits) {lo hi : Nat}

include h

/-- **Delimiters without an edit between them** have the same token elsewhere. -/
theorem delimited_of_untouched {d : Delimiter} {start : Nat} {inner : Text}
    (hsize : start + inner.length + 4 ≤ src.length)
    (hfree : Untouched edits start (start + inner.length + 4)) :
    Token.delimited d ((Recast.ofEdits src edits).move start) inner =
      (Token.delimited d start inner).recast (.ofEdits src edits) := by
  have hplaced := Token.placed_delimited d start inner
  have hmarkup := hplaced.markup_le_stop
  rw [recast_of_untouched h hplaced (by rwa [Token.start_delimited, Token.stop_delimited])]
  rw [Token.stop_delimited] at hmarkup
  have hmove (i : Nat) (hi : i ≤ inner.length + 4) : (Recast.ofEdits src edits).move (start + i) =
      (Recast.ofEdits src edits).move start + i := by
    rw [move_of_untouched h (Nat.le_add_right start i) (by omega) (hfree.mono (Nat.le_refl _) (by omega)),
      Nat.add_sub_cancel_left]
  rw [Token.delimited_shift d start] at hmarkup ⊢
  rw [Token.delimited_shift]
  dsimp only at hmarkup
  simp only [Token.moved, Token.mk.injEq, true_and, and_true]
  rw [Nat.add_assoc start, hmove _ (Nat.le_refl _), hmove _ (by omega)]
  exact ⟨by omega, rfl⟩

/-- No delimiter is made or broken between the marks of a tag. -/
theorem isChain_edited {left right : Bool} (hle : lo ≤ hi) (hlo : Between edits lo) (hhi : Between edits hi)
    (hold : ((Inner.mk left (Text.slice src lo hi) right).text ++ [Delimiter.tag.closeMark]).IsChain
      (Rule.Spacing.Apart .tag)) :
    ((Inner.mk left (edited src edits lo hi) right).text ++ [Delimiter.tag.closeMark]).IsChain
      (Rule.Spacing.Apart .tag) := by
  refine renamed_induction (Q := fun t => ((Inner.mk left t right).text ++ [Delimiter.tag.closeMark]).IsChain
    (Rule.Spacing.Apart .tag)) h (fun u v hold => ?_) hle hlo hhi hold
  simp only [Inner.text, List.append_assoc] at hold ⊢
  rw [← List.append_assoc] at hold ⊢
  exact isChain_replace isWord_render hold

/-- **A tag with an edit at a name** is read again with its name or its markup changed, from its body with the
edits. -/
theorem exists_inner_of_names {start : Nat} {inner : Text} (hsize : start + inner.length + 4 ≤ src.length)
    (hslice : Text.slice src start (start + inner.length + 4) =
      Delimiter.tag.opener ++ (inner ++ Delimiter.tag.closer))
    (hholds : (Token.delimited .tag start inner).Holds src edits) {e : Edit} (he : e ∈ edits)
    (hnames : Names src e (Token.delimited .tag start inner)) :
    ∃ inner', edited src edits start (start + inner.length + 4) =
        Delimiter.tag.opener ++ (inner' ++ Delimiter.tag.closer) ∧
      Token.delimited .tag ((Recast.ofEdits src edits).move start) inner' =
        (Token.delimited .tag start inner).recast (.ofEdits src edits) ∧
      ((inner ++ [Delimiter.tag.closeMark]).IsChain (Rule.Spacing.Apart .tag) →
        (inner' ++ [Delimiter.tag.closeMark]).IsChain (Rule.Spacing.Apart .tag)) := by
  obtain ⟨lo, hlo⟩ : ∃ lo, lo = (Inner.ofText inner).bodyStart start := ⟨_, rfl⟩
  obtain ⟨hi, hhi⟩ : ∃ hi, hi = lo + (Inner.ofText inner).body.length := ⟨_, rfl⟩
  obtain ⟨hfront, hbody, hback, hle, hle', hle''⟩ := slices_delimited hslice hlo hhi
  have hzone := zone_delimited hsize hslice hholds hlo hhi
  have hinside : ∀ e ∈ edits, e.stop ≤ start ∨ start + inner.length + 4 ≤ e.start ∨
      lo ≤ e.start ∧ e.stop ≤ hi := by
    intro e he
    rcases hholds e he with hle | hle | hnames
    · exact .inl (by rwa [Token.start_delimited] at hle)
    · exact .inr (.inl (by rwa [Token.stop_delimited] at hle))
    · exact .inr (.inr (hzone.bounds_of_names h he hnames))
  have hplaces : Between edits lo ∧ Between edits hi ∧ Untouched edits start lo ∧
      Untouched edits hi (start + inner.length + 4) := by
    refine ⟨?_, ?_, ?_, ?_⟩
    all_goals
      intro e he
      have := hinside e he
      omega
  obtain ⟨hbetween, hbetween', hfree, hfree'⟩ := hplaces
  have hne : (Inner.ofText inner).body ≠ [] := by
    intro hnil
    have hinside := hzone.bounds_of_names h he hnames
    have hlt := h.start_lt_stop e he
    rw [hnil, List.length_nil] at hhi
    omega
  have htight : Inner.Tight (Inner.ofText inner).left (Inner.ofText inner).right (edited src edits lo hi) :=
    renamed_induction h (fun _ _ htight => htight.replace isWord_render) hle' hbetween hbetween'
      (by rw [hbody]; exact Inner.tight_ofText hne)
  let i : Inner := ⟨(Inner.ofText inner).left, edited src edits lo hi, (Inner.ofText inner).right⟩
  have hparts : Inner.ofText i.text = i := Inner.ofText_text htight.ne_nil htight.head htight.last
  have hmove : (Recast.ofEdits src edits).move lo = i.bodyStart ((Recast.ofEdits src edits).move start) := by
    rw [move_of_untouched h hle (by omega) hfree, hlo]
    show _ = _ + 2 + (Inner.dash (Inner.ofText inner).left).length
    unfold Inner.bodyStart
    omega
  have hedited : edited src edits start (start + inner.length + 4) =
      Delimiter.tag.opener ++ (i.text ++ Delimiter.tag.closer) := by
    rw [edited_append src edits hle (Nat.le_trans hle' hle''), edited_append src edits hle' hle'',
      edited_of_untouched h.toEditsApart hle hfree, edited_of_untouched h.toEditsApart hle'' hfree',
      hfront, hback]
    simp only [Inner.text, i, List.append_assoc]
  refine ⟨i.text, hedited, ?_, fun hchain => ?_⟩
  · have hread := (hzone.kept h).read
    have hstop := move_add src edits (by omega : start ≤ start + inner.length + 4)
    rw [hedited] at hstop
    simp only [List.length_append, Delimiter.length_opener, Delimiter.length_closer] at hstop
    rw [hmove] at hread
    have hnew := delimited_tag_eq ((Recast.ofEdits src edits).move start) i.text
    rw [hparts] at hnew
    rw [hnew]
    dsimp only
    change tagAt i.body _ = _ at hread
    rw [hread]
    unfold Token.recast
    rw [delimited_tag_eq]
    simp only [Token.mk.injEq, true_and, and_true]
    exact ⟨by omega, rfl, rfl⟩
  · refine isChain_edited h hle' hbetween hbetween' ?_
    rw [hbody]
    show ((Inner.ofText inner).text ++ _).IsChain _
    rwa [Inner.text_ofText]

/-- **A variable or tag** is read again with its name or its markup changed. -/
theorem exists_inner_edited {d : Delimiter} {start : Nat} {inner : Text}
    (hsize : start + inner.length + 4 ≤ src.length)
    (hslice : Text.slice src start (start + inner.length + 4) = d.opener ++ (inner ++ d.closer))
    (hholds : (Token.delimited d start inner).Holds src edits) :
    ∃ inner', edited src edits start (start + inner.length + 4) = d.opener ++ (inner' ++ d.closer) ∧
      Token.delimited d ((Recast.ofEdits src edits).move start) inner' =
        (Token.delimited d start inner).recast (.ofEdits src edits) ∧
      ((inner ++ [d.closeMark]).IsChain (Rule.Spacing.Apart d) →
        (inner' ++ [d.closeMark]).IsChain (Rule.Spacing.Apart d)) := by
  by_cases hany : ∃ e ∈ edits, Names src e (Token.delimited d start inner)
  · obtain ⟨e, he, hnames⟩ := hany
    have hkind : (Token.delimited d start inner).kind = .tag := hnames.kind_eq
    cases d with
    | «variable» => exact nomatch hkind
    | tag => exact exists_inner_of_names h hsize hslice hholds he hnames
  · have hfree := hholds.untouched fun e he hnames => hany ⟨e, he, hnames⟩
    rw [Token.start_delimited, Token.stop_delimited] at hfree
    refine ⟨inner, ?_, delimited_of_untouched h hsize hfree, id⟩
    rw [edited_of_untouched h.toEditsApart (by omega) hfree, hslice]

/-- The delimiters of an end tag are read again as they are. -/
theorem eq_of_closes {d : Delimiter} {start : Nat} {inner inner' name block : Text}
    (hrole : tagRole name = .closes block) (hname : (Token.delimited d start inner).name = name)
    (hslice : Text.slice src start (start + inner.length + 4) = d.opener ++ (inner ++ d.closer))
    (hholds : (Token.delimited d start inner).Holds src edits)
    (hedited : edited src edits start (start + inner.length + 4) = d.opener ++ (inner' ++ d.closer)) :
    inner = inner' := by
  have hfree := hholds.untouched fun e _ hnames => hnames.not_closes block (by rwa [hname])
  rw [Token.start_delimited, Token.stop_delimited] at hfree
  rw [edited_of_untouched h.toEditsApart (by omega) hfree, hslice] at hedited
  exact List.append_cancel_right (List.append_cancel_left hedited)

/-! ## Rounds -/

/-- Text holds no edit, and has the same token elsewhere. -/
theorem textTokens_edited {start : Nat} {t : Text} (hsize : start + t.length ≤ src.length)
    (hholds : ∀ tok ∈ textTokens start t, tok.Holds src edits) :
    edited src edits start (start + t.length) = Text.slice src start (start + t.length) ∧
      (Recast.ofEdits src edits).move (start + t.length) = (Recast.ofEdits src edits).move start + t.length ∧
      textTokens ((Recast.ofEdits src edits).move start) t =
        (textTokens start t).map (Token.recast (.ofEdits src edits)) := by
  unfold textTokens at hholds ⊢
  by_cases hempty : t.isEmpty = true
  · rw [if_pos hempty, if_pos hempty, List.isEmpty_iff.1 hempty]
    simp [Text.slice]
  · rw [if_neg hempty] at hholds ⊢
    rw [if_neg hempty]
    have hpos : 0 < t.length := List.length_pos_iff.2 fun hnil => hempty (List.isEmpty_iff.2 hnil)
    have hfree := (hholds _ (List.mem_singleton_self _)).untouched fun e _ hnames => by cases hnames.kind_eq
    have hmove := move_of_untouched h (Nat.le_add_right start t.length) hsize hfree
    rw [Nat.add_sub_cancel_left] at hmove
    refine ⟨edited_of_untouched h.toEditsApart (Nat.le_add_right _ _) hfree, hmove, ?_⟩
    rw [List.map_singleton, recast_of_untouched h (by constructor <;> simp [hpos]) hfree]
    simp only [Token.moved, hmove]

/-- An opener that is not answered holds no edit, and has the same token elsewhere. -/
theorem unterminatedToken_edited {d : Delimiter} {start : Nat} {junk : Text}
    (hsize : start + 2 + junk.length ≤ src.length)
    (hholds : (unterminatedToken d start junk).Holds src edits) :
    edited src edits start (start + 2 + junk.length) = Text.slice src start (start + 2 + junk.length) ∧
      (Recast.ofEdits src edits).move (start + 2 + junk.length) =
        (Recast.ofEdits src edits).move start + 2 + junk.length ∧
      unterminatedToken d ((Recast.ofEdits src edits).move start) junk =
        (unterminatedToken d start junk).recast (.ofEdits src edits) := by
  have hfree : Untouched edits start (start + 2 + junk.length) :=
    hholds.untouched fun e _ hnames => by cases hnames.kind_eq
  have hmove := move_of_untouched h (by omega : start ≤ start + 2 + junk.length) hsize hfree
  have hmove' : (Recast.ofEdits src edits).move (start + 2 + junk.length) =
      (Recast.ofEdits src edits).move start + 2 + junk.length := by omega
  refine ⟨edited_of_untouched h.toEditsApart (by omega) hfree, hmove', ?_⟩
  rw [recast_of_untouched h (placed_unterminatedToken _ _ _) hfree]
  simp only [Token.moved, unterminatedToken, hmove']

omit h in
/-- The verbatim body behind a tag does not depend on its new name. -/
theorem verbatimBody_recast (tok : Token) (t : Text) :
    verbatimBody (tok.recast (.ofEdits src edits)) t = verbatimBody tok t := by
  unfold verbatimBody
  have hname (name : Text) (hne : name ≠ "include") (hne' : name ≠ "render") :
      (tok.recast (.ofEdits src edits)).name = name ↔ tok.name = name := by
    show (if tok.name = "include" ∧ _ then ("render" : Text) else tok.name) = name ↔ _
    split
    · rename_i hinclude
      rw [hinclude.1]
      exact iff_of_false hne'.symm hne.symm
    · exact Iff.rfl
  have hraw := hname "raw" (by decide) (by decide)
  have hcomment := hname "comment" (by decide) (by decide)
  simp only [hraw, hcomment]
  rfl

/-- **The source is read in the same rounds** with the edits, from any token on. -/
theorem Reads.renamed {start : Nat} {rest : Text} {toks : List Token} (hreads : Reads start rest toks)
    (hle : start ≤ src.length) (hrest : Text.slice src start src.length = rest)
    (hholds : ∀ tok ∈ toks, tok.Holds src edits) :
    Reads ((Recast.ofEdits src edits).move start) (edited src edits start src.length)
        (toks.map (Token.recast (.ofEdits src edits))) ∧
      SameFront rest (edited src edits start src.length) := by
  induction hreads with
  | @plain start rest hplain =>
    have hend : start + rest.length = src.length := by
      rw [← hrest, Text.length_slice (Nat.le_refl _)]
      omega
    obtain ⟨hsame, _, htokens⟩ := textTokens_edited h (Nat.le_of_eq hend) hholds
    rw [hend, hrest] at hsame
    rw [hsame, ← htokens]
    exact ⟨.plain hplain, .refl rest⟩
  | @unterminated start before junk rest d toks hbefore hopen hjunk _ ih =>
    obtain ⟨hsize, hslice, hafter⟩ := Text.slice_parts hle hrest
    obtain ⟨hsize', hslice', hafter'⟩ := @Text.slice_parts src (d.opener ++ junk) rest _ hsize
      (by rw [hafter, List.append_assoc])
    rw [List.length_append, Delimiter.length_opener, ← Nat.add_assoc] at hsize' hslice' hafter'
    obtain ⟨hsame, hmove, htokens⟩ := textTokens_edited h hsize fun tok htok => hholds tok (by simp [htok])
    have hholds' := hholds (unterminatedToken d (start + before.length) junk) (by simp)
    obtain ⟨hsame', hmove', htoken⟩ := unterminatedToken_edited h hsize' hholds'
    obtain ⟨hreads, hfront⟩ := ih hsize' hafter' fun tok htok => hholds tok (by simp [htok])
    obtain ⟨hopen', hjunk'⟩ := hfront.unterminated hopen hjunk
    rw [hmove] at hmove' htoken
    rw [hmove'] at hreads
    rw [edited_append src edits (by omega : start ≤ start + before.length) hsize,
      edited_append src edits (by omega : start + before.length ≤ start + before.length + 2 + junk.length) hsize',
      hsame, hslice, hsame', hslice', List.append_assoc, List.map_append, List.map_cons, ← htokens, ← htoken]
    exact ⟨.unterminated (untilOpener_congr hbefore _) hopen' hjunk' hreads, sameFront_of_before hbefore
      fun _ _ _ _ hname => absurd hname (bareTag?_ne_of_untilCloser hopen)⟩
  | @delimited start before inner body rest d toks hbefore hclose hbody _ ih =>
    obtain ⟨hsize, hslice, hafter⟩ := Text.slice_parts hle hrest
    obtain ⟨hsize', hslice', hafter'⟩ := @Text.slice_parts src (d.opener ++ (inner ++ d.closer)) (body ++ rest) _
      hsize (by rw [hafter, List.append_assoc, List.append_assoc])
    have hlength : start + before.length + (d.opener ++ (inner ++ d.closer)).length =
        start + before.length + inner.length + 4 := by
      simp only [List.length_append, Delimiter.length_opener, Delimiter.length_closer]
      omega
    rw [hlength] at hsize' hslice' hafter'
    obtain ⟨hsize'', hslice'', hafter''⟩ := Text.slice_parts hsize' hafter'
    obtain ⟨hsame, hmove, htokens⟩ := textTokens_edited h hsize fun tok htok => hholds tok (by simp [htok])
    have hholds' := hholds (Token.delimited d (start + before.length) inner) (by simp)
    obtain ⟨inner', hedited, htoken, hchain⟩ := exists_inner_edited h hsize' hslice' hholds'
    obtain ⟨hsame'', hmove'', htokens''⟩ := textTokens_edited h hsize'' fun tok htok => hholds tok (by simp [htok])
    obtain ⟨hreads, hfront⟩ := ih hsize'' hafter'' fun tok htok => hholds tok (by simp [htok])
    have hstop : (Recast.ofEdits src edits).move (start + before.length + inner.length + 4) =
        (Recast.ofEdits src edits).move start + before.length + inner'.length + 4 := by
      rw [← move_add src edits (by omega : start + before.length ≤ start + before.length + inner.length + 4),
        hedited, hmove]
      simp only [List.length_append, Delimiter.length_opener, Delimiter.length_closer]
      omega
    rw [hstop] at hmove'' htokens''
    rw [hmove''] at hreads
    rw [hmove] at htoken
    rw [edited_append src edits (by omega : start ≤ start + before.length) hsize,
      edited_append src edits (by omega : start + before.length ≤ start + before.length + inner.length + 4) hsize',
      edited_append src edits (by omega : start + before.length + inner.length + 4 ≤ _) hsize'', hsame, hslice,
      hedited, hsame'', hslice'', List.map_append, List.map_cons, List.map_append, ← htokens, ← htoken, ← htokens'']
    simp only [List.append_assoc]
    have hbody' : verbatimBody (Token.delimited d ((Recast.ofEdits src edits).move start + before.length) inner')
        (body ++ edited src edits (start + before.length + inner.length + 4 + body.length) src.length) = body := by
      rw [htoken, verbatimBody_recast]
      exact verbatimBody_congr rfl rfl hfront.sameEnd hbody
    refine ⟨.delimited (untilOpener_congr hbefore _) ((Rule.Spacing.untilCloser_eq_some_iff _).2
      (hchain ((Rule.Spacing.untilCloser_eq_some_iff _).1 hclose))) hbody' hreads,
      sameFront_of_before hbefore fun name block hrole _ hname => ?_⟩
    -- an end tag holds no edit
    obtain ⟨hname', hbare⟩ := @bareTag?_round [] inner _ name d (untilOpener_opener d _) hclose
      (ne_nil_of_closes hrole) hname
    rw [← eq_of_closes h hrole (hname' _) hslice' hholds' hedited]
    exact hbare _

/-- **The tokens of the edited source** are those of the source with their names and markups changed. -/
theorem tokens_edited (hholds : ∀ tok ∈ tokens src, tok.Holds src edits) :
    tokens (edited src edits 0 src.length) = (tokens src).map (Token.recast (.ofEdits src edits)) := by
  have hwhole : Text.slice src 0 src.length = src := by
    unfold Text.slice
    rw [List.drop_zero, Nat.sub_zero, List.take_length]
  have hmove : (Recast.ofEdits src edits).move 0 = 0 := congrArg List.length (edited_self src edits 0)
  have hreads := (Reads.renamed h (reads_tokensFrom 0 src) (Nat.zero_le _) hwhole hholds).1
  rw [hmove] at hreads
  exact hreads.tokensFrom_eq

end Renamings

end Liquid
end LiquidLint
