import LiquidLint.Proofs.BlockClosing
import LiquidLint.Proofs.TreeOutlines

/-!
# Lines of a `liquid` tag and tags of their own

The bodies of tags may be written as the lines of one `liquid` tag or each between delimiters of its own.
One source is cut at line feeds and the other one at delimiters, and both give tokens with these bodies
(`tokens_joined`, `tokens_separate`).  So both are read as the same tree, with the same warnings
(`lines_like_tags`).

The lines of a `liquid` tag are the shown lines of its markup (`Text.shownLines`), and the markup is trimmed.
That keeps them (`Text.shownLines_trimSpace`): a character at an end of it is a blank line or belongs to one of
the lines.
-/

namespace LiquidLint
namespace Text

/-! ## Shown lines -/

/-- Bytes that are no line feed belong to the first line. -/
theorem exists_line_append {u : Text} (hu : ('\n' : UInt8) ∉ u) (t : Text) :
    ∃ line more, linesWithEnds t = line :: more ∧ linesWithEnds (u ++ t) = (u ++ line) :: more := by
  induction u with
  | nil =>
    cases t with
    | nil => exact ⟨[], [], rfl, rfl⟩
    | cons b t =>
      rw [List.nil_append, linesWithEnds]
      split
      · exact ⟨_, _, rfl, rfl⟩
      · split
        · exact ⟨_, _, rfl, rfl⟩
        · exact ⟨_, _, rfl, rfl⟩
  | cons b u ih =>
    obtain ⟨hb, hu⟩ := not_or.1 (mt List.mem_cons.2 hu)
    obtain ⟨line, more, ht, happend⟩ := ih hu
    refine ⟨line, more, ht, ?_⟩
    rw [List.cons_append, linesWithEnds, if_neg (Ne.symm hb), happend]
    rfl

/-- The last line of a text goes on with what follows the text. -/
theorem exists_last_line (t : Text) :
    ∃ init last, ('\n' : UInt8) ∉ last ∧ ∀ s, linesWithEnds (t ++ s) = init ++ linesWithEnds (last ++ s) := by
  induction t with
  | nil => exact ⟨[], [], List.not_mem_nil, fun _ => rfl⟩
  | cons b t ih =>
    obtain ⟨init, last, hlast, ht⟩ := ih
    by_cases hb : b = '\n'
    · refine ⟨[b] :: init, last, hlast, fun s => ?_⟩
      rw [List.cons_append, linesWithEnds, if_pos hb, ht]
      rfl
    · cases init with
      | nil =>
        refine ⟨[], b :: last, fun hmem => ?_, fun s => ?_⟩
        · exact (List.mem_cons.1 hmem).elim (fun h => hb h.symm) hlast
        · rw [List.cons_append, linesWithEnds, if_neg hb, ht, List.nil_append, List.nil_append,
            List.cons_append, linesWithEnds, if_neg hb]
      | cons line more =>
        refine ⟨(b :: line) :: more, last, hlast, fun s => ?_⟩
        rw [List.cons_append, linesWithEnds, if_neg hb, ht]
        rfl

/-- The lines that are not blank, without the white space around them. -/
def shownLines (t : Text) : List Text :=
  ((linesWithEnds t).map trimSpace).filter fun line => !line.isEmpty

theorem feed_of_blanks {p : Text} (hp : p ∈ blanks) (hfeed : ('\n' : UInt8) ∈ p) : p = [('\n' : UInt8)] := by
  have hall : ∀ p ∈ blanks, ('\n' : UInt8) ∈ p → p = [('\n' : UInt8)] := by decide +kernel
  exact hall p hp hfeed

theorem feed_mem_blanks : [('\n' : UInt8)] ∈ blanks := by decide

theorem trimSpace_nil : trimSpace [] = [] := List.eq_nil_of_length_eq_zero (Nat.le_zero.1 (length_trimSpace_le []))

theorem trimSpace_feed : trimSpace [('\n' : UInt8)] = [] :=
  (trimSpace_append_form feed_mem_blanks []).trans trimSpace_nil

theorem shownLines_nil : shownLines [] = [] := by
  unfold shownLines
  rw [linesWithEnds, List.map_singleton, trimSpace_nil]
  rfl

/-- **White space in front of a text** is in none of its shown lines. -/
theorem shownLines_form_append {p : Text} (hp : p ∈ blanks) (t : Text) : shownLines (p ++ t) = shownLines t := by
  unfold shownLines
  by_cases hfeed : ('\n' : UInt8) ∈ p
  · rw [feed_of_blanks hp hfeed, List.singleton_append, linesWithEnds, if_pos rfl, List.map_cons,
      trimSpace_feed]
    rfl
  · obtain ⟨line, more, ht, happend⟩ := exists_line_append hfeed t
    rw [ht, happend, List.map_cons, List.map_cons, trimSpace_form_append hp]

/-- **White space behind a text** is in none of its shown lines. -/
theorem shownLines_append_form {p : Text} (hp : p ∈ blanks) (t : Text) : shownLines (t ++ p) = shownLines t := by
  obtain ⟨init, last, hlast, ht⟩ := exists_last_line t
  have hbefore := ht []
  rw [List.append_nil, List.append_nil] at hbefore
  unfold shownLines
  rw [hbefore, ht p, List.map_append, List.map_append, List.filter_append, List.filter_append,
    linesWithEnds_of_not_mem hlast]
  congr 1
  by_cases hfeed : ('\n' : UInt8) ∈ p
  · -- the last line is ended, and an empty one follows
    rw [feed_of_blanks hp hfeed, linesWithEnds_append hlast, List.map_cons, List.map_singleton,
      trimSpace_append_form feed_mem_blanks, linesWithEnds, List.map_singleton, trimSpace_nil,
      ← List.singleton_append, List.filter_append]
    exact List.append_nil _
  · have hnot : ('\n' : UInt8) ∉ last ++ p := fun hmem => (List.mem_append.1 hmem).elim hlast hfeed
    rw [linesWithEnds_of_not_mem hnot, List.map_singleton, List.map_singleton, trimSpace_append_form hp]

theorem shownLines_trimSpaceStart (t : Text) : shownLines (trimSpaceStart t) = shownLines t := by
  unfold trimSpaceStart
  fun_induction trimForms blanks t with
  | case1 t _ => rfl
  | case2 t rest hsome _ ih =>
    obtain ⟨p, hp, hdrop⟩ := List.exists_of_findSome?_eq_some hsome
    rw [ih, dropStart?_eq_some.1 hdrop, shownLines_form_append hp]
  | case3 t rest _ _ => rfl

theorem shownLines_trimSpaceEnd (t : Text) : shownLines (trimSpaceEnd t) = shownLines t := by
  have hreverse (u : Text) : shownLines (trimForms blanksReversed u).reverse = shownLines u.reverse := by
    fun_induction trimForms blanksReversed u with
    | case1 u _ => rfl
    | case2 u rest hsome _ ih =>
      obtain ⟨q, hq, hdrop⟩ := List.exists_of_findSome?_eq_some hsome
      obtain ⟨p, hp, rfl⟩ := List.mem_map.1 hq
      rw [ih, dropStart?_eq_some.1 hdrop, List.reverse_append, List.reverse_reverse,
        shownLines_append_form hp]
    | case3 u rest _ _ => rfl
  unfold trimSpaceEnd
  rw [hreverse, List.reverse_reverse]

/-- **Trimming a text keeps its shown lines.** -/
theorem shownLines_trimSpace (t : Text) : shownLines (trimSpace t) = shownLines t := by
  rw [trimSpace, shownLines_trimSpaceEnd, shownLines_trimSpaceStart]

/-- Lines that are not blank are shown, one after the other. -/
theorem shownLines_flatMap {lines : List Text}
    (hlines : ∀ line ∈ lines, ('\n' : UInt8) ∉ line ∧ trimSpace line ≠ []) :
    shownLines (lines.flatMap (· ++ [('\n' : UInt8)])) = lines.map trimSpace := by
  induction lines with
  | nil => exact shownLines_nil
  | cons line rest ih =>
    obtain ⟨hfeed, hshown⟩ := hlines line (List.mem_cons_self ..)
    have hrest := ih fun l hl => hlines l (List.mem_cons_of_mem _ hl)
    unfold shownLines at hrest ⊢
    rw [List.flatMap_cons, List.append_assoc, List.singleton_append, linesWithEnds_append hfeed,
      List.map_cons, trimSpace_append_form feed_mem_blanks, List.filter_cons, hrest, List.map_cons]
    exact if_pos (Bool.not_eq_true' _ ▸ List.isEmpty_eq_false_iff.2 hshown)

end Text

namespace Liquid

open Rule.Spacing (Apart Neutral isChain_neutral_append untilCloser_eq_some_iff)

/-! ## Bodies -/

/-- A text that may stand for a tag: it is not blank, neither ends a line nor holds a delimiter of a tag, and
the tag has no verbatim body. -/
structure TagLine (line : Text) : Prop where
  shown : Text.trimSpace line ≠ []
  feed : ('\n' : UInt8) ∉ line
  opener : ∀ d : Delimiter, ¬ d.opener <:+: line
  closer : ¬ Delimiter.tag.closer <:+: line
  raw : (splitTag (Text.trimSpace line) 0).1 ≠ "raw"
  comment : (splitTag (Text.trimSpace line) 0).1 ≠ "comment"

/-- The token is a tag with this body. -/
structure Token.HasBody (tok : Token) (body : Text) : Prop where
  kind_eq : tok.kind = .tag
  name_eq : tok.name = (splitTag body 0).1
  markup_eq : tok.markup = (splitTag body 0).2.1

theorem Token.HasBody.like {tok tok' : Token} {body : Text} (h : tok.HasBody body) (h' : tok'.HasBody body) :
    tok.Like tok' :=
  ⟨h.kind_eq.trans h'.kind_eq.symm, h.name_eq.trans h'.name_eq.symm, h.markup_eq.trans h'.markup_eq.symm⟩

/-- Tokens with the same bodies are alike. -/
theorem like_of_hasBody {toks toks' : List Token} {bodies : List Text}
    (h : List.Forall₂ Token.HasBody toks bodies) (h' : List.Forall₂ Token.HasBody toks' bodies) :
    List.Forall₂ Token.Like toks toks' := by
  induction h generalizing toks' with
  | nil =>
    cases h'
    exact .nil
  | cons hbody _ ih =>
    obtain ⟨tok', rest', hbody', hrest', rfl⟩ := List.forall₂_cons_right_iff.1 h'
    exact .cons (hbody.like hbody') (ih hrest')

theorem exists_of_hasBody {toks : List Token} {bodies : List Text} (h : List.Forall₂ Token.HasBody toks bodies)
    {tok : Token} (htok : tok ∈ toks) : ∃ body ∈ bodies, tok.HasBody body := by
  induction h with
  | nil => exact nomatch htok
  | cons hbody _ ih =>
    rcases List.mem_cons.1 htok with rfl | hrest
    · exact ⟨_, List.mem_cons_self .., hbody⟩
    · obtain ⟨body, hmem, hhas⟩ := ih hrest
      exact ⟨body, List.mem_cons_of_mem _ hmem, hhas⟩

/-- **The lines of a `liquid` tag** have its shown lines for bodies. -/
theorem forall₂_liquidLines (markup : Text) (start : Nat) :
    List.Forall₂ Token.HasBody (liquidLines markup start) (Text.shownLines markup) := by
  unfold liquidLines Text.shownLines
  induction Text.linesWithEnds markup generalizing start with
  | nil => exact .nil
  | cons line rest ih =>
    rw [lineTokens, List.map_cons, List.filter_cons]
    dsimp only
    by_cases hempty : (Text.trimSpace line).isEmpty = true
    · rw [if_pos hempty, hempty]
      exact ih _
    · rw [if_neg hempty, if_pos (by rw [Bool.eq_false_iff.2 hempty]; rfl), splitTag_start]
      exact .cons ⟨rfl, rfl, rfl⟩ (ih _)

/-- A tag between blanks has what stands between its delimiters for a body. -/
theorem hasBody_delimited (inner : Text) (hne : inner ≠ []) (hfirst : inner.head? ≠ some Inner.mark)
    (hlast : inner.getLast? ≠ some Inner.mark) (start : Nat) :
    (Token.delimited .tag start inner).HasBody (Text.trimSpace inner) := by
  have hinner : Inner.ofText inner = ⟨false, inner, false⟩ := by
    have hparts := Inner.ofText_text (i := ⟨false, inner, false⟩) hne (fun _ => hfirst) fun _ => hlast
    unfold Inner.text at hparts
    rwa [show Inner.dash false = [] from rfl, List.nil_append, List.append_nil] at hparts
  rw [delimited_tag_eq, hinner]
  dsimp only
  unfold tagAt
  rw [splitTag_start]
  exact ⟨rfl, rfl, rfl⟩

/-! ## Sources -/

/-- The lines, each with its line feed. -/
def ended (lines : List Text) : Text := lines.flatMap (· ++ [('\n' : UInt8)])

/-- Bodies as the lines of a `liquid` tag. -/
def joined (lines : List Text) : Text :=
  "\x7b% liquid\n" ++ (ended lines ++ "%\x7d")

/-- A body between blanks. -/
def spaced (line : Text) : Text := (' ' : UInt8) :: (line ++ [(' ' : UInt8)])

/-- Bodies as tags of their own. -/
def separate (lines : List Text) : Text := lines.flatMap fun line => "\x7b% " ++ (line ++ " %\x7d")

/-- No delimiter stands in a text that has none of them. -/
theorem TagLine.isChain {line : Text} (h : TagLine line) : line.IsChain (Apart .tag) := by
  obtain ⟨-, -, hopener, hcloser, -, -⟩ := h
  induction line with
  | nil => exact .nil
  | cons a rest ih =>
    have hrest := ih (fun d hd => hopener d (hd.trans (List.suffix_cons ..).isInfix))
      fun hd => hcloser (hd.trans (List.suffix_cons ..).isInfix)
    refine List.isChain_cons.2 ⟨fun b hb => ?_, hrest⟩
    obtain ⟨more, rfl⟩ : ∃ more, rest = b :: more := List.head?_eq_some_iff.1 hb
    have hfirst : [a, b] <:+: a :: b :: more := (List.prefix_append [a, b] more).isInfix
    constructor
    · rintro ⟨rfl, rfl⟩
      exact hcloser hfirst
    rintro ⟨rfl, rfl | rfl⟩
    · exact hopener .variable hfirst
    · exact hopener .tag hfirst

/-- Delimiters are told apart on both sides of a byte that is in none of them. -/
theorem isChain_append_neutral {d : Delimiter} {u t : Text} {b : UInt8} (hu : u.IsChain (Apart d))
    (hb : Neutral b) (ht : t.IsChain (Apart d)) : (u ++ b :: t).IsChain (Apart d) := by
  refine List.isChain_append.2 ⟨hu, isChain_neutral_append (u := [b]) ?_ ht, fun x _ y hy => ?_⟩
  · exact fun c hc => List.mem_singleton.1 hc ▸ hb
  · obtain rfl : b = y := Option.some.inj hy
    exact hb.apart_right d x

/-- There is nothing to read. -/
theorem Reads.nil (start : Nat) : Reads start [] [] := @Reads.plain start [] rfl

/-- One more tag, without a verbatim body, stands in front of what is read. -/
theorem Reads.tag {start : Nat} {inner rest : Text} {toks : List Token}
    (hchain : (inner ++ [Delimiter.tag.closeMark]).IsChain (Apart .tag))
    (hraw : (Token.delimited .tag start inner).name ≠ "raw")
    (hcomment : (Token.delimited .tag start inner).name ≠ "comment")
    (hrest : Reads (start + inner.length + 4) rest toks) :
    Reads start (Delimiter.tag.opener ++ (inner ++ (Delimiter.tag.closer ++ rest)))
      (Token.delimited .tag start inner :: toks) := by
  have hbody : verbatimBody (Token.delimited .tag start inner) rest = [] := by
    unfold verbatimBody
    rw [if_pos (by rfl), if_neg hraw, if_neg hcomment]
  have hclose := (untilCloser_eq_some_iff rest).2 hchain
  exact @Reads.delimited start [] inner [] rest .tag toks (untilOpener_opener _ _) hclose hbody hrest

theorem neutral_blank {b : UInt8} (hb : Text.isAsciiBlank b = true) : Neutral b :=
  have hne := Text.ne_of_isAsciiBlank hb
  ⟨hne.2.1, hne.2.2.2, hne.2.2.1⟩

/-- **A tag of its own** has the line for a body. -/
theorem hasBody_spaced (line : Text) (start : Nat) :
    (Token.delimited .tag start (spaced line)).HasBody (Text.trimSpace line) := by
  have hblank : [(' ' : UInt8)] ∈ Text.blanks := by decide
  have hmark : some (' ' : UInt8) ≠ some Inner.mark := by decide
  have hlast : (spaced line).getLast? ≠ some Inner.mark := by
    unfold spaced
    rwa [← List.cons_append, List.getLast?_concat]
  have hbody := hasBody_delimited (spaced line) (List.cons_ne_nil _ _) hmark hlast start
  have htrim : Text.trimSpace (spaced line) = Text.trimSpace line :=
    (Text.trimSpace_form_append hblank _).trans (Text.trimSpace_append_form hblank line)
  rwa [htrim] at hbody

/-- **Tags of their own are read one by one.** -/
theorem reads_separate {lines : List Text} (hlines : ∀ line ∈ lines, TagLine line) (start : Nat) :
    ∃ toks, Reads start (separate lines) toks ∧
      List.Forall₂ Token.HasBody toks (lines.map Text.trimSpace) := by
  induction lines generalizing start with
  | nil => exact ⟨[], .nil start, .nil⟩
  | cons line rest ih =>
    have hline := hlines line (List.mem_cons_self ..)
    have hbody := hasBody_spaced line start
    obtain ⟨toks, hreads, hbodies⟩ := ih (fun l hl => hlines l (List.mem_cons_of_mem _ hl))
      (start + (spaced line).length + 4)
    have hchain : (spaced line ++ [Delimiter.tag.closeMark]).IsChain (Apart .tag) := by
      have hspace : Neutral ' ' := neutral_blank rfl
      unfold spaced
      rw [List.cons_append, List.append_assoc]
      exact isChain_append_neutral .nil hspace (isChain_append_neutral hline.isChain hspace (.singleton _))
    have htag := Reads.tag hchain (hbody.name_eq ▸ hline.raw) (hbody.name_eq ▸ hline.comment) hreads
    have hsource : Delimiter.tag.opener ++ (spaced line ++ (Delimiter.tag.closer ++ separate rest)) =
        separate (line :: rest) := by
      unfold separate spaced
      rw [List.flatMap_cons]
      simp only [List.append_assoc, List.cons_append]
      rfl
    exact ⟨_, hsource ▸ htag, .cons hbody hbodies⟩

/-- The inside of the `liquid` tag. -/
def joinedInner (lines : List Text) : Text :=
  (' ' : UInt8) :: ("liquid" ++ ([('\n' : UInt8)] ++ ended lines))

theorem isChain_joinedInner {lines : List Text} (hlines : ∀ line ∈ lines, TagLine line) :
    (joinedInner lines ++ [Delimiter.tag.closeMark]).IsChain (Apart .tag) := by
  have hended : (ended lines ++ [Delimiter.tag.closeMark]).IsChain (Apart .tag) := by
    unfold ended
    induction lines with
    | nil => exact .singleton _
    | cons line rest ih =>
      have hrest := ih fun l hl => hlines l (List.mem_cons_of_mem _ hl)
      rw [List.flatMap_cons, List.append_assoc, List.append_assoc, List.singleton_append]
      exact isChain_append_neutral (hlines line (List.mem_cons_self ..)).isChain (neutral_blank rfl) hrest
  have hname : ∀ b ∈ (" liquid\n" : Text), b ≠ '{' ∧ b ≠ '}' ∧ b ≠ '%' := by decide +kernel
  have hinner : joinedInner lines ++ [Delimiter.tag.closeMark] =
      " liquid\n" ++ (ended lines ++ [Delimiter.tag.closeMark]) := by
    unfold joinedInner
    rw [List.cons_append, List.append_assoc, List.append_assoc]
    rfl
  rw [hinner]
  exact isChain_neutral_append hname hended

theorem getLast?_append_ended {t : Text} (ht : t.getLast? = some ('\n' : UInt8)) (lines : List Text) :
    (t ++ ended lines).getLast? = some ('\n' : UInt8) := by
  unfold ended
  induction lines generalizing t with
  | nil => rwa [List.flatMap_nil, List.append_nil]
  | cons line rest ih =>
    rw [List.flatMap_cons, ← List.append_assoc]
    exact ih (by rw [← List.append_assoc, List.getLast?_concat])

/-- **The `liquid` tag** has a body of its name and a markup that shows the lines. -/
theorem hasBody_joinedInner (lines : List Text) : ∃ body,
    (Token.delimited .tag 0 (joinedInner lines)).HasBody body ∧ (splitTag body 0).1 = "liquid" ∧
      Text.shownLines (splitTag body 0).2.1 = Text.shownLines (ended lines) := by
  let more : Text := [('\n' : UInt8)] ++ ended lines
  have hmore : more.getLast? = some ('\n' : UInt8) := getLast?_append_ended rfl lines
  have hmark : some (' ' : UInt8) ≠ some Inner.mark := by decide
  have hlast : (joinedInner lines).getLast? ≠ some Inner.mark := by
    have hinner : (joinedInner lines).getLast? = some ('\n' : UInt8) := by
      unfold joinedInner
      rw [← List.cons_append, List.getLast?_append, hmore, Option.some_or]
    rw [hinner]
    decide
  have hbody := hasBody_delimited (joinedInner lines) (List.cons_ne_nil _ _) hmark hlast 0
  have hblank : Text.trimSpaceStart [(' ' : UInt8)] = [] := by decide +kernel
  have hhead : ∀ b ∈ (Text.trimSpaceEnd more).head?, Text.isAsciiBlank b = true := by
    obtain ⟨t, ht⟩ := Text.trimSpaceEnd_prefix more
    intro b hb
    obtain ⟨rest, hrest⟩ := List.head?_eq_some_iff.1 hb
    rw [hrest] at ht
    obtain rfl : b = '\n' := (List.cons.inj ht).1
    rfl
  have htrim : Text.trimSpace (joinedInner lines) = "liquid" ++ Text.trimSpaceEnd more := by
    have hword := Text.trimSpace_word (u := [(' ' : UInt8)]) (v := more) isWord_liquid
    rwa [hblank, List.nil_append] at hword
  refine ⟨_, hbody, ?_, ?_⟩
  · rw [htrim, splitTag_word isWord_liquid hhead]
  · rw [htrim, splitTag_word isWord_liquid hhead]
    dsimp only
    rw [Text.shownLines_trimSpace, Text.shownLines_trimSpaceEnd]
    exact Text.shownLines_form_append Text.feed_mem_blanks _

/-! ## Trees -/

/-- **Bodies as the lines of a tag** are read as one token, a `liquid` tag with a line for each. -/
theorem tokens_joined {lines : List Text} (hlines : ∀ line ∈ lines, TagLine line) :
    ∃ tok, tokens (joined lines) = [tok] ∧ tok.kind = .tag ∧ tok.name = "liquid" ∧
      List.Forall₂ Token.HasBody (liquidLines tok.markup tok.markupStart) (lines.map Text.trimSpace) := by
  obtain ⟨body, hbody, hname, hshown⟩ := hasBody_joinedInner lines
  have hliquid := hbody.name_eq.trans hname
  have hraw : (Token.delimited .tag 0 (joinedInner lines)).name ≠ "raw" := by
    rw [hliquid]
    decide
  have hcomment : (Token.delimited .tag 0 (joinedInner lines)).name ≠ "comment" := by
    rw [hliquid]
    decide
  have hreads := Reads.tag (isChain_joinedInner hlines) hraw hcomment (.nil _)
  have hsource : Delimiter.tag.opener ++ (joinedInner lines ++ (Delimiter.tag.closer ++ [])) = joined lines := by
    unfold joinedInner joined
    simp only [List.append_assoc, List.cons_append]
    rfl
  rw [hsource] at hreads
  have hall : Text.shownLines (ended lines) = lines.map Text.trimSpace :=
    Text.shownLines_flatMap fun line hline => ⟨(hlines line hline).feed, (hlines line hline).shown⟩
  refine ⟨_, hreads.tokensFrom_eq, hbody.kind_eq, hliquid, ?_⟩
  rw [← hall, ← hshown, ← hbody.markup_eq]
  exact forall₂_liquidLines _ _

/-- **Bodies as tags of their own** are read as a token for each. -/
theorem tokens_separate {lines : List Text} (hlines : ∀ line ∈ lines, TagLine line) :
    List.Forall₂ Token.HasBody (tokens (separate lines)) (lines.map Text.trimSpace) := by
  obtain ⟨toks, hreads, hbodies⟩ := reads_separate hlines 0
  rwa [tokens, hreads.tokensFrom_eq]

/-- A source of tags has the tree and the warnings of its tokens. -/
theorem parse_tags {src : Text} (hkind : ∀ tok ∈ tokens src, tok.kind = .tag) :
    let built := (Builder.addTokens src {} (tokens src)).finish src.length
    (parse src).root.children = built.done ∧ (parse src).warnings.Perm built.warnings := by
  have hnone : unterminatedWarnings (tokens src) = [] :=
    unterminatedWarnings_eq_nil_iff.2 fun tok htok d hopen => nomatch (hkind tok htok).symm.trans hopen
  unfold parse
  dsimp only
  rw [hnone]
  exact ⟨rfl, List.mergeSort_perm ..⟩

/-- A source that is one `liquid` tag has the tree and the warnings of its lines. -/
theorem parse_liquid {src : Text} {tok : Token} (hsrc : tokens src = [tok]) (hkind : tok.kind = .tag)
    (hname : tok.name = "liquid") :
    (parse src).root.children = [.mk (tok.head .tag) (Builder.addLines src [] tok).done] ∧
      (parse src).warnings.Perm (Builder.addLines src [] tok).warnings := by
  have hrole : tagRole tok.name = .lines := by
    rw [hname]
    decide
  have hparse := @parse_tags src fun t ht => by
    rw [hsrc] at ht
    rwa [List.mem_singleton.1 ht]
  have hadd : ({} : Builder).add src tok =
      ({ warnings := (Builder.addLines src [] tok).warnings } : Builder).push
        (.mk (tok.head .tag) (Builder.addLines src [] tok).done) := by
    unfold Builder.add
    rw [hkind]
    dsimp only
    rw [show ({} : Builder).inComment tok = false from rfl, Bool.and_false, if_neg Bool.false_ne_true, hrole]
    rfl
  rw [hsrc, Builder.addTokens_cons, Builder.addTokens_nil, hadd, Builder.finish] at hparse
  exact hparse

/-- What the bodies are read as can be read in one piece. -/
theorem flat_of_hasBody {lines : List Text} (hlines : ∀ line ∈ lines, TagLine line) {toks : List Token}
    (hbodies : List.Forall₂ Token.HasBody toks (lines.map Text.trimSpace)) : Flat toks := by
  have hof (tok : Token) (htok : tok ∈ toks) : ∃ line, TagLine line ∧ tok.HasBody (Text.trimSpace line) := by
    obtain ⟨body, hbody, hhas⟩ := exists_of_hasBody hbodies htok
    obtain ⟨line, hline, rfl⟩ := List.mem_map.1 hbody
    exact ⟨line, hlines line hline, hhas⟩
  constructor
  · refine List.pairwise_of_forall_mem_list fun tok htok _ _ => ?_
    obtain ⟨line, hline, hhas⟩ := hof tok htok
    exact hhas.name_eq ▸ hline.comment
  · intro tok htok _ hfeed
    obtain ⟨line, hline, hhas⟩ := hof tok htok
    exact hline.feed (Text.mem_of_mem_trimSpace (mem_of_mem_splitTag (hhas.markup_eq ▸ hfeed)))

/-- **Lines of a `liquid` tag mean the same as tags of their own.**  Both are read as nodes of the same kinds,
names and markups, open and closed alike and nested alike, with the same warnings. -/
theorem lines_like_tags {lines : List Text} (hlines : ∀ line ∈ lines, TagLine line) :
    let inside := parse (joined lines)
    let apart := parse (separate lines)
    ∃ h cs, inside.root.children = [.mk h cs] ∧ h.kind = .tag ∧ h.name = "liquid" ∧
      Node.outlines cs = Node.outlines apart.root.children ∧
      (inside.warnings.map (·.message)).Perm (apart.warnings.map (·.message)) := by
  obtain ⟨tok, htokens, hkind, hname, hinside⟩ := tokens_joined hlines
  have hapart := tokens_separate hlines
  obtain ⟨hchildren, hwarnings⟩ := parse_liquid htokens hkind hname
  obtain ⟨hchildren', hwarnings'⟩ := @parse_tags (separate lines) fun t ht => by
    obtain ⟨_, _, hbody⟩ := exists_of_hasBody hapart ht
    exact hbody.kind_eq
  have hrun : (Builder.addTokens (joined lines) {} (liquidLines tok.markup tok.markupStart)).Like
      (Builder.addTokens (separate lines) {} (tokens (separate lines))) :=
    Builder.addTokens_like (like_of_hasBody hinside hapart) (flat_of_hasBody hlines hinside) List.not_mem_nil
      (.empty rfl)
  have hbuilt := hrun.finish tok.stop (separate lines).length
  refine ⟨_, _, hchildren, rfl, hname, ?_, ?_⟩
  · rw [hchildren']
    exact hbuilt.done
  · exact (hwarnings.map _).trans (.trans (.of_eq hbuilt.messages) (hwarnings'.map _).symm)

/-- A block with two branches, and a tag that leaves a block of its own line open. -/
theorem lines_like_tags_page :
    let lines : List Text := ["if x", "echo y", "else", "liquid for a", "endif"]
    let inside := parse (joined lines)
    let apart := parse (separate lines)
    (∀ line ∈ lines, TagLine line) ∧
      ((apart.root.walk fun _ => true).map fun h => (h.name, h.closed)) =
        ([("", false), ("if", true), ("echo", false), ("else", false), ("liquid", false), ("for", false)] :
          List (Text × Bool)) ∧
      ∃ h cs, inside.root.children = [.mk h cs] ∧ h.name = "liquid" ∧
        Node.outlines cs = Node.outlines apart.root.children ∧
        inside.warnings.map (·.message) = [("'for' tag was never closed" : Text)] := by
  intro lines
  have hlines : ∀ line ∈ lines, TagLine line := by
    have htexts : ∀ line ∈ lines, Text.trimSpace line ≠ [] ∧ ('\n' : UInt8) ∉ line ∧
        ¬ Delimiter.variable.opener <:+: line ∧ ¬ Delimiter.tag.opener <:+: line ∧
        ¬ Delimiter.tag.closer <:+: line := by
      decide +kernel
    have hnames : ∀ line ∈ lines, (splitTag (Text.trimSpace line) 0).1 ≠ "raw" ∧
        (splitTag (Text.trimSpace line) 0).1 ≠ "comment" := by
      decide +kernel
    intro line hline
    obtain ⟨hshown, hfeed, hvariable, htag, hcloser⟩ := htexts line hline
    obtain ⟨hraw, hcomment⟩ := hnames line hline
    refine ⟨hshown, hfeed, fun d => ?_, hcloser, hraw, hcomment⟩
    cases d with
    | «variable» => exact hvariable
    | tag => exact htag
  have hmessages : (parse (separate lines)).warnings.map (·.message) =
      [("'for' tag was never closed" : Text)] := by
    decide +kernel
  obtain ⟨h, cs, hchildren, -, hname, houtlines, hperm⟩ := lines_like_tags hlines
  rw [hmessages] at hperm
  exact ⟨hlines, by decide +kernel, h, cs, hchildren, hname, houtlines, List.perm_singleton.1 hperm⟩

end Liquid
end LiquidLint
