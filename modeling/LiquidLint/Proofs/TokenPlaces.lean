import LiquidLint.Proofs.TokenReading
import LiquidLint.Proofs.Trimming

/-!
# Where tokens stand

The tokens of a template tile it: each one starts where the one before it ends, none is empty, and
the last one ends with the source (`tiles_tokens`).  The lines of a `liquid` tag need not touch each
other, but they follow each other inside the markup of their tag (`follows_liquidLines`).
-/

namespace LiquidLint
namespace Liquid

/-- The offsets of a token are in order, and its markup lies inside it, after its name. -/
structure Token.Placed (tok : Token) : Prop where
  start_lt_stop : tok.start < tok.stop
  name_le_markup : tok.start + tok.name.length ≤ tok.markupStart
  markup_le_stop : tok.markupStart + tok.markup.length ≤ tok.stop

theorem Token.Placed.start_le_markup {tok : Token} (h : tok.Placed) :
    tok.start ≤ tok.markupStart :=
  Nat.le_trans (Nat.le_add_right _ _) h.name_le_markup

/-- The tokens stand between `lo` and `hi`, in order and apart from each other. -/
def Follows : (lo : Nat) → List Token → (hi : Nat) → Prop
  | lo, [], hi => lo ≤ hi
  | lo, tok :: rest, hi => lo ≤ tok.start ∧ tok.Placed ∧ Follows tok.stop rest hi

/-- The tokens cover everything between `lo` and `hi`, each byte once. -/
def Tiles : (lo : Nat) → List Token → (hi : Nat) → Prop
  | lo, [], hi => lo = hi
  | lo, tok :: rest, hi => lo = tok.start ∧ tok.Placed ∧ Tiles tok.stop rest hi

theorem Tiles.follows {lo hi : Nat} {toks : List Token} (h : Tiles lo toks hi) :
    Follows lo toks hi := by
  induction toks generalizing lo with
  | nil => exact Nat.le_of_eq h
  | cons tok rest ih =>
    obtain ⟨hstart, hplaced, hrest⟩ := h
    exact ⟨Nat.le_of_eq hstart, hplaced, ih hrest⟩

theorem Tiles.append {lo mid hi : Nat} {toks more : List Token} (h : Tiles lo toks mid)
    (h' : Tiles mid more hi) : Tiles lo (toks ++ more) hi := by
  induction toks generalizing lo with
  | nil =>
    obtain rfl : lo = mid := h
    exact h'
  | cons tok rest ih =>
    obtain ⟨hstart, hplaced, hrest⟩ := h
    exact ⟨hstart, hplaced, ih hrest⟩

theorem Follows.le {lo hi : Nat} {toks : List Token} (h : Follows lo toks hi) : lo ≤ hi := by
  induction toks generalizing lo with
  | nil => exact h
  | cons tok rest ih =>
    obtain ⟨hstart, hplaced, hrest⟩ := h
    have := hplaced.start_lt_stop
    have := ih hrest
    omega

theorem Follows.of_le {lo lo' hi hi' : Nat} {toks : List Token} (h : Follows lo toks hi)
    (hlo : lo' ≤ lo) (hhi : hi ≤ hi') : Follows lo' toks hi' := by
  induction toks generalizing lo lo' with
  | nil => exact Nat.le_trans hlo (Nat.le_trans h hhi)
  | cons tok rest ih =>
    obtain ⟨hstart, hplaced, hrest⟩ := h
    exact ⟨Nat.le_trans hlo hstart, hplaced, ih hrest (Nat.le_refl _)⟩

theorem Follows.placed {lo hi : Nat} {toks : List Token} (h : Follows lo toks hi) {tok : Token}
    (htok : tok ∈ toks) : lo ≤ tok.start ∧ tok.Placed ∧ tok.stop ≤ hi := by
  induction toks generalizing lo with
  | nil => cases htok
  | cons first rest ih =>
    obtain ⟨hstart, hplaced, hrest⟩ := h
    rcases List.mem_cons.1 htok with rfl | htok
    · exact ⟨hstart, hplaced, hrest.le⟩
    · obtain ⟨hle, htok⟩ := ih hrest htok
      have := hplaced.start_lt_stop
      exact ⟨by omega, htok⟩

theorem Follows.apart {lo hi : Nat} {toks : List Token} (h : Follows lo toks hi) :
    toks.Pairwise fun t u => t.stop ≤ u.start := by
  induction toks generalizing lo with
  | nil => exact .nil
  | cons tok rest ih =>
    obtain ⟨_, _, hrest⟩ := h
    exact .cons (fun u hu => (hrest.placed hu).1) (ih hrest)

/-! ## Templates -/

theorem tiles_textTokens (start : Nat) (t : Text) :
    Tiles start (textTokens start t) (start + t.length) := by
  unfold textTokens
  split
  · rename_i h
    rw [List.isEmpty_iff.1 h]
    rfl
  · rename_i h
    have hlen : 0 < t.length := List.length_pos_iff.2 fun hnil => h (List.isEmpty_iff.2 hnil)
    exact ⟨rfl, ⟨by dsimp only; omega, Nat.le_refl _, Nat.le_refl _⟩, rfl⟩

theorem placed_unterminatedToken (d : Delimiter) (start : Nat) (junk : Text) :
    (unterminatedToken d start junk).Placed := by
  refine ⟨?_, Nat.le_refl _, ?_⟩
  all_goals simp only [unterminatedToken, List.length_append, Delimiter.length_opener]
  all_goals omega

/-- What stands between two delimiters: the white-space control marks and the body. -/
structure Inner where
  left : Bool
  body : Text
  right : Bool

namespace Inner

/-- The byte of a white-space control mark. -/
def mark : UInt8 := '-'

/-- A white-space control mark, or nothing. -/
def dash (on : Bool) : Text := if on then [mark] else []

/-- The bytes between the delimiters. -/
def text (i : Inner) : Text := dash i.left ++ (i.body ++ dash i.right)

/-- The parts of the bytes between two delimiters.  A lone dash is the left one. -/
def ofText (t : Text) : Inner :=
  let afterLeft := if t.head? = some mark then t.tail else t
  { left := t.head? = some mark
    body := if afterLeft.getLast? = some mark then afterLeft.dropLast else afterLeft
    right := afterLeft.getLast? = some mark }

theorem text_ofText (t : Text) : (ofText t).text = t := by
  have hleft : dash (decide (t.head? = some mark)) ++ (if t.head? = some mark then t.tail else t) =
      t := by
    by_cases h : t.head? = some mark
    · obtain ⟨rest, rfl⟩ := List.head?_eq_some_iff.1 h
      simp [dash]
    · simp [h, dash]
  have hright (u : Text) : (if u.getLast? = some mark then u.dropLast else u) ++
      dash (decide (u.getLast? = some mark)) = u := by
    by_cases h : u.getLast? = some mark
    · obtain ⟨rest, rfl⟩ := List.getLast?_eq_some_iff.1 h
      simp [dash]
    · simp [h, dash]
  simp only [text, ofText]
  rw [hright, hleft]

/-- Where the body stands when the opener stands at `start`. -/
def bodyStart (i : Inner) (start : Nat) : Nat := start + 2 + (dash i.left).length

end Inner

/-- The token of delimiters, by the parts between them. -/
theorem Token.delimited_eq (d : Delimiter) (start : Nat) (inner : Text) :
    Token.delimited d start inner =
      let i := Inner.ofText inner
      let markup := Text.trimSpace i.body
      let markupStart := i.bodyStart start + leadingBlanks i.body
      let stop := start + inner.length + 4
      match d with
      | .variable =>
        { kind := .variable, start, stop, markup, markupStart, trimLeft := i.left,
          trimRight := i.right }
      | .tag =>
        { kind := .tag, start, stop, name := (splitTag markup markupStart).1,
          markup := (splitTag markup markupStart).2.1,
          markupStart := (splitTag markup markupStart).2.2, trimLeft := i.left,
          trimRight := i.right } := by
  have hstart : (Inner.ofText inner).bodyStart start =
      if inner.head? = some Inner.mark then start + 3 else start + 2 := by
    by_cases h : inner.head? = some Inner.mark <;> simp [Inner.bodyStart, Inner.ofText, Inner.dash, h]
  simp only [hstart]
  cases d <;> rfl

/-- The token of delimiters depends on where they stand in its offsets only. -/
theorem Token.delimited_shift (d : Delimiter) (start : Nat) (inner : Text) :
    Token.delimited d start inner = { Token.delimited d 0 inner with
      start := start, stop := start + inner.length + 4
      markupStart := start + (Token.delimited d 0 inner).markupStart } := by
  rw [Token.delimited_eq, Token.delimited_eq]
  simp only [Inner.bodyStart]
  cases d with
  | «variable» =>
    simp only [Token.mk.injEq, true_and, and_true]
    omega
  | tag =>
    dsimp only
    rw [splitTag_start, splitTag_start (Text.trimSpace (Inner.ofText inner).body)
      (0 + 2 + _ + _)]
    simp only [Token.mk.injEq, true_and, and_true]
    omega

/-- The name and the markup of a variable or tag lie between its delimiters. -/
theorem Token.markup_delimited (d : Delimiter) (start : Nat) (inner : Text) :
    start + 2 + (Token.delimited d start inner).name.length ≤
        (Token.delimited d start inner).markupStart ∧
      (Token.delimited d start inner).markupStart + (Token.delimited d start inner).markup.length ≤
        start + inner.length + 2 := by
  have hlen := congrArg List.length (Inner.text_ofText inner)
  have htrim := leadingBlanks_add_length_trimSpace_le (Inner.ofText inner).body
  simp only [Inner.text, List.length_append] at hlen
  rw [Token.delimited_eq]
  simp only [Inner.bodyStart]
  cases d with
  | «variable» =>
    simp only [List.length_nil]
    omega
  | tag =>
    have hsplit := splitTag_places (Text.trimSpace (Inner.ofText inner).body)
      (start + 2 + (Inner.dash (Inner.ofText inner).left).length +
        leadingBlanks (Inner.ofText inner).body)
    dsimp only
    omega

theorem Token.placed_delimited (d : Delimiter) (start : Nat) (inner : Text) :
    (Token.delimited d start inner).Placed := by
  have hmarkup := Token.markup_delimited d start inner
  refine ⟨?_, ?_, ?_⟩
  · rw [Token.start_delimited, Token.stop_delimited]
    omega
  · rw [Token.start_delimited]
    omega
  · rw [Token.stop_delimited]
    omega

theorem Reads.tiles {start : Nat} {src : Text} {toks : List Token} (h : Reads start src toks) :
    Tiles start toks (start + src.length) := by
  induction h with
  | plain _ => exact tiles_textTokens _ _
  | @unterminated start before junk rest d toks _ _ _ _ ih =>
    refine (tiles_textTokens start before).append ⟨rfl, placed_unterminatedToken _ _ _, ?_⟩
    simp only [List.length_append, Delimiter.length_opener]
    rwa [show start + (before.length + (2 + (junk.length + rest.length))) =
      start + before.length + 2 + junk.length + rest.length from by omega]
  | @delimited start before inner body rest d toks _ _ _ _ ih =>
    refine (tiles_textTokens start before).append
      ⟨(Token.start_delimited _ _ _).symm, Token.placed_delimited _ _ _, ?_⟩
    rw [Token.stop_delimited]
    refine (tiles_textTokens _ body).append ?_
    simp only [List.length_append, Delimiter.length_opener, Delimiter.length_closer]
    rwa [show start + (before.length + (2 + (inner.length + (2 + (body.length + rest.length))))) =
      start + before.length + inner.length + 4 + body.length + rest.length from by omega]

/-- **The tokens of a template tile it.** -/
theorem tiles_tokens (src : Text) : Tiles 0 (tokens src) src.length := by
  have h := (reads_tokensFrom 0 src).tiles
  rwa [Nat.zero_add] at h

/-- Whether the token stands for text: plain text, or an opener without a closer. -/
def TokenKind.IsText : TokenKind → Prop
  | .text | .unterminated _ => True
  | .variable | .tag => False

theorem Token.not_isText_delimited (d : Delimiter) (start : Nat) (inner : Text) :
    ¬ (Token.delimited d start inner).kind.IsText := by
  cases d <;> exact id

theorem markup_textTokens (pre t post : Text) {tok : Token}
    (htok : tok ∈ textTokens pre.length t) :
    tok.markup = Text.slice (pre ++ (t ++ post)) tok.start tok.stop := by
  unfold textTokens at htok
  split at htok
  · cases htok
  · rw [List.mem_singleton.1 htok]
    exact (Text.slice_append pre t post).symm

theorem Reads.markup_eq {pre src : Text} {toks : List Token} (h : Reads pre.length src toks)
    {tok : Token} (htok : tok ∈ toks) (htext : tok.kind.IsText) :
    tok.markup = Text.slice (pre ++ src) tok.start tok.stop := by
  generalize hstart : pre.length = start at h
  induction h generalizing pre with
  | @plain start src _ =>
    subst hstart
    simpa using markup_textTokens pre src [] htok
  | @unterminated start before junk rest d toks _ _ _ _ ih =>
    subst hstart
    rcases List.mem_append.1 htok with htok | htok
    · exact markup_textTokens pre before _ htok
    · rcases List.mem_cons.1 htok with rfl | htok
      · have h := Text.slice_append (pre ++ before) (d.opener ++ junk) rest
        simp only [List.length_append, Delimiter.length_opener, List.append_assoc,
          ← Nat.add_assoc] at h
        exact h.symm
      · have h := @ih (pre ++ (before ++ (d.opener ++ junk))) htok (by simp; omega)
        simpa only [List.append_assoc] using h
  | @delimited start before inner body rest d toks _ _ _ _ ih =>
    subst hstart
    rcases List.mem_append.1 htok with htok | htok
    · exact markup_textTokens pre before _ htok
    · rcases List.mem_cons.1 htok with rfl | htok
      · exact absurd htext (Token.not_isText_delimited _ _ _)
      · rcases List.mem_append.1 htok with htok | htok
        · have h := @markup_textTokens (pre ++ (before ++ (d.opener ++ (inner ++ d.closer)))) body
            rest tok
          simp only [List.length_append, Delimiter.length_opener, Delimiter.length_closer,
            List.append_assoc] at h
          refine h ?_
          rwa [show pre.length + (before.length + (2 + (inner.length + 2))) =
            pre.length + before.length + inner.length + 4 from by omega]
        · have h := @ih (pre ++ (before ++ (d.opener ++ (inner ++ (d.closer ++ body))))) htok
            (by simp; omega)
          simpa only [List.append_assoc] using h

/-- The markup of a text is the text itself. -/
theorem markup_tokens {src : Text} {tok : Token} (htok : tok ∈ tokens src)
    (htext : tok.kind.IsText) : tok.markup = Text.slice src tok.start tok.stop :=
  @Reads.markup_eq [] src _ (reads_tokensFrom 0 src) tok htok htext

theorem inLiquid_textTokens {start : Nat} {t : Text} {tok : Token}
    (htok : tok ∈ textTokens start t) : tok.inLiquid = false := by
  unfold textTokens at htok
  split at htok
  · cases htok
  · rw [List.mem_singleton.1 htok]

theorem Reads.inLiquid_eq {start : Nat} {src : Text} {toks : List Token}
    (h : Reads start src toks) {tok : Token} (htok : tok ∈ toks) : tok.inLiquid = false := by
  induction h with
  | plain _ => exact inLiquid_textTokens htok
  | unterminated _ _ _ _ ih =>
    rcases List.mem_append.1 htok with htok | htok
    · exact inLiquid_textTokens htok
    · rcases List.mem_cons.1 htok with rfl | htok
      · rfl
      · exact ih htok
  | delimited _ _ _ _ ih =>
    rcases List.mem_append.1 htok with htok | htok
    · exact inLiquid_textTokens htok
    · rcases List.mem_cons.1 htok with rfl | htok
      · exact Token.inLiquid_delimited _ _ _
      · rcases List.mem_append.1 htok with htok | htok
        · exact inLiquid_textTokens htok
        · exact ih htok

theorem inLiquid_tokens {src : Text} {tok : Token} (htok : tok ∈ tokens src) :
    tok.inLiquid = false :=
  (reads_tokensFrom 0 src).inLiquid_eq htok

/-! ## Lines of a `liquid` tag -/

theorem follows_lineTokens (start : Nat) (lines : List Text) :
    Follows start (lineTokens start lines) (start + sumOf (lines.map List.length)) := by
  induction lines generalizing start with
  | nil => exact Nat.le_refl _
  | cons line rest ih =>
    have hrest := ih (start + line.length)
    have htrim := leadingBlanks_add_length_trimSpace_le line
    simp only [lineTokens, List.map_cons, sumOf_cons]
    rw [← Nat.add_assoc]
    split
    · exact hrest.of_le (Nat.le_add_right _ _) (Nat.le_refl _)
    · rename_i hne
      have hsplit := splitTag_places (Text.trimSpace line) (start + leadingBlanks line)
      have hlen : 0 < (Text.trimSpace line).length :=
        List.length_pos_iff.2 fun hnil => hne (List.isEmpty_iff.2 hnil)
      refine ⟨Nat.le_add_right _ _, ⟨?_, ?_, ?_⟩, hrest.of_le ?_ (Nat.le_refl _)⟩
      all_goals dsimp only
      all_goals omega

/-- **The lines of a `liquid` tag follow each other inside its markup.** -/
theorem follows_liquidLines (markup : Text) (start : Nat) :
    Follows start (liquidLines markup start) (start + markup.length) := by
  have h := follows_lineTokens start (Text.linesWithEnds markup)
  rwa [sumOf_length_linesWithEnds] at h

/-- A line is a tag that knows that it is a line. -/
theorem kind_lineTokens {start : Nat} {lines : List Text} {tok : Token}
    (htok : tok ∈ lineTokens start lines) : tok.kind = .tag ∧ tok.inLiquid = true := by
  induction lines generalizing start with
  | nil => cases htok
  | cons line rest ih =>
    simp only [lineTokens] at htok
    split at htok
    · exact ih htok
    · rcases List.mem_cons.1 htok with rfl | htok
      · exact ⟨rfl, rfl⟩
      · exact ih htok

theorem kind_liquidLines {markup : Text} {start : Nat} {tok : Token}
    (htok : tok ∈ liquidLines markup start) : tok.kind = .tag ∧ tok.inLiquid = true :=
  kind_lineTokens htok

end Liquid
end LiquidLint
