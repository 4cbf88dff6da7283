import Mathlib.Data.List.Basic
import LiquidLint.Proofs.BlockNesting
import LiquidLint.Proofs.TidyReading
import LiquidLint.Proofs.TokenTexts
import LiquidLint.Proofs.TreePieces

/-!
# Removing a tag

A tag that stands alone is taken out of a template together with margins around it.  If no byte of the
margins belongs to a delimiter, the other tokens but texts stay as they are in front of the tag, and keep
their names and markups behind it (`Reads.exists_removed`).

The reader is followed up to the tag.  There the text before the tag joins what follows the right margin,
and no opener comes of it: the text before an opener never ends in a brace (`Inert`).  A verbatim body that
was read before still ends where it did, because the tag is not its end (`SameEnd`).
-/

namespace LiquidLint
namespace Liquid

/-! ## Texts without openers -/

/-- No opener starts in the text, whatever follows it. -/
def Inert : Text → Prop
  | [] => True
  | [a] => a ≠ '{'
  | a :: b :: rest => ¬ (a = '{' ∧ (b = '{' ∨ b = '%')) ∧ Inert (b :: rest)

theorem Inert.tail {a : UInt8} {t : Text} (h : Inert (a :: t)) : Inert t := by
  cases t with
  | nil => trivial
  | cons b rest => exact h.2

theorem inert_of_ne {t : Text} (ht : ∀ b ∈ t, b ≠ '{') : Inert t := by
  induction t with
  | nil => trivial
  | cons a t ih =>
    have ha := ht a (List.mem_cons_self ..)
    cases t with
    | nil => exact ha
    | cons b rest => exact ⟨fun h => ha h.1, ih fun c hc => ht c (List.mem_cons_of_mem _ hc)⟩

/-- What follows an inert text is searched for an opener as if it stood there alone. -/
theorem Inert.untilOpener_append {t : Text} (h : Inert t) (y : Text) :
    untilOpener (t ++ y) = (t ++ (untilOpener y).1, (untilOpener y).2) := by
  induction t with
  | nil => rfl
  | cons a t ih =>
    have hopen : ¬ (opener? (a :: (t ++ y))).isSome = true := by
      cases t with
      | nil =>
        have ha : a ≠ '{' := h
        rw [opener?_cons_of_ne ha]
        exact Bool.false_ne_true
      | cons b rest => exact fun hsome => h.1 ((isSome_opener?_cons_cons a b _).1 hsome)
    rw [List.cons_append, untilOpener, if_neg hopen, ih h.tail]
    rfl

/-- The text before an opener is inert. -/
theorem inert_of_before {before y : Text} {d : Delimiter}
    (h : untilOpener (before ++ (d.opener ++ y)) = (before, d.opener ++ y)) : Inert before := by
  induction before with
  | nil => trivial
  | cons a t ih =>
    rw [List.cons_append, untilOpener] at h
    by_cases hopen : (opener? (a :: (t ++ (d.opener ++ y)))).isSome = true
    · rw [if_pos hopen] at h
      cases (Prod.mk.inj h).1
    · rw [if_neg hopen] at h
      obtain ⟨h₁, h₂⟩ := Prod.mk.inj h
      have ht := ih (Prod.ext (List.cons.inj h₁).2 h₂)
      cases t with
      | nil =>
        rintro rfl
        exact hopen ((isSome_opener?_cons_cons _ _ _).2 ⟨rfl, .inl rfl⟩)
      | cons b rest => exact ⟨fun hab => hopen ((isSome_opener?_cons_cons a b _).2 hab), ht⟩

/-- An inert text can be cut behind any byte that starts no opener. -/
theorem Inert.left {u l : Text} (h : Inert (u ++ l)) (hu : l = [] ∨ u.getLast? ≠ some ('{' : UInt8)) :
    Inert u := by
  induction u with
  | nil => trivial
  | cons a u ih =>
    cases u with
    | nil =>
      rcases hu with rfl | hu
      · exact h
      · exact fun ha => hu (congrArg some ha)
    | cons b rest => exact ⟨h.1, ih h.tail hu⟩

/-! ## Tokens but texts -/

/-- The tokens of a template that are no plain texts. -/
def codes (toks : List Token) : List Token := toks.filter fun tok => tok.kind ≠ .text

/-- What a token says, wherever it stands. -/
def Token.key (tok : Token) : TokenKind × Text × Text := (tok.kind, tok.name, tok.markup)

/-- What the tokens but texts say. -/
def keys (toks : List Token) : List (TokenKind × Text × Text) := (codes toks).map Token.key

/-- Every opener has its closer. -/
def Terminated (toks : List Token) : Prop := ∀ tok ∈ toks, ∀ d, tok.kind ≠ .unterminated d

theorem terminated_of_keys {toks toks' : List Token} (h : keys toks' ⊆ keys toks) (hterm : Terminated toks) :
    Terminated toks' := by
  intro tok htok d hkind
  have hcode : tok ∈ codes toks' := List.mem_filter.2 ⟨htok, by simp [hkind]⟩
  obtain ⟨tok', htok', hkey⟩ := List.mem_map.1 (h (List.mem_map_of_mem hcode))
  exact hterm tok' (List.mem_filter.1 htok').1 d ((congrArg Prod.fst hkey).trans hkind)

@[simp] theorem codes_append (toks more : List Token) : codes (toks ++ more) = codes toks ++ codes more :=
  List.filter_append ..

@[simp] theorem codes_textTokens (start : Nat) (t : Text) : codes (textTokens start t) = [] := by
  unfold textTokens
  split
  · rfl
  · rfl

@[simp] theorem codes_unterminated (d : Delimiter) (start : Nat) (junk : Text) (toks : List Token) :
    codes (unterminatedToken d start junk :: toks) = unterminatedToken d start junk :: codes toks := rfl

@[simp] theorem codes_delimited (d : Delimiter) (start : Nat) (inner : Text) (toks : List Token) :
    codes (Token.delimited d start inner :: toks) = Token.delimited d start inner :: codes toks := by
  cases d <;> rfl

/-- Delimiters say the same wherever they stand. -/
theorem key_delimited (d : Delimiter) (start start' : Nat) (inner : Text) :
    (Token.delimited d start inner).key = (Token.delimited d start' inner).key := by
  obtain ⟨hsame⟩ := Rule.Spacing.respaced_self d start' start inner
  rw [hsame.same]
  rfl

theorem verbatimBody_delimited (d : Delimiter) (start start' : Nat) (inner rest : Text) :
    verbatimBody (Token.delimited d start inner) rest =
      verbatimBody (Token.delimited d start' inner) rest := by
  have hkey := key_delimited d start start' inner
  have hkind : (Token.delimited d start inner).kind = (Token.delimited d start' inner).kind :=
    congrArg Prod.fst hkey
  have hname : (Token.delimited d start inner).name = (Token.delimited d start' inner).name :=
    congrArg (fun key => key.2.1) hkey
  unfold verbatimBody
  rw [hkind, hname]

/-- A source says the same wherever it stands. -/
theorem Reads.exists_at {start : Nat} {src : Text} {toks : List Token} (h : Reads start src toks)
    (start' : Nat) : ∃ toks', Reads start' src toks' ∧ keys toks' = keys toks := by
  induction h generalizing start' with
  | plain hplain => exact ⟨_, .plain hplain, by simp [keys]⟩
  | unterminated hbefore hopen hjunk _ ih =>
    obtain ⟨toks', hreads, hkeys⟩ := ih _
    refine ⟨_, .unterminated hbefore hopen hjunk hreads, ?_⟩
    simp only [keys, codes_append, codes_textTokens, codes_unterminated, List.nil_append, List.map_cons]
    exact congrArg _ hkeys
  | @delimited start before inner body rest d toks hbefore hclose hbody _ ih =>
    rw [verbatimBody_delimited d _ (start' + before.length)] at hbody
    obtain ⟨toks', hreads, hkeys⟩ := ih _
    refine ⟨_, .delimited hbefore hclose hbody hreads, ?_⟩
    simp only [keys, codes_append, codes_textTokens, codes_delimited, List.nil_append, List.map_cons]
    rw [key_delimited d _ (start + before.length)]
    exact congrArg _ hkeys

/-- **A text joins what follows a margin**: if both are inert, the same tokens follow. -/
theorem Reads.exists_joined {start : Nat} {u r v : Text} {toks : List Token} (h : Reads start (r ++ v) toks)
    (hr : Inert r) (hu : Inert u) (start' : Nat) :
    ∃ toks', Reads start' (u ++ v) toks' ∧ keys toks' = keys toks := by
  have hright := hr.untilOpener_append v
  have hleft := hu.untilOpener_append v
  have hv := untilOpener_append v
  generalize (untilOpener v).1 = w at *
  generalize (untilOpener v).2 = q at *
  subst hv
  generalize hsrc : r ++ (w ++ q) = src at h
  rw [hsrc] at hright
  cases h with
  | plain hplain =>
    obtain ⟨_, rfl⟩ := Prod.mk.inj (hright.symm.trans hplain)
    rw [List.append_nil] at hleft ⊢
    exact ⟨_, .plain hleft, by simp [keys]⟩
  | unterminated hbefore hopen hjunk hrest =>
    obtain ⟨rfl, rfl⟩ := Prod.mk.inj (hright.symm.trans hbefore)
    rw [← List.append_assoc] at hleft ⊢
    obtain ⟨toks', hreads, hkeys⟩ := hrest.exists_at _
    refine ⟨_, .unterminated hleft hopen hjunk hreads, ?_⟩
    simp only [keys, codes_append, codes_textTokens, codes_unterminated, List.nil_append, List.map_cons]
    exact congrArg _ hkeys
  | @delimited _ before inner body rest d toks hbefore hclose hbody hrest =>
    obtain ⟨rfl, rfl⟩ := Prod.mk.inj (hright.symm.trans hbefore)
    rw [← List.append_assoc] at hleft ⊢
    obtain ⟨toks', hreads, hkeys⟩ := hrest.exists_at _
    rw [verbatimBody_delimited d _ (start' + (u ++ w).length)] at hbody
    refine ⟨_, .delimited hleft hclose hbody hreads, ?_⟩
    simp only [keys, codes_append, codes_textTokens, codes_delimited, List.nil_append, List.map_cons]
    rw [key_delimited d _ (start + (r ++ w).length)]
    exact congrArg _ hkeys

/-! ## Taking a tag out -/

/-- The tag `tok` stands alone behind the text `u`, whose first byte has the offset `start`, and no byte of its
margins `l` and `r` belongs to a delimiter. -/
structure Token.Detaches (tok : Token) (start : Nat) (u l text r : Text) : Prop where
  tag : tok.kind = .tag
  inline : tagRole tok.name = .inline
  start_eq : tok.start = start + u.length + l.length
  stop_eq : tok.stop = tok.start + text.length
  left : ∀ b ∈ l, b ≠ '{' ∧ b ≠ '}'
  right : ∀ b ∈ r, b ≠ '{'
  front : l = [] ∨ u.getLast? ≠ some ('{' : UInt8)

/-- A verbatim body does not end at a tag that stands alone. -/
theorem ne_of_inline {name : Text} (h : tagRole name = .inline) :
    name ≠ "raw" ∧ name ≠ "comment" ∧ name ≠ "endraw" ∧ name ≠ "endcomment" := by
  refine ⟨?_, ?_, ?_, ?_⟩
  all_goals
    rintro rfl
    revert h
    decide

/-- **A margin does not reach into the round before it.** -/
theorem Token.Detaches.exists_rest {tok : Token} {start : Nat} {u l text r v w rest : Text}
    {toks : List Token} (h : tok.Detaches start u l text r)
    (hsrc : u ++ (l ++ (text ++ (r ++ v))) = w ++ rest) (hreads : Reads (start + w.length) rest toks)
    (htok : tok ∈ toks)
    (hend : w.getLast? = some ('}' : UInt8) ∨
      ∃ name, name ≠ [] ∧ tagRole name ≠ .inline ∧ bareTag? rest = some name) :
    ∃ u', u = w ++ u' ∧ rest = u' ++ (l ++ (text ++ (r ++ v))) ∧
      tok.Detaches (start + w.length) u' l text r := by
  have hle : start + w.length ≤ tok.start := (hreads.tiles.follows.placed htok).1
  have hstart := h.start_eq
  have hcut : ∃ u', u = w ++ u' ∧ rest = u' ++ (l ++ (text ++ (r ++ v))) := by
    rcases List.append_eq_append_iff.1 hsrc with ⟨x, rfl, hx⟩ | ⟨u', hu, hrest⟩
    · rw [List.length_append] at hle
      obtain ⟨p, rfl, rfl⟩ : ∃ p, l = x ++ p ∧ rest = p ++ (text ++ (r ++ v)) := by
        rcases List.append_eq_append_iff.1 hx with ⟨y, rfl, hy⟩ | hp
        · obtain rfl : y = [] := by
            rw [List.length_append] at hle
            exact List.length_eq_zero_iff.1 (by omega)
          exact ⟨[], by simp, hy.symm⟩
        · exact hp
      -- a margin that reached further would hold a brace
      obtain rfl : x = [] := by
        refine Classical.byContradiction fun hx => ?_
        rcases hend with hlast | ⟨name, hne, hrole, hbare⟩
        · rw [List.getLast?_append_of_ne_nil u hx] at hlast
          exact (h.left _ (List.mem_append_left p (List.mem_of_getLast? hlast))).2 rfl
        · obtain ⟨i, more, hmore⟩ := exists_of_bareTag? hbare
          cases p with
          | cons b p =>
            have hb : b = '{' := (List.cons.inj hmore).1
            exact (h.left b (List.mem_append_right x (List.mem_cons_self ..))).1 hb
          | nil =>
            obtain ⟨first, more, rfl, hkind, hname⟩ := hreads.head_of_bareTag? hbare hne
            have hfirst := hreads.tiles.1
            have heq := eq_of_start_eq hreads.tiles.pairwise htok (List.mem_cons_self ..) (by
              rw [← hfirst, hstart]
              simp only [List.length_append, List.length_nil]
              omega)
            rw [← hname, ← heq] at hrole
            exact hrole h.inline
      exact ⟨[], by simp, by simp⟩
    · exact ⟨u', hu, hrest⟩
  obtain ⟨u', rfl, hrest⟩ := hcut
  refine ⟨u', rfl, hrest, h.tag, h.inline, ?_, h.stop_eq, h.left, h.right, ?_⟩
  · rw [List.length_append] at hstart
    omega
  · refine h.front.imp_right fun hlast hbrace => hlast ?_
    rw [List.getLast?_append, hbrace]
    rfl

/-- Without the tag `tok` the template `src` reads as `out`: what is in front of the tag stays as it is, and so
does what the tokens behind it say. -/
def Removed (start : Nat) (src : Text) (toks : List Token) (tok : Token) (out : Text) : Prop :=
  ∃ A B B' toks', codes toks = A ++ tok :: B ∧ Reads start out toks' ∧ codes toks' = A ++ B' ∧
    B'.map Token.key = B.map Token.key ∧ SameEnd src out

section Round

variable {start : Nat} {before inner body rest : Text} {d : Delimiter} {toks : List Token}
  (hbefore : untilOpener (before ++ (d.opener ++ (inner ++ (d.closer ++ (body ++ rest))))) =
    (before, d.opener ++ (inner ++ (d.closer ++ (body ++ rest)))))
  (hclose : untilCloser d (inner ++ (d.closer ++ (body ++ rest))) = some (inner, body ++ rest))
  (hbody : verbatimBody (Token.delimited d (start + before.length) inner) (body ++ rest) = body)

omit hbefore hclose hbody in
/-- A source that starts with a round is an end of a verbatim body only as a tag that does not stand alone. -/
theorem sameEnd_round {y out : Text}
    (hout : ∀ name, name ≠ [] → tagRole name ≠ .inline →
      bareTag? (before ++ (d.opener ++ y)) = some name → bareTag? out = some name) :
    SameEnd (before ++ (d.opener ++ y)) out := by
  refine ⟨fun hnil => ?_, hout _ (by decide) (by decide), hout _ (by decide) (by decide)⟩
  cases before <;> cases hnil

omit hbefore hclose in
include hbody in
/-- A tag that stands alone has no verbatim body. -/
theorem Token.Detaches.body_eq_nil {u l text r : Text}
    (h : (Token.delimited d (start + before.length) inner).Detaches start u l text r) : body = [] := by
  obtain ⟨hraw, hcomment, _⟩ := ne_of_inline h.inline
  unfold verbatimBody at hbody
  rw [if_pos h.tag, if_neg hraw, if_neg hcomment] at hbody
  exact hbody.symm

include hbefore hclose hbody in
/-- **The tag of a round is taken out**: the text in front of it joins what follows. -/
theorem Token.Detaches.removed_round {u l text r v : Text}
    (h : (Token.delimited d (start + before.length) inner).Detaches start u l text r)
    (hrest : Reads (start + before.length + inner.length + 4 + body.length) rest toks)
    (hsrc : u ++ (l ++ (text ++ (r ++ v))) =
      before ++ (d.opener ++ (inner ++ (d.closer ++ (body ++ rest))))) :
    Removed start (before ++ (d.opener ++ (inner ++ (d.closer ++ (body ++ rest)))))
      (textTokens start before ++ Token.delimited d (start + before.length) inner ::
        (textTokens (start + before.length + inner.length + 4) body ++ toks))
      (Token.delimited d (start + before.length) inner) (u ++ v) := by
  obtain rfl := h.body_eq_nil hbody
  have hstart := h.start_eq
  have hstop := h.stop_eq
  rw [Token.stop_delimited, Token.start_delimited] at hstop
  rw [Token.start_delimited] at hstart
  rw [← List.append_assoc] at hsrc
  obtain ⟨rfl, htail⟩ := List.append_inj hsrc (by rw [List.length_append]; omega)
  have htext : text.length = (d.opener ++ (inner ++ d.closer)).length := by
    simp only [List.length_append, Delimiter.length_opener, Delimiter.length_closer]
    omega
  have hrounds : text ++ (r ++ v) = (d.opener ++ (inner ++ d.closer)) ++ rest := by
    simp only [htail, List.append_assoc, List.nil_append]
  obtain ⟨rfl, rfl⟩ := List.append_inj hrounds htext
  have hinert := (inert_of_before hbefore).left h.front
  obtain ⟨toks', hreads, hkeys⟩ := hrest.exists_joined (inert_of_ne h.right) hinert start
  refine ⟨[], codes toks, codes toks', toks', by simp, hreads, rfl, hkeys,
    sameEnd_round fun name hne hrole hbare => ?_⟩
  obtain ⟨hname, _⟩ := bareTag?_round hbefore hclose hne hbare
  rw [← hname] at hrole
  exact absurd h.inline hrole

omit hbefore hclose in
include hbody in
/-- A round that tokens follow ends with a brace, or in front of the end of its verbatim body. -/
theorem getLast?_round_or (hne : rest ≠ []) :
    (before ++ (d.opener ++ (inner ++ (d.closer ++ body)))).getLast? = some ('}' : UInt8) ∨
      ∃ name, name ≠ [] ∧ tagRole name ≠ .inline ∧ bareTag? rest = some name := by
  rcases after_verbatimBody hbody with rfl | ⟨_, rfl | ⟨name, rfl | rfl, hbare⟩⟩
  · refine .inl ?_
    have hcloser : d.closer ≠ [] := List.cons_ne_nil _ _
    rw [List.append_nil, ← List.append_assoc, ← List.append_assoc,
      List.getLast?_append_of_ne_nil _ hcloser]
    rfl
  · exact absurd rfl hne
  · exact .inr ⟨_, by decide, by decide, hbare⟩
  · exact .inr ⟨_, by decide, by decide, hbare⟩

include hbefore hclose hbody in
/-- **A tag behind a round is taken out**: the round stays as it is. -/
theorem Removed.behind_round {tok : Token} {out : Text}
    (h : Removed (start + before.length + inner.length + 4 + body.length) rest toks tok out) :
    Removed start (before ++ (d.opener ++ (inner ++ (d.closer ++ (body ++ rest)))))
      (textTokens start before ++ Token.delimited d (start + before.length) inner ::
        (textTokens (start + before.length + inner.length + 4) body ++ toks))
      tok (before ++ (d.opener ++ (inner ++ (d.closer ++ (body ++ out))))) := by
  obtain ⟨A, B, B', toks', hA, hreads, hA', hkeys, hsame⟩ := h
  have hclose' : untilCloser d (inner ++ (d.closer ++ (body ++ out))) = some (inner, body ++ out) :=
    (Rule.Spacing.untilCloser_eq_some_iff _).2 ((Rule.Spacing.untilCloser_eq_some_iff _).1 hclose)
  have hreads' := Reads.delimited (untilOpener_congr hbefore _) hclose'
    (verbatimBody_congr rfl rfl hsame hbody) hreads
  refine ⟨Token.delimited d (start + before.length) inner :: A, B, B', _, ?_, hreads', ?_, hkeys,
    sameEnd_round fun name hne _ hbare => (bareTag?_round hbefore hclose hne hbare).2 _⟩
  · simp only [codes_append, codes_textTokens, codes_delimited, List.nil_append, hA, List.cons_append]
  · simp only [codes_append, codes_textTokens, codes_delimited, List.nil_append, hA', List.cons_append]

end Round

/-- **A tag that stands alone is taken out.**  The template is followed round by round up to the tag. -/
theorem Reads.exists_removed {start : Nat} {src : Text} {toks : List Token} (h : Reads start src toks)
    (hterm : Terminated toks) {tok : Token} {u l text r v : Text} (htok : tok ∈ codes toks)
    (hsrc : u ++ (l ++ (text ++ (r ++ v))) = src) (hcut : tok.Detaches start u l text r) :
    Removed start src toks tok (u ++ v) := by
  induction h generalizing u with
  | plain =>
    rw [codes_textTokens] at htok
    cases htok
  | unterminated =>
    exact absurd rfl (hterm _ (List.mem_append_right _ (List.mem_cons_self ..)) _)
  | @delimited start before inner body rest d toks hbefore hclose hbody hrest ih =>
    simp only [codes_append, codes_textTokens, codes_delimited, List.nil_append, List.mem_cons] at htok
    rcases htok with rfl | htok
    · exact hcut.removed_round hbefore hclose hbody hrest hsrc
    · have hne : rest ≠ [] := by
        rintro rfl
        rw [hrest.nil_of_nil] at htok
        cases htok
      have hlast : (before ++ (d.opener ++ (inner ++ (d.closer ++ body)))).getLast? = some ('}' : UInt8) ∨
          ∃ name, name ≠ [] ∧ tagRole name ≠ .inline ∧ bareTag? rest = some name :=
        getLast?_round_or hbody hne
      generalize hw : before ++ (d.opener ++ (inner ++ (d.closer ++ body))) = w at hlast
      have hlength : start + before.length + inner.length + 4 + body.length = start + w.length := by
        rw [← hw]
        simp only [List.length_append, Delimiter.length_opener, Delimiter.length_closer]
        omega
      have hround (t : Text) : before ++ (d.opener ++ (inner ++ (d.closer ++ (body ++ t)))) = w ++ t := by
        rw [← hw]
        simp only [List.append_assoc]
      rw [hlength] at hrest
      obtain ⟨u', rfl, rfl, hcut'⟩ :=
        hcut.exists_rest (hsrc.trans (hround rest)) hrest (List.mem_filter.1 htok).1 hlast
      rw [← hlength] at hcut'
      have hremoved := ih (fun t ht => hterm t (by simp [ht])) htok rfl hcut'
      rw [List.append_assoc, ← hround (u' ++ v)]
      exact hremoved.behind_round hbefore hclose hbody

/-! ## Taking several tags out -/

/-- The edit takes the tag out of a template. -/
def Token.TakenOutBy (src : Text) (tok : Token) (e : Edit) : Prop :=
  e.text = [] ∧ ∃ u l text r v, src = u ++ (l ++ (text ++ (r ++ v))) ∧ tok.Detaches 0 u l text r ∧
    e.start = u.length ∧ e.stop = (u ++ (l ++ (text ++ r))).length

/-- An edit without a text takes out what stands between its places. -/
theorem apply_frame {e : Edit} (htext : e.text = []) {u m v : Text} (hstart : e.start = u.length)
    (hstop : e.stop = (u ++ m).length) : Edit.apply (u ++ (m ++ v)) e = u ++ v := by
  have hdrop : (u ++ (m ++ v)).drop e.stop = v := by
    rw [hstop, ← List.append_assoc]
    exact List.drop_left
  have htake : (u ++ (m ++ v)).take e.start = u := by
    rw [hstart]
    exact List.take_left
  unfold Edit.apply
  rw [hdrop, htake, htext, List.append_nil]

/-- A token stands at one place of a template. -/
theorem codes_split_unique {toks A A' B B' : List Token} {tok : Token}
    (hstarts : toks.Pairwise fun t u => t.start < u.start) (h : codes toks = A ++ tok :: B)
    (h' : codes toks = A' ++ tok :: B') : A = A' ∧ B = B' := by
  have honce : (A ++ tok :: B).Pairwise fun t u => t.start < u.start := by
    rw [← h]
    exact hstarts.filter _
  obtain ⟨_, hbehind, hbefore⟩ := List.pairwise_append.1 honce
  have hsame := List.append_cons_inj_of_notMem (fun hmem => ?_) (fun hmem => ?_) |>.1 (h.symm.trans h')
  · exact ⟨hsame.1, hsame.2.2⟩
  · exact Nat.lt_irrefl _ (hbefore tok hmem tok (List.mem_cons_self ..))
  · exact Nat.lt_irrefl _ ((List.pairwise_cons.1 hbehind).1 tok hmem)

/-- One tag more is taken out, in front of those that were: the tokens `A` in front of it stay. -/
theorem Token.TakenOutBy.exists_codes {src out v' : Text} {tok : Token} {e : Edit}
    (h : tok.TakenOutBy src e) (hout : out = src.take e.stop ++ v') (hterm : Terminated (tokens out))
    {A B : List Token} (hcodes : codes (tokens out) = A ++ tok :: B) :
    ∃ B', codes (tokens (Edit.apply out e)) = A ++ B' ∧ B'.map Token.key = B.map Token.key := by
  obtain ⟨htext, u, l, text, r, v, rfl, hcut, hstart, hstop⟩ := h
  have hsame : out = u ++ (l ++ (text ++ (r ++ v'))) := by
    have hfront : u ++ (l ++ (text ++ (r ++ v))) = u ++ (l ++ (text ++ r)) ++ v := by
      simp only [List.append_assoc]
    rw [hout, hstop, hfront, List.take_left]
    simp only [List.append_assoc]
  have happly : Edit.apply out e = u ++ v' := by
    rw [hsame, ← apply_frame (v := v') htext hstart hstop]
    simp only [List.append_assoc]
  have hmem : tok ∈ codes (tokens out) := by
    rw [hcodes]
    simp
  obtain ⟨X, Y, Y', toks', hX, hreads, hX', hY, _⟩ :=
    (reads_tokensFrom 0 out).exists_removed hterm hmem hsame.symm hcut
  obtain ⟨rfl, rfl⟩ := codes_split_unique (tiles_tokens out).pairwise hX hcodes
  refine ⟨Y', ?_, hY⟩
  rw [happly, tokens, hreads.tokensFrom_eq, hX']

/-- Tags are taken out from the last one to the first one. -/
theorem exists_codes {src : Text} (hterm : Terminated (tokens src)) {p : Token → Bool} {edit : Token → Edit}
    (hedit : ∀ tok ∈ codes (tokens src), p tok = true → tok.TakenOutBy src (edit tok)) {lo : Nat}
    {gone A B : List Token} (horder : InOrder lo (gone.map edit) src.length)
    (hall : codes (tokens src) = A ++ B) (hgone : B.filter p = gone) :
    ∃ B', codes (tokens ((gone.map edit).foldr (fun e t => Edit.apply t e) src)) = A ++ B' ∧
      B'.map Token.key = (B.filter (!p ·)).map Token.key := by
  induction gone generalizing A B lo with
  | nil =>
    have hkept : B.filter (!p ·) = B := by
      rw [List.filter_eq_self]
      intro tok htok
      rw [List.filter_eq_nil_iff] at hgone
      simpa using hgone tok htok
    exact ⟨B, hall, by rw [hkept]⟩
  | cons tok gone ih =>
    obtain ⟨B₁, B₂, rfl, hfront, htok, hrest⟩ := List.filter_eq_cons_iff.1 hgone
    obtain ⟨_, _, horder⟩ := horder
    obtain ⟨B', hcodes, hkeys⟩ := @ih _ (A ++ B₁ ++ [tok]) B₂ horder (by rw [hall]; simp) hrest
    have hafter := foldr_apply horder
    rw [List.map_cons, List.foldr_cons]
    generalize (gone.map edit).foldr (fun e t => Edit.apply t e) src = out at *
    have hterm' : Terminated (tokens out) := by
      refine terminated_of_keys ?_ hterm
      have hkept : ((B₂.filter (!p ·)).map Token.key).Sublist (B₂.map Token.key) :=
        List.filter_sublist.map _
      unfold keys
      have hsplit : A ++ (B₁ ++ tok :: B₂) = A ++ B₁ ++ [tok] ++ B₂ := by simp
      rw [hcodes, hall, hsplit]
      simp only [List.map_append, hkeys]
      exact (hkept.append_left _).subset
    obtain ⟨Y', hY', hY⟩ := (hedit tok (by rw [hall]; simp) htok).exists_codes hafter hterm'
      (hcodes.trans (List.append_cons ..).symm)
    refine ⟨B₁ ++ Y', by rw [hY', List.append_assoc], ?_⟩
    have hfront' : B₁.filter (!p ·) = B₁ := List.filter_eq_self.2 fun t ht => by simpa using hfront t ht
    rw [List.map_append, hY, hkeys, List.filter_append, List.filter_cons, hfront', htok]
    simp

/-- **What the tokens say when tags were taken out** is what the others said before. -/
theorem keys_patch {src : Text} (hterm : Terminated (tokens src)) {p : Token → Bool} {edit : Token → Edit}
    (hedit : ∀ tok ∈ codes (tokens src), p tok = true → tok.TakenOutBy src (edit tok))
    (horder : InOrder 0 (((codes (tokens src)).filter p).map edit) src.length) :
    keys (tokens (patch src 0 src.length (((codes (tokens src)).filter p).map edit))) =
      ((codes (tokens src)).filter (!p ·)).map Token.key := by
  obtain ⟨B', hcodes, hkeys⟩ := exists_codes hterm hedit horder (List.nil_append _).symm rfl
  rw [foldr_apply horder, List.take_zero, List.nil_append] at hcodes
  rw [keys, hcodes]
  exact hkeys

end Liquid
end LiquidLint
