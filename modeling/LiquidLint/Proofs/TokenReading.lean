import LiquidLint.Liquid.Token

/-!
# How a template is read

`tokensFrom` goes from opener to opener.  Each round takes the text before the next opener and then
does one of three things: there is no opener and the reading ends; the opener has no closer and
everything up to the next opener is one text; or the delimiters hold a variable or a tag, and after
a `raw` or `comment` tag a verbatim body.

`Reads` is that reading as a relation between a source, cut into the pieces of one round, and its
tokens.  It holds of exactly one list of tokens (`reads_tokensFrom`, `Reads.tokensFrom_eq`), so a
fact about tokens is proved by induction over the rounds, and the tokens of a changed source are
found by giving its rounds.
-/

namespace LiquidLint
namespace Liquid

/-- The two bytes that close. -/
def Delimiter.closer (d : Delimiter) : Text := [d.closeMark, '}']

@[simp] theorem Delimiter.length_opener (d : Delimiter) : d.opener.length = 2 := rfl

@[simp] theorem Delimiter.length_closer (d : Delimiter) : d.closer.length = 2 := rfl

/-! ## The pieces of a round -/

theorem eq_append_of_opener? {t body : Text} {d : Delimiter} (h : opener? t = some (d, body)) :
    t = d.opener ++ body := by
  unfold opener? at h
  split at h
  · rename_i a b rest
    split at h
    · rename_i ha
      subst ha
      split at h
      · rename_i hb
        subst hb
        obtain ⟨rfl, rfl⟩ := Prod.mk.inj (Option.some.inj h)
        rfl
      · split at h
        · rename_i hb
          subst hb
          obtain ⟨rfl, rfl⟩ := Prod.mk.inj (Option.some.inj h)
          rfl
        · cases h
    · cases h
  · cases h

@[simp] theorem opener?_opener (d : Delimiter) (t : Text) :
    opener? (d.opener ++ t) = some (d, t) := by
  cases d <;> rfl

/-- Whether a text starts with an opener depends on its first two bytes. -/
theorem isSome_opener?_cons_cons (a b : UInt8) (t : Text) :
    (opener? (a :: b :: t)).isSome = true ↔ a = '{' ∧ (b = '{' ∨ b = '%') := by
  unfold opener?
  by_cases ha : a = '{'
  · by_cases hb : b = '{'
    · simp [ha, hb]
    · by_cases hb' : b = '%'
      · rw [ha, hb']
        exact iff_of_true rfl ⟨rfl, .inr rfl⟩
      · simp [ha, hb, hb']
  · simp [ha]

theorem untilOpener_append (t : Text) : (untilOpener t).1 ++ (untilOpener t).2 = t := by
  induction t with
  | nil => rfl
  | cons b rest ih =>
    simp only [untilOpener]
    split
    · rfl
    · simp only [List.cons_append, ih]

/-- What `untilOpener` leaves starts with an opener or is empty. -/
theorem opener?_untilOpener (t : Text) :
    (untilOpener t).2 = [] ∨ (opener? (untilOpener t).2).isSome = true := by
  induction t with
  | nil => exact .inl rfl
  | cons b rest ih =>
    simp only [untilOpener]
    split
    · exact .inr ‹_›
    · exact ih

theorem eq_append_of_untilCloser {d : Delimiter} {t inner rest : Text}
    (h : untilCloser d t = some (inner, rest)) : t = inner ++ (d.closer ++ rest) := by
  fun_induction untilCloser d t generalizing inner rest with
  | case1 a b more hclose =>
    obtain ⟨rfl, rfl⟩ := Prod.mk.inj (Option.some.inj h)
    rw [hclose.1, hclose.2]
    rfl
  | case2 => cases h
  | case3 a b more hclose hopen ih =>
    obtain ⟨⟨inner', rest'⟩, hq, hp⟩ := Option.map_eq_some_iff.1 h
    obtain ⟨rfl, rfl⟩ := Prod.mk.inj hp
    rw [ih hq]
    rfl
  | case4 => cases h

theorem rawBody_prefix (t : Text) : rawBody t <+: t := by
  induction t with
  | nil => exact List.prefix_refl _
  | cons b rest ih =>
    simp only [rawBody]
    split
    · exact List.nil_prefix
    · exact (List.prefix_cons_inj b).2 ih

theorem commentBody_prefix (depth : Nat) (t : Text) : commentBody depth t <+: t := by
  fun_induction commentBody depth t with
  | case1 => exact List.prefix_refl _
  | case2 depth b rest _ ih => exact (List.prefix_cons_inj b).2 ih
  | case3 => exact List.nil_prefix
  | case4 b rest _ _ depth ih => exact (List.prefix_cons_inj b).2 ih
  | case5 depth b rest _ _ ih => exact (List.prefix_cons_inj b).2 ih

theorem verbatimBody_prefix (tok : Token) (rest : Text) : verbatimBody tok rest <+: rest := by
  unfold verbatimBody
  split
  · split
    · exact rawBody_prefix rest
    · split
      · exact commentBody_prefix 0 rest
      · exact List.nil_prefix
  · exact List.nil_prefix

/-! ## The rounds -/

/-- The token of an opener at `start` that no closer answers, with the text after it. -/
def unterminatedToken (d : Delimiter) (start : Nat) (junk : Text) : Token :=
  { kind := .unterminated d, start, stop := start + 2 + junk.length, markup := d.opener ++ junk,
    markupStart := start }

/-- The tokens of a source whose first byte has the offset `start`, round by round. -/
inductive Reads : (start : Nat) → (src : Text) → List Token → Prop where
  /-- There is no opener. -/
  | plain {start : Nat} {src : Text} (hplain : untilOpener src = (src, [])) :
      Reads start src (textTokens start src)
  /-- An opener has no closer before the next one. -/
  | unterminated {start : Nat} {before junk rest : Text} {d : Delimiter} {toks : List Token}
      (hbefore : untilOpener (before ++ (d.opener ++ (junk ++ rest))) =
        (before, d.opener ++ (junk ++ rest)))
      (hopen : untilCloser d (junk ++ rest) = none)
      (hjunk : untilOpener (junk ++ rest) = (junk, rest))
      (hrest : Reads (start + before.length + 2 + junk.length) rest toks) :
      Reads start (before ++ (d.opener ++ (junk ++ rest)))
        (textTokens start before ++ unterminatedToken d (start + before.length) junk :: toks)
  /-- A variable or a tag, with the verbatim body after it. -/
  | delimited {start : Nat} {before inner body rest : Text} {d : Delimiter} {toks : List Token}
      (hbefore : untilOpener (before ++ (d.opener ++ (inner ++ (d.closer ++ (body ++ rest))))) =
        (before, d.opener ++ (inner ++ (d.closer ++ (body ++ rest)))))
      (hclose : untilCloser d (inner ++ (d.closer ++ (body ++ rest))) = some (inner, body ++ rest))
      (hbody : verbatimBody (Token.delimited d (start + before.length) inner) (body ++ rest) = body)
      (hrest : Reads (start + before.length + inner.length + 4 + body.length) rest toks) :
      Reads start (before ++ (d.opener ++ (inner ++ (d.closer ++ (body ++ rest)))))
        (textTokens start before ++ Token.delimited d (start + before.length) inner ::
          (textTokens (start + before.length + inner.length + 4) body ++ toks))

@[simp] theorem Token.start_delimited (d : Delimiter) (start : Nat) (inner : Text) :
    (Token.delimited d start inner).start = start := by
  cases d <;> rfl

@[simp] theorem Token.stop_delimited (d : Delimiter) (start : Nat) (inner : Text) :
    (Token.delimited d start inner).stop = start + inner.length + 4 := by
  cases d <;> rfl

@[simp] theorem Token.inLiquid_delimited (d : Delimiter) (start : Nat) (inner : Text) :
    (Token.delimited d start inner).inLiquid = false := by
  cases d <;> rfl

/-- **Every source is read in rounds.** -/
theorem reads_tokensFrom (start : Nat) (src : Text) : Reads start src (tokensFrom start src) := by
  induction hn : src.length using Nat.strongRecOn generalizing start src with
  | ind n ih =>
    have happend := untilOpener_append src
    have hfirst := opener?_untilOpener src
    obtain ⟨before, after, hbefore⟩ : ∃ before after, untilOpener src = (before, after) := ⟨_, _, rfl⟩
    simp only [hbefore] at happend hfirst
    subst happend
    rw [tokensFrom]
    simp only [hbefore]
    split
    · -- no opener is left, so nothing follows the text
      rename_i hopen
      simp only [hbefore] at hopen
      obtain rfl : after = [] := by
        rcases hfirst with h | h
        · exact h
        · rw [hopen] at h
          cases h
      rw [List.append_nil] at hbefore ⊢
      rw [List.append_nil]
      exact .plain hbefore
    · rename_i d body hopen
      simp only [hbefore] at hopen
      obtain rfl := eq_append_of_opener? hopen
      split
      · rename_i hclose
        obtain ⟨junk, rest, hjunk⟩ : ∃ junk rest, untilOpener body = (junk, rest) := ⟨_, _, rfl⟩
        obtain rfl : junk ++ rest = body := by simpa only [hjunk] using untilOpener_append body
        simp only [hjunk]
        refine .unterminated hbefore hclose hjunk (ih rest.length ?_ _ _ rfl)
        simp only [List.length_append, Delimiter.length_opener] at hn
        omega
      · rename_i inner more hclose
        obtain rfl := eq_append_of_untilCloser hclose
        obtain ⟨rest, hrest⟩ :=
          verbatimBody_prefix (Token.delimited d (start + before.length) inner) more
        generalize hb : verbatimBody (Token.delimited d (start + before.length) inner) more = body at *
        subst hrest
        simp only [List.drop_left, Token.stop_delimited]
        refine .delimited hbefore hclose hb (ih rest.length ?_ _ _ rfl)
        simp only [List.length_append, Delimiter.length_opener, Delimiter.length_closer] at hn
        omega

/-- A source is read in one way. -/
theorem Reads.tokensFrom_eq {start : Nat} {src : Text} {toks : List Token}
    (h : Reads start src toks) : tokensFrom start src = toks := by
  induction h with
  | plain hplain =>
    rw [tokensFrom]
    simp only [hplain]
    split
    · exact List.append_nil _
    · rename_i h
      simp only [hplain] at h
      cases h
  | unterminated hbefore hopen hjunk _ ih =>
    rw [tokensFrom]
    simp only [hbefore]
    split
    · rename_i h
      simp only [hbefore, opener?_opener] at h
      cases h
    · rename_i d body h
      simp only [hbefore, opener?_opener] at h
      obtain ⟨rfl, rfl⟩ := Prod.mk.inj (Option.some.inj h)
      split
      · simp only [hjunk, ih]
        rfl
      · rename_i h
        rw [hopen] at h
        cases h
  | delimited hbefore hclose hbody _ ih =>
    rw [tokensFrom]
    simp only [hbefore]
    split
    · rename_i h
      simp only [hbefore, opener?_opener] at h
      cases h
    · rename_i d body h
      simp only [hbefore, opener?_opener] at h
      obtain ⟨rfl, rfl⟩ := Prod.mk.inj (Option.some.inj h)
      split
      · rename_i h
        rw [hclose] at h
        cases h
      · rename_i h
        rw [hclose] at h
        obtain ⟨rfl, rfl⟩ := Prod.mk.inj (Option.some.inj h)
        simp only [hbody, List.drop_left, Token.stop_delimited, ih]

end Liquid
end LiquidLint
