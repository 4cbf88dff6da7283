import LiquidLint.Proofs.TidyText
import LiquidLint.Proofs.TokenMoves

/-!
# Reading tidied templates

The token of tidied delimiters is the token of the delimiters before, elsewhere: it has the same name,
the same markup and the same white-space control marks, and its markup stands at the same place of the
part that tidying leaves alone (`respaced_tidyToken`).

Tidying some of the variables and tags of a template gives a template with the same tokens elsewhere
(`exists_tidied`).  The reader is followed round by round.  What it does in a round depends on the
bytes of that round and on how the rest starts: whether nothing is left, whether an opener comes
next, and which bare end tag stands there.  Tidying the rest changes none of these (`SameFront`).
-/

namespace LiquidLint

theorem Text.trimSpace_eq_nil_of_blank {t : Text} (ht : ∀ b ∈ t, Text.isAsciiBlank b = true) :
    Text.trimSpace t = [] := by
  have h := Text.trimSpace_blanks_append ht []
  rw [List.append_nil] at h
  exact h.trans (Text.trimSpace_of_isLower nofun)

namespace Rule
namespace Spacing

open Liquid (Inner Delimiter Token Respaced)

/-! ## Where the markup stands -/

/-- Blanks before a text are counted with its own; those after it are not, unless it is blank. -/
theorem leadingBlanks_append {l m : Text} (hl : ∀ b ∈ l, isGap b = true)
    (hm : Text.trimSpace m ≠ []) (t : Text) :
    Liquid.leadingBlanks (l ++ (m ++ t)) = l.length + Liquid.leadingBlanks m := by
  have hl' : ∀ b ∈ l, Text.isAsciiBlank b = true := fun b hb => isAsciiBlank_of_isGap (hl b hb)
  rw [Liquid.leadingBlanks_eq, Liquid.leadingBlanks_eq, List.takeWhile_append_of_pos hl',
    List.length_append, List.takeWhile_append]
  split
  · rename_i hall
    -- a text of blanks is trimmed away
    refine absurd (Text.trimSpace_eq_nil_of_blank fun b hb => ?_) hm
    rw [← (List.takeWhile_prefix _).eq_of_length hall] at hb
    exact List.all_eq_true.1 List.all_takeWhile b hb
  · rfl

/-- How far behind the start of `m` the markup stands that is read from the trimmed text of `m`. -/
def markupSkip (d : Delimiter) (m : Text) : Nat :=
  match d with
  | .variable => Liquid.leadingBlanks m
  | .tag => Liquid.leadingBlanks m + (Liquid.splitTag (Text.trimSpace m) 0).2.2

/-- The token that is read from the trimmed text of `m`, with given marks and offsets. -/
def coreToken (d : Delimiter) (left right : Bool) (m : Text) (start stop markupStart : Nat) : Token :=
  match d with
  | .variable =>
    { kind := .variable, start, stop, markup := Text.trimSpace m, markupStart, trimLeft := left,
      trimRight := right }
  | .tag =>
    { kind := .tag, start, stop, name := (Liquid.splitTag (Text.trimSpace m) 0).1,
      markup := (Liquid.splitTag (Text.trimSpace m) 0).2.1, markupStart, trimLeft := left,
      trimRight := right }

/-- The token of delimiters whose body is `l ++ (m ++ t)` with gaps `l` and `t`. -/
theorem delimited_of_parts {d : Delimiter} {inner l m t : Text} (start : Nat)
    (hbody : (Inner.ofText inner).body = l ++ (m ++ t)) (hl : ∀ b ∈ l, isGap b = true)
    (ht : ∀ b ∈ t, isGap b = true) (hm : Text.trimSpace m ≠ []) :
    Token.delimited d start inner =
      coreToken d (Inner.ofText inner).left (Inner.ofText inner).right m start
        (start + inner.length + 4)
        (start + (d.opener ++ (Inner.dash (Inner.ofText inner).left ++ l)).length +
          markupSkip d m) := by
  have hblanks : Liquid.leadingBlanks (Inner.ofText inner).body =
      l.length + Liquid.leadingBlanks m := by
    rw [hbody, leadingBlanks_append hl hm]
  have htrim : Text.trimSpace (Inner.ofText inner).body = Text.trimSpace m := by
    rw [hbody, trimSpace_append_gaps hl ht]
  have hstart : (Inner.ofText inner).bodyStart start + Liquid.leadingBlanks (Inner.ofText inner).body =
      start + (d.opener ++ (Inner.dash (Inner.ofText inner).left ++ l)).length +
        Liquid.leadingBlanks m := by
    rw [hblanks]
    simp only [Inner.bodyStart, List.length_append, Delimiter.length_opener]
    omega
  rw [Token.delimited_eq]
  dsimp only
  rw [htrim, hstart]
  cases d with
  | «variable» => rfl
  | tag =>
    rw [Liquid.splitTag_start]
    simp only [coreToken, markupSkip, Nat.add_assoc]

theorem markup_coreToken_le (d : Delimiter) (left right : Bool) (m : Text)
    (start stop markupStart : Nat) :
    markupSkip d m + (coreToken d left right m start stop markupStart).markup.length ≤ m.length := by
  have hle := Liquid.leadingBlanks_add_length_trimSpace_le m
  have hsplit := (Liquid.splitTag_places (Text.trimSpace m) 0).2
  unfold markupSkip coreToken
  cases d with
  | «variable» => exact hle
  | tag =>
    dsimp only
    omega

/-! ## Tidied tokens -/

/-- The text of a variable or tag with tidy gaps. -/
def tidyToken (text : Text) : Text :=
  text.take 2 ++ (tidyInner (Text.slice text 2 (text.length - 2)) ++ text.drop (text.length - 2))

/-- What stands between delimiters. -/
theorem slice_inner (d : Delimiter) (inner : Text) :
    Text.slice (d.opener ++ (inner ++ d.closer)) 2
      ((d.opener ++ (inner ++ d.closer)).length - 2) = inner := by
  have hlength : (d.opener ++ (inner ++ d.closer)).length - 2 = d.opener.length + inner.length := by
    simp only [List.length_append, Delimiter.length_opener, Delimiter.length_closer]
    omega
  rw [hlength]
  exact Text.slice_append d.opener inner d.closer

theorem tidyToken_delimited (d : Delimiter) (inner : Text) :
    tidyToken (d.opener ++ (inner ++ d.closer)) = d.opener ++ (tidyInner inner ++ d.closer) := by
  have htake : (d.opener ++ (inner ++ d.closer)).take 2 = d.opener := List.take_left' rfl
  have hdrop : (d.opener ++ (inner ++ d.closer)).drop
      ((d.opener ++ (inner ++ d.closer)).length - 2) = d.closer := by
    rw [← List.append_assoc]
    refine List.drop_left' ?_
    rw [@List.length_append _ (d.opener ++ inner), Delimiter.length_closer, Nat.add_sub_cancel]
  unfold tidyToken
  rw [slice_inner, htake, hdrop]

/-- The same delimiters elsewhere have the same token elsewhere. -/
theorem respaced_self (d : Delimiter) (start start' : Nat) (inner : Text) :
    Nonempty (Respaced (d.opener ++ (inner ++ d.closer)) (d.opener ++ (inner ++ d.closer))
      (Token.delimited d start inner) (Token.delimited d start' inner)) := by
  have hlen : (d.opener ++ (inner ++ d.closer)).length = inner.length + 4 := by
    simp only [List.length_append, Delimiter.length_opener, Delimiter.length_closer]
    omega
  have hmarkup := Token.markup_delimited d 0 inner
  refine ⟨d.opener, d.opener, inner, d.closer, d.closer,
    (Token.delimited d 0 inner).markupStart - 2, rfl, rfl, ?_, ?_, ?_, ?_, ?_, ?_, ?_⟩
  · rw [Token.delimited_shift d start, Token.delimited_shift d start']
  · rw [Token.start_delimited, Token.stop_delimited, hlen, Nat.add_assoc]
  · rw [Token.start_delimited, Token.stop_delimited, hlen, Nat.add_assoc]
  · rw [Token.delimited_shift d start]
    simp only [Delimiter.length_opener]
    omega
  · rw [Token.delimited_shift d start']
    simp only [Delimiter.length_opener]
    omega
  · rw [Token.delimited_shift d start]
    dsimp only
    omega
  · exact .inr ⟨Nat.zero_lt_two, Nat.zero_lt_two, Nat.zero_lt_two, Nat.zero_lt_two⟩

/-- **Tidied delimiters have the same token elsewhere.** -/
theorem respaced_tidyToken (d : Delimiter) (start start' : Nat) (inner : Text) :
    Nonempty (Respaced (d.opener ++ (inner ++ d.closer))
      (tidyToken (d.opener ++ (inner ++ d.closer)))
      (Token.delimited d start inner) (Token.delimited d start' (tidyInner inner))) := by
  rw [tidyToken_delimited]
  by_cases hblank : Text.trimSpace (Inner.ofText inner).body = []
  · have hsame : tidyInner inner = inner := by
      unfold tidyInner
      rw [tidyBody_of_blank hblank, Inner.text_ofText]
    rw [hsame]
    exact respaced_self d start start' inner
  · obtain ⟨m, hcore, hbody, htidy⟩ := exists_tidyBody hblank
    have hlead := isGap_lead (Inner.ofText inner).body
    have htrail := isGap_trail (Inner.ofText inner).body
    have hm : Text.trimSpace m ≠ [] := by
      rw [hbody, trimSpace_append_gaps hlead htrail] at hblank
      exact hblank
    have hold := delimited_of_parts (d := d) start hbody hlead htrail hm
    have hbody' : (Inner.ofText (tidyInner inner)).body =
        tidyGap (lead (Inner.ofText inner).body) ++
          (m ++ tidyGap (trail (Inner.ofText inner).body)) := by
      rw [ofText_tidyInner]
      exact htidy
    have hnew := delimited_of_parts (d := d) start' hbody' (isGap_tidyGap hlead)
      (isGap_tidyGap htrail) hm
    rw [ofText_tidyInner] at hnew
    rw [hold, hnew]
    -- the text before and after tidying, cut at the core of the body
    have hcut (gap gap' : Text) (u : Inner) (hu : u.body = gap ++ (m ++ gap')) :
        d.opener ++ (u.text ++ d.closer) = (d.opener ++ (Inner.dash u.left ++ gap)) ++
          (m ++ (gap' ++ (Inner.dash u.right ++ d.closer))) := by
      unfold Inner.text
      rw [hu]
      simp only [List.append_assoc]
    have htext := hcut _ _ (Inner.ofText inner) hbody
    have htext' := hcut _ _ { Inner.ofText inner with body := tidyBody (Inner.ofText inner).body } htidy
    rw [Inner.text_ofText] at htext
    have hlen (t : Text) : (d.opener ++ (t ++ d.closer)).length = t.length + 4 := by
      simp only [List.length_append, Delimiter.length_opener, Delimiter.length_closer]
      omega
    have hopener (t : Text) : 0 < (d.opener ++ t).length := by
      rw [List.length_append, Delimiter.length_opener]
      omega
    have hcloser (t u : Text) : 0 < (t ++ (u ++ d.closer)).length := by
      simp only [List.length_append, Delimiter.length_closer]
      omega
    refine ⟨_, _, m, _, _, markupSkip d m, htext, htext', ?_, ?_, ?_, ?_, ?_, ?_, ?_⟩
    · cases d <;> rfl
    · rw [hlen, ← Nat.add_assoc]
      cases d <;> rfl
    · rw [hlen, ← Nat.add_assoc]
      cases d <;> rfl
    · cases d <;> rfl
    · cases d <;> rfl
    · exact markup_coreToken_le d _ _ m _ _ _
    · exact .inr ⟨hopener _, hopener _, hcloser _ _, hcloser _ _⟩

end Spacing
end Rule

namespace Liquid

/-! ## How a text starts -/

/-- A text that starts like another one, as far as the reader in front of it can tell. -/
structure SameFront (src src' : Text) : Prop where
  nil : src = [] → src' = []
  opener : ∀ (d : Delimiter) (x : Text), src = d.opener ++ x → ∃ x', src' = d.opener ++ x'
  bare : ∀ name block : Text, tagRole name = .closes block → bareTag? src = some name →
    bareTag? src' = some name

theorem SameFront.refl (src : Text) : SameFront src src :=
  ⟨id, fun _ x h => ⟨x, h⟩, fun _ _ _ h => h⟩

/-- An end tag has a name. -/
theorem ne_nil_of_closes {name block : Text} (h : tagRole name = .closes block) : name ≠ [] := by
  rintro rfl
  exact nomatch (show TagRole.nameless = .closes block from h)

/-- Whether `a` starts an opener depends on the next byte only. -/
theorem isSome_opener?_congr (a b : UInt8) (t t' : Text) :
    (opener? (a :: b :: t)).isSome = (opener? (a :: b :: t')).isSome := by
  refine Bool.eq_iff_iff.2 ?_
  rw [isSome_opener?_cons_cons, isSome_opener?_cons_cons]

/-- A text in front of an opener has the same first byte whatever follows the opener. -/
theorem exists_front (t : Text) (d : Delimiter) (x x' : Text) :
    ∃ b u u', t ++ (d.opener ++ x) = b :: u ∧ t ++ (d.opener ++ x') = b :: u' := by
  cases t with
  | nil => exact ⟨_, _, _, rfl, rfl⟩
  | cons b t => exact ⟨b, _, _, rfl, rfl⟩

/-- Whether an opener is the first one does not depend on what follows it. -/
theorem untilOpener_congr {t x : Text} {d : Delimiter}
    (h : untilOpener (t ++ (d.opener ++ x)) = (t, d.opener ++ x)) (x' : Text) :
    untilOpener (t ++ (d.opener ++ x')) = (t, d.opener ++ x') := by
  induction t with
  | nil => exact untilOpener_opener d x'
  | cons a t ih =>
    obtain ⟨b, u, u', hu, hu'⟩ := exists_front t d x x'
    rw [List.cons_append, untilOpener] at h ⊢
    rw [hu] at h
    rw [hu', isSome_opener?_congr a b u' u]
    split at h
    · cases (Prod.mk.inj h).1
    · rename_i hopen
      rw [if_neg hopen]
      obtain ⟨h₁, h₂⟩ := Prod.mk.inj h
      obtain ⟨_, h₁⟩ := List.cons.inj h₁
      rw [← hu] at h₁ h₂
      rw [← hu', ih (Prod.ext h₁ h₂)]

/-- The search for an opener ends at an opener, or at the end. -/
theorem eq_nil_or_opener {t before rest : Text} (h : untilOpener t = (before, rest)) :
    rest = [] ∨ ∃ (d : Delimiter) (x : Text), rest = d.opener ++ x := by
  have hfirst := opener?_untilOpener t
  rw [h] at hfirst
  rcases hfirst with hnil | hsome
  · exact .inl hnil
  · obtain ⟨⟨d, x⟩, hopen⟩ := Option.isSome_iff_exists.1 hsome
    exact .inr ⟨d, x, eq_append_of_opener? hopen⟩

/-- An opener that no closer answers before the next opener is not answered by what follows that
one. -/
theorem untilCloser_congr {d e : Delimiter} {t x : Text}
    (h : untilCloser d (t ++ (e.opener ++ x)) = none) (x' : Text) :
    untilCloser d (t ++ (e.opener ++ x')) = none := by
  induction t with
  | nil =>
    have hne : ¬ (('{' : UInt8) = d.closeMark ∧ e.mark = '}') := by
      cases d <;> exact fun h => absurd h.1 (by decide)
    have hopen : (opener? ('{' :: e.mark :: x')).isSome = true :=
      congrArg Option.isSome (opener?_opener e x')
    show untilCloser d ('{' :: e.mark :: x') = none
    rw [untilCloser, if_neg hne, if_pos hopen]
  | cons a t ih =>
    obtain ⟨b, u, u', hu, hu'⟩ := exists_front t e x x'
    rw [List.cons_append] at h ⊢
    rw [hu, untilCloser] at h
    rw [hu', untilCloser, isSome_opener?_congr a b u' u]
    rw [hu, hu'] at ih
    split at h
    · cases h
    · rename_i hclose
      rw [if_neg hclose]
      split at h
      · rename_i hopen
        rw [if_pos hopen]
      · rename_i hopen
        rw [if_neg hopen, ih (Option.map_eq_none_iff.1 h)]
        rfl

/-- An opener that is not answered is not answered in front of a text that starts alike. -/
theorem SameFront.unterminated {d : Delimiter} {junk rest rest' : Text} (hfront : SameFront rest rest')
    (hopen : untilCloser d (junk ++ rest) = none) (hjunk : untilOpener (junk ++ rest) = (junk, rest)) :
    untilCloser d (junk ++ rest') = none ∧ untilOpener (junk ++ rest') = (junk, rest') := by
  rcases eq_nil_or_opener hjunk with hnil | ⟨e, x, hx⟩
  · rw [hfront.nil hnil, ← hnil]
    exact ⟨hopen, hjunk⟩
  · obtain ⟨x', hx'⟩ := hfront.opener e x hx
    rw [hx] at hopen hjunk
    rw [hx']
    exact ⟨untilCloser_congr hopen x', untilOpener_congr hjunk x'⟩

/-! ## Verbatim bodies -/

/-- Which bare tag a text starts with does not depend on what follows the next opener. -/
theorem bareTag?_congr {s x name : Text} {d : Delimiter} (hs : s ≠ []) (hne : name ≠ [])
    (h : bareTag? (s ++ (d.opener ++ x)) = some name) (x' : Text) :
    bareTag? (s ++ (d.opener ++ x')) = some name := by
  obtain ⟨i, more, heq⟩ := exists_of_bareTag? h
  -- the tag ends before the next opener, since it holds no brace that could start one
  have hfits : (Delimiter.tag.opener ++ (i.inner.text ++ Delimiter.tag.closer)) <+: s := by
    have hpre : (Delimiter.tag.opener ++ (i.inner.text ++ Delimiter.tag.closer)) <+:
        s ++ (d.opener ++ x) := ⟨more, by rw [heq]; simp only [List.append_assoc]⟩
    rcases List.prefix_or_prefix_of_prefix hpre (List.prefix_append s _) with hfits | ⟨t, ht⟩
    · exact hfits
    · obtain ⟨b, s, rfl⟩ := List.exists_cons_of_ne_nil hs
      cases t with
      | nil => exact ⟨[], by rw [List.append_nil, ← ht, List.append_nil]⟩
      | cons c t =>
        exfalso
        have hc : c = '{' := by
          obtain ⟨more', hmore'⟩ := hpre
          rw [← ht, List.append_assoc] at hmore'
          exact (List.cons.inj (List.append_cancel_left hmore')).1
        have hmem : c ∈ (('%' : UInt8) ::  (i.inner.text ++ Delimiter.tag.closer)) := by
          have htail : s ++ c :: t = (('%' : UInt8) ::  (i.inner.text ++ Delimiter.tag.closer)) :=
            (List.cons.inj ht).2
          rw [← htail]
          exact List.mem_append_right _ (List.mem_cons_self ..)
        rw [hc] at hmem
        rcases List.mem_cons.1 hmem with hmem | hmem
        · exact absurd hmem (by decide)
        · rcases List.mem_append.1 hmem with hmem | hmem
          · exact (i.clean hmem).1 rfl
          · exact absurd hmem (by decide)
  obtain ⟨t, rfl⟩ := hfits
  have hfound := i.bareTag?_eq hne (t ++ (d.opener ++ x'))
  simp only [List.append_assoc] at hfound ⊢
  exact hfound

/-- A bare tag ends before the next opener. -/
theorem bareTag?_ne_of_untilCloser {d : Delimiter} {t name : Text} (h : untilCloser d t = none) :
    bareTag? (d.opener ++ t) ≠ some name := by
  intro hname
  obtain ⟨i, more, heq⟩ := exists_of_bareTag? hname
  have hopen := congrArg opener? heq
  rw [opener?_opener, opener?_opener] at hopen
  obtain ⟨rfl, hrest⟩ := Prod.mk.inj (Option.some.inj hopen)
  rw [hrest, untilCloser_of_clean (d := .tag) (fun b hb => i.clean hb)] at h
  cases h

/-- A text that ends a verbatim body where another one does. -/
structure SameEnd (rest rest' : Text) : Prop where
  nil : rest = [] → rest' = []
  endraw : bareTag? rest = some "endraw" → bareTag? rest' = some "endraw"
  endcomment : bareTag? rest = some "endcomment" → bareTag? rest' = some "endcomment"

theorem SameFront.sameEnd {rest rest' : Text} (h : SameFront rest rest') : SameEnd rest rest' :=
  ⟨h.nil, h.bare "endraw" "raw" (by decide), h.bare "endcomment" "comment" (by decide)⟩

/-- A body of `raw` that ends at the end of the source or at its end tag ends there whatever follows. -/
theorem rawBody_congr {body rest rest' : Text} (hend : SameEnd rest rest')
    (h : rawBody (body ++ rest) = body) : rawBody (body ++ rest') = body := by
  have hafter : rest = [] ∨ bareTag? rest = some "endraw" :=
    after_rawBody (t := body ++ rest) (by rw [h])
  rcases hafter with hnil | hbare
  · rw [hend.nil hnil]
    rwa [hnil] at h
  · have hend' := hend.endraw hbare
    obtain ⟨_, more, hrest⟩ := exists_of_bareTag? hbare
    obtain ⟨_, more', hrest'⟩ := exists_of_bareTag? hend'
    induction body with
    | nil =>
      rw [List.nil_append]
      rw [hrest'] at hend' ⊢
      exact if_pos hend'
    | cons b body ih =>
      rw [List.cons_append, rawBody] at h ⊢
      split at h
      · cases h
      · rename_i hnot
        rw [if_neg fun hbare => hnot ?_, ih (List.cons.inj h).2]
        rw [hrest', ← List.cons_append] at hbare
        rw [hrest]
        exact bareTag?_congr (List.cons_ne_nil _ _) (by decide) hbare _

/-- At a bare `endcomment` tag the body of a comment ends if no comment is nested in it. -/
theorem commentBody_of_end {depth : Nat} {t : Text} (hend : bareTag? t = some "endcomment") :
    commentBody depth t = [] ↔ depth = 0 := by
  obtain ⟨_, more, ht⟩ := exists_of_bareTag? hend
  obtain ⟨b, t, rfl⟩ := List.exists_cons_of_ne_nil (l := t) (by rw [ht]; exact List.cons_ne_nil _ _)
  have hne : bareTag? (b :: t) ≠ some "comment" := by
    rw [hend]
    decide
  rw [commentBody.eq_def]
  dsimp only
  rw [if_neg hne, if_pos hend]
  cases depth with
  | zero => exact iff_of_true rfl rfl
  | succ depth => exact iff_of_false (List.cons_ne_nil _ _) (Nat.succ_ne_zero _)

theorem commentBody_congr {depth : Nat} {body rest rest' : Text} (hsame : SameEnd rest rest')
    (h : commentBody depth (body ++ rest) = body) : commentBody depth (body ++ rest') = body := by
  have hafter : rest = [] ∨ bareTag? rest = some "endcomment" :=
    @after_commentBody depth (body ++ rest) rest (by rw [h])
  rcases hafter with hnil | hend
  · rw [hsame.nil hnil]
    rwa [hnil] at h
  · have hend' := hsame.endcomment hend
    obtain ⟨_, more, hrest⟩ := exists_of_bareTag? hend
    obtain ⟨_, more', hrest'⟩ := exists_of_bareTag? hend'
    have hcongr (s name : Text) (hs : s ≠ []) (hne : name ≠ []) :
        bareTag? (s ++ rest) = some name ↔ bareTag? (s ++ rest') = some name := by
      rw [hrest, hrest']
      exact ⟨fun h => bareTag?_congr hs hne h _, fun h => bareTag?_congr hs hne h _⟩
    induction body generalizing depth with
    | nil =>
      rw [List.nil_append] at h ⊢
      exact (commentBody_of_end hend').2 ((commentBody_of_end hend).1 h)
    | cons b body ih =>
      have hcomment : bareTag? (b :: (body ++ rest)) = some "comment" ↔
          bareTag? (b :: (body ++ rest')) = some "comment" :=
        hcongr (b :: body) "comment" (List.cons_ne_nil _ _) (by decide)
      have hclose : bareTag? (b :: (body ++ rest)) = some "endcomment" ↔
          bareTag? (b :: (body ++ rest')) = some "endcomment" :=
        hcongr (b :: body) "endcomment" (List.cons_ne_nil _ _) (by decide)
      rw [List.cons_append] at h ⊢
      rw [commentBody.eq_def] at h ⊢
      dsimp only at h ⊢
      by_cases hopen : bareTag? (b :: (body ++ rest)) = some "comment"
      · rw [if_pos hopen] at h
        rw [if_pos (hcomment.1 hopen), ih (List.cons.inj h).2]
      · rw [if_neg hopen] at h
        rw [if_neg fun h => hopen (hcomment.2 h)]
        by_cases hend : bareTag? (b :: (body ++ rest)) = some "endcomment"
        · rw [if_pos hend] at h
          rw [if_pos (hclose.1 hend)]
          cases depth with
          | zero => cases h
          | succ depth =>
            dsimp only at h ⊢
            rw [ih (List.cons.inj h).2]
        · rw [if_neg hend] at h
          rw [if_neg fun h => hend (hclose.2 h), ih (List.cons.inj h).2]

/-- The verbatim body of a token does not depend on what follows its end. -/
theorem verbatimBody_congr {tok tok' : Token} {body rest rest' : Text}
    (hkind : tok'.kind = tok.kind) (hname : tok'.name = tok.name) (hend : SameEnd rest rest')
    (h : verbatimBody tok (body ++ rest) = body) : verbatimBody tok' (body ++ rest') = body := by
  unfold verbatimBody at h ⊢
  rw [hkind, hname]
  by_cases htag : tok.kind = .tag
  · rw [if_pos htag] at h ⊢
    by_cases hraw : tok.name = "raw"
    · rw [if_pos hraw] at h ⊢
      exact rawBody_congr hend h
    · rw [if_neg hraw] at h ⊢
      by_cases hcomment : tok.name = "comment"
      · rw [if_pos hcomment] at h ⊢
        exact commentBody_congr hend h
      · rwa [if_neg hcomment] at h ⊢
  · rwa [if_neg htag] at h ⊢

/-! ## The start of a round -/

/-- A text in front of an opener that is the first one is followed by it, and starts with it only if
the text is empty. -/
theorem sameFront_of_before {before x x' : Text} {d : Delimiter}
    (h : untilOpener (before ++ (d.opener ++ x)) = (before, d.opener ++ x))
    (hbare : ∀ name block : Text, tagRole name = .closes block → before = [] →
      bareTag? (d.opener ++ x) = some name → bareTag? (d.opener ++ x') = some name) :
    SameFront (before ++ (d.opener ++ x)) (before ++ (d.opener ++ x')) := by
  have hempty (e : Delimiter) (y : Text) (hsrc : before ++ (d.opener ++ x) = e.opener ++ y) :
      before = [] := by
    rw [hsrc, untilOpener_opener] at h
    exact (Prod.mk.inj h).1.symm
  refine ⟨fun hnil => ?_, fun e y hsrc => ?_, fun name block hrole hname => ?_⟩
  · cases before <;> cases hnil
  · obtain rfl := hempty e y hsrc
    have hopen := congrArg opener? hsrc
    rw [List.nil_append, opener?_opener, opener?_opener] at hopen
    obtain ⟨rfl, _⟩ := Prod.mk.inj (Option.some.inj hopen)
    exact ⟨x', rfl⟩
  · obtain ⟨i, more, hsrc⟩ := exists_of_bareTag? hname
    obtain rfl := hempty .tag _ hsrc
    exact hbare name block hrole rfl hname

end Liquid

namespace Rule
namespace Spacing

open Liquid

/-- The text of a token, tidied if the token is chosen. -/
def fixToken (chosen : Token → Bool) (tok : Token) (text : Text) : Text :=
  if chosen tok then tidyToken text else text

/-! ## One round -/

/-- A text has the same token elsewhere. -/
theorem respaced_text {text : Text} {tok : Token} (start' : Nat) (hne : text ≠ [])
    (hkind : tok.kind ≠ .tag) (hstop : tok.stop = tok.start + text.length)
    (hmarkup : tok.markup = text) (hstart : tok.markupStart = tok.start) :
    Nonempty (Respaced text text tok
      { tok with start := start', stop := start' + text.length, markupStart := start' }) := by
  refine ⟨[], [], text, [], [], 0, ?_, ?_, rfl, hstop, rfl, ?_, rfl, ?_, .inl ⟨hkind, rfl, rfl, rfl, ?_⟩⟩
  · rw [List.append_nil, List.nil_append]
  · rw [List.append_nil, List.nil_append]
  · rw [hstart]
    rfl
  · rw [hmarkup, Nat.zero_add]
  · exact List.length_pos_iff.2 hne

variable {chosen : Token → Bool}

/-- A variable or tag, chosen or not, has the same token elsewhere, and its end is found. -/
theorem exists_tidied_delimited (d : Delimiter) (start start' : Nat) {inner more : Text}
    (hclose : untilCloser d (inner ++ (d.closer ++ more)) = some (inner, more)) :
    ∃ inner', fixToken chosen (Token.delimited d start inner) (d.opener ++ (inner ++ d.closer)) =
        d.opener ++ (inner' ++ d.closer) ∧
      Nonempty (Respaced (d.opener ++ (inner ++ d.closer)) (d.opener ++ (inner' ++ d.closer))
        (Token.delimited d start inner) (Token.delimited d start' inner')) ∧
      (∀ more', untilCloser d (inner' ++ (d.closer ++ more')) = some (inner', more')) ∧
      ∀ name more', name ≠ [] → bareTag? (d.opener ++ (inner ++ (d.closer ++ more))) = some name →
        bareTag? (d.opener ++ (inner' ++ (d.closer ++ more'))) = some name := by
  -- where a bare tag stands, the delimiters are its own
  have hbare (name : Text)
      (hname : bareTag? (d.opener ++ (inner ++ (d.closer ++ more))) = some name) :
      d = .tag ∧ ∃ i : BareInner name, inner = i.inner.text := by
    obtain ⟨i, more', heq⟩ := exists_of_bareTag? hname
    have hopen := congrArg opener? heq
    rw [opener?_opener, opener?_opener] at hopen
    obtain ⟨rfl, hrest⟩ := Prod.mk.inj (Option.some.inj hopen)
    rw [hrest, untilCloser_of_clean (d := .tag) (fun b hb => i.clean hb)] at hclose
    exact ⟨rfl, i, (Prod.mk.inj (Option.some.inj hclose)).1.symm⟩
  unfold fixToken
  by_cases hyes : chosen (Token.delimited d start inner) = true
  · refine ⟨tidyInner inner, ?_, ?_, fun _ => untilCloser_tidyInner hclose,
      fun name more' hne hname => ?_⟩
    · rw [if_pos hyes, tidyToken_delimited]
    · have h := respaced_tidyToken d start start' inner
      rwa [tidyToken_delimited] at h
    · obtain ⟨rfl, i, rfl⟩ := hbare name hname
      obtain ⟨i', hi'⟩ := exists_bareInner_tidyInner i hne
      rw [hi']
      exact i'.bareTag?_eq hne more'
  · refine ⟨inner, if_neg hyes, respaced_self d start start' inner, fun more' => ?_,
      fun name more' hne hname => ?_⟩
    · rw [untilCloser_eq_some_iff] at hclose ⊢
      exact hclose
    · obtain ⟨rfl, i, rfl⟩ := hbare name hname
      exact i.bareTag?_eq hne more'

section Rounds

variable (hchosen : ∀ tok, chosen tok = true → ¬ tok.kind.IsText)
variable {start start' : Nat} {src src' : Text} {toks toks' : List Token}

include hchosen

theorem respaces_textTokens (t : Text)
    (h : Respaces (fixToken chosen) (start + t.length) (start' + t.length) src src' toks toks') :
    Respaces (fixToken chosen) start start' (t ++ src) (t ++ src') (textTokens start t ++ toks)
      (textTokens start' t ++ toks') := by
  unfold textTokens
  split
  · rename_i hempty
    obtain rfl := List.isEmpty_iff.1 hempty
    exact h
  · rename_i hempty
    have hne : t ≠ [] := fun hnil => hempty (List.isEmpty_iff.2 hnil)
    obtain ⟨hrespaced⟩ := @respaced_text t
      { kind := .text, start, stop := start + t.length, markup := t, markupStart := start } start' hne
      nofun rfl rfl rfl
    refine Respaces.cons_of_eq (if_neg fun hyes => ?_) hrespaced h
    exact hchosen _ hyes trivial

/-- **A template with some of its variables and tags tidied has the same tokens elsewhere.** -/
theorem exists_tidied (h : Reads start src toks) (start' : Nat) :
    ∃ src' toks', Reads start' src' toks' ∧
      Respaces (fixToken chosen) start start' src src' toks toks' ∧ SameFront src src' := by
  induction h generalizing start' with
  | @plain start src hplain =>
    refine ⟨src, textTokens start' src, .plain hplain, ?_, .refl src⟩
    have h := @respaces_textTokens chosen hchosen start start' [] [] [] [] src .nil
    simp only [List.append_nil] at h
    exact h
  | @unterminated start before junk rest d toks hbefore hopen hjunk hrest ih =>
    obtain ⟨rest', toks', hreads, hrespaces, hfront⟩ := ih (start' + before.length + 2 + junk.length)
    have hafter := hfront.unterminated hopen hjunk
    have hlength : (d.opener ++ junk).length = 2 + junk.length := by
      rw [List.length_append, Delimiter.length_opener]
    obtain ⟨hrespaced⟩ := @respaced_text (d.opener ++ junk)
      (unterminatedToken d (start + before.length) junk) (start' + before.length)
      (List.cons_ne_nil _ _) nofun (by rw [hlength, ← Nat.add_assoc]; rfl) rfl rfl
    rw [hlength, ← Nat.add_assoc] at hrespaced
    have htoken : Respaces (fixToken chosen) (start + before.length) (start' + before.length)
        (d.opener ++ junk ++ rest) (d.opener ++ junk ++ rest')
        (unterminatedToken d (start + before.length) junk :: toks)
        (unterminatedToken d (start' + before.length) junk :: toks') := by
      refine Respaces.cons_of_eq (if_neg fun hyes => ?_) hrespaced hrespaces
      exact hchosen _ hyes trivial
    rw [List.append_assoc, List.append_assoc] at htoken
    refine ⟨_, _, .unterminated (untilOpener_congr hbefore _) hafter.1 hafter.2 hreads,
      respaces_textTokens hchosen before htoken, sameFront_of_before hbefore ?_⟩
    exact fun _ _ _ _ hname => absurd hname (bareTag?_ne_of_untilCloser hopen)
  | @delimited start before inner body rest d toks hbefore hclose hbody hrest ih =>
    obtain ⟨inner', hfix, ⟨hrespaced⟩, hclose', hbare⟩ := @exists_tidied_delimited chosen d
      (start + before.length) (start' + before.length) _ _ hclose
    obtain ⟨rest', toks', hreads, hrespaces, hfront⟩ :=
      ih (start' + before.length + inner'.length + 4 + body.length)
    have hkind := congrArg Token.kind hrespaced.same
    have hname := congrArg Token.name hrespaced.same
    have hbody' := verbatimBody_congr hkind hname hfront.sameEnd hbody
    have hafter := respaces_textTokens hchosen body hrespaces
    rw [← Token.stop_delimited, ← Token.stop_delimited] at hafter
    have htoken := Respaces.cons_of_eq hfix hrespaced hafter
    rw [Token.start_delimited, Token.start_delimited, Token.stop_delimited, Token.stop_delimited]
      at htoken
    simp only [List.append_assoc] at htoken
    exact ⟨_, _, .delimited (untilOpener_congr hbefore _) (hclose' _) hbody' hreads,
      respaces_textTokens hchosen before htoken,
      sameFront_of_before hbefore fun name _ hrole _ hname =>
        hbare name _ (ne_nil_of_closes hrole) hname⟩

end Rounds

end Spacing
end Rule
end LiquidLint
