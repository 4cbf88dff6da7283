import LiquidLint.Markup.Mask
import LiquidLint.Proofs.BareTags
import LiquidLint.Proofs.PathNames

/-!
# The mask and the tokens of a template

The mask of a template is made by a scan of its own.  The scan ends a region at the first closer and knows no
verbatim bodies; the reader of tokens gives an opener up at the next one, and takes a verbatim body as it is.
Here the two are held against each other, round by round of the reader (`Masks`).

Outside of verbatim bodies they go in step: text before an opener is left alone (`maskFrom_before`), and the
closer that the reader finds is the first one, so the mask blanks out the variable or the tag and nothing else
(`maskFrom_region`).  In a verbatim body the scan goes on looking for openers.  It is in step again after the
end tag if the opener of that tag stands in a region of tags (`EndsInTag`), since an end tag holds nothing that
closes a tag early (`maskFrom_body`).  So the mask agrees with the tokens of a template where every opener has
a closer and no body leaves a variable open (`mask_agrees`).

A body that does leave a variable open, such as a single brace before the end tag, swallows what follows the
end tag up to the next closer of a variable (`mask_swallows`).
-/

namespace LiquidLint

open Liquid

namespace Markup

/-! ## The mask, region by region -/

/-- The byte that a region is filled with. -/
def fillOf (afterEquals : Bool) : UInt8 := if afterEquals then 'x' else ' '

theorem maskFrom_nil (a : Bool) : maskFrom a [] = [] := by
  rw [maskFrom]

/-- A byte that opens no region stays as it is. -/
theorem maskFrom_plain (a : Bool) {b : UInt8} {rest : Text} (h : opener? (b :: rest) = none) :
    maskFrom a (b :: rest) = b :: maskFrom (b = '=') rest := by
  rw [maskFrom]
  split
  · rfl
  · rename_i d body hopen
    rw [h] at hopen
    cases hopen

theorem maskFrom_opener (a : Bool) {d : Delimiter} {src body : Text} (h : opener? src = some (d, body)) :
    maskFrom a src =
      blankOut (fillOf a) (src.take (regionLength d body)) ++
        maskFrom false (src.drop (regionLength d body)) := by
  cases src with
  | nil => cases h
  | cons b rest =>
    rw [maskFrom]
    split
    · rename_i hopen
      rw [h] at hopen
      cases hopen
    · rename_i d' body' hopen
      rw [h] at hopen
      obtain ⟨rfl, rfl⟩ := Prod.mk.inj (Option.some.inj hopen)
      rfl

theorem length_blankOut (fill : UInt8) (t : Text) : (blankOut fill t).length = t.length :=
  List.length_map ..

theorem blankOut_append (fill : UInt8) (t u : Text) :
    blankOut fill (t ++ u) = blankOut fill t ++ blankOut fill u :=
  List.map_append

/-- **The mask is as long as the source.** -/
theorem length_maskFrom (a : Bool) (src : Text) : (maskFrom a src).length = src.length := by
  induction hn : src.length using Nat.strongRecOn generalizing a src with
  | ind n ih =>
    cases src with
    | nil => rw [maskFrom_nil, ← hn]
    | cons b rest =>
      cases hopen : opener? (b :: rest) with
      | none =>
        rw [maskFrom_plain a hopen, List.length_cons, ih rest.length (by rw [← hn]; simp) _ _ rfl, ← hn]
        rfl
      | some p =>
        obtain ⟨d, body⟩ := p
        have hlength := length_opener? hopen
        have hrest : ((b :: rest).drop (regionLength d body)).length < n := by
          rw [List.length_drop, hn]
          unfold regionLength
          split <;> omega
        rw [maskFrom_opener a hopen, List.length_append, length_blankOut, ih _ hrest _ _ rfl,
          ← List.length_append, List.take_append_drop, hn]

/-- The bytes before the first opener stay as they are. -/
theorem maskFrom_before (a : Bool) {before more : Text} (h : untilOpener (before ++ more) = (before, more)) :
    ∃ c, maskFrom a (before ++ more) = before ++ maskFrom c more := by
  induction before generalizing a with
  | nil => exact ⟨a, rfl⟩
  | cons b before ih =>
    rw [List.cons_append, untilOpener] at h
    split at h
    · cases (Prod.mk.inj h).1
    · rename_i hopen
      obtain ⟨hbefore, hmore⟩ := Prod.mk.inj h
      obtain ⟨c, hc⟩ := ih (b = '=') (Prod.ext (List.cons.inj hbefore).2 hmore)
      refine ⟨c, ?_⟩
      rw [List.cons_append, maskFrom_plain a (Option.not_isSome_iff_eq_none.1 hopen), hc]
      rfl

/-- A region reaches through its first closer. -/
theorem maskFrom_region (a : Bool) {d : Delimiter} {inner more : Text}
    (h : Text.offsetOf? (inner ++ (d.closer ++ more)) d.closer = some inner.length) :
    maskFrom a (d.opener ++ (inner ++ (d.closer ++ more))) =
      blankOut (fillOf a) (d.opener ++ (inner ++ d.closer)) ++ maskFrom false more := by
  have hlength : regionLength d (inner ++ (d.closer ++ more)) =
      (d.opener ++ (inner ++ d.closer)).length := by
    unfold regionLength closer
    rw [show ([d.closeMark, '}'] : Text) = d.closer from rfl, h]
    simp only [List.length_append, Delimiter.length_opener, Delimiter.length_closer]
    omega
  have hcut : d.opener ++ (inner ++ (d.closer ++ more)) =
      (d.opener ++ (inner ++ d.closer)) ++ more := by
    simp only [List.append_assoc]
  rw [maskFrom_opener a (opener?_opener d _), hlength, hcut, List.take_left, List.drop_left]

/-- The closer that the reader of tokens finds is the first one. -/
theorem offsetOf?_of_untilCloser {d : Delimiter} {t inner more : Text}
    (h : untilCloser d t = some (inner, more)) : Text.offsetOf? t d.closer = some inner.length := by
  fun_induction untilCloser d t generalizing inner more with
  | case1 a b rest hclose =>
    obtain ⟨rfl, rfl⟩ := Prod.mk.inj (Option.some.inj h)
    obtain ⟨rfl, rfl⟩ := hclose
    exact Text.offsetOf?_append_self d.closer rest
  | case2 => cases h
  | case3 a b rest hclose hopen ih =>
    obtain ⟨⟨inner', more'⟩, hq, hp⟩ := Option.map_eq_some_iff.1 h
    obtain ⟨rfl, rfl⟩ := Prod.mk.inj hp
    rw [Text.offsetOf?_cons, ih hq, if_neg]
    · rfl
    · rw [Text.startsWith_iff]
      rintro ⟨u, hu⟩
      injection hu with ha hu
      injection hu with hb _
      exact hclose ⟨ha, hb⟩
  | case4 => cases h

/-! ## What a body leaves open -/

/-- The region that is open at the end of a text, which starts outside of all regions. -/
def openAtEnd (src : Text) : Option Delimiter :=
  match src with
  | [] => none
  | b :: rest =>
    match opener? (b :: rest) with
    | none => openAtEnd rest
    | some (d, body) =>
      match Text.offsetOf? body (closer d) with
      | none => some d
      | some n => openAtEnd ((b :: rest).drop (n + 4))
termination_by src.length
decreasing_by
  · simp
  · simp only [List.length_drop, List.length_cons]
    omega

/-- The opener of the end tag after a body is in a region of tags, be it that of the end tag or one that
the body left open. -/
def EndsInTag (body : Text) : Prop := openAtEnd (body ++ Delimiter.tag.opener) = some .tag

instance (body : Text) : Decidable (EndsInTag body) := by
  unfold EndsInTag
  infer_instance

theorem openAtEnd_plain {b : UInt8} {rest : Text} (h : opener? (b :: rest) = none) :
    openAtEnd (b :: rest) = openAtEnd rest := by
  rw [openAtEnd]
  split
  · rfl
  · rename_i d body hopen
    rw [h] at hopen
    cases hopen

theorem openAtEnd_opener {d : Delimiter} {src body : Text} (h : opener? src = some (d, body)) :
    openAtEnd src =
      match Text.offsetOf? body d.closer with
      | none => some d
      | some n => openAtEnd (src.drop (n + 4)) := by
  cases src with
  | nil => cases h
  | cons b rest =>
    rw [openAtEnd]
    split
    · rename_i hopen
      rw [h] at hopen
      cases hopen
    · rename_i d' body' hopen
      rw [h] at hopen
      obtain ⟨rfl, rfl⟩ := Prod.mk.inj (Option.some.inj hopen)
      rfl

/-- An end tag holds nothing that closes it early, so the first closer after its opener is its own, wherever
the region was opened. -/
theorem offsetOf?_end_tag {name body : Text} (i : BareInner name) (more : Text)
    (h : Text.offsetOf? (body ++ Delimiter.tag.opener) Delimiter.tag.closer = none) :
    Text.offsetOf? (body ++ (Delimiter.tag.opener ++ (i.inner.text ++ (Delimiter.tag.closer ++ more))))
      Delimiter.tag.closer = some (body.length + 2 + i.inner.text.length) := by
  induction body with
  | nil =>
    -- no closer starts at the two bytes of the opener, whatever the tag begins with
    have hinner := Text.offsetOf?_of_not_mem (fun hmem => (i.clean hmem).2 rfl) ['}'] more
    have hhead : ∃ b t, i.inner.text ++ (Delimiter.tag.closer ++ more) = b :: t ∧ b ≠ '}' := by
      cases htext : i.inner.text with
      | nil => exact ⟨'%', '}' :: more, rfl, by decide⟩
      | cons b t =>
        exact ⟨b, _, rfl, i.ne_brace (by rw [htext]; exact List.mem_cons_self ..)⟩
    obtain ⟨b, t, htext, hb⟩ := hhead
    have hopen : Text.startsWith ('{' :: '%' :: b :: t) Delimiter.tag.closer = false := rfl
    have hmark : Text.startsWith ('%' :: b :: t) Delimiter.tag.closer = false := by
      simp [Text.startsWith, Text.dropStart?, Delimiter.closer, Delimiter.closeMark, Ne.symm hb]
    have hinner : Text.offsetOf? (b :: t) Delimiter.tag.closer = some i.inner.text.length := by
      rw [← htext]
      exact hinner
    show Text.offsetOf? ('{' :: '%' :: (i.inner.text ++ (Delimiter.tag.closer ++ more))) _ = _
    rw [htext, Text.offsetOf?_cons, hopen, Text.offsetOf?_cons, hmark, hinner]
    show some (i.inner.text.length + 1 + 1) = _
    congr 1
    rw [List.length_nil]
    omega
  | cons b body ih =>
    rw [List.cons_append, Text.offsetOf?_cons] at h
    split at h
    · cases h
    · rename_i hstart
      have hrest := ih (Option.map_eq_none_iff.1 h)
      have hlonger := Text.startsWith_append (p := Delimiter.tag.closer)
        (t := b :: (body ++ Delimiter.tag.opener)) (by simp)
        (i.inner.text ++ (Delimiter.tag.closer ++ more))
      rw [List.cons_append, List.append_assoc] at hlonger
      rw [List.cons_append, Text.offsetOf?_cons, hlonger, if_neg hstart, hrest]
      show some (body.length + 2 + i.inner.text.length + 1) = _
      congr 1
      rw [List.length_cons]
      omega

/-- Whether a text starts with an opener is told by its first two bytes. -/
theorem opener?_append_eq_none {t : Text} (h : opener? t = none) (hlength : 2 ≤ t.length) (more : Text) :
    opener? (t ++ more) = none := by
  match t, hlength with
  | b :: c :: t, _ =>
    rw [← Option.not_isSome_iff_eq_none, isSome_opener?_cons_cons] at h
    rw [List.cons_append, List.cons_append, ← Option.not_isSome_iff_eq_none, isSome_opener?_cons_cons]
    exact h

/-- No closer reaches into an opener. -/
theorem closer_before_opener {d : Delimiter} {t u v : Text}
    (h : t ++ Delimiter.tag.opener = u ++ (d.closer ++ v)) : ∃ w, t = u ++ (d.closer ++ w) := by
  rw [← List.append_assoc] at h
  rcases List.append_eq_append_iff.1 h with ⟨w, hcloser, hopener⟩ | ⟨w, ht, -⟩
  · by_cases hw : w = []
    · subst hw
      exact ⟨[], by rw [List.append_nil, hcloser, List.append_nil]⟩
    · have hlast := congrArg List.getLast? hcloser
      rw [List.getLast?_append, List.getLast?_append, List.getLast?_eq_some_getLast hw,
        Option.some_or] at hlast
      have hmem : ('}' : UInt8) ∈ Delimiter.tag.opener := by
        rw [hopener, show ('}' : UInt8) = w.getLast hw from Option.some.inj hlast]
        exact List.mem_append_left v (List.getLast_mem hw)
      exact absurd hmem (by decide)
  · exact ⟨w, by rw [ht, List.append_assoc]⟩

/-- An opener before the end tag is one of the body, unless a brace makes a variable of the opener of the end
tag. -/
theorem opener_before_opener {d : Delimiter} {b : UInt8} {rest tail : Text}
    (h : opener? (b :: (rest ++ Delimiter.tag.opener)) = some (d, tail)) :
    (d = .variable ∧ rest = [] ∧ tail = [('%' : UInt8)]) ∨
      ∃ inside, b :: rest = d.opener ++ inside ∧ tail = inside ++ Delimiter.tag.opener := by
  obtain ⟨rfl, hrest⟩ := List.cons.inj (eq_append_of_opener? h)
  cases rest with
  | nil =>
    obtain ⟨hmark, rfl⟩ := List.cons.inj hrest
    rcases d with _ | _
    · exact .inl ⟨rfl, rfl, rfl⟩
    · exact absurd hmark (by decide)
  | cons c inside =>
    obtain ⟨rfl, rfl⟩ := List.cons.inj hrest
    exact .inr ⟨inside, rfl, rfl⟩

section Body

variable {name : Text} (i : BareInner name) (more : Text)

/-- A region of tags that is open before the end tag reaches through it. -/
theorem maskFrom_open (a : Bool) {inside : Text}
    (h : Text.offsetOf? (inside ++ Delimiter.tag.opener) Delimiter.tag.closer = none) :
    let ending := Delimiter.tag.opener ++ (i.inner.text ++ (Delimiter.tag.closer ++ more))
    maskFrom a (Delimiter.tag.opener ++ (inside ++ ending)) =
      blankOut (fillOf a) (Delimiter.tag.opener ++ inside) ++ maskFrom a ending := by
  intro ending
  have hfound : Text.offsetOf? ((inside ++ (Delimiter.tag.opener ++ i.inner.text)) ++
      (Delimiter.tag.closer ++ more)) Delimiter.tag.closer =
      some (inside ++ (Delimiter.tag.opener ++ i.inner.text)).length := by
    simp only [List.append_assoc]
    rw [offsetOf?_end_tag i more h]
    simp only [List.length_append, Delimiter.length_opener]
    congr 1
    omega
  have hclose := untilCloser_of_clean (d := .tag) (fun b hb => i.clean hb) more
  calc maskFrom a (Delimiter.tag.opener ++ (inside ++ ending))
    _ = blankOut (fillOf a) ((Delimiter.tag.opener ++ inside) ++
          (Delimiter.tag.opener ++ (i.inner.text ++ Delimiter.tag.closer))) ++ maskFrom false more := by
      simpa only [List.append_assoc] using maskFrom_region a hfound
    _ = _ := by
      rw [blankOut_append, maskFrom_region a (offsetOf?_of_untilCloser hclose), List.append_assoc]

/-- A region that is closed before the end tag ends in the body. -/
theorem exists_of_closed {d : Delimiter} {inside : Text} {n : Nat}
    (h : Text.offsetOf? (inside ++ Delimiter.tag.opener) d.closer = some n) :
    ∃ region w, d.opener ++ inside = region ++ w ∧ region.length = n + 4 ∧
      ∀ a more, maskFrom a (region ++ (w ++ more)) = blankOut (fillOf a) region ++ maskFrom false (w ++ more) := by
  obtain ⟨u, v, hinside, rfl⟩ := Text.exists_of_offsetOf? h
  obtain ⟨w, rfl⟩ := closer_before_opener hinside
  have hfirst : Text.offsetOf? (u ++ d.closer) d.closer = some u.length := by
    refine (Text.offsetOf?_append_iff (by simp) (w ++ Delimiter.tag.opener)).1 ?_
    simpa only [List.append_assoc] using h
  refine ⟨d.opener ++ (u ++ d.closer), w, by simp only [List.append_assoc], ?_, fun a more => ?_⟩
  · simp only [List.length_append, Delimiter.length_opener, Delimiter.length_closer]
    omega
  · have hfound : Text.offsetOf? (u ++ (d.closer ++ (w ++ more))) d.closer = some u.length := by
      rw [← List.append_assoc]
      exact (Text.offsetOf?_append_iff (by simp) _).2 hfirst
    rw [← maskFrom_region a hfound]
    simp only [List.append_assoc]

/-- **A body before its end tag.**  Where the end tag opens in a region of tags, the mask goes on with the end
tag as if it started there. -/
theorem maskFrom_body (a : Bool) {body : Text} (h : EndsInTag body) :
    let ending := Delimiter.tag.opener ++ (i.inner.text ++ (Delimiter.tag.closer ++ more))
    ∃ masked c, masked.length = body.length ∧
      maskFrom a (body ++ ending) = masked ++ maskFrom c ending := by
  intro ending
  unfold EndsInTag at h
  -- what is left of the body starts with a plain byte, with a region that it closes, or with the one that it
  -- leaves open
  induction hn : body.length using Nat.strongRecOn generalizing a body with
  | ind n ih =>
    cases body with
    | nil => exact ⟨[], a, hn, rfl⟩
    | cons b rest =>
      rw [List.cons_append] at h
      cases hopen : opener? (b :: (rest ++ Delimiter.tag.opener)) with
      | none =>
        have hplain := opener?_append_eq_none hopen (by simp)
          (i.inner.text ++ (Delimiter.tag.closer ++ more))
        rw [List.cons_append, List.append_assoc] at hplain
        rw [openAtEnd_plain hopen] at h
        obtain ⟨masked, c, hlength, hmask⟩ :=
          ih rest.length (by rw [← hn]; exact Nat.lt_succ_self _) (b = '=') h rfl
        refine ⟨b :: masked, c, by rw [List.length_cons, hlength, ← hn, List.length_cons], ?_⟩
        rw [List.cons_append, maskFrom_plain a hplain, hmask]
        rfl
      | some p =>
        obtain ⟨d, tail⟩ := p
        rw [openAtEnd_opener hopen] at h
        rcases opener_before_opener hopen with ⟨rfl, rfl, rfl⟩ | ⟨inside, hbody, rfl⟩
        · exact nomatch h
        · rw [← List.cons_append, hbody] at h
          rw [hbody] at hn ⊢
          cases hclose : Text.offsetOf? (inside ++ Delimiter.tag.opener) d.closer with
          | none =>
            rw [hclose] at h
            obtain rfl := Option.some.inj h
            refine ⟨_, a, ?_, (congrArg _ (List.append_assoc ..)).trans (maskFrom_open i more a hclose)⟩
            rw [length_blankOut, hn]
          | some m =>
            obtain ⟨region, w, hcut, hregion, hmask⟩ := exists_of_closed hclose
            rw [hclose] at h
            dsimp only at h
            rw [hcut, List.append_assoc, ← hregion, List.drop_left] at h
            rw [hcut, List.length_append] at hn
            obtain ⟨masked, c, hlength, hrest⟩ := ih w.length (by omega) false h rfl
            refine ⟨blankOut (fillOf a) region ++ masked, c, ?_, ?_⟩
            · rw [List.length_append, length_blankOut, hlength, hn]
            · rw [hcut, List.append_assoc, hmask, hrest, List.append_assoc]

end Body

end Markup

/-! ## Verbatim bodies -/

namespace Liquid

/-- The token is a tag that a verbatim body follows. -/
def Token.IsVerbatim (tok : Token) : Prop := tok.kind = .tag ∧ (tok.name = "raw" ∨ tok.name = "comment")

/-- The token is a verbatim body among others: the text right after the tag. -/
def IsBody (toks : List Token) (tok : Token) : Prop :=
  tok.kind = .text ∧ ∃ opening : Token, opening.IsVerbatim ∧ [opening, tok] <:+: toks

/-! ## The mask of a template -/

open Markup

/-- `out` masks the source `src`, which has the tokens `toks` and starts at the offset `start`: it is as long,
it differs from the source in variables, tags and verbatim bodies alone, and of variables and tags it has
nothing but line feeds. -/
structure Masks (start : Nat) (src out : Text) (toks : List Token) : Prop where
  tiles : Tiles start toks (start + src.length)
  length_eq : out.length = src.length
  changed : ∀ i, out[i]? ≠ src[i]? → ∃ tok ∈ toks, tok.start ≤ start + i ∧ start + i < tok.stop ∧
    (tok.kind = .variable ∨ tok.kind = .tag ∨ IsBody toks tok)
  blanked : ∀ tok ∈ toks, tok.kind = .variable ∨ tok.kind = .tag →
    ∀ i b, tok.start ≤ start + i → start + i < tok.stop → src[i]? = some b → b ≠ '\n' →
      out[i]? = some (' ' : UInt8) ∨ out[i]? = some ('x' : UInt8)

theorem kind_delimited (d : Delimiter) (start : Nat) (inner : Text) :
    (Token.delimited d start inner).kind = .variable ∨ (Token.delimited d start inner).kind = .tag := by
  cases d
  · exact .inl rfl
  · exact .inr rfl

theorem kind_of_mem_textTokens {start : Nat} {t : Text} {tok : Token} (h : tok ∈ textTokens start t) :
    tok.kind = .text := by
  unfold textTokens at h
  split at h
  · cases h
  · rw [List.mem_singleton.1 h]

theorem exists_textTokens (start : Nat) {t : Text} (h : t ≠ []) :
    ∃ tok, textTokens start t = [tok] ∧ tok.kind = .text ∧ tok.start = start ∧
      tok.stop = start + t.length ∧ tok.markup = t :=
  ⟨_, if_neg (by rwa [List.isEmpty_iff]), rfl, rfl, rfl, rfl⟩

theorem not_delimited_of_text {tok : Token} (h : tok.kind = .text) :
    ¬ (tok.kind = .variable ∨ tok.kind = .tag) := by
  rw [h]
  exact nofun

namespace Masks

variable {start : Nat}

/-- What follows is masked by itself. -/
theorem append {src src' out out' : Text} {toks toks' : List Token} (h : Masks start src out toks)
    (h' : Masks (start + src.length) src' out' toks') :
    Masks start (src ++ src') (out ++ out') (toks ++ toks') where
  tiles := by
    rw [List.length_append, ← Nat.add_assoc]
    exact h.tiles.append h'.tiles
  length_eq := by rw [List.length_append, List.length_append, h.length_eq, h'.length_eq]
  changed i hne := by
    by_cases hi : i < src.length
    · rw [List.getElem?_append_left (h.length_eq ▸ hi), List.getElem?_append_left hi] at hne
      obtain ⟨tok, htok, hstart, hstop, hkind⟩ := h.changed i hne
      refine ⟨tok, List.mem_append_left _ htok, hstart, hstop, hkind.imp_right (.imp_right ?_)⟩
      rintro ⟨htext, opening, hopening, hadjacent⟩
      exact ⟨htext, opening, hopening, hadjacent.trans (List.prefix_append ..).isInfix⟩
    · rw [List.getElem?_append_right (by rw [h.length_eq]; omega),
        List.getElem?_append_right (by omega), h.length_eq] at hne
      obtain ⟨tok, htok, hstart, hstop, hkind⟩ := h'.changed _ hne
      refine ⟨tok, List.mem_append_right _ htok, by omega, by omega, hkind.imp_right (.imp_right ?_)⟩
      rintro ⟨htext, opening, hopening, hadjacent⟩
      exact ⟨htext, opening, hopening, hadjacent.trans (List.suffix_append ..).isInfix⟩
  blanked tok htok hkind i b hstart hstop hb hfeed := by
    rcases List.mem_append.1 htok with htok | htok
    · have hplaced := h.tiles.follows.placed htok
      rw [List.getElem?_append_left (by omega)] at hb
      rw [List.getElem?_append_left (by rw [h.length_eq]; omega)]
      exact h.blanked tok htok hkind i b hstart hstop hb hfeed
    · have hplaced := h'.tiles.follows.placed htok
      rw [List.getElem?_append_right (by omega)] at hb
      rw [List.getElem?_append_right (by rw [h.length_eq]; omega), h.length_eq]
      exact h'.blanked tok htok hkind _ b (by omega) (by omega) hb hfeed

/-- Text that is left alone. -/
theorem text (start : Nat) (t : Text) : Masks start t t (textTokens start t) where
  tiles := tiles_textTokens start t
  length_eq := rfl
  changed _ hne := absurd rfl hne
  blanked _ htok hkind := absurd hkind (not_delimited_of_text (kind_of_mem_textTokens htok))

/-- A variable or a tag that is blanked out, with the verbatim body after it. -/
theorem delimited (start : Nat) (a : Bool) {d : Delimiter} {inner body masked : Text}
    (hlength : masked.length = body.length)
    (hbody : body = [] ∨ (Token.delimited d start inner).IsVerbatim) :
    Masks start ((d.opener ++ (inner ++ d.closer)) ++ body)
      (blankOut (fillOf a) (d.opener ++ (inner ++ d.closer)) ++ masked)
      (Token.delimited d start inner :: textTokens (start + inner.length + 4) body) := by
  have hregion : (d.opener ++ (inner ++ d.closer)).length = inner.length + 4 := by
    simp only [List.length_append, Delimiter.length_opener, Delimiter.length_closer]
    omega
  generalize d.opener ++ (inner ++ d.closer) = region at hregion
  have hmasked := length_blankOut (fillOf a) region
  refine ⟨⟨(Token.start_delimited ..).symm, Token.placed_delimited .., ?_⟩, ?_, fun i hne => ?_,
    fun tok htok hkind i b hstart hstop hb hfeed => ?_⟩
  · rw [Token.stop_delimited, List.length_append, hregion, ← Nat.add_assoc, ← Nat.add_assoc]
    exact tiles_textTokens ..
  · rw [List.length_append, List.length_append, hmasked, hlength]
  · by_cases hi : i < region.length
    · refine ⟨_, List.mem_cons_self .., ?_, ?_, (kind_delimited ..).imp_right .inl⟩
      · rw [Token.start_delimited]
        omega
      · rw [Token.stop_delimited]
        omega
    · have hin : i < region.length + body.length := by
        refine Nat.lt_of_not_le fun hlate => hne ?_
        rw [List.getElem?_eq_none (by rw [List.length_append]; omega),
          List.getElem?_eq_none (by rw [List.length_append]; omega)]
      have hsome : body ≠ [] := by
        rintro rfl
        rw [List.length_nil] at hin
        omega
      obtain ⟨tok, htok, hkind, hstart, hstop, -⟩ := exists_textTokens (start + inner.length + 4) hsome
      rw [htok]
      exact ⟨tok, List.mem_cons_of_mem _ (List.mem_singleton.2 rfl), by omega, by omega,
        .inr (.inr ⟨hkind, _, hbody.resolve_left hsome, List.infix_rfl⟩)⟩
  · rcases List.mem_cons.1 htok with rfl | htok
    · rw [Token.start_delimited] at hstart
      rw [Token.stop_delimited] at hstop
      rw [List.getElem?_append_left (by omega)] at hb
      have hfill : (blankOut (fillOf a) region)[i]? = some (fillOf a) := by
        rw [blankOut, List.getElem?_map, hb]
        exact congrArg some (if_neg hfeed)
      rw [List.getElem?_append_left (by omega), hfill]
      cases a
      · exact .inl rfl
      · exact .inr rfl
    · exact absurd hkind (not_delimited_of_text (kind_of_mem_textTokens htok))

end Masks

/-- The mask of a verbatim body is as long as the body, and what follows is masked by itself: the body reaches to
the end of the source, or leaves nothing open before its end tag. -/
theorem exists_maskFrom_body {tok : Token} {body rest : Text} (hbody : verbatimBody tok (body ++ rest) = body)
    (hends : tok.IsVerbatim → body ≠ [] → rest ≠ [] → EndsInTag body) (a : Bool) :
    ∃ masked c, masked.length = body.length ∧ maskFrom a (body ++ rest) = masked ++ maskFrom c rest := by
  rcases after_verbatimBody hbody with rfl | ⟨hopening, rfl | ⟨name, -, hbare⟩⟩
  · exact ⟨[], a, rfl, rfl⟩
  · exact ⟨maskFrom a (body ++ []), false, by rw [length_maskFrom, List.append_nil],
      by rw [maskFrom_nil, List.append_nil (maskFrom a _)]⟩
  · obtain ⟨i, more, rfl⟩ := exists_of_bareTag? hbare
    have hends : EndsInTag body := by
      by_cases hempty : body = []
      · rw [hempty]
        decide +kernel
      · exact hends hopening hempty (List.cons_ne_nil _ _)
    exact maskFrom_body i more a hends

/-- **A template is masked round by round.** -/
theorem masks_of_reads {start : Nat} {src : Text} {toks : List Token} (h : Reads start src toks)
    (hterminated : ∀ tok ∈ toks, ∀ d, tok.kind ≠ .unterminated d)
    (hbodies : ∀ opening body ending : Token, [opening, body, ending] <:+: toks → opening.IsVerbatim →
      body.kind = .text → EndsInTag body.markup) (a : Bool) :
    Masks start src (maskFrom a src) toks := by
  induction h generalizing a with
  | @plain start src hplain =>
    have hall : untilOpener (src ++ []) = (src, []) := by
      rw [List.append_nil]
      exact hplain
    obtain ⟨c, hc⟩ := maskFrom_before a hall
    rw [maskFrom_nil, List.append_nil] at hc
    rw [hc]
    exact .text start src
  | @unterminated start before junk rest d toks =>
    refine absurd rfl (hterminated (unterminatedToken d (start + before.length) junk) ?_ d)
    exact List.mem_append_right _ (List.mem_cons_self ..)
  | @delimited start before inner body rest d toks hbefore hclose hbody hrest ih =>
    have hverbatim := after_verbatimBody hbody
    -- a tag follows a verbatim body that does not reach to the end
    have hends (hopening : (Token.delimited d (start + before.length) inner).IsVerbatim) (hempty : body ≠ [])
        (hne : rest ≠ []) : EndsInTag body := by
      obtain ⟨tok, htok, hkind, -, -, hmarkup⟩ := exists_textTokens
        (start + before.length + inner.length + 4) hempty
      obtain ⟨name, hname, hbare⟩ : ∃ name, name ≠ [] ∧ bareTag? rest = some name := by
        rcases hverbatim with hnil | ⟨-, hnil | ⟨name, rfl | rfl, hbare⟩⟩
        · exact absurd hnil hempty
        · exact absurd hnil hne
        · exact ⟨_, by decide, hbare⟩
        · exact ⟨_, by decide, hbare⟩
      obtain ⟨ending, toks, rfl, -⟩ := hrest.head_of_bareTag? hbare hname
      rw [← hmarkup]
      refine hbodies _ tok ending ⟨textTokens start before, toks, ?_⟩ hopening hkind
      rw [htok]
      simp only [List.append_assoc, List.cons_append, List.nil_append]
    obtain ⟨c, hc⟩ := maskFrom_before a hbefore
    obtain ⟨masked, c', hlength, hmask⟩ := exists_maskFrom_body hbody hends false
    have hsplit : before ++ (d.opener ++ (inner ++ (d.closer ++ (body ++ rest)))) =
        before ++ (((d.opener ++ (inner ++ d.closer)) ++ body) ++ rest) := by
      simp only [List.append_assoc]
    rw [hc, maskFrom_region c (offsetOf?_of_untilCloser hclose), hmask, hsplit, ← List.append_assoc _ masked]
    have hround := Masks.delimited (start + before.length) c hlength (hverbatim.imp_right And.left)
    refine (Masks.text start before).append ?_
    have hstart : start + before.length + ((d.opener ++ (inner ++ d.closer)) ++ body).length =
        start + before.length + inner.length + 4 + body.length := by
      simp only [List.length_append, Delimiter.length_opener, Delimiter.length_closer]
      omega
    refine Masks.append hround ?_
    rw [hstart]
    have hsuffix : toks <:+ textTokens start before ++ Token.delimited d (start + before.length) inner ::
        (textTokens (start + before.length + inner.length + 4) body ++ toks) :=
      ((List.suffix_append ..).trans (List.suffix_cons ..)).trans (List.suffix_append ..)
    exact ih (fun tok htok => hterminated tok (hsuffix.mem htok))
      (fun opening body ending hadjacent => hbodies opening body ending (hadjacent.trans hsuffix.isInfix)) c'

/-- **The mask agrees with the tokens of the template.**  Let every opener of a template have a closer, and let
no verbatim body leave a variable open before its end tag.  Then the mask is as long as the template, it differs
from the template in variables, tags and verbatim bodies alone, and it leaves nothing of variables and tags but
their line feeds. -/
theorem mask_agrees {src : Text} (hterminated : ∀ tok ∈ tokens src, ∀ d, tok.kind ≠ .unterminated d)
    (hbodies : ∀ opening body ending : Token, [opening, body, ending] <:+: tokens src →
      opening.IsVerbatim → body.kind = .text → EndsInTag body.markup) :
    (mask src).length = src.length ∧
      (∀ i, (mask src)[i]? ≠ src[i]? → ∃ tok ∈ tokens src, tok.start ≤ i ∧ i < tok.stop ∧
        (tok.kind = .variable ∨ tok.kind = .tag ∨ IsBody (tokens src) tok)) ∧
      ∀ tok ∈ tokens src, tok.kind = .variable ∨ tok.kind = .tag →
        ∀ i b, tok.start ≤ i → i < tok.stop → src[i]? = some b → b ≠ '\n' →
          (mask src)[i]? = some (' ' : UInt8) ∨ (mask src)[i]? = some ('x' : UInt8) := by
  obtain ⟨-, hlength, hchanged, hblanked⟩ :=
    masks_of_reads (reads_tokensFrom 0 src) hterminated hbodies false
  simp only [Nat.zero_add] at hchanged hblanked
  exact ⟨hlength, hchanged, hblanked⟩

theorem terminated_iff {toks : List Token} :
    (∀ tok ∈ toks, ∀ d, tok.kind ≠ .unterminated d) ↔
      ∀ tok ∈ toks, tok.kind ≠ .unterminated .variable ∧ tok.kind ≠ .unterminated .tag := by
  refine forall₂_congr fun tok _ => ⟨fun h => ⟨h _, h _⟩, fun h d => ?_⟩
  cases d
  · exact h.1
  · exact h.2

/-- A raw body with a variable of its own, and a variable as the value of an attribute. -/
def rawPage : Text :=
  "\x7b% raw %\x7d<i>\x7b\x7b x \x7d\x7d</i>\x7b% endraw %\x7d<b id=\x7b\x7b u \x7d\x7d>"

/-- The mask finds the variable in the raw body and goes on with the end tag. -/
theorem mask_agrees_raw :
    (∀ tok ∈ tokens rawPage, ∀ d, tok.kind ≠ .unterminated d) ∧
      (∀ opening body ending : Token, [opening, body, ending] <:+: tokens rawPage →
        opening.IsVerbatim → body.kind = .text → EndsInTag body.markup) ∧
      mask rawPage = "         <i>       </i>            <b id=xxxxxxx>" ∧
      (mask rawPage).length = rawPage.length := by
  have hterminated : ∀ tok ∈ tokens rawPage, ∀ d, tok.kind ≠ .unterminated d :=
    terminated_iff.2 (by decide +kernel)
  have hends : ∀ tok ∈ tokens rawPage, tok.kind = .text → EndsInTag tok.markup := by decide +kernel
  have hbodies (opening body ending : Token) (h : [opening, body, ending] <:+: tokens rawPage)
      (_ : opening.IsVerbatim) (hkind : body.kind = .text) : EndsInTag body.markup :=
    hends body (h.subset (by simp)) hkind
  exact ⟨hterminated, hbodies, by decide +kernel, (mask_agrees hterminated hbodies).1⟩

/-- A raw body that leaves a variable open. -/
def openPage : Text := "\x7b% raw %\x7d\x7b\x7b\x7b% endraw %\x7d<b>"

/-- Of two tokens next to each other, one starts where the other ends. -/
theorem stop_eq_start {lo hi : Nat} {toks : List Token} {t u : Token} (h : Tiles lo toks hi)
    (hadjacent : [t, u] <:+: toks) : t.stop = u.start := by
  induction toks generalizing lo with
  | nil => exact nomatch List.infix_nil.1 hadjacent
  | cons tok rest ih =>
    obtain ⟨-, -, hrest⟩ := h
    rcases List.infix_cons_iff.1 hadjacent with ⟨after, heq⟩ | hlater
    · obtain ⟨rfl, rfl⟩ := List.cons.inj heq
      exact hrest.1
    · exact ih hrest hlater

/-- **A raw body may swallow what follows its end tag**: all openers have closers, but the mask takes an opener in
the body for a variable, and what is no variable, tag or body is blanked out up to the end. -/
theorem mask_swallows :
    (∀ tok ∈ tokens openPage, ∀ d, tok.kind ≠ .unterminated d) ∧
      ¬ ∀ i, (mask openPage)[i]? ≠ openPage[i]? → ∃ tok ∈ tokens openPage, tok.start ≤ i ∧ i < tok.stop ∧
        (tok.kind = .variable ∨ tok.kind = .tag ∨ IsBody (tokens openPage) tok) := by
  refine ⟨terminated_iff.2 (by decide +kernel), fun h => ?_⟩
  -- the byte after the end tag
  obtain ⟨tok, htok, hstart, hstop, hkind⟩ := h 23 (by decide +kernel)
  have hlast : ∀ tok ∈ tokens openPage, tok.start ≤ 23 → 23 < tok.stop →
      tok.kind = .text ∧ tok.start = 23 := by decide +kernel
  have hbefore : ∀ tok ∈ tokens openPage, tok.stop = 23 → tok.name ≠ "raw" ∧ tok.name ≠ "comment" := by
    decide +kernel
  obtain ⟨htext, h23⟩ := hlast tok htok hstart hstop
  rw [htext] at hkind
  obtain ⟨-, opening, hopening, hadjacent⟩ := (hkind.resolve_left nofun).resolve_left nofun
  have hname := hbefore opening (hadjacent.subset (List.mem_cons_self ..))
    ((stop_eq_start (tiles_tokens openPage) hadjacent).trans h23)
  exact hopening.2.elim hname.1 hname.2

end Liquid

end LiquidLint
