import LiquidLint.Proofs.TokenPlaces

/-!
# Bare tags

The end of a verbatim body is found by `bareTag?`, which looks at raw bytes, and not by the reader of
tokens.  The two agree: where `bareTag?` sees a tag with a name, the next token is a tag of that name
(`Reads.head_of_bareTag?`).  So a verbatim body is followed by its end tag or by the end of the source.
-/

namespace LiquidLint

namespace Text

@[simp] theorem dropStart?_append (p r : Text) : dropStart? p (p ++ r) = some r := dropStart?_eq_some.2 rfl

theorem isAsciiBlank_of_isTagBlank {b : UInt8} (hb : isTagBlank b = true) :
    isAsciiBlank b = true :=
  (Bool.and_eq_true_iff.1 hb).1

/-- A small letter is no blank, and no byte of a delimiter. -/
theorem ne_of_isLower {b : UInt8} (hb : isLower b = true) :
    isAsciiBlank b = false ∧ b ≠ '-' ∧ b ≠ '{' ∧ b ≠ '%' ∧ b ≠ '#' := by
  refine ⟨Bool.eq_false_iff.2 fun hblank => ?_, ?_, ?_, ?_, ?_⟩
  · rcases eq_of_isAsciiBlank hblank with rfl | rfl | rfl | rfl | rfl | rfl <;> cases hb
  all_goals
    rintro rfl
    cases hb

theorem ne_of_isAsciiBlank {b : UInt8} (hb : isAsciiBlank b = true) :
    b ≠ '-' ∧ b ≠ '{' ∧ b ≠ '%' ∧ b ≠ '}' := by
  refine ⟨?_, ?_, ?_, ?_⟩
  all_goals
    rintro rfl
    cases hb

theorem dropForm?_eq_none {forms : List Text} {b : UInt8} {t : Text}
    (h : ∀ p ∈ forms, p.head? ≠ some b ∧ p ≠ []) : dropForm? forms (b :: t) = none := by
  refine List.findSome?_eq_none_iff.2 fun p hp => ?_
  obtain ⟨hhead, hne⟩ := h p hp
  obtain ⟨a, p, rfl⟩ := List.exists_cons_of_ne_nil hne
  have hab : a ≠ b := fun hab => hhead (by rw [hab]; rfl)
  simp [dropStart?, hab]

/-- A word of small letters is as it is after trimming. -/
theorem trimSpace_of_isLower {t : Text} (ht : ∀ b ∈ t, isLower b = true) : trimSpace t = t := by
  have hforms : ∀ p ∈ blanks ++ blanksReversed, (p.head?.all fun b => !isLower b) = true ∧ p ≠ [] := by
    decide
  have hkeep (forms : List Text) (hsub : ∀ p ∈ forms, p ∈ blanks ++ blanksReversed) (t : Text)
      (ht : ∀ b ∈ t, isLower b = true) : trimForms forms t = t := by
    cases t with
    | nil =>
      have hlen := length_trimForms_le forms []
      exact List.length_eq_zero_iff.1 (Nat.le_zero.1 hlen)
    | cons b t =>
      rw [trimForms, dropForm?_eq_none fun p hp => ?_]
      obtain ⟨hhead, hne⟩ := hforms p (hsub p hp)
      refine ⟨fun hsome => ?_, hne⟩
      rw [hsome, Option.all_some, ht b (List.mem_cons_self ..)] at hhead
      cases hhead
  unfold trimSpace trimSpaceEnd trimSpaceStart
  rw [hkeep blanks (fun p hp => List.mem_append_left _ hp) t ht,
    hkeep blanksReversed (fun p hp => List.mem_append_right _ hp) _ fun b hb =>
      ht b (List.mem_reverse.1 hb), List.reverse_reverse]

end Text

namespace Liquid

open LiquidLint.Liquid.Inner (dash)

theorem exists_dropDash (t : Text) : ∃ on, t = dash on ++ dropDash t := by
  cases t with
  | nil => exact ⟨false, rfl⟩
  | cons b rest =>
    by_cases hb : b = '-'
    · exact ⟨true, by simp [dash, Inner.mark, dropDash, hb]⟩
    · exact ⟨false, by simp [dash, dropDash, hb]⟩

/-- The bytes between the delimiters of a bare tag: dashes at the ends, and blanks around the
name. -/
structure BareInner (name : Text) where
  left : Bool
  lead : Text
  trail : Text
  right : Bool
  name_lower : ∀ b ∈ name, Text.isLower b = true
  lead_blank : ∀ b ∈ lead, Text.isTagBlank b = true
  trail_blank : ∀ b ∈ trail, Text.isTagBlank b = true

namespace BareInner

variable {name : Text}

/-- The parts of a bare tag between its delimiters. -/
def inner (i : BareInner name) : Inner := ⟨i.left, i.lead ++ (name ++ i.trail), i.right⟩

theorem byte_cases (i : BareInner name) {b : UInt8} (hb : b ∈ i.inner.text) :
    b = '-' ∨ Text.isTagBlank b = true ∨ Text.isLower b = true := by
  have hdash (on : Bool) (h : b ∈ dash on) : b = '-' := by
    cases on with
    | false => cases h
    | true => exact List.mem_singleton.1 h
  simp only [Inner.text, inner, List.mem_append] at hb
  rcases hb with hb | (hb | hb | hb) | hb
  · exact .inl (hdash _ hb)
  · exact .inr (.inl (i.lead_blank b hb))
  · exact .inr (.inr (i.name_lower b hb))
  · exact .inr (.inl (i.trail_blank b hb))
  · exact .inl (hdash _ hb)

/-- A bare tag holds no byte that could start an opener or a closer. -/
theorem clean (i : BareInner name) {b : UInt8} (hb : b ∈ i.inner.text) : b ≠ '{' ∧ b ≠ '%' := by
  rcases i.byte_cases hb with rfl | hblank | hlower
  · decide
  · have hne := Text.ne_of_isAsciiBlank (Text.isAsciiBlank_of_isTagBlank hblank)
    exact ⟨hne.2.1, hne.2.2.1⟩
  · have hne := Text.ne_of_isLower hlower
    exact ⟨hne.2.2.1, hne.2.2.2.1⟩

/-- A bare tag holds no byte that ends a closer. -/
theorem ne_brace (i : BareInner name) {b : UInt8} (hb : b ∈ i.inner.text) : b ≠ '}' := by
  rcases i.byte_cases hb with rfl | hblank | hlower
  · decide
  · exact (Text.ne_of_isAsciiBlank (Text.isAsciiBlank_of_isTagBlank hblank)).2.2.2
  · rintro rfl
    cases hlower

end BareInner

/-- **What a bare tag looks like.** -/
theorem exists_of_bareTag? {t name : Text} (h : bareTag? t = some name) :
    ∃ (i : BareInner name) (more : Text),
      t = Delimiter.tag.opener ++ (i.inner.text ++ (Delimiter.tag.closer ++ more)) := by
  unfold bareTag? at h
  split at h
  · cases h
  · rename_i t' hopen
    rw [Text.dropStart?_eq_some.1 hopen]
    dsimp only at h
    split at h
    · rename_i hclose
      obtain ⟨more, hmore⟩ := Option.isSome_iff_exists.1 hclose
      have hmore := Text.dropStart?_eq_some.1 hmore
      obtain rfl := Option.some.inj h
      have hall (q : UInt8 → Bool) (t : Text) : ∀ b ∈ t.takeWhile q, q b = true :=
        fun b hb => List.all_eq_true.1 List.all_takeWhile b hb
      obtain ⟨left, hleft⟩ := exists_dropDash t'
      generalize dropDash t' = u at *
      have hlead := List.takeWhile_append_dropWhile (p := Text.isTagBlank) (l := u)
      generalize u.dropWhile Text.isTagBlank = v at *
      have hname := List.takeWhile_append_dropWhile (p := Text.isLower) (l := v)
      generalize v.dropWhile Text.isLower = w at *
      have htrail := List.takeWhile_append_dropWhile (p := Text.isTagBlank) (l := w)
      generalize w.dropWhile Text.isTagBlank = x at *
      obtain ⟨right, hright⟩ := exists_dropDash x
      have hx : dash right ++ (Delimiter.tag.closer ++ more) = x := by
        rw [hmore] at hright
        exact hright.symm
      refine ⟨⟨left, u.takeWhile Text.isTagBlank, w.takeWhile Text.isTagBlank, right,
        hall _ _, hall _ _, hall _ _⟩, more, ?_⟩
      calc Delimiter.tag.opener ++ t'
        _ = Delimiter.tag.opener ++ (dash left ++ (u.takeWhile Text.isTagBlank ++
              (v.takeWhile Text.isLower ++ (w.takeWhile Text.isTagBlank ++
                (dash right ++ (Delimiter.tag.closer ++ more)))))) := by
          rw [hx, htrail, hname, hlead, hleft]
        _ = _ := by simp only [BareInner.inner, Inner.text, List.append_assoc]
    · cases h

theorem dropDash_append (on : Bool) {t : Text} (ht : t.head? ≠ some Inner.mark) :
    dropDash (dash on ++ t) = t := by
  cases on with
  | true => rfl
  | false =>
    cases t with
    | nil => rfl
    | cons b rest =>
      have hb : b ≠ '-' := fun heq => ht (by rw [heq]; rfl)
      exact if_neg hb

theorem dropWhile_append_cons {q : UInt8 → Bool} {xs ys : Text} {b : UInt8}
    (hxs : ∀ c ∈ xs, q c = true) (hb : q b = false) :
    (xs ++ b :: ys).takeWhile q = xs ∧ (xs ++ b :: ys).dropWhile q = b :: ys := by
  have hb' : ¬ q b = true := by rw [hb]; exact Bool.false_ne_true
  exact ⟨by rw [List.takeWhile_append_of_pos hxs, List.takeWhile_cons_of_neg hb', List.append_nil],
    by rw [List.dropWhile_append_of_pos hxs, List.dropWhile_cons_of_neg hb']⟩

/-- **A text of that look is a bare tag.** -/
theorem BareInner.bareTag?_eq {name : Text} (i : BareInner name) (hne : name ≠ []) (more : Text) :
    bareTag? (Delimiter.tag.opener ++ (i.inner.text ++ (Delimiter.tag.closer ++ more))) =
      some name := by
  obtain ⟨b, rest, rfl⟩ := List.exists_cons_of_ne_nil hne
  have hb := i.name_lower b (List.mem_cons_self ..)
  obtain ⟨hblank, hdash, _⟩ := Text.ne_of_isLower hb
  have hnotBlank : Text.isTagBlank b = false := by
    unfold Text.isTagBlank
    rw [hblank, Bool.false_and]
  -- what follows the name is a blank, a dash or the closer
  have hclose : ∃ c after, dash i.right ++ (Delimiter.tag.closer ++ more) = c :: after ∧
      Text.isTagBlank c = false ∧ Text.isLower c = false := by
    cases i.right with
    | true => exact ⟨_, _, rfl, rfl, rfl⟩
    | false => exact ⟨_, _, rfl, rfl, rfl⟩
  have hafter : ∃ c after, i.trail ++ (dash i.right ++ (Delimiter.tag.closer ++ more)) = c :: after ∧
      Text.isLower c = false := by
    cases htrail : i.trail with
    | nil =>
      obtain ⟨c, after, heq, _, hc⟩ := hclose
      exact ⟨c, after, heq, hc⟩
    | cons c after =>
      have hc := Text.isAsciiBlank_of_isTagBlank
        (i.trail_blank c (by rw [htrail]; exact List.mem_cons_self ..))
      refine ⟨c, _, rfl, Bool.eq_false_iff.2 fun hlower => ?_⟩
      rw [(Text.ne_of_isLower hlower).1] at hc
      cases hc
  have hdash' : (i.lead ++ (b :: rest ++ (i.trail ++ (dash i.right ++
      (Delimiter.tag.closer ++ more))))).head? ≠ some Inner.mark := by
    intro hhead
    cases hlead : i.lead with
    | nil =>
      rw [hlead] at hhead
      exact hdash (Option.some.inj hhead)
    | cons c after =>
      rw [hlead] at hhead
      have hc := Text.isAsciiBlank_of_isTagBlank
        (i.lead_blank c (by rw [hlead]; exact List.mem_cons_self ..))
      exact (Text.ne_of_isAsciiBlank hc).1 (Option.some.inj hhead)
  unfold bareTag?
  rw [Text.dropStart?_append]
  simp only [inner, Inner.text, List.append_assoc]
  rw [dropDash_append _ hdash']
  obtain ⟨_, hlead⟩ := @dropWhile_append_cons Text.isTagBlank i.lead
    (rest ++ (i.trail ++ (dash i.right ++ (Delimiter.tag.closer ++ more)))) b i.lead_blank hnotBlank
  rw [← List.cons_append] at hlead
  rw [hlead]
  obtain ⟨c, after, heq, hc⟩ := hafter
  obtain ⟨hname, hrest⟩ := @dropWhile_append_cons Text.isLower (b :: rest) after c i.name_lower hc
  rw [← heq] at hname hrest
  rw [hname, hrest]
  obtain ⟨c, after, heq, hc, _⟩ := hclose
  obtain ⟨_, htrail⟩ := @dropWhile_append_cons Text.isTagBlank i.trail after c i.trail_blank hc
  rw [← heq] at htrail
  have hcloser : (Delimiter.tag.closer ++ more).head? ≠ some Inner.mark :=
    fun h => absurd (Option.some.inj h) (by decide)
  rw [htrail, dropDash_append _ hcloser]
  rfl

/-- **A text starts with a bare tag just when it looks like one.** -/
theorem bareTag?_eq_some_iff {t name : Text} (hne : name ≠ []) :
    bareTag? t = some name ↔ ∃ (i : BareInner name) (more : Text),
      t = Delimiter.tag.opener ++ (i.inner.text ++ (Delimiter.tag.closer ++ more)) := by
  refine ⟨exists_of_bareTag?, ?_⟩
  rintro ⟨i, more, rfl⟩
  exact i.bareTag?_eq hne more

/-! ## Bare tags are read as tags -/

theorem opener?_cons_of_ne {b : UInt8} (hb : b ≠ '{') (t : Text) : opener? (b :: t) = none := by
  cases t with
  | nil => rfl
  | cons c t => exact if_neg hb

/-- Bytes that start neither an opener nor the closer reach up to the closer. -/
theorem untilCloser_of_clean {d : Delimiter} {inner : Text}
    (hinner : ∀ b ∈ inner, b ≠ '{' ∧ b ≠ d.closeMark) (more : Text) :
    untilCloser d (inner ++ (d.closer ++ more)) = some (inner, more) := by
  induction inner with
  | nil =>
    show untilCloser d (d.closeMark :: '}' :: more) = _
    simp [untilCloser]
  | cons a rest ih =>
    obtain ⟨hopen, hclose⟩ := hinner a (List.mem_cons_self ..)
    have hrest := ih fun b hb => hinner b (List.mem_cons_of_mem _ hb)
    have hne : rest ++ (d.closer ++ more) ≠ [] := by simp [Delimiter.closer]
    obtain ⟨b, t, ht⟩ := List.exists_cons_of_ne_nil hne
    rw [ht] at hrest
    rw [List.cons_append, ht, untilCloser, if_neg fun h => hclose h.1, opener?_cons_of_ne hopen,
      hrest]
    rfl

/-- Marks and body are found again when no dash stands at an end of the body without a mark. -/
theorem Inner.ofText_text {i : Inner} (hne : i.body ≠ [])
    (hhead : i.left = false → i.body.head? ≠ some Inner.mark)
    (hlast : i.right = false → i.body.getLast? ≠ some Inner.mark) : Inner.ofText i.text = i := by
  obtain ⟨left, body, right⟩ := i
  obtain ⟨b, rest, rfl⟩ := List.exists_cons_of_ne_nil hne
  have hleft : (dash left ++ ((b :: rest) ++ dash right)).head? = some Inner.mark ↔ left = true := by
    cases left with
    | true => exact ⟨fun _ => rfl, fun _ => rfl⟩
    | false => simpa [dash] using hhead rfl
  have hright : ((b :: rest) ++ dash right).getLast? = some Inner.mark ↔ right = true := by
    cases right with
    | true => exact ⟨fun _ => rfl, fun _ => List.getLast?_concat ..⟩
    | false => simpa [dash] using hlast rfl
  have hafter : (if left = true then (dash left ++ ((b :: rest) ++ dash right)).tail
      else dash left ++ ((b :: rest) ++ dash right)) = (b :: rest) ++ dash right := by
    cases left <;> rfl
  have hbody : (if right = true then ((b :: rest) ++ dash right).dropLast else
      (b :: rest) ++ dash right) = b :: rest := by
    cases right with
    | true => exact List.dropLast_concat ..
    | false => simp [dash]
  unfold Inner.ofText Inner.text
  simp only [hleft, hafter, hright, hbody, Bool.decide_eq_true]

theorem untilOpener_opener (d : Delimiter) (t : Text) :
    untilOpener (d.opener ++ t) = ([], d.opener ++ t) := by
  have hsome : (opener? ('{' :: d.mark :: t)).isSome = true :=
    congrArg Option.isSome (opener?_opener d t)
  show untilOpener ('{' :: d.mark :: t) = _
  rw [untilOpener, if_pos hsome]
  rfl

theorem splitTag_of_isLower {name : Text} (hlower : ∀ b ∈ name, Text.isLower b = true)
    (start : Nat) : (splitTag name start).1 = name := by
  cases name with
  | nil => rfl
  | cons b rest =>
    have hb := Text.ne_of_isLower (hlower b (List.mem_cons_self ..))
    rw [splitTag, if_neg hb.2.2.2.2]
    have hname := @List.takeWhile_append_of_pos _ (fun c => !Text.isAsciiBlank c) (b :: rest) []
      fun c hc => by rw [(Text.ne_of_isLower (hlower c hc)).1]; rfl
    rwa [List.takeWhile_nil, List.append_nil] at hname

namespace BareInner

variable {name : Text}

theorem trimSpace_body (i : BareInner name) : Text.trimSpace i.inner.body = name := by
  have hlead : ∀ b ∈ i.lead, Text.isAsciiBlank b = true :=
    fun b hb => Text.isAsciiBlank_of_isTagBlank (i.lead_blank b hb)
  have htrail : ∀ b ∈ i.trail, Text.isAsciiBlank b = true :=
    fun b hb => Text.isAsciiBlank_of_isTagBlank (i.trail_blank b hb)
  unfold inner
  rw [Text.trimSpace_blanks_append hlead, Text.trimSpace_append_blanks _ htrail,
    Text.trimSpace_of_isLower i.name_lower]

theorem ofText_inner (i : BareInner name) (hne : name ≠ []) :
    Inner.ofText i.inner.text = i.inner := by
  have hbody : ∀ b ∈ i.inner.body, b ≠ Inner.mark := by
    intro b hb
    simp only [inner, List.mem_append] at hb
    rcases hb with hb | hb | hb
    · exact (Text.ne_of_isAsciiBlank (Text.isAsciiBlank_of_isTagBlank (i.lead_blank b hb))).1
    · exact (Text.ne_of_isLower (i.name_lower b hb)).2.1
    · exact (Text.ne_of_isAsciiBlank (Text.isAsciiBlank_of_isTagBlank (i.trail_blank b hb))).1
  refine Inner.ofText_text ?_ (fun _ hhead => ?_) fun _ hlast => ?_
  · simp [inner, hne]
  · exact hbody _ (List.mem_of_mem_head? hhead) rfl
  · exact hbody _ (List.mem_of_getLast? hlast) rfl

/-- The token of a bare tag has its name. -/
theorem name_delimited (i : BareInner name) (hne : name ≠ []) (start : Nat) :
    (Token.delimited .tag start i.inner.text).name = name := by
  rw [Token.delimited_eq]
  dsimp only
  rw [i.ofText_inner hne, i.trimSpace_body, splitTag_of_isLower i.name_lower]

end BareInner

/-- **Where a bare tag stands, the next token is that tag.** -/
theorem Reads.head_of_bare {start : Nat} {name more : Text} {toks : List Token} (i : BareInner name)
    (h : Reads start (Delimiter.tag.opener ++ (i.inner.text ++ (Delimiter.tag.closer ++ more))) toks) :
    ∃ rest, toks = Token.delimited .tag start i.inner.text :: rest := by
  obtain ⟨rest, hrest⟩ :=
    verbatimBody_prefix (Token.delimited .tag (start + ([] : Text).length) i.inner.text) more
  generalize hbody : verbatimBody (Token.delimited .tag (start + ([] : Text).length)
    i.inner.text) more = body at hrest
  subst hrest
  have hround := Reads.delimited (untilOpener_opener .tag _)
    (untilCloser_of_clean (d := .tag) (fun b hb => i.clean hb) _) hbody (reads_tokensFrom _ rest)
  rw [List.nil_append] at hround
  rw [← h.tokensFrom_eq, hround.tokensFrom_eq]
  exact ⟨_, rfl⟩

/-- Where `bareTag?` sees a name, the next token is a tag of that name. -/
theorem Reads.head_of_bareTag? {start : Nat} {src name : Text} {toks : List Token}
    (h : Reads start src toks) (hbare : bareTag? src = some name) (hne : name ≠ []) :
    ∃ tok rest, toks = tok :: rest ∧ tok.kind = .tag ∧ tok.name = name := by
  obtain ⟨i, more, rfl⟩ := exists_of_bareTag? hbare
  obtain ⟨rest, rfl⟩ := h.head_of_bare i
  exact ⟨_, _, rfl, rfl, i.name_delimited hne _⟩

/-- A bare tag at the start of a round is the tag of the round, whatever follows it. -/
theorem bareTag?_round {before inner z name : Text} {d : Delimiter}
    (hbefore : untilOpener (before ++ (d.opener ++ (inner ++ (d.closer ++ z)))) =
      (before, d.opener ++ (inner ++ (d.closer ++ z))))
    (hclose : untilCloser d (inner ++ (d.closer ++ z)) = some (inner, z)) (hne : name ≠ [])
    (h : bareTag? (before ++ (d.opener ++ (inner ++ (d.closer ++ z)))) = some name) :
    (∀ start, (Token.delimited d start inner).name = name) ∧
      ∀ z', bareTag? (before ++ (d.opener ++ (inner ++ (d.closer ++ z')))) = some name := by
  obtain ⟨i, more, hsrc⟩ := exists_of_bareTag? h
  rw [hsrc, untilOpener_opener] at hbefore
  obtain ⟨rfl, hrest⟩ := Prod.mk.inj hbefore
  have hopen := congrArg opener? hrest
  rw [opener?_opener, opener?_opener] at hopen
  obtain ⟨rfl, hrest⟩ := Prod.mk.inj (Option.some.inj hopen)
  rw [← hrest, untilCloser_of_clean (d := .tag) fun b hb => i.clean hb] at hclose
  obtain ⟨rfl, rfl⟩ := Prod.mk.inj (Option.some.inj hclose)
  exact ⟨i.name_delimited hne, i.bareTag?_eq hne⟩

/-! ## What follows a verbatim body -/

theorem after_rawBody {t rest : Text} (h : rawBody t ++ rest = t) :
    rest = [] ∨ bareTag? rest = some "endraw" := by
  induction t with
  | nil => exact .inl h
  | cons b t ih =>
    rw [rawBody] at h
    split at h
    · rename_i hend
      rw [← h] at hend
      exact .inr hend
    · exact ih (List.cons.inj h).2

theorem after_commentBody {depth : Nat} {t rest : Text} (h : commentBody depth t ++ rest = t) :
    rest = [] ∨ bareTag? rest = some "endcomment" := by
  fun_induction commentBody depth t with
  | case1 => exact .inl h
  | case2 _ b more _ ih => exact ih (List.cons.inj h).2
  | case3 b more _ hend =>
    rw [← h] at hend
    exact .inr hend
  | case4 b more _ _ _ ih => exact ih (List.cons.inj h).2
  | case5 _ b more _ _ ih => exact ih (List.cons.inj h).2

/-- **A verbatim body stands after its tag**, and its end tag or nothing after it. -/
theorem after_verbatimBody {tok : Token} {body rest : Text}
    (h : verbatimBody tok (body ++ rest) = body) :
    body = [] ∨ (tok.kind = .tag ∧ (tok.name = "raw" ∨ tok.name = "comment")) ∧
      (rest = [] ∨ ∃ name : Text, (name = "endraw" ∨ name = "endcomment") ∧ bareTag? rest = some name) := by
  unfold verbatimBody at h
  by_cases hkind : tok.kind = .tag
  · rw [if_pos hkind] at h
    by_cases hraw : tok.name = "raw"
    · rw [if_pos hraw] at h
      refine .inr ⟨⟨hkind, .inl hraw⟩, ?_⟩
      exact (after_rawBody (congrArg (· ++ rest) h)).imp_right fun hbare => ⟨_, .inl rfl, hbare⟩
    · rw [if_neg hraw] at h
      by_cases hcomment : tok.name = "comment"
      · rw [if_pos hcomment] at h
        refine .inr ⟨⟨hkind, .inr hcomment⟩, ?_⟩
        exact (after_commentBody (congrArg (· ++ rest) h)).imp_right fun hbare => ⟨_, .inr rfl, hbare⟩
      · rw [if_neg hcomment] at h
        exact .inl h.symm
  · rw [if_neg hkind] at h
    exact .inl h.symm

end Liquid
end LiquidLint
