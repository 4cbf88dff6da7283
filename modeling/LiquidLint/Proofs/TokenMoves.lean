import LiquidLint.Proofs.TreeRecasts

/-!
# Templates with the same tokens elsewhere

Two sources are cut into tokens that are the same apart from their offsets (`Respaces`): a text is the
same text, and between the delimiters of a variable or tag there is a part that both have, which holds
the markup.  Then there is a way to move the places of one source to those of the other
(`moveThrough`), and the two have the same tree (`Respaces.movesTo`).
-/

namespace LiquidLint

namespace Text

/-- A slice inside a part of a text is a slice of the part. -/
theorem slice_within {t u m v : Text} {i j x y : Nat} (ht : t = u ++ (m ++ v))
    (hi : i = u.length + x) (hj : j = u.length + y) (hy : y ≤ m.length) :
    slice t i j = slice m x y := by
  subst ht hi hj
  unfold slice
  rw [← List.drop_drop, List.drop_left, Nat.add_sub_add_left]
  by_cases hxy : x ≤ y
  · rw [List.drop_append_of_le_length (Nat.le_trans hxy hy), List.take_append_of_le_length]
    rw [List.length_drop]
    omega
  · rw [Nat.sub_eq_zero_of_le (by omega), List.take_zero, List.take_zero]

end Text

namespace Liquid

/-- A token with the text `text`, and the same token elsewhere with the text `text'`: both texts hold
`middle`, and the markup stands there. -/
structure Respaced (text text' : Text) (tok tok' : Token) where
  before : Text
  before' : Text
  middle : Text
  after : Text
  after' : Text
  /-- Where the markup starts in `middle`. -/
  skip : Nat
  text_eq : text = before ++ (middle ++ after)
  text_eq' : text' = before' ++ (middle ++ after')
  same : tok' = { tok with
    start := tok'.start, stop := tok'.stop, markupStart := tok'.markupStart }
  stop_eq : tok.stop = tok.start + text.length
  stop_eq' : tok'.stop = tok'.start + text'.length
  markupStart_eq : tok.markupStart = tok.start + before.length + skip
  markupStart_eq' : tok'.markupStart = tok'.start + before'.length + skip
  markup_le : skip + tok.markup.length ≤ middle.length
  /-- A token that is no tag may be all `middle`; else delimiters stand at both ends. -/
  edges : tok.kind ≠ .tag ∧ before = [] ∧ before' = [] ∧ skip = 0 ∧ 0 < middle.length ∨
    0 < before.length ∧ 0 < before'.length ∧ 0 < after.length ∧ 0 < after'.length

/-- The tokens of `src` from `start` on and those of `src'` from `start'` on are the same apart from
their offsets; `fix` makes the texts of `src'` from those of `src`. -/
inductive Respaces (fix : Token → Text → Text) :
    (start start' : Nat) → (src src' : Text) → (toks toks' : List Token) → Prop where
  | nil {start start' : Nat} : Respaces fix start start' [] [] [] []
  | cons {text src src' : Text} {tok tok' : Token} {toks toks' : List Token}
      (htok : Respaced text (fix tok text) tok tok')
      (hrest : Respaces fix tok.stop tok'.stop src src' toks toks') :
      Respaces fix tok.start tok'.start (text ++ src) (fix tok text ++ src') (tok :: toks)
        (tok' :: toks')

namespace Respaced

variable {text text' : Text} {tok tok' : Token}

/-- The markup starts inside the token, and at its start on both sides or on none. -/
theorem places (h : Respaced text text' tok tok') :
    tok.start ≤ tok.markupStart ∧ tok.markupStart < tok.stop ∧ tok'.start ≤ tok'.markupStart ∧
      tok'.markupStart < tok'.stop ∧
      (tok.markupStart = tok.start ↔ tok'.markupStart = tok'.start) := by
  have htext := congrArg List.length h.text_eq
  have htext' := congrArg List.length h.text_eq'
  simp only [List.length_append] at htext htext'
  have hstop := h.stop_eq
  have hstop' := h.stop_eq'
  have hmarkup := h.markupStart_eq
  have hmarkup' := h.markupStart_eq'
  have hle := h.markup_le
  rcases h.edges with ⟨_, hbefore, hbefore', hskip, hmiddle⟩ | ⟨hbefore, hbefore', hafter, hafter'⟩
  · rw [hbefore, List.length_nil] at htext hmarkup
    rw [hbefore', List.length_nil] at htext' hmarkup'
    omega
  · omega

/-- The markup of a tag keeps away from both ends. -/
theorem tag_places (h : Respaced text text' tok tok') (hkind : tok.kind = .tag) :
    tok.start < tok.markupStart ∧ tok.markupStart + tok.markup.length < tok.stop ∧
      tok'.start < tok'.markupStart ∧ tok'.markupStart + tok.markup.length < tok'.stop := by
  have htext := congrArg List.length h.text_eq
  have htext' := congrArg List.length h.text_eq'
  simp only [List.length_append] at htext htext'
  have hstop := h.stop_eq
  have hstop' := h.stop_eq'
  have hmarkup := h.markupStart_eq
  have hmarkup' := h.markupStart_eq'
  have hle := h.markup_le
  rcases h.edges with ⟨hne, _⟩ | ⟨hbefore, hbefore', hafter, hafter'⟩
  · exact absurd hkind hne
  · omega

end Respaced

/-! ## The way from one source to the other -/

/-- The place `i` of a source with the tokens `toks`, in a source with the tokens `toks'` that ends
at `stop'`.  Places inside a token keep their distance to its markup. -/
def moveThrough : (toks toks' : List Token) → (stop' : Nat) → Nat → Nat
  | tok :: toks, tok' :: toks', stop', i =>
    if i ≤ tok.start then tok'.start
    else if i < tok.stop then tok'.markupStart + (i - tok.markupStart)
    else moveThrough toks toks' stop' i
  | _, _, stop', _ => stop'

section Move

variable {tok tok' : Token} {toks toks' : List Token} {stop' i : Nat}

theorem moveThrough_start : moveThrough (tok :: toks) (tok' :: toks') stop' tok.start = tok'.start := by
  rw [moveThrough, if_pos (Nat.le_refl _)]

theorem moveThrough_inside (hstart : tok.start < i) (hstop : i < tok.stop) :
    moveThrough (tok :: toks) (tok' :: toks') stop' i =
      tok'.markupStart + (i - tok.markupStart) := by
  rw [moveThrough, if_neg (by omega), if_pos hstop]

theorem moveThrough_after (hlt : tok.start < tok.stop) (hstop : tok.stop ≤ i) :
    moveThrough (tok :: toks) (tok' :: toks') stop' i = moveThrough toks toks' stop' i := by
  rw [moveThrough, if_neg (by omega), if_neg (by omega)]

end Move

namespace Respaces

variable {fix : Token → Text → Text} {start start' : Nat} {src src' : Text}
variable {toks toks' : List Token}

theorem cons_of_eq {text text' : Text} {tok tok' : Token} (hfix : fix tok text = text')
    (htok : Respaced text text' tok tok') (hrest : Respaces fix tok.stop tok'.stop src src' toks toks') :
    Respaces fix tok.start tok'.start (text ++ src) (text' ++ src') (tok :: toks) (tok' :: toks') := by
  subst hfix
  exact .cons htok hrest

/-- The tokens stand at `start` or later, up to the end of the source. -/
theorem bounds (h : Respaces fix start start' src src' toks toks') {tok : Token}
    (htok : tok ∈ toks) :
    start ≤ tok.start ∧ tok.start ≤ tok.markupStart ∧ tok.start < tok.stop ∧
      tok.stop ≤ start + src.length := by
  induction h with
  | nil => cases htok
  | @cons text src src' first first' toks toks' hfirst hrest ih =>
    have hplaces := hfirst.places
    have hstop := hfirst.stop_eq
    rw [List.length_append]
    rcases List.mem_cons.1 htok with rfl | htok
    · omega
    · have := ih htok
      omega

theorem moveThrough_first (h : Respaces fix start start' src src' toks toks') :
    moveThrough toks toks' (start' + src'.length) start = start' := by
  cases h with
  | nil => rfl
  | cons htok _ => exact moveThrough_start

theorem moveThrough_last (h : Respaces fix start start' src src' toks toks') :
    moveThrough toks toks' (start' + src'.length) (start + src.length) = start' + src'.length := by
  induction h with
  | nil => rfl
  | @cons text src src' tok tok' toks toks' htok hrest ih =>
    have hplaces := htok.places
    have hstop := htok.stop_eq
    have hstop' := htok.stop_eq'
    rw [List.length_append, List.length_append, ← Nat.add_assoc, ← Nat.add_assoc, ← hstop, ← hstop',
      moveThrough_after (by omega) (by omega)]
    exact ih

/-- **The tokens of one source are the moved tokens of the other.** -/
theorem tokens_eq (h : Respaces fix start start' src src' toks toks') :
    toks' = toks.map (Token.moved (moveThrough toks toks' (start' + src'.length))) := by
  induction h with
  | nil => rfl
  | @cons text src src' tok tok' toks toks' htok hrest ih =>
    obtain ⟨hle, hlt, hle', hlt', hiff⟩ := htok.places
    have hstop' := htok.stop_eq'
    have hend : tok'.start + (fix tok text ++ src').length = tok'.stop + src'.length := by
      rw [List.length_append]
      omega
    rw [hend, List.map_cons]
    refine List.cons_eq_cons.2 ⟨?_, ?_⟩
    · have hmarkup : moveThrough (tok :: toks) (tok' :: toks') (tok'.stop + src'.length)
          tok.markupStart = tok'.markupStart := by
        by_cases heq : tok.markupStart = tok.start
        · rw [heq, moveThrough_start, hiff.1 heq]
        · rw [moveThrough_inside (by omega) hlt, Nat.sub_self, Nat.add_zero]
      have hstop : moveThrough (tok :: toks) (tok' :: toks') (tok'.stop + src'.length) tok.stop =
          tok'.stop := by
        rw [moveThrough_after (by omega) (Nat.le_refl _)]
        exact hrest.moveThrough_first
      unfold Token.moved
      rw [moveThrough_start, hmarkup, hstop]
      exact htok.same
    · refine ih.trans (List.map_congr_left fun t ht => ?_)
      -- the later tokens stand after this one
      obtain ⟨hstart, hmarkup, hstop, _⟩ := hrest.bounds ht
      unfold Token.moved
      rw [moveThrough_after (by omega) hstart, moveThrough_after (by omega) (by omega),
        moveThrough_after (by omega) (Nat.le_trans hstart hmarkup)]

/-! ## Markups are carried over -/

/-- A tag takes the bytes of its markup along. -/
theorem carried_head {text : Text} {tok tok' : Token} (htok : Respaced text (fix tok text) tok tok')
    (hkind : tok.kind = .tag) (pre pre' : Text) (hpre : pre.length = tok.start)
    (hpre' : pre'.length = tok'.start) (src src' : Text) (toks toks' : List Token) (stop' : Nat) :
    Carried (moveThrough (tok :: toks) (tok' :: toks') stop') (pre ++ (text ++ src))
      (pre' ++ (fix tok text ++ src')) tok.markupStart (tok.markupStart + tok.markup.length) := by
  obtain ⟨hstart, hstop, _, _⟩ := htok.tag_places hkind
  have hmove (i : Nat) (hlo : tok.markupStart ≤ i) (hhi : i ≤ tok.markupStart + tok.markup.length) :
      moveThrough (tok :: toks) (tok' :: toks') stop' i =
        tok'.markupStart + (i - tok.markupStart) :=
    moveThrough_inside (by omega) (by omega)
  refine ⟨fun i hlo hhi => ?_, fun i j hlo hij hhi => ?_⟩
  · rw [hmove i hlo hhi, hmove _ (Nat.le_refl _) (by omega)]
    omega
  · rw [hmove i hlo (by omega), hmove j (by omega) hhi]
    obtain ⟨before, before', middle, after, after', skip, htext, htext', _, _, _, hmarkup, hmarkup',
      hle, _⟩ := htok
    -- both slices are the same slice of `middle`
    have hslice : Text.slice (pre ++ (text ++ src)) i j =
        Text.slice middle (i - tok.start - before.length) (j - tok.start - before.length) := by
      refine Text.slice_within (u := pre ++ before) (v := after ++ src) ?_ ?_ ?_ (by omega)
      · rw [htext]
        simp only [List.append_assoc]
      all_goals
        rw [List.length_append]
        omega
    rw [hslice]
    refine Text.slice_within (u := pre' ++ before') (v := after' ++ src') ?_ ?_ ?_ (by omega)
    · rw [htext']
      simp only [List.append_assoc]
    all_goals
      rw [List.length_append]
      omega

theorem carried (h : Respaces fix start start' src src' toks toks') (pre pre' : Text)
    (hpre : pre.length = start) (hpre' : pre'.length = start') {tok : Token} (htok : tok ∈ toks)
    (hkind : tok.kind = .tag) :
    Carried (moveThrough toks toks' (start' + src'.length)) (pre ++ src) (pre' ++ src')
      tok.markupStart (tok.markupStart + tok.markup.length) := by
  induction h generalizing pre pre' with
  | nil => cases htok
  | @cons text src src' first first' toks toks' hfirst hrest ih =>
    rcases List.mem_cons.1 htok with rfl | htok
    · exact carried_head hfirst hkind pre pre' hpre hpre' src src' toks toks' _
    · have hstop := hfirst.stop_eq
      have hstop' := hfirst.stop_eq'
      have hplaces := hfirst.places
      obtain ⟨hstart, hmarkup, _, _⟩ := hrest.bounds htok
      have hrec := ih (pre ++ text) (pre' ++ fix first text) (by rw [List.length_append]; omega)
        (by rw [List.length_append]; omega) htok
      have hend : first'.start + (fix first text ++ src').length = first'.stop + src'.length := by
        rw [List.length_append]
        omega
      rw [List.append_assoc, List.append_assoc] at hrec
      rw [hend]
      have hmove (i : Nat) (hlo : tok.markupStart ≤ i) :
          moveThrough (first :: toks) (first' :: toks') (first'.stop + src'.length) i =
            moveThrough toks toks' (first'.stop + src'.length) i :=
        moveThrough_after (by omega) (by omega)
      refine ⟨fun i hlo hhi => ?_, fun i j hlo hij hhi => ?_⟩
      · rw [hmove i hlo, hmove _ (Nat.le_refl _)]
        exact hrec.shift i hlo hhi
      · rw [hmove i hlo, hmove j (by omega)]
        exact hrec.slice i j hlo hij hhi

end Respaces

/-! ## Order is kept -/

/-- The places of a source where a warning may stand: the starts of its tokens, and the markups of
its tags. -/
def Mark (toks : List Token) (i : Nat) : Prop :=
  ∃ tok ∈ toks, i = tok.start ∨
    tok.kind = .tag ∧ tok.markupStart ≤ i ∧ i ≤ tok.markupStart + tok.markup.length

namespace Respaces

variable {fix : Token → Text → Text} {start start' : Nat} {src src' : Text}
variable {toks toks' : List Token}

/-- A mark of a token stays inside it, and so does its new place. -/
theorem mark_head {text : Text} {tok tok' : Token} {i : Nat}
    (htok : Respaced text (fix tok text) tok tok') (hi : Mark [tok] i) (toks toks' : List Token)
    (stop' : Nat) :
    tok.start ≤ i ∧ i < tok.stop ∧ (i = tok.start ∨ tok.start < tok.markupStart ∧
      tok'.start < tok'.markupStart ∧ tok.markupStart ≤ i) ∧
      tok'.start ≤ moveThrough (tok :: toks) (tok' :: toks') stop' i ∧
      moveThrough (tok :: toks) (tok' :: toks') stop' i < tok'.stop := by
  obtain ⟨hle, hlt, hle', hlt', _⟩ := htok.places
  obtain ⟨t, ht, hmark⟩ := hi
  obtain rfl := List.mem_singleton.1 ht
  rcases hmark with rfl | ⟨hkind, hlo, hhi⟩
  · rw [moveThrough_start]
    omega
  · obtain ⟨hstart, hstop, hstart', hstop'⟩ := htok.tag_places hkind
    rw [moveThrough_inside (by omega) (by omega)]
    omega

theorem mark_cons {tok : Token} {i : Nat} (hi : Mark (tok :: toks) i) :
    Mark [tok] i ∨ Mark toks i := by
  obtain ⟨t, ht, hmark⟩ := hi
  rcases List.mem_cons.1 ht with rfl | ht
  · exact .inl ⟨t, List.mem_singleton.2 rfl, hmark⟩
  · exact .inr ⟨t, ht, hmark⟩

/-- Marks stand at `start` or later, and move to `start'` or later. -/
theorem le_mark (h : Respaces fix start start' src src' toks toks') {i : Nat} (hi : Mark toks i) :
    start ≤ i ∧ start' ≤ moveThrough toks toks' (start' + src'.length) i := by
  induction h with
  | nil =>
    obtain ⟨_, ht, _⟩ := hi
    cases ht
  | @cons text src src' tok tok' toks toks' htok hrest ih =>
    obtain ⟨hle, hlt, hle', hlt', _⟩ := htok.places
    have hend : tok'.start + (fix tok text ++ src').length = tok'.stop + src'.length := by
      have := htok.stop_eq'
      rw [List.length_append]
      omega
    rw [hend]
    rcases mark_cons hi with hi | hi
    · obtain ⟨hlo, _, _, hlo', _⟩ := mark_head htok hi toks toks'
        (tok'.stop + src'.length)
      exact ⟨hlo, hlo'⟩
    · obtain ⟨hlo, hlo'⟩ := ih hi
      rw [moveThrough_after (by omega) hlo]
      omega

/-- **Marks keep their order.** -/
theorem le_iff (h : Respaces fix start start' src src' toks toks') {i j : Nat} (hi : Mark toks i)
    (hj : Mark toks j) :
    moveThrough toks toks' (start' + src'.length) i ≤
      moveThrough toks toks' (start' + src'.length) j ↔ i ≤ j := by
  induction h with
  | nil =>
    obtain ⟨_, ht, _⟩ := hi
    cases ht
  | @cons text src src' tok tok' toks toks' htok hrest ih =>
    obtain ⟨hle, hlt, hle', hlt', hiff⟩ := htok.places
    have hend : tok'.start + (fix tok text ++ src').length = tok'.stop + src'.length := by
      have := htok.stop_eq'
      rw [List.length_append]
      omega
    rw [hend]
    have hhead {k : Nat} (hk : Mark [tok] k) := mark_head htok hk toks toks'
      (tok'.stop + src'.length)
    have hlater {k : Nat} (hk : Mark toks k) : tok.stop ≤ k ∧ tok'.stop ≤
        moveThrough (tok :: toks) (tok' :: toks') (tok'.stop + src'.length) k := by
      obtain ⟨hlo, hlo'⟩ := hrest.le_mark hk
      rw [moveThrough_after (by omega) hlo]
      exact ⟨hlo, hlo'⟩
    rcases mark_cons hi with hi | hi
    · obtain ⟨hi1, hi2, hi3, hi4, hi5⟩ := hhead hi
      rcases mark_cons hj with hj | hj
      · obtain ⟨hj1, hj2, hj3, hj4, hj5⟩ := hhead hj
        have hmove {k : Nat} (hk : k = tok.start ∨ tok.start < tok.markupStart ∧
            tok'.start < tok'.markupStart ∧ tok.markupStart ≤ k) (hk2 : k < tok.stop) :
            moveThrough (tok :: toks) (tok' :: toks') (tok'.stop + src'.length) k =
              if k = tok.start then tok'.start else tok'.markupStart + (k - tok.markupStart) := by
          by_cases heq : k = tok.start
          · rw [if_pos heq, heq, moveThrough_start]
          · rw [if_neg heq, moveThrough_inside (by omega) hk2]
        rw [hmove hi3 hi2, hmove hj3 hj2]
        split <;> split <;> omega
      · obtain ⟨hj1, hj2⟩ := hlater hj
        omega
    · obtain ⟨hi1, hi2⟩ := hlater hi
      rcases mark_cons hj with hj | hj
      · obtain ⟨hj1, hj2, hj3, hj4, hj5⟩ := hhead hj
        omega
      · obtain ⟨hj1, _⟩ := hlater hj
        rw [moveThrough_after (by omega) hi1, moveThrough_after (by omega) hj1]
        exact ih hi hj

/-- **Sources with the same tokens elsewhere have the same tree elsewhere.** -/
theorem movesTo (h : Respaces fix 0 0 src src' (tokens src) (tokens src')) :
    MovesTo (moveThrough (tokens src) (tokens src') src'.length) (Mark (tokens src)) src src' := by
  have heq := h.tokens_eq
  have hcarried {tok : Token} (htok : tok ∈ tokens src) (hkind : tok.kind = .tag) :=
    h.carried [] [] rfl rfl htok hkind
  have hle {i j : Nat} (hi : Mark (tokens src) i) (hj : Mark (tokens src) j) := h.le_iff hi hj
  have hfirst := h.moveThrough_first
  have hlast := h.moveThrough_last
  simp only [Nat.zero_add, List.nil_append] at heq hcarried hle hfirst hlast
  refine ⟨heq, fun tok htok => ⟨hcarried htok, fun hline => ?_⟩, fun tok htok => ⟨?_, ?_⟩,
    fun i j hi hj => hle hi hj, hfirst, hlast⟩
  · rw [inLiquid_tokens htok] at hline
    cases hline
  · exact ⟨tok, htok, .inl rfl⟩
  · exact fun hkind i hlo hhi => ⟨tok, htok, .inr ⟨hkind, hlo, hhi⟩⟩

end Respaces

end Liquid
end LiquidLint
