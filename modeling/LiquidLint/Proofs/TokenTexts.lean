import LiquidLint.Proofs.EditScript
import LiquidLint.Proofs.TokenMoves

/-!
# The texts of tokens

A token that is no text stands between delimiters, and it is read from what they hold
(`exists_delimited`).  When the tokens of a template are respaced, each of them has its new text where
it has moved (`Respaces.slice_moved`), and the new template is put together by edits that make the new
texts one after the other (`Respaces.patch_eq`).  What such a change of one token keeps is kept by all
of them (`Respaces.keeps`).
-/

namespace LiquidLint
namespace Liquid

/-- A token that is no text stands between delimiters. -/
theorem Reads.exists_delimited {start : Nat} {src : Text} {toks : List Token}
    (h : Reads start src toks) {pre : Text} (hpre : pre.length = start) {tok : Token}
    (htok : tok ∈ toks) (hkind : ¬ tok.kind.IsText) :
    ∃ d inner, tok = Token.delimited d tok.start inner ∧
      Text.slice (pre ++ src) tok.start tok.stop = d.opener ++ (inner ++ d.closer) := by
  have htext (s : Nat) (t : Text) : tok ∉ textTokens s t := by
    unfold textTokens
    split
    · exact List.not_mem_nil
    · intro hmem
      rw [List.mem_singleton.1 hmem] at hkind
      exact hkind trivial
  induction h generalizing pre with
  | plain _ => exact absurd htok (htext _ _)
  | @unterminated start before junk rest d toks _ _ _ _ ih =>
    rcases List.mem_append.1 htok with hmem | hmem
    · exact absurd hmem (htext _ _)
    · rcases List.mem_cons.1 hmem with rfl | hmem
      · exact absurd trivial hkind
      · have h := @ih (pre ++ (before ++ (d.opener ++ junk))) ?_ hmem
        · simpa only [List.append_assoc] using h
        · simp only [List.length_append, Delimiter.length_opener, hpre]
          omega
  | @delimited start before inner body rest d toks _ _ _ _ ih =>
    rcases List.mem_append.1 htok with hmem | hmem
    · exact absurd hmem (htext _ _)
    · rcases List.mem_cons.1 hmem with rfl | hmem
      · refine ⟨d, inner, by rw [Token.start_delimited], ?_⟩
        have h := Text.slice_append (pre ++ before) (d.opener ++ (inner ++ d.closer)) (body ++ rest)
        rw [Token.start_delimited, Token.stop_delimited]
        rw [show (pre ++ before).length = start + before.length from by
            rw [List.length_append, hpre],
          show start + before.length + (d.opener ++ (inner ++ d.closer)).length =
            start + before.length + inner.length + 4 from by
            simp only [List.length_append, Delimiter.length_opener, Delimiter.length_closer]
            omega] at h
        simpa only [List.append_assoc] using h
      · rcases List.mem_append.1 hmem with hmem | hmem
        · exact absurd hmem (htext _ _)
        · have h := @ih (pre ++ (before ++ (d.opener ++ (inner ++ (d.closer ++ body))))) ?_ hmem
          · simpa only [List.append_assoc] using h
          · simp only [List.length_append, Delimiter.length_opener, Delimiter.length_closer, hpre]
            omega

/-- **A token that is no text stands between delimiters**, and it is read from what they hold. -/
theorem exists_delimited {src : Text} {tok : Token} (htok : tok ∈ tokens src)
    (hkind : ¬ tok.kind.IsText) :
    ∃ d inner, tok = Token.delimited d tok.start inner ∧
      Text.slice src tok.start tok.stop = d.opener ++ (inner ++ d.closer) :=
  @Reads.exists_delimited 0 src _ (reads_tokensFrom 0 src) [] rfl tok htok hkind

namespace Respaces

variable {fix : Token → Text → Text} {start start' : Nat} {src src' : Text}
variable {toks toks' : List Token}

/-- **A respaced token has its new text where it has moved.** -/
theorem slice_moved (h : Respaces fix start start' src src' toks toks') {pre pre' : Text}
    (hpre : pre.length = start) (hpre' : pre'.length = start') {tok : Token} (htok : tok ∈ toks) :
    let move := moveThrough toks toks' (start' + src'.length)
    Text.slice (pre' ++ src') (move tok.start) (move tok.stop) =
      fix tok (Text.slice (pre ++ src) tok.start tok.stop) := by
  dsimp only
  induction h generalizing pre pre' with
  | nil => cases htok
  | @cons text src src' first first' toks toks' hfirst hrest ih =>
    obtain ⟨hle, hlt, hle', hlt', _⟩ := hfirst.places
    have hstop := hfirst.stop_eq
    have hstop' := hfirst.stop_eq'
    have hend : first'.start + (fix first text ++ src').length = first'.stop + src'.length := by
      rw [List.length_append]
      omega
    rw [hend]
    rcases List.mem_cons.1 htok with rfl | htok
    · have hold := Text.slice_append pre text src
      have hnew := Text.slice_append pre' (fix tok text) src'
      rw [hpre, ← hstop] at hold
      rw [hpre', ← hstop'] at hnew
      rw [moveThrough_start, moveThrough_after (by omega) (Nat.le_refl _), hrest.moveThrough_first,
        hold, hnew]
    · have hbounds := hrest.bounds htok
      have hnext := @ih (pre ++ text) (pre' ++ fix first text)
        (by rw [List.length_append]; omega) (by rw [List.length_append]; omega) htok
      rw [moveThrough_after (by omega) hbounds.1, moveThrough_after (by omega) (by omega)]
      simpa only [List.append_assoc] using hnext

/-- **Edits that make the new text of each token make the new template.** -/
theorem patch_eq (h : Respaces fix start start' src src' toks toks') {edits : Token → List Edit}
    {whole pre : Text} (hwhole : whole = pre ++ src) (hpre : pre.length = start)
    (hedits : ∀ tok ∈ toks, InOrder tok.start (edits tok) tok.stop ∧
      patch whole tok.start tok.stop (edits tok) = fix tok (Text.slice whole tok.start tok.stop)) :
    InOrder start (toks.flatMap edits) (start + src.length) ∧
      patch whole start (start + src.length) (toks.flatMap edits) = src' := by
  induction h generalizing pre with
  | @nil start start' =>
    refine ⟨Nat.le_refl _, ?_⟩
    show Text.slice whole start start = []
    unfold Text.slice
    rw [Nat.sub_self, List.take_zero]
  | @cons text src src' tok tok' toks toks' htok hrest ih =>
    obtain ⟨horder, hpatch⟩ := hedits tok (List.mem_cons_self ..)
    have hstop := htok.stop_eq
    obtain ⟨horder', hpatch'⟩ := @ih (pre ++ text) (by rw [hwhole, List.append_assoc])
      (by rw [List.length_append]; omega) fun t ht => hedits t (List.mem_cons_of_mem _ ht)
    have hend : tok.start + (text ++ src).length = tok.stop + src.length := by
      rw [List.length_append]
      omega
    have htext := Text.slice_append pre text src
    rw [hpre, ← hstop, ← hwhole] at htext
    rw [hend, List.flatMap_cons]
    refine ⟨horder.append horder', ?_⟩
    rw [patch_append whole horder horder', hpatch, hpatch', htext]

/-- **What a change of one token keeps, the change of all of them keeps.** -/
theorem keeps (h : Respaces fix start start' src src' toks toks') {P : Text → Prop}
    {whole pre : Text} (hwhole : whole = pre ++ src) (hpre : pre.length = start)
    (hstep : ∀ tok ∈ toks, ∀ u v : Text, P (u ++ (Text.slice whole tok.start tok.stop ++ v)) →
      P (u ++ (fix tok (Text.slice whole tok.start tok.stop) ++ v)))
    {u : Text} (hu : P (u ++ src)) : P (u ++ src') := by
  induction h generalizing pre u with
  | nil => exact hu
  | @cons text src src' tok tok' toks toks' htok hrest ih =>
    have hstop := htok.stop_eq
    have htext := Text.slice_append pre text src
    rw [hpre, ← hstop, ← hwhole] at htext
    have hfirst := hstep tok (List.mem_cons_self ..) u src
    rw [htext, ← List.append_assoc u (fix tok text)] at hfirst
    have hnext := @ih (pre ++ text) (by rw [hwhole, List.append_assoc])
      (by rw [List.length_append]; omega) (fun t ht => hstep t (List.mem_cons_of_mem _ ht))
      (u ++ fix tok text) (hfirst hu)
    rwa [List.append_assoc] at hnext

end Respaces

end Liquid
end LiquidLint
