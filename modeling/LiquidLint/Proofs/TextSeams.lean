import LiquidLint.Proofs.StoredEdits

/-!
# Seams

A seam is a place at which a well-formed text can be cut into two well-formed ones.  What stands between
two seams is well-formed, so a text stays well-formed when edits between seams are made in it
(`wellFormed_patch`).

ASCII bytes are characters of their own, so there are seams before and behind them.  That is where edits
around ASCII bytes have their ends (`seams_around`, `seams_of_ascii`).
-/

namespace LiquidLint

open Source

namespace Text

/-- What stands behind a well-formed start of a well-formed text is well-formed. -/
theorem WellFormed.of_append {t u : Text} (h : WellFormed (t ++ u)) (ht : WellFormed t) :
    WellFormed u := by
  obtain ⟨cs, rfl⟩ := ht
  induction cs with
  | nil => exact h
  | cons c cs ih =>
    have hfirst : ofChars (c :: cs) ++ u = ofChar c ++ (ofChars cs ++ u) := List.append_assoc ..
    rw [hfirst] at h
    exact ih (wellFormed_of_ofChar_append h)

/-- The text can be cut at the place into two well-formed ones. -/
structure Seam (t : Text) (i : Nat) : Prop where
  before : WellFormed (t.take i)
  behind : WellFormed (t.drop i)

theorem seam_zero {t : Text} (h : WellFormed t) : Seam t 0 := ⟨.nil, h⟩

theorem seam_of_length_le {t : Text} (h : WellFormed t) {i : Nat} (hi : t.length ≤ i) : Seam t i := by
  constructor
  · rwa [List.take_of_length_le hi]
  · rw [List.drop_of_length_le hi]
    exact .nil

theorem seam_append {t u : Text} (ht : WellFormed t) (hu : WellFormed u) : Seam (t ++ u) t.length := by
  constructor
  · rwa [List.take_left]
  · rwa [List.drop_left]

/-- **What stands between two seams is well-formed.** -/
theorem Seam.slice {t : Text} {i j : Nat} (hi : Seam t i) (hj : Seam t j) (hij : i ≤ j) :
    WellFormed (Text.slice t i j) := by
  have htake : t.take j = t.take i ++ Text.slice t i j := by
    unfold Text.slice
    rw [← List.take_add, Nat.add_sub_cancel' hij]
  have hbefore := hj.before
  rw [htake] at hbefore
  exact hbefore.of_append hi.before

/-- There are seams on both sides of ASCII bytes that have an ASCII byte before or behind them. -/
theorem seams_around {u g v : Text} (h : WellFormed (u ++ (g ++ v))) (hg : ∀ b ∈ g, b.toNat < 0x80)
    (hedge : (∃ b ∈ u.getLast?, b.toNat < 0x80) ∨ ∃ b ∈ v.head?, b.toNat < 0x80) :
    Seam (u ++ (g ++ v)) u.length ∧ Seam (u ++ (g ++ v)) (u.length + g.length) := by
  have hascii : WellFormed g := by
    clear h hedge
    induction g with
    | nil => exact .nil
    | cons b g ih =>
      have hrest := ih fun c hc => hg c (List.mem_cons_of_mem _ hc)
      exact (wellFormed_singleton (hg b (List.mem_cons_self ..))).append hrest
  obtain ⟨hu, hv⟩ := wellFormed_around h hg hedge
  refine ⟨seam_append hu (hascii.append hv), ?_⟩
  rw [← List.append_assoc, ← List.length_append]
  exact seam_append (hu.append hascii) hv

/-- There are seams on both sides of some ASCII bytes. -/
theorem seams_of_ascii {u v : Text} {b : UInt8} {g : Text} (h : WellFormed (u ++ (b :: g ++ v)))
    (hascii : (b :: g).all (·.toNat < 0x80) = true) :
    Seam (u ++ (b :: g ++ v)) u.length ∧ Seam (u ++ (b :: g ++ v)) (u.length + (b :: g).length) := by
  have hg (c : UInt8) (hc : c ∈ b :: g) : c.toNat < 0x80 :=
    of_decide_eq_true (List.all_eq_true.1 hascii c hc)
  have hb := hg b (List.mem_cons_self ..)
  have hcut : u ++ (b :: g ++ v) = (u ++ [b]) ++ (g ++ v) := List.append_cons ..
  obtain ⟨hu, hrest⟩ := WellFormed.cut (u := g ++ v) h hb
  have hfirst : Seam (u ++ (b :: g ++ v)) u.length :=
    seam_append hu ((wellFormed_singleton hb).append hrest)
  refine ⟨hfirst, ?_⟩
  -- the first byte is one in front of the others
  have hedge : ∃ c ∈ (u ++ [b]).getLast?, c.toNat < 0x80 := ⟨b, List.getLast?_concat, hb⟩
  have hlength : u.length + (b :: g).length = (u ++ [b]).length + g.length := by
    simp only [List.length_append, List.length_cons, List.length_nil]
    omega
  rw [hcut] at h ⊢
  rw [hlength]
  exact (seams_around h (fun c hc => hg c (List.mem_cons_of_mem _ hc)) (.inl hedge)).2

end Text

open Text

/-! ## Edits -/

/-- The edit puts a well-formed text between two seams. -/
structure Edit.Clean (source : Text) (e : Edit) : Prop where
  start : Seam source e.start
  stop : Seam source e.stop
  text : WellFormed e.text

/-- **Edits between seams leave a text well-formed.** -/
theorem wellFormed_patch {source : Text} {lo hi : Nat} {edits : List Edit}
    (horder : InOrder lo edits hi) (hlo : Seam source lo) (hhi : Seam source hi)
    (hedits : ∀ e ∈ edits, e.Clean source) : WellFormed (patch source lo hi edits) := by
  induction edits generalizing lo with
  | nil => exact hlo.slice hhi horder
  | cons e rest ih =>
    obtain ⟨hstart, -, hrest⟩ := horder
    have he := hedits e (List.mem_cons_self ..)
    have htail := ih hrest he.stop fun e' he' => hedits e' (List.mem_cons_of_mem _ he')
    exact (hlo.slice he.start hstart).append (he.text.append htail)

namespace Source

/-! ## Sources -/

/-- The source of a well-formed content is well-formed. -/
theorem wellFormed_sourceOf {stored : Text} (h : WellFormed stored) : WellFormed (sourceOf stored) := by
  unfold sourceOf unmarked
  split
  · exact wellFormed_plainBreaks (wellFormed_replaceInvalid _)
  · exact wellFormed_plainBreaks h

/-- The stored form of a well-formed text is well-formed. -/
theorem wellFormed_encode (f : SourceFile) {x : Text} (h : WellFormed x) : WellFormed (f.encode x) := by
  have hmark : WellFormed byteOrderMark := ⟨[Char.ofNat 0xFEFF], by decide⟩
  unfold SourceFile.encode
  cases f.lineBreak with
  | lf =>
    cases f.marked with
    | true => exact hmark.append h
    | false => exact h
  | crlf =>
    cases f.marked with
    | true => exact hmark.append (wellFormed_twoByteBreaks h)
    | false => exact wellFormed_twoByteBreaks h

end Source

/-- **Clean edits leave a content well-formed.** -/
theorem Corrector.Kept.wellFormed_content {f : SourceFile} {c : Corrector} (h : Kept f c)
    (hsource : WellFormed f.source) (hedits : ∀ e ∈ c.edits, e.Clean f.source) {stored : Text}
    (hstored : WellFormed stored) : WellFormed (c.apply stored).content := by
  rw [h.content_apply]
  split
  · exact hstored
  · refine wellFormed_encode f (wellFormed_patch (h.inOrder_applied stored) (seam_zero hsource)
      (seam_of_length_le hsource (Nat.le_refl _)) fun e he => hedits e ?_)
    exact (applied_sublist c stored).subset ((inSourceOrder_perm _).subset he)

end LiquidLint
