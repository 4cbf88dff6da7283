import LiquidLint.Proofs.WordReading

/-!
# The names that are found in any text

Whether a name in a text is a variable that the text reads is a matter of what stands on its two sides
(`IsRoot`).  In front of it every quoted text is closed, no word or number has begun that the name would be
a part of, and nothing joins it to what it follows: the last byte that is no blank is neither a pipe nor a dot,
unless the dot is the end of a number.  Behind it the name does not go on, and no colon makes a key of it.

These are the names that are found, each where it stands, in any text (`identifiers_exact`).  The reader
remembers one thing, whether it was a dot or a pipe that it saw last.  What this says of the text that was read,
and what is known of the byte that comes next, is kept from piece to piece (`Reached`), and inside of a piece no
variable starts (`rootOf_behind`).
-/

namespace LiquidLint
namespace Liquid

/-! ## What stands in front of a name -/

/-- The quote that is open behind the byte `b`, if `opened` is open in front of it. -/
def turnQuote (opened : Option UInt8) (b : UInt8) : Option UInt8 :=
  match opened with
  | none => if b = '"' || b = '\'' then some b else none
  | some q => if b = q then none else some q

/-- The quote that is open behind `t`, whose quoted texts are read from left to right. -/
def openQuote (t : Text) : Option UInt8 := t.foldl turnQuote none

/-- `t` ends inside a word: with a byte that a name or a number starts with, and bytes that go on with it. -/
def InWord (t : Text) : Prop :=
  ∃ front b more, t = front ++ b :: more ∧ (isIdentStart b || Text.isDigit b) = true ∧
    ∀ c ∈ more, isIdentPart c = true

/-- `t` ends with a number, or inside of one.  A number is a digit that goes on with no word, and the bytes of
names and the dots behind it. -/
def EndsNumber (t : Text) : Prop :=
  ∃ front b more, t = front ++ b :: more ∧ Text.isDigit b = true ∧ ¬ InWord front ∧
    ∀ c ∈ more, isNumberPart c = true

/-- What follows `t` is a property or a filter: blanks apart, `t` ends with a pipe, or with a dot that is not the
end of a number. -/
def Joins (t : Text) : Prop :=
  ∃ front b more, t = front ++ b :: more ∧ (∀ c ∈ more, isPassed c = true) ∧
    (b = '|' ∨ b = '.' ∧ ¬ EndsNumber (front ++ [b]))

/-- `name`, which stands between `before` and `after`, is a variable that the text reads. -/
structure IsRoot (before name after : Text) : Prop where
  word : isWord name = true
  free : name ∉ keywords
  /-- The name does not go on. -/
  whole : ∀ b ∈ after.head?, isIdentPart b = false
  /-- The name is not the key of an argument. -/
  keyless : (after.dropWhile fun b : UInt8 => b = ' ' || b = '\t').head? ≠ some (':' : UInt8)
  /-- The name stands in no quoted text, closed or not. -/
  outside : openQuote before = none
  /-- The name is not a property or a filter. -/
  unjoined : ¬ Joins before
  /-- The name is not the rest of a longer word. -/
  starts : ¬ InWord before
  /-- The name is not the rest of a number. -/
  apart : ¬ EndsNumber before

/-- The entry stands in `t` and is a variable that `t` reads. -/
def Ident.RootOf (t : Text) (i : Ident) : Prop :=
  ∃ before after, before.length = i.offset ∧ t = before ++ (i.name ++ after) ∧ IsRoot before i.name after

/-! ## Behind one more byte -/

theorem openQuote_append (t u : Text) : openQuote (t ++ u) = u.foldl turnQuote (openQuote t) :=
  List.foldl_append ..

/-- A quote stays open up to its partner. -/
theorem openQuote_within {q : UInt8} (hq : q = '"' ∨ q = '\'') {t content : Text} (ht : openQuote t = none)
    (hcontent : q ∉ content) : openQuote (t ++ q :: content) = some q := by
  have hopens : turnQuote none q = some q := by
    rcases hq with rfl | rfl <;> rfl
  have hstays : content.foldl turnQuote (some q) = some q := by
    induction content with
    | nil => rfl
    | cons b rest ih =>
      obtain ⟨hb, hrest⟩ := List.ne_and_not_mem_of_not_mem_cons hcontent
      rw [List.foldl_cons, turnQuote, if_neg (Ne.symm hb)]
      exact ih hrest
  rw [openQuote_append, ht, List.foldl_cons, hopens, hstays]

/-- Without quotes nothing is opened. -/
theorem openQuote_of_free {t u : Text} (ht : openQuote t = none)
    (hu : ∀ b ∈ u, (b = '"' || b = '\'') = false) : openQuote (t ++ u) = none := by
  rw [openQuote_append, ht]
  induction u with
  | nil => rfl
  | cons b rest ih =>
    rw [List.foldl_cons, turnQuote, if_neg (Bool.eq_false_iff.1 (hu b (List.mem_cons_self ..)))]
    exact ih fun c hc => hu c (List.mem_cons_of_mem _ hc)

theorem openQuote_concat {t : Text} {b : UInt8} (ht : openQuote t = none)
    (hb : (b = '"' || b = '\'') = false) : openQuote (t ++ [b]) = none :=
  openQuote_of_free ht fun c hc => by rw [List.mem_singleton.1 hc, hb]

/-- A byte of a text with one more byte is that one, or a byte of the text. -/
theorem cut_concat {t front more : Text} {b c : UInt8} (h : t ++ [b] = front ++ c :: more) :
    (front = t ∧ c = b ∧ more = []) ∨ ∃ others, more = others ++ [b] ∧ t = front ++ c :: others := by
  rcases List.eq_nil_or_concat more with rfl | ⟨others, x, rfl⟩
  · obtain ⟨hfront, hlast⟩ := List.append_inj' h rfl
    exact .inl ⟨hfront.symm, (List.cons.inj hlast).1.symm, rfl⟩
  · have hcut : t ++ [b] = (front ++ c :: others) ++ [x] := by
      rw [h, List.concat_eq_append, List.append_assoc, List.cons_append]
    obtain ⟨hfront, hlast⟩ := List.append_inj' hcut rfl
    exact .inr ⟨others, by rw [List.concat_eq_append, (List.cons.inj hlast).1], hfront⟩

/-- What holds of the bytes at the end holds of one more. -/
theorem forall_mem_concat {p : UInt8 → Bool} {t : Text} {b : UInt8} :
    (∀ c ∈ t ++ [b], p c = true) ↔ (∀ c ∈ t, p c = true) ∧ p b = true := by
  simp [or_imp, forall_and]

theorem inWord_concat (t : Text) (b : UInt8) :
    InWord (t ++ [b]) ↔
      isIdentPart b = true ∧ ((isIdentStart b || Text.isDigit b) = true ∨ InWord t) := by
  constructor
  · rintro ⟨front, c, more, hcut, hstarts, hmore⟩
    rcases cut_concat hcut with ⟨-, rfl, rfl⟩ | ⟨others, rfl, ht⟩
    · exact ⟨by rw [isIdentPart, hstarts]; rfl, .inl hstarts⟩
    · obtain ⟨hothers, hb⟩ := forall_mem_concat.1 hmore
      exact ⟨hb, .inr ⟨front, c, others, ht, hstarts, hothers⟩⟩
  · rintro ⟨hpart, hstarts | ⟨front, c, more, rfl, hstarts, hmore⟩⟩
    · exact ⟨t, b, [], rfl, hstarts, List.forall_mem_nil _⟩
    · exact ⟨front, c, more ++ [b], List.append_assoc .., hstarts, forall_mem_concat.2 ⟨hmore, hpart⟩⟩

theorem endsNumber_concat (t : Text) (b : UInt8) :
    EndsNumber (t ++ [b]) ↔
      isNumberPart b = true ∧ (EndsNumber t ∨ Text.isDigit b = true ∧ ¬ InWord t) := by
  constructor
  · rintro ⟨front, c, more, hcut, hdigit, hfront, hmore⟩
    rcases cut_concat hcut with ⟨rfl, rfl, rfl⟩ | ⟨others, rfl, ht⟩
    · exact ⟨by simp [isNumberPart, isIdentPart, hdigit], .inr ⟨hdigit, hfront⟩⟩
    · obtain ⟨hothers, hb⟩ := forall_mem_concat.1 hmore
      exact ⟨hb, .inl ⟨front, c, others, ht, hdigit, hfront, hothers⟩⟩
  · rintro ⟨hpart, ⟨front, c, more, rfl, hdigit, hfront, hmore⟩ | ⟨hdigit, ht⟩⟩
    · exact ⟨front, c, more ++ [b], List.append_assoc .., hdigit, hfront,
        forall_mem_concat.2 ⟨hmore, hpart⟩⟩
    · exact ⟨t, b, [], rfl, hdigit, ht, List.forall_mem_nil _⟩

theorem joins_concat (t : Text) (b : UInt8) :
    Joins (t ++ [b]) ↔
      isPassed b = true ∧ Joins t ∨ b = '|' ∨ b = '.' ∧ ¬ EndsNumber (t ++ [b]) := by
  constructor
  · rintro ⟨front, c, more, hcut, hmore, hjoint⟩
    rcases cut_concat hcut with ⟨rfl, rfl, rfl⟩ | ⟨others, rfl, ht⟩
    · exact .inr hjoint
    · obtain ⟨hothers, hb⟩ := forall_mem_concat.1 hmore
      exact .inl ⟨hb, front, c, others, ht, hothers, hjoint⟩
  · rintro (⟨hpassed, front, c, more, rfl, hmore, hjoint⟩ | hjoint)
    · exact ⟨front, c, more ++ [b], List.append_assoc .., forall_mem_concat.2 ⟨hmore, hpassed⟩, hjoint⟩
    · exact ⟨t, b, [], rfl, List.forall_mem_nil _, hjoint⟩

/-- Neither a word nor a number ends with a byte that goes on with none. -/
theorem not_ends_concat (t : Text) {b : UInt8} (hb : isNumberPart b = false) :
    ¬ InWord (t ++ [b]) ∧ ¬ EndsNumber (t ++ [b]) := by
  rw [inWord_concat, endsNumber_concat, hb, (Bool.or_eq_false_iff.1 hb).1]
  exact ⟨fun hword => Bool.false_ne_true hword.1, fun hends => Bool.false_ne_true hends.1⟩

/-- Nothing is joined to a name or a number. -/
theorem not_joins_append {t w : Text} (hw : w ≠ []) (hparts : ∀ b ∈ w, isNumberPart b = true)
    (hdot : ('.' : UInt8) ∉ w ∨ EndsNumber (t ++ w)) : ¬ Joins (t ++ w) := by
  obtain ⟨others, b, rfl⟩ := (List.eq_nil_or_concat w).resolve_left hw
  rw [List.concat_eq_append] at *
  have hb : b ∈ others ++ [b] := List.mem_concat_self ..
  rw [← List.append_assoc] at hdot ⊢
  rw [joins_concat]
  rintro (⟨hpassed, -⟩ | rfl | ⟨rfl, hends⟩)
  · exact Bool.false_ne_true ((not_of_isPassed hpassed).2.2.1.symm.trans (hparts b hb))
  · exact absurd (hparts _ hb) (by decide)
  · exact hdot.elim (fun hfree => hfree hb) hends

/-! ## From piece to piece -/

/-- The reader stands between `past` and `rest`, and has seen a dot or a pipe last or not. -/
structure Reached (past : Text) (before : Before) (rest : Text) : Prop where
  outside : openQuote past = none
  joint_iff : before = .joint ↔ Joins past
  /-- A word that has begun does not go on. -/
  word : InWord past → ∀ b ∈ rest.head?, isIdentPart b = false
  /-- A number that has begun does not go on. -/
  number : EndsNumber past → ∀ b ∈ rest.head?, isNumberPart b = false

namespace Reached

variable {past rest : Text} {before : Before} {b : UInt8}

theorem start (t : Text) : Reached [] .other t := by
  refine ⟨rfl, iff_of_false (by decide) ?_, ?_, ?_⟩
  -- whatever is said of a last byte is false
  all_goals
    rintro ⟨front, b, more, hcut, -⟩
    exact absurd hcut (by simp)

theorem not_inWord (h : Reached past before (b :: rest)) (hb : isIdentPart b = true) : ¬ InWord past := by
  intro hword
  exact Bool.false_ne_true ((h.word hword b rfl).symm.trans hb)

theorem not_endsNumber (h : Reached past before (b :: rest)) (hb : isNumberPart b = true) :
    ¬ EndsNumber past := by
  intro hnumber
  exact Bool.false_ne_true ((h.number hnumber b rfl).symm.trans hb)

theorem quoted {q : Quoted} (h : Reached past before (q.text ++ rest)) :
    Reached (past ++ q.text) .other rest := by
  obtain ⟨-, hnumber, hpassed, hdot, hpipe⟩ := not_of_isQuote q.isQuote
  have hcut : past ++ q.text = (past ++ q.quote :: q.content) ++ [q.quote] := by
    rw [Quoted.text, List.append_assoc, List.cons_append]
  rw [hcut]
  obtain ⟨hword, hends⟩ := not_ends_concat (past ++ q.quote :: q.content) hnumber
  refine ⟨?_, iff_of_false (by decide) ?_, fun hin => absurd hin hword, fun hin => absurd hin hends⟩
  · rw [openQuote_append, openQuote_within q.isQuote h.outside q.free]
    exact if_pos rfl
  · rw [joins_concat, hpassed]
    rintro (⟨hpassed, -⟩ | hjoint | ⟨hjoint, -⟩)
    · cases hpassed
    · exact hpipe hjoint
    · exact hdot hjoint

/-- Behind a name no number has begun: a digit in it goes on with the word. -/
theorem not_endsNumber_name {n : Name} (h : Reached past before (n.text ++ rest)) :
    ¬ EndsNumber (past ++ n.text) := by
  rintro ⟨front, b, more, hcut, hdigit, hfront, hmore⟩
  have hfirst : n.first ≠ b := by
    rintro rfl
    exact Bool.false_ne_true ((not_of_isDigit hdigit).2.1.symm.trans n.starts)
  rcases List.append_eq_append_iff.1 hcut with ⟨behind, hpast, hname⟩ | ⟨behind, rfl, hname⟩
  · cases behind with
    | nil => exact hfirst (List.cons.inj hname).1
    | cons c others =>
      obtain ⟨rfl, hrest⟩ := List.cons.inj hname
      refine hfront ⟨past, n.first, others, hpast, by rw [n.starts]; rfl, fun d hd => n.goesOn d ?_⟩
      rw [hrest]
      exact List.mem_append_left _ hd
  · cases behind with
    | nil => exact hfirst (List.cons.inj hname).1.symm
    | cons c others =>
      obtain ⟨rfl, rfl⟩ := List.cons.inj hname
      exact h.not_endsNumber (isNumberPart_of_name n _ (List.mem_cons_self ..))
        ⟨front, b, others, rfl, hdigit, hfront, fun d hd => hmore d (List.mem_append_left _ hd)⟩

theorem name {n : Name} (h : Reached past before (n.text ++ rest))
    (hrest : ∀ b ∈ rest.head?, isIdentPart b = false) : Reached (past ++ n.text) .other rest where
  outside := openQuote_of_free h.outside fun b hb => not_quote_of_isNumberPart (isNumberPart_of_name n b hb)
  joint_iff := by
    refine iff_of_false (by decide)
      (not_joins_append (List.cons_ne_nil _ _) (isNumberPart_of_name n) (.inl fun hdot => ?_))
    exact absurd (isIdentPart_of_name n _ hdot) (by decide)
  word _ := hrest
  number hends := absurd hends h.not_endsNumber_name

theorem blank (h : Reached past before (b :: rest)) (hb : isPassed b = true) :
    Reached (past ++ [b]) before rest := by
  obtain ⟨hquote, -, hpart, hdot, hpipe⟩ := not_of_isPassed hb
  obtain ⟨hword, hends⟩ := not_ends_concat past hpart
  refine ⟨openQuote_concat h.outside hquote, h.joint_iff.trans ?_, fun hin => absurd hin hword,
    fun hin => absurd hin hends⟩
  rw [joins_concat]
  refine ⟨fun hjoins => .inl ⟨hb, hjoins⟩, ?_⟩
  rintro (⟨-, hjoins⟩ | hjoint | ⟨hjoint, -⟩)
  · exact hjoins
  · exact absurd hjoint hpipe
  · exact absurd hjoint hdot

/-- A number is read as far as it goes, and its last byte joins nothing to it, dot or not. -/
theorem digits (h : Reached past before (b :: rest)) (hb : Text.isDigit b = true) :
    Reached (past ++ b :: rest.takeWhile isNumberPart) .other (rest.dropWhile isNumberPart) := by
  have hpart : isIdentPart b = true := by simp [isIdentPart, hb]
  have hmore : ∀ c ∈ rest.takeWhile isNumberPart, isNumberPart c = true := fun c hc => List.mem_takeWhile_imp hc
  have hparts : ∀ c ∈ b :: rest.takeWhile isNumberPart, isNumberPart c = true :=
    List.forall_mem_cons.2 ⟨Bool.or_eq_true_iff.2 (.inl hpart), hmore⟩
  have hrest := head_dropWhile isNumberPart rest
  exact
    { outside := openQuote_of_free h.outside fun c hc => not_quote_of_isNumberPart (hparts c hc)
      joint_iff := iff_of_false (by decide)
        (not_joins_append (List.cons_ne_nil _ _) hparts (.inr ⟨past, b, _, rfl, hb, h.not_inWord hpart, hmore⟩))
      word := fun _ c hc => (Bool.or_eq_false_iff.1 (hrest c hc)).1
      number := fun _ => hrest }

/-- A sign or a dot goes on with no word or number, for none has begun. -/
theorem mark (h : Reached past before (b :: rest)) (hb : isMark b = true) :
    Reached (past ++ [b]) (if b = '.' || b = '|' then .joint else .other) rest := by
  obtain ⟨hquote, hstart, hpassed, hdigit⟩ := not_of_isMark hb
  have hword : ¬ InWord (past ++ [b]) := by
    rw [inWord_concat, hstart, hdigit]
    rintro ⟨hpart, hstarts | hpast⟩
    · cases hstarts
    · exact h.not_inWord hpart hpast
  have hends : ¬ EndsNumber (past ++ [b]) := by
    rw [endsNumber_concat, hdigit]
    rintro ⟨hpart, hpast | ⟨hstarts, -⟩⟩
    · exact h.not_endsNumber hpart hpast
    · cases hstarts
  refine ⟨openQuote_concat h.outside hquote, ?_, fun hin => absurd hin hword, fun hin => absurd hin hends⟩
  have hjoint : (b = '|' ∨ b = '.' ∧ ¬ EndsNumber (past ++ [b])) ↔ (b = '.' || b = '|') = true := by
    simp [hends, or_comm]
  rw [joins_concat, hpassed, hjoint]
  cases (decide (b = '.') || decide (b = '|')) <;> simp

end Reached

/-! ## The roots behind a place -/

theorem Ident.RootOf.offset_lt {t : Text} {i : Ident} (h : i.RootOf t) : i.offset < t.length := by
  obtain ⟨before, after, hlength, rfl, hroot⟩ := h
  obtain ⟨n, hname⟩ := exists_name hroot.word
  rw [← hlength, hname]
  simp [Name.text]

section Behind

variable {past others rest : Text} {b : UInt8}

/-- A root behind `past` starts right there or behind the piece `b :: others`, if none can start inside of it. -/
theorem rootOf_behind
    (hinside : ∀ c d, d ≠ [] → others = c ++ d →
      openQuote (past ++ b :: c) ≠ none ∨ InWord (past ++ b :: c) ∨ EndsNumber (past ++ b :: c)) (i : Ident) :
    past.length ≤ i.offset ∧ i.RootOf (past ++ (b :: others ++ rest)) ↔
      (i.offset = past.length ∧ ∃ after, b :: others ++ rest = i.name ++ after ∧ IsRoot past i.name after) ∨
        (past ++ b :: others).length ≤ i.offset ∧ i.RootOf (past ++ b :: others ++ rest) := by
  rw [← List.append_assoc]
  constructor
  · rintro ⟨hle, before, after, hlength, hcut, hroot⟩
    rw [← hlength] at hle
    by_cases hbehind : (past ++ b :: others).length ≤ before.length
    · exact .inr ⟨hlength ▸ hbehind, before, after, hlength, hcut, hroot⟩
    · -- the root starts in the piece
      obtain ⟨left, hpiece⟩ := List.prefix_of_prefix_length_le (hcut ▸ List.prefix_append before _)
        (List.prefix_append (past ++ b :: others) rest) (Nat.le_of_not_le hbehind)
      have hleft : left ≠ [] := by
        rintro rfl
        rw [List.append_nil] at hpiece
        exact hbehind (Nat.le_of_eq (congrArg List.length hpiece.symm))
      obtain ⟨c, rfl⟩ := List.prefix_of_prefix_length_le (List.prefix_append past (b :: others))
        (hpiece ▸ List.prefix_append before left) hle
      rw [List.append_assoc] at hpiece
      have hothers := List.append_cancel_left hpiece
      cases c with
      | nil =>
        rw [List.append_nil] at hlength hroot hcut
        rw [List.append_assoc] at hcut
        exact .inl ⟨hlength.symm, after, List.append_cancel_left hcut, hroot⟩
      | cons x c =>
        obtain ⟨rfl, rfl⟩ := List.cons.inj hothers
        rcases hinside c left hleft rfl with hopen | hword | hnumber
        · exact absurd hroot.outside hopen
        · exact absurd hword hroot.starts
        · exact absurd hnumber hroot.apart
  · rintro (⟨hoffset, after, hcut, hroot⟩ | ⟨hle, hroot⟩)
    · exact ⟨Nat.le_of_eq hoffset.symm, past, after, hoffset.symm, by rw [List.append_assoc, hcut], hroot⟩
    · rw [List.length_append] at hle
      exact ⟨by omega, hroot⟩

/-- No root starts at a piece that does not start as names do. -/
theorem rootOf_skip (hb : isIdentStart b = false)
    (hinside : ∀ c d, d ≠ [] → others = c ++ d →
      openQuote (past ++ b :: c) ≠ none ∨ InWord (past ++ b :: c) ∨ EndsNumber (past ++ b :: c)) (i : Ident) :
    past.length ≤ i.offset ∧ i.RootOf (past ++ (b :: others ++ rest)) ↔
      (past ++ b :: others).length ≤ i.offset ∧ i.RootOf (past ++ b :: others ++ rest) := by
  rw [rootOf_behind hinside]
  refine or_iff_right ?_
  rintro ⟨-, after, hcut, hroot⟩
  obtain ⟨n, hname⟩ := exists_name hroot.word
  rw [hname] at hcut
  have hstart := n.starts
  rw [← (List.cons.inj hcut).1, hb] at hstart
  cases hstart

/-- A single byte has no inside. -/
theorem rootOf_skip_byte (hb : isIdentStart b = false) (i : Ident) :
    past.length ≤ i.offset ∧ i.RootOf (past ++ b :: rest) ↔
      past.length + 1 ≤ i.offset ∧ i.RootOf (past ++ [b] ++ rest) := by
  have hskip := @rootOf_skip past [] rest b hb
    (fun _ _ hd hcut => absurd (List.append_eq_nil_iff.1 hcut.symm).2 hd) i
  rwa [List.length_append] at hskip

end Behind

theorem beforeColon_iff (t : Text) :
    beforeColon t = true ↔
      (t.dropWhile fun b : UInt8 => b = ' ' || b = '\t').head? = some (':' : UInt8) := by
  induction t with
  | nil => simp [beforeColon]
  | cons b rest ih =>
    rw [beforeColon, List.dropWhile_cons]
    split
    · exact ih
    · simp

namespace Reached

variable {past rest : Text} {before : Before}

/-- The tests that a name has to pass say that it is a root. -/
theorem isRoot_iff {n : Name} (h : Reached past before (n.text ++ rest))
    (hrest : ∀ b ∈ rest.head?, isIdentPart b = false) :
    IsRoot past n.text rest ↔
      (before = .other && !keywords.contains n.text && !beforeColon rest) = true := by
  have hjoins : before = .other ↔ ¬ Joins past := by
    rw [← h.joint_iff]
    cases before <;> simp
  simp only [Bool.and_eq_true, Bool.not_eq_true', decide_eq_true_eq, Bool.eq_false_iff, ne_eq,
    List.contains_iff_mem, beforeColon_iff]
  constructor
  · exact fun hroot => ⟨⟨hjoins.2 hroot.unjoined, hroot.free⟩, hroot.keyless⟩
  · rintro ⟨⟨hother, hfree⟩, hkeyless⟩
    have hpart := isIdentPart_of_name n n.first (List.mem_cons_self ..)
    exact
      { word := Bool.and_eq_true_iff.2 ⟨n.starts, List.all_eq_true.2 n.goesOn⟩
        free := hfree
        whole := hrest
        keyless := hkeyless
        outside := h.outside
        unjoined := hjoins.1 hother
        starts := h.not_inWord hpart
        apart := h.not_endsNumber (Bool.or_eq_true_iff.2 (.inl hpart)) }

/-- At a name that is reached the name itself is found, or nothing. -/
theorem rootHere_iff {n : Name} (h : Reached past before (n.text ++ rest))
    (hrest : ∀ b ∈ rest.head?, isIdentPart b = false) (i : Ident) :
    (i.offset = past.length ∧ ∃ after, n.text ++ rest = i.name ++ after ∧ IsRoot past i.name after) ↔
      i ∈ if before = .other && !keywords.contains n.text && !beforeColon rest
        then [(⟨n.text, past.length⟩ : Ident)] else [] := by
  constructor
  · rintro ⟨hoffset, after, hcut, hroot⟩
    obtain ⟨name, offset⟩ := i
    dsimp only at hoffset hcut hroot
    -- both names are read off the same text
    obtain ⟨n', rfl⟩ := exists_name hroot.word
    have hread := read_word (isIdentPart_of_name n) hrest
    have hread' := read_word (isIdentPart_of_name n') hroot.whole
    rw [hcut] at hread
    obtain ⟨rfl, hname⟩ : after = rest ∧ n'.text = n.text :=
      ⟨hread'.2.symm.trans hread.2, hread'.1.symm.trans hread.1⟩
    rw [hname] at hroot ⊢
    rw [if_pos ((h.isRoot_iff hrest).1 hroot), hoffset]
    exact List.mem_singleton_self _
  · split
    · rename_i hpasses
      intro hi
      obtain rfl := List.mem_singleton.1 hi
      exact ⟨rfl, rest, rfl, (h.isRoot_iff hrest).2 hpasses⟩
    · exact fun hi => absurd hi List.not_mem_nil

/-- **What is found behind a place that is reached are the roots that stand there.** -/
theorem mem_identsFrom_iff (h : Reached past before rest) (i : Ident) :
    i ∈ identsFrom before past.length rest ↔ past.length ≤ i.offset ∧ i.RootOf (past ++ rest) := by
  induction rest using reading_induction generalizing past before with
  | nil =>
    rw [identsFrom, List.append_nil]
    refine iff_of_false List.not_mem_nil ?_
    rintro ⟨hle, hroot⟩
    exact Nat.not_lt.2 hle hroot.offset_lt
  | quoted q rest ih =>
    rw [identsFrom_quoted, ← List.length_append, ih h.quoted]
    refine (rootOf_skip (not_of_isQuote q.isQuote).1 (fun c d hd hcut => .inl ?_) i).symm
    -- the last byte of the piece is the closing quote
    obtain ⟨d, x, rfl⟩ := (List.eq_nil_or_concat d).resolve_left hd
    rw [List.concat_eq_append, ← List.append_assoc] at hcut
    have hcontent := (List.append_inj' hcut rfl).1
    rw [openQuote_within q.isQuote h.outside fun hmem => q.free (hcontent ▸ List.mem_append_left d hmem)]
    exact Option.some_ne_none _
  | unclosed b content hb hfree =>
    rw [identsFrom_unclosed _ _ hb hfree, ← List.append_nil (b :: content),
      rootOf_skip (not_of_isQuote hb).1, List.append_nil]
    · refine iff_of_false List.not_mem_nil ?_
      rintro ⟨hle, hroot⟩
      exact Nat.not_lt.2 hle hroot.offset_lt
    · rintro c d - rfl
      rw [openQuote_within hb h.outside fun hmem => hfree (List.mem_append_left d hmem)]
      exact .inl (Option.some_ne_none _)
  | name n rest hrest ih =>
    rw [identsFrom_name _ _ n hrest, List.mem_append, ← List.length_append, ih (h.name hrest),
      ← h.rootHere_iff hrest]
    refine (rootOf_behind (fun c d _ hcut => .inr (.inl ?_)) i).symm
    exact ⟨past, n.first, c, rfl, by rw [n.starts]; rfl,
      fun x hx => n.goesOn x (hcut ▸ List.mem_append_left d hx)⟩
  | blank b rest hb ih =>
    have hrest := ih (h.blank hb)
    rw [List.length_append] at hrest
    rw [identsFrom_blank _ _ hb, rootOf_skip_byte (not_of_isPassed hb).2.1]
    exact hrest
  | digit b rest hb ih =>
    rw [identsFrom_digit _ _ hb, ← List.length_append, ih (h.digits hb)]
    have hcut : b :: rest = b :: rest.takeWhile isNumberPart ++ rest.dropWhile isNumberPart :=
      congrArg (b :: ·) List.takeWhile_append_dropWhile.symm
    rw [hcut]
    refine (rootOf_skip (not_of_isDigit hb).2.1 (fun c d _ hcut => .inr (.inr ?_)) i).symm
    exact ⟨past, b, c, rfl, hb, h.not_inWord (by simp [isIdentPart, hb]),
      fun x hx => List.mem_takeWhile_imp (hcut ▸ List.mem_append_left d hx)⟩
  | mark b rest hb ih =>
    have hrest := ih (h.mark hb)
    rw [List.length_append] at hrest
    rw [identsFrom_mark _ _ hb, rootOf_skip_byte (not_of_isMark hb).2.1]
    exact hrest

/-- **What is found follows each other.** -/
theorem pairwise_identsFrom (h : Reached past before rest) :
    (identsFrom before past.length rest).Pairwise fun i j =>
      i.offset < j.offset ∧ i.offset + i.name.length ≤ j.offset := by
  induction rest using reading_induction generalizing past before with
  | nil =>
    rw [identsFrom]
    exact .nil
  | quoted q rest ih =>
    rw [identsFrom_quoted, ← List.length_append]
    exact ih h.quoted
  | unclosed b content hb hfree =>
    rw [identsFrom_unclosed _ _ hb hfree]
    exact .nil
  | name n rest hrest ih =>
    rw [identsFrom_name _ _ n hrest, ← List.length_append]
    refine List.pairwise_append.2 ⟨?_, ih (h.name hrest), fun i hi j hj => ?_⟩
    · split
      · exact List.pairwise_singleton ..
      · exact .nil
    · have hbehind := (((h.name hrest).mem_identsFrom_iff j).1 hj).1
      rw [List.length_append] at hbehind
      have hpos : 0 < n.text.length := Nat.succ_pos _
      split at hi
      · obtain rfl := List.mem_singleton.1 hi
        exact ⟨Nat.lt_of_lt_of_le (Nat.lt_add_of_pos_right hpos) hbehind, hbehind⟩
      · cases hi
  | blank b rest hb ih =>
    have hrest := ih (h.blank hb)
    rw [List.length_append] at hrest
    rw [identsFrom_blank _ _ hb]
    exact hrest
  | digit b rest hb ih =>
    rw [identsFrom_digit _ _ hb, ← List.length_append]
    exact ih (h.digits hb)
  | mark b rest hb ih =>
    have hrest := ih (h.mark hb)
    rw [List.length_append] at hrest
    rw [identsFrom_mark _ _ hb]
    exact hrest

end Reached

/-- **The names that are found in a text**, well-formed or not, are the variables that it reads, each where it
stands.  They are found from left to right and do not overlap. -/
theorem identifiers_exact (t : Text) :
    ((identifiers t).Pairwise fun i j =>
      i.offset < j.offset ∧ i.offset + i.name.length ≤ j.offset) ∧
    ∀ i, i ∈ identifiers t ↔
      ∃ before after, before.length = i.offset ∧ t = before ++ (i.name ++ after) ∧
        IsRoot before i.name after := by
  have hstart := Reached.start t
  refine ⟨hstart.pairwise_identsFrom, fun i => (hstart.mem_identsFrom_iff i).trans ?_⟩
  exact and_iff_right (Nat.zero_le _)

/-- The dot belongs to the number, so `n` is read; `p`, `f` and `k` are a property, a filter and a key, and the last
quote stays open. -/
example : identifiers "1. n.p | f: -x, k : y z \" w" =
    [⟨"n", 3⟩, ⟨"x", 13⟩, ⟨"y", 20⟩, ⟨"z", 22⟩] := by decide +kernel

end Liquid
end LiquidLint
