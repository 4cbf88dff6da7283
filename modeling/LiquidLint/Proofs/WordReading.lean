import Mathlib.Data.List.TakeWhile
import LiquidLint.Liquid.Expression

/-!
# How a text is read word by word

The reader of names goes through a text by quoted texts, names, blanks, numbers and single bytes.  For each of
these there is an equation that says what is found in it and where the reader goes on, at any offset and behind
whatever was read before.  Every text is made of such pieces (`reading_induction`), so what is kept from piece to
piece holds of whole texts.
-/

namespace LiquidLint
namespace Liquid

/-! ## Words -/

/-- A name of a variable, property, filter or argument. -/
structure Name where
  first : UInt8
  rest : Text
  starts : isIdentStart first = true
  goesOn : ∀ b ∈ rest, isIdentPart b = true

/-- The bytes of a name. -/
def Name.text (n : Name) : Text := n.first :: n.rest

/-- A text between quotes. -/
structure Quoted where
  quote : UInt8
  content : Text
  isQuote : quote = '"' ∨ quote = '\''
  free : quote ∉ content

/-- A quoted text as it is written. -/
def Quoted.text (q : Quoted) : Text := q.quote :: (q.content ++ [q.quote])

/-- Whether the bytes of a word are those of a name. -/
def isWord : Text → Bool
  | [] => false
  | b :: rest => isIdentStart b && rest.all isIdentPart

/-- Whether a number goes on with `b`, as it is read. -/
def isNumberPart (b : UInt8) : Bool := isIdentPart b || b = '.'

/-- Whether `b` is a blank that is passed over. -/
def isPassed (b : UInt8) : Bool := b = ' ' || b = '\t' || b = '\n' || b = '\r'

/-- Whether `b` stands by itself: it belongs to no name, number or quoted text and is no blank. -/
def isMark (b : UInt8) : Bool :=
  !(b = '"' || b = '\'' || isIdentStart b || b = ' ' || b = '\t' || b = '\n' || b = '\r' ||
    Text.isDigit b)

/-! ## The bytes of a word -/

theorem isIdentPart_of_name (n : Name) : ∀ b ∈ n.text, isIdentPart b = true := by
  intro b hb
  rcases List.mem_cons.1 hb with rfl | hb
  · simp [isIdentPart, n.starts]
  · exact n.goesOn b hb

theorem isNumberPart_of_name (n : Name) : ∀ b ∈ n.text, isNumberPart b = true :=
  fun b hb => Bool.or_eq_true_iff.2 (.inl (isIdentPart_of_name n b hb))

theorem exists_name {w : Text} (hw : isWord w = true) : ∃ n : Name, w = n.text := by
  cases w with
  | nil => cases hw
  | cons b rest =>
    obtain ⟨hstart, hrest⟩ := Bool.and_eq_true_iff.1 hw
    exact ⟨⟨b, rest, hstart, List.all_eq_true.1 hrest⟩, rfl⟩

/-- A digit belongs to no other word. -/
theorem not_of_isDigit {b : UInt8} (hb : Text.isDigit b = true) :
    (b = '"' || b = '\'') = false ∧ isIdentStart b = false ∧ isPassed b = false := by
  have hmem : b ∈ ("0123456789" : Text) := by
    have hlo : 0x30 ≤ b.toNat ∧ b.toNat ≤ 0x39 := by
      simpa [Text.isDigit, UInt8.le_iff_toNat_le] using hb
    have heq : b = UInt8.ofNat b.toNat := (UInt8.ofNat_toNat).symm
    have hall : ∀ n < 10, UInt8.ofNat (0x30 + n) ∈ ("0123456789" : Text) := by decide
    rw [heq, show b.toNat = 0x30 + (b.toNat - 0x30) from by omega]
    exact hall _ (by omega)
  have hdigits : ∀ b ∈ ("0123456789" : Text), (b = '"' || b = '\'') = false ∧
      isIdentStart b = false ∧ isPassed b = false := by decide +kernel
  exact hdigits b hmem

theorem not_of_isPassed {b : UInt8} (hb : isPassed b = true) :
    (b = '"' || b = '\'') = false ∧ isIdentStart b = false ∧ isNumberPart b = false ∧ b ≠ '.' ∧ b ≠ '|' := by
  simp only [isPassed, Bool.or_eq_true, decide_eq_true_eq] at hb
  rcases hb with ((rfl | rfl) | rfl) | rfl <;> decide

theorem not_of_isMark {b : UInt8} (hb : isMark b = true) :
    (b = '"' || b = '\'') = false ∧ isIdentStart b = false ∧ isPassed b = false ∧ Text.isDigit b = false := by
  simp only [isMark, Bool.not_eq_true', Bool.or_eq_false_iff] at hb
  obtain ⟨⟨⟨⟨⟨⟨hquote, hstart⟩, hspace⟩, htab⟩, hfeed⟩, hreturn⟩, hdigit⟩ := hb
  simp only [isPassed, Bool.or_eq_false_iff]
  exact ⟨hquote, hstart, ⟨⟨⟨hspace, htab⟩, hfeed⟩, hreturn⟩, hdigit⟩

theorem not_of_isQuote {b : UInt8} (hb : b = '"' ∨ b = '\'') :
    isIdentStart b = false ∧ isNumberPart b = false ∧ isPassed b = false ∧ b ≠ '.' ∧ b ≠ '|' := by
  rcases hb with rfl | rfl <;> decide

theorem not_quote_of_isNumberPart {b : UInt8} (hb : isNumberPart b = true) :
    (b = '"' || b = '\'') = false := by
  refine Bool.eq_false_iff.2 fun hquote => ?_
  have hq : b = '"' ∨ b = '\'' := by simpa using hquote
  exact Bool.false_ne_true ((not_of_isQuote hq).2.1.symm.trans hb)

/-- A word is read up to the first byte that does not belong to it. -/
theorem read_word {p : UInt8 → Bool} {w more : Text} (hw : ∀ b ∈ w, p b = true)
    (hmore : ∀ b ∈ more.head?, p b = false) :
    (w ++ more).takeWhile p = w ∧ (w ++ more).dropWhile p = more := by
  rw [List.takeWhile_append_of_pos hw, List.dropWhile_append_of_pos hw]
  cases more with
  | nil => exact ⟨List.append_nil w, rfl⟩
  | cons b rest =>
    have hb := Bool.eq_false_iff.1 (hmore b rfl)
    rw [List.takeWhile_cons_of_neg hb, List.dropWhile_cons_of_neg hb, List.append_nil]
    exact ⟨rfl, rfl⟩

theorem head_dropWhile (p : UInt8 → Bool) (t : Text) : ∀ b ∈ (t.dropWhile p).head?, p b = false := by
  intro b hb
  have hstops := List.head?_dropWhile_not p t
  rwa [Option.mem_def.1 hb] at hstops

/-! ## Quoted texts -/

/-- A quoted text is read up to its closing quote. -/
theorem Quoted.takeWhile_content (q : Quoted) (rest : Text) :
    (q.content ++ q.quote :: rest).takeWhile (· ≠ q.quote) = q.content := by
  have hcontent : ∀ b ∈ q.content, decide (b ≠ q.quote) = true :=
    fun b hb => decide_eq_true (ne_of_mem_of_not_mem hb q.free)
  refine (read_word hcontent fun b hb => ?_).1
  obtain rfl := Option.some.inj hb
  simp

theorem Quoted.text_append (q : Quoted) (rest : Text) :
    q.text ++ rest = q.quote :: (q.content ++ q.quote :: rest) := by
  simp [Quoted.text]

theorem Quoted.length_text (q : Quoted) : q.text.length = q.content.length + 2 := by
  simp [Quoted.text]

/-- A quote with a partner behind it starts a quoted text. -/
theorem exists_quoted {b : UInt8} {rest : Text} (hb : b = '"' ∨ b = '\'') (hmem : b ∈ rest) :
    ∃ (q : Quoted) (more : Text), b :: rest = q.text ++ more := by
  obtain ⟨content, more, rfl, hfree⟩ := List.eq_append_cons_of_mem hmem
  have hcut := Quoted.text_append ⟨b, content, hb, hfree⟩ more
  exact ⟨_, more, hcut.symm⟩

/-! ## What is found in a piece -/

section Pieces

variable (before : Before) (offset : Nat)

/-- A quoted text holds no names. -/
theorem identsFrom_quoted (q : Quoted) (rest : Text) :
    identsFrom before offset (q.text ++ rest) = identsFrom .other (offset + q.text.length) rest := by
  have hquote : (decide (q.quote = '"') || decide (q.quote = '\'')) = true := by
    simpa using q.isQuote
  rw [q.text_append, identsFrom, if_pos hquote]
  dsimp only
  rw [q.takeWhile_content, if_pos (by simp), List.append_cons,
    List.drop_left' (by rw [List.length_append]; rfl), q.length_text, Nat.add_assoc]

/-- Nothing is found behind a quote without a partner. -/
theorem identsFrom_unclosed {b : UInt8} {content : Text} (hb : b = '"' ∨ b = '\'') (hfree : b ∉ content) :
    identsFrom before offset (b :: content) = [] := by
  have hquote : (decide (b = '"') || decide (b = '\'')) = true := by simpa using hb
  have hall : content.takeWhile (· ≠ b) = content :=
    List.takeWhile_eq_self_iff.2 fun c hc => decide_eq_true (ne_of_mem_of_not_mem hc hfree)
  rw [identsFrom, if_pos hquote]
  dsimp only
  rw [hall, if_neg (Nat.lt_irrefl _)]

/-- A name is found unless it follows a dot or a pipe, is a keyword, or is the key of an argument. -/
theorem identsFrom_name (n : Name) {more : Text} (hmore : ∀ b ∈ more.head?, isIdentPart b = false) :
    identsFrom before offset (n.text ++ more) =
      (if before = .other && !keywords.contains n.text && !beforeColon more then [⟨n.text, offset⟩] else []) ++
        identsFrom .other (offset + n.text.length) more := by
  have hquote : ¬ (decide (n.first = '"') || decide (n.first = '\'')) = true := by
    have hstarts := n.starts
    intro h
    rcases Bool.or_eq_true_iff.1 h with h | h <;>
      · rw [of_decide_eq_true h] at hstarts
        exact absurd hstarts (by decide)
  obtain ⟨htake, hdrop⟩ := read_word n.goesOn hmore
  rw [Name.text, List.cons_append, identsFrom, if_neg hquote, if_pos n.starts]
  dsimp only
  rw [htake, hdrop]

/-- A blank leaves no trace. -/
theorem identsFrom_blank {b : UInt8} (hb : isPassed b = true) (rest : Text) :
    identsFrom before offset (b :: rest) = identsFrom before (offset + 1) rest := by
  obtain ⟨hquote, hstart, -⟩ := not_of_isPassed hb
  rw [identsFrom, if_neg (Bool.eq_false_iff.1 hquote), if_neg (Bool.eq_false_iff.1 hstart)]
  exact if_pos hb

/-- A number goes on with the bytes of names and with dots. -/
theorem identsFrom_digit {b : UInt8} (hb : Text.isDigit b = true) (rest : Text) :
    identsFrom before offset (b :: rest) =
      identsFrom .other (offset + (b :: rest.takeWhile isNumberPart).length) (rest.dropWhile isNumberPart) := by
  obtain ⟨hquote, hstart, hblank⟩ := not_of_isDigit hb
  rw [isPassed] at hblank
  rw [identsFrom, if_neg (Bool.eq_false_iff.1 hquote), if_neg (Bool.eq_false_iff.1 hstart),
    if_neg (Bool.eq_false_iff.1 hblank), if_pos hb]
  rfl

/-- Of a byte that stands by itself it is remembered whether it is a dot or a pipe. -/
theorem identsFrom_mark {b : UInt8} (hb : isMark b = true) (rest : Text) :
    identsFrom before offset (b :: rest) =
      identsFrom (if b = '.' || b = '|' then .joint else .other) (offset + 1) rest := by
  obtain ⟨hquote, hstart, hblank, hdigit⟩ := not_of_isMark hb
  rw [isPassed] at hblank
  rw [identsFrom, if_neg (Bool.eq_false_iff.1 hquote), if_neg (Bool.eq_false_iff.1 hstart),
    if_neg (Bool.eq_false_iff.1 hblank), if_neg (Bool.eq_false_iff.1 hdigit)]

end Pieces

/-- **Every text is made of pieces**: what holds of the empty text and of a quote without a partner, and is kept
when a piece is put in front, holds of every text. -/
theorem reading_induction {P : Text → Prop} (nil : P [])
    (quoted : ∀ (q : Quoted) (rest : Text), P rest → P (q.text ++ rest))
    (unclosed : ∀ (b : UInt8) (content : Text), b = '"' ∨ b = '\'' → b ∉ content → P (b :: content))
    (name : ∀ (n : Name) (rest : Text), (∀ b ∈ rest.head?, isIdentPart b = false) → P rest → P (n.text ++ rest))
    (blank : ∀ (b : UInt8) (rest : Text), isPassed b = true → P rest → P (b :: rest))
    (digit : ∀ (b : UInt8) (rest : Text), Text.isDigit b = true → P (rest.dropWhile isNumberPart) → P (b :: rest))
    (mark : ∀ (b : UInt8) (rest : Text), isMark b = true → P rest → P (b :: rest)) (t : Text) : P t := by
  induction hn : t.length using Nat.strongRecOn generalizing t with
  | ind n ih =>
    have hshorter (u : Text) (hu : u.length < t.length) : P u := ih u.length (hn ▸ hu) u rfl
    cases t with
    | nil => exact nil
    | cons b rest =>
      have htail : P rest := hshorter rest (Nat.lt_succ_self _)
      by_cases hquote : b = '"' ∨ b = '\''
      · by_cases hclosed : b ∈ rest
        · obtain ⟨q, more, hcut⟩ := exists_quoted hquote hclosed
          rw [hcut] at hshorter ⊢
          refine quoted q more (hshorter more ?_)
          rw [List.length_append, q.length_text]
          omega
        · exact unclosed b rest hquote hclosed
      · by_cases hstart : isIdentStart b = true
        · have hcut : b :: rest = Name.text ⟨b, rest.takeWhile isIdentPart, hstart,
              fun c hc => List.mem_takeWhile_imp hc⟩ ++ rest.dropWhile isIdentPart :=
            congrArg (b :: ·) List.takeWhile_append_dropWhile.symm
          have hless : (rest.dropWhile isIdentPart).length < (b :: rest).length :=
            Nat.lt_succ_of_le (List.dropWhile_suffix _).length_le
          have hrest := hshorter _ hless
          rw [hcut]
          exact name _ _ (head_dropWhile isIdentPart rest) hrest
        · by_cases hblank : isPassed b = true
          · exact blank b rest hblank htail
          · by_cases hdigit : Text.isDigit b = true
            · exact digit b rest hdigit
                (hshorter _ (Nat.lt_succ_of_le (List.dropWhile_suffix _).length_le))
            · refine mark b rest ?_ htail
              simp only [isPassed, Bool.or_eq_true, decide_eq_true_eq, not_or] at hquote hblank
              simp [isMark, hquote, hstart, hblank, hdigit]

end Liquid
end LiquidLint
