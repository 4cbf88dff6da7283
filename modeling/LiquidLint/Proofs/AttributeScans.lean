import Mathlib.Data.List.TakeWhile
import LiquidLint.Markup.Attribute
import LiquidLint.Markup.Mask
import LiquidLint.Proofs.Trimming
import LiquidLint.Proofs.Utf8Text

/-!
# Scanning the attributes of a tag

The attributes of a tag are found by a recursion on what is left of the masked text.  Here the same scan is made
with a cursor, an offset that moves through the text (`Cursor.scan?`).  The cursor checks what it does: reading a
byte outside of the masked text fails, so does taking a piece of the source that is not inside it, and so does a
round that leaves the cursor where it was.

In a tag that stands inside both texts nothing of this happens, and the cursor finds the attributes
(`scan?_eq`).  The cursor and the rest of the text go in step: the cursor stands at the offset where the
rest starts (`At`).

What the cursor has found stands in the tag (`Cursor.scanFrom?_bounds`).  Each round starts where the one
before it stopped, so the attributes follow each other.
-/

namespace LiquidLint

/-- A text in lower case is empty only if the text is. -/
theorem Text.toLower_eq_nil_iff {t : Text} : toLower t = [] ↔ t = [] := by
  refine ⟨fun h => ?_, fun h => ?_⟩
  · cases t with
    | nil => rfl
    | cons b rest =>
      exfalso
      have hunits : units (b :: rest) ≠ [] := by
        rw [units]
        split
        · exact List.cons_ne_nil _ _
        · rename_i c more hnext
          have hlength := congrArg List.length (eq_append_of_nextChar? hnext)
          have hchar := List.length_pos_iff.2 (ofChar_ne_nil c)
          rw [List.length_append, List.length_cons] at hlength
          rw [if_pos (by omega)]
          exact List.cons_ne_nil _ _
      obtain ⟨u, us, hus⟩ := List.exists_cons_of_ne_nil hunits
      unfold toLower chars ofChars at h
      rw [hus, List.map_cons, List.map_cons, List.flatMap_cons] at h
      exact ofChar_ne_nil _ (List.append_eq_nil_iff.1 h).1
  · rw [h, toLower, chars, units]
    rfl

namespace Markup

/-! ## A cursor that checks what it reads -/

namespace Cursor

/-- The first place from the offset `i` on, before `stop`, with a byte that `q` accepts; `stop` if there is
none. -/
def seek? (q : UInt8 → Bool) (t : Text) (stop i : Nat) : Option Nat :=
  if i < stop then
    match t[i]? with
    | none => none
    | some b => if q b then some i else seek? q t stop (i + 1)
  else some i
termination_by stop - i

/-- The bytes from the offset `i` up to the offset `j`, which have to be in order and inside the text. -/
def piece? (t : Text) (i j : Nat) : Option Text :=
  if i ≤ j ∧ j ≤ t.length then some (Text.slice t i j) else none

/-- Where the value at the cursor starts and stops, and where the cursor goes on. -/
def value? (masked : Text) (stop i : Nat) : Option (Nat × Nat × Nat) :=
  if i < stop then
    match masked[i]? with
    | none => none
    | some q =>
      if q = '"' || q = '\'' then
        (seek? (fun b => b = q) masked stop (i + 1)).map fun k => (i + 1, k, min (k + 1) stop)
      else (seek? (fun b => isTagSpace b || b = '>') masked stop i).map fun k => (i, k, k)
  else some (i, i, i)

/-- The value of an attribute whose name stops at the cursor, and where the attribute stops. -/
def afterName? (masked src : Text) (stop i : Nat) : Option (Text × Nat) := do
  let j ← seek? (fun b => !isTagSpace b) masked stop i
  if j < stop then
    let c ← masked[j]?
    if c = '=' then
      let k ← seek? (fun b => !isTagSpace b) masked stop (j + 1)
      let (first, last, next) ← value? masked stop k
      let value ← piece? src first last
      return (value, next)
    else return ([], i)
  else return ([], i)

/-- The attribute whose name starts at the cursor. -/
def named? (masked src : Text) (stop i : Nat) : Option Attribute := do
  let nameStop ← seek? (fun b => endsTagName b || b = '=') masked stop i
  let name ← piece? src i nameStop
  let (value, next) ← afterName? masked src stop nameStop
  return ⟨Text.toLower name, value, i, next⟩

theorem named?_eq {masked src value : Text} {stop i nameStop next : Nat}
    (hname : seek? (fun b => endsTagName b || b = '=') masked stop i = some nameStop)
    (hinside : i ≤ nameStop ∧ nameStop ≤ src.length)
    (hvalue : afterName? masked src stop nameStop = some (value, next)) :
    named? masked src stop i = some ⟨Text.toLower (Text.slice src i nameStop), value, i, next⟩ := by
  unfold named?
  rw [hname]
  dsimp only [bind, Option.bind]
  rw [piece?, if_pos hinside]
  dsimp only
  rw [hvalue]
  rfl

/-- The next attribute, if the tag has one more. -/
def attribute? (masked src : Text) (stop i : Nat) : Option (Option Attribute) := do
  let start ← seek? (fun b => !(isTagSpace b || b = '/')) masked stop i
  if start < stop then
    let b ← masked[start]?
    if b = '>' then return none
    else
      let a ← named? masked src stop start
      return some a
  else return none

/-- The attributes from the cursor on.  A value without a name is skipped. -/
def scanFrom? (masked src : Text) (stop i : Nat) : Option (List Attribute) :=
  match attribute? masked src stop i with
  | none => none
  | some none => some []
  | some (some a) =>
    if i < a.stop ∧ a.stop ≤ stop then
      (scanFrom? masked src stop a.stop).map fun others => if a.name.isEmpty then others else a :: others
    else none
termination_by stop - i

/-- The attributes of the start tag from `start` to `stop`. -/
def scan? (masked src : Text) (start stop : Nat) : Option (List Attribute) := do
  let i ← seek? endsTagName masked stop (start + 1)
  scanFrom? masked src stop i

end Cursor

/-- A value and what follows it are parts of the text that the value starts. -/
theorem valueExtent_le (m : Text) :
    (valueExtent m).1 + (valueExtent m).2.1 + (valueExtent m).2.2.length ≤ m.length := by
  unfold valueExtent
  cases m with
  | nil => exact Nat.le_refl _
  | cons q rest =>
    dsimp only
    split
    · have hvalue := (List.takeWhile_prefix (l := rest) fun b => decide (b ≠ q)).length_le
      dsimp only
      rw [List.length_drop, List.length_cons]
      omega
    · have hvalue :=
        (List.takeWhile_prefix (l := q :: rest) fun b => !(isTagSpace b || decide (b = '>'))).length_le
      dsimp only
      rw [List.length_drop]
      omega

theorem valueExtent_suffix (m : Text) : (valueExtent m).2.2 <:+ m := by
  unfold valueExtent
  cases m with
  | nil => exact List.suffix_rfl
  | cons q rest =>
    dsimp only
    split
    · exact (List.drop_suffix ..).trans (List.suffix_cons ..)
    · exact List.drop_suffix ..

/-! ## The cursor and the rest of the text -/

/-- The cursor stands at the offset `i`, where the rest `m` of the text up to `stop` starts. -/
structure At (t : Text) (stop i : Nat) (m : Text) : Prop where
  inside : stop ≤ t.length
  le : i ≤ stop
  rest_eq : Text.slice t i stop = m

namespace At

variable {t : Text} {stop i : Nat} {m : Text}

theorem length_eq (h : At t stop i m) : i + m.length = stop := by
  have hle := h.le
  rw [← h.rest_eq, Text.length_slice h.inside]
  omega

/-- A rest tells where the cursor stands. -/
theorem eq_sub (h : At t stop i m) : i = stop - m.length := by
  have hlength := h.length_eq
  omega

theorem suffix (h : At t stop i m) {m' : Text} (hsuffix : m' <:+ m) : At t stop (stop - m'.length) m' := by
  obtain ⟨before, rfl⟩ := hsuffix
  have hlength := h.length_eq
  rw [List.length_append] at hlength
  have hslice := Text.slice_slice t (i := i) (j := stop) (x := before.length) (y := before.length + m'.length)
    (by omega)
  have hlast := Text.slice_append before m' []
  rw [List.append_nil] at hlast
  rw [h.rest_eq, hlast] at hslice
  have hstart : stop - m'.length = i + before.length := by omega
  have hstop : stop = i + (before.length + m'.length) := by omega
  refine ⟨h.inside, Nat.sub_le .., ?_⟩
  rw [hstart, hslice, ← hstop]

theorem lt_of_cons {b : UInt8} (h : At t stop i (b :: m)) : i < stop := by
  have hlength := h.length_eq
  rw [List.length_cons] at hlength
  omega

theorem eq_of_nil (h : At t stop i []) : i = stop := h.length_eq

/-- The byte at the cursor. -/
theorem getElem? {b : UInt8} (h : At t stop i (b :: m)) : t[i]? = some b := by
  have hlt := h.lt_of_cons
  have hfirst := congrArg (·[0]?) h.rest_eq
  dsimp only [Text.slice] at hfirst
  rw [List.getElem?_take_of_lt (by omega), List.getElem?_drop] at hfirst
  simpa using hfirst

theorem tail {b : UInt8} (h : At t stop i (b :: m)) : At t stop (i + 1) m := by
  have hrest := h.suffix (List.suffix_cons b m)
  have hlength := h.length_eq
  rw [List.length_cons] at hlength
  rwa [show stop - m.length = i + 1 by omega] at hrest

/-- **Seeking passes over what is not accepted.** -/
theorem seek? (h : At t stop i m) (q : UInt8 → Bool) :
    Cursor.seek? q t stop i = some (i + (m.takeWhile fun b => !q b).length) := by
  induction m generalizing i with
  | nil =>
    have hstop := h.eq_of_nil
    rw [Cursor.seek?, if_neg (by omega)]
    rfl
  | cons b m ih =>
    rw [Cursor.seek?, if_pos h.lt_of_cons, h.getElem?, List.takeWhile_cons]
    cases hq : q b with
    | true =>
      dsimp only
      rw [hq]
      rfl
    | false =>
      dsimp only
      rw [hq, if_neg Bool.false_ne_true, ih h.tail]
      simp only [Bool.not_false, if_true, List.length_cons]
      congr 1
      omega

/-- Behind what was passed over. -/
theorem dropWhile (h : At t stop i m) (p : UInt8 → Bool) :
    At t stop (i + (m.takeWhile p).length) (m.dropWhile p) := by
  have hrest := h.suffix (List.dropWhile_suffix p)
  have hlength := h.length_eq
  have hcut := congrArg List.length (List.takeWhile_append_dropWhile (p := p) (l := m))
  rw [List.length_append] at hcut
  rwa [show stop - (m.dropWhile p).length = i + (m.takeWhile p).length by omega] at hrest

/-- The value at the cursor. -/
theorem value? (h : At t stop i m) :
    Cursor.value? t stop i = some (i + (valueExtent m).1, i + (valueExtent m).1 + (valueExtent m).2.1,
      stop - (valueExtent m).2.2.length) := by
  unfold Cursor.value? valueExtent
  cases m with
  | nil =>
    have hstop := h.eq_of_nil
    rw [if_neg (by omega)]
    simp [hstop]
  | cons q rest =>
    rw [if_pos h.lt_of_cons, h.getElem?]
    dsimp only
    have hlength := h.length_eq
    rw [List.length_cons] at hlength
    by_cases hquote : (q = '"' || q = '\'') = true
    · have hseek := h.tail.seek? fun b => b = q
      have hsame : (fun b : UInt8 => !decide (b = q)) = fun b => decide (b ≠ q) :=
        funext fun b => decide_not.symm
      rw [hsame] at hseek
      have hvalue := (List.takeWhile_prefix (l := rest) fun b => decide (b ≠ q)).length_le
      rw [if_pos hquote, if_pos hquote, hseek]
      dsimp only [Option.map_some]
      rw [List.length_drop]
      refine congrArg some (Prod.ext rfl (Prod.ext rfl ?_))
      dsimp only
      omega
    · have hseek := h.seek? fun b => isTagSpace b || b = '>'
      have hvalue := (List.takeWhile_prefix (l := q :: rest) fun b => !(isTagSpace b || decide (b = '>'))).length_le
      rw [if_neg hquote, if_neg hquote, hseek]
      dsimp only [Option.map_some]
      rw [List.length_drop, List.length_cons]
      rw [List.length_cons] at hvalue
      refine congrArg some (Prod.ext rfl (Prod.ext rfl ?_))
      dsimp only
      omega

section Name

variable {src : Text} (hsrc : stop ≤ src.length)

/-- Nothing but blanks and other names follows a name that has no value. -/
theorem afterName?_of_head (h : At t stop i m) (hhead : (m.dropWhile isTagSpace).head? ≠ some ('=' : UInt8)) :
    Cursor.afterName? t src stop i = some ([], i) := by
  have hnext := h.dropWhile isTagSpace
  have hseek := h.seek? fun b => !isTagSpace b
  simp only [Bool.not_not] at hseek
  unfold Cursor.afterName?
  rw [hseek]
  dsimp only [bind, Option.bind]
  cases hrest : m.dropWhile isTagSpace with
  | nil =>
    rw [hrest] at hnext
    rw [if_neg (Nat.not_lt.2 (Nat.le_of_eq hnext.eq_of_nil.symm))]
    rfl
  | cons c more =>
    rw [hrest] at hnext hhead
    rw [if_pos hnext.lt_of_cons, hnext.getElem?]
    dsimp only
    rw [if_neg fun hc => hhead (congrArg some hc)]
    rfl

include hsrc in
/-- An equals sign is followed by a value. -/
theorem afterName?_of_equals (h : At t stop i m) {more : Text}
    (hmore : m.dropWhile isTagSpace = ('=' : UInt8) :: more) :
    let value := more.dropWhile isTagSpace
    let first := stop - value.length + (valueExtent value).1
    Cursor.afterName? t src stop i = some (Text.slice src first (first + (valueExtent value).2.1),
      stop - (valueExtent value).2.2.length) := by
  intro value first
  have hnext := h.dropWhile isTagSpace
  have hseek := h.seek? fun b => !isTagSpace b
  rw [hmore] at hnext
  have hvalue := hnext.tail.dropWhile isTagSpace
  have hseekValue := hnext.tail.seek? fun b => !isTagSpace b
  simp only [Bool.not_not] at hseek hseekValue
  have hlength := hvalue.length_eq
  have hinside := valueExtent_le (more.dropWhile isTagSpace)
  have hfirst := hvalue.eq_sub
  unfold Cursor.afterName?
  rw [hseek]
  dsimp only [bind, Option.bind]
  rw [if_pos hnext.lt_of_cons, hnext.getElem?]
  dsimp only
  rw [if_pos rfl, hseekValue]
  dsimp only
  rw [hvalue.value?]
  dsimp only
  rw [hfirst, Cursor.piece?, if_pos ⟨Nat.le_add_right .., by omega⟩]
  rfl

end Name

end At

/-! ## Round by round -/

section Rounds

variable {src : Text} {stop : Nat} {m rest afterName more : Text} {b : UInt8}

theorem attributesFrom_end (h : ∀ b ∈ (m.dropWhile fun b => isTagSpace b || b = '/').head?, b = '>') :
    attributesFrom src stop m = [] := by
  rw [attributesFrom]
  cases hrest : m.dropWhile fun b => isTagSpace b || b = '/' with
  | nil => rfl
  | cons b rest =>
    rw [hrest] at h
    exact if_pos (h b rfl)

/-- A name without a value. -/
theorem attributesFrom_bare (src : Text) (stop : Nat)
    (hrest : (m.dropWhile fun b => isTagSpace b || b = '/') = b :: rest)
    (hb : b ≠ '>') (hname : (b :: rest).dropWhile (fun b => !(endsTagName b || b = '=')) = afterName)
    (hhead : (afterName.dropWhile isTagSpace).head? ≠ some ('=' : UInt8))
    (hless : afterName.length < m.length) :
    attributesFrom src stop m =
      ⟨Text.toLower (Text.slice src (stop - (b :: rest).length) (stop - afterName.length)), [],
        stop - (b :: rest).length, stop - afterName.length⟩ :: attributesFrom src stop afterName := by
  rw [attributesFrom, hrest]
  dsimp only
  rw [if_neg hb, hname]
  cases hmore : afterName.dropWhile isTagSpace with
  | nil =>
    -- only blanks are left
    have hblank : (afterName.dropWhile fun b => isTagSpace b || b = '/') = [] :=
      List.dropWhile_eq_nil_iff.2 fun c hc => by
        rw [List.dropWhile_eq_nil_iff.1 hmore c hc]
        rfl
    rw [attributesFrom_end (by rw [hblank]; exact nofun)]
  | cons c more =>
    rw [hmore] at hhead
    dsimp only
    rw [if_neg fun hc => hhead (congrArg some hc), if_pos hless]

/-- A value, with the name before it if there is one. -/
theorem attributesFrom_valued (src : Text) (stop : Nat)
    (hrest : (m.dropWhile fun b => isTagSpace b || b = '/') = b :: rest)
    (hb : b ≠ '>') (hname : (b :: rest).dropWhile (fun b => !(endsTagName b || b = '=')) = afterName)
    (hmore : afterName.dropWhile isTagSpace = ('=' : UInt8) :: more)
    (hless : (valueExtent (more.dropWhile isTagSpace)).2.2.length < m.length) :
    let value := more.dropWhile isTagSpace
    let first := stop - value.length + (valueExtent value).1
    let after := (valueExtent value).2.2
    let a : Attribute :=
      ⟨Text.toLower (Text.slice src (stop - (b :: rest).length) (stop - afterName.length)),
        Text.slice src first (first + (valueExtent value).2.1), stop - (b :: rest).length,
        stop - after.length⟩
    attributesFrom src stop m =
      if a.name.isEmpty then attributesFrom src stop after else a :: attributesFrom src stop after := by
  rw [attributesFrom, hrest]
  dsimp only
  rw [if_neg hb, hname, hmore]
  dsimp only
  rw [if_pos rfl, if_pos hless]

end Rounds

/-- In a rest whose first name or equals sign starts `named`, the attribute `a` is the next one, and `after` follows
it. -/
structure IsNext (src : Text) (stop : Nat) (a : Attribute) (named after : Text) : Prop where
  shorter : after.length < named.length
  attributes_eq : ∀ m : Text, (m.dropWhile fun b => isTagSpace b || b = '/') = named →
    attributesFrom src stop m =
      if a.name.isEmpty then attributesFrom src stop after else a :: attributesFrom src stop after

namespace At

variable {masked src : Text} {stop i : Nat} {m : Text}

section Named

variable {b : UInt8} {rest afterName : Text} (h : At masked stop i (b :: rest)) (hsrc : stop ≤ src.length)
  (hb : b ≠ '>') (hname : (b :: rest).dropWhile (fun b => !(endsTagName b || b = '=')) = afterName)

include h hsrc hb hname

/-- The attribute at the cursor has no value, and it has a name. -/
theorem named?_bare (hgap : (isTagSpace b || b = '/') = false)
    (hhead : (afterName.dropWhile isTagSpace).head? ≠ some ('=' : UInt8)) :
    ∃ a after, Cursor.named? masked src stop i = some a ∧ At masked stop a.stop after ∧
      IsNext src stop a (b :: rest) after := by
  have hnext := h.dropWhile fun b => !(endsTagName b || b = '=')
  have hseek := h.seek? fun b => endsTagName b || b = '='
  have hstops := hnext.le
  rw [hname] at hnext
  -- the first byte belongs to the name
  have hfirst : (!(endsTagName b || b = '=')) = true := by
    have hequals : b ≠ '=' := by
      rintro rfl
      rw [← hname] at hhead
      exact hhead rfl
    unfold endsTagName
    simp [hgap, hb, hequals]
  have hless : afterName.length < (b :: rest).length := by
    rw [← hname, List.dropWhile_cons, if_pos hfirst, List.length_cons]
    exact Nat.lt_succ_of_le (List.dropWhile_suffix _).length_le
  have hlonger : i < i + ((b :: rest).takeWhile fun b => !(endsTagName b || b = '=')).length := by
    rw [List.takeWhile_cons, if_pos hfirst, List.length_cons]
    omega
  generalize i + ((b :: rest).takeWhile fun b => !(endsTagName b || b = '=')).length = nameStop at *
  have hnamed : Text.toLower (Text.slice src i nameStop) ≠ [] := by
    refine mt Text.toLower_eq_nil_iff.1 (List.ne_nil_of_length_pos ?_)
    rw [Text.length_slice (by omega)]
    omega
  refine ⟨_, afterName, Cursor.named?_eq hseek ⟨by omega, by omega⟩ (hnext.afterName?_of_head hhead), hnext,
    hless, fun m hrest => ?_⟩
  have hlonger := (hrest ▸ List.dropWhile_suffix (l := m) _ : b :: rest <:+ m).length_le
  have hround := attributesFrom_bare src stop hrest hb hname hhead (by omega)
  rw [← h.eq_sub, ← hnext.eq_sub] at hround
  rw [hround, if_neg fun hempty => hnamed (List.isEmpty_iff.1 hempty)]

/-- The attribute at the cursor has a value. -/
theorem named?_valued {more : Text} (hmore : afterName.dropWhile isTagSpace = ('=' : UInt8) :: more) :
    ∃ a after, Cursor.named? masked src stop i = some a ∧ At masked stop a.stop after ∧
      IsNext src stop a (b :: rest) after := by
  have hnext := h.dropWhile fun b => !(endsTagName b || b = '=')
  have hseek := h.seek? fun b => endsTagName b || b = '='
  have hstops := hnext.le
  rw [hname] at hnext
  -- each part is a part of what was left before it
  have hafter : (valueExtent (more.dropWhile isTagSpace)).2.2 <:+ more :=
    (valueExtent_suffix _).trans (List.dropWhile_suffix isTagSpace)
  have hequals : ('=' : UInt8) :: more <:+ afterName := hmore ▸ List.dropWhile_suffix isTagSpace
  have hbehind : afterName <:+ b :: rest := hname ▸ List.dropWhile_suffix _
  have hless : (valueExtent (more.dropWhile isTagSpace)).2.2.length < (b :: rest).length := by
    have hlast := hafter.length_le
    have hmiddle := hequals.length_le
    have hfirst := hbehind.length_le
    rw [List.length_cons] at hmiddle
    omega
  refine ⟨_, _, Cursor.named?_eq hseek ⟨Nat.le_add_right .., by omega⟩ (hnext.afterName?_of_equals hsrc hmore),
    hnext.suffix ((hafter.trans (List.suffix_cons ..)).trans hequals), hless,
    fun m hrest => ?_⟩
  have hlonger := (hrest ▸ List.dropWhile_suffix (l := m) _ : b :: rest <:+ m).length_le
  have hround := attributesFrom_valued src stop hrest hb hname hmore (by omega)
  dsimp only at hround
  rwa [← h.eq_sub, ← hnext.eq_sub] at hround

/-- **The attribute at the cursor is the next one.** -/
theorem named? (hgap : (isTagSpace b || b = '/') = false) :
    ∃ a after, Cursor.named? masked src stop i = some a ∧ At masked stop a.stop after ∧
      IsNext src stop a (b :: rest) after := by
  cases hmore : afterName.dropWhile isTagSpace with
  | nil => exact h.named?_bare hsrc hb hname hgap (by rw [hmore]; exact nofun)
  | cons c more =>
    by_cases hc : c = '='
    · exact h.named?_valued hsrc hb hname (hc ▸ hmore)
    · exact h.named?_bare hsrc hb hname hgap (by rw [hmore]; exact fun h => hc (Option.some.inj h))

end Named

/-- **One round of the scan**: it ends, or the cursor finds the next attribute and stands behind it. -/
theorem attribute? (h : At masked stop i m) (hsrc : stop ≤ src.length) :
    (Cursor.attribute? masked src stop i = some none ∧ attributesFrom src stop m = []) ∨
      ∃ a after, Cursor.attribute? masked src stop i = some (some a) ∧ At masked stop a.stop after ∧
        IsNext src stop a (m.dropWhile fun b => isTagSpace b || b = '/') after := by
  have hstart := h.dropWhile fun b => isTagSpace b || b = '/'
  have hseek := h.seek? fun b => !(isTagSpace b || b = '/')
  simp only [Bool.not_not] at hseek
  have hgap := List.head?_dropWhile_not (fun b => isTagSpace b || b = '/') m
  unfold Cursor.attribute?
  rw [hseek]
  dsimp only [bind, Option.bind]
  cases hrest : m.dropWhile fun b => isTagSpace b || b = '/' with
  | nil =>
    rw [hrest] at hstart
    refine .inl ⟨?_, attributesFrom_end (by rw [hrest]; exact nofun)⟩
    rw [if_neg (Nat.not_lt.2 (Nat.le_of_eq hstart.eq_of_nil.symm))]
    rfl
  | cons b rest =>
    rw [hrest] at hstart hgap
    rw [if_pos hstart.lt_of_cons, hstart.getElem?]
    dsimp only
    by_cases hb : b = '>'
    · rw [if_pos hb]
      exact .inl ⟨rfl, attributesFrom_end (by rw [hrest]; exact fun c hc => Option.some.inj hc ▸ hb)⟩
    · obtain ⟨a, after, hfound, hafter, hnext⟩ := hstart.named? hsrc hb rfl hgap
      rw [if_neg hb, hfound]
      exact .inr ⟨a, after, rfl, hafter, hnext⟩

/-- **The whole scan**: the cursor moves on in every round and never leaves the texts. -/
theorem scanFrom? (h : At masked stop i m) (hsrc : stop ≤ src.length) :
    Cursor.scanFrom? masked src stop i = some (attributesFrom src stop m) := by
  induction hn : m.length using Nat.strongRecOn generalizing i m with
  | ind n ih =>
    rw [Cursor.scanFrom?]
    rcases h.attribute? hsrc with ⟨hround, hend⟩ | ⟨a, after, hround, hafter, hnext⟩
    · rw [hround, hend]
    · have hless := Nat.lt_of_lt_of_le hnext.shorter (List.dropWhile_suffix _).length_le
      have hlength := h.length_eq
      have hbehind := hafter.length_eq
      rw [hround, hnext.attributes_eq m rfl]
      dsimp only
      rw [if_pos (by omega), ih _ (hn ▸ hless) hafter rfl, Option.map_some]

end At

/-- Before the end of the tag there is nothing to read. -/
theorem attributes_of_le {masked src : Text} {start stop : Nat} (h : stop ≤ start + 1) :
    attributes masked src start stop = [] := by
  unfold attributes Text.slice
  rw [Nat.sub_eq_zero_of_le h, List.take_zero, List.dropWhile_nil, attributesFrom_end (by exact nofun)]

/-- **The cursor finds the attributes**, in any tag that stands inside both texts. -/
theorem scan?_eq {masked src : Text} (hmasked : masked.length = src.length) (start : Nat) {stop : Nat}
    (hstop : stop ≤ src.length) :
    Cursor.scan? masked src start stop = some (attributes masked src start stop) := by
  by_cases hstart : start + 1 ≤ stop
  · have hbehind : At masked stop (start + 1) (Text.slice masked (start + 1) stop) :=
      ⟨by omega, hstart, rfl⟩
    unfold Cursor.scan? attributes
    rw [hbehind.seek?]
    exact (hbehind.dropWhile _).scanFrom? hstop
  · rw [attributes_of_le (by omega), Cursor.scan?, Cursor.seek?, if_neg (by omega)]
    show Cursor.scanFrom? masked src stop (start + 1) = _
    rw [Cursor.scanFrom?, Cursor.attribute?, Cursor.seek?, if_neg (by omega)]
    dsimp only [bind, Option.bind]
    rw [if_neg (by omega)]
    rfl

/-! ## What the cursor finds -/

/-- The name and the value of the attribute are read off the source inside its span. -/
structure Attribute.ReadFrom (src : Text) (a : Attribute) : Prop where
  /-- The name is the text that the span starts with, in lower case. -/
  name : ∃ n, a.start + n ≤ a.stop ∧ a.name = Text.toLower (Text.slice src a.start (a.start + n))
  /-- The value is a piece of the span. -/
  value : ∃ i j, a.start ≤ i ∧ i ≤ j ∧ j ≤ a.stop ∧ a.value = Text.slice src i j

namespace Cursor

variable {masked src : Text} {stop i : Nat}

theorem seek?_bounds {q : UInt8 → Bool} {t : Text} {k : Nat} (hi : i ≤ stop)
    (h : seek? q t stop i = some k) : i ≤ k ∧ k ≤ stop := by
  fun_induction seek? q t stop i with
  | case1 i hlt hnone => cases h
  | case2 i hlt b hb hq =>
    obtain rfl := Option.some.inj h
    exact ⟨Nat.le_refl _, hi⟩
  | case3 i hlt b hb hq ih =>
    have hrest := ih hlt h
    exact ⟨by omega, hrest.2⟩
  | case4 i hstop =>
    obtain rfl := Option.some.inj h
    exact ⟨Nat.le_refl _, hi⟩

theorem piece?_eq_some {t piece : Text} {j : Nat} (h : piece? t i j = some piece) :
    i ≤ j ∧ piece = Text.slice t i j := by
  unfold piece? at h
  split at h
  · exact ⟨‹_ ∧ _›.1, (Option.some.inj h).symm⟩
  · cases h

theorem value?_bounds {first last next : Nat} (hi : i ≤ stop)
    (h : value? masked stop i = some (first, last, next)) :
    i ≤ first ∧ first ≤ last ∧ last ≤ next ∧ next ≤ stop := by
  unfold value? at h
  split at h
  · rename_i hlt
    split at h
    · cases h
    · split at h
      · obtain ⟨k, hseek, hk⟩ := Option.map_eq_some_iff.1 h
        cases hk
        have hbounds := seek?_bounds hlt hseek
        omega
      · obtain ⟨k, hseek, hk⟩ := Option.map_eq_some_iff.1 h
        cases hk
        have hbounds := seek?_bounds hi hseek
        omega
  · cases h
    omega

theorem afterName?_bounds {value : Text} {next : Nat} (hi : i ≤ stop)
    (h : afterName? masked src stop i = some (value, next)) :
    next ≤ stop ∧ ∃ first last, i ≤ first ∧ first ≤ last ∧ last ≤ next ∧ value = Text.slice src first last := by
  -- without an equals sign the attribute stops behind its name
  have hnone (h : some (([] : Text), i) = some (value, next)) : next ≤ stop ∧ ∃ first last, i ≤ first ∧
      first ≤ last ∧ last ≤ next ∧ value = Text.slice src first last := by
    cases h
    refine ⟨hi, i, i, Nat.le_refl _, Nat.le_refl _, Nat.le_refl _, ?_⟩
    rw [Text.slice, Nat.sub_self, List.take_zero]
  unfold afterName? at h
  obtain ⟨j, hj, h⟩ := Option.bind_eq_some_iff.1 h
  have hbefore := seek?_bounds hi hj
  split at h
  · obtain ⟨c, -, h⟩ := Option.bind_eq_some_iff.1 h
    split at h
    · obtain ⟨k, hk, h⟩ := Option.bind_eq_some_iff.1 h
      obtain ⟨⟨first, last, after⟩, hvalue, h⟩ := Option.bind_eq_some_iff.1 h
      obtain ⟨piece, hpiece, h⟩ := Option.bind_eq_some_iff.1 h
      cases h
      have hequals := seek?_bounds (by omega) hk
      have hbounds := value?_bounds hequals.2 hvalue
      exact ⟨hbounds.2.2.2, first, last, by omega, hbounds.2.1, hbounds.2.2.1, (piece?_eq_some hpiece).2⟩
    · exact hnone h
  · exact hnone h

theorem named?_bounds {a : Attribute} (hi : i ≤ stop) (h : named? masked src stop i = some a) :
    a.start = i ∧ a.stop ≤ stop ∧ a.ReadFrom src := by
  unfold named? at h
  obtain ⟨nameStop, hname, h⟩ := Option.bind_eq_some_iff.1 h
  obtain ⟨piece, hpiece, h⟩ := Option.bind_eq_some_iff.1 h
  obtain ⟨⟨value, next⟩, hafter, h⟩ := Option.bind_eq_some_iff.1 h
  cases h
  have hbounds := seek?_bounds hi hname
  obtain ⟨hle, rfl⟩ := piece?_eq_some hpiece
  obtain ⟨hnext, first, last, hfirst, hlast, hstop, hvalue⟩ := afterName?_bounds hbounds.2 hafter
  have hcut : i + (nameStop - i) = nameStop := by omega
  refine ⟨rfl, hnext, ⟨nameStop - i, ?_, ?_⟩, first, last, ?_, hlast, hstop, hvalue⟩
  · dsimp only
    omega
  · dsimp only
    rw [hcut]
  · dsimp only
    omega

theorem attribute?_bounds {a : Attribute} (hi : i ≤ stop)
    (h : attribute? masked src stop i = some (some a)) :
    i ≤ a.start ∧ a.stop ≤ stop ∧ a.ReadFrom src := by
  unfold attribute? at h
  obtain ⟨start, hstart, h⟩ := Option.bind_eq_some_iff.1 h
  have hbounds := seek?_bounds hi hstart
  split at h
  · obtain ⟨b, -, h⟩ := Option.bind_eq_some_iff.1 h
    split at h
    · cases h
    · obtain ⟨a', hnamed, h⟩ := Option.bind_eq_some_iff.1 h
      cases h
      obtain ⟨rfl, hstop, hread⟩ := named?_bounds hbounds.2 hnamed
      exact ⟨hbounds.1, hstop, hread⟩
  · cases h

/-- **What the cursor finds stands behind it, each attribute behind the one before.** -/
theorem scanFrom?_bounds {as : List Attribute} (hi : i ≤ stop) (h : scanFrom? masked src stop i = some as) :
    (∀ a ∈ as, a.name ≠ [] ∧ i ≤ a.start ∧ a.start < a.stop ∧ a.stop ≤ stop ∧ a.ReadFrom src) ∧
      as.Pairwise fun a b => a.stop ≤ b.start := by
  fun_induction scanFrom? masked src stop i generalizing as with
  | case1 i hfound => cases h
  | case2 i hfound =>
    cases h
    exact ⟨fun _ hnone => absurd hnone List.not_mem_nil, .nil⟩
  | case3 i a hfound hbounds ih =>
    obtain ⟨others, hothers, rfl⟩ := Option.map_eq_some_iff.1 h
    obtain ⟨hstart, hstop, hread⟩ := attribute?_bounds hi hfound
    obtain ⟨hbehind, hpairwise⟩ := ih hbounds.2 hothers
    have hfurther (b : Attribute) (hb : b ∈ others) : b.name ≠ [] ∧ i ≤ b.start ∧ b.start < b.stop ∧
        b.stop ≤ stop ∧ b.ReadFrom src := by
      obtain ⟨hname, hle, hrest⟩ := hbehind b hb
      exact ⟨hname, by omega, hrest⟩
    by_cases hname : a.name.isEmpty = true
    · rw [if_pos hname]
      exact ⟨hfurther, hpairwise⟩
    · rw [if_neg hname]
      have hne : a.name ≠ [] := fun hnil => hname (List.isEmpty_iff.2 hnil)
      have hlt : a.start < a.stop := by
        obtain ⟨n, hn, heq⟩ := hread.name
        refine Nat.lt_of_lt_of_le (Nat.lt_add_of_pos_right (Nat.pos_of_ne_zero ?_)) hn
        rintro rfl
        rw [Nat.add_zero, Text.slice, Nat.sub_self, List.take_zero] at heq
        exact hne (heq.trans (Text.toLower_eq_nil_iff.2 rfl))
      refine ⟨List.forall_mem_cons.2 ⟨⟨hne, hstart, hlt, hstop, hread⟩, hfurther⟩,
        List.pairwise_cons.2 ⟨fun b hb => (hbehind b hb).2.1, hpairwise⟩⟩
  | case4 i a hfound hbounds => cases h

end Cursor

/-- **Scanning the attributes of a tag is safe, and finds them in order.**  In a tag that stands inside a source
and its mask, a cursor that fails when it reads outside of the mask, takes a piece that is not inside the source
or makes a round without moving on finds the attributes.  Each has a name.  Their spans stand behind the start of
the tag and stop at its end at the latest, and each starts where the one before it stops or later.  A name is the
text at the start of the span in lower case, and a value is a piece of the source inside the span. -/
theorem attributes_in_order {masked src : Text} {start stop : Nat} (hmasked : masked.length = src.length)
    (hstop : stop ≤ src.length) :
    Cursor.scan? masked src start stop = some (attributes masked src start stop) ∧
      (∀ a ∈ attributes masked src start stop, a.name ≠ [] ∧ start < a.start ∧ a.start < a.stop ∧
        a.stop ≤ stop ∧ a.ReadFrom src) ∧
      (attributes masked src start stop).Pairwise fun a b => a.stop ≤ b.start := by
  have hscan := scan?_eq hmasked start hstop
  refine ⟨hscan, ?_⟩
  by_cases hstart : start + 1 ≤ stop
  · obtain ⟨i, hi, hfrom⟩ := Option.bind_eq_some_iff.1 hscan
    have hbounds := Cursor.seek?_bounds hstart hi
    obtain ⟨hread, hpairwise⟩ := Cursor.scanFrom?_bounds hbounds.2 hfrom
    refine ⟨fun a ha => ?_, hpairwise⟩
    obtain ⟨hname, hbehind, hrest⟩ := hread a ha
    exact ⟨hname, by omega, hrest⟩
  · rw [attributes_of_le (by omega)]
    exact ⟨fun _ hnone => absurd hnone List.not_mem_nil, .nil⟩

/-- A tag with a value without a name, a name without a value, a value that is a variable, and a quote that is not
closed. -/
def brokenTag : Text := "<A ='x' B/Href=\x7b\x7bu\x7d\x7d c='d"

/-- The value without a name is skipped, and the open quote reaches the end of the tag. -/
theorem attributes_in_order_broken :
    (mask brokenTag).length = brokenTag.length ∧ 25 ≤ brokenTag.length ∧
      attributes (mask brokenTag) brokenTag 0 25 =
        [⟨"b", [], 8, 9⟩, ⟨"href", "\x7b\x7bu\x7d\x7d", 10, 20⟩, ⟨"c", "d", 21, 25⟩] ∧
      Cursor.scan? (mask brokenTag) brokenTag 0 25 = some (attributes (mask brokenTag) brokenTag 0 25) ∧
      (attributes (mask brokenTag) brokenTag 0 25).Pairwise fun a b => a.stop ≤ b.start := by
  have hmasked : (mask brokenTag).length = brokenTag.length := by decide +kernel
  have hstop : 25 ≤ brokenTag.length := by decide
  have hscan := @attributes_in_order _ _ 0 _ hmasked hstop
  exact ⟨hmasked, hstop, by decide +kernel, hscan.1, hscan.2.2⟩

end Markup
end LiquidLint
