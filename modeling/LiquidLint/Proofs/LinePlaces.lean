import LiquidLint.Proofs.EditScript
import LiquidLint.Proofs.Trimming
import LiquidLint.Source.File

/-!
# Offsets, lines and columns

The line table of a source divides it: its lines hold no line feed, exactly one line feed stands between two
of them, and the last one ends with the source (`Divides`).  The inductive description follows the table line
by line, and so do the facts about places.

Every offset up to the length of the source stands in one line, and the line feeds before the offset count the
lines before that one (`Divides.exists_line`).  A line feed itself stands at the end of the line before it.
Since lines that come later start later, the first line that reaches an offset is the one that the offset
stands in (`Divides.positionIn_eq`), and looking for it by halving the table finds it as well
(`Divides.search_eq`).  So going from offsets to lines and columns and going back undo each other, and both keep
the order (`places_inverse`).
-/

namespace LiquidLint

namespace Text

theorem slice_cons {t : Text} {i k : Nat} {b : UInt8} (hb : t[i]? = some b) (hik : i < k) :
    slice t i k = b :: slice t (i + 1) k := by
  obtain ⟨hi, rfl⟩ := List.getElem?_eq_some_iff.1 hb
  have hsum : k - i = (k - (i + 1)) + 1 := by omega
  unfold slice
  rw [List.drop_eq_getElem_cons hi, hsum, List.take_succ_cons]

end Text

namespace Source

/-! ## Search by halving -/

/-- The first number from `lo` on at which `p` holds, as far as `hi`: the half that has it is searched. -/
def search (p : Nat → Bool) (lo hi : Nat) : Nat :=
  if lo < hi then
    if p ((lo + hi) / 2) then search p lo ((lo + hi) / 2) else search p ((lo + hi) / 2 + 1) hi
  else lo
termination_by hi - lo

/-- **Halving finds where `p` starts to hold**, when it goes on to hold from there. -/
theorem search_eq {p : Nat → Bool} {lo hi k : Nat} (hlo : lo ≤ k) (hhi : k ≤ hi)
    (hbefore : ∀ i, i < k → p i = false) (hbehind : ∀ i, k ≤ i → i < hi → p i = true) :
    search p lo hi = k := by
  fun_induction search p lo hi with
  | case1 lo hi hlt hmid ih =>
    have hk : k ≤ (lo + hi) / 2 := by
      refine Nat.le_of_not_lt fun hlater => ?_
      rw [hbefore _ hlater] at hmid
      exact Bool.false_ne_true hmid
    exact ih hlo hk fun i hi' hmid' => hbehind i hi' (by omega)
  | case2 lo hi hlt hmid ih =>
    have hk : (lo + hi) / 2 < k :=
      Nat.lt_of_not_le fun hearlier => hmid (hbehind _ hearlier (by omega))
    exact ih hk hhi hbehind
  | case3 lo hi hlt => omega

/-! ## What the line table says -/

/-- The spans are the lines of a source from an offset on. -/
inductive Divides (source : Text) : Nat → List Span → Prop
  /-- The last line ends with the source. -/
  | last {start : Nat} (hstart : start ≤ source.length)
      (hplain : ('\n' : UInt8) ∉ Text.slice source start source.length) :
      Divides source start [⟨start, source.length⟩]
  /-- Any other line ends at a line feed, and the next line starts behind that one. -/
  | line {start stop : Nat} {rest : List Span} (hstart : start ≤ stop)
      (hplain : ('\n' : UInt8) ∉ Text.slice source start stop)
      (hfeed : source[stop]? = some ('\n' : UInt8)) (hrest : Divides source (stop + 1) rest) :
      Divides source start (⟨start, stop⟩ :: rest)

/-- Of a source that was read up to the middle of a line, the table has that line and the ones after it. -/
theorem divides_linesFrom (before current rest : Text) (hplain : ('\n' : UInt8) ∉ current) :
    Divides (before ++ (current ++ rest)) before.length
      (linesFrom before.length (before.length + current.length) rest) := by
  have hslice := Text.slice_append before current rest
  induction rest generalizing before current with
  | nil =>
    have hlength : before.length + current.length = (before ++ (current ++ [])).length := by simp
    rw [hlength] at hslice
    rw [linesFrom, hlength]
    exact .last (by omega) (by rwa [hslice])
  | cons b rest ih =>
    rw [linesFrom]
    by_cases hb : b = '\n'
    · rw [if_pos hb]
      refine .line (Nat.le_add_right ..) (by rwa [hslice]) ?_ ?_
      · simp [hb]
      · have hrest := ih (before ++ (current ++ [b])) [] List.not_mem_nil (Text.slice_append _ _ _)
        simpa [← Nat.add_assoc] using hrest
    · rw [if_neg hb]
      have hmore : ('\n' : UInt8) ∉ current ++ [b] := by
        simpa [hplain] using Ne.symm hb
      have hrest := ih before (current ++ [b]) hmore (Text.slice_append _ _ _)
      simpa [← Nat.add_assoc] using hrest

/-- **The line table divides the source.** -/
theorem divides_lineTable (source : Text) : Divides source 0 (lineTable source) :=
  divides_linesFrom [] [] source List.not_mem_nil

namespace Divides

variable {source : Text} {start o : Nat} {lines : List Span}

/-- A line stands behind the start, and inside the source. -/
theorem bounds (h : Divides source start lines) {l : Span} (hl : l ∈ lines) :
    start ≤ l.start ∧ l.start ≤ l.stop ∧ l.stop ≤ source.length := by
  induction h with
  | last hstart =>
    obtain rfl := List.mem_singleton.1 hl
    exact ⟨Nat.le_refl _, hstart, Nat.le_refl _⟩
  | line hstart _ hfeed _ ih =>
    rcases List.mem_cons.1 hl with rfl | hl
    · have hstop := (List.getElem?_eq_some_iff.1 hfeed).1
      exact ⟨Nat.le_refl _, hstart, by dsimp only; omega⟩
    · have hrest := ih hl
      exact ⟨by omega, hrest.2⟩

/-- **The line feeds before an offset count the lines before its own.** -/
theorem exists_line (h : Divides source start lines) (hstart : start ≤ o) (ho : o ≤ source.length) :
    ∃ l, lines[(Text.slice source start o).count ('\n' : UInt8)]? = some l ∧ l.start ≤ o ∧ o ≤ l.stop := by
  -- as long as the line goes on there are none
  have hnone {i j : Nat} (hi : i ≤ o) (hj : o ≤ j) (hplain : ('\n' : UInt8) ∉ Text.slice source i j) :
      (Text.slice source i o).count ('\n' : UInt8) = 0 := by
    refine List.count_eq_zero.2 fun hmem => hplain ?_
    rw [Text.slice_split source hi hj]
    exact List.mem_append_left _ hmem
  induction h with
  | last _ hplain => exact ⟨_, by rw [hnone hstart ho hplain]; rfl, hstart, ho⟩
  | @line start stop rest hle hplain hfeed hrest ih =>
    by_cases hstop : o ≤ stop
    · exact ⟨_, by rw [hnone hstart hstop hplain]; rfl, hstart, hstop⟩
    · obtain ⟨l, hl, hbounds⟩ := ih (by omega)
      have hcount : (Text.slice source start o).count ('\n' : UInt8) =
          (Text.slice source (stop + 1) o).count ('\n' : UInt8) + 1 := by
        rw [Text.slice_split source hle (Nat.le_of_not_le hstop),
          Text.slice_cons hfeed (Nat.lt_of_not_le hstop), List.count_append,
          List.count_eq_zero.2 hplain, List.count_cons_self, Nat.zero_add]
      exact ⟨l, by rw [hcount, List.getElem?_cons_succ, hl], hbounds⟩

/-- Lines that come later start behind the ones before them. -/
theorem pairwise (h : Divides source start lines) : lines.Pairwise fun l l' => l.stop < l'.start := by
  induction h with
  | last => exact List.pairwise_singleton ..
  | line _ _ _ hrest ih => exact List.pairwise_cons.2 ⟨fun l hl => (hrest.bounds hl).1, ih⟩

/-- Halving the table finds the line that an offset stands in. -/
theorem search_eq (h : Divides source start lines) {i : Nat} {l : Span} (hl : lines[i]? = some l)
    (hstart : l.start ≤ o) (hstop : o ≤ l.stop) :
    search (fun j => o ≤ (lines.getD j ⟨0, 0⟩).stop) 0 lines.length = i := by
  obtain ⟨hi, rfl⟩ := List.getElem?_eq_some_iff.1 hl
  have hapart := List.pairwise_iff_getElem.1 h.pairwise
  have hline {j : Nat} (hj : j < lines.length) : lines.getD j ⟨0, 0⟩ = lines[j] := by
    rw [List.getD_eq_getElem?_getD, List.getElem?_eq_getElem hj]
    rfl
  refine Source.search_eq (Nat.zero_le i) (Nat.le_of_lt hi) (fun j hj => ?_) fun j hij hj => ?_
  · have hbefore := hapart j i (by omega) hi hj
    rw [hline (by omega)]
    exact decide_eq_false (by omega)
  · rw [hline hj]
    rcases Nat.lt_or_eq_of_le hij with hlater | rfl
    · have hbehind := hapart i j hi hj hlater
      have hplaced := (h.bounds (List.getElem_mem hj)).2.1
      exact decide_eq_true (by omega)
    · exact decide_eq_true hstop

/-- The first line that reaches an offset is the one that it stands in. -/
theorem findIdx_eq (h : Divides source start lines) {i : Nat} {l : Span} (hl : lines[i]? = some l)
    (hstart : l.start ≤ o) (hstop : o ≤ l.stop) : (lines.findIdx fun l => o ≤ l.stop) = i := by
  induction h generalizing i with
  | @last start =>
    obtain ⟨hi, heq⟩ := List.getElem?_eq_some_iff.1 hl
    obtain rfl : i = 0 := Nat.lt_one_iff.1 hi
    obtain rfl : (⟨start, source.length⟩ : Span) = l := heq
    rw [List.findIdx_cons, decide_eq_true hstop]
    rfl
  | @line start stop rest hle hplain hfeed hrest ih =>
    rw [List.findIdx_cons]
    cases i with
    | zero =>
      obtain rfl := Option.some.inj hl
      rw [decide_eq_true hstop]
      rfl
    | succ i =>
      rw [List.getElem?_cons_succ] at hl
      have hlater := (hrest.bounds (List.mem_of_getElem? hl)).1
      rw [decide_eq_false (by dsimp only; omega), ih hl]
      rfl

/-- **The place of an offset** is told by the line that it stands in. -/
theorem positionIn_eq (h : Divides source start lines) {i : Nat} {l : Span} (hl : lines[i]? = some l)
    (hstart : l.start ≤ o) (hstop : o ≤ l.stop) :
    positionIn lines o = { offset := o, line := i, column := o - l.start } := by
  unfold positionIn
  rw [h.findIdx_eq hl hstart hstop]
  dsimp only
  rw [List.getD_eq_getElem?_getD, hl]
  rfl

end Divides

/-- A column of a line stands so far behind its start. -/
theorem offsetIn_eq {lines : List Span} {i column : Nat} {l : Span} (hl : lines[i]? = some l)
    (hcolumn : column ≤ l.length) : offsetIn lines i column = l.start + column := by
  have hi := (List.getElem?_eq_some_iff.1 hl).1
  unfold offsetIn
  rw [clamp_natCast (Nat.zero_le _) (by omega), List.getD_eq_getElem?_getD, hl]
  exact congrArg (l.start + ·) (clamp_natCast (Nat.zero_le _) hcolumn)

end Source

open Source

namespace SourceFile

variable {f : SourceFile}

/-- **Where an offset stands**: it is moved into the source, the line feeds before it count its line, and its
column counts from where that line starts. -/
theorem position_spec (hlines : f.lines = lineTable f.source) (offset : Int) :
    ∃ (o : Nat) (l : Span), (o : Int) = max 0 (min offset f.source.length) ∧
      f.lines[(f.source.take o).count ('\n' : UInt8)]? = some l ∧ l.start ≤ o ∧ o ≤ l.stop ∧
        f.position offset =
          { offset := o, line := (f.source.take o).count ('\n' : UInt8), column := o - l.start } := by
  have hdivides := hlines ▸ divides_lineTable f.source
  have hmoved := clamp_eq offset (Nat.zero_le f.source.length)
  have ho : clamp offset 0 f.source.length ≤ f.source.length := by omega
  obtain ⟨l, hl, hstart, hstop⟩ := hdivides.exists_line (Nat.zero_le _) ho
  have hslice (o : Nat) : Text.slice f.source 0 o = f.source.take o := rfl
  rw [hslice] at hl
  exact ⟨_, l, hmoved, hl, hstart, hstop, hdivides.positionIn_eq hl hstart hstop⟩

/-- Halving the table of a file finds as many lines before an offset as there are line feeds. -/
theorem search_lines (hlines : f.lines = lineTable f.source) {o : Nat} (ho : o ≤ f.source.length) :
    search (fun i => o ≤ (f.lines.getD i ⟨0, 0⟩).stop) 0 f.lines.length =
      (f.source.take o).count ('\n' : UInt8) := by
  have hdivides := hlines ▸ divides_lineTable f.source
  obtain ⟨o', l, hmoved, hl, hstart, hstop, -⟩ := position_spec hlines o
  obtain rfl : o' = o := by omega
  exact hdivides.search_eq hl hstart hstop

/-- An offset is found again from its line and column. -/
theorem offset_position (hlines : f.lines = lineTable f.source) {o : Nat} (ho : o ≤ f.source.length) :
    f.offset (f.position o).line (f.position o).column = o := by
  obtain ⟨o', l, hmoved, hl, hstart, hstop, hposition⟩ := position_spec hlines o
  obtain rfl : o' = o := by omega
  have hcolumn : ((o' : Int) - l.start) = ((o' - l.start : Nat) : Int) := by omega
  rw [hposition]
  dsimp only
  rw [hcolumn, SourceFile.offset, offsetIn_eq hl (Nat.sub_le_sub_right hstop _), Nat.add_sub_cancel' hstart]

/-- A line and a column are found again from their offset. -/
theorem position_offset (hlines : f.lines = lineTable f.source) {i column : Nat} {l : Span}
    (hl : f.lines[i]? = some l) (hcolumn : column ≤ l.length) :
    f.position (f.offset i column) = { offset := (l.start + column : Nat), line := i, column } := by
  have hdivides := hlines ▸ divides_lineTable f.source
  obtain ⟨-, hle, hstop⟩ := hdivides.bounds (List.mem_of_getElem? hl)
  unfold Span.length at hcolumn
  rw [SourceFile.offset, offsetIn_eq hl hcolumn, SourceFile.position, clamp_natCast (Nat.zero_le _) (by omega),
    hdivides.positionIn_eq hl (Nat.le_add_right ..) (by omega)]
  congr 1
  omega

/-- Later offsets stand at later places. -/
theorem position_mono (hlines : f.lines = lineTable f.source) {offset offset' : Int}
    (hle : offset ≤ offset') :
    let p := f.position offset
    let q := f.position offset'
    p.offset ≤ q.offset ∧ (p.line < q.line ∨ p.line = q.line ∧ p.column ≤ q.column) := by
  obtain ⟨o, l, hmoved, hl, -, -, hposition⟩ := position_spec hlines offset
  obtain ⟨o', l', hmoved', hl', -, -, hposition'⟩ := position_spec hlines offset'
  have ho : o ≤ o' := by omega
  have hcount : (f.source.take o).count ('\n' : UInt8) ≤ (f.source.take o').count ('\n' : UInt8) :=
    (List.take_prefix_take_left ho).sublist.count_le _
  rw [hposition, hposition']
  dsimp only
  refine ⟨Int.ofNat_le.2 ho, ?_⟩
  rcases Nat.lt_or_eq_of_le hcount with hlt | heq
  · exact .inl (Int.ofNat_lt.2 hlt)
  · -- on one line the columns count from the same start
    rw [heq, hl'] at hl
    obtain rfl := Option.some.inj hl
    exact .inr ⟨congrArg _ heq, by omega⟩

end SourceFile

/-- **Offsets and places undo each other.**  The lines of a file divide its source.  Any offset is moved into the
source; its line is the number of line feeds before it, and its column its distance from the start of that line.
Halving the table finds this line.  An offset in the source is found again from its line and column, a line and a
column of it are found again from their offset, and places follow each other as the offsets do. -/
theorem places_inverse (f : SourceFile) (hlines : f.lines = lineTable f.source) :
    Divides f.source 0 f.lines ∧
      (∀ offset : Int, ∃ (o : Nat) (l : Span), (o : Int) = max 0 (min offset f.source.length) ∧
        f.lines[(f.source.take o).count ('\n' : UInt8)]? = some l ∧ l.start ≤ o ∧ o ≤ l.stop ∧
          f.position offset =
            { offset := o, line := (f.source.take o).count ('\n' : UInt8), column := o - l.start }) ∧
      (∀ o : Nat, o ≤ f.source.length →
        search (fun i => o ≤ (f.lines.getD i ⟨0, 0⟩).stop) 0 f.lines.length =
          (f.source.take o).count ('\n' : UInt8)) ∧
      (∀ o : Nat, o ≤ f.source.length → f.offset (f.position o).line (f.position o).column = o) ∧
      (∀ (i column : Nat) (l : Span), f.lines[i]? = some l → column ≤ l.length →
        f.position (f.offset i column) = { offset := (l.start + column : Nat), line := i, column }) ∧
      ∀ offset offset' : Int, offset ≤ offset' →
        (f.position offset).offset ≤ (f.position offset').offset ∧
          ((f.position offset).line < (f.position offset').line ∨
            (f.position offset).line = (f.position offset').line ∧
              (f.position offset).column ≤ (f.position offset').column) :=
  ⟨hlines ▸ divides_lineTable f.source, SourceFile.position_spec hlines,
    fun _ => SourceFile.search_lines hlines, fun _ => SourceFile.offset_position hlines,
    fun _ _ _ => SourceFile.position_offset hlines, fun _ _ => SourceFile.position_mono hlines⟩

/-- A file with an empty line and no line feed at its end. -/
def fourLines : SourceFile := .parse "a.liquid" "ab\ncd\n\nef" 1

/-- The offset on the first line feed ends the first line, the one behind it starts the second, and offsets beyond
the ends of the source stand at its ends. -/
theorem places_inverse_four :
    fourLines.lines = lineTable fourLines.source ∧ Divides fourLines.source 0 [⟨0, 2⟩, ⟨3, 5⟩, ⟨6, 6⟩, ⟨7, 9⟩] ∧
      fourLines.position 2 = ⟨2, 0, 2⟩ ∧ fourLines.position 3 = ⟨3, 1, 0⟩ ∧ fourLines.position 6 = ⟨6, 2, 0⟩ ∧
      fourLines.position (-5) = ⟨0, 0, 0⟩ ∧ fourLines.position 99 = ⟨9, 3, 2⟩ ∧
      fourLines.offset (fourLines.position 6).line (fourLines.position 6).column = 6 := by
  have hlines : fourLines.lines = [⟨0, 2⟩, ⟨3, 5⟩, ⟨6, 6⟩, ⟨7, 9⟩] := by decide +kernel
  have hplaces := places_inverse fourLines rfl
  exact ⟨rfl, hlines ▸ hplaces.1, by decide +kernel, by decide +kernel, by decide +kernel, by decide +kernel,
    by decide +kernel, hplaces.2.2.2.1 6 (by decide +kernel)⟩

end LiquidLint
