import LiquidLint.Check.Suppression
import LiquidLint.Proofs.CommentBodies
import LiquidLint.Proofs.CleanFixes
import LiquidLint.Proofs.TextPlaces
import LiquidLint.Proofs.TokenTexts

/-!
# What a history of directives disables

Reading a file keeps the regions that are open, each from the first directive that opened it, and the
finished ones.  What they cover is what the directives so far say: a check is disabled at an offset when
some directive has disabled it there and no later one has enabled it again by then (`DisabledBy`).  Each
directive keeps this (`Scan.covers_follow`), whatever is open, as long as it stands behind the ones before
it (`Scan.covers_foldl`).

That directives stand one behind the other is a fact about comments, which do not nest (`comments_apart`);
and a comment that leads the file has none before it.  So the regions of a file disable exactly what its
directives say (`covers_iff_disabledBy`).
-/

namespace LiquidLint

open Source

namespace Directive

/-- The directive is about that check and disables it, or all checks when it names none. -/
def Disables (d : Directive) (slot : Option Text) : Prop :=
  match d with
  | .disable codes => codes = [] ∧ slot = none ∨ ∃ c ∈ codes, slot = some c
  | .enable _ => False

/-- The directive enables that check again, or everything when it names none. -/
def Enables (d : Directive) (slot : Option Text) : Prop :=
  match d with
  | .disable _ => False
  | .enable codes => codes = [] ∨ ∃ c ∈ codes, slot = some c

end Directive

namespace Suppressions

/-! ## One directive -/

/-- Some directive has disabled the check by the offset, and no later one has enabled it again by then.
A directive disables from `startOf` its span on. -/
def DisabledBy (startOf : Span → Nat) (past : List (Directive × Span)) (slot : Option Text)
    (offset : Int) : Prop :=
  ∃ before d after, past = before ++ d :: after ∧ d.1.Disables slot ∧ (startOf d.2 : Int) ≤ offset ∧
    ∀ e ∈ after, e.1.Enables slot → offset < e.2.start

/-- One more directive disables, or enables what was disabled before. -/
theorem disabledBy_concat {startOf : Span → Nat} {past : List (Directive × Span)} {d : Directive × Span}
    {slot : Option Text} {offset : Int} :
    DisabledBy startOf (past ++ [d]) slot offset ↔
      d.1.Disables slot ∧ (startOf d.2 : Int) ≤ offset ∨
        DisabledBy startOf past slot offset ∧ (d.1.Enables slot → offset < d.2.start) := by
  constructor
  · rintro ⟨before, e, after, hsplit, hdisables, hstart, hafter⟩
    rcases List.eq_nil_or_concat after with rfl | ⟨between, last, rfl⟩
    · obtain ⟨rfl, hlast⟩ := List.append_inj' hsplit rfl
      obtain rfl := (List.cons.inj hlast).1
      exact .inl ⟨hdisables, hstart⟩
    · rw [List.concat_eq_append, ← List.cons_append, ← List.append_assoc] at hsplit
      rw [List.concat_eq_append] at hafter
      obtain ⟨rfl, hlast⟩ := List.append_inj' hsplit rfl
      obtain rfl := (List.cons.inj hlast).1
      exact .inr ⟨⟨before, e, between, rfl, hdisables, hstart,
        fun e' he' => hafter e' (List.mem_append_left _ he')⟩,
        hafter d (List.mem_append_right _ (List.mem_singleton.2 rfl))⟩
  · rintro (⟨hdisables, hstart⟩ | ⟨⟨before, e, after, rfl, hdisables, hstart, hafter⟩, hd⟩)
    · exact ⟨past, d, [], rfl, hdisables, hstart, fun _ he => (List.not_mem_nil he).elim⟩
    · refine ⟨before, e, after ++ [d], by simp, hdisables, hstart, fun e' he' => ?_⟩
      rcases List.mem_append.1 he' with he' | he'
      · exact hafter e' he'
      · rw [List.mem_singleton.1 he']
        exact hd

namespace Scan

/-- The check is disabled at the offset, by a finished region or by an open one. -/
def Covers (s : Scan) (slot : Option Text) (offset : Int) : Prop :=
  (∃ r ∈ s.done, r.code = slot ∧ (r.span.start : Int) ≤ offset ∧ offset < r.span.stop) ∨
    ∃ p ∈ s.opened, p.1 = slot ∧ (p.2 : Int) ≤ offset

/-- Each check has one open region at most, and nothing has happened behind `pos` so far. -/
structure Before (pos : Nat) (s : Scan) : Prop where
  slots : (s.opened.map Prod.fst).Nodup
  opened_le : ∀ p ∈ s.opened, p.2 ≤ pos
  done_le : ∀ r ∈ s.done, r.span.stop ≤ pos

section Steps

variable {s : Scan} {pos start stop : Nat} {code slot : Option Text} {offset : Int}

theorem before_empty : ({} : Scan).Before pos :=
  ⟨List.nodup_nil, fun _ hp => (List.not_mem_nil hp).elim, fun _ hr => (List.not_mem_nil hr).elim⟩

theorem not_covers_empty : ¬ ({} : Scan).Covers slot offset := by
  rintro (⟨_, hr, _⟩ | ⟨_, hp, _⟩)
  · exact List.not_mem_nil hr
  · exact List.not_mem_nil hp

theorem Before.openAt (h : s.Before pos) (hle : start ≤ pos) (code : Option Text) :
    (s.openAt start code).Before pos := by
  unfold Scan.openAt
  split
  · exact h
  · rename_i hnone
    have hnew : ∀ p ∈ s.opened, p.1 ≠ code := fun p hp hcode =>
      hnone (List.lookup_isSome_iff.2 ⟨p, hp, by simp [hcode]⟩)
    refine ⟨?_, fun p hp => ?_, h.done_le⟩
    · rw [List.map_append]
      refine List.nodup_append.2 ⟨h.slots, List.nodup_singleton _, fun a ha c hc => ?_⟩
      obtain ⟨p, hp, rfl⟩ := List.mem_map.1 ha
      rw [List.mem_singleton.1 hc]
      exact hnew p hp
    · rcases List.mem_append.1 hp with hp | hp
      · exact h.opened_le p hp
      · rwa [List.mem_singleton.1 hp]

/-- **Disabling a check**: it is disabled from there on, too.  A region that is open already starts
before. -/
theorem covers_openAt (h : s.Before start) :
    (s.openAt start code).Covers slot offset ↔
      s.Covers slot offset ∨ code = slot ∧ (start : Int) ≤ offset := by
  unfold openAt
  split
  · rename_i hopen
    obtain ⟨p, hp, hcode⟩ := List.lookup_isSome_iff.1 hopen
    refine ⟨.inl, fun hcovers => hcovers.elim id ?_⟩
    rintro ⟨rfl, hstart⟩
    have hle := h.opened_le p hp
    exact .inr ⟨p, hp, (eq_of_beq hcode).symm, by omega⟩
  · constructor
    · rintro (hdone | ⟨p, hp, hslot, hstart⟩)
      · exact .inl (.inl hdone)
      · rcases List.mem_append.1 hp with hp | hp
        · exact .inl (.inr ⟨p, hp, hslot, hstart⟩)
        · rw [List.mem_singleton.1 hp] at hslot hstart
          exact .inr ⟨hslot, hstart⟩
    · rintro ((hdone | ⟨p, hp, hslot, hstart⟩) | ⟨hslot, hstart⟩)
      · exact .inl hdone
      · exact .inr ⟨p, List.mem_append_left _ hp, hslot, hstart⟩
      · exact .inr ⟨(code, start), List.mem_append_right _ (List.mem_singleton.2 rfl), hslot, hstart⟩

theorem Before.closeAt (h : s.Before pos) (hle : stop ≤ pos) (code : Option Text) :
    (s.closeAt stop code).Before pos := by
  unfold Scan.closeAt
  split
  · exact h
  · refine ⟨h.slots.sublist (List.filter_sublist.map _), fun p hp => h.opened_le p (List.mem_of_mem_filter hp),
      fun r hr => ?_⟩
    rcases List.mem_append.1 hr with hr | hr
    · exact h.done_le r hr
    · rwa [List.mem_singleton.1 hr]

/-- **Enabling a check**: it is disabled up to there only.  A region that is finished already ends
before. -/
theorem covers_closeAt (h : s.Before stop) :
    (s.closeAt stop code).Covers slot offset ↔
      s.Covers slot offset ∧ (code = slot → offset < stop) := by
  unfold closeAt
  split
  · rename_i hnone
    refine ⟨fun hcovers => ⟨hcovers, ?_⟩, And.left⟩
    rintro rfl
    rcases hcovers with ⟨r, hr, _, _, hstop⟩ | ⟨p, hp, hcode, _⟩
    · have hle := h.done_le r hr
      omega
    · exact absurd hcode.symm (by simpa using List.lookup_eq_none_iff.1 hnone p hp)
  · rename_i start hsome
    obtain ⟨front, back, hopened, _⟩ := List.lookup_eq_some_iff.1 hsome
    have hmem : (code, start) ∈ s.opened := by
      rw [hopened]
      exact List.mem_append_right _ (List.mem_cons_self ..)
    -- the open region of the check is the only one
    have honly : ∀ p ∈ s.opened, p.1 = code → p.2 = start := fun p hp hcode =>
      congrArg Prod.snd (List.inj_on_of_nodup_map h.slots hp hmem hcode)
    constructor
    · rintro (⟨r, hr, hslot, hstart, hstop⟩ | ⟨p, hp, hslot, hstart⟩)
      · rcases List.mem_append.1 hr with hr | hr
        · have hle := h.done_le r hr
          exact ⟨.inl ⟨r, hr, hslot, hstart, hstop⟩, fun _ => by omega⟩
        · rw [List.mem_singleton.1 hr] at hslot hstart hstop
          exact ⟨.inr ⟨(code, start), hmem, hslot, hstart⟩, fun _ => hstop⟩
      · obtain ⟨hp, hne⟩ := List.mem_filter.1 hp
        refine ⟨.inr ⟨p, hp, hslot, hstart⟩, ?_⟩
        rintro rfl
        exact absurd hslot (of_decide_eq_true hne)
    · rintro ⟨⟨r, hr, hslot, hstart, hstop⟩ | ⟨p, hp, hslot, hstart⟩, hbefore⟩
      · exact .inl ⟨r, List.mem_append_left _ hr, hslot, hstart, hstop⟩
      · by_cases hcode : code = slot
        · refine .inl ⟨_, List.mem_append_right _ (List.mem_singleton.2 rfl), hcode, ?_, hbefore hcode⟩
          rw [← honly p hp (hslot.trans hcode.symm)]
          exact hstart
        · refine .inr ⟨p, List.mem_filter.2 ⟨hp, decide_eq_true fun hp => ?_⟩, hslot, hstart⟩
          exact hcode (hp.symm.trans hslot)

/-- **Ending all regions** finishes each of them there. -/
theorem covers_closeAllAt (h : s.Before stop) :
    (s.closeAllAt stop).Covers slot offset ↔ s.Covers slot offset ∧ offset < stop := by
  unfold closeAllAt
  constructor
  · rintro (⟨r, hr, hslot, hstart, hstop⟩ | ⟨p, hp, _⟩)
    · rcases List.mem_append.1 hr with hr | hr
      · have hle := h.done_le r hr
        exact ⟨.inl ⟨r, hr, hslot, hstart, hstop⟩, by omega⟩
      · obtain ⟨p, hp, rfl⟩ := List.mem_map.1 hr
        exact ⟨.inr ⟨p, hp, hslot, hstart⟩, hstop⟩
    · exact absurd hp List.not_mem_nil
  · rintro ⟨⟨r, hr, hslot, hstart, hstop⟩ | ⟨p, hp, hslot, hstart⟩, hbefore⟩
    · exact .inl ⟨r, List.mem_append_left _ hr, hslot, hstart, hstop⟩
    · exact .inl ⟨_, List.mem_append_right _ (List.mem_map_of_mem hp), hslot, hstart, hbefore⟩

theorem Before.closeAllAt (h : s.Before pos) (hle : stop ≤ pos) : (s.closeAllAt stop).Before pos := by
  refine ⟨List.nodup_nil, fun _ hp => (List.not_mem_nil hp).elim, fun r hr => ?_⟩
  rcases List.mem_append.1 hr with hr | hr
  · exact h.done_le r hr
  · obtain ⟨p, _, rfl⟩ := List.mem_map.1 hr
    exact hle

theorem Before.foldl_openAt (hle : start ≤ pos) (codes : List Text) (h : s.Before pos) :
    (codes.foldl (fun s c => s.openAt start (some c)) s).Before pos := by
  induction codes generalizing s with
  | nil => exact h
  | cons c rest ih => exact ih (h.openAt hle (some c))

/-- Disabling several checks, one after the other. -/
theorem covers_foldl_openAt (codes : List Text) (h : s.Before start) :
    (codes.foldl (fun s c => s.openAt start (some c)) s).Covers slot offset ↔
      (∃ c ∈ codes, slot = some c) ∧ (start : Int) ≤ offset ∨ s.Covers slot offset := by
  induction codes generalizing s with
  | nil => simp
  | cons c rest ih =>
    rw [List.foldl_cons, ih (h.openAt (Nat.le_refl _) (some c)), covers_openAt h,
      List.exists_mem_cons_iff, or_and_right, or_assoc, eq_comm (a := some c)]
    exact or_rotate.symm

theorem Before.foldl_closeAt (hle : stop ≤ pos) (codes : List Text) (h : s.Before pos) :
    (codes.foldl (fun s c => s.closeAt stop (some c)) s).Before pos := by
  induction codes generalizing s with
  | nil => exact h
  | cons c rest ih => exact ih (h.closeAt hle (some c))

/-- Enabling several checks, one after the other. -/
theorem covers_foldl_closeAt (codes : List Text) (h : s.Before stop) :
    (codes.foldl (fun s c => s.closeAt stop (some c)) s).Covers slot offset ↔
      s.Covers slot offset ∧ ((∃ c ∈ codes, slot = some c) → offset < stop) := by
  induction codes generalizing s with
  | nil => simp
  | cons c rest ih =>
    rw [List.foldl_cons, ih (h.closeAt (Nat.le_refl _) (some c)), covers_closeAt h,
      List.exists_mem_cons_iff, or_imp, eq_comm (a := some c), and_assoc]

/-- Where a directive with that span disables from, in a file whose first `leading` bytes are blank. -/
def effectStart (leading : Nat) (span : Span) : Nat := if span.start = leading then 0 else span.stop

variable {leading : Nat} {d : Directive × Span}

theorem Before.follow (h : s.Before pos) (hstart : effectStart leading d.2 ≤ pos)
    (hspan : d.2.start ≤ pos) : (s.follow leading d).Before pos := by
  obtain ⟨directive, span⟩ := d
  cases directive with
  | disable codes =>
    show Scan.Before pos (if codes.isEmpty then _ else _)
    split
    · exact h.openAt hstart none
    · exact h.foldl_openAt hstart codes
  | enable codes =>
    show Scan.Before pos (if codes.isEmpty then _ else _)
    split
    · exact h.closeAllAt hspan
    · exact h.foldl_closeAt hspan codes

/-- **One directive** disables what it says from its effect on, or enables what it says up to its
start. -/
theorem covers_follow (hstart : s.Before (effectStart leading d.2)) (hspan : s.Before d.2.start) :
    (s.follow leading d).Covers slot offset ↔
      d.1.Disables slot ∧ (effectStart leading d.2 : Int) ≤ offset ∨
        s.Covers slot offset ∧ (d.1.Enables slot → offset < d.2.start) := by
  obtain ⟨directive, span⟩ := d
  cases directive with
  | disable codes =>
    show Scan.Covers (if codes.isEmpty then _ else _) slot offset ↔
      (codes = [] ∧ slot = none ∨ ∃ c ∈ codes, slot = some c) ∧ _ ∨ _ ∧ (False → _)
    cases codes with
    | nil =>
      rw [List.isEmpty_nil, if_pos rfl]
      refine (covers_openAt hstart).trans ?_
      simp only [List.not_mem_nil, false_and, exists_false, or_false, true_and, false_implies, and_true]
      rw [eq_comm (a := none), or_comm]
    | cons c rest =>
      rw [List.isEmpty_cons, if_neg Bool.false_ne_true]
      refine (covers_foldl_openAt _ hstart).trans ?_
      simp only [reduceCtorEq, false_and, false_or, false_implies, and_true]
  | enable codes =>
    show Scan.Covers (if codes.isEmpty then _ else _) slot offset ↔
      False ∧ _ ∨ _ ∧ ((codes = [] ∨ ∃ c ∈ codes, slot = some c) → _)
    cases codes with
    | nil =>
      rw [List.isEmpty_nil, if_pos rfl]
      refine (covers_closeAllAt hspan).trans ?_
      simp
    | cons c rest =>
      rw [List.isEmpty_cons, if_neg Bool.false_ne_true]
      refine (covers_foldl_closeAt _ hspan).trans ?_
      simp only [reduceCtorEq, false_and, false_or]

end Steps

/-! ## A run -/

/-- Directives that stand one behind the other in a file of `size` bytes, the first `leading` of which
are blank. -/
structure InOrder (leading size : Nat) (ds : List (Directive × Span)) : Prop where
  apart : ds.Pairwise fun d e => d.2.stop ≤ e.2.start
  placed : ∀ d ∈ ds, leading ≤ d.2.start ∧ d.2.start < d.2.stop ∧ d.2.stop ≤ size

/-- **The scan covers what the directives have disabled.** -/
theorem covers_foldl {leading size : Nat} {ds : List (Directive × Span)} (h : InOrder leading size ds) :
    (∀ pos, (∀ d ∈ ds, d.2.stop ≤ pos) → (ds.foldl (follow leading) {}).Before pos) ∧
      ∀ slot offset, (ds.foldl (follow leading) {}).Covers slot offset ↔
        DisabledBy (effectStart leading) ds slot offset := by
  induction ds using List.reverseRecOn with
  | nil =>
    refine ⟨fun _ _ => before_empty, fun slot offset => iff_of_false not_covers_empty ?_⟩
    rintro ⟨before, d, after, hsplit, _⟩
    exact absurd hsplit.symm (by simp)
  | append_singleton past d ih =>
    obtain ⟨hapart, -, hlast⟩ := List.pairwise_append.1 h.apart
    have hbehind : ∀ e ∈ past, e.2.stop ≤ d.2.start := fun e he => hlast e he d (List.mem_singleton.2 rfl)
    obtain ⟨hbefore, hcovers⟩ := ih ⟨hapart, fun e he => h.placed e (List.mem_append_left _ he)⟩
    obtain ⟨hleading, hlt, _⟩ := h.placed d (List.mem_append_right _ (List.mem_singleton.2 rfl))
    rw [List.foldl_append, List.foldl_cons, List.foldl_nil]
    have hstart : ((past.foldl (follow leading) {}).Before (effectStart leading d.2)) := by
      unfold effectStart
      split
      · -- nothing stands before a directive that leads the file
        rename_i hlead
        cases past with
        | nil => exact before_empty
        | cons e rest =>
          have hle := hbehind e (List.mem_cons_self ..)
          have hplaced := h.placed e (List.mem_append_left _ (List.mem_cons_self ..))
          omega
      · exact hbefore _ fun e he => Nat.le_trans (hbehind e he) (Nat.le_of_lt hlt)
    refine ⟨fun pos hpos => ?_, fun slot offset => ?_⟩
    · have hd := hpos d (List.mem_append_right _ (List.mem_singleton.2 rfl))
      refine (hbefore pos fun e he => hpos e (List.mem_append_left _ he)).follow ?_ (by omega)
      unfold effectStart
      split <;> omega
    · rw [covers_follow hstart (hbefore _ hbehind), hcovers, disabledBy_concat]

end Scan
end Suppressions

/-! ## Where comments stand -/

namespace Liquid

/-- The opener of some token stands at `i`, or in front of it. -/
def Behind (src : Text) (i : Nat) : Prop := ∃ j ≤ i, src[j]? = some ('{' : UInt8)

theorem behind_of_mem {src : Text} {tok : Token} (htok : tok ∈ tokens src) (hkind : ¬ tok.kind.IsText) :
    Behind src tok.start := by
  obtain ⟨d, inner, _, hslice⟩ := exists_delimited htok hkind
  obtain ⟨u, v, hu, hsrc⟩ := standsAt_of_slice (by cases d <;> simp [Delimiter.opener]) hslice
  refine ⟨tok.start, Nat.le_refl _, ?_⟩
  rw [hsrc, ← hu, List.getElem?_append_right (Nat.le_refl _), Nat.sub_self]
  cases d <;> rfl

/-- A tag is not empty, and an opener stands at its start or in front of it. -/
theorem behind_of_walk {src : Text} {h : Head} (hh : h ∈ (parse src).root.walk fun _ => true)
    (hkind : h.kind = .tag) : h.start < h.openEnd ∧ Behind src h.start := by
  refine forall_below_root (P := fun h => h.kind = .tag → h.start < h.openEnd ∧ Behind src h.start)
    (Q := fun tok => ¬ tok.kind.IsText → tok.Placed ∧ Behind src tok.start)
    (fun _ _ _ _ => Iff.rfl) (fun tok htok hnot => ?_) (fun tok htok htag line hline _ => ?_)
    (fun b tok n htok hleaf => ?_) (fun tok htok htag => ?_)
    (mem_below_of_walk hh (by rw [hkind]; nofun)) hkind
  · exact ⟨((tiles_tokens src).follows.placed htok).2.1, behind_of_mem htok hnot⟩
  · obtain ⟨hplaced, j, hj, hbyte⟩ := htok (by rw [htag]; exact id)
    obtain ⟨hle, hline, _⟩ := (follows_liquidLines tok.markup tok.markupStart).placed hline
    have hmarkup := hplaced.start_le_markup
    exact ⟨hline, j, by omega, hbyte⟩
  · cases hleaf with
    | text _ | comment _ _ _ | «variable» _ => exact fun htag => nomatch htag
    | inline hreads _ _ =>
      obtain ⟨hplaced, hbehind⟩ := htok (by rw [hreads.kind_eq]; exact id)
      exact fun _ => ⟨hplaced.start_lt_stop, hbehind⟩
  · obtain ⟨hplaced, hbehind⟩ := htok (by rw [htag]; exact id)
    exact ⟨fun _ => ⟨hplaced.start_lt_stop, hbehind⟩, fun _ => ⟨hplaced.start_lt_stop, hbehind⟩⟩

end Liquid

namespace Suppressions

/-- Whether a byte may stand in front of a comment that leads a file. -/
def isLead (b : UInt8) : Bool := b = ' ' || b = '\t' || b = '\n'

/-- The number of blanks that lead a source. -/
def leadingBlanks (src : Text) : Nat := (src.takeWhile isLead).length

/-- There are only blanks in front of the span. -/
def Leads (src : Text) (span : Span) : Prop := ∀ b ∈ src.take span.start, isLead b = true

instance (src : Text) (span : Span) : Decidable (Leads src span) :=
  inferInstanceAs (Decidable (∀ b ∈ src.take span.start, isLead b = true))

/-- Where a directive with that span disables from: behind its comment, or from the start of the file if
the comment leads it. -/
def startOf (src : Text) (span : Span) : Nat := if Leads src span then 0 else span.stop

section Leading

variable {src : Text} {span : Span}

theorem isLead_of_mem_takeWhile {b : UInt8} (hb : b ∈ src.takeWhile isLead) : isLead b = true :=
  List.all_eq_true.1 List.all_takeWhile b hb

theorem take_leadingBlanks : src.take (leadingBlanks src) = src.takeWhile isLead :=
  (List.prefix_iff_eq_take.1 (List.takeWhile_prefix isLead)).symm

/-- An opener is no blank, so the blanks end in front of it. -/
theorem leadingBlanks_le (h : Liquid.Behind src span.start) : leadingBlanks src ≤ span.start := by
  obtain ⟨j, hj, hbyte⟩ := h
  refine Nat.le_trans (Nat.le_of_not_lt fun hlt => ?_) hj
  have hmem : ('{' : UInt8) ∈ src.take (leadingBlanks src) := by
    refine List.mem_of_getElem? (i := j) ?_
    rw [List.getElem?_take_of_lt hlt, hbyte]
  rw [take_leadingBlanks] at hmem
  exact absurd (isLead_of_mem_takeWhile hmem) (by decide)

theorem leads_iff (h : Liquid.Behind src span.start) :
    Leads src span ↔ span.start = leadingBlanks src := by
  constructor
  · intro hlead
    obtain ⟨j, hj, hbyte⟩ := h
    have hfirst : j = span.start := by
      refine (Nat.lt_or_eq_of_le hj).resolve_left fun hlt => ?_
      have hmem : ('{' : UInt8) ∈ src.take span.start := by
        refine List.mem_of_getElem? (i := j) ?_
        rw [List.getElem?_take_of_lt hlt, hbyte]
      exact absurd (hlead _ hmem) (by decide)
    rw [hfirst] at hbyte
    obtain ⟨hlt, hget⟩ := List.getElem?_eq_some_iff.1 hbyte
    have hblanks : src.takeWhile isLead = src.take span.start := by
      have hsplit := @List.takeWhile_append_of_pos _ isLead (src.take span.start) (src.drop span.start) hlead
      have hstop : isLead '{' = false := by decide
      rwa [List.take_append_drop, List.drop_eq_getElem_cons hlt, hget, List.takeWhile_cons, hstop,
        if_neg Bool.false_ne_true, List.append_nil] at hsplit
    rw [leadingBlanks, hblanks, List.length_take_of_le (Nat.le_of_lt hlt)]
  · intro hstart b hb
    rw [hstart, take_leadingBlanks] at hb
    exact isLead_of_mem_takeWhile hb

end Leading

/-! ## The directives of a file -/

theorem isComment_of_kind {h : Liquid.Head} (hkind : (Shape.liquid h).kind = ("comment" : Text)) :
    h.IsComment := by
  unfold Shape.kind at hkind
  dsimp only at hkind
  cases hk : h.kind with
  | document | raw | «variable» =>
    rw [hk] at hkind
    dsimp only at hkind
    exact absurd hkind (by decide)
  | tag =>
    rw [hk] at hkind
    dsimp only at hkind
    split at hkind
    · rename_i hname
      exact ⟨hk, by simpa using hname⟩
    · exact ⟨hk, .inl hkind⟩

/-- The nodes of a template come with the places of their heads. -/
theorem directives_of_template {f : SourceFile} (hf : Rule.Spacing.IsTemplate f) :
    directives f = (Node.ofLiquid f.source.length (Liquid.parse f.source).root).walk.filterMap fun n =>
      if n.kind = ("comment" : Text) then
        (Directive.ofText? (commentText f n)).map fun d => (d, n.span)
      else none := by
  obtain ⟨html, htrees⟩ := hf.trees
  have hfamily : (Node.ofLiquid f.source.length (Liquid.parse f.source).root).shape.family = .liquid :=
    rfl
  unfold directives
  rw [htrees, List.find?_cons_of_pos (by simpa using hfamily)]

/-- A file that is no template has no directives. -/
theorem directives_of_ne {path content : Text} {version : Int}
    (h : (Project.classify path).category ≠ .liquid) :
    directives (SourceFile.parse path content version) = [] := by
  have hnone : (SourceFile.parse path content version).trees.find?
      (fun t => t.shape.family = .liquid) = none := by
    refine List.find?_eq_none.2 fun t ht => ?_
    unfold SourceFile.parse SourceFile.parts at ht
    cases hc : (Project.classify path).category with
    | liquid => exact absurd hc h
    | html =>
      simp only [hc] at ht
      obtain rfl := List.mem_singleton.1 ht
      cases (Markup.parse (sourceOf content)).root
      simp [Node.ofHtml, Node.shape, Shape.family]
    | yaml | graphql =>
      simp only [hc] at ht
      obtain rfl := List.mem_singleton.1 ht
      simp [Node.shape, Shape.family]
    | asset | other =>
      simp only [hc] at ht
      cases ht
  unfold directives
  rw [hnone]

/-- The comment of a directive is a comment of the template. -/
theorem exists_head_of_mem {f : SourceFile} (hf : Rule.Spacing.IsTemplate f) {d : Directive × Span}
    (hd : d ∈ directives f) :
    ∃ h ∈ (Liquid.parse f.source).root.walk (fun _ => true), h.IsComment ∧ d.2 = ⟨h.start, h.stop⟩ := by
  rw [directives_of_template hf] at hd
  obtain ⟨n, hn, hsome⟩ := List.mem_filterMap.1 hd
  obtain ⟨h, hh, hshape, hspan⟩ := Node.exists_head_of_walk hn
  split at hsome
  · rename_i hkind
    obtain ⟨_, _, rfl⟩ := Option.map_eq_some_iff.1 hsome
    refine ⟨h, hh, isComment_of_kind ?_, hspan⟩
    rwa [Node.kind, hshape] at hkind
  · cases hsome

/-- The comments of a template stand one behind the other. -/
theorem apart_ofLiquid (src : Text) :
    (Node.ofLiquid src.length (Liquid.parse src).root).walk.Pairwise fun n m =>
      n.kind = ("comment" : Text) → m.kind = ("comment" : Text) → n.span.stop ≤ m.span.start := by
  have hheads : (((Liquid.parse src).root.walk fun _ => true).map fun h =>
      (Shape.liquid h, Range.within ⟨h.start, h.stop⟩ src.length)).Pairwise fun p q =>
        p.1.kind = ("comment" : Text) → q.1.kind = ("comment" : Text) → p.2.stop ≤ q.2.start := by
    refine List.pairwise_map.2 ((Liquid.comments_apart src).imp_of_mem fun {h g} hh hg hapart => ?_)
    obtain ⟨hopen, hclose, hstop⟩ := Liquid.placed_of_walk hh
    obtain ⟨hopen', hclose', hstop'⟩ := Liquid.placed_of_walk hg
    rw [Rule.Spacing.within_eq (Nat.le_trans hopen hclose) hstop,
      Rule.Spacing.within_eq (Nat.le_trans hopen' hclose') hstop']
    exact fun hkind hkind' => hapart (isComment_of_kind hkind) (isComment_of_kind hkind')
  rw [← Node.walk_ofLiquid] at hheads
  exact List.pairwise_map.1 hheads

/-- **Directives stand one behind the other**, each behind an opener. -/
theorem inOrder_directives (path content : Text) (version : Int) :
    let f := SourceFile.parse path content version
    Scan.InOrder (leadingBlanks f.source) f.source.length (directives f) ∧
      ∀ d ∈ directives f, Liquid.Behind f.source d.2.start := by
  intro f
  by_cases hcategory : (Project.classify path).category = .liquid
  · have hf : Rule.Spacing.IsTemplate f := Rule.Spacing.isTemplate_parse hcategory content version
    have hbehind : ∀ d ∈ directives f, Liquid.Behind f.source d.2.start := by
      intro d hd
      obtain ⟨h, hh, hcomment, hspan⟩ := exists_head_of_mem hf hd
      rw [hspan]
      exact (Liquid.behind_of_walk hh hcomment.1).2
    refine ⟨⟨?_, fun d hd => ?_⟩, hbehind⟩
    · rw [directives_of_template hf]
      refine List.pairwise_filterMap.2 ((apart_ofLiquid f.source).imp fun {n m} hapart d hd e he => ?_)
      split at hd
      · split at he
        · rename_i hkind hkind'
          obtain ⟨_, _, rfl⟩ := Option.map_eq_some_iff.1 hd
          obtain ⟨_, _, rfl⟩ := Option.map_eq_some_iff.1 he
          exact hapart hkind hkind'
        · cases he
      · cases hd
    · refine ⟨leadingBlanks_le (hbehind d hd), ?_⟩
      obtain ⟨h, hh, hcomment, hspan⟩ := exists_head_of_mem hf hd
      obtain ⟨_, hclose, hstop⟩ := Liquid.placed_of_walk hh
      rw [hspan]
      exact ⟨Nat.lt_of_lt_of_le (Liquid.behind_of_walk hh hcomment.1).1 hclose, hstop⟩
  · have hnone : directives f = [] := directives_of_ne hcategory
    rw [hnone]
    exact ⟨⟨.nil, fun _ hd => (List.not_mem_nil hd).elim⟩, fun _ hd => (List.not_mem_nil hd).elim⟩

/-! ## The regions of a file -/

theorem disabledBy_congr {start start' : Span → Nat} {past : List (Directive × Span)}
    {slot : Option Text} {offset : Int} (h : ∀ d ∈ past, start d.2 = start' d.2)
    (hd : DisabledBy start past slot offset) : DisabledBy start' past slot offset := by
  obtain ⟨before, d, after, rfl, hdisables, hstart, hafter⟩ := hd
  rw [h d (List.mem_append_right _ (List.mem_cons_self ..))] at hstart
  exact ⟨before, d, after, rfl, hdisables, hstart, hafter⟩

/-- A region covers a check if it is about that check or about all of them. -/
theorem covers_iff_slot (s : Scan) (stop : Nat) (code : Text) (offset : Int) :
    covers ⟨(s.closeAllAt stop).done⟩ code offset = true ↔
      ∃ slot, (slot = none ∨ slot = some code) ∧ (s.closeAllAt stop).Covers slot offset := by
  unfold covers
  rw [List.any_eq_true]
  constructor
  · rintro ⟨r, hr, hcovers⟩
    simp only [Bool.and_eq_true, Bool.or_eq_true, decide_eq_true_eq] at hcovers
    obtain ⟨⟨hslot, hstart⟩, hstop⟩ := hcovers
    exact ⟨r.code, hslot, .inl ⟨r, hr, rfl, hstart, hstop⟩⟩
  · rintro ⟨slot, hslot, ⟨r, hr, rfl, hstart, hstop⟩ | ⟨p, hp, _⟩⟩
    · refine ⟨r, hr, ?_⟩
      simp only [Bool.and_eq_true, Bool.or_eq_true, decide_eq_true_eq]
      exact ⟨⟨hslot, hstart⟩, hstop⟩
    · exact absurd hp List.not_mem_nil

/-- **Inline suppressions follow the history of directives.**  A check is disabled at an offset of a file
exactly when the offset is inside the file and some directive has disabled the check, or all checks, by
then, and no later directive has enabled it again by then: a directive disables from the end of its
comment on, or from the start of the file if there are only blanks in front of it, and it enables at the
start of its comment. -/
theorem covers_iff_disabledBy (path content : Text) (version : Int) (code : Text) (offset : Int) :
    let f := SourceFile.parse path content version
    (ofFile f).covers code offset = true ↔
      offset < f.source.length ∧
        ∃ slot, (slot = none ∨ slot = some code) ∧
          DisabledBy (startOf f.source) (directives f) slot offset := by
  intro f
  obtain ⟨horder, hbehind⟩ := inOrder_directives path content version
  obtain ⟨hbefore, hcovers⟩ := Scan.covers_foldl horder
  have hinside := hbefore f.source.length fun d hd => (horder.placed d hd).2.2
  have hstart : ∀ d ∈ directives f,
      Scan.effectStart (leadingBlanks f.source) d.2 = startOf f.source d.2 := by
    intro d hd
    have hlead := leads_iff (hbehind d hd)
    unfold Scan.effectStart startOf
    by_cases hfirst : d.2.start = leadingBlanks f.source
    · rw [if_pos hfirst, if_pos (hlead.2 hfirst)]
    · rw [if_neg hfirst, if_neg fun hleads => hfirst (hlead.1 hleads)]
  have hdisabled (slot : Option Text) :
      DisabledBy (Scan.effectStart (leadingBlanks f.source)) (directives f) slot offset ↔
        DisabledBy (startOf f.source) (directives f) slot offset :=
    ⟨disabledBy_congr hstart, disabledBy_congr fun d hd => (hstart d hd).symm⟩
  refine (covers_iff_slot _ _ code offset).trans ?_
  constructor
  · rintro ⟨slot, hslot, hregion⟩
    obtain ⟨hcovered, hlt⟩ := (Scan.covers_closeAllAt hinside).1 hregion
    exact ⟨hlt, slot, hslot, (hdisabled slot).1 ((hcovers slot offset).1 hcovered)⟩
  · rintro ⟨hlt, slot, hslot, hdis⟩
    refine ⟨slot, hslot, (Scan.covers_closeAllAt hinside).2 ⟨?_, hlt⟩⟩
    exact (hcovers slot offset).2 ((hdisabled slot).2 hdis)

end Suppressions
end LiquidLint
