import LiquidLint.Proofs.EditedTexts
import LiquidLint.Proofs.PathNames
import LiquidLint.Proofs.TreeRecasts

/-!
# Tags whose names are replaced

The text between the delimiters of a tag, and a line of a `liquid` tag, are read by trimming and splitting
(`tagAt`).  Where the name that is read is a word, it stands between white space, and the markup behind it
(`tagAt_word`, `exists_of_tagAt`).

Edits that put `render` in place of `include` (`Renaming`) change such a text in one of two ways: one edit
replaces the name of the tag, or edits stand in the markup of a `liquid` tag, at names of its lines
(`Names`).  In both cases the tag that is read then is the one that was read before, with the name or the
markup replaced (`Zone.kept`).
-/

namespace LiquidLint

namespace Liquid

/-- What is read from the text `t` at `start`: the name of a tag, the markup and its offset. -/
def tagAt (t : Text) (start : Nat) : Text × Text × Nat :=
  splitTag (Text.trimSpace t) (start + leadingBlanks t)

section Words

variable {w g v : Text}

/-- A word that is trimmed away in front is read as a name when a blank comes behind it, or nothing. -/
theorem splitTag_word (hw : Text.IsWord w) (hv : ∀ b ∈ v.head?, Text.isAsciiBlank b = true) (start : Nat) :
    splitTag (w ++ v) start = (w, Text.trimSpace v, start + w.length + leadingBlanks v) := by
  obtain ⟨b, t, rfl, hb⟩ := hw.exists_cons
  have hletters : ∀ c ∈ b :: t, (!Text.isAsciiBlank c) = true := by
    intro c hc
    rw [(Text.ne_of_isLower (hw.lower c hc)).1]
    rfl
  have hname : (b :: t ++ v).takeWhile (fun c => !Text.isAsciiBlank c) = b :: t := by
    rw [List.takeWhile_append_of_pos hletters]
    cases v with
    | nil => simp
    | cons c v =>
      rw [List.takeWhile_cons_of_neg (by simpa using hv c rfl), List.append_nil]
  have hmore : (b :: t ++ v).dropWhile (fun c => !Text.isAsciiBlank c) = v := by
    rw [List.dropWhile_append_of_pos hletters]
    cases v with
    | nil => rfl
    | cons c v => rw [List.dropWhile_cons_of_neg (by simpa using hv c rfl)]
  have hb' := (Text.ne_of_isLower hb).2.2.2.2
  rw [List.cons_append] at hname hmore ⊢
  rw [splitTag, if_neg hb', hname, hmore]

/-- **A word between white space** is read as a name. -/
theorem tagAt_word (hw : Text.IsWord w) (hg : Text.trimSpaceStart g = [])
    (hv : ∀ b ∈ (Text.trimSpaceEnd v).head?, Text.isAsciiBlank b = true) (start : Nat) :
    tagAt (g ++ (w ++ v)) start = (w, Text.trimSpace (Text.trimSpaceEnd v),
      start + leadingBlanks g + w.length + leadingBlanks (Text.trimSpaceEnd v)) := by
  rw [tagAt, Text.trimSpace_word hw, Text.leadingBlanks_word hw, hg, List.nil_append, splitTag_word hw hv]

/-- **A word that is read as a name** stands between white space. -/
theorem exists_of_tagAt (hw : Text.IsWord w) {t : Text} {start : Nat} (h : (tagAt t start).1 = w) :
    ∃ g v, t = g ++ (w ++ v) ∧ Text.trimSpaceStart g = [] ∧
      ∀ b ∈ (Text.trimSpaceEnd v).head?, Text.isAsciiBlank b = true := by
  obtain ⟨b, tail, hcons, hb⟩ := hw.exists_cons
  -- the name is what the trimmed text starts with
  obtain ⟨more, hmore, hhead⟩ : ∃ more, Text.trimSpace t = w ++ more ∧
      ∀ c ∈ more.head?, Text.isAsciiBlank c = true := by
    unfold tagAt splitTag at h
    cases htrim : Text.trimSpace t with
    | nil =>
      rw [htrim] at h
      exact absurd h.symm hw.ne_nil
    | cons c rest =>
      rw [htrim] at h
      dsimp only at h
      by_cases hc : c = '#'
      · rw [if_pos hc, hcons] at h
        obtain ⟨rfl, _⟩ := List.cons.inj h
        cases hb
      · rw [if_neg hc] at h
        dsimp only at h
        refine ⟨(c :: rest).dropWhile fun b => !Text.isAsciiBlank b, ?_, fun d hd => ?_⟩
        · rw [← h]
          exact List.takeWhile_append_dropWhile.symm
        · have hnot := List.head?_dropWhile_not (fun b => !Text.isAsciiBlank b) (c :: rest)
          rw [Option.mem_def.1 hd] at hnot
          simpa using hnot
  obtain ⟨g, hg⟩ := Text.trimForms_suffix Text.blanks t
  obtain ⟨y, hy⟩ := Text.trimSpaceEnd_prefix (Text.trimSpaceStart t)
  have hstart : Text.trimSpaceStart t = w ++ (more ++ y) := by
    rw [← hy, show Text.trimSpaceEnd (Text.trimSpaceStart t) = w ++ more from hmore, List.append_assoc]
  have ht : t = g ++ (w ++ (more ++ y)) := hg.symm.trans (congrArg (g ++ ·) hstart)
  refine ⟨g, more ++ y, ht, ?_, ?_⟩
  · have htrim := Text.trimSpaceStart_word hw g (more ++ y)
    rw [← ht, hstart] at htrim
    exact List.append_left_eq_self.1 htrim.symm
  · have htrim := Text.trimSpaceEnd_word hw [] (more ++ y)
    rw [List.nil_append, List.nil_append, ← hstart] at htrim
    have hend : Text.trimSpaceEnd (more ++ y) = more :=
      List.append_cancel_left (htrim.symm.trans hmore)
    rwa [hend]

end Words

/-- **A name, blanks and a markup** are read as they are. -/
theorem tagAt_core {w g u m x y z w' : Text} (hw : Text.IsWord w) (hg : Text.trimSpaceStart g = [])
    (hu : u ≠ []) (hblank : ∀ b ∈ u, Text.isAsciiBlank b = true) (hcore : Text.Core u z m)
    (hw' : Text.IsWord w') (hm : m = x ++ (w' ++ y)) (start : Nat) :
    tagAt (g ++ (w ++ (u ++ (m ++ z)))) start = (w, m, start + leadingBlanks g + w.length + u.length) := by
  obtain ⟨hend, htrim⟩ := hcore.trimSpace_eq hw' hm
  have hhead : ∀ b ∈ (Text.trimSpaceEnd (u ++ (m ++ z))).head?, Text.isAsciiBlank b = true := by
    rw [hend]
    obtain ⟨c, t, rfl⟩ := List.exists_cons_of_ne_nil hu
    intro b hb
    obtain rfl : c = b := Option.some.inj hb
    exact hblank c (List.mem_cons_self ..)
  have hlead : leadingBlanks (u ++ m) = u.length := by
    rw [leadingBlanks_eq, List.takeWhile_append_of_pos hblank]
    cases hcons : m with
    | nil => simp
    | cons b t =>
      have hstart : Text.trimForms Text.blanks (u ++ m) = b :: t := hcore.start_eq.trans hcons
      rw [List.takeWhile_cons_of_neg (by rw [Text.isAsciiBlank_of_trimForms hstart]; exact Bool.false_ne_true),
        List.append_nil]
  rw [tagAt_word hw hg hhead, hend, htrim, hlead]

theorem leadingBlanks_le (t : Text) : leadingBlanks t ≤ t.length := Nat.sub_le _ _

/-- What is counted as blanks are blanks. -/
theorem isAsciiBlank_of_leadingBlanks {u m : Text} (h : u.length ≤ leadingBlanks (u ++ m)) :
    ∀ b ∈ u, Text.isAsciiBlank b = true := by
  rw [leadingBlanks_eq] at h
  obtain ⟨t, ht⟩ : u <+: (u ++ m).takeWhile Text.isAsciiBlank :=
    List.prefix_of_prefix_length_le (List.prefix_append u m) (List.takeWhile_prefix _) h
  intro b hb
  refine List.all_eq_true.1 (List.all_takeWhile (p := Text.isAsciiBlank) (l := u ++ m)) b ?_
  rw [← ht]
  exact List.mem_append_left _ hb

/-! ## Edits that rename -/

/-- The edits put `render` in place of `include`, and no two of them overlap. -/
structure Renaming (src : Text) (edits : List Edit) : Prop extends EditsApart edits where
  stop_eq : ∀ e ∈ edits, e.stop = e.start + 7
  old_eq : ∀ e ∈ edits, Text.slice src e.start e.stop = "include"
  text_eq : ∀ e ∈ edits, e.text = "render"

theorem isWord_include : Text.IsWord "include" := ⟨by decide, by decide +kernel⟩

theorem isWord_render : Text.IsWord "render" := ⟨by decide, by decide +kernel⟩

theorem isWord_liquid : Text.IsWord "liquid" := ⟨by decide, by decide +kernel⟩

/-- Whether one of the edits stands between `lo` and `hi`. -/
def hasEdit (edits : List Edit) (lo hi : Nat) : Bool := edits.any fun e => lo ≤ e.start && e.stop ≤ hi

/-- What becomes of tokens and nodes: an `include` with an edit in it becomes a `render`, and the markup of a
`liquid` tag shows the edits in it. -/
def Recast.ofEdits (src : Text) (edits : List Edit) : Recast where
  move i := (edited src edits 0 i).length
  name start stop name := if name = "include" ∧ hasEdit edits start stop = true then "render" else name
  markup name start markup :=
    if name = "liquid" ∧ hasEdit edits start (start + markup.length) = true then
      edited src edits start (start + markup.length)
    else markup

theorem Recast.keeps_ofEdits (src : Text) (edits : List Edit) : (Recast.ofEdits src edits).Keeps where
  role_eq start stop name := by
    unfold Recast.ofEdits
    dsimp only
    split
    · rename_i h
      rw [h.1]
      decide
    · rfl
  name_eq start stop name hrole := by
    refine if_neg fun h => hrole ?_
    rw [h.1]
    decide
  markup_eq start markup := by
    unfold Recast.ofEdits
    dsimp only
    rw [if_neg fun h => absurd h.1 (by decide)]

section Renamings

variable {src : Text} {edits : List Edit} {lo mid hi : Nat}

theorem move_add (src : Text) (edits : List Edit) (hle : lo ≤ hi) :
    (Recast.ofEdits src edits).move lo + (edited src edits lo hi).length = (Recast.ofEdits src edits).move hi := by
  unfold Recast.ofEdits
  dsimp only
  rw [edited_append src edits (Nat.zero_le lo) hle, List.length_append]

theorem hasEdit_of_mem {e : Edit} (he : e ∈ edits) (hlo : lo ≤ e.start) (hhi : e.stop ≤ hi) :
    hasEdit edits lo hi = true :=
  List.any_eq_true.2 ⟨e, he, by simp [hlo, hhi]⟩

variable (h : Renaming src edits)

include h

theorem not_hasEdit (hfree : Untouched edits lo hi) : ¬ hasEdit edits lo hi = true := by
  intro hany
  obtain ⟨e, he, hinside⟩ := List.any_eq_true.1 hany
  have hinside : lo ≤ e.start ∧ e.stop ≤ hi := by simpa using hinside
  have := h.start_lt_stop e he
  have := hfree e he
  omega

/-- **What survives one name that is replaced survives all of them.** -/
theorem renamed_induction {Q : Text → Prop}
    (hstep : ∀ u v : Text, Q (u ++ (("include" : Text) ++ v)) → Q (u ++ (("render" : Text) ++ v)))
    (hle : lo ≤ hi) (hlo : Between edits lo) (hhi : Between edits hi) (hold : Q (Text.slice src lo hi)) :
    Q (edited src edits lo hi) := by
  refine edited_induction h.toEditsApart (fun e he _ _ u v hQ => ?_) hle hlo hhi hold
  rw [h.old_eq e he] at hQ
  rw [h.text_eq e he]
  exact hstep u v hQ

/-- Places behind each other with no edit between them keep their distance. -/
theorem move_of_untouched (hle : lo ≤ hi) (hsize : hi ≤ src.length) (hfree : Untouched edits lo hi) :
    (Recast.ofEdits src edits).move hi = (Recast.ofEdits src edits).move lo + (hi - lo) := by
  rw [← move_add src edits hle, edited_of_untouched h.toEditsApart hle hfree, Text.length_slice hsize]

/-- An edit takes one byte away. -/
theorem move_of_mem {e : Edit} (he : e ∈ edits) :
    (Recast.ofEdits src edits).move e.stop = (Recast.ofEdits src edits).move e.start + 6 := by
  rw [← move_add src edits (Nat.le_of_lt (h.start_lt_stop e he)), edited_of_mem h.toEditsApart he, h.text_eq e he]
  rfl

/-- **Edits in a part of the bytes** leave what stands around it. -/
theorem edited_of_part {p m z : Text} {start stop : Nat} (hle : lo ≤ hi) (hsize : hi ≤ src.length)
    (hslice : Text.slice src lo hi = p ++ (m ++ z)) (hstart : start = lo + p.length)
    (hstop : stop = start + m.length) (hbefore : Untouched edits lo start) (hafter : Untouched edits stop hi) :
    edited src edits lo hi = p ++ (edited src edits start stop ++ z) := by
  have hlength := congrArg List.length hslice
  rw [Text.length_slice hsize] at hlength
  have hhi : hi = lo + (p ++ (m ++ z)).length := by omega
  obtain ⟨hfront, hrest⟩ := Text.slice_halves (by rwa [← hhi])
  obtain ⟨_, hback⟩ := Text.slice_halves hrest
  simp only [List.length_append] at hlength
  rw [← hstart] at hfront hback
  rw [← hstop, show stop + z.length = hi from by omega] at hback
  rw [edited_append src edits (by omega : lo ≤ start) (by omega : start ≤ hi),
    edited_append src edits (by omega : start ≤ stop) (by omega : stop ≤ hi),
    edited_of_untouched h.toEditsApart (by omega) hbefore, edited_of_untouched h.toEditsApart (by omega) hafter,
    hfront, hback]

/-- Places behind a single edit come one byte nearer. -/
theorem move_of_single {e : Edit} (he : e ∈ edits) (hlo : lo ≤ e.start) (hhi : e.stop ≤ hi) (hsize : hi ≤ src.length)
    (hbefore : Untouched edits lo e.start) (hafter : Untouched edits e.stop hi) :
    (Recast.ofEdits src edits).move hi + 1 = (Recast.ofEdits src edits).move lo + (hi - lo) := by
  have hstop := h.stop_eq e he
  rw [move_of_untouched h hhi hsize hafter, move_of_mem h he, move_of_untouched h hlo (by omega) hbefore]
  omega

end Renamings

/-! ## Names of tags -/

/-- The edit `e` stands at the name of an `include` tag: of the tag `tok`, or of a line of its markup, which
stands where the tag says. -/
inductive Names (src : Text) (e : Edit) : Token → Prop where
  | here {tok : Token} {i : Nat} (hkind : tok.kind = .tag) (hname : tok.name = "include")
      (hfound : Text.offsetOf? (Text.slice src tok.start tok.markupStart) "include" = some i)
      (hstart : e.start = tok.start + i) : Names src e tok
  | line {tok line : Token} (hkind : tok.kind = .tag) (hname : tok.name = "liquid")
      (hplace : Text.slice src tok.markupStart (tok.markupStart + tok.markup.length) = tok.markup)
      (hline : line ∈ liquidLines tok.markup tok.markupStart) (h : Names src e line) : Names src e tok

theorem Names.kind_eq {src : Text} {e : Edit} {tok : Token} (h : Names src e tok) : tok.kind = .tag := by
  cases h with
  | here hkind _ _ _ | line hkind _ _ _ _ => exact hkind

/-- The edits do not stand at end tags. -/
theorem Names.not_closes {src : Text} {e : Edit} {tok : Token} (h : Names src e tok) (block : Text) :
    tagRole tok.name ≠ .closes block := by
  cases h with
  | here _ hname _ _ | line _ hname _ _ _ =>
    rw [hname]
    exact nofun

/-- A name that is found stands in front of the markup. -/
theorem le_markup_of_found {src : Text} {tok : Token} {i : Nat}
    (hfound : Text.offsetOf? (Text.slice src tok.start tok.markupStart) "include" = some i) :
    tok.start + i + 7 ≤ tok.markupStart := by
  obtain ⟨u, v, hslice, hlength⟩ := Text.exists_of_offsetOf? hfound
  have hsize := congrArg List.length hslice
  have hword : ("include" : Text).length = 7 := by decide
  simp only [Text.slice, List.length_take, List.length_append, hword] at hsize
  omega

theorem Names.bounds {src : Text} {e : Edit} {tok : Token} (h : Names src e tok) (he : e.stop = e.start + 7)
    (hplaced : tok.Placed) : tok.start ≤ e.start ∧ e.stop ≤ tok.stop := by
  induction h with
  | here _ _ hfound hstart =>
    have := le_markup_of_found hfound
    have := hplaced.markup_le_stop
    omega
  | line _ _ _ hline _ ih =>
    obtain ⟨hlo, hline, hhi⟩ := (follows_liquidLines _ _).placed hline
    have := ih hline
    have := hplaced.start_le_markup
    have := hplaced.markup_le_stop
    omega

/-- The token is read from the bytes from `lo` up to `hi`, and all edits in it stand at its name, or at names
of its lines. -/
structure Zone (src : Text) (edits : List Edit) (tok : Token) (lo hi : Nat) : Prop where
  placed : tok.Placed
  start_le : tok.start ≤ lo
  le : lo ≤ hi
  le_size : hi ≤ src.length
  front : ('i' : UInt8) ∉ Text.slice src tok.start lo
  read : tagAt (Text.slice src lo hi) lo = (tok.name, tok.markup, tok.markupStart)
  edits : ∀ e ∈ edits, e.stop ≤ tok.start ∨ tok.stop ≤ e.start ∧ hi ≤ e.start ∨ Names src e tok

/-- What is read from the bytes when the edits are made is the token with its parts changed. -/
structure Zone.Kept (src : Text) (edits : List Edit) (tok : Token) (lo hi : Nat) : Prop where
  read : tagAt (edited src edits lo hi) ((Recast.ofEdits src edits).move lo) =
    ((tok.recast (.ofEdits src edits)).name, (tok.recast (.ofEdits src edits)).markup,
      (tok.recast (.ofEdits src edits)).markupStart)
  blanks : leadingBlanks (edited src edits lo hi) = leadingBlanks (Text.slice src lo hi)
  stop : (Recast.ofEdits src edits).move
      (lo + leadingBlanks (Text.slice src lo hi) + (Text.trimSpace (Text.slice src lo hi)).length) =
    (Recast.ofEdits src edits).move lo + leadingBlanks (Text.slice src lo hi) +
      (Text.trimSpace (edited src edits lo hi)).length

theorem tagAt_places (t : Text) (start : Nat) :
    start ≤ (tagAt t start).2.2 ∧
      (tagAt t start).2.2 + (tagAt t start).2.1.length ≤ start + leadingBlanks t + (Text.trimSpace t).length ∧
      leadingBlanks t + (Text.trimSpace t).length ≤ t.length := by
  have hsplit := splitTag_places (Text.trimSpace t) (start + leadingBlanks t)
  have htrim := leadingBlanks_add_length_trimSpace_le t
  unfold tagAt
  omega

theorem tagAt_start (t : Text) (start : Nat) :
    tagAt t start = ((tagAt t 0).1, (tagAt t 0).2.1, start + (tagAt t 0).2.2) := by
  unfold tagAt
  rw [splitTag_start _ (start + _), splitTag_start _ (0 + _)]
  simp only [Nat.zero_add, Nat.add_assoc]

namespace Zone

variable {src : Text} {edits : List Edit} {tok : Token} {lo hi : Nat}

theorem length_slice (zone : Zone src edits tok lo hi) : (Text.slice src lo hi).length = hi - lo :=
  Text.length_slice zone.le_size lo

/-- The markup ends in the bytes that the token is read from. -/
theorem markup_le (zone : Zone src edits tok lo hi) :
    lo ≤ tok.markupStart ∧ tok.markupStart + tok.markup.length ≤ hi := by
  have hplaces := tagAt_places (Text.slice src lo hi) lo
  rw [zone.read, zone.length_slice] at hplaces
  have := zone.le
  dsimp only at hplaces
  omega

/-- Without edits, everything moves alike. -/
theorem kept_of_untouched (zone : Zone src edits tok lo hi) (h : Renaming src edits)
    (hfree : Untouched edits lo hi) (hfree' : Untouched edits tok.start tok.stop) :
    Kept src edits tok lo hi := by
  have hsame := @edited_of_untouched src edits lo hi h.toEditsApart zone.le hfree
  have hmarkup := zone.markup_le
  have hmove (i : Nat) (hlo : lo ≤ i) (hhi : i ≤ hi) :
      (Recast.ofEdits src edits).move i = (Recast.ofEdits src edits).move lo + (i - lo) :=
    move_of_untouched h hlo (Nat.le_trans hhi zone.le_size) (hfree.mono (Nat.le_refl _) hhi)
  have hname : (tok.recast (.ofEdits src edits)).name = tok.name :=
    if_neg fun hedit => not_hasEdit h hfree' hedit.2
  have hmarkup' : (tok.recast (.ofEdits src edits)).markup = tok.markup :=
    if_neg fun hedit => not_hasEdit h (hfree.mono hmarkup.1 hmarkup.2) hedit.2
  have hplaces := tagAt_places (Text.slice src lo hi) lo
  have hle := zone.le
  rw [zone.length_slice] at hplaces
  refine ⟨?_, by rw [hsame], ?_⟩
  · have hread := zone.read
    rw [tagAt_start] at hread
    obtain ⟨h₁, h₂, h₃⟩ : _ ∧ _ ∧ _ := by simpa only [Prod.mk.injEq] using hread
    rw [hsame, hname, hmarkup', tagAt_start, h₁, h₂]
    refine congrArg (fun i => (tok.name, tok.markup, i)) ?_
    show _ = (Recast.ofEdits src edits).move tok.markupStart
    rw [hmove tok.markupStart hmarkup.1 (by omega), ← h₃]
    omega
  · rw [hsame, hmove _ (by omega) (by omega)]
    omega

/-- **A name that is found is the name that is read.** -/
theorem exists_name (zone : Zone src edits tok lo hi) (hname : tok.name = "include") {i : Nat}
    (hfound : Text.offsetOf? (Text.slice src tok.start tok.markupStart) "include" = some i) :
    ∃ g v, Text.slice src lo hi = g ++ (("include" : Text) ++ v) ∧ Text.trimSpaceStart g = [] ∧
      (∀ b ∈ (Text.trimSpaceEnd v).head?, Text.isAsciiBlank b = true) ∧ tok.start + i = lo + g.length := by
  have hread := congrArg Prod.fst zone.read
  obtain ⟨g, v, hslice, hg, hv⟩ := exists_of_tagAt isWord_include (hread.trans hname)
  refine ⟨g, v, hslice, hg, hv, ?_⟩
  have hmarkup := zone.markup_le
  have hplaced := zone.placed.start_le_markup
  have hstart := zone.start_le
  have hle := le_markup_of_found hfound
  have hsize := zone.le_size
  -- in front of the name there are the opener and white space
  have hfront : ('i' : UInt8) ∉ Text.slice src tok.start lo ++ g := by
    intro hmem
    rcases List.mem_append.1 hmem with hmem | hmem
    · exact zone.front hmem
    · obtain ⟨u, hu, hlower⟩ := Text.exists_trimSpaceStart g
      rw [hg, List.append_nil] at hu
      rw [hu] at hmem
      exact absurd (hlower _ hmem) (by decide)
  have hwhole : Text.slice src tok.start hi =
      (Text.slice src tok.start lo ++ g) ++ (("include" : Text) ++ v) := by
    rw [Text.slice_split src hstart zone.le, hslice, List.append_assoc]
  have hfirst : Text.offsetOf? (Text.slice src tok.start hi) "include" =
      some (Text.slice src tok.start lo ++ g).length := by
    rw [hwhole]
    exact Text.offsetOf?_of_not_mem hfront _ v
  rw [Text.slice_split src (by omega : tok.start ≤ tok.markupStart) (by omega : tok.markupStart ≤ hi)] at hfirst
  have hinside : i + ("include" : Text).length ≤ (Text.slice src tok.start tok.markupStart).length := by
    have hword : ("include" : Text).length = 7 := by decide
    rw [hword, Text.length_slice (by omega)]
    omega
  rw [(Text.offsetOf?_append_iff hinside _).2 hfound] at hfirst
  have hplace := Option.some.inj hfirst
  rw [List.length_append, Text.length_slice (by omega)] at hplace
  omega

/-- All edits in an `include` tag stand at its name. -/
theorem edits_of_include (zone : Zone src edits tok lo hi) (hname : tok.name = "include") {i : Nat}
    (hfound : Text.offsetOf? (Text.slice src tok.start tok.markupStart) "include" = some i) :
    ∀ e ∈ edits, e.stop ≤ tok.start ∨ hi ≤ e.start ∨ e.start = tok.start + i := by
  intro e he
  rcases zone.edits e he with hlo | hhi | hnames
  · exact .inl hlo
  · exact .inr (.inl hhi.2)
  · cases hnames with
    | here _ _ hfound' hstart =>
      rw [hfound] at hfound'
      have := Option.some.inj hfound'
      omega
    | line _ hname' _ _ _ =>
      rw [hname] at hname'
      exact absurd hname' (by decide)

/-- **An edit at the name of the tag** replaces the name and nothing else. -/
theorem kept_of_here (zone : Zone src edits tok lo hi) (h : Renaming src edits) {e : Edit} (he : e ∈ edits)
    (hname : tok.name = "include") {i : Nat}
    (hfound : Text.offsetOf? (Text.slice src tok.start tok.markupStart) "include" = some i)
    (hstart : e.start = tok.start + i) : Kept src edits tok lo hi := by
  obtain ⟨g, v, hslice, hg, hv, hplace⟩ := zone.exists_name hname hfound
  have hmarkup := zone.markup_le
  have hfirst := zone.start_le
  have hle := le_markup_of_found hfound
  have hsize := zone.le_size
  have hstop := h.stop_eq e he
  have hsame := zone.edits_of_include hname hfound
  have hbefore : Untouched edits lo e.start := by
    intro e' he'
    have := hsame e' he'
    omega
  have hafter : Untouched edits e.stop hi := by
    intro e' he'
    have := hsame e' he'
    have := h.stop_eq e' he'
    omega
  have hword : ("include" : Text).length = 7 := by decide
  have hedited := edited_of_part h zone.le hsize hslice (by omega) (by omega : e.stop = e.start + _) hbefore hafter
  rw [edited_of_mem h.toEditsApart he, h.text_eq e he] at hedited
  have hmove (j : Nat) (hj : e.stop ≤ j) (hj' : j ≤ hi) :
      (Recast.ofEdits src edits).move j + 1 = (Recast.ofEdits src edits).move lo + (j - lo) :=
    move_of_single h he (by omega) hj (by omega) hbefore (hafter.mono (Nat.le_refl _) hj')
  have hread := zone.read
  rw [hslice, tagAt_word isWord_include hg hv] at hread
  obtain ⟨_, hmarkup', hplace'⟩ : _ ∧ _ ∧ _ := by simpa only [Prod.mk.injEq] using hread
  have hplaces := tagAt_places (Text.slice src lo hi) lo
  rw [zone.read, zone.length_slice] at hplaces
  dsimp only at hplaces
  have hblanks : leadingBlanks (Text.slice src lo hi) = leadingBlanks g := by
    rw [hslice, Text.leadingBlanks_word isWord_include]
  have hrender : ("render" : Text).length = 6 := by decide
  refine ⟨?_, ?_, ?_⟩
  · have hname' : (tok.recast (.ofEdits src edits)).name = "render" :=
      if_pos ⟨hname, hasEdit_of_mem he (by omega) (by have := zone.placed.markup_le_stop; omega)⟩
    have hmarkup'' : (tok.recast (.ofEdits src edits)).markup = tok.markup := by
      refine if_neg fun hedit => ?_
      rw [hname] at hedit
      exact absurd hedit.1 (by decide)
    rw [hedited, tagAt_word isWord_render hg hv, hname', hmarkup'', hmarkup']
    refine congrArg (fun j => (("render" : Text), tok.markup, j)) ?_
    show _ = (Recast.ofEdits src edits).move tok.markupStart
    have := hmove tok.markupStart (by omega) (by omega)
    omega
  · rw [hedited, Text.leadingBlanks_word isWord_render, hblanks]
  · have htrim : (Text.trimSpace (Text.slice src lo hi)).length = 7 + (Text.trimSpaceEnd v).length := by
      rw [hslice, Text.trimSpace_word isWord_include, hg, List.nil_append, List.length_append, hword]
    rw [hblanks, htrim] at hplaces ⊢
    have hbehind : e.stop ≤ lo + leadingBlanks g + (7 + (Text.trimSpaceEnd v).length) := by omega
    have := hmove _ hbehind (by omega)
    rw [hedited, Text.trimSpace_word isWord_render, hg, List.nil_append, List.length_append, hrender]
    omega

/-- **A `liquid` tag with its markup where it says**: the name, blanks, the markup and what is trimmed behind
it. -/
theorem exists_markup (zone : Zone src edits tok lo hi) (hname : tok.name = "liquid")
    (hplace : Text.slice src tok.markupStart (tok.markupStart + tok.markup.length) = tok.markup)
    {x y : Text} (hword : tok.markup = x ++ (("include" : Text) ++ y)) :
    ∃ g u z, Text.slice src lo hi = g ++ (("liquid" : Text) ++ (u ++ (tok.markup ++ z))) ∧
      Text.trimSpaceStart g = [] ∧ u ≠ [] ∧ (∀ b ∈ u, Text.isAsciiBlank b = true) ∧
      Text.Core u z tok.markup ∧ leadingBlanks g = g.length ∧
      tok.markupStart = lo + (g ++ (("liquid" : Text) ++ u)).length := by
  have hread := zone.read
  obtain ⟨g, v, hslice, hg, hv⟩ := exists_of_tagAt isWord_liquid ((congrArg Prod.fst hread).trans hname)
  rw [hslice, tagAt_word isWord_liquid hg hv] at hread
  obtain ⟨_, hmarkup, hstart⟩ : _ ∧ _ ∧ _ := by simpa only [Prod.mk.injEq] using hread
  obtain ⟨u, z, hcut, hend, hcore, hu, hlower⟩ := Text.exists_core isWord_include hmarkup hword hv
  have hletter : ('n' : UInt8) ∈ tok.markup := by
    rw [hword]
    exact List.mem_append_right _ (List.mem_append_left _ (by decide))
  have hother : ('n' : UInt8) ∉ g ++ (("liquid" : Text) ++ u) := by
    obtain ⟨g', hg', hglower⟩ := Text.exists_trimSpaceStart g
    rw [hg, List.append_nil] at hg'
    intro hmem
    rcases List.mem_append.1 hmem with hmem | hmem
    · rw [hg'] at hmem
      exact absurd (hglower _ hmem) (by decide)
    · rcases List.mem_append.1 hmem with hmem | hmem
      · exact absurd hmem (by decide)
      · exact absurd (hlower _ hmem) (by decide)
  -- the markup is counted to stand no later than where it is read
  have hgle := leadingBlanks_le g
  have hule := leadingBlanks_add_length_trimSpace_le (Text.trimSpaceEnd v)
  rw [hmarkup, hend, List.length_append] at hule
  rw [hend] at hstart
  have hbounds := zone.markup_le
  have hword' : ("liquid" : Text).length = 6 := by decide
  have hlength : (g ++ (("liquid" : Text) ++ u)).length = g.length + 6 + u.length := by
    simp only [List.length_append, hword']
    omega
  have hcount : tok.markupStart - lo ≤ (g ++ (("liquid" : Text) ++ u)).length := by omega
  have hall : Text.slice src lo hi = (g ++ (("liquid" : Text) ++ u)) ++ (tok.markup ++ z) := by
    rw [hslice, hcut]
    simp only [List.append_assoc]
  have hpre : (g ++ (("liquid" : Text) ++ u)).drop (tok.markupStart - lo) = [] := by
    refine @Text.eq_nil_of_append_eq 'n' _ tok.markup z (Text.slice src (tok.markupStart + tok.markup.length) hi)
      hletter (fun hmem => hother (List.mem_of_mem_drop hmem)) ?_
    rw [← List.drop_append_of_le_length hcount, ← hall, Text.slice_split src hbounds.1 (by omega),
      Text.slice_split src (Nat.le_add_right _ _) hbounds.2, hplace]
    exact List.drop_left' (Text.length_slice (by have := zone.le_size; omega) _)
  have hexact := List.drop_eq_nil_iff.1 hpre
  refine ⟨g, u, z, by rw [hslice, hcut], hg, hu, ?_, hcore, by omega, by omega⟩
  exact isAsciiBlank_of_leadingBlanks (m := tok.markup) (by omega)

/-- The name of a line stands in the markup. -/
theorem le_of_line (h : Renaming src edits) {e : Edit} (he : e ∈ edits) {line : Token}
    (hline : line ∈ liquidLines tok.markup tok.markupStart) (hnames : Names src e line) :
    tok.markupStart ≤ e.start ∧ e.stop ≤ tok.markupStart + tok.markup.length := by
  obtain ⟨hlo, hplaced, hhi⟩ := (follows_liquidLines _ _).placed hline
  have := hnames.bounds (h.stop_eq e he) hplaced
  omega

/-- All edits in a `liquid` tag stand in its markup. -/
theorem edits_of_liquid (zone : Zone src edits tok lo hi) (h : Renaming src edits) (hname : tok.name = "liquid") :
    ∀ e ∈ edits, e.stop ≤ tok.start ∨ hi ≤ e.start ∨
      tok.markupStart ≤ e.start ∧ e.stop ≤ tok.markupStart + tok.markup.length := by
  intro e he
  rcases zone.edits e he with hlo | hhi | hnames
  · exact .inl hlo
  · exact .inr (.inl hhi.2)
  · cases hnames with
    | here _ hname' _ _ =>
      rw [hname] at hname'
      exact absurd hname' (by decide)
    | line _ _ _ hline hnames => exact .inr (.inr (le_of_line h he hline hnames))

/-- The name of a line is a word in the markup. -/
theorem markup_of_line (h : Renaming src edits) {e : Edit} (he : e ∈ edits)
    (hplace : Text.slice src tok.markupStart (tok.markupStart + tok.markup.length) = tok.markup)
    (hfirst : tok.markupStart ≤ e.start) (hlast : e.stop ≤ tok.markupStart + tok.markup.length) :
    tok.markup = Text.slice src tok.markupStart e.start ++ (("include" : Text) ++
      Text.slice src e.stop (tok.markupStart + tok.markup.length)) := by
  have hlt := h.start_lt_stop e he
  rw [← h.old_eq e he, ← Text.slice_split src (Nat.le_of_lt hlt) hlast,
    ← Text.slice_split src hfirst (by omega), hplace]

/-- **Edits in the lines of the tag** change its markup and nothing else. -/
theorem kept_of_line (zone : Zone src edits tok lo hi) (h : Renaming src edits) {e : Edit} (he : e ∈ edits)
    (hname : tok.name = "liquid")
    (hplace : Text.slice src tok.markupStart (tok.markupStart + tok.markup.length) = tok.markup)
    {line : Token} (hline : line ∈ liquidLines tok.markup tok.markupStart) (hnames : Names src e line) :
    Kept src edits tok lo hi := by
  obtain ⟨hfirst, hlast⟩ := le_of_line h he hline hnames
  have hlt := h.start_lt_stop e he
  have hword := markup_of_line h he hplace hfirst hlast
  obtain ⟨g, u, z, hslice, hg, hu, hblank, hcore, hgblank, hstart⟩ := zone.exists_markup hname hplace hword
  have hbounds := zone.markup_le
  have hsize := zone.le_size
  obtain ⟨hbefore, hafter, hbetween, hbetween'⟩ : Untouched edits lo tok.markupStart ∧
      Untouched edits (tok.markupStart + tok.markup.length) hi ∧ Between edits tok.markupStart ∧
      Between edits (tok.markupStart + tok.markup.length) := by
    have hstartLe := zone.start_le
    refine ⟨?_, ?_, ?_, ?_⟩
    all_goals
      intro e' he'
      have := zone.edits_of_liquid h hname e' he'
      omega
  -- the markup, with its lines renamed
  have hcore' : Text.Core u z (edited src edits tok.markupStart (tok.markupStart + tok.markup.length)) :=
    renamed_induction h (fun x y hcore => hcore.replace isWord_include isWord_render)
      (Nat.le_add_right _ _) hbetween hbetween' (by rwa [hplace])
  have hword' : edited src edits tok.markupStart (tok.markupStart + tok.markup.length) =
      edited src edits tok.markupStart e.start ++ (("render" : Text) ++
        edited src edits e.stop (tok.markupStart + tok.markup.length)) := by
    rw [edited_append src edits hfirst (by omega : e.start ≤ tok.markupStart + tok.markup.length),
      edited_append src edits (Nat.le_of_lt hlt) hlast, edited_of_mem h.toEditsApart he, h.text_eq e he]
  have hedited : edited src edits lo hi = g ++ (("liquid" : Text) ++ (u ++
      (edited src edits tok.markupStart (tok.markupStart + tok.markup.length) ++ z))) := by
    have hparts : Text.slice src lo hi = (g ++ (("liquid" : Text) ++ u)) ++ (tok.markup ++ z) := by
      rw [hslice]
      simp only [List.append_assoc]
    rw [edited_of_part h zone.le hsize hparts hstart rfl hbefore hafter]
    simp only [List.append_assoc]
  have hmove : (Recast.ofEdits src edits).move tok.markupStart =
      (Recast.ofEdits src edits).move lo + (tok.markupStart - lo) :=
    move_of_untouched h hbounds.1 (by omega) hbefore
  have hliquid : ("liquid" : Text).length = 6 := by decide
  simp only [List.length_append, hliquid] at hstart
  refine ⟨?_, ?_, ?_⟩
  · have hname' : (tok.recast (.ofEdits src edits)).name = tok.name := by
      refine if_neg fun hedit => ?_
      rw [hname] at hedit
      exact absurd hedit.1 (by decide)
    have hmarkup' : (tok.recast (.ofEdits src edits)).markup =
        edited src edits tok.markupStart (tok.markupStart + tok.markup.length) :=
      if_pos ⟨hname, hasEdit_of_mem he hfirst hlast⟩
    rw [hedited, tagAt_core isWord_liquid hg hu hblank hcore' isWord_render hword', hname', hname, hmarkup']
    simp only [Prod.mk.injEq, true_and]
    show _ = (Recast.ofEdits src edits).move tok.markupStart
    rw [hmove, hgblank, hliquid]
    omega
  · rw [hedited, hslice, Text.leadingBlanks_word isWord_liquid, Text.leadingBlanks_word isWord_liquid]
  · obtain ⟨hold, _⟩ := hcore.trimSpace_eq isWord_include hword
    obtain ⟨hnew, _⟩ := hcore'.trimSpace_eq isWord_render hword'
    rw [hedited, hslice, Text.leadingBlanks_word isWord_liquid, Text.trimSpace_word isWord_liquid,
      Text.trimSpace_word isWord_liquid, hg, hold, hnew, hgblank]
    simp only [List.nil_append, List.length_append, hliquid]
    have hadd := move_add src edits (Nat.le_add_right tok.markupStart tok.markup.length)
    have hplaceEq : lo + g.length + (6 + (u.length + tok.markup.length)) =
        tok.markupStart + tok.markup.length := by omega
    rw [hplaceEq, ← hadd, hmove]
    omega

/-- What stands at names of the tag stands in the bytes that it is read from. -/
theorem bounds_of_names (zone : Zone src edits tok lo hi) (h : Renaming src edits) {e : Edit} (he : e ∈ edits)
    (hnames : Names src e tok) : lo ≤ e.start ∧ e.stop ≤ hi := by
  have hmarkup := zone.markup_le
  cases hnames with
  | here _ hname hfound hstart =>
    obtain ⟨g, _, _, _, _, hplace⟩ := zone.exists_name hname hfound
    have := le_markup_of_found hfound
    have := h.stop_eq e he
    omega
  | line _ _ _ hline hnames =>
    have := le_of_line h he hline hnames
    omega

/-- **A tag is read again with its name or its markup changed.** -/
theorem kept (zone : Zone src edits tok lo hi) (h : Renaming src edits) : Kept src edits tok lo hi := by
  by_cases hany : ∃ e ∈ edits, Names src e tok
  · obtain ⟨e, he, hnames⟩ := hany
    cases hnames with
    | here _ hname hfound hstart => exact zone.kept_of_here h he hname hfound hstart
    | line _ hname hplace hline hnames => exact zone.kept_of_line h he hname hplace hline hnames
  · have hfree : ∀ e ∈ edits, e.stop ≤ tok.start ∨ tok.stop ≤ e.start ∧ hi ≤ e.start := by
      intro e he
      rcases zone.edits e he with hlo | hhi | hnames
      · exact .inl hlo
      · exact .inr hhi
      · exact absurd ⟨e, he, hnames⟩ hany
    have hstart := zone.start_le
    refine zone.kept_of_untouched h ?_ ?_
    all_goals
      intro e he
      have := hfree e he
      omega

end Zone

end Liquid
end LiquidLint
