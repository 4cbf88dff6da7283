import LiquidLint.Proofs.EditMerge
import LiquidLint.Proofs.StoredForm
import LiquidLint.Proofs.Trimming

/-!
# Edits of a stored content

Edits count the bytes of a source, which has neither a byte order mark nor line breaks in two bytes.
Each byte of the source stands for one or two stored bytes (`cells`), so that an edit has a place in
the stored content (`storedEdit`).

A corrected content is the stored content with the edits made there, while what stands between them is
copied with its line breaks written in the way of the file (`content_eq_patchWith`).  Where the line
breaks of a content are written alike, it is copied byte by byte; where they are not, the corrected
content has other bytes outside of the edits too (`correction_touches_mixed_breaks`).
-/

namespace LiquidLint
namespace Source

/-! ## Cells -/

/-- A byte of a source with the bytes that it is stored as. -/
structure Cell where
  byte : UInt8
  stored : Text
deriving DecidableEq

/-- A byte that is stored as it is. -/
def Cell.plain (b : UInt8) : Cell := ⟨b, [b]⟩

/-- A line break that is stored in two bytes. -/
def Cell.crlf : Cell := ⟨'\n', "\r\n"⟩

/-- The bytes of the source of a content, each with the bytes that it is stored as. -/
def cells : Text → List Cell
  | [] => []
  | [b] => [.plain b]
  | a :: b :: rest => if a = '\r' ∧ b = '\n' then .crlf :: cells rest else .plain a :: cells (b :: rest)

/-- The stored bytes of cells. -/
def storedBytes (cs : List Cell) : Text := cs.flatMap Cell.stored

theorem storedBytes_append (xs ys : List Cell) :
    storedBytes (xs ++ ys) = storedBytes xs ++ storedBytes ys := List.flatMap_append

theorem cells_crlf (t : Text) : cells ('\r' :: '\n' :: t) = .crlf :: cells t := by
  rw [cells, if_pos ⟨rfl, rfl⟩]

theorem cells_cons {a : UInt8} {t : Text} (h : ¬ (a = '\r' ∧ t.head? = some ('\n' : UInt8))) :
    cells (a :: t) = .plain a :: cells t := by
  cases t with
  | nil => rfl
  | cons b t =>
    rw [cells, if_neg]
    rintro ⟨rfl, rfl⟩
    exact h ⟨rfl, rfl⟩

/-- A content is a line break in two bytes and a rest, or a byte and a rest. -/
theorem cells_induction {motive : Text → Prop} (nil : motive [])
    (crlf : ∀ t, motive t → motive ('\r' :: '\n' :: t))
    (cons : ∀ (a : UInt8) (t : Text), ¬ (a = '\r' ∧ t.head? = some ('\n' : UInt8)) → motive t → motive (a :: t)) (t : Text) :
    motive t := by
  fun_induction cells t with
  | case1 => exact nil
  | case2 b => exact cons b [] (fun h => nomatch h.2) nil
  | case3 a b rest h ih =>
    obtain ⟨rfl, rfl⟩ := h
    exact crlf rest ih
  | case4 a b rest h ih =>
    exact cons a (b :: rest) (fun hbreak => h ⟨hbreak.1, Option.some.inj hbreak.2⟩) ih

theorem storedBytes_cells (t : Text) : storedBytes (cells t) = t := by
  induction t using cells_induction with
  | nil => rfl
  | crlf t ih =>
    rw [cells_crlf]
    show ("\r\n" : Text) ++ storedBytes (cells t) = _
    rw [ih]
    rfl
  | cons a t h ih =>
    rw [cells_cons h]
    show [a] ++ storedBytes (cells t) = _
    rw [ih]
    rfl

/-- The bytes of the cells are the content with plain line breaks. -/
theorem map_fst_cells (t : Text) : (cells t).map Cell.byte = Text.replaceText t "\r\n" "\n" := by
  show _ = Text.replaceFrom "\r\n" "\n" 0 t
  induction t using cells_induction with
  | nil => rfl
  | crlf t ih =>
    rw [cells_crlf, List.map_cons, ih, Text.replaceFrom, if_pos ((startsWith_crlf _ _).2 ⟨rfl, rfl⟩)]
    rfl
  | cons a t h ih =>
    rw [cells_cons h, List.map_cons, ih, Text.replaceFrom,
      if_neg fun hstarts => h ((startsWith_crlf _ _).1 hstarts)]
    rfl

/-- A cell is a byte that is stored as it is, or a line break in two bytes. -/
theorem eq_of_mem_cells {t : Text} {c : Cell} (hc : c ∈ cells t) :
    c.stored = [c.byte] ∨ c = .crlf := by
  induction t using cells_induction with
  | nil => cases hc
  | crlf t ih =>
    rw [cells_crlf] at hc
    rcases List.mem_cons.1 hc with rfl | hc
    · exact .inr rfl
    · exact ih hc
  | cons a t h ih =>
    rw [cells_cons h] at hc
    rcases List.mem_cons.1 hc with rfl | hc
    · exact .inl rfl
    · exact ih hc

/-- Cells next to each other are the cells of their bytes. -/
theorem cells_storedBytes {t : Text} {xs ys : List Cell} (h : cells t = xs ++ ys) :
    cells (storedBytes xs) = xs ∧ cells (storedBytes ys) = ys := by
  induction t using cells_induction generalizing xs with
  | nil =>
    obtain ⟨rfl, rfl⟩ := List.append_eq_nil_iff.1 h.symm
    exact ⟨rfl, rfl⟩
  | crlf t ih =>
    rw [cells_crlf] at h
    cases xs with
    | nil =>
      obtain rfl : .crlf :: cells t = ys := h
      refine ⟨rfl, ?_⟩
      rw [← cells_crlf, storedBytes_cells]
    | cons x xs =>
      obtain ⟨rfl, hrest⟩ := List.cons.inj h
      obtain ⟨hxs, hys⟩ := ih hrest
      refine ⟨?_, hys⟩
      show cells ('\r' :: '\n' :: storedBytes xs) = _
      rw [cells_crlf, hxs]
  | cons a t hbreak ih =>
    rw [cells_cons hbreak] at h
    cases xs with
    | nil =>
      obtain rfl : .plain a :: cells t = ys := h
      refine ⟨rfl, ?_⟩
      rw [← cells_cons hbreak, storedBytes_cells]
    | cons x xs =>
      obtain ⟨rfl, hrest⟩ := List.cons.inj h
      have hrest : cells t = xs ++ ys := hrest
      obtain ⟨hxs, hys⟩ := ih hrest
      refine ⟨?_, hys⟩
      -- what follows `a` is a part of `t`, so that no line break comes about
      have hjoint : ¬ (a = '\r' ∧ (storedBytes xs).head? = some ('\n' : UInt8)) := by
        rintro ⟨ha, hhead⟩
        refine hbreak ⟨ha, ?_⟩
        rw [← storedBytes_cells t, hrest, storedBytes_append, List.head?_append, hhead]
        rfl
      show cells (a :: storedBytes xs) = _
      rw [cells_cons hjoint, hxs]

/-! ## Spelling line breaks -/

/-- The text with each line break written in the way of the file. -/
def LineBreak.spell (l : LineBreak) (t : Text) : Text :=
  t.flatMap fun (b : UInt8) => if b = '\n' then l.text else [b]

/-- A part of a stored content with its line breaks written in the way of the file. -/
def LineBreak.respell (l : LineBreak) (t : Text) : Text := l.spell (Text.replaceText t "\r\n" "\n")

theorem LineBreak.spell_append (l : LineBreak) (t u : Text) :
    l.spell (t ++ u) = l.spell t ++ l.spell u := List.flatMap_append

theorem LineBreak.spell_lf (t : Text) : LineBreak.lf.spell t = t := by
  unfold spell
  have hbyte (b : UInt8) : (if b = '\n' then LineBreak.lf.text else [b]) = [b] := by
    split
    · rename_i hb
      rw [hb]
      rfl
    · rfl
  simp only [hbyte]
  exact List.flatMap_singleton' t

theorem LineBreak.spell_crlf (t : Text) :
    LineBreak.crlf.spell t = Text.replaceText t "\n" "\r\n" := by
  show _ = Text.replaceFrom "\n" "\r\n" 0 t
  induction t with
  | nil => rfl
  | cons a t ih =>
    rw [replaceFrom_lf_cons, ← ih]
    rfl

/-- Line breaks that are written in the way of the file stay as they are. -/
theorem LineBreak.respell_storedBytes (l : LineBreak) {cs : List Cell}
    (hcells : cells (storedBytes cs) = cs) (halike : ∀ c ∈ cs, c.byte = '\n' → c.stored = l.text) :
    l.respell (storedBytes cs) = storedBytes cs := by
  unfold respell spell
  rw [← map_fst_cells, hcells, List.flatMap_map]
  unfold storedBytes
  refine List.flatMap_congr fun c hc => ?_
  split
  · rename_i hbreak
    exact (halike c hc hbreak).symm
  · rename_i hbreak
    rcases eq_of_mem_cells (hcells ▸ hc) with hplain | hcrlf
    · exact hplain.symm
    · exact absurd (congrArg Cell.byte hcrlf) hbreak

/-- Where line breaks are plain, every byte is stored as it is. -/
theorem stored_of_plainBreaks {t : Text} (h : PlainBreaks t) {c : Cell} (hc : c ∈ cells t) :
    c.stored = [c.byte] := by
  induction t using cells_induction with
  | nil => cases hc
  | crlf t ih =>
    rw [plainBreaks_cons, (startsWith_crlf _ _).2 ⟨rfl, rfl⟩] at h
    cases h.1
  | cons a t hbreak ih =>
    rw [cells_cons hbreak] at hc
    rcases List.mem_cons.1 hc with rfl | hc
    · rfl
    · exact ih ((plainBreaks_cons a t).1 h).2 hc

/-! ## Marks -/

/-- The byte order mark of a content, or nothing. -/
def markOf (stored : Text) : Text :=
  if Text.startsWith stored byteOrderMark then byteOrderMark else []

/-- The content behind its byte order mark. -/
def bodyOf (stored : Text) : Text := Text.trimStartText stored byteOrderMark

theorem markOf_append_bodyOf (stored : Text) : markOf stored ++ bodyOf stored = stored := by
  unfold markOf bodyOf Text.trimStartText Text.startsWith
  cases hmark : Text.dropStart? byteOrderMark stored with
  | none => rfl
  | some rest => exact (Text.dropStart?_eq_some.1 hmark).symm

/-- What follows a character of a well-formed text is well-formed. -/
theorem wellFormed_of_ofChar_append {c : Char} {t : Text} (h : Text.WellFormed (Text.ofChar c ++ t)) :
    Text.WellFormed t := by
  obtain ⟨cs, hcs⟩ := h
  cases cs with
  | nil => exact absurd (List.append_eq_nil_iff.1 hcs).1 (Text.ofChar_ne_nil c)
  | cons d ds =>
    have hread := Text.nextChar?_ofChar c t
    rw [hcs] at hread
    have hread' : Text.nextChar? (Text.ofChars (d :: ds)) = some (d, Text.ofChars ds) :=
      Text.nextChar?_ofChar d (Text.ofChars ds)
    rw [hread'] at hread
    exact ⟨ds, (congrArg Prod.snd (Option.some.inj hread)).symm⟩

/-- The source of a well-formed content is its body with plain line breaks. -/
theorem sourceOf_eq {stored : Text} (h : Text.WellFormed stored) :
    sourceOf stored = (cells (bodyOf stored)).map Cell.byte := by
  rw [map_fst_cells]
  unfold sourceOf
  have hbody : unmarked stored = bodyOf stored := by
    unfold unmarked bodyOf Text.trimStartText
    cases hmark : Text.dropStart? byteOrderMark stored with
    | none => rfl
    | some rest =>
      have hchar : byteOrderMark = Text.ofChar (Char.ofNat 0xFEFF) := by decide
      rw [Text.dropStart?_eq_some.1 hmark, hchar] at h
      exact (wellFormed_of_ofChar_append h).replaceInvalid_eq
  rw [hbody]

/-- A byte order mark is no line break. -/
theorem LineBreak.respell_markOf (l : LineBreak) (stored t : Text) :
    l.respell (markOf stored ++ t) = markOf stored ++ l.respell t := by
  unfold markOf
  split
  · unfold respell
    rw [← map_fst_cells, ← map_fst_cells]
    have hcells : cells (byteOrderMark ++ t) = [.plain 0xEF, .plain 0xBB, .plain 0xBF] ++
        cells t := by
      show cells (0xEF :: 0xBB :: 0xBF :: t) = _
      rw [cells_cons fun h => absurd h.1 (by decide), cells_cons fun h => absurd h.1 (by decide),
        cells_cons fun h => absurd h.1 (by decide)]
      rfl
    rw [hcells, List.map_append, LineBreak.spell_append]
    exact congrArg (· ++ _) (by cases l <;> decide)
  · rfl

/-! ## Places in a stored content -/

/-- Where the byte `i` of the source starts in the stored content. -/
def storedOffset (stored : Text) (i : Nat) : Nat :=
  (markOf stored).length + (storedBytes ((cells (bodyOf stored)).take i)).length

/-- An edit of the stored content: it replaces the stored bytes of what `e` replaces, and its line
breaks are written in the way of the file. -/
def storedEdit (stored : Text) (e : Edit) : Edit :=
  { e with
    start := storedOffset stored e.start
    stop := storedOffset stored e.stop
    text := (LineBreak.of stored).spell e.text }

/-- In a content with line breaks in two bytes, no line feed stands alone. -/
def UniformBreaks (stored : Text) : Prop :=
  LineBreak.of stored = .crlf → ∀ c ∈ cells (bodyOf stored), c.byte = '\n' → c = .crlf

/-- Uniform line breaks are written in the way of the file. -/
theorem UniformBreaks.stored_eq {stored : Text} (h : UniformBreaks stored) {c : Cell}
    (hc : c ∈ cells (bodyOf stored)) (hbreak : c.byte = '\n') :
    c.stored = (LineBreak.of stored).text := by
  cases hof : LineBreak.of stored with
  | crlf => rw [h hof c hc hbreak]; rfl
  | lf =>
    have hplain : PlainBreaks stored := by
      unfold LineBreak.of at hof
      split at hof
      · cases hof
      · rename_i hnone
        exact (hasText_crlf stored).1 (Bool.eq_false_iff.2 hnone)
    rw [← markOf_append_bodyOf stored] at hplain
    rw [stored_of_plainBreaks ((plainBreaks_append _ _).1 hplain).2.1 hc, hbreak]
    rfl

section Places

variable (stored : Text)

theorem storedOffset_zero : storedOffset stored 0 = (markOf stored).length := rfl

theorem storedOffset_length {n : Nat} (hn : (cells (bodyOf stored)).length ≤ n) :
    storedOffset stored n = stored.length := by
  unfold storedOffset
  rw [List.take_of_length_le hn, storedBytes_cells, ← List.length_append, markOf_append_bodyOf]

/-- The cells from the byte `i` up to the byte `j` of the source. -/
def cellsBetween (i j : Nat) : List Cell := ((cells (bodyOf stored)).drop i).take (j - i)

variable {i j : Nat} (hij : i ≤ j)

include hij

theorem storedOffset_eq_add :
    storedOffset stored j = storedOffset stored i + (storedBytes (cellsBetween stored i j)).length := by
  have htake : (cells (bodyOf stored)).take j =
      (cells (bodyOf stored)).take i ++ cellsBetween stored i j := by
    unfold cellsBetween
    rw [← List.take_add, Nat.add_sub_cancel' hij]
  unfold storedOffset
  rw [htake, storedBytes_append, List.length_append, Nat.add_assoc]

theorem storedOffset_mono : storedOffset stored i ≤ storedOffset stored j := by
  rw [storedOffset_eq_add stored hij]
  exact Nat.le_add_right ..

theorem cells_cellsBetween :
    cells (bodyOf stored) = (cells (bodyOf stored)).take i ++
      (cellsBetween stored i j ++ (cells (bodyOf stored)).drop j) := by
  unfold cellsBetween
  have hdrop : (cells (bodyOf stored)).drop j = ((cells (bodyOf stored)).drop i).drop (j - i) := by
    rw [List.drop_drop, Nat.add_sub_cancel' hij]
  rw [hdrop, List.take_append_drop, List.take_append_drop]

/-- What is stored between two bytes of the source is what is stored of the cells between them. -/
theorem slice_storedOffset :
    Text.slice stored (storedOffset stored i) (storedOffset stored j) =
      storedBytes (cellsBetween stored i j) := by
  have hbody := storedBytes_cells (bodyOf stored)
  rw [cells_cellsBetween stored hij, storedBytes_append, storedBytes_append] at hbody
  have hstored := markOf_append_bodyOf stored
  rw [← hbody, ← List.append_assoc] at hstored
  have hslice := Text.slice_append (markOf stored ++ storedBytes ((cells (bodyOf stored)).take i))
    (storedBytes (cellsBetween stored i j)) (storedBytes ((cells (bodyOf stored)).drop j))
  rw [hstored, List.length_append] at hslice
  rw [storedOffset_eq_add stored hij]
  exact hslice

theorem cells_storedBytes_between :
    cells (storedBytes (cellsBetween stored i j)) = cellsBetween stored i j := by
  have hrest := (cells_storedBytes (cells_cellsBetween stored hij)).2
  exact (cells_storedBytes hrest).1

/-- **A part of the source is written as what is stored of it.** -/
theorem spell_slice {source : Text} (hsource : source = (cells (bodyOf stored)).map Cell.byte)
    (l : LineBreak) :
    l.spell (Text.slice source i j) =
      l.respell (Text.slice stored (storedOffset stored i) (storedOffset stored j)) := by
  have hslice : Text.slice source i j = (cellsBetween stored i j).map Cell.byte := by
    unfold Text.slice cellsBetween
    rw [hsource, ← List.map_drop, ← List.map_take]
  rw [slice_storedOffset stored hij, hslice]
  unfold LineBreak.respell
  rw [← map_fst_cells, cells_storedBytes_between stored hij]

/-- Where line breaks are written alike, what is stored is written as it is. -/
theorem respell_slice (halike : UniformBreaks stored) :
    (LineBreak.of stored).respell
        (Text.slice stored (storedOffset stored i) (storedOffset stored j)) =
      Text.slice stored (storedOffset stored i) (storedOffset stored j) := by
  rw [slice_storedOffset stored hij]
  refine LineBreak.respell_storedBytes _ (cells_storedBytes_between stored hij) fun c hc => ?_
  refine halike.stored_eq ?_
  rw [cells_cellsBetween stored hij]
  exact List.mem_append_right _ (List.mem_append_left _ hc)

end Places

end Source

open Source

/-! ## Patches of a stored content -/

/-- The text from `pos` up to `stop` with edits made from left to right, where `copy` says how what
stands between them is copied. -/
def patchWith (copy : Text → Text) (t : Text) (pos stop : Nat) : List Edit → Text
  | [] => copy (Text.slice t pos stop)
  | e :: rest => copy (Text.slice t pos e.start) ++ (e.text ++ patchWith copy t e.stop stop rest)

section Patches

variable (stored : Text) {lo hi : Nat} {edits : List Edit}

/-- Edits of a source in order have places in order in the stored content. -/
theorem inOrder_stored (h : InOrder lo edits hi) :
    InOrder (storedOffset stored lo) (edits.map (storedEdit stored)) (storedOffset stored hi) := by
  induction edits generalizing lo with
  | nil => exact storedOffset_mono stored h
  | cons e rest ih =>
    obtain ⟨hlo, hle, hrest⟩ := h
    exact ⟨storedOffset_mono stored hlo, storedOffset_mono stored hle, ih hrest⟩

/-- **A patched source is written as the patched stored content.** -/
theorem spell_patch (h : InOrder lo edits hi) {source : Text}
    (hsource : source = (cells (bodyOf stored)).map Cell.byte) :
    (LineBreak.of stored).spell (patch source lo hi edits) =
      patchWith (LineBreak.of stored).respell stored (storedOffset stored lo) (storedOffset stored hi)
        (edits.map (storedEdit stored)) := by
  induction edits generalizing lo with
  | nil => exact spell_slice stored h hsource _
  | cons e rest ih =>
    obtain ⟨hlo, hle, hrest⟩ := h
    rw [patch, LineBreak.spell_append, LineBreak.spell_append, ih hrest,
      spell_slice stored hlo hsource]
    rfl

/-- A mark that is copied as it is stays in front of a patched content. -/
theorem patchWith_mark {copy : Text → Text}
    (hcopy : ∀ t, copy (markOf stored ++ t) = markOf stored ++ copy t) :
    patchWith copy stored 0 (storedOffset stored hi) (edits.map (storedEdit stored)) =
      markOf stored ++ patchWith copy stored (storedOffset stored 0) (storedOffset stored hi)
        (edits.map (storedEdit stored)) := by
  have hfirst (j : Nat) : copy (Text.slice stored 0 (storedOffset stored j)) =
      markOf stored ++ copy (Text.slice stored (storedOffset stored 0) (storedOffset stored j)) := by
    have hmark := Text.slice_append [] (markOf stored) (bodyOf stored)
    rw [List.nil_append, markOf_append_bodyOf, List.length_nil, Nat.zero_add] at hmark
    rw [Text.slice_split stored (Nat.zero_le _) (storedOffset_mono stored (Nat.zero_le j)), ← hcopy,
      storedOffset_zero, hmark]
  cases edits with
  | nil => exact hfirst hi
  | cons e rest =>
    show copy (Text.slice stored 0 (storedOffset stored e.start)) ++ _ = _
    rw [hfirst, List.append_assoc]
    rfl

/-- Where line breaks are written alike, a stored content is copied byte by byte. -/
theorem patchWith_of_uniform (h : InOrder lo edits hi) (halike : UniformBreaks stored) :
    patchWith (LineBreak.of stored).respell stored (storedOffset stored lo) (storedOffset stored hi)
        (edits.map (storedEdit stored)) =
      patchWith id stored (storedOffset stored lo) (storedOffset stored hi)
        (edits.map (storedEdit stored)) := by
  induction edits generalizing lo with
  | nil => exact respell_slice stored h halike
  | cons e rest ih =>
    obtain ⟨hlo, _, hrest⟩ := h
    show (LineBreak.of stored).respell
      (Text.slice stored (storedOffset stored lo) (storedOffset stored e.start)) ++ (_ ++ _) = _
    rw [respell_slice stored hlo halike]
    exact congrArg (fun rest => _ ++ (_ ++ rest)) (ih hrest)

end Patches

theorem patchWith_id (t : Text) (pos stop : Nat) (edits : List Edit) :
    patchWith id t pos stop edits = patch t pos stop edits := by
  induction edits generalizing pos with
  | nil => rfl
  | cons e rest ih =>
    rw [patchWith, patch, ih]
    rfl

/-- A file is put into its stored form by spelling line breaks and putting the mark in front. -/
theorem SourceFile.encode_eq (f : SourceFile) (x : Text) :
    f.encode x = (if f.marked then byteOrderMark else []) ++ f.lineBreak.spell x := by
  unfold SourceFile.encode
  cases f.lineBreak with
  | lf =>
    rw [LineBreak.spell_lf]
    cases f.marked <;> rfl
  | crlf =>
    rw [LineBreak.spell_crlf]
    cases f.marked <;> rfl

section Corrections

variable {path stored : Text} {v : Int}

theorem storedOffset_source (hvalid : Text.WellFormed stored) :
    storedOffset stored (SourceFile.parse path stored v).source.length = stored.length := by
  show storedOffset stored (sourceOf stored).length = _
  rw [sourceOf_eq hvalid, List.length_map]
  exact storedOffset_length stored (Nat.le_refl _)

/-- **A corrected content is the stored content with the edits made there**, and what stands between
them respelled. -/
theorem content_eq_patchWith (hvalid : Text.WellFormed stored) {c : Corrector}
    (h : Corrector.Kept (SourceFile.parse path stored v) c) (hsome : (c.apply stored).applied ≠ []) :
    (c.apply stored).content =
      patchWith (LineBreak.of stored).respell stored 0 stored.length
        ((inSourceOrder (c.apply stored).applied).map (storedEdit stored)) := by
  rw [h.content_apply stored, if_neg hsome, SourceFile.encode_eq,
    ← @storedOffset_source path stored v hvalid,
    patchWith_mark stored (LineBreak.respell_markOf _ stored)]
  exact congrArg (markOf stored ++ ·)
    (spell_patch stored (h.inOrder_applied stored) (sourceOf_eq hvalid))

/-- **A correction is local in the stored content, up to the way of writing line breaks.**  Let edits
change a file whose content is well-formed.  Their places in the stored content are one behind the
other, and the corrected content is the stored content with these replaced, while the line breaks
between them are written in the way of the file.  If the line breaks of the content are written alike,
every stored byte outside of the edits stays as it is. -/
theorem correction_local (hvalid : Text.WellFormed stored) (requests : List EditRequest)
    (hchanged : ((Corrector.ofRequests (SourceFile.parse path stored v) requests).apply
      stored).changed = true) :
    let out := (Corrector.ofRequests (SourceFile.parse path stored v) requests).apply stored
    let edits := (inSourceOrder out.applied).map (storedEdit stored)
    InOrder (markOf stored).length edits stored.length ∧
      out.content = patchWith (LineBreak.of stored).respell stored 0 stored.length edits ∧
      (UniformBreaks stored → out.content = patch stored 0 stored.length edits) := by
  have h := Corrector.kept_ofRequests (SourceFile.parse path stored v) requests
  generalize Corrector.ofRequests (SourceFile.parse path stored v) requests = c at h hchanged
  dsimp only
  have hsome : (c.apply stored).applied ≠ [] := by
    intro hnone
    have hcontent := h.content_apply stored
    rw [if_pos hnone] at hcontent
    exact of_decide_eq_true hchanged hcontent
  have horder := h.inOrder_applied stored
  have hlength := @storedOffset_source path stored v hvalid
  have hcontent := content_eq_patchWith hvalid h hsome
  refine ⟨?_, hcontent, fun halike => ?_⟩
  · rw [← hlength]
    exact inOrder_stored stored horder
  · rw [hcontent, ← hlength, patchWith_mark stored (LineBreak.respell_markOf _ stored),
      patchWith_of_uniform stored horder halike, ← patchWith_id]
    exact (@patchWith_mark stored _ _ id fun _ => rfl).symm

/-- A marked content with line breaks in two bytes, where a line break
and a byte behind it are replaced. -/
theorem correction_local_marked :
    let stored : Text := byteOrderMark ++ "a\r\nbc\r\n"
    let requests : List EditRequest := [.replace ⟨1, 3⟩ "d\nB"]
    let out := (Corrector.ofRequests (SourceFile.parse "notes.txt" stored 1) requests).apply stored
    Text.WellFormed stored ∧ out.changed = true ∧ UniformBreaks stored ∧
      out.content = patch stored 0 stored.length
        ((inSourceOrder out.applied).map (storedEdit stored)) ∧
      out.content = byteOrderMark ++ "ad\r\nBc\r\n" := by
  intro stored requests out
  have hvalid : Text.WellFormed stored :=
    ⟨[Char.ofNat 0xFEFF, 'a', '\r', '\n', 'b', 'c', '\r', '\n'], by decide⟩
  have hchanged : out.changed = true := by decide +kernel
  have halike : UniformBreaks stored := by
    unfold UniformBreaks
    decide +kernel
  have hlocal := (correction_local hvalid requests hchanged).2.2 halike
  exact ⟨hvalid, hchanged, halike, hlocal, by decide +kernel⟩

/-- **Line breaks outside of the edits are not kept where they are written in both ways.**  One byte of
the first line is replaced, and the line feed behind the second line becomes a line break in two
bytes. -/
theorem correction_touches_mixed_breaks :
    let stored : Text := "a\r\nb\nc"
    let out := (Corrector.ofRequests (SourceFile.parse "notes.txt" stored 1)
      [.replace ⟨0, 1⟩ "x"]).apply stored
    Text.WellFormed stored ∧ out.changed = true ∧ out.content = "x\r\nb\r\nc" ∧
      patch stored 0 stored.length ((inSourceOrder out.applied).map (storedEdit stored)) =
        "x\r\nb\nc" := by
  refine ⟨⟨['a', '\r', '\n', 'b', '\n', 'c'], by decide⟩, ?_, ?_, ?_⟩
  · decide +kernel
  · decide +kernel
  · decide +kernel

end Corrections

end LiquidLint
