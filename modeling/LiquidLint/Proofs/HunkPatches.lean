import Mathlib.Data.List.Basic
import Mathlib.Data.List.TakeWhile
import LiquidLint.Fix.Diff

/-!
# Hunks as patches

An edit script says of two lists of lines which lines they share and which each of them has alone, so that
both lists can be read off it (`oldLines_script`, `newLines_script`).  The hunks of a script cut it into
pieces: between two hunks stand shared lines that neither of them shows, and a hunk has at most three shared
lines around its changes (`CutInto`, `cutInto_hunksFrom`).

From such a cut follows what a reader of a diff relies on: applying the hunks to the old lines gives the new
lines (`CutInto.applyHunks_eq`), the numbers of a hunk are those of its lines (`CutInto.hunkMatches`), and no
change is lost or shown twice (`CutInto.changes_eq`).
-/

namespace LiquidLint
namespace Diff

/-! ## The two sides of a script -/

/-- The lines of the old text that some lines of a diff stand for. -/
def oldLines (ls : List Line) : List Text := (ls.filter fun l => l.kind ≠ .added).map Line.text

/-- The lines of the new text that some lines of a diff stand for. -/
def newLines (ls : List Line) : List Text := (ls.filter fun l => l.kind ≠ .removed).map Line.text

@[simp] theorem oldLines_append (ls ms : List Line) : oldLines (ls ++ ms) = oldLines ls ++ oldLines ms := by
  simp [oldLines]

@[simp] theorem newLines_append (ls ms : List Line) : newLines (ls ++ ms) = newLines ls ++ newLines ms := by
  simp [newLines]

@[simp] theorem length_oldLines (ls : List Line) : (oldLines ls).length = oldCount ls := by
  simp [oldLines, oldCount, List.countP_eq_length_filter]

@[simp] theorem length_newLines (ls : List Line) : (newLines ls).length = newCount ls := by
  simp [newLines, newCount, List.countP_eq_length_filter]

/-- Lines of one kind stand in both texts if they are shared, and in one of them otherwise. -/
theorem lines_of_kind {k : LineKind} {ls : List Line} (h : ∀ l ∈ ls, l.kind = k) :
    oldLines ls = (if k = .added then [] else ls.map Line.text) ∧
      newLines ls = (if k = .removed then [] else ls.map Line.text) := by
  constructor
  · rw [oldLines]
    split
    · rename_i hk
      rw [List.filter_eq_nil_iff.2 (by simp +contextual [h, hk]), List.map_nil]
    · rename_i hk
      rw [List.filter_eq_self.2 (by simp +contextual [h, hk])]
  · rw [newLines]
    split
    · rename_i hk
      rw [List.filter_eq_nil_iff.2 (by simp +contextual [h, hk]), List.map_nil]
    · rename_i hk
      rw [List.filter_eq_self.2 (by simp +contextual [h, hk])]

/-- Shared lines stand in both texts. -/
theorem lines_of_kept {ls : List Line} (h : ∀ l ∈ ls, isKept l = true) :
    oldLines ls = ls.map Line.text ∧ newLines ls = ls.map Line.text := by
  have hkind : ∀ l ∈ ls, l.kind = .kept := by simpa [isKept] using h
  simpa using lines_of_kind hkind

theorem counts_of_kept {ls : List Line} (h : ∀ l ∈ ls, isKept l = true) :
    oldCount ls = ls.length ∧ newCount ls = ls.length := by
  obtain ⟨hold, hnew⟩ := lines_of_kept h
  rw [← length_oldLines, ← length_newLines, hold, hnew]
  simp

/-- Whatever the table says, a script has all lines of both lists, in order. -/
theorem lines_scriptWith (as bs : List Text) (t : List (List Nat)) :
    oldLines (scriptWith as bs t) = as ∧ newLines (scriptWith as bs t) = bs := by
  induction as, bs, t using scriptWith.induct with
  | case1 t bs =>
    rw [scriptWith]
    have hadded : ∀ l ∈ bs.map (Line.mk .added), l.kind = .added := by simp
    simpa [Function.comp_def] using lines_of_kind hadded
  | case2 t as hne =>
    rw [scriptWith]
    · have hremoved : ∀ l ∈ as.map (Line.mk .removed), l.kind = .removed := by simp
      simpa [Function.comp_def] using lines_of_kind hremoved
    · exact hne
  | case3 t a as bs ih =>
    rw [scriptWith, if_pos rfl]
    simpa [oldLines, newLines] using ih
  | case4 t a as b bs hne hle ih =>
    rw [scriptWith, if_neg hne, if_pos hle]
    simpa [oldLines, newLines] using ih
  | case5 t a as b bs hne hle ih =>
    rw [scriptWith, if_neg hne, if_neg hle]
    simpa [oldLines, newLines] using ih

theorem oldLines_script (as bs : List Text) : oldLines (script as bs) = as :=
  (lines_scriptWith as bs _).1

theorem newLines_script (as bs : List Text) : newLines (script as bs) = bs :=
  (lines_scriptWith as bs _).2

/-! ## Cutting a script into hunks -/

/-- The lines of a hunk: changes between shared lines, of which there are at most three before the first
change and at most three behind the last one. -/
structure Framed (lines : List Line) : Prop where
  before : (lines.takeWhile isKept).length ≤ contextSize
  behind : (lines.reverse.takeWhile isKept).length ≤ contextSize
  changed : ∃ l ∈ lines, isKept l = false

/-- The script `ls`, whose first line has the numbers `old` and `new`, is cut into hunks.  Shared lines that
no hunk shows stand before each hunk, at least `least` of them before the first one and at least one before
each of the others, and behind the last hunk. -/
inductive CutInto : (least old new : Nat) → List Line → List Hunk → Prop where
  | rest {least old new : Nat} {ls : List Line} (hkept : ∀ l ∈ ls, isKept l = true) :
      CutInto least old new ls []
  | hunk {least old new : Nat} {gap lines ls : List Line} {hunks : List Hunk}
      (hgap : ∀ l ∈ gap, isKept l = true) (hleast : least ≤ gap.length) (hframed : Framed lines)
      (hrest : CutInto 1 (old + gap.length + oldCount lines) (new + gap.length + newCount lines) ls hunks) :
      CutInto least old new (gap ++ (lines ++ ls)) (⟨old + gap.length, new + gap.length, lines⟩ :: hunks)

section Body

theorem hunkBody_append (ls : List Line) : (hunkBody ls).1 ++ (hunkBody ls).2 = ls := by
  induction ls with
  | nil => rfl
  | cons l rest ih =>
    rw [hunkBody]
    split
    · rfl
    · simpa using ih

/-- No further change belongs to a hunk where its body ends. -/
theorem endsHunk_hunkBody (ls : List Line) : endsHunk (hunkBody ls).2 = true := by
  induction ls with
  | nil => rfl
  | cons l rest ih =>
    rw [hunkBody]
    split
    · rename_i h
      exact (Bool.and_eq_true_iff.1 h).2
    · exact ih

/-- A shared line before the end of a hunk is not part of the hunk either. -/
theorem endsHunk_cons {l : Line} {rest : List Line} (hl : isKept l = true) (h : endsHunk rest = true) :
    endsHunk (l :: rest) = true := by
  simp only [endsHunk, List.takeWhile_cons_of_pos hl, List.length_cons, Bool.or_eq_true,
    decide_eq_true_eq] at h ⊢
  omega

/-- **The body of a hunk ends with a change.** -/
theorem getLast?_hunkBody (ls : List Line) : ∀ l ∈ (hunkBody ls).1.getLast?, isKept l = false := by
  induction ls with
  | nil =>
    intro l hl
    cases hl
  | cons first rest ih =>
    intro l hl
    have hends := endsHunk_hunkBody rest
    have happend := hunkBody_append rest
    rw [hunkBody] at hl
    split at hl
    · cases hl
    · rename_i hgoes
      cases hbody : (hunkBody rest).1 with
      | nil =>
        -- the hunk would have ended at `first`, had it been a shared line
        rw [hbody, List.nil_append] at happend
        simp only [hbody, List.getLast?_singleton, Option.mem_some_iff] at hl
        subst hl
        rw [happend] at hends
        by_cases hkept : isKept first = true
        · simp [hkept, endsHunk_cons hkept hends] at hgoes
        · simpa using hkept
      | cons x xs =>
        simp only [hbody, List.getLast?_cons_cons] at hl
        exact ih l (by rw [hbody]; exact hl)

/-- The first lines behind a hunk are shared. -/
theorem kept_of_endsHunk {ls : List Line} (h : endsHunk ls = true) :
    ∀ l ∈ ls.take contextSize, isKept l = true := by
  have hlong : (ls.take contextSize).length ≤ (ls.takeWhile isKept).length := by
    simp only [endsHunk, Bool.or_eq_true, decide_eq_true_eq] at h
    have := List.length_take_le contextSize ls
    have := List.length_take_le' contextSize ls
    omega
  have hpre : ls.take contextSize <+: ls.takeWhile isKept :=
    List.prefix_of_prefix_length_le (List.take_prefix _ _) (List.takeWhile_prefix _) hlong
  intro l hl
  exact List.mem_takeWhile_imp (hpre.subset hl)

/-- Behind the lines that a hunk shows come further shared lines, or nothing but shared lines. -/
theorem run_of_endsHunk {ls : List Line} (h : endsHunk ls = true) :
    1 + contextSize ≤ ((ls.drop contextSize).takeWhile isKept).length ∨
      (ls.drop contextSize).dropWhile isKept = [] := by
  have hsplit : ls.take contextSize ++ (ls.drop contextSize).takeWhile isKept = ls.takeWhile isKept := by
    conv_rhs => rw [← List.take_append_drop contextSize ls]
    rw [List.takeWhile_append_of_pos (kept_of_endsHunk h)]
  have hlength := congrArg List.length hsplit
  rw [List.length_append] at hlength
  have htake := List.length_take_le contextSize ls
  simp only [endsHunk, Bool.or_eq_true, decide_eq_true_eq] at h
  rcases h with hlong | hall
  · left
    omega
  · right
    have heq : ls.takeWhile isKept = ls := (List.takeWhile_prefix _).eq_of_length hall
    rw [List.dropWhile_eq_nil_iff]
    intro l hl
    rw [← heq] at hl
    exact List.mem_takeWhile_imp (List.mem_of_mem_drop hl)

end Body

/-- The lines of a hunk around a body that starts and ends with a change. -/
theorem framed_of_body {before body behind : List Line} {l : Line} {rest : List Line}
    (hbody : body = l :: rest) (hfirst : isKept l = false)
    (hlast : ∀ l ∈ body.getLast?, isKept l = false) (hbefore : before.length ≤ contextSize)
    (hbehind : behind.length ≤ contextSize) : Framed (before ++ body ++ behind) := by
  have hstop {pre post : List Line} {x : Line} (hx : isKept x = false) :
      ((pre ++ x :: post).takeWhile isKept).length ≤ pre.length := by
    rw [List.takeWhile_append]
    split
    · rename_i hall
      rw [List.takeWhile_cons_of_neg (by simp [hx])]
      simp
    · exact (List.takeWhile_prefix _).length_le
  refine ⟨?_, ?_, l, by simp [hbody], hfirst⟩
  · subst hbody
    rw [List.append_assoc, List.cons_append]
    exact Nat.le_trans (hstop hfirst) hbefore
  · have hne : body ≠ [] := by simp [hbody]
    have hend := List.dropLast_append_getLast hne
    have hchange := hlast _ (List.getLast?_eq_some_getLast hne)
    rw [List.reverse_append, List.reverse_append, ← hend, List.reverse_append, List.reverse_singleton,
      List.singleton_append, List.cons_append]
    refine Nat.le_trans (hstop hchange) ?_
    rwa [List.length_reverse]

/-- **The hunks of a script cut it.** -/
theorem cutInto_hunksFrom {least : Nat} (old new : Nat) {ls : List Line}
    (hleast : least = 0 ∨ least + contextSize ≤ (ls.takeWhile isKept).length ∨
      ls.dropWhile isKept = []) :
    CutInto least old new ls (hunksFrom old new ls) := by
  induction hn : ls.length using Nat.strongRecOn generalizing least old new ls with
  | ind n ih =>
    have hkept : ∀ l ∈ ls.takeWhile isKept, isKept l = true := fun l hl => List.mem_takeWhile_imp hl
    have hls : ls.takeWhile isKept ++ ls.dropWhile isKept = ls := List.takeWhile_append_dropWhile
    rw [hunksFrom]
    split
    · rename_i hnone
      apply CutInto.rest
      rw [hnone, List.append_nil] at hls
      rw [← hls]
      exact hkept
    · rename_i l rest hsome
      have hchange : isKept l = false := isKept_head_dropWhile hsome
      have hlt := length_hunkBody_lt rest hchange
      have happend := hunkBody_append (l :: rest)
      have hends := endsHunk_hunkBody (l :: rest)
      have hlast := getLast?_hunkBody (l :: rest)
      obtain ⟨more, hmore⟩ : ∃ more, (hunkBody (l :: rest)).1 = l :: more := by
        rw [hunkBody, hchange]
        exact ⟨_, rfl⟩
      rw [hsome] at hls
      dsimp only
      generalize ls.takeWhile isKept = before at *
      generalize (hunkBody (l :: rest)).1 = body at *
      generalize (hunkBody (l :: rest)).2 = behind at *
      generalize hpassed : before.length - contextSize = passed
      generalize hlines : before.drop passed ++ body ++ behind.take contextSize = lines
      have hcut : ls = before.take passed ++ (lines ++ behind.drop contextSize) := by
        rw [← hlines, ← hls, ← happend]
        simp only [List.append_assoc, List.take_append_drop]
        rw [← List.append_assoc (before.take passed), List.take_append_drop]
      have hgap : (before.take passed).length = passed := by
        rw [List.length_take]
        omega
      have hframed : Framed lines := by
        rw [← hlines]
        refine framed_of_body hmore hchange hlast ?_ (List.length_take_le _ _)
        rw [List.length_drop]
        omega
      have hrest := ih (behind.drop contextSize).length (by
          have := congrArg List.length hls
          simp only [List.length_append, List.length_cons] at this hlt
          rw [List.length_drop]
          omega) (old + passed + oldCount lines) (new + passed + newCount lines)
        (.inr (run_of_endsHunk hends)) rfl
      have hleast' : least ≤ passed := by
        rcases hleast with hzero | hlong | hnone
        · omega
        · omega
        · rw [hsome] at hnone
          cases hnone
      have hkeptGap : ∀ l ∈ before.take passed, isKept l = true := fun l hl =>
        hkept l (List.mem_of_mem_take hl)
      rw [hcut]
      generalize before.take passed = gap at hgap hkeptGap ⊢
      subst hgap
      exact .hunk hkeptGap hleast' hframed hrest

/-! ## Hunks as a patch -/

/-- The lines that some hunks make of `lines`, the first of which has the number `n`: in place of the lines
that a hunk has of the old text come those it has of the new text, and what stands between hunks is copied. -/
def applyHunks (n : Nat) (lines : List Text) : List Hunk → List Text
  | [] => lines
  | h :: rest =>
    let upTo := h.oldStart - n
    let behind := lines.drop (upTo + oldCount h.lines)
    lines.take upTo ++ newLines h.lines ++ applyHunks (h.oldStart + oldCount h.lines) behind rest

/-- The header of a hunk says where its lines stand in the two texts, and how many lines of each it has. -/
structure Hunk.Matches (h : Hunk) (old new : List Text) : Prop where
  oldStart_pos : 1 ≤ h.oldStart
  newStart_pos : 1 ≤ h.newStart
  old_lines : (old.drop (h.oldStart - 1)).take (oldCount h.lines) = oldLines h.lines
  new_lines : (new.drop (h.newStart - 1)).take (newCount h.lines) = newLines h.lines

/-- `h` comes after `g`, with a line between them in either text. -/
def Hunk.ApartFrom (g h : Hunk) : Prop :=
  g.oldStart + oldCount g.lines < h.oldStart ∧ g.newStart + newCount g.lines < h.newStart

/-- The lines that are not shared. -/
def changes (ls : List Line) : List Line := ls.filter (!isKept ·)

theorem changes_append (ls ms : List Line) : changes (ls ++ ms) = changes ls ++ changes ms := by
  simp [changes]

theorem changes_of_kept {ls : List Line} (h : ∀ l ∈ ls, isKept l = true) : changes ls = [] := by
  rw [changes, List.filter_eq_nil_iff]
  intro l hl
  simp [h l hl]

/-- Lines of a kind that is not shared are counted among the changes. -/
theorem countP_changes {k : LineKind} (hk : k ≠ .kept) (ls : List Line) :
    (changes ls).countP (fun l => l.kind = k) = ls.countP fun l => l.kind = k := by
  rw [changes, List.countP_filter]
  apply List.countP_congr
  intro l _
  by_cases h : l.kind = k
  · simp [h, isKept, hk]
  · simp [h]

namespace CutInto

variable {least old new : Nat} {ls : List Line} {hunks : List Hunk}

/-- **The hunks turn the old lines into the new ones.** -/
theorem applyHunks_eq (h : CutInto least old new ls hunks) :
    applyHunks old (oldLines ls) hunks = newLines ls := by
  induction h with
  | rest hkept =>
    obtain ⟨hold, hnew⟩ := lines_of_kept hkept
    rw [applyHunks, hold, hnew]
  | @hunk least old new gap lines ls hunks hgap _ _ _ ih =>
    obtain ⟨hold, hnew⟩ := lines_of_kept hgap
    have hlength : (oldLines gap).length = gap.length := by rw [hold, List.length_map]
    have htake : (oldLines (gap ++ (lines ++ ls))).take gap.length = newLines gap := by
      rw [oldLines_append, List.take_left' hlength, hold, hnew]
    have hdrop : (oldLines (gap ++ (lines ++ ls))).drop (gap.length + oldCount lines) = oldLines ls := by
      rw [← List.append_assoc, oldLines_append, List.drop_left' (by simp [hlength])]
    simp only [applyHunks, Nat.add_sub_cancel_left, htake, hdrop, ih, newLines_append,
      List.append_assoc]

/-- Where the lines of a hunk stand in the script. -/
theorem exists_split (h : CutInto least old new ls hunks) : ∀ g ∈ hunks, ∃ before behind,
    ls = before ++ (g.lines ++ behind) ∧ g.oldStart = old + oldCount before ∧
      g.newStart = new + newCount before ∧ least ≤ oldCount before ∧ least ≤ newCount before := by
  induction h with
  | rest _ =>
    intro g hg
    cases hg
  | @hunk least old new gap lines ls hunks hgap hleast _ _ ih =>
    obtain ⟨hold, hnew⟩ := counts_of_kept hgap
    intro g hg
    rcases List.mem_cons.1 hg with rfl | hg
    · exact ⟨gap, ls, rfl, by rw [hold], by rw [hnew], by omega, by omega⟩
    · obtain ⟨before, behind, rfl, hgold, hgnew, _, _⟩ := ih g hg
      refine ⟨gap ++ (lines ++ before), behind, by simp, ?_, ?_, ?_, ?_⟩ <;>
        simp only [oldCount, newCount, List.countP_append] at * <;> omega

/-- **The header of a hunk is that of its lines.** -/
theorem hunkMatches (h : CutInto least 1 1 ls hunks) :
    ∀ g ∈ hunks, g.Matches (oldLines ls) (newLines ls) := by
  intro g hg
  obtain ⟨before, behind, rfl, hold, hnew, _, _⟩ := h.exists_split g hg
  refine ⟨by omega, by omega, ?_, ?_⟩
  · rw [hold, Nat.add_sub_cancel_left, oldLines_append, List.drop_left' (length_oldLines before),
      oldLines_append, List.take_left' (length_oldLines g.lines)]
  · rw [hnew, Nat.add_sub_cancel_left, newLines_append, List.drop_left' (length_newLines before),
      newLines_append, List.take_left' (length_newLines g.lines)]

/-- **Hunks come in order, with lines between them.** -/
theorem apart (h : CutInto least old new ls hunks) : hunks.Pairwise Hunk.ApartFrom := by
  induction h with
  | rest _ => exact .nil
  | hunk _ _ _ hrest ih =>
    refine .cons ?_ ih
    intro g hg
    obtain ⟨before, _, _, hold, hnew, _, _⟩ := hrest.exists_split g hg
    constructor <;> dsimp only <;> omega

theorem framed (h : CutInto least old new ls hunks) : ∀ g ∈ hunks, Framed g.lines := by
  induction h with
  | rest _ =>
    intro g hg
    cases hg
  | hunk _ _ hframed _ ih =>
    intro g hg
    rcases List.mem_cons.1 hg with rfl | hg
    · exact hframed
    · exact ih g hg

/-- **The hunks show every change once**, in the order of the script. -/
theorem changes_eq (h : CutInto least old new ls hunks) :
    changes (hunks.flatMap Hunk.lines) = changes ls := by
  induction h with
  | rest hkept => exact (changes_of_kept hkept).symm
  | hunk hgap _ _ _ ih =>
    simp only [List.flatMap_cons, changes_append, ih, changes_of_kept hgap, List.nil_append]

end CutInto

/-! ## The difference between two texts -/

/-- The script of a list with itself keeps every line. -/
theorem kept_scriptWith_self (as : List Text) (t : List (List Nat)) :
    ∀ l ∈ scriptWith as as t, isKept l = true := by
  induction as generalizing t with
  | nil => simp [scriptWith]
  | cons a as ih =>
    rw [scriptWith, if_pos rfl]
    intro l hl
    rcases List.mem_cons.1 hl with rfl | hl
    · rfl
    · exact ih _ l hl

/-- The hunks of the difference between two texts, of which there are none where there is no difference. -/
def hunksOf (path old new : Text) : List Hunk := ((of? path old new).map Diff.hunks).getD []

theorem cutInto_hunksOf (path old new : Text) :
    CutInto 0 1 1 (script (linesOf old) (linesOf new)) (hunksOf path old new) := by
  have hcut : CutInto 0 1 1 (script (linesOf old) (linesOf new)) _ := cutInto_hunksFrom 1 1 (.inl rfl)
  rw [hunksOf, of?]
  split
  · rename_i heq
    subst heq
    exact .rest (kept_scriptWith_self _ _)
  · dsimp only
    split
    · rename_i hnil
      rwa [hnil] at hcut
    · exact hcut

theorem counts_of? {path old new : Text} {d : Diff} (h : of? path old new = some d) :
    d.additions = (script (linesOf old) (linesOf new)).countP (fun l => l.kind = .added) ∧
      d.deletions = (script (linesOf old) (linesOf new)).countP fun l => l.kind = .removed := by
  rw [of?] at h
  split at h
  · cases h
  · dsimp only at h
    split at h
    · cases h
    · cases h
      exact ⟨rfl, rfl⟩

/-- **The difference between two texts is a faithful patch.**  Its hunks turn the lines of the old text into
those of the new text.  The lines of a text are what it shows, cut at the line feeds (`flatMap_linesOf`), and
two texts have the same lines exactly if they show the same (`linesOf_eq_iff`).  The hunks come in order, with
lines between them that neither shows, their headers are those of their lines, and at most three shared lines
stand on either side of their changes.  Every change is in one of them, once, and the two totals count these
changes. -/
theorem patches_of? (path old new : Text) :
    applyHunks 1 (linesOf old) (hunksOf path old new) = linesOf new ∧
      (hunksOf path old new).Pairwise Hunk.ApartFrom ∧
      (∀ h ∈ hunksOf path old new, h.Matches (linesOf old) (linesOf new) ∧ Framed h.lines) ∧
      changes ((hunksOf path old new).flatMap Hunk.lines) = changes (script (linesOf old) (linesOf new)) ∧
      ∀ d ∈ of? path old new, d.hunks = hunksOf path old new ∧
        d.additions = (d.hunks.flatMap Hunk.lines).countP (fun l => l.kind = .added) ∧
        d.deletions = (d.hunks.flatMap Hunk.lines).countP fun l => l.kind = .removed := by
  have hcut := cutInto_hunksOf path old new
  have happly := hcut.applyHunks_eq
  have hmatches := hcut.hunkMatches
  have hchanges := hcut.changes_eq
  rw [oldLines_script, newLines_script] at happly hmatches
  refine ⟨happly, hcut.apart, fun h hh => ⟨hmatches h hh, hcut.framed h hh⟩, hchanges, ?_⟩
  intro d hd
  have hhunks : d.hunks = hunksOf path old new := by simp [hunksOf, Option.mem_def.1 hd]
  obtain ⟨hadditions, hdeletions⟩ := counts_of? (Option.mem_def.1 hd)
  refine ⟨hhunks, ?_, ?_⟩
  · rw [hadditions, hhunks, ← countP_changes (by decide), ← hchanges, countP_changes (by decide)]
  · rw [hdeletions, hhunks, ← countP_changes (by decide), ← hchanges, countP_changes (by decide)]

end Diff
end LiquidLint
