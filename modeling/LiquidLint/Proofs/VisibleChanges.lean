import LiquidLint.Proofs.HunkPatches
import LiquidLint.Proofs.PathNames
import LiquidLint.Proofs.StoredForm
import LiquidLint.Report.Basic

/-!
# Changes that a diff shows

A diff compares texts line by line, and lines do not tell all: a line break in two bytes reads as one in a
single byte, and so does the end of a text whose last line is not broken.  What the lines do tell is written
down as a text again (`shown`), and a text has the lines of what is shown of it (`flatMap_linesOf`,
`linesOf_eq_iff`).

So a difference is absent where the two texts show the same (`of?_eq_none_iff`), and the report on the
corrections of a run has those whose content shows something else than before (`diffs_exact`).
-/

namespace LiquidLint
namespace Diff

/-- The text with its last line broken. -/
def closed (t : Text) : Text := if t = [] ∨ t.getLast? = some ('\n' : UInt8) then t else t ++ "\n"

/-- What the lines of a text tell: all lines are broken, and then every line break is a line feed. -/
def shown (t : Text) : Text := Text.replaceText (closed t) "\r\n" "\n"

/-! ## One line -/

section Line

variable {line : Text}

theorem trimEnd_return (t : Text) :
    Text.trimEndText t "\r" = if t.getLast? = some ('\r' : UInt8) then t.dropLast else t := by
  have hends : Text.endsWith t "\r" = true ↔ t.getLast? = some ('\r' : UInt8) := by
    show Text.startsWith t.reverse ['\r'] = true ↔ _
    rw [Text.startsWith_iff, ← List.head?_reverse]
    cases t.reverse with
    | nil => simp
    | cons b rest => simp
  unfold Text.trimEndText
  by_cases hlast : t.getLast? = some ('\r' : UInt8)
  · rw [if_pos (hends.2 hlast), if_pos hlast, List.dropLast_eq_take]
    rfl
  · rw [if_neg (mt hends.1 hlast), if_neg hlast]

theorem trimEnd_return_cons (b : UInt8) (hne : line ≠ []) :
    Text.trimEndText (b :: line) "\r" = b :: Text.trimEndText line "\r" := by
  rw [trimEnd_return, trimEnd_return, List.getLast?_cons_of_ne_nil hne, List.dropLast_cons_of_ne_nil hne]
  split <;> rfl

/-- A line feed ends the line, with the carriage return in front of it. -/
theorem replaceFrom_line (hline : ('\n' : UInt8) ∉ line) (rest : Text) :
    Text.replaceFrom "\r\n" "\n" 0 (line ++ ('\n' : UInt8) :: rest) =
      Text.trimEndText line "\r" ++ ('\n' : UInt8) :: Text.replaceFrom "\r\n" "\n" 0 rest := by
  induction line with
  | nil =>
    rw [List.nil_append, Text.replaceFrom, if_neg fun h => absurd ((Source.startsWith_crlf _ _).1 h).1 (by decide)]
    rfl
  | cons b line ih =>
    obtain ⟨hb, hline⟩ := List.ne_and_not_mem_of_not_mem_cons hline
    rw [List.cons_append, Text.replaceFrom]
    cases line with
    | nil =>
      by_cases hreturn : b = '\r'
      · rw [if_pos ((Source.startsWith_crlf _ _).2 ⟨hreturn, rfl⟩), hreturn]
        rfl
      · have hkeeps : Text.trimEndText [b] "\r" = [b] := by
          rw [trimEnd_return, List.getLast?_singleton, if_neg fun h => hreturn (Option.some.inj h)]
        rw [if_neg fun h => hreturn ((Source.startsWith_crlf _ _).1 h).1, ih hline, hkeeps]
        rfl
    | cons c line =>
      have hc : ¬ c = '\n' := fun h => hline (h ▸ List.mem_cons_self ..)
      have hnot : ¬ Text.startsWith (b :: (c :: line ++ ('\n' : UInt8) :: rest)) "\r\n" = true :=
        fun h => hc (Option.some.inj ((Source.startsWith_crlf _ _).1 h).2)
      rw [if_neg hnot, ih hline, trimEnd_return_cons b (List.cons_ne_nil c line), List.cons_append]

theorem closed_line (line rest : Text) : closed (line ++ ('\n' : UInt8) :: rest) = line ++ ('\n' : UInt8) :: closed rest := by
  have hne : line ++ ('\n' : UInt8) :: rest ≠ [] := List.append_ne_nil_of_right_ne_nil _ (List.cons_ne_nil _ _)
  unfold closed
  rw [List.getLast?_append_of_ne_nil _ (List.cons_ne_nil _ _)]
  cases rest with
  | nil => rw [if_pos (.inr rfl), if_pos (.inl rfl)]
  | cons b rest =>
    rw [List.getLast?_cons_of_ne_nil (List.cons_ne_nil b rest)]
    by_cases hlast : (b :: rest).getLast? = some ('\n' : UInt8)
    · rw [if_pos (.inr hlast), if_pos (.inr hlast)]
    · rw [if_neg (not_or.2 ⟨hne, hlast⟩), if_neg (not_or.2 ⟨List.cons_ne_nil _ _, hlast⟩), List.append_assoc,
        List.cons_append]

theorem linesOf_eq (t : Text) : linesOf t =
    (if (Text.splitAtByte t '\n').getLast? = some [] then (Text.splitAtByte t '\n').dropLast
      else Text.splitAtByte t '\n').map (Text.trimEndText · "\r") := by
  unfold linesOf
  cases t with
  | nil => rfl
  | cons b t => rfl

/-- A line that is broken, and the lines behind it. -/
theorem linesOf_line (hline : ('\n' : UInt8) ∉ line) (rest : Text) :
    linesOf (line ++ ('\n' : UInt8) :: rest) = Text.trimEndText line "\r" :: linesOf rest := by
  have hne : Text.splitAtByte rest '\n' ≠ [] := Text.splitAtByte_ne_nil rest
  rw [linesOf_eq, linesOf_eq, Text.splitAtByte_append, Text.splitAtByte_of_not_mem hline, List.singleton_append,
    List.getLast?_cons_of_ne_nil hne, List.dropLast_cons_of_ne_nil hne]
  split <;> rw [List.map_cons]

/-- A line that is not broken. -/
theorem linesOf_last (hline : ('\n' : UInt8) ∉ line) (hne : line ≠ []) :
    linesOf line = [Text.trimEndText line "\r"] := by
  rw [linesOf_eq, Text.splitAtByte_of_not_mem hline, List.getLast?_singleton,
    if_neg fun h => hne (Option.some.inj h)]
  rfl

theorem closed_last (hline : ('\n' : UInt8) ∉ line) (hne : line ≠ []) : closed line = line ++ "\n" :=
  if_neg (not_or.2 ⟨hne, fun h => hline (List.mem_of_getLast? h)⟩)

end Line

/-! ## All lines -/

/-- **What is shown of a text are its lines**, each with a line feed. -/
theorem flatMap_linesOf (t : Text) : (linesOf t).flatMap (· ++ ("\n" : Text)) = shown t := by
  unfold shown
  show _ = Text.replaceFrom "\r\n" "\n" 0 (closed t)
  induction hn : t.length using Nat.strongRecOn generalizing t with
  | ind n ih =>
    by_cases hbreak : ('\n' : UInt8) ∈ t
    · obtain ⟨line, rest, rfl, hline⟩ := List.eq_append_cons_of_mem hbreak
      have hrest := ih rest.length (by
        rw [List.length_append, List.length_cons] at hn
        omega) rest rfl
      rw [linesOf_line hline, closed_line, replaceFrom_line hline, List.flatMap_cons, hrest, List.append_assoc]
      rfl
    · by_cases hne : t = []
      · subst hne
        rfl
      · rw [linesOf_last hbreak hne, closed_last hbreak hne]
        have hlast := replaceFrom_line hbreak []
        rw [List.flatMap_cons, List.flatMap_nil, List.append_nil]
        exact hlast.symm

/-- No line holds a line feed. -/
theorem not_mem_of_mem_linesOf {t line : Text} (h : line ∈ linesOf t) : ('\n' : UInt8) ∉ line := by
  rw [linesOf_eq] at h
  obtain ⟨piece, hpiece, rfl⟩ := List.mem_map.1 h
  have hmem : piece ∈ Text.splitAtByte t '\n' := by
    split at hpiece
    · exact (List.dropLast_sublist _).subset hpiece
    · exact hpiece
  have hnot := Text.not_mem_of_mem_splitAtByte hmem
  rw [trimEnd_return]
  split
  · exact fun hin => hnot ((List.dropLast_sublist _).subset hin)
  · exact hnot

/-- Lines are found again in the text that they make. -/
theorem splitAtByte_lines {ls : List Text} (h : ∀ line ∈ ls, ('\n' : UInt8) ∉ line) :
    Text.splitAtByte (ls.flatMap (· ++ ("\n" : Text))) '\n' = ls ++ [[]] := by
  induction ls with
  | nil => rfl
  | cons line ls ih =>
    have hrest := ih fun line hline => h line (List.mem_cons_of_mem _ hline)
    rw [List.flatMap_cons, List.append_assoc]
    show Text.splitAtByte (line ++ ('\n' : UInt8) :: ls.flatMap (· ++ ("\n" : Text))) '\n' = _
    rw [Text.splitAtByte_append, Text.splitAtByte_of_not_mem (h line (List.mem_cons_self ..)), hrest]
    rfl

/-- **Texts have the same lines** where the same is shown of them. -/
theorem linesOf_eq_iff {old new : Text} : linesOf old = linesOf new ↔ shown old = shown new := by
  rw [← flatMap_linesOf, ← flatMap_linesOf]
  refine ⟨congrArg _, fun h => ?_⟩
  have hsplit := congrArg (Text.splitAtByte · '\n') h
  rw [splitAtByte_lines fun _ => not_mem_of_mem_linesOf, splitAtByte_lines fun _ => not_mem_of_mem_linesOf] at hsplit
  exact List.append_cancel_right hsplit

/-! ## Differences -/

/-- Lines without hunks are all shared. -/
theorem kept_of_hunksFrom_nil {old new : Nat} {ls : List Line} (h : hunksFrom old new ls = []) :
    ∀ l ∈ ls, isKept l = true := by
  rw [hunksFrom] at h
  split at h
  · rename_i hnone
    exact List.dropWhile_eq_nil_iff.1 hnone
  · cases h

/-- **A difference is absent** where the two texts have the same lines. -/
theorem of?_eq_none_iff_lines {path old new : Text} :
    of? path old new = none ↔ linesOf old = linesOf new := by
  constructor
  · intro h
    unfold of? at h
    split at h
    · rename_i heq
      rw [heq]
    · dsimp only at h
      split at h
      · rename_i hnil
        obtain ⟨hold, hnew⟩ := lines_of_kept (kept_of_hunksFrom_nil hnil)
        rw [oldLines_script] at hold
        rw [newLines_script] at hnew
        exact hold.trans hnew.symm
      · cases h
  · intro h
    have hnone : hunksFrom 1 1 (script (linesOf old) (linesOf new)) = [] := by
      rw [h, hunksFrom]
      split
      · rfl
      · rename_i l rest hsome
        have hall := List.dropWhile_eq_nil_iff.2 (kept_scriptWith_self (linesOf new) (table (linesOf new) (linesOf new)))
        rw [script, hall] at hsome
        cases hsome
    unfold of?
    dsimp only
    rw [hnone]
    split <;> rfl

theorem path_of? {path old new : Text} {d : Diff} (h : of? path old new = some d) : d.path = path := by
  unfold of? at h
  split at h
  · cases h
  · dsimp only at h
    split at h
    · cases h
    · cases h
      rfl

/-- **A difference is absent** where the same is shown of the two texts. -/
theorem of?_eq_none_iff {path old new : Text} : of? path old new = none ↔ shown old = shown new :=
  of?_eq_none_iff_lines.trans linesOf_eq_iff

end Diff

/-- Whether the correction changes what is shown of its file. -/
def Correction.isVisible (c : Correction) : Bool := c.changed && Diff.shown c.stored ≠ Diff.shown c.content

namespace Diff

/-- **A difference shows every change of lines and nothing else.**  It is absent where the two texts are the
same once the last line is broken and then every line break is a line feed; and of the corrections of a run
that changed their file, those are reported, in order, whose content differs in this way from what was
stored. -/
theorem diffs_exact :
    (∀ path old new : Text, of? path old new = none ↔ shown old = shown new) ∧
      ∀ r : Run.Result, (Report.diffs r).map Diff.path = (r.corrections.filter (·.isVisible)).map Correction.path := by
  refine ⟨fun path old new => of?_eq_none_iff, fun r => ?_⟩
  unfold Report.diffs
  induction r.corrections with
  | nil => rfl
  | cons c rest ih =>
    have hvisible : c.isVisible = (c.changed && c.diff?.isSome) := by
      have hnone : c.diff? = none ↔ shown c.stored = shown c.content := of?_eq_none_iff
      unfold Correction.isVisible
      cases hdiff : c.diff? with
      | none => simp [hnone.1 hdiff]
      | some d => simp [← hnone, hdiff]
    rw [List.filter_cons, List.filter_cons, hvisible]
    cases c.changed with
    | false => exact ih
    | true =>
      cases hdiff : c.diff? with
      | none =>
        rw [if_pos rfl, List.filterMap_cons_none hdiff]
        exact ih
      | some d =>
        rw [if_pos rfl, List.filterMap_cons_some hdiff, List.map_cons, ih, path_of? hdiff]
        rfl

/-- A text and its last line unbroken differ, and lines do not show it: the difference is absent, and a
correction that takes the line break away is not reported. -/
theorem broken_last_line_hidden :
    ("x\n" : Text) ≠ "x" ∧ of? "a.liquid" "x\n" "x" = none ∧
      Report.diffs { corrections := [{ path := "a.liquid", stored := "x\n", content := "x", changed := true }] } =
        [] := by
  have hnone : of? "a.liquid" "x\n" "x" = none := of?_eq_none_iff.2 (by decide)
  exact ⟨by decide, hnone, by simp [Report.diffs, Correction.diff?, hnone]⟩

end Diff
end LiquidLint
