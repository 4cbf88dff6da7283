import LiquidLint.Analysis.Analyzer
import LiquidLint.Proofs.OrderedTables
import LiquidLint.Store.Memory

/-!
# Writing to memory

A storage in memory neither refuses nor fails.  Where corrections of different paths start from what it
holds, all that changed something are written (`writeAll_memory`): each of their paths holds its content
then (`get?_writeEach_of_mem`), and every other path what it held (`get?_writeEach_of_not_mem`).  Paths
neither come nor go (`keys_writeEach`).
-/

namespace LiquidLint

open Store

/-- Tables in order with the same names have them in the same order. -/
theorem Table.Ordered.keys_eq {α β : Type} {t : Table α} {u : Table β} (ht : t.Ordered)
    (hu : u.Ordered) (h : ∀ k, (t.get? k).isSome = (u.get? k).isSome) : t.keys = u.keys := by
  have hkeys {γ : Type} {t : Table γ} (ht : t.Ordered) : t.keys.Pairwise Text.Precedes :=
    List.pairwise_map.2 ht
  refine (hkeys ht).eq_of_mem_iff (hkeys hu) fun k => ?_
  rw [ht.mem_keys, hu.mem_keys, ← Option.isSome_iff_exists, ← Option.isSome_iff_exists, h]

/-- The correction once its content was written, if it changed something. -/
def Correction.afterWrite (c : Correction) : Correction := { c with written := c.changed || c.written }

theorem Correction.afterWrite_of_changed {c : Correction} (h : c.changed = true) :
    c.afterWrite = { c with written := true } := by
  have hwritten : (c.changed || c.written) = true := by rw [h, Bool.true_or]
  unfold afterWrite
  rw [hwritten]

theorem Correction.afterWrite_of_unchanged {c : Correction} (h : c.changed = false) :
    c.afterWrite = c := by
  have hwritten : (c.changed || c.written) = c.written := by rw [h, Bool.false_or]
  unfold afterWrite
  rw [hwritten]

namespace MemoryStore

/-! ## Snapshots -/

section Snapshots

variable {s : MemoryStore} {path text : Text}

theorem paths_snapshot (s : MemoryStore) : s.snapshot.paths = s.files.keys :=
  List.map_map

theorem read_eq (h : s.files.get? path = some text) : s.read path = .ok (Text.replaceInvalid text) := by
  unfold read
  rw [h]

/-- A snapshot reads what the storage reads. -/
theorem read_snapshot (h : s.files.get? path = some text) :
    s.snapshot.read path = (.ok (Text.replaceInvalid text), 0) := by
  have hstate : s.snapshot.state? path = some { content := .loaded (Text.replaceInvalid text) } := by
    unfold Snapshot.state? snapshot
    rw [Table.get?_map, h]
    rfl
  unfold Snapshot.read
  rw [hstate]

/-- The paths that can be analysed are those that are not left out and of a category that is parsed. -/
theorem analysable_snapshot {a : Analyzer} (h : a.snapshot = s.snapshot) :
    a.analysable =
      s.files.keys.filter fun p => !a.options.exclude p && (Project.classify p).category.isAnalyzable := by
  unfold Analyzer.analysable
  rw [h]
  show (s.files.entries.map _).filterMap _ = (s.files.entries.map _).filter _
  rw [List.filterMap_map]
  induction s.files.entries with
  | nil => rfl
  | cons e rest ih =>
    obtain ⟨k, t⟩ := e
    rw [List.filterMap_cons, List.map_cons, List.filter_cons, ih]
    dsimp only [Function.comp]
    cases a.options.exclude k <;> cases (Project.classify k).category.isAnalyzable <;> rfl

end Snapshots

/-! ## Writes -/

/-- The storage after the contents of corrections were written. -/
def writeEach (s : MemoryStore) (cs : List Correction) : MemoryStore :=
  cs.foldl (fun s c => s.write c.path c.content) s

section Writes

variable {s : MemoryStore} {cs : List Correction} {path : Text}

theorem get?_write (s : MemoryStore) (path content other : Text) :
    (s.write path content).files.get? other = if other = path then some content else s.files.get? other :=
  Table.get?_insert ..

theorem read_write_of_ne {other : Text} (h : other ≠ path) (content : Text) :
    (s.write path content).read other = s.read other := by
  unfold read
  rw [get?_write, if_neg h]

/-- **Paths that are not written hold what they held.** -/
theorem get?_writeEach_of_not_mem (h : path ∉ cs.map (·.path)) :
    (s.writeEach cs).files.get? path = s.files.get? path := by
  unfold writeEach
  induction cs generalizing s with
  | nil => rfl
  | cons c rest ih =>
    rw [List.map_cons, List.mem_cons, not_or] at h
    rw [List.foldl_cons, ih h.2, get?_write, if_neg h.1]

/-- **Each path that is written holds its content.** -/
theorem get?_writeEach_of_mem (hnodup : (cs.map (·.path)).Nodup) {c : Correction} (hc : c ∈ cs) :
    (s.writeEach cs).files.get? c.path = some c.content := by
  induction cs generalizing s with
  | nil => exact nomatch hc
  | cons first rest ih =>
    obtain ⟨hfirst, hrest⟩ := List.nodup_cons.1 hnodup
    rcases List.mem_cons.1 hc with rfl | hc
    · show (writeEach (s.write c.path c.content) rest).files.get? c.path = _
      rw [get?_writeEach_of_not_mem hfirst, get?_write, if_pos rfl]
    · exact ih hrest hc

theorem ordered_writeEach (hs : s.files.Ordered) (cs : List Correction) :
    (s.writeEach cs).files.Ordered := by
  induction cs generalizing s with
  | nil => exact hs
  | cons c rest ih => exact @ih (s.write c.path c.content) (hs.insert c.path c.content)

/-- **Writing to paths that are there keeps the paths.** -/
theorem keys_writeEach (hs : s.files.Ordered) (hnodup : (cs.map (·.path)).Nodup)
    (hthere : ∀ c ∈ cs, (s.files.get? c.path).isSome) :
    (s.writeEach cs).files.keys = s.files.keys := by
  refine (ordered_writeEach hs cs).keys_eq hs fun k => ?_
  by_cases hk : k ∈ cs.map (·.path)
  · obtain ⟨c, hc, rfl⟩ := List.mem_map.1 hk
    rw [get?_writeEach_of_mem hnodup hc, hthere c hc]
    rfl
  · rw [get?_writeEach_of_not_mem hk]

/-- A correction that changed nothing is not written. -/
theorem writeAll_cons_of_unchanged {c : Correction} (h : c.changed = false) (rest : List Correction) :
    let w := Analyzer.writeAll s rest
    Analyzer.writeAll s (c :: rest) = { w with corrections := c :: w.corrections } := by
  rw [Analyzer.writeAll, h]
  rfl

/-- A correction that changed something is written, where the storage holds what it starts from. -/
theorem writeAll_cons_of_changed {c : Correction} (h : c.changed = true)
    (hread : s.read c.path = .ok c.stored) (rest : List Correction) :
    let w := Analyzer.writeAll (s.write c.path c.content) rest
    Analyzer.writeAll s (c :: rest) =
      { w with
        corrections := { c with written := true } :: w.corrections
        paths := c.path :: w.paths
        log := ⟨.info, "corrected",
          [("path", c.path), ("edits", Text.ofNat c.applied)]⟩ :: w.log } := by
  have hcurrent : Storage.read s c.path = (.ok c.stored, s) := congrArg (·, s) hread
  rw [Analyzer.writeAll, h, hcurrent]
  dsimp only
  rw [if_neg (by decide), if_neg (not_not_intro rfl)]
  rfl

/-- **All corrections that changed something are written**, where the storage holds what they start
from. -/
theorem writeAll_memory (hnodup : (cs.map (·.path)).Nodup)
    (hread : ∀ c ∈ cs, s.read c.path = .ok c.stored) :
    let w := Analyzer.writeAll s cs
    w.corrections = cs.map Correction.afterWrite ∧
      w.paths = (cs.filter (·.changed)).map (·.path) ∧ w.failures = [] ∧
      w.store = s.writeEach (cs.filter (·.changed)) := by
  dsimp only
  induction cs generalizing s with
  | nil => exact ⟨rfl, rfl, rfl, rfl⟩
  | cons c rest ih =>
    obtain ⟨hfirst, hrest⟩ := List.nodup_cons.1 hnodup
    have hothers := fun c' hc' => hread c' (List.mem_cons_of_mem _ hc')
    rw [List.map_cons, List.filter_cons]
    cases hchanged : c.changed with
    | false =>
      obtain ⟨hcorrections, hrest⟩ := ih hrest hothers
      rw [writeAll_cons_of_unchanged hchanged, Correction.afterWrite_of_unchanged hchanged]
      exact ⟨congrArg (c :: ·) hcorrections, hrest⟩
    | true =>
      obtain ⟨hcorrections, hpaths, hrest⟩ := @ih (s.write c.path c.content) hrest fun c' hc' => by
        have hne : c'.path ≠ c.path := fun heq => hfirst (List.mem_map.2 ⟨c', hc', heq⟩)
        rw [read_write_of_ne hne]
        exact hothers c' hc'
      rw [writeAll_cons_of_changed hchanged (hread c (List.mem_cons_self ..)),
        Correction.afterWrite_of_changed hchanged]
      exact ⟨congrArg (_ :: ·) hcorrections, congrArg (c.path :: ·) hpaths, hrest⟩

end Writes

end MemoryStore
end LiquidLint
