import LiquidLint.Proofs.RunOrder
import LiquidLint.Watch.Basic

/-!
# Steps of a watcher

A watcher brings its copy of a project in line with the disk path by path.  It leaves a path alone, lets
go of one that it has and the disk has not, or takes over a content that it does not have (`Refreshed`,
`refreshed_refreshPath`).  Everything else stays: what the copy and the session hold of other paths, and
how the watcher is set up (`SameSetup`).
-/

namespace LiquidLint
namespace Watcher

open Session

/-! ## Letting go and taking over -/

section Path

variable (w : Watcher) (path : Text)

/-- The version under which the copy takes over a path: the next one of the copy, else the one after
the version that was dropped last. -/
def nextVersion : Int :=
  if w.store.docs.contains path then w.store.version path + 1
  else if 0 < w.session.forgottenVersion path then w.session.forgottenVersion path + 1
  else w.store.version path + 1

variable {w path}

theorem docs_update (content : Text) :
    (w.update path content).store.docs =
      w.store.docs.insert path ⟨content, w.nextVersion path⟩ := by
  unfold update nextVersion
  split
  · rfl
  · dsimp only
    split <;> rfl

theorem session_update (content : Text) : (w.update path content).session = w.session := by
  unfold update
  split <;> rfl

theorem docs_forget : (w.forget path).store.docs = w.store.docs.erase path := rfl

theorem standing_forget (other : Text) :
    (w.forget path).session.standing other =
      if other = path then (w.session.standing path).dropped (w.store.version path)
      else w.session.standing other := by
  refine (standing_forgetAt path (w.store.version path) other).trans ?_
  by_cases h : other = path
  · rw [if_pos h, if_pos h, h]
  · rw [if_neg h, if_neg h]

theorem version_of_not_stored (h : w.store.docs.get? path = none) : w.store.version path = 0 := by
  unfold VersionedStore.version
  rw [h]
  rfl

end Path

/-! ## How a watcher is set up -/

/-- Two watchers look at one project in one way. -/
structure SameSetup (w v : Watcher) : Prop where
  root : v.root = w.root
  selection : v.selection = w.selection
  checks : v.checks = w.checks
  options : v.options = w.options

namespace SameSetup

variable {u v w : Watcher}

theorem refl (w : Watcher) : SameSetup w w := ⟨rfl, rfl, rfl, rfl⟩

theorem trans (h : SameSetup w v) (h' : SameSetup v u) : SameSetup w u :=
  ⟨h'.root.trans h.root, h'.selection.trans h.selection, h'.checks.trans h.checks,
    h'.options.trans h.options⟩

theorem project (h : SameSetup w v) (d : Disk) : v.project d = w.project d := by
  unfold Watcher.project
  rw [h.root]

theorem contentOf (h : SameSetup w v) (d : Disk) (path : Text) :
    v.contentOf d path = w.contentOf d path := by
  unfold Watcher.contentOf
  rw [h.project, h.selection]

theorem forget (w : Watcher) (path : Text) : SameSetup w (w.forget path) := ⟨rfl, rfl, rfl, rfl⟩

theorem update (w : Watcher) (path content : Text) : SameSetup w (w.update path content) := by
  unfold Watcher.update
  split <;> exact ⟨rfl, rfl, rfl, rfl⟩

end SameSetup

/-! ## Refreshing -/

/-- What bringing a path in line with the disk can do; the result tells whether the path is to be
analysed. -/
inductive Refreshed (w : Watcher) (d : Disk) (path : Text) : Watcher → Bool → Prop where
  /-- The path is not looked at, there is nothing at it, or its content cannot be read or is as before. -/
  | keep : (Disk.isBackup path = true ∨
      ((w.project d).has path = false ∧ w.store.docs.contains path = false) ∨
      ((w.project d).has path = true ∧ ((∃ f, w.contentOf d path = .error f) ∨
        ∃ content, w.contentOf d path = .ok content ∧ w.store.read path = .ok content))) →
      Refreshed w d path w false
  | drop : Disk.isBackup path = false → (w.project d).has path = false →
      w.store.docs.contains path = true → Refreshed w d path (w.forget path) false
  | take (content : Text) : Disk.isBackup path = false → (w.project d).has path = true →
      w.contentOf d path = .ok content → w.store.read path ≠ .ok content →
      Refreshed w d path (w.update path content) (w.selection.loads path)

/-- **What bringing a path in line with the disk does.** -/
theorem refreshed_refreshPath (w : Watcher) (d : Disk) (path : Text) :
    Refreshed w d path (w.refreshPath d path).1 (w.refreshPath d path).2.1 := by
  unfold refreshPath
  by_cases hbackup : Disk.isBackup path = true
  · rw [if_pos hbackup]
    exact .keep (.inl hbackup)
  rw [if_neg hbackup]
  rw [Bool.not_eq_true] at hbackup
  cases hhas : (w.project d).has path with
  | false =>
    rw [Bool.not_false, if_pos rfl]
    by_cases hstored : w.store.docs.contains path = true
    · rw [if_pos hstored]
      exact .drop hbackup hhas hstored
    · rw [if_neg hstored]
      exact .keep (.inr (.inl ⟨hhas, Bool.eq_false_iff.2 hstored⟩))
  | true =>
    rw [Bool.not_true, if_neg Bool.false_ne_true]
    cases hcontent : w.contentOf d path with
    | error f => exact .keep (.inr (.inr ⟨hhas, .inl ⟨f, hcontent⟩⟩))
    | ok content =>
      dsimp only
      cases hread : w.store.read path with
      | ok old =>
        dsimp only
        by_cases hsame : old = content
        · rw [if_pos hsame]
          exact .keep (.inr (.inr ⟨hhas, .inr ⟨content, hcontent, hsame ▸ hread⟩⟩))
        · rw [if_neg hsame]
          exact .take content hbackup hhas hcontent fun h => hsame (Except.ok.inj (hread.symm.trans h))
      | error f => exact .take content hbackup hhas hcontent fun h => nomatch hread.symm.trans h

namespace Refreshed

variable {w v : Watcher} {d : Disk} {path : Text} {changed : Bool}

theorem sameSetup (h : Refreshed w d path v changed) : SameSetup w v := by
  cases h with
  | keep => exact .refl w
  | drop => exact .forget w path
  | take content => exact .update w path content

/-- **Other paths stay as they are.** -/
theorem get?_of_ne (h : Refreshed w d path v changed) {other : Text} (hother : other ≠ path) :
    v.store.docs.get? other = w.store.docs.get? other := by
  cases h with
  | keep => rfl
  | drop => rw [docs_forget, Table.get?_erase, if_neg hother]
  | take content => rw [docs_update, Table.get?_insert, if_neg hother]

theorem ordered (h : Refreshed w d path v changed) (hw : w.store.docs.Ordered) :
    v.store.docs.Ordered := by
  cases h with
  | keep => exact hw
  | drop => exact hw.erase path
  | take content =>
    rw [docs_update]
    exact hw.insert path _

/-- A path that is to be analysed is in the copy. -/
theorem isSome_of_changed (h : Refreshed w d path v changed) (hchanged : changed = true) :
    (v.store.docs.get? path).isSome := by
  cases h with
  | keep => exact nomatch hchanged
  | drop => exact nomatch hchanged
  | take content =>
    rw [docs_update, Table.get?_insert, if_pos rfl]
    rfl

end Refreshed

theorem refreshAll_cons (w : Watcher) (d : Disk) (around : Analysis.Surroundings)
    (changed : List Text) (first : Text) (rest : List Text) :
    w.refreshAll d around changed (first :: rest) =
      (w.refreshPath d first).1.refreshAll d
        { around with log := around.log ++ (w.refreshPath d first).2.2 }
        (if (w.refreshPath d first).2.1 then changed ++ [first] else changed) rest := rfl

/-- **Bringing paths in line with the disk** succeeds, and keeps what bringing each of them in line
keeps. -/
theorem refreshAll_induction {d : Disk} {P : Watcher → Prop}
    (hstep : ∀ w path v changed, Refreshed w d path v changed → P w → P v) {w : Watcher}
    {around : Analysis.Surroundings} {changed paths : List Text} (hw : P w) :
    P (w.refreshAll d around changed paths).watcher := by
  induction paths generalizing w around changed with
  | nil => exact hw
  | cons path rest ih => exact ih (hstep w path _ _ (refreshed_refreshPath w d path) hw)

/-- **The paths that are to be analysed are in the copy.** -/
theorem isSome_of_refreshAll {d : Disk} {w : Watcher} {around : Analysis.Surroundings}
    {changed paths : List Text} (hnodup : paths.Nodup) (hnew : ∀ path ∈ changed, path ∉ paths)
    (hchanged : ∀ path ∈ changed, (w.store.docs.get? path).isSome) :
    ∃ found, (w.refreshAll d around changed paths).outcome = .ok found ∧
      ∀ path ∈ found,
        ((w.refreshAll d around changed paths).watcher.store.docs.get? path).isSome := by
  induction paths generalizing w around changed with
  | nil => exact ⟨changed, rfl, hchanged⟩
  | cons first rest ih =>
    obtain ⟨hfirst, hrest⟩ := List.nodup_cons.1 hnodup
    have hstep := refreshed_refreshPath w d first
    have hmem {path : Text} (h : path ∈ if (w.refreshPath d first).2.1 then changed ++ [first]
        else changed) : path ∈ changed ∨ path = first ∧ (w.refreshPath d first).2.1 = true := by
      by_cases hreported : (w.refreshPath d first).2.1 = true
      · rw [if_pos hreported] at h
        exact (List.mem_append.1 h).imp_right fun h => ⟨List.mem_singleton.1 h, hreported⟩
      · rw [if_neg hreported] at h
        exact .inl h
    rw [refreshAll_cons]
    refine ih hrest (fun path hpath => ?_) fun path hpath => ?_
    · rcases hmem hpath with hpath | ⟨rfl, -⟩
      · exact fun h => hnew path hpath (List.mem_cons_of_mem _ h)
      · exact hfirst
    · rcases hmem hpath with hpath | ⟨rfl, hreported⟩
      · have hne : path ≠ first := fun h => hnew path hpath (h ▸ List.mem_cons_self ..)
        rw [hstep.get?_of_ne hne]
        exact hchanged path hpath
      · exact hstep.isSome_of_changed hreported

/-- Refreshing succeeds, and the paths that are to be analysed are in the copy. -/
theorem isSome_of_refresh (w : Watcher) (d : Disk) (around : Analysis.Surroundings)
    (paths : List Text) :
    ∃ found, (w.refresh d around paths).outcome = .ok found ∧
      ∀ path ∈ found, ((w.refresh d around paths).watcher.store.docs.get? path).isSome :=
  isSome_of_refreshAll (Text.nodup_sortDedup _) nofun nofun

/-! ## Taking the project over -/

/-- **Taking files over** keeps what writing to the copy keeps. -/
theorem loadAll_induction {d : Disk} {P : Watcher → Prop} {paths : List Text}
    (hstep : ∀ w, ∀ path ∈ paths, ∀ content, P w → P { w with store := w.store.write path content })
    {w : Watcher} {around : Analysis.Surroundings} (hw : P w) :
    P (w.loadAll d around paths).watcher := by
  induction paths generalizing w around with
  | nil => exact hw
  | cons path rest ih =>
    have hrest := fun w path' hpath' => hstep w path' (List.mem_cons_of_mem path hpath')
    unfold loadAll
    split
    · exact hw
    · cases w.contentOf d path with
      | error f => exact ih hrest hw
      | ok content => exact ih hrest (hstep w path (List.mem_cons_self ..) content hw)

end Watcher
end LiquidLint
