import LiquidLint.Proofs.DiskChanges
import LiquidLint.Proofs.WatcherRuns

/-!
# The copy of a watcher and the disk

Taking a project over goes by the listing of its directory, while refreshing goes by the paths that are
named to it, what the copy has below them and what the listing shows below them.  Where changes of the disk
are followed by refreshes of the changed paths, the copy therefore holds what the listing shows, and besides
the paths that the listing leaves out but a change named, as long as there is a file at them
(`mirrors_following`).  The copy is that of a new watcher exactly if there is no such path
(`mirrors_fresh`).
-/

namespace LiquidLint
namespace Watcher

open Analysis Disk

/-! ## Texts -/

/-- What the copy holds of a path. -/
def textAt (w : Watcher) (path : Text) : Option Text := (w.store.docs.get? path).map (·.content)

/-- What a watcher takes over of a file on a disk. -/
def textOn (w : Watcher) (d : Disk) (path : Text) : Option Text :=
  if (w.project d).has path then (w.contentOf d path).toOption else none

section Texts

variable {w v : Watcher} {d : Disk} {root : List Text} {path : Text}

theorem textAt_eq_none : w.textAt path = none ↔ w.store.docs.get? path = none := Option.map_eq_none_iff

theorem SameSetup.textOn (h : SameSetup w v) (d : Disk) (path : Text) : v.textOn d path = w.textOn d path := by
  unfold Watcher.textOn
  rw [h.project, h.contentOf]

/-- **The content of a file that stands there can be taken over**, and it is well-formed. -/
theorem contentOf_of_has (hs : (w.project d).Standing root) (hpath : IsPath path)
    (hhas : (w.project d).has path = true) :
    ∃ t, w.contentOf d path = .ok t ∧ Text.replaceInvalid t = t := by
  obtain ⟨f, hfile⟩ := (hs.has_iff hpath).1 hhas
  unfold contentOf
  split
  · exact ⟨_, hs.read_of_file hpath hfile, (Text.wellFormed_replaceInvalid _).replaceInvalid_eq⟩
  · exact ⟨[], rfl, Text.WellFormed.nil.replaceInvalid_eq⟩

theorem textOn_of_has (hs : (w.project d).Standing root) (hpath : IsPath path)
    (hhas : (w.project d).has path = true) :
    ∃ t, w.contentOf d path = .ok t ∧ w.textOn d path = some t ∧ Text.replaceInvalid t = t := by
  obtain ⟨t, ht, hvalid⟩ := contentOf_of_has hs hpath hhas
  refine ⟨t, ht, ?_, hvalid⟩
  unfold textOn
  rw [if_pos hhas, ht]
  rfl

/-- What is taken over of a path depends only on the file at it. -/
theorem textOn_congr {d' : Disk} (hs : (w.project d).Standing root) (hs' : (w.project d').Standing root)
    (hpath : IsPath path) (hfile : ∀ f, d'.itemAt? (namesBelow root path) = some (.file f) ↔
      d.itemAt? (namesBelow root path) = some (.file f)) :
    (w.project d').has path = (w.project d).has path ∧ w.textOn d' path = w.textOn d path := by
  have hhas : (w.project d').has path = (w.project d).has path := by
    rw [Bool.eq_iff_iff, hs.has_iff hpath, hs'.has_iff hpath]
    exact exists_congr hfile
  refine ⟨hhas, ?_⟩
  unfold textOn
  rw [hhas]
  split
  · next hpresent =>
    obtain ⟨f, hf⟩ := (hs.has_iff hpath).1 hpresent
    unfold contentOf
    rw [hs.read_of_file hpath hf, hs'.read_of_file hpath ((hfile f).2 hf)]
  · rfl

theorem textOn_of_not_has (hhas : (w.project d).has path = false) : w.textOn d path = none := by
  unfold textOn
  rw [hhas]
  rfl

end Texts

/-! ## Taking over and refreshing -/

/-- What the copy holds is well-formed. -/
def WellKept (w : Watcher) : Prop := ∀ path t, w.textAt path = some t → Text.replaceInvalid t = t

section Steps

variable {w v : Watcher} {d : Disk} {root : List Text} {path : Text}

theorem read_eq_ok (hkept : w.WellKept) {t : Text} : w.store.read path = .ok t ↔ w.textAt path = some t := by
  unfold VersionedStore.read textAt
  cases hget : w.store.docs.get? path with
  | none => exact ⟨nofun, nofun⟩
  | some r =>
    have hvalid : Text.replaceInvalid r.content = r.content := hkept path _ (by
      unfold textAt
      rw [hget]
      rfl)
    simp only [Option.map_some, Except.ok.injEq, Option.some.injEq, hvalid]

/-- **Bringing a path in line with the disk** makes the copy hold of it what the disk has. -/
theorem Refreshed.textAt {changed : Bool} (h : Refreshed w d path v changed)
    (hs : (w.project d).Standing root) (hpath : IsPath path) (hkept : w.WellKept) :
    v.textAt path = if isBackup path then w.textAt path else w.textOn d path := by
  cases h with
  | keep hkeep =>
    rcases hkeep with hbackup | ⟨hhas, hstored⟩ | ⟨hhas, hsame⟩
    · rw [if_pos hbackup]
    · have hnone : w.textAt path = none := by
        rw [textAt_eq_none]
        exact Option.not_isSome_iff_eq_none.1 (Bool.eq_false_iff.1 hstored)
      rw [textOn_of_not_has hhas, hnone, ite_self]
    · obtain ⟨t, ht, hon, -⟩ := textOn_of_has hs hpath hhas
      rcases hsame with ⟨f, hf⟩ | ⟨content, hcontent, hread⟩
      · exact nomatch hf.symm.trans ht
      · obtain rfl := Except.ok.inj (hcontent.symm.trans ht)
        rw [(read_eq_ok hkept).1 hread, hon, ite_self]
  | drop hbackup hhas hstored =>
    rw [hbackup, if_neg Bool.false_ne_true, textOn_of_not_has hhas, textAt_eq_none, docs_forget,
      Table.get?_erase, if_pos rfl]
  | take content hbackup hhas hcontent hread =>
    obtain ⟨t, ht, hon, -⟩ := textOn_of_has hs hpath hhas
    obtain rfl := Except.ok.inj (hcontent.symm.trans ht)
    unfold Watcher.textAt
    rw [hbackup, if_neg Bool.false_ne_true, hon, docs_update, Table.get?_insert, if_pos rfl]
    rfl

theorem Refreshed.textAt_of_ne {changed : Bool} (h : Refreshed w d path v changed) {other : Text}
    (hother : other ≠ path) : v.textAt other = w.textAt other := by
  unfold Watcher.textAt
  rw [h.get?_of_ne hother]

theorem Refreshed.wellKept {changed : Bool} (h : Refreshed w d path v changed)
    (hs : (w.project d).Standing root) (hpath : IsPath path) (hkept : w.WellKept) : v.WellKept := by
  intro other t ht
  by_cases hother : other = path
  · subst hother
    rw [h.textAt hs hpath hkept] at ht
    split at ht
    · exact hkept other t ht
    · cases hhas : (w.project d).has other with
      | false => exact nomatch (textOn_of_not_has hhas).symm.trans ht
      | true =>
        obtain ⟨u, -, hon, hvalid⟩ := textOn_of_has hs hpath hhas
        exact Option.some.inj (hon.symm.trans ht) ▸ hvalid
  · exact hkept other t ((h.textAt_of_ne hother).symm.trans ht)

/-- **Bringing paths in line with the disk** makes the copy hold of them what the disk has, and leaves
the others alone. -/
theorem textAt_refreshAll {around : Surroundings} {changed paths : List Text}
    (hs : (w.project d).Standing root) (hpaths : ∀ path ∈ paths, IsPath path) (hkept : w.WellKept) :
    (w.refreshAll d around changed paths).watcher.WellKept ∧
      SameSetup w (w.refreshAll d around changed paths).watcher ∧
      ∀ path, (w.refreshAll d around changed paths).watcher.textAt path =
        if path ∈ paths ∧ isBackup path = false then w.textOn d path else w.textAt path := by
  induction paths generalizing w around changed with
  | nil => exact ⟨hkept, .refl w, fun path => (if_neg fun h => nomatch h.1).symm⟩
  | cons first rest ih =>
    have hstep := refreshed_refreshPath w d first
    have hfirst := hpaths first (List.mem_cons_self ..)
    have hsetup := hstep.sameSetup
    rw [refreshAll_cons]
    obtain ⟨hkept', hsetup', htext⟩ := @ih (w.refreshPath d first).1
      { around with log := around.log ++ (w.refreshPath d first).2.2 }
      (if (w.refreshPath d first).2.1 then changed ++ [first] else changed)
      (by rw [hsetup.project]; exact hs) (fun path hpath => hpaths path (List.mem_cons_of_mem _ hpath))
      (hstep.wellKept hs hfirst hkept)
    refine ⟨hkept', hsetup.trans hsetup', fun path => ?_⟩
    rw [htext path, hsetup.textOn]
    by_cases hpath : path = first
    · subst hpath
      rw [hstep.textAt hs hfirst hkept]
      cases isBackup path with
      | false => simp
      | true => simp
    · rw [hstep.textAt_of_ne hpath]
      simp [hpath]

/-- **Taking files over.** -/
theorem textAt_loadAll {around : Surroundings} (hlive : around.cancelled = false) {paths : List Text}
    (hpaths : ∀ path ∈ paths, IsPath path ∧ (w.project d).has path = true)
    (hs : (w.project d).Standing root) (hkept : w.WellKept) :
    (w.loadAll d around paths).outcome = .ok () ∧ (w.loadAll d around paths).watcher.WellKept ∧
      SameSetup w (w.loadAll d around paths).watcher ∧
      ∀ path, (w.loadAll d around paths).watcher.textAt path =
        if path ∈ paths then w.textOn d path else w.textAt path := by
  induction paths generalizing w with
  | nil => exact ⟨rfl, hkept, .refl w, fun path => (if_neg List.not_mem_nil).symm⟩
  | cons first rest ih =>
    obtain ⟨hfirst, hhas⟩ := hpaths first (List.mem_cons_self ..)
    obtain ⟨t, ht, hon, hvalid⟩ := textOn_of_has hs hfirst hhas
    have hsetup : SameSetup w { w with store := w.store.write first t } := ⟨rfl, rfl, rfl, rfl⟩
    have hwritten (path : Text) : textAt { w with store := w.store.write first t } path =
        if path = first then some t else w.textAt path := by
      have hget := Table.get?_insert w.store.docs first path ⟨t, w.store.version first + 1⟩
      refine (congrArg (Option.map (·.content)) hget).trans ?_
      by_cases hpath : path = first
      · rw [if_pos hpath, if_pos hpath]
        rfl
      · rw [if_neg hpath, if_neg hpath]
        rfl
    obtain ⟨hok, hkept', hsetup', htext⟩ := ih (w := { w with store := w.store.write first t })
      (fun path hpath => hpaths path (List.mem_cons_of_mem _ hpath)) hs fun path u hu => by
        rw [hwritten] at hu
        split at hu
        · exact Option.some.inj hu ▸ hvalid
        · exact hkept path u hu
    unfold loadAll
    rw [hlive, if_neg Bool.false_ne_true, ht]
    refine ⟨hok, hkept', hsetup.trans hsetup', fun path => ?_⟩
    rw [htext path, hsetup.textOn, hwritten]
    by_cases hpath : path = first
    · subst hpath
      simp [hon]
    · simp [hpath]

end Steps

/-! ## Following changes -/

/-- A change of a path of the project, and the disk after it. -/
structure Change where
  disk : Disk
  path : Text

/-- What happens to the project on a disk, one path after the other. -/
inductive History (w : Watcher) (root : List Text) (start : Disk) : List Change → Disk → Prop where
  | nothing : (w.project start).Standing root → History w root start [] start
  | change {changes : List Change} {d : Disk} (c : Change) : History w root start changes d →
      DiskStore.ChangedAt (w.project d) (w.project c.disk) root c.path →
      History w root start (changes ++ [c]) c.disk

/-- The watcher after it took the project over and refreshed each path that changed. -/
def following (w : Watcher) (start : Disk) (around : Surroundings) (changes : List Change) : Watcher :=
  changes.foldl (fun v c => (v.refresh c.disk around [c.path]).watcher) (w.load start around).watcher

/-- A change named the path, and since then there was always a file at it. -/
def NamedSince (w : Watcher) (changes : List Change) (path : Text) : Prop :=
  ∃ before c after, changes = before ++ c :: after ∧ c.path = path ∧
    ∀ c' ∈ c :: after, (w.project c'.disk).has path = true

section Following

variable {w : Watcher} {root : List Text} {start d : Disk} {changes : List Change} {path : Text}

theorem History.standing (h : History w root start changes d) : (w.project d).Standing root := by
  cases h with
  | nothing hs => exact hs
  | change c _ hc => exact hc.standing

/-- With the next change a path is named that is at hand, and the paths named before remain while there
is a file at them. -/
theorem namedSince_append {c : Change} : NamedSince w (changes ++ [c]) path ↔
    (w.project c.disk).has path = true ∧ (path = c.path ∨ NamedSince w changes path) := by
  constructor
  · rintro ⟨before, c', after, heq, hnamed, hhas⟩
    rcases List.eq_nil_or_concat after with rfl | ⟨between, last, rfl⟩
    · obtain ⟨-, rfl⟩ := List.append_inj' heq rfl |>.imp_right List.singleton_inj.1
      exact ⟨hhas c (List.mem_singleton.2 rfl), .inl hnamed.symm⟩
    · rw [List.concat_eq_append] at heq hhas
      rw [← List.cons_append, ← List.append_assoc] at heq
      obtain ⟨hchanges, hlast⟩ := List.append_inj' heq rfl
      obtain rfl := List.singleton_inj.1 hlast
      refine ⟨hhas c (by simp), .inr ⟨before, c', between, hchanges, hnamed, fun x hx => ?_⟩⟩
      exact hhas x ((List.mem_cons.1 hx).elim (fun h => h ▸ List.mem_cons_self ..) fun h =>
        List.mem_cons_of_mem _ (List.mem_append_left _ h))
  · rintro ⟨hhas, rfl | ⟨before, c', after, rfl, hnamed, hbefore⟩⟩
    · exact ⟨changes, c, [], rfl, rfl, fun x hx => List.mem_singleton.1 hx ▸ hhas⟩
    · refine ⟨before, c', after ++ [c], by simp, hnamed, fun x hx => ?_⟩
      rw [← List.cons_append] at hx
      rcases List.mem_append.1 hx with hx | hx
      · exact hbefore x hx
      · exact List.mem_singleton.1 hx ▸ hhas

theorem not_namedSince_nil : ¬ NamedSince w [] path := by
  rintro ⟨before, c, after, heq, -⟩
  exact List.cons_ne_nil _ _ (List.append_eq_nil_iff.1 heq.symm).2

/-- There is a file at a path that is named. -/
theorem History.has_of_named (h : History w root start changes d) (hnamed : NamedSince w changes path) :
    (w.project d).has path = true := by
  cases h with
  | nothing => exact absurd hnamed not_namedSince_nil
  | change c => exact (namedSince_append.1 hnamed).1

/-- The copy is to hold a path: the listing shows it, or a change named it. -/
def Held (w : Watcher) (d : Disk) (changes : List Change) (path : Text) : Prop :=
  path ∈ (w.project d).paths ∨ IsPath path ∧ isBackup path = false ∧ NamedSince w changes path

/-- **What is held is a file of the project** that is not a backup. -/
theorem History.of_held (h : History w root start changes d) (hheld : Held w d changes path) :
    IsPath path ∧ isBackup path = false ∧ (w.project d).has path = true := by
  rcases hheld with hlisted | ⟨hpath, hbackup, hnamed⟩
  · obtain ⟨hpath, hhas, hbackup, -⟩ := h.standing.mem_paths.1 hlisted
    exact ⟨hpath, hbackup, hhas⟩
  · exact ⟨hpath, hbackup, h.has_of_named hnamed⟩

/-- **A path that a change leaves alone is held after it as before.** -/
theorem held_append {c : Change} (h : History w root start changes d)
    (hc : DiskStore.ChangedAt (w.project d) (w.project c.disk) root c.path)
    (hne : path ≠ c.path) (hhas : (w.project c.disk).has path = (w.project d).has path) :
    Held w c.disk (changes ++ [c]) path ↔ Held w d changes path := by
  unfold Held
  rw [h.standing.mem_paths, hc.standing.mem_paths, namedSince_append, hhas]
  have hnamed : NamedSince w changes path → (w.project d).has path = true := h.has_of_named
  constructor
  · rintro (hlisted | ⟨hpath, hbackup, -, hnow | hbefore⟩)
    · exact .inl hlisted
    · exact absurd hnow hne
    · exact .inr ⟨hpath, hbackup, hbefore⟩
  · rintro (hlisted | ⟨hpath, hbackup, hbefore⟩)
    · exact .inl hlisted
    · exact .inr ⟨hpath, hbackup, hnamed hbefore, .inr hbefore⟩

/-- The path is the changed one, or lies below it and is held by the copy `v`, or is a file of a directory that
stands there in the project of `w`. -/
def IsCandidate (w v : Watcher) (d : Disk) (changed path : Text) : Prop :=
  path = changed ∨ isBelow path changed = true ∧ ((v.textAt path).isSome ∨
    d.isDirectory ((w.project d).absolute changed) = true ∧ path ∈ (w.project d).paths)

/-- The paths that are looked at when a path is refreshed. -/
theorem mem_candidates {w : Watcher} (hordered : w.store.docs.Ordered) {changed : Text} :
    path ∈ Text.sortDedup ([changed].flatMap (w.candidatesOf d)) ↔ IsCandidate w w d changed path := by
  have hkeys : path ∈ w.store.docs.keys ↔ (w.textAt path).isSome := by
    rw [hordered.mem_keys, ← Option.isSome_iff_exists]
    unfold textAt
    rw [Option.isSome_map]
  rw [Text.mem_sortDedup]
  unfold candidatesOf IsCandidate
  simp only [List.flatMap_singleton, List.mem_cons, List.mem_filter, List.mem_append, hkeys]
  by_cases hdirectory : d.isDirectory ((w.project d).absolute changed) = true
  · rw [if_pos hdirectory]
    simp only [hdirectory, true_and, and_comm]
  · rw [if_neg hdirectory]
    simp only [hdirectory, List.not_mem_nil, Bool.false_eq_true, false_and, or_false, and_comm]

/-- The copy holds what it is to hold of a disk after changes. -/
structure Mirrors (w v : Watcher) (d : Disk) (changes : List Change) : Prop where
  setup : SameSetup w v
  kept : v.WellKept
  ordered : v.store.docs.Ordered
  text : ∀ path t, v.textAt path = some t ↔ Held w d changes path ∧ w.textOn d path = some t

/-- Of a path that is looked at, the copy then holds what it is to hold. -/
theorem held_of_candidate {v : Watcher} (hv : Mirrors w v d changes) {c : Change}
    (h : History w root start changes d)
    (hc : DiskStore.ChangedAt (w.project d) (w.project c.disk) root c.path) (hpath : IsPath path)
    (hbackup : isBackup path = false) (hhas : (w.project c.disk).has path = true)
    (hcandidate : IsCandidate w v c.disk c.path path) :
    Held w c.disk (changes ++ [c]) path := by
  rcases hcandidate with hnamed | ⟨-, hstored | ⟨-, hlisted⟩⟩
  · exact .inr ⟨hpath, hbackup, namedSince_append.2 ⟨hhas, .inl hnamed⟩⟩
  · obtain ⟨t, ht⟩ := Option.isSome_iff_exists.1 hstored
    rcases ((hv.text path t).1 ht).1 with hlisted | ⟨-, -, hnamed⟩
    · obtain ⟨-, -, -, hreaches⟩ := h.standing.mem_paths.1 hlisted
      exact .inl (hc.standing.mem_paths.2 ⟨hpath, hhas, hbackup, hreaches⟩)
    · exact .inr ⟨hpath, hbackup, namedSince_append.2 ⟨hhas, .inr hnamed⟩⟩
  · exact .inl hlisted

/-- What lies below a path and is to be held is looked at. -/
theorem candidate_of_held {v : Watcher} (hv : Mirrors w v d changes) {c : Change}
    (h : History w root start changes d)
    (hc : DiskStore.ChangedAt (w.project d) (w.project c.disk) root c.path) (hne : path ≠ c.path)
    (hbelow : isBelow path c.path = true) (hheld : Held w c.disk (changes ++ [c]) path) :
    (v.textAt path).isSome ∨ c.disk.isDirectory ((w.project c.disk).absolute c.path) = true ∧
      path ∈ (w.project c.disk).paths := by
  rcases hheld with hlisted | ⟨hpath, hbackup, hnamed⟩
  · obtain ⟨hpath, hhas, -, -⟩ := hc.standing.mem_paths.1 hlisted
    refine .inr ⟨?_, hlisted⟩
    obtain ⟨f, hf⟩ := (hc.standing.has_iff hpath).1 hhas
    obtain ⟨more, hmore⟩ := (DiskStore.Edit.suffix_namesBelow_iff hc.standing.proper hc.proper hpath).2
      (.inr hbelow)
    have hmore' : more ≠ [] := by
      rintro rfl
      exact hne (namesBelow_inj hmore.symm)
    have hnames := areNames_namesBelow hc.standing.proper hpath
    rw [← hmore] at hf hnames
    show c.disk.isDirectory ((w.project c.disk).absolute c.path) = true
    rw [hc.standing.absolute hc.proper]
    exact hc.standing.tree.isDirectory_pathOf (areNames_namesBelow hc.standing.proper hc.proper)
      (hc.standing.tree.directory_of_append hnames hmore' hf)
  · have hbefore : NamedSince w changes path := (namedSince_append.1 hnamed).2.resolve_left hne
    obtain ⟨t, -, hon, -⟩ := textOn_of_has h.standing hpath (h.has_of_named hbefore)
    exact .inl (Option.isSome_iff_exists.2
      ⟨t, (hv.text path t).2 ⟨.inr ⟨hpath, hbackup, hbefore⟩, hon⟩⟩)

/-- Only proper paths are looked at. -/
theorem Mirrors.isPath_of_candidate {v : Watcher} (hv : Mirrors w v d changes)
    (h : History w root start changes d) {c : Change}
    (hc : DiskStore.ChangedAt (w.project d) (w.project c.disk) root c.path)
    (hcandidate : IsCandidate w v c.disk c.path path) : IsPath path := by
  rcases hcandidate with rfl | ⟨-, hstored | ⟨-, hlisted⟩⟩
  · exact hc.proper
  · obtain ⟨t, ht⟩ := Option.isSome_iff_exists.1 hstored
    exact (h.of_held ((hv.text path t).1 ht).1).1
  · exact (hc.standing.mem_paths.1 hlisted).1

/-- Away from a change, what the copy is to hold of a path stays. -/
theorem held_and_textOn_append {c : Change} (h : History w root start changes d)
    (hc : DiskStore.ChangedAt (w.project d) (w.project c.disk) root c.path) (hpath : IsPath path)
    (hne : path ≠ c.path) (hbelow : isBelow path c.path = false) {t : Text} :
    Held w d changes path ∧ w.textOn d path = some t ↔
      Held w c.disk (changes ++ [c]) path ∧ w.textOn c.disk path = some t := by
  obtain ⟨hhas, hon⟩ := textOn_congr h.standing hc.standing hpath (hc.elsewhere path hpath hne hbelow)
  rw [held_append h hc hne hhas, hon]

/-- **A path that is not looked at** is held after a change as the copy held it before. -/
theorem Mirrors.text_iff_of_not_candidate {v : Watcher} (hv : Mirrors w v d changes)
    (h : History w root start changes d) {c : Change}
    (hc : DiskStore.ChangedAt (w.project d) (w.project c.disk) root c.path)
    (hapart : isBackup path = false → ¬ IsCandidate w v c.disk c.path path) {t : Text} :
    v.textAt path = some t ↔
      Held w c.disk (changes ++ [c]) path ∧ w.textOn c.disk path = some t := by
  constructor
  · intro ht
    obtain ⟨hheld, hon⟩ := (hv.text path t).1 ht
    obtain ⟨hpath, hbackup, -⟩ := h.of_held hheld
    obtain ⟨hne, hnot⟩ := not_or.1 (hapart hbackup)
    have hbelow : isBelow path c.path = false := by
      by_contra hbelow
      exact hnot ⟨by simpa using hbelow, .inl (Option.isSome_iff_exists.2 ⟨t, ht⟩)⟩
    exact (held_and_textOn_append h hc hpath hne hbelow).1 ⟨hheld, hon⟩
  · rintro ⟨hheld, hon⟩
    obtain ⟨hpath, hbackup, -⟩ := (h.change c hc).of_held hheld
    obtain ⟨hne, hnot⟩ := not_or.1 (hapart hbackup)
    have hbelow : isBelow path c.path = false := by
      by_contra hbelow
      have hbelow' : isBelow path c.path = true := by simpa using hbelow
      exact hnot ⟨hbelow', candidate_of_held hv h hc hne hbelow' hheld⟩
    exact (hv.text path t).2 ((held_and_textOn_append h hc hpath hne hbelow).2 ⟨hheld, hon⟩)

/-- **Refreshing the path that changed** brings the copy in line with the disk. -/
theorem Mirrors.refresh {v : Watcher} (hv : Mirrors w v d changes) (h : History w root start changes d)
    {c : Change} (hc : DiskStore.ChangedAt (w.project d) (w.project c.disk) root c.path)
    (around : Surroundings) :
    Mirrors w (v.refresh c.disk around [c.path]).watcher c.disk (changes ++ [c]) := by
  have hproject : v.project c.disk = w.project c.disk := hv.setup.project c.disk
  have hmem (path : Text) : path ∈ Text.sortDedup ([c.path].flatMap (v.candidatesOf c.disk)) ↔
      IsCandidate w v c.disk c.path path := by
    rw [mem_candidates hv.ordered]
    unfold IsCandidate
    rw [hproject]
  have hpaths : ∀ path ∈ Text.sortDedup ([c.path].flatMap (v.candidatesOf c.disk)), IsPath path :=
    fun path hpath => hv.isPath_of_candidate h hc ((hmem path).1 hpath)
  obtain ⟨hkept, hsetup, htext⟩ := @textAt_refreshAll v c.disk root around [] _
    (by rw [hproject]; exact hc.standing) hpaths hv.kept
  have hordered : (v.refresh c.disk around [c.path]).watcher.store.docs.Ordered :=
    refreshAll_induction (P := fun u => u.store.docs.Ordered) (fun _ _ _ _ h hu => h.ordered hu) hv.ordered
  refine ⟨hv.setup.trans hsetup, hkept, hordered, fun path t => ?_⟩
  refine (Iff.of_eq (congrArg (· = some t) (htext path))).trans ?_
  rw [hv.setup.textOn]
  by_cases hlooked : path ∈ Text.sortDedup ([c.path].flatMap (v.candidatesOf c.disk)) ∧
      isBackup path = false
  · rw [if_pos hlooked]
    refine ⟨fun ht => ⟨?_, ht⟩, And.right⟩
    have hhas : (w.project c.disk).has path = true := by
      by_contra hhas
      exact nomatch (textOn_of_not_has (Bool.eq_false_iff.2 hhas)).symm.trans ht
    exact held_of_candidate hv h hc (hpaths path hlooked.1) hlooked.2 hhas ((hmem path).1 hlooked.1)
  · rw [if_neg hlooked]
    exact hv.text_iff_of_not_candidate h hc fun hbackup hcandidate =>
      hlooked ⟨(hmem path).2 hcandidate, hbackup⟩

/-- **What the copy holds.** -/
theorem mirrors_following (hstore : w.store = {}) {around : Surroundings}
    (hlive : around.cancelled = false) (h : History w root start changes d) :
    Mirrors w (w.following start around changes) d changes := by
  induction h with
  | nothing hs =>
    have hempty (path : Text) : w.textAt path = none := by
      unfold textAt
      rw [hstore]
      rfl
    have hlisted : ∀ path ∈ (w.project start).paths, IsPath path ∧ (w.project start).has path = true :=
      fun path hpath => ⟨(hs.mem_paths.1 hpath).1, (hs.mem_paths.1 hpath).2.1⟩
    obtain ⟨-, hkept, hsetup, htext⟩ := textAt_loadAll hlive hlisted hs fun path t ht =>
      nomatch (hempty path).symm.trans ht
    refine ⟨hsetup, hkept, ?_, fun path t => ?_⟩
    · refine loadAll_induction (P := fun v => v.store.docs.Ordered)
        (fun v path _ content hv => hv.insert path _) ?_
      rw [hstore]
      exact Table.ordered_empty
    · have hnone : ¬ NamedSince w [] path := not_namedSince_nil
      refine (Iff.of_eq (congrArg (· = some t) (htext path))).trans ?_
      unfold Held
      by_cases hmem : path ∈ (w.project start).paths
      · simp [hmem]
      · simp [hmem, hnone, hempty]
  | @change changes d c h hc ih =>
    have hfollowing : w.following start around (changes ++ [c]) =
        ((w.following start around changes).refresh c.disk around [c.path]).watcher := List.foldl_append
    rw [hfollowing]
    exact ih.refresh h hc around

/-! ### Edits -/

/-- The change that an edit makes. -/
def changeOf (w : Watcher) (d : Disk) (e : DiskStore.Edit) : Change := ⟨e.apply (w.project d), e.path⟩

/-- **Writing and removing files is a history.** -/
theorem History.edit (h : History w root start changes d) (e : DiskStore.Edit) (hpath : IsPath e.path) :
    History w root start (changes ++ [w.changeOf d e]) (w.changeOf d e).disk :=
  .change (w.changeOf d e) h (e.changedAt h.standing hpath)

/-! ## The copy of a new watcher -/

/-- **The copy and a new one.**  Let a new watcher take a project over, and let each change of a path be
followed by a refresh of that path.  Then the copy holds all that a new watcher takes over from the disk as
it is now, and besides only files that the listing leaves out and a change named.  It is the copy of a new
watcher exactly if no such file is left, that is, if the listing reaches every path that a change named and
that a file, which is no backup, has stood at since. -/
theorem mirrors_fresh (hstore : w.store = {}) {around : Surroundings} (hlive : around.cancelled = false)
    (h : History w root start changes d) :
    let copy := w.following start around changes
    let fresh := (w.load d around).watcher
    (w.load d around).outcome = .ok () ∧
      (∀ path t, fresh.textAt path = some t → copy.textAt path = some t) ∧
      (∀ path t, copy.textAt path = some t → fresh.textAt path = some t ∨
        path ∉ (w.project d).paths ∧ NamedSince w changes path ∧ w.contentOf d path = .ok t) ∧
      ((∀ path, copy.textAt path = fresh.textAt path) ↔
        ∀ path, NamedSince w changes path → IsPath path → isBackup path = false →
          ListOptions.reaches { skip := skippedDirectories } (Text.splitAtByte path '/') = true) := by
  intro copy fresh
  have hcopy : Mirrors w copy d changes := mirrors_following hstore hlive h
  have hnew : Mirrors w fresh d [] := mirrors_following hstore hlive (.nothing h.standing)
  have hfresh (path t) : fresh.textAt path = some t ↔
      path ∈ (w.project d).paths ∧ w.textOn d path = some t := by
    rw [hnew.text]
    unfold Held
    simp only [not_namedSince_nil, and_false, or_false]
  have hlisted : ∀ path ∈ (w.project d).paths, IsPath path ∧ (w.project d).has path = true :=
    fun path hpath => ⟨(h.standing.mem_paths.1 hpath).1, (h.standing.mem_paths.1 hpath).2.1⟩
  have hall (path t) (ht : fresh.textAt path = some t) : copy.textAt path = some t := by
    obtain ⟨hpath, hon⟩ := (hfresh path t).1 ht
    exact (hcopy.text path t).2 ⟨.inl hpath, hon⟩
  refine ⟨(textAt_loadAll hlive hlisted h.standing ?_).1, hall, fun path t ht => ?_, ?_⟩
  · intro path t ht
    unfold textAt at ht
    rw [hstore] at ht
    exact nomatch ht
  · obtain ⟨hheld, hon⟩ := (hcopy.text path t).1 ht
    by_cases hmem : path ∈ (w.project d).paths
    · exact .inl ((hfresh path t).2 ⟨hmem, hon⟩)
    · obtain ⟨hpath, -, hnamed⟩ := hheld.resolve_left hmem
      obtain ⟨u, hu, hon', -⟩ := textOn_of_has h.standing hpath (h.has_of_named hnamed)
      obtain rfl := Option.some.inj (hon'.symm.trans hon)
      exact .inr ⟨hmem, hnamed, hu⟩
  · constructor
    · intro hsame path hnamed hpath hbackup
      obtain ⟨t, -, hon, -⟩ := textOn_of_has h.standing hpath (h.has_of_named hnamed)
      have hheld : copy.textAt path = some t := (hcopy.text path t).2 ⟨.inr ⟨hpath, hbackup, hnamed⟩, hon⟩
      obtain ⟨hmem, -⟩ := (hfresh path t).1 ((hsame path).symm.trans hheld)
      exact (h.standing.mem_paths.1 hmem).2.2.2
    · intro hreaches path
      refine Option.ext fun t => ⟨fun ht => ?_, hall path t⟩
      obtain ⟨hheld, hon⟩ := (hcopy.text path t).1 ht
      obtain ⟨hpath, hbackup, hhas⟩ := h.of_held hheld
      refine (hfresh path t).2 ⟨hheld.elim id fun hnamed => ?_, hon⟩
      exact h.standing.mem_paths.2 ⟨hpath, hhas, hbackup, hreaches path hnamed.2.2 hpath hbackup⟩

end Following

theorem ordered_queryDisk : queryDisk.items.Ordered :=
  .cons (List.forall_mem_singleton.2 rfl) (.cons nofun .nil)

/-- A query stands in a project. -/
theorem standing_queryDisk : (newWatcher.project queryDisk).Standing ["p"] where
  tree := {
    ordered := ordered_queryDisk
    placed := fun place item h => by
      have hmem : (place, item) ∈ queryDisk.items.entries := ordered_queryDisk.mem_entries.2 h
      rcases List.mem_cons.1 hmem with heq | hmem
      · obtain ⟨rfl, -⟩ := Prod.mk.inj heq
        exact ⟨"p", [], by decide, rfl, by decide, rfl⟩
      · obtain ⟨rfl, -⟩ := Prod.mk.inj (List.mem_singleton.1 hmem)
        exact ⟨"find.graphql", ["p"], by decide, rfl, by decide, rfl⟩ }
  proper := by decide
  root := rfl
  directory := rfl

/-- A query is added and another one removed, and the copy is that of a new watcher. -/
theorem mirrors_fresh_queries :
    let added := newWatcher.changeOf queryDisk (.write "app/more.graphql" "query")
    let removed := newWatcher.changeOf added.disk (.remove "find.graphql")
    newWatcher.store = {} ∧ History newWatcher ["p"] queryDisk ([] ++ [added] ++ [removed]) removed.disk ∧
      ∀ path, (newWatcher.following queryDisk {} [added, removed]).textAt path =
        (newWatcher.load removed.disk {}).watcher.textAt path := by
  intro added removed
  have h : History newWatcher ["p"] queryDisk ([] ++ [added] ++ [removed]) removed.disk :=
    ((History.nothing standing_queryDisk).edit _ (by decide)).edit _ (by decide)
  refine ⟨rfl, h, (@mirrors_fresh newWatcher ["p"] queryDisk removed.disk _ rfl {} rfl h).2.2.2.2 ?_⟩
  rintro path ⟨before, c, after, heq, rfl, -⟩ - -
  have hmem : c ∈ [added, removed] := by
    show c ∈ [] ++ [added] ++ [removed]
    rw [heq]
    simp
  rcases List.mem_cons.1 hmem with rfl | hmem
  · decide
  · obtain rfl := List.mem_singleton.1 hmem
    decide

/-- A hidden file that is added is taken over when its path is refreshed, while a new watcher leaves it
out. -/
theorem hidden_mirrored :
    let added := newWatcher.changeOf queryDisk (.write ".draft.graphql" "query")
    (newWatcher.following queryDisk {} [added]).textAt ".draft.graphql" = some "query" ∧
      (newWatcher.load added.disk {}).watcher.textAt ".draft.graphql" = none := by
  decide +kernel

end Watcher
end LiquidLint
