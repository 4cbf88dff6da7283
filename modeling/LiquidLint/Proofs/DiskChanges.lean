import LiquidLint.Proofs.DiskTrees

/-!
# Changes of a disk

Putting a file or a directory into a directory, and taking away what stands at a place with all below it,
keep a disk a tree.  Making directories keeps all that stands, whatever is refused (`Tree.makeDirectories`).
Writing a file of a project makes the directories that it lies in and then puts the file there, where each of
these steps may fail.  Whatever comes of it, only the file itself is different
afterwards, and removing a path takes away only what stands at it or below it (`Edit.changedAt`).
-/

namespace LiquidLint
namespace Disk

variable {d : Disk}

/-! ## Putting something at a place -/

section Put

theorem itemAt?_put {names others : List Text} {item : Item} (h : AreNames names)
    (hothers : AreNames others) (hne : names ≠ []) :
    (d.put (pathOf names) item).itemAt? others = if others = names then some item else d.itemAt? others := by
  cases others with
  | nil => exact (if_neg hne.symm).symm
  | cons other above =>
    rw [itemAt?_cons, itemAt?_cons]
    refine (Table.get?_insert ..).trans ?_
    by_cases heq : other :: above = names
    · rw [if_pos (congrArg pathOf heq), if_pos heq]
    · rw [if_neg fun hplace => heq (pathOf_inj hothers.plain h.plain hplace), if_neg heq]

/-- **What is put into a directory has its place there**, unless it takes the place of a directory. -/
theorem Tree.put (hd : d.Tree) {name : Text} {above : List Text} {item : Item}
    (hnames : AreNames (name :: above)) (hshort : (pathOf (name :: above)).length < pathLimit)
    (habove : d.itemAt? above = some .directory)
    (hother : d.itemAt? (name :: above) ≠ some .directory) :
    (d.put (pathOf (name :: above)) item).Tree where
  ordered := hd.ordered.insert _ _
  placed place other hget := by
    have hitem := fun ns hns =>
      @itemAt?_put d (name :: above) ns item hnames hns (List.cons_ne_nil name above)
    have hproper : AreNames above := fun n hn => hnames n (List.mem_cons_of_mem _ hn)
    replace hget := (Table.get?_insert ..).symm.trans hget
    split at hget
    · next hplace =>
      refine ⟨name, above, hnames, hplace, hplace ▸ hshort, ?_⟩
      rw [hitem above hproper, if_neg (List.cons_ne_self name above).symm]
      exact habove
    · obtain ⟨name', above', hnames', hplace', hshort', habove'⟩ := hd.placed place other hget
      refine ⟨name', above', hnames', hplace', hshort', ?_⟩
      rw [hitem above' fun n hn => hnames' n (List.mem_cons_of_mem _ hn), if_neg]
      · exact habove'
      · rintro rfl
        exact hother habove'

end Put

/-! ## Making directories -/

/-- A disk after directories were made on it. -/
structure Extends (d d' : Disk) : Prop where
  tree : d'.Tree
  kept : ∀ names, AreNames names → d'.itemAt? names = d.itemAt? names ∨
    (d.itemAt? names = none ∧ d'.itemAt? names = some .directory)

namespace Extends

variable {d' d'' : Disk} {names : List Text}

theorem refl (hd : d.Tree) : Extends d d := ⟨hd, fun _ _ => .inl rfl⟩

theorem trans (h : Extends d d') (h' : Extends d' d'') : Extends d d'' where
  tree := h'.tree
  kept names hnames := by
    rcases h.kept names hnames with hkept | ⟨hnone, hmade⟩
    · rw [← hkept]
      exact h'.kept names hnames
    · rcases h'.kept names hnames with hkept | ⟨hnone', -⟩
      · exact .inr ⟨hnone, hkept.trans hmade⟩
      · exact nomatch hnone'.symm.trans hmade

/-- The files are the same. -/
theorem file_iff (h : Extends d d') (hnames : AreNames names) (f : File) :
    d'.itemAt? names = some (.file f) ↔ d.itemAt? names = some (.file f) := by
  rcases h.kept names hnames with hkept | ⟨hnone, hmade⟩
  · rw [hkept]
  · rw [hnone, hmade]
    exact ⟨nofun, nofun⟩

/-- A directory stays. -/
theorem directory (h : Extends d d') (hnames : AreNames names)
    (hdirectory : d.itemAt? names = some .directory) : d'.itemAt? names = some .directory := by
  rcases h.kept names hnames with hkept | ⟨-, hmade⟩
  · exact hkept.trans hdirectory
  · exact hmade

end Extends

theorem makeAll_append (c : Conditions) (d : Disk) (paths more : List Text) :
    d.makeAll c (paths ++ more) =
      match d.makeAll c paths with
      | (.ok (), d) => d.makeAll c more
      | (.error f, d) => (.error f, d) := by
  induction paths generalizing d with
  | nil => rfl
  | cons path rest ih =>
    simp only [List.cons_append, makeAll]
    split
    · exact ih d
    · rfl
    · cases c.failure? .makeDirectory path with
      | some f => rfl
      | none => exact ih _
    · rfl

/-- Making one directory in another one. -/
theorem Tree.makeAll_single (hd : d.Tree) {name : Text} {above : List Text}
    (hplain : Path.ArePlain (name :: above)) (habove : d.itemAt? above = some .directory) (c : Conditions) :
    Extends d (d.makeAll c [pathOf (name :: above)]).2 ∧
      ((d.makeAll c [pathOf (name :: above)]).1 = .ok () →
        (d.makeAll c [pathOf (name :: above)]).2.itemAt? (name :: above) = some .directory) := by
  have hitem {item : Item} {place : Text}
      (h : d.find (pathOf (name :: above)) = .ok (place, item)) :
      d.itemAt? (name :: above) = some item := ((hd.find_pathOf hplain).1 h).2
  unfold makeAll
  split
  · next hfind => exact ⟨.refl hd, fun _ => hitem hfind⟩
  · exact ⟨.refl hd, nofun⟩
  · next hfind =>
    obtain ⟨hnone, hshort⟩ := hd.none_of_missing hplain hfind
    have hnames := hd.areNames_of_missing hplain habove hfind
    have hput := fun ns hns =>
      @itemAt?_put d (name :: above) ns .directory hnames hns (List.cons_ne_nil name above)
    cases c.failure? .makeDirectory (pathOf (name :: above)) with
    | some f => exact ⟨.refl hd, nofun⟩
    | none =>
      dsimp only
      unfold makeAll
      rw [absolute_pathOf d hnames.plain]
      refine ⟨⟨hd.put hnames hshort habove (by rw [hnone]; nofun), fun ns hns => ?_⟩, fun _ => ?_⟩
      · by_cases heq : ns = name :: above
        · subst heq
          exact .inr ⟨hnone, (hput _ hnames).trans (if_pos rfl)⟩
        · exact .inl ((hput ns hns).trans (if_neg heq))
      · exact (hput _ hnames).trans (if_pos rfl)
  · exact ⟨.refl hd, nofun⟩

/-! ### On the way to a place -/

/-- The directories on the way to a place, the outermost first. -/
theorem stages_pathOf {names : List Text} (h : Path.ArePlain names) (hne : names ≠ []) :
    stages (pathOf names) =
      (List.range names.length).map fun i => pathOf (names.reverse.take (i + 1)).reverse := by
  have hstage (i : Nat) : Text.joinWith "/" (([] :: names.reverse).take (i + 1 + 1)) =
      pathOf (names.reverse.take (i + 1)).reverse := by
    obtain ⟨first, more, hfirst⟩ := List.exists_cons_of_ne_nil (mt List.reverse_eq_nil_iff.1 hne)
    rw [pathOf_eq, List.reverse_reverse, List.take_succ_cons, hfirst, List.take_succ_cons]
    rfl
  unfold stages
  rw [splitAtByte_pathOf h.no_slash hne]
  dsimp only
  rw [List.length_cons, List.length_reverse, List.range_succ_eq_map, List.map_cons, List.map_map,
    List.filter_cons_of_neg (by simp [Text.joinWith])]
  simp only [Function.comp_def, Nat.succ_eq_add_one, hstage]
  refine List.filter_eq_self.2 fun path hpath => ?_
  obtain ⟨i, -, rfl⟩ := List.mem_map.1 hpath
  exact decide_eq_true (List.cons_ne_nil _ _)

theorem stages_cons {name : Text} {above : List Text} (h : Path.ArePlain (name :: above)) (hne : above ≠ []) :
    stages (pathOf (name :: above)) = stages (pathOf above) ++ [pathOf (name :: above)] := by
  rw [stages_pathOf h (List.cons_ne_nil name above),
    stages_pathOf (fun n hn => h n (List.mem_cons_of_mem _ hn)) hne, List.length_cons,
    List.range_succ, List.map_append, List.map_singleton]
  refine congrArg₂ _ (List.map_congr_left fun i hi => ?_) ?_
  · rw [List.reverse_cons, List.take_append_of_le_length]
    rw [List.length_reverse]
    exact List.mem_range.1 hi
  · rw [List.take_of_length_le (by simp), List.reverse_reverse]

/-- **Making a directory and those that it lies in** keeps all that stands, and what succeeds has made
the directory. -/
theorem Tree.makeDirectories (hd : d.Tree) {names : List Text} (h : Path.ArePlain names)
    (c : Conditions := {}) :
    Extends d (d.makeDirectories (pathOf names) c).2 ∧
      ((d.makeDirectories (pathOf names) c).1 = .ok () →
        (d.makeDirectories (pathOf names) c).2.itemAt? names = some .directory) := by
  unfold Disk.makeDirectories
  induction names with
  | nil =>
    have hroot : d.find "/" = .ok ("/", .directory) := (hd.find_pathOf h).2 ⟨rfl, rfl⟩
    have hmade : d.makeAll c (stages (pathOf [])) = (.ok (), d) := by
      show d.makeAll c ["/"] = _
      unfold makeAll
      rw [hroot]
      rfl
    rw [hmade]
    exact ⟨.refl hd, fun _ => rfl⟩
  | cons name above ih =>
    by_cases hne : above = []
    · subst hne
      have hstages : stages (pathOf [name]) = [pathOf [name]] := stages_pathOf h (List.cons_ne_nil name [])
      rw [hstages]
      exact hd.makeAll_single h rfl c
    · rw [stages_cons h hne, makeAll_append]
      obtain ⟨hextends, hmade⟩ := ih fun n hn => h n (List.mem_cons_of_mem _ hn)
      split
      · next d' hok =>
        rw [hok] at hextends hmade
        obtain ⟨hextends', hmade'⟩ := hextends.tree.makeAll_single h (hmade rfl) c
        exact ⟨hextends.trans hextends', hmade'⟩
      · next f d' herror =>
        rw [herror] at hextends
        exact ⟨hextends, nofun⟩

/-! ## Writing -/

/-- The directory of a place. -/
theorem dir_pathOf {name : Text} {above : List Text} (h : Path.ArePlain (name :: above)) :
    Path.dir (pathOf (name :: above)) = pathOf above := by
  have hslash := (h name (List.mem_cons_self ..)).no_slash
  have habove : Path.ArePlain above := fun n hn => h n (List.mem_cons_of_mem _ hn)
  unfold Path.dir
  by_cases hne : above = []
  · subst hne
    have hplace : pathOf [name] = [] ++ ('/' : UInt8) :: name := rfl
    rw [hplace, Path.split_append [] hslash]
    rfl
  · have hplace : pathOf (name :: above) = pathOf above ++ ('/' : UInt8) :: name := by
      have := @pathOf_append [name] above (List.cons_ne_nil name [])
      rw [if_neg hne] at this
      exact this.trans (List.append_assoc ..)
    have habsolute : Path.isAbsolute (pathOf above ++ [('/' : UInt8)]) = true :=
      Text.startsWith_iff.2 ⟨_, rfl⟩
    rw [hplace, Path.split_append _ hslash]
    unfold Path.clean Path.names
    rw [habsolute, if_pos rfl, Text.splitAtByte_append, splitAtByte_pathOf habove.no_slash hne,
      List.cons_append, Path.resolve_empty, Path.resolve_plain habove.reverse]
    show ('/' : UInt8) :: Text.joinWith "/" (Path.resolve true _ [[]]) = _
    rw [Path.resolve_empty, List.reverse_reverse, List.append_nil]
    rfl

/-- **Writing a file changes only what stands at its place**, whether it succeeds or not. -/
theorem Tree.writeFile (hd : d.Tree) {name : Text} {above : List Text} (h : AreNames (name :: above))
    (content : Text) :
    (d.writeFile (pathOf (name :: above)) content).2.Tree ∧
      ∀ names, AreNames names → names ≠ name :: above →
        (d.writeFile (pathOf (name :: above)) content).2.itemAt? names = d.itemAt? names := by
  have hput (f : File) (hshort : (pathOf (name :: above)).length < pathLimit)
      (habove : d.itemAt? above = some .directory)
      (hother : d.itemAt? (name :: above) ≠ some .directory) :
      (d.putFile (pathOf (name :: above)) content f.mode).Tree ∧
        ∀ names, AreNames names → names ≠ name :: above →
          (d.putFile (pathOf (name :: above)) content f.mode).itemAt? names = d.itemAt? names := by
    have htree := @Tree.put d hd name above (.file ⟨content, f.mode, d.clock⟩) h hshort habove hother
    refine ⟨⟨htree.ordered, htree.placed⟩, fun names hnames hne => ?_⟩
    exact (itemAt?_put h hnames (List.cons_ne_nil name above)).trans (if_neg hne)
  unfold Disk.writeFile
  split
  · exact ⟨hd, fun _ _ _ => rfl⟩
  · next place f hfind =>
    obtain ⟨rfl, hitem⟩ := (hd.find_pathOf h.plain).1 hfind
    obtain ⟨hshort, habove⟩ := hd.parent h hitem
    exact hput f hshort habove (by rw [hitem]; nofun)
  · next hfind =>
    obtain ⟨hnone, hshort⟩ := hd.none_of_missing h.plain hfind
    rw [dir_pathOf h.plain]
    split
    · next place hparent =>
      have habove := ((hd.find_pathOf fun n hn => (h n (List.mem_cons_of_mem _ hn)).plain).1 hparent).2
      rw [absolute_pathOf d h.plain]
      exact hput {content} hshort habove (by rw [hnone]; nofun)
    · exact ⟨hd, fun _ _ _ => rfl⟩
    · exact ⟨hd, fun _ _ _ => rfl⟩
  · exact ⟨hd, fun _ _ _ => rfl⟩

/-! ## Removing -/

/-- A path leads through a place when it is the place or continues it with a slash. -/
theorem suffix_iff {names others : List Text} (h : AreNames names) (hne : names ≠ [])
    (hothers : AreNames others) :
    names <:+ others ↔ pathOf others = pathOf names ∨
      Text.startsWith (pathOf others) (pathOf names ++ "/") = true := by
  rw [Text.startsWith_iff]
  constructor
  · rintro ⟨more, rfl⟩
    by_cases hmore : more = []
    · subst hmore
      exact .inl rfl
    · refine .inr ⟨Text.joinWith "/" more.reverse, ?_⟩
      rw [pathOf_append hmore, if_neg hne]
  · rintro (hsame | ⟨rest, hrest⟩)
    · obtain rfl := pathOf_inj hothers.plain h.plain hsame
      exact List.suffix_refl others
    · have hne' : others ≠ [] := by
        rintro rfl
        have hlength := congrArg List.length hrest
        rw [List.length_append, List.length_append, pathOf_eq, pathOf_eq, List.length_cons,
          List.length_cons] at hlength
        change 0 + 1 = _ + 1 + 1 + rest.length at hlength
        omega
      have hsplit : Text.splitAtByte (pathOf others) '/' =
          Text.splitAtByte (pathOf names ++ ('/' : UInt8) :: rest) '/' := by
        rw [hrest, List.append_assoc]
        rfl
      rw [Text.splitAtByte_append, splitAtByte_pathOf hothers.plain.no_slash hne',
        splitAtByte_pathOf h.plain.no_slash hne, List.cons_append] at hsplit
      refine ⟨(Text.splitAtByte rest '/').reverse, ?_⟩
      have := congrArg List.reverse ((List.cons_inj_right _).1 hsplit)
      simpa using this.symm

/-- What stands at a place or below it is gone, and all else stays. -/
theorem Tree.itemAt?_remove (hd : d.Tree) {names others : List Text} (h : AreNames names)
    (hne : names ≠ []) (hothers : AreNames others) :
    (d.remove (pathOf names)).itemAt? others = if names <:+ others then none else d.itemAt? others := by
  cases others with
  | nil => exact (if_neg (mt List.suffix_nil.1 hne)).symm
  | cons other above =>
    have hget := hd.ordered.get?_filter
      (fun p _ => p ≠ pathOf names && !Text.startsWith p (pathOf names ++ "/")) (pathOf (other :: above))
    rw [itemAt?_cons, itemAt?_cons]
    unfold Disk.remove
    rw [absolute_pathOf d h.plain]
    refine hget.trans ?_
    by_cases hsuffix : names <:+ other :: above
    · rw [if_pos hsuffix]
      refine Option.filter_eq_none_iff.2 fun item _ hkept => ?_
      rw [Bool.and_eq_true, decide_eq_true_iff, Bool.not_eq_true'] at hkept
      rcases (suffix_iff h hne hothers).1 hsuffix with hsame | hbelow
      · exact hkept.1 hsame
      · exact nomatch hkept.2.symm.trans hbelow
    · have hkept := not_or.1 (mt (suffix_iff h hne hothers).2 hsuffix)
      rw [if_neg hsuffix]
      cases d.items.get? (pathOf (other :: above)) with
      | none => rfl
      | some item => exact if_pos (by simp [hkept.1, hkept.2])

/-- **Removing leaves a tree.** -/
theorem Tree.remove (hd : d.Tree) {names : List Text} (h : AreNames names) (hne : names ≠ []) :
    (d.remove (pathOf names)).Tree where
  ordered := hd.ordered.filter _
  placed place item hget := by
    have hget' := (hd.ordered.get?_filter _ place).symm.trans hget
    obtain ⟨hitem, -⟩ := Option.filter_eq_some_iff.1 hget'
    obtain ⟨name, above, hnames, rfl, hshort, habove⟩ := hd.placed place item hitem
    have hkept : ¬ names <:+ name :: above := by
      intro hsuffix
      have hgone := hd.itemAt?_remove h hne hnames
      rw [if_pos hsuffix] at hgone
      exact nomatch hgone.symm.trans hget
    refine ⟨name, above, hnames, rfl, hshort, ?_⟩
    rw [hd.itemAt?_remove h hne fun n hn => hnames n (List.mem_cons_of_mem _ hn), if_neg]
    · exact habove
    · exact fun hsuffix => hkept (hsuffix.trans (List.suffix_cons name above))

end Disk

/-! ## Changes of a project -/

namespace DiskStore

/-- A project after a change at a path: all files but those at or below the path are as they were. -/
structure ChangedAt (s t : DiskStore) (root : List Text) (path : Text) : Prop where
  standing : t.Standing root
  proper : Disk.IsPath path
  elsewhere : ∀ other, Disk.IsPath other → other ≠ path → Text.startsWith other (path ++ "/") = false →
    ∀ f, t.disk.itemAt? (Disk.namesBelow root other) = some (.file f) ↔
      s.disk.itemAt? (Disk.namesBelow root other) = some (.file f)

/-- A change of one path of a project. -/
inductive Edit where
  /-- A file is written, new or not; the directories that it lies in are made. -/
  | write (path content : Text)
  /-- A file goes away, or a directory with all below it. -/
  | remove (path : Text)

namespace Edit

open Disk

/-- The path that is changed. -/
def path : Edit → Text
  | .write path _ => path
  | .remove path => path

/-- The disk of a project after the change. -/
def apply (s : DiskStore) : Edit → Disk
  | .write path content =>
    ((s.disk.makeDirectories (Path.dir (s.absolute path))).2.writeFile (s.absolute path) content).2
  | .remove path => s.disk.remove (s.absolute path)

variable {s : DiskStore} {root : List Text}

/-- The place of a path lies at or below that of another one as the paths do. -/
theorem suffix_namesBelow_iff (hroot : AreNames root) {path other : Text} (hpath : IsPath path)
    (hother : IsPath other) :
    namesBelow root path <:+ namesBelow root other ↔
      other = path ∨ Text.startsWith other (path ++ "/") = true := by
  rw [suffix_iff (areNames_namesBelow hroot hpath) (namesBelow_ne_nil root path)
    (areNames_namesBelow hroot hother), pathOf_namesBelow hroot, pathOf_namesBelow hroot]
  simp only [Text.startsWith_iff, List.append_assoc, List.append_cancel_left_eq]

/-- **An edit changes a project at its path.** -/
theorem changedAt (hs : s.Standing root) (e : Edit) (hpath : IsPath e.path) :
    ChangedAt s { s with disk := e.apply s } root e.path := by
  cases e with
  | write path content =>
    dsimp only [apply, Edit.path] at hpath ⊢
    have hnames := areNames_namesBelow hs.proper hpath
    obtain ⟨name, above, hcons⟩ := List.exists_cons_of_ne_nil (namesBelow_ne_nil root path)
    have hat (other : Text) (hother : other ≠ path) : namesBelow root other ≠ name :: above := fun h =>
      hother (namesBelow_inj (h.trans hcons.symm))
    have hroot : root ≠ name :: above := fun h =>
      (length_lt_namesBelow root path).ne (congrArg List.length (h.trans hcons.symm))
    rw [hcons] at hnames
    rw [hs.absolute hpath, hcons, dir_pathOf hnames.plain]
    obtain ⟨hextends, -⟩ := hs.tree.makeDirectories fun n hn => (hnames n (List.mem_cons_of_mem _ hn)).plain
    obtain ⟨htree, hkept⟩ := hextends.tree.writeFile hnames content
    refine ⟨⟨htree, hs.proper, hs.root, ?_⟩, hpath, fun other hother hne _ f => ?_⟩
    · exact (hkept root hs.proper hroot).trans (hextends.directory hs.proper hs.directory)
    · have hproper := areNames_namesBelow hs.proper hother
      rw [hkept _ hproper (hat other hne)]
      exact hextends.file_iff hproper f
  | remove path =>
    dsimp only [apply, Edit.path] at hpath ⊢
    have hnames := areNames_namesBelow hs.proper hpath
    have hne := namesBelow_ne_nil root path
    have hremove {names : List Text} (h : AreNames names) :=
      hs.tree.itemAt?_remove hnames hne h
    have hroot : ¬ namesBelow root path <:+ root := fun h =>
      (length_lt_namesBelow root path).not_ge h.length_le
    rw [hs.absolute hpath]
    refine ⟨⟨hs.tree.remove hnames hne, hs.proper, hs.root, ?_⟩, hpath,
      fun other hother hother' hbelow f => ?_⟩
    · exact (hremove hs.proper).trans ((if_neg hroot).trans hs.directory)
    · have hkept : ¬ namesBelow root path <:+ namesBelow root other := by
        rw [suffix_namesBelow_iff hs.proper hpath hother]
        exact not_or.2 ⟨hother', Bool.eq_false_iff.1 hbelow⟩
      rw [hremove (areNames_namesBelow hs.proper hother), if_neg hkept]

end Edit

end DiskStore
end LiquidLint
