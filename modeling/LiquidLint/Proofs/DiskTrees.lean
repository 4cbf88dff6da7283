import LiquidLint.Disk.Store
import LiquidLint.Proofs.OrderedTables
import LiquidLint.Proofs.PathNames
import LiquidLint.Proofs.Utf8Text

/-!
# Disks as trees

On a disk whose items lie each in a directory (`Tree`), following the names of a place finds what stands
there and nothing else (`find_pathOf`).  So of a project on a disk one needs to know only what stands at the
places below its directory: whether a path of it is a file, what the file holds, and whether the listing of
the project shows it.
-/

namespace LiquidLint
namespace Disk

/-! ## Names -/

/-- A name that something in a directory can have. -/
structure IsName (name : Text) : Prop where
  not_empty : name ≠ []
  not_dot : name ≠ "."
  not_dots : name ≠ ".."
  no_slash : ('/' : UInt8) ∉ name
  no_zero : 0 ∉ name
  short : name.length ≤ nameLimit

instance (name : Text) : Decidable (IsName name) :=
  decidable_of_iff
    (name ≠ [] ∧ name ≠ "." ∧ name ≠ ".." ∧ ('/' : UInt8) ∉ name ∧ 0 ∉ name ∧
      name.length ≤ nameLimit)
    ⟨fun ⟨h1, h2, h3, h4, h5, h6⟩ => ⟨h1, h2, h3, h4, h5, h6⟩,
      fun ⟨h1, h2, h3, h4, h5, h6⟩ => ⟨h1, h2, h3, h4, h5, h6⟩⟩

/-- Names of which each can stand in a path. -/
def AreNames (names : List Text) : Prop := ∀ name ∈ names, IsName name

instance (names : List Text) : Decidable (AreNames names) := List.decidableBAll _ names

/-- A path below a directory, spelt as listings spell it. -/
def IsPath (path : Text) : Prop := AreNames (Text.splitAtByte path '/')

instance (path : Text) : Decidable (IsPath path) :=
  inferInstanceAs (Decidable (AreNames (Text.splitAtByte path '/')))

theorem IsName.plain {name : Text} (h : IsName name) : Path.IsPlain name :=
  ⟨h.not_empty, h.not_dot, h.not_dots, h.no_slash⟩

theorem AreNames.plain {names : List Text} (h : AreNames names) : Path.ArePlain names :=
  fun name hname => (h name hname).plain

theorem AreNames.reverse {names : List Text} (h : AreNames names) : AreNames names.reverse :=
  fun name hname => h name (List.mem_reverse.1 hname)

theorem AreNames.append {names above : List Text} (h : AreNames names) (habove : AreNames above) :
    AreNames (names ++ above) := fun name hname =>
  (List.mem_append.1 hname).elim (h name) (habove name)

/-! ## Places -/

theorem pathOf_eq (names : List Text) :
    pathOf names = ('/' : UInt8) :: Text.joinWith "/" names.reverse := rfl

theorem splitAtByte_pathOf {names : List Text} (h : ∀ name ∈ names, ('/' : UInt8) ∉ name)
    (hne : names ≠ []) : Text.splitAtByte (pathOf names) '/' = [] :: names.reverse := by
  have hjoin := Text.splitAtByte_joinWith (mt List.reverse_eq_nil_iff.1 hne) fun name hname =>
    h name (List.mem_reverse.1 hname)
  rw [pathOf_eq, Text.splitAtByte_sep]
  exact congrArg ([] :: ·) hjoin

/-- The place in a directory. -/
theorem pathOf_append {names above : List Text} (hne : names ≠ []) :
    pathOf (names ++ above) =
      (if above = [] then ("/" : Text) else pathOf above ++ "/") ++ Text.joinWith "/" names.reverse := by
  by_cases habove : above = []
  · rw [habove, List.append_nil, if_pos rfl, pathOf_eq]
    rfl
  · rw [if_neg habove, pathOf_eq, pathOf_eq, List.reverse_append,
      Text.joinWith_append _ (mt List.reverse_eq_nil_iff.1 habove) (mt List.reverse_eq_nil_iff.1 hne)]
    simp only [List.cons_append]

/-- A place with something added to its last name. -/
theorem pathOf_append_ending (name : Text) (above : List Text) (ending : Text) :
    pathOf ((name ++ ending) :: above) = pathOf (name :: above) ++ ending := by
  have hcons (last : Text) := @pathOf_append [last] above (List.cons_ne_nil last [])
  refine (hcons (name ++ ending)).trans ?_
  rw [show name :: above = [name] ++ above from rfl, hcons name, List.append_assoc]
  rfl

/-- Only the place of no names is the root. -/
theorem pathOf_eq_slash_iff {names : List Text} (h : Path.ArePlain names) : pathOf names = "/" ↔ names = [] := by
  constructor
  · intro hslash
    by_contra hne
    have hsplit := splitAtByte_pathOf h.no_slash hne
    rw [hslash] at hsplit
    have hempty : [] ∈ names.reverse := (List.cons_inj_right _).1 hsplit ▸ List.mem_singleton.2 rfl
    exact (h.reverse [] hempty).not_empty rfl
  · rintro rfl
    rfl

/-- **Places are told apart by their names.** -/
theorem pathOf_inj {names others : List Text} (h : Path.ArePlain names) (hothers : Path.ArePlain others)
    (heq : pathOf names = pathOf others) : names = others := by
  by_cases hne : names = []
  · subst hne
    exact ((pathOf_eq_slash_iff hothers).1 heq.symm).symm
  by_cases hne' : others = []
  · subst hne'
    exact (pathOf_eq_slash_iff h).1 heq
  have hsplit : Text.splitAtByte (pathOf names) '/' = Text.splitAtByte (pathOf others) '/' := by
    rw [heq]
  rw [splitAtByte_pathOf h.no_slash hne, splitAtByte_pathOf hothers.no_slash hne'] at hsplit
  exact List.reverse_injective ((List.cons_inj_right _).1 hsplit)

theorem isAbsolute_pathOf (names : List Text) : Path.isAbsolute (pathOf names) = true :=
  Text.startsWith_iff.2 ⟨_, rfl⟩

/-- A place is clean. -/
theorem clean_pathOf {names : List Text} (h : Path.ArePlain names) :
    Path.clean (pathOf names) = pathOf names := by
  by_cases hne : names = []
  · subst hne
    rfl
  unfold Path.clean Path.names
  rw [isAbsolute_pathOf, if_pos rfl, splitAtByte_pathOf h.no_slash hne, Path.resolve_empty,
    Path.resolve_of_plain h.reverse]
  rfl

theorem absolute_pathOf (d : Disk) {names : List Text} (h : Path.ArePlain names) :
    d.absolute (pathOf names) = pathOf names := by
  unfold absolute
  rw [isAbsolute_pathOf, if_pos rfl, clean_pathOf h]

/-! ## Trees -/

/-- Every item has a place, which lies in a directory. -/
structure Tree (d : Disk) : Prop where
  ordered : d.items.Ordered
  placed : ∀ place item, d.items.get? place = some item → ∃ name above, AreNames (name :: above) ∧
    place = pathOf (name :: above) ∧ place.length < pathLimit ∧ d.itemAt? above = some .directory

section Tree

variable {d : Disk}

theorem itemAt?_cons (name : Text) (above : List Text) :
    d.itemAt? (name :: above) = d.items.get? (pathOf (name :: above)) := rfl

/-- What stands somewhere lies in a directory, and its path is not too long. -/
theorem Tree.parent (hd : d.Tree) {name : Text} {above : List Text} {item : Item}
    (hnames : AreNames (name :: above)) (hitem : d.itemAt? (name :: above) = some item) :
    (pathOf (name :: above)).length < pathLimit ∧ d.itemAt? above = some .directory := by
  obtain ⟨name', above', hnames', hplace, hshort, habove⟩ := hd.placed _ _ hitem
  obtain ⟨rfl, rfl⟩ := List.cons_eq_cons.1 (pathOf_inj hnames.plain hnames'.plain hplace)
  exact ⟨hshort, habove⟩

/-- What stands above something is a directory. -/
theorem Tree.directory_of_append (hd : d.Tree) {names above : List Text} {item : Item}
    (hnames : AreNames (names ++ above)) (hne : names ≠ []) (hitem : d.itemAt? (names ++ above) = some item) :
    d.itemAt? above = some .directory := by
  induction names generalizing item with
  | nil => exact absurd rfl hne
  | cons name rest ih =>
    have hparent := (hd.parent hnames hitem).2
    by_cases hrest : rest = []
    · subst hrest
      exact hparent
    · exact ih (fun n hn => hnames n (List.mem_cons_of_mem _ hn)) hrest hparent

/-- Names are followed one after the other. -/
theorem follow_append (d : Disk) (here names rest : List Text) :
    d.follow here (names ++ rest) =
      match d.follow here names with
      | .error f => .error f
      | .ok found => d.follow found rest := by
  induction names generalizing here with
  | nil => rfl
  | cons name more ih =>
    rw [List.cons_append, follow, follow]
    cases d.itemAt? here with
    | none => rfl
    | some item =>
      cases item with
      | file f => rfl
      | directory =>
        dsimp only
        simp only [ih]
        split_ifs <;> rfl

/-- Following plain names leads to their place or nowhere. -/
theorem follow_names (d : Disk) {here rest : List Text} (hrest : Path.ArePlain rest) {found : List Text}
    (h : d.follow here rest = .ok found) : found = rest.reverse ++ here := by
  induction rest generalizing here with
  | nil => exact (Except.ok.inj h).symm
  | cons name rest ih =>
    have hname := hrest name (List.mem_cons_self ..)
    have hmore := fun n hn => hrest n (List.mem_cons_of_mem name hn)
    unfold follow at h
    rw [if_neg (by simp [hname.not_empty, hname.not_dot]), if_neg hname.not_dots] at h
    split at h
    · exact nomatch h
    · exact nomatch h
    · split_ifs at h
      rw [ih hmore h]
      simp

/-- Following proper names leads to what stands at their place. -/
theorem Tree.follow_of_item (hd : d.Tree) {here rest : List Text} {item : Item}
    (hnames : AreNames (rest.reverse ++ here)) (hitem : d.itemAt? (rest.reverse ++ here) = some item) :
    d.follow here rest = .ok (rest.reverse ++ here) := by
  induction rest generalizing here with
  | nil => rfl
  | cons name rest ih =>
    have hstep : (name :: rest).reverse ++ here = rest.reverse ++ name :: here := by simp
    have hname := hnames name (by simp)
    have hhere : d.itemAt? here = some .directory :=
      hd.directory_of_append hnames (by simp) hitem
    rw [hstep] at hnames hitem ⊢
    have hsome : (d.itemAt? (name :: here)).isNone = false := by
      by_cases hrest : rest = []
      · subst hrest
        exact congrArg Option.isNone hitem
      · exact congrArg Option.isNone
          (hd.directory_of_append hnames (mt List.reverse_eq_nil_iff.1 hrest) hitem)
    unfold follow
    rw [hhere]
    dsimp only
    rw [if_neg (by simp [hname.not_empty, hname.not_dot]), if_neg hname.not_dots,
      if_neg (Nat.not_lt.2 hname.short), hsome, if_neg Bool.false_ne_true]
    exact ih hnames hitem

/-- Looking for a place follows its names. -/
theorem find_eq (d : Disk) {names : List Text} (h : Path.ArePlain names) :
    d.find (pathOf names) =
      if (pathOf names).contains 0 then .error .invalidName
      else if pathLimit ≤ (pathOf names).length then .error .nameTooLong
      else
        match d.follow [] names.reverse with
        | .error f => .error f
        | .ok found =>
          match d.itemAt? found with
          | some item => .ok (pathOf found, item)
          | none => .error .missing := by
  have hsplit : d.follow [] (Text.splitAtByte (pathOf names) '/') = d.follow [] names.reverse := by
    by_cases hne : names = []
    · subst hne
      rfl
    · rw [splitAtByte_pathOf h.no_slash hne]
      rfl
  unfold find
  rw [if_neg (by simp [pathOf_eq]), isAbsolute_pathOf, ← hsplit]
  rfl

/-- Plain names are proper if their path holds no zero and none of them is too long. -/
theorem areNames_of_plain {names : List Text} (h : Path.ArePlain names)
    (hzero : (pathOf names).contains 0 = false) (hshort : ∀ name ∈ names, name.length ≤ nameLimit) :
    AreNames names := by
  intro name hname
  have hplain := h name hname
  refine ⟨hplain.not_empty, hplain.not_dot, hplain.not_dots, hplain.no_slash, fun hmem => ?_,
    hshort name hname⟩
  have hpiece : name ∈ Text.splitAtByte (pathOf names) '/' := by
    rw [splitAtByte_pathOf h.no_slash (List.ne_nil_of_mem hname)]
    exact List.mem_cons_of_mem _ (List.mem_reverse.2 hname)
  have := List.contains_iff_mem.2 (Text.mem_of_mem_splitAtByte hpiece hmem)
  exact absurd (this.symm.trans hzero) (by decide)

theorem contains_zero_pathOf {names : List Text} (h : AreNames names) :
    (pathOf names).contains 0 = false := by
  rw [Bool.eq_false_iff]
  intro hzero
  have hmem := List.contains_iff_mem.1 hzero
  by_cases hne : names = []
  · subst hne
    exact absurd hmem (by decide)
  · rw [← @Text.joinWith_splitAtByte '/' (pathOf names), splitAtByte_pathOf h.plain.no_slash hne] at hmem
    obtain ⟨piece, hpiece, hin⟩ := Text.exists_of_mem_joinWith (by decide) hmem
    rcases List.mem_cons.1 hpiece with rfl | hpiece
    · exact nomatch hin
    · exact (h piece (List.mem_reverse.1 hpiece)).no_zero hin

/-- What stands at plain names has proper ones. -/
theorem Tree.areNames (hd : d.Tree) {names : List Text} (h : Path.ArePlain names) {item : Item}
    (hitem : d.itemAt? names = some item) : AreNames names := by
  cases names with
  | nil => exact fun _ hname => nomatch hname
  | cons name above =>
    obtain ⟨name', above', hnames, hplace, -, -⟩ := hd.placed _ _ hitem
    rw [pathOf_inj h hnames.plain hplace]
    exact hnames

/-- **A place is found exactly where something stands.** -/
theorem Tree.find_pathOf (hd : d.Tree) {names : List Text} (h : Path.ArePlain names) {place : Text}
    {item : Item} :
    d.find (pathOf names) = .ok (place, item) ↔ place = pathOf names ∧ d.itemAt? names = some item := by
  rw [find_eq d h]
  constructor
  · intro hfind
    split_ifs at hfind
    cases hfollow : d.follow [] names.reverse with
    | error f =>
      rw [hfollow] at hfind
      exact nomatch hfind
    | ok found =>
      have hfound : found = names := by
        have := follow_names d h.reverse hfollow
        simpa using this
      subst hfound
      rw [hfollow] at hfind
      dsimp only at hfind
      split at hfind
      · next item' hitem =>
        obtain ⟨rfl, rfl⟩ := Prod.mk.inj (Except.ok.inj hfind)
        exact ⟨rfl, hitem⟩
      · exact nomatch hfind
  · rintro ⟨rfl, hitem⟩
    have hnames := hd.areNames h hitem
    have hshort : (pathOf names).length < pathLimit := by
      cases names with
      | nil => decide
      | cons name above => exact (hd.parent hnames hitem).1
    have hfollow : d.follow [] names.reverse = .ok names := by
      have hreverse : names.reverse.reverse ++ [] = names := by simp
      have := @Tree.follow_of_item d hd [] names.reverse item
      rw [hreverse] at this
      exact this hnames hitem
    rw [contains_zero_pathOf hnames, if_neg Bool.false_ne_true, if_neg (Nat.not_le.2 hshort), hfollow]
    dsimp only
    rw [hitem]

/-- Where nothing is found, nothing stands; what is only missing could stand there. -/
theorem Tree.none_of_missing (hd : d.Tree) {names : List Text} (h : Path.ArePlain names)
    (hfind : d.find (pathOf names) = .error .missing) :
    d.itemAt? names = none ∧ (pathOf names).length < pathLimit := by
  constructor
  · cases hitem : d.itemAt? names with
    | none => rfl
    | some item => exact nomatch hfind.symm.trans ((hd.find_pathOf h).2 ⟨rfl, hitem⟩)
  · rw [find_eq d h] at hfind
    split_ifs at hfind with hzero hlong
    · exact nomatch hfind
    · exact nomatch hfind
    · exact Nat.lt_of_not_le hlong

/-- Looking for a name in a directory. -/
theorem Tree.find_in_directory (hd : d.Tree) {name : Text} {above : List Text}
    (h : Path.ArePlain (name :: above)) (habove : d.itemAt? above = some .directory) :
    d.find (pathOf (name :: above)) =
      if (pathOf (name :: above)).contains 0 then .error .invalidName
      else if pathLimit ≤ (pathOf (name :: above)).length then .error .nameTooLong
      else if nameLimit < name.length then .error .nameTooLong
      else
        match d.itemAt? (name :: above) with
        | some item => .ok (pathOf (name :: above), item)
        | none => .error .missing := by
  have hname := h name (List.mem_cons_self ..)
  have hproper := hd.areNames (fun n hn => h n (List.mem_cons_of_mem _ hn)) habove
  have hfollow : d.follow [] (name :: above).reverse =
      if nameLimit < name.length then .error .nameTooLong
      else if (d.itemAt? (name :: above)).isNone then .error .missing
      else .ok (name :: above) := by
    have hreach := @Tree.follow_of_item d hd [] above.reverse .directory
    rw [List.reverse_reverse, List.append_nil] at hreach
    rw [List.reverse_cons, follow_append, hreach hproper habove]
    dsimp only
    rw [follow, habove]
    dsimp only
    rw [if_neg (by simp [hname.not_empty, hname.not_dot]), if_neg hname.not_dots]
    rfl
  rw [find_eq d h, hfollow]
  by_cases hlong : nameLimit < name.length
  · rw [if_pos hlong, if_pos hlong]
  · rw [if_neg hlong, if_neg hlong]
    cases hitem : d.itemAt? (name :: above) with
    | none => rfl
    | some item => simp [hitem]

/-- What is missing in a directory could have its name there. -/
theorem Tree.areNames_of_missing (hd : d.Tree) {name : Text} {above : List Text}
    (h : Path.ArePlain (name :: above)) (habove : d.itemAt? above = some .directory)
    (hfind : d.find (pathOf (name :: above)) = .error .missing) : AreNames (name :: above) := by
  have hproper := hd.areNames (fun n hn => h n (List.mem_cons_of_mem _ hn)) habove
  rw [hd.find_in_directory h habove] at hfind
  split_ifs at hfind with hzero hlong htoo
  · exact nomatch hfind
  · exact nomatch hfind
  · exact nomatch hfind
  refine areNames_of_plain h (Bool.eq_false_iff.2 hzero) fun n hn => ?_
  rcases List.mem_cons.1 hn with rfl | hn
  · exact Nat.le_of_not_lt htoo
  · exact (hproper n hn).short

theorem Tree.isFile_pathOf (hd : d.Tree) {names : List Text} (h : AreNames names) :
    d.isFile (pathOf names) = true ↔ ∃ f, d.itemAt? names = some (.file f) := by
  unfold isFile
  constructor
  · intro hfile
    split at hfile
    · next place item hfind =>
      obtain ⟨-, hitem⟩ := (hd.find_pathOf h.plain).1 hfind
      cases item with
      | directory => exact nomatch hfile
      | file f => exact ⟨f, hitem⟩
    · exact nomatch hfile
  · rintro ⟨f, hitem⟩
    rw [(hd.find_pathOf h.plain).2 ⟨rfl, hitem⟩]
    rfl

theorem Tree.isDirectory_pathOf (hd : d.Tree) {names : List Text} (h : AreNames names)
    (hitem : d.itemAt? names = some .directory) : d.isDirectory (pathOf names) = true := by
  unfold isDirectory
  rw [(hd.find_pathOf h.plain).2 ⟨rfl, hitem⟩]
  rfl

end Tree

/-! ## What a project consists of -/

/-- The names of a path below a directory with the names `root`, the last one first. -/
def namesBelow (root : List Text) (path : Text) : List Text :=
  (Text.splitAtByte path '/').reverse ++ root

section Below

variable {root : List Text} {path : Text}

theorem namesBelow_ne_nil (root : List Text) (path : Text) : namesBelow root path ≠ [] :=
  List.append_ne_nil_of_left_ne_nil (mt List.reverse_eq_nil_iff.1 (Text.splitAtByte_ne_nil path)) root

theorem length_lt_namesBelow (root : List Text) (path : Text) :
    root.length < (namesBelow root path).length := by
  have hpos : 0 < (Text.splitAtByte path '/').length :=
    List.length_pos_of_ne_nil (Text.splitAtByte_ne_nil path)
  unfold namesBelow
  rw [List.length_append, List.length_reverse]
  omega

theorem areNames_namesBelow (hroot : AreNames root) (hpath : IsPath path) :
    AreNames (namesBelow root path) := hpath.reverse.append hroot

theorem namesBelow_inj {other : Text} (h : namesBelow root path = namesBelow root other) :
    path = other := by
  have hsplit := List.reverse_injective (List.append_cancel_right h)
  rw [← @Text.joinWith_splitAtByte '/' path, hsplit, Text.joinWith_splitAtByte]

/-- The place of a path below a directory: the place of the directory, a slash and the path. -/
theorem pathOf_namesBelow (hroot : AreNames root) (path : Text) :
    pathOf (namesBelow root path) =
      (if pathOf root = "/" then ("/" : Text) else pathOf root ++ "/") ++ path := by
  have hne : (Text.splitAtByte path '/').reverse ≠ [] :=
    mt List.reverse_eq_nil_iff.1 (Text.splitAtByte_ne_nil path)
  have hjoin : Text.joinWith "/" (Text.splitAtByte path '/') = path := Text.joinWith_splitAtByte path
  unfold namesBelow
  rw [pathOf_append hne, List.reverse_reverse, hjoin]
  simp only [pathOf_eq_slash_iff hroot.plain]

/-- The path below a directory is clean. -/
theorem join_pathOf (hroot : Path.ArePlain root) (hpath : Path.ArePlain (Text.splitAtByte path '/')) :
    Path.join [pathOf root, path] = pathOf (namesBelow root path) := by
  have hne : path ≠ [] := by
    rintro rfl
    exact (hpath [] (List.mem_singleton.2 rfl)).not_empty rfl
  have hfilter : [pathOf root, path].filter (· ≠ []) = [pathOf root, path] := by
    simp [hne, pathOf_eq]
  have hresolve : Path.resolve true [] (Text.splitAtByte (pathOf root ++ ('/' : UInt8) :: path) '/') =
      (namesBelow root path).reverse := by
    have hnames : (namesBelow root path).reverse = root.reverse ++ Text.splitAtByte path '/' := by
      unfold namesBelow
      simp
    rw [hnames, Text.splitAtByte_append]
    by_cases hne : root = []
    · subst hne
      exact (Path.resolve_empty ..).trans ((Path.resolve_empty ..).trans (Path.resolve_of_plain hpath _))
    · rw [splitAtByte_pathOf hroot.no_slash hne, List.cons_append, Path.resolve_empty,
        Path.resolve_of_plain (hroot.reverse.append hpath)]
  have hjoined : Text.joinWith ['/'] [pathOf root, path] = pathOf root ++ ('/' : UInt8) :: path :=
    List.append_assoc ..
  unfold Path.join
  rw [hfilter]
  dsimp only
  unfold Path.clean Path.names
  have habsolute : Path.isAbsolute (pathOf root ++ ('/' : UInt8) :: path) = true :=
    Text.startsWith_iff.2 ⟨_, rfl⟩
  rw [hjoined, habsolute, if_pos rfl, hresolve]
  rfl

theorem Tree.mem_files {d : Disk} (hd : d.Tree) {place : Text} {f : File} :
    (place, f) ∈ d.files ↔ d.items.get? place = some (.file f) := by
  unfold files
  rw [List.mem_filterMap, ← hd.ordered.mem_entries]
  constructor
  · rintro ⟨⟨p, item⟩, hmem, hfile⟩
    cases item with
    | directory => exact nomatch hfile
    | file g =>
      obtain ⟨rfl, rfl⟩ := Prod.mk.inj (Option.some.inj hfile)
      exact hmem
  · exact fun hmem => ⟨_, hmem, rfl⟩

end Below

end Disk

namespace DiskStore

open Disk

/-- A project on a tree, in a directory with the names `names`, the last one first. -/
structure Standing (s : DiskStore) (names : List Text) : Prop where
  tree : s.disk.Tree
  proper : AreNames names
  root : s.root = pathOf names
  directory : s.disk.itemAt? names = some .directory

section Standing

variable {s : DiskStore} {names : List Text} {path : Text}

theorem Standing.absolute (hs : s.Standing names) (hpath : IsPath path) :
    s.absolute path = pathOf (namesBelow names path) := by
  unfold DiskStore.absolute
  rw [hs.root, join_pathOf hs.proper.plain hpath.plain]

theorem Standing.has_iff (hs : s.Standing names) (hpath : IsPath path) :
    s.has path = true ↔ ∃ f, s.disk.itemAt? (namesBelow names path) = some (.file f) := by
  unfold DiskStore.has
  rw [hs.absolute hpath, hs.tree.isFile_pathOf (areNames_namesBelow hs.proper hpath)]

/-- **A file that stands there is read.** -/
theorem Standing.read_of_file (hs : s.Standing names) (hpath : IsPath path) {f : File}
    (hfile : s.disk.itemAt? (namesBelow names path) = some (.file f)) :
    s.read path = .ok (Text.replaceInvalid f.content) := by
  have hfind := (hs.tree.find_pathOf (areNames_namesBelow hs.proper hpath).plain).2 ⟨rfl, hfile⟩
  unfold DiskStore.read Disk.read stat contentOf look
  rw [hs.absolute hpath, hfind]
  rfl

/-- **The listing shows the files that it reaches**, but for backups. -/
theorem Standing.mem_paths (hs : s.Standing names) :
    path ∈ s.paths ↔ IsPath path ∧ s.has path = true ∧ isBackup path = false ∧
      ListOptions.reaches { skip := s.skip } (Text.splitAtByte path '/') = true := by
  have hfind : s.disk.find (pathOf names) = .ok (pathOf names, .directory) :=
    (hs.tree.find_pathOf hs.proper.plain).2 ⟨rfl, hs.directory⟩
  have hlist : s.paths = ((s.disk.files.filterMap fun e =>
        Text.dropStart? (if pathOf names = "/" then ("/" : Text) else pathOf names ++ "/") e.1).filter
          fun p => ListOptions.reaches { skip := s.skip } (Text.splitAtByte p '/')).filter
            fun p => !isBackup p := by
    unfold DiskStore.paths Disk.list
    rw [hs.root, hfind]
    rfl
  rw [hlist]
  simp only [List.mem_filter, List.mem_filterMap, Bool.not_eq_true', Text.dropStart?_eq_some]
  constructor
  · rintro ⟨⟨⟨⟨place, f⟩, hmem, hplace⟩, hreaches⟩, hbackup⟩
    have hitem := hs.tree.mem_files.1 hmem
    obtain ⟨name, above, hnames, hplace', -, -⟩ := hs.tree.placed _ _ hitem
    have hat : name :: above = namesBelow names path := by
      have hslash : ∀ n ∈ namesBelow names path, ('/' : UInt8) ∉ n := fun n hn =>
        (List.mem_append.1 hn).elim
          (fun hn => Text.not_mem_of_mem_splitAtByte (List.mem_reverse.1 hn)) (hs.proper.plain.no_slash n)
      have hsplit := splitAtByte_pathOf hslash (namesBelow_ne_nil names path)
      rw [pathOf_namesBelow hs.proper, ← hplace, hplace',
        splitAtByte_pathOf hnames.plain.no_slash (List.cons_ne_nil name above)] at hsplit
      exact List.reverse_injective ((List.cons_inj_right _).1 hsplit)
    have hpath : IsPath path := fun n hn => hnames n (by
      rw [hat]
      exact List.mem_append_left _ (List.mem_reverse.2 hn))
    refine ⟨hpath, (hs.has_iff hpath).2 ⟨f, ?_⟩, hbackup, hreaches⟩
    rw [← hat, itemAt?_cons, ← hplace']
    exact hitem
  · rintro ⟨hpath, hhas, hbackup, hreaches⟩
    obtain ⟨f, hfile⟩ := (hs.has_iff hpath).1 hhas
    refine ⟨⟨⟨⟨pathOf (namesBelow names path), f⟩, hs.tree.mem_files.2 ?_,
      pathOf_namesBelow hs.proper path⟩, hreaches⟩, hbackup⟩
    obtain ⟨name, above, hcons⟩ := List.exists_cons_of_ne_nil (namesBelow_ne_nil names path)
    rw [hcons] at hfile ⊢
    exact hfile

end Standing

end DiskStore
end LiquidLint
