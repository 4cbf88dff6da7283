import LiquidLint.Proofs.DiskChanges

/-!
# Safe writing

A file is written by preparing its content beside its place and moving it there.  The name of the prepared
content is made of a number that is drawn, and any call on the way can be refused.  Whatever is drawn and
whichever calls are refused, a write that fails leaves all that stands as it is, and behind at most a prepared
content (`Spared`), and one that succeeds changes only the file that it writes (`Wrote`); which of them is told
by `Tree.writeAtomic` and `Tree.writeIfChanged`.

What a path leads to need not have a proper name.  Nothing stands at such a place (`Tree.areNames`), and
writing there fails.
-/

namespace LiquidLint

namespace Text

/-- The digits of a number are none of the bytes below those of digits. -/
theorem not_mem_ofNat {b : UInt8} (hb : b < 0x30) (n : Nat) : b ∉ ofNat n := by
  intro hmem
  obtain ⟨c, hc, rfl⟩ := List.mem_map.1 hmem
  have hdigit := Nat.isDigit_of_mem_toDigits (by decide) (by decide) hc
  simp only [Char.isDigit, ge_iff_le, Bool.and_eq_true, decide_eq_true_eq, UInt32.le_iff_toNat_le] at hdigit
  obtain ⟨hlow, hhigh⟩ := hdigit
  rw [UInt8.lt_iff_toNat_lt, Char.toUInt8, UInt32.toNat_toUInt8] at hb
  change 48 ≤ c.val.toNat at hlow
  change c.val.toNat ≤ 57 at hhigh
  change c.val.toNat % 256 < 48 at hb
  omega

end Text

namespace Disk

variable {d d' d'' : Disk} {c : Conditions}

/-! ## What stands before and after -/

/-- What stands somewhere is the same before and after, unless nothing stood there and a directory was made. -/
def Stays (before after : Option Item) : Prop := after = before ∨ (before = none ∧ after = some .directory)

section Stays

variable {a b e : Option Item}

theorem Stays.trans (h : Stays a b) (h' : Stays b e) : Stays a e := by
  rcases h with rfl | ⟨rfl, rfl⟩
  · exact h'
  · rcases h' with rfl | ⟨hnone, -⟩
    · exact .inr ⟨rfl, rfl⟩
    · exact nomatch hnone

theorem Stays.stands {item : Item} (h : Stays a b) (hitem : a = some item) : b = some item := by
  rcases h with rfl | ⟨hnone, -⟩
  · exact hitem
  · exact nomatch hnone.symm.trans hitem

theorem Stays.nothing (h : Stays a b) (hnone : b = none) : a = none := by
  rcases h with rfl | ⟨-, hmade⟩
  · exact hnone
  · exact nomatch hnone.symm.trans hmade

theorem Stays.file_iff (h : Stays a b) (f : File) : b = some (.file f) ↔ a = some (.file f) := by
  rcases h with rfl | ⟨rfl, rfl⟩
  · exact Iff.rfl
  · exact ⟨nofun, nofun⟩

end Stays

/-- Nothing stands at improper names. -/
theorem Tree.itemAt?_eq_none (hd : d.Tree) {names : List Text} (h : Path.ArePlain names)
    (hnot : ¬ AreNames names) : d.itemAt? names = none := by
  by_contra hsome
  obtain ⟨item, hitem⟩ := Option.ne_none_iff_exists'.1 hsome
  exact hnot (hd.areNames h hitem)

/-- A disk of which at most one place is different, but for directories that were made. -/
structure Touched (d d' : Disk) (names : List Text) : Prop where
  tree : d'.Tree
  kept : ∀ others, Path.ArePlain others → others ≠ names → Stays (d.itemAt? others) (d'.itemAt? others)

/-- A disk after a file was written at a place. -/
structure Wrote (d d' : Disk) (names : List Text) (content : Text) : Prop extends Touched d d' names where
  written : ∃ f, d'.itemAt? names = some (.file f) ∧ f.content = content

section Touched

variable {names : List Text}

theorem Touched.refl (hd : d.Tree) (names : List Text) : Touched d d names := ⟨hd, fun _ _ _ => .inl rfl⟩

theorem Touched.trans (h : Touched d d' names) (h' : Touched d' d'' names) : Touched d d'' names :=
  ⟨h'.tree, fun others hothers hne => (h.kept others hothers hne).trans (h'.kept others hothers hne)⟩

/-- Only what stands at proper names counts. -/
theorem Touched.of_names (hd : d.Tree) (hd' : d'.Tree)
    (hkept : ∀ others, AreNames others → others ≠ names → Stays (d.itemAt? others) (d'.itemAt? others)) :
    Touched d d' names := by
  refine ⟨hd', fun others hplain hne => ?_⟩
  by_cases hothers : AreNames others
  · exact hkept others hothers hne
  · exact .inl ((hd'.itemAt?_eq_none hplain hothers).trans (hd.itemAt?_eq_none hplain hothers).symm)

end Touched

/-- Making directories keeps all that stands. -/
theorem Extends.stays (h : Extends d d') (hd : d.Tree) {names : List Text} (hplain : Path.ArePlain names) :
    Stays (d.itemAt? names) (d'.itemAt? names) := by
  by_cases hnames : AreNames names
  · exact h.kept names hnames
  · exact .inl ((h.tree.itemAt?_eq_none hplain hnames).trans (hd.itemAt?_eq_none hplain hnames).symm)

theorem Touched.of_extends (hd : d.Tree) (h : Extends d d') (names : List Text) : Touched d d' names :=
  ⟨h.tree, fun _ hothers _ => h.stays hd hothers⟩

/-! ## Putting, removing and moving a file -/

section Files

variable {name : Text} {above : List Text} {f : File}

/-- A file that is put into a directory is written. -/
theorem Tree.putFile (hd : d.Tree) (h : AreNames (name :: above))
    (hshort : (pathOf (name :: above)).length < pathLimit) (habove : d.itemAt? above = some .directory)
    (hother : d.itemAt? (name :: above) ≠ some .directory) (content : Text) (mode : Nat) :
    Wrote d (d.putFile (pathOf (name :: above)) content mode) (name :: above) content := by
  have hput := fun names hnames =>
    @itemAt?_put d (name :: above) names (.file ⟨content, mode, d.clock⟩) h hnames (List.cons_ne_nil name above)
  have htree := @Tree.put d hd name above (.file ⟨content, mode, d.clock⟩) h hshort habove hother
  refine ⟨.of_names hd ⟨htree.ordered, htree.placed⟩ fun others hothers hne => .inl ?_,
    ⟨content, mode, d.clock⟩, (hput _ h).trans (if_pos rfl), rfl⟩
  exact (hput others hothers).trans (if_neg hne)

/-- A file that is removed is gone, and nothing else, since nothing stands below it. -/
theorem Tree.itemAt?_remove_file (hd : d.Tree) {names others : List Text} (h : AreNames names)
    (hfile : d.itemAt? names = some (.file f)) (hothers : AreNames others) :
    (d.remove (pathOf names)).itemAt? others = if others = names then none else d.itemAt? others := by
  have hne : names ≠ [] := by
    rintro rfl
    exact nomatch hfile
  rw [hd.itemAt?_remove h hne hothers]
  by_cases heq : others = names
  · subst heq
    rw [if_pos (List.suffix_refl _), if_pos rfl]
  rw [if_neg heq]
  split
  · next hbelow =>
    obtain ⟨front, rfl⟩ := hbelow
    cases hitem : d.itemAt? (front ++ names) with
    | none => rfl
    | some item =>
      have hfront : front ≠ [] := by
        rintro rfl
        exact heq rfl
      exact nomatch hfile.symm.trans (hd.directory_of_append hothers hfront hitem)
  · rfl

/-- **A file that is moved** into a directory stands there and no longer where it stood. -/
theorem Tree.rename (hd : d.Tree) {source : List Text} (hsource : AreNames source)
    (hfile : d.itemAt? source = some (.file f)) (h : AreNames (name :: above))
    (hshort : (pathOf (name :: above)).length < pathLimit) (habove : d.itemAt? above = some .directory)
    (hother : d.itemAt? (name :: above) ≠ some .directory) (hne : source ≠ name :: above) :
    (d.rename (pathOf source) (pathOf (name :: above))).Tree ∧
      ∀ others, AreNames others → (d.rename (pathOf source) (pathOf (name :: above))).itemAt? others =
        if others = name :: above then some (.file f) else if others = source then none else d.itemAt? others := by
  have hremove {others : List Text} (hothers : AreNames others) := hd.itemAt?_remove_file hsource hfile hothers
  have hput := fun others hothers => @itemAt?_put (d.remove (pathOf source)) (name :: above) others
    (.file f) h hothers (List.cons_ne_nil name above)
  have hnil : source ≠ [] := by
    rintro rfl
    exact nomatch hfile
  have hsourceabove : above ≠ source := by
    rintro rfl
    exact nomatch hfile.symm.trans habove
  have hrename : d.rename (pathOf source) (pathOf (name :: above)) =
      (d.remove (pathOf source)).put (pathOf (name :: above)) (.file f) := by
    obtain ⟨last, below, rfl⟩ := List.exists_cons_of_ne_nil hnil
    rw [itemAt?_cons] at hfile
    rw [Disk.rename, absolute_pathOf d hsource.plain, absolute_pathOf d h.plain, hfile]
  rw [hrename]
  refine ⟨(hd.remove hsource hnil).put h hshort ?_ ?_, fun others hothers => ?_⟩
  · exact (hremove fun n hn => h n (List.mem_cons_of_mem _ hn)).trans ((if_neg hsourceabove).trans habove)
  · rw [hremove h, if_neg hne.symm]
    exact hother
  · rw [hput others hothers, hremove hothers]

end Files

/-! ## The name of a prepared content -/

/-- What is added to a name while its content is prepared. -/
def temporaryEnding (number : Nat) : Text := ".tmp." ++ Text.ofNat number

/-- Names with something added to the last one. -/
def withEnding (ending : Text) : (names : List Text) → List Text
  | [] => [ending]
  | name :: above => (name ++ ending) :: above

theorem pathOf_withEnding (ending : Text) (names : List Text) :
    pathOf (withEnding ending names) = pathOf names ++ ending := by
  cases names with
  | nil => rfl
  | cons name above => exact pathOf_append_ending name above ending

theorem withEnding_ne {ending : Text} (hending : ending ≠ []) (names : List Text) :
    withEnding ending names ≠ names := by
  cases names with
  | nil => exact List.cons_ne_nil _ _
  | cons name above =>
    intro h
    exact hending (List.append_right_eq_self.1 (List.cons.inj h).1)

/-- Where a content is prepared for a place. -/
def temporary (number : Nat) (names : List Text) : List Text := withEnding (temporaryEnding number) names

theorem temporary_ne (number : Nat) (names : List Text) : temporary number names ≠ names :=
  withEnding_ne (List.cons_ne_nil _ _) names

section Names

variable {name : Text} {above : List Text}

/-- A place stays a plain one with an ending. -/
theorem plain_withEnding {ending : Text} (h : Path.ArePlain (name :: above)) (hslash : ('/' : UInt8) ∉ ending)
    (hlength : 2 ≤ ending.length) : Path.ArePlain ((name ++ ending) :: above) := by
  intro n hn
  have hname := h name (List.mem_cons_self ..)
  rcases List.mem_cons.1 hn with rfl | hn
  · exact Path.isPlain_append hname.not_empty hname.no_slash hslash hlength
  · exact h n (List.mem_cons_of_mem _ hn)

theorem plain_temporary (h : Path.ArePlain (name :: above)) (number : Nat) :
    Path.ArePlain (temporary number (name :: above)) := by
  refine plain_withEnding h (List.not_mem_append (by decide +kernel) (Text.not_mem_ofNat (by decide) number)) ?_
  rw [temporaryEnding, List.length_append]
  exact Nat.le_add_right_of_le (by decide)

/-- A name to which something can be added is shorter and holds no other bytes. -/
theorem areNames_of_ending {ending : Text} (hplain : Path.ArePlain (name :: above))
    (h : AreNames ((name ++ ending) :: above)) : AreNames (name :: above) := by
  intro n hn
  have hname := hplain name (List.mem_cons_self ..)
  rcases List.mem_cons.1 hn with rfl | hn
  · have hlong := h _ (List.mem_cons_self ..)
    have hshort := hlong.short
    rw [List.length_append] at hshort
    exact ⟨hname.not_empty, hname.not_dot, hname.not_dots, hname.no_slash,
      fun hzero => hlong.no_zero (List.mem_append_left _ hzero), by omega⟩
  · exact h n (List.mem_cons_of_mem _ hn)

/-- A plain name does not end with a slash. -/
theorem exists_last (h : Path.IsPlain name) : ∃ last more, name.reverse = last :: more ∧ last ≠ '/' := by
  obtain ⟨last, more, hlast⟩ := List.exists_cons_of_ne_nil (mt List.reverse_eq_nil_iff.1 h.not_empty)
  refine ⟨last, more, hlast, ?_⟩
  rintro rfl
  exact h.no_slash (List.mem_reverse.1 (hlast ▸ List.mem_cons_self ..))

theorem endsWith_slash_eq_false (front : Text) (h : Path.IsPlain name) :
    Text.endsWith (front ++ name) "/" = false := by
  obtain ⟨last, more, hlast, hslash⟩ := exists_last h
  rw [Text.endsWith, Bool.eq_false_iff, List.reverse_append, hlast]
  intro hstarts
  obtain ⟨rest, hrest⟩ := Text.startsWith_iff.1 hstarts
  exact hslash (List.cons.inj hrest).1

/-- A place is that of its directory, a slash and its last name. -/
theorem exists_front (name : Text) (above : List Text) :
    ∃ front, pathOf (name :: above) = front ++ ('/' : UInt8) :: name := by
  have hplace := @pathOf_append [name] above (List.cons_ne_nil name [])
  by_cases hne : above = []
  · exact ⟨[], by subst hne; rfl⟩
  · rw [if_neg hne] at hplace
    exact ⟨pathOf above, hplace.trans (List.append_assoc ..)⟩

/-- The last name of a place. -/
theorem base_pathOf (h : Path.ArePlain (name :: above)) : Path.base (pathOf (name :: above)) = name := by
  have hname := h name (List.mem_cons_self ..)
  obtain ⟨front, hfront⟩ := exists_front name above
  have htrim : Text.trimRight (· = '/') (front ++ ('/' : UInt8) :: name) = front ++ ('/' : UInt8) :: name := by
    obtain ⟨last, more, hlast, hslash⟩ := exists_last hname
    rw [Text.trimRight, List.reverse_append, List.reverse_cons, hlast]
    simp only [List.cons_append]
    rw [List.dropWhile_cons_of_neg (by simpa using hslash), ← List.cons_append, ← List.cons_append, ← hlast]
    simp
  have hnonempty : (front ++ ('/' : UInt8) :: name).isEmpty = false := by simp
  rw [hfront, Path.base, hnonempty, if_neg Bool.false_ne_true, htrim]
  dsimp only
  rw [hnonempty, if_neg Bool.false_ne_true, Path.split_append front hname.no_slash]

/-- A path that is chosen is one with a number, at which nothing stands. -/
theorem exists_of_freePath {stem path : Text} {left : Nat} (h : d.freePath c stem left = .ok path) :
    ∃ number, path = stem ++ Text.ofNat number ∧ d.find path = .error .missing := by
  induction left with
  | zero => exact nomatch h
  | succ left ih =>
    rw [freePath] at h
    split at h
    · exact nomatch h
    · split at h
      · exact ih h
      · next hfind =>
        obtain rfl := Except.ok.inj h
        exact ⟨_, rfl, hfind⟩
      · exact nomatch h

/-- **A content is prepared beside its place**, where nothing stands. -/
theorem exists_of_preparedPath {prepared : Text} (h : Path.ArePlain (name :: above))
    (hok : d.preparedPath c (pathOf (name :: above)) = .ok prepared) :
    ∃ number, prepared = pathOf (temporary number (name :: above)) ∧ d.find prepared = .error .missing := by
  rw [preparedPath, dir_pathOf h, base_pathOf h] at hok
  split at hok
  · exact nomatch hok
  obtain ⟨number, rfl, hfind⟩ := exists_of_freePath hok
  refine ⟨number, ?_, hfind⟩
  have hplace := @pathOf_append [name ++ temporaryEnding number] above (List.cons_ne_nil _ [])
  have hdirectory : (if Text.endsWith (pathOf above) "/" then pathOf above else pathOf above ++ "/") =
      if above = [] then ("/" : Text) else pathOf above ++ "/" := by
    cases above with
    | nil => rfl
    | cons last below =>
      obtain ⟨front, hfront⟩ := exists_front last below
      have hends := endsWith_slash_eq_false (front ++ [('/' : UInt8)])
        (h last (List.mem_cons_of_mem _ (List.mem_cons_self ..)))
      rw [List.append_assoc] at hends
      rw [if_neg (List.cons_ne_nil last below), hfront]
      exact if_neg (Bool.eq_false_iff.1 hends)
  rw [hdirectory, List.append_assoc, List.append_assoc]
  exact hplace.symm

end Names

/-! ## What a failed write leaves -/

/-- A disk after a write that failed: all that stood stands, and what is new are directories and contents that
were prepared. -/
structure Spared (d d' : Disk) (names : List Text) : Prop where
  tree : d'.Tree
  kept : ∀ others, Path.ArePlain others → Stays (d.itemAt? others) (d'.itemAt? others) ∨
    (d.itemAt? others = none ∧ ∃ number, others = temporary number names)

section Spared

variable {names : List Text}

theorem Spared.refl (hd : d.Tree) (names : List Text) : Spared d d names := ⟨hd, fun _ _ => .inl (.inl rfl)⟩

theorem Spared.of_extends (hd : d.Tree) (h : Extends d d') (names : List Text) : Spared d d' names :=
  ⟨h.tree, fun _ hothers => .inl (h.stays hd hothers)⟩

/-- Something was done to a prepared content only. -/
theorem Spared.of_touched {number : Nat} (h : Touched d d' (temporary number names))
    (hnone : d.itemAt? (temporary number names) = none) : Spared d d' names := by
  refine ⟨h.tree, fun others hothers => ?_⟩
  by_cases heq : others = temporary number names
  · exact .inr ⟨heq ▸ hnone, number, heq⟩
  · exact .inl (h.kept others hothers heq)

/-- Directories were made before. -/
theorem Spared.after (h : Spared d' d'' names) (hd : d.Tree) (hextends : Extends d d') : Spared d d'' names := by
  refine ⟨h.tree, fun others hothers => ?_⟩
  have hstays := hextends.stays hd hothers
  rcases h.kept others hothers with hkept | ⟨hnone, hprepared⟩
  · exact .inl (hstays.trans hkept)
  · exact .inr ⟨hstays.nothing hnone, hprepared⟩

/-- **What the write was for** is as it was. -/
theorem Spared.stays (h : Spared d d' names) (hplain : Path.ArePlain names) :
    Stays (d.itemAt? names) (d'.itemAt? names) :=
  (h.kept names hplain).resolve_right fun ⟨_, number, heq⟩ =>
    temporary_ne number names heq.symm

theorem Spared.stands (h : Spared d d' names) {others : List Text} (hothers : Path.ArePlain others) {item : Item}
    (hitem : d.itemAt? others = some item) : d'.itemAt? others = some item := by
  rcases h.kept others hothers with hkept | ⟨hnone, -⟩
  · exact hkept.stands hitem
  · exact nomatch hnone.symm.trans hitem

/-- A prepared content is taken away again, or left where that is refused. -/
theorem Wrote.discard {number : Nat} {content : Text}
    (h : Wrote d d' (temporary number names) content)
    (hplain : Path.ArePlain (temporary number names)) (hd : d.Tree)
    (hnone : d.itemAt? (temporary number names) = none) (c : Conditions) :
    Spared d (d'.discard c (pathOf (temporary number names))) names := by
  rw [Disk.discard]
  split
  · exact .of_touched h.toTouched hnone
  · obtain ⟨f, hfile, -⟩ := h.written
    have hnames := h.tree.areNames hplain hfile
    have hne : temporary number names ≠ [] := by cases names <;> exact List.cons_ne_nil _ _
    refine .of_touched (.of_names hd (h.tree.remove hnames hne) fun others hothers hother => ?_) hnone
    rw [h.tree.itemAt?_remove_file hnames hfile hothers, if_neg hother]
    exact h.kept others hothers.plain hother

end Spared

/-! ## Writing beside and moving -/

section Atomic

variable {name : Text} {above : List Text}

theorem Tree.itemAt?_of_isDirectory (hd : d.Tree) {names : List Text} (h : Path.ArePlain names)
    (hfalse : d.isDirectory (pathOf names) = false) : d.itemAt? names ≠ some .directory := by
  intro hitem
  rw [hd.isDirectory_pathOf (hd.areNames h hitem) hitem] at hfalse
  exact nomatch hfalse

/-- A prepared content that is moved to its place. -/
theorem Wrote.rename {number : Nat} {content : Text} (h : Wrote d d' (temporary number (name :: above)) content)
    (hd : d.Tree) (hplain : Path.ArePlain (name :: above))
    (hnone : d.itemAt? (temporary number (name :: above)) = none)
    (hother : d'.itemAt? (name :: above) ≠ some .directory) :
    Wrote d (d'.rename (pathOf (temporary number (name :: above))) (pathOf (name :: above))) (name :: above)
      content := by
  obtain ⟨f, hfile, hcontent⟩ := h.written
  have hprepared := h.tree.areNames (plain_temporary hplain number) hfile
  have hnames := areNames_of_ending hplain hprepared
  obtain ⟨hlong, habove⟩ := h.tree.parent hprepared hfile
  have hshort : (pathOf (name :: above)).length < pathLimit := by
    rw [pathOf_append_ending, List.length_append] at hlong
    exact Nat.lt_of_le_of_lt (Nat.le_add_right ..) hlong
  obtain ⟨htree, hmoved⟩ := h.tree.rename hprepared hfile hnames hshort habove hother (temporary_ne number _)
  refine ⟨.of_names hd htree fun others hothers hne => ?_, f, (hmoved _ hnames).trans (if_pos rfl), hcontent⟩
  rw [hmoved others hothers, if_neg hne]
  split
  · next heq => exact .inl (heq ▸ hnone.symm)
  · next heq => exact h.kept others hothers.plain heq

/-- **Preparing a content and moving it to its place**, in a directory that is there. -/
theorem Tree.fill (hd : d.Tree) (h : Path.ArePlain (name :: above)) (habove : d.itemAt? above = some .directory)
    {number : Nat} (hfree : d.find (pathOf (temporary number (name :: above))) = .error .missing)
    (c : Conditions) (content : Text) (mode : Nat) :
    (∃ f d', d.fill c (pathOf (temporary number (name :: above))) (pathOf (name :: above)) content mode =
        (.error f, d') ∧
      Spared d (d'.discard c (pathOf (temporary number (name :: above)))) (name :: above)) ∨
    ∃ d', d.fill c (pathOf (temporary number (name :: above))) (pathOf (name :: above)) content mode =
        (.ok (), d') ∧ Wrote d d' (name :: above) content := by
  have hplain := plain_temporary h number
  obtain ⟨hnone, hshort⟩ := hd.none_of_missing hplain hfree
  have hput (content : Text) (mode : Nat) :
      Wrote d (d.putFile (pathOf (temporary number (name :: above))) content mode) (temporary number (name :: above))
        content :=
    hd.putFile (hd.areNames_of_missing hplain habove hfree) hshort habove (fun hdirectory =>
      nomatch hnone.symm.trans hdirectory) content mode
  have hdiscard (content : Text) (mode : Nat) := (hput content mode).discard hplain hd hnone c
  rw [Disk.fill, absolute_pathOf d hplain]
  split
  · exact .inl ⟨_, _, rfl, hdiscard _ _⟩
  dsimp only
  split
  · exact .inl ⟨_, _, rfl, hdiscard _ _⟩
  split
  · exact .inl ⟨_, _, rfl, hdiscard _ _⟩
  · next hfalse =>
    have hwrote := hput content mode
    have hother := hwrote.tree.itemAt?_of_isDirectory h (Bool.eq_false_iff.2 hfalse)
    exact .inr ⟨_, rfl, hwrote.rename hd h hnone hother⟩

/-- **A failed write leaves all that stands alone**, and one that succeeds changes only the file that it
writes. -/
theorem Tree.writeAtomic (hd : d.Tree) {names : List Text} (h : Path.ArePlain names) (hne : names ≠ [])
    (content : Text) (mode : Nat) (c : Conditions) :
    (∃ f d', d.writeAtomic false (pathOf names) content mode c = (.error f, d') ∧ Spared d d' names) ∨
    ∃ d', d.writeAtomic false (pathOf names) content mode c = (.ok (), d') ∧ Wrote d d' names content := by
  obtain ⟨name, above, rfl⟩ := List.exists_cons_of_ne_nil hne
  have hplain : Path.ArePlain above := fun n hn => h n (List.mem_cons_of_mem _ hn)
  obtain ⟨hextends, hmade⟩ := hd.makeDirectories hplain c
  rw [Disk.writeAtomic, if_neg Bool.false_ne_true, dir_pathOf h]
  obtain ⟨result, d₁, hresult⟩ : ∃ result d₁, d.makeDirectories (pathOf above) c = (result, d₁) := ⟨_, _, rfl⟩
  rw [hresult] at hextends hmade ⊢
  cases result with
  | error f => exact .inl ⟨_, d₁, rfl, .of_extends hd hextends _⟩
  | ok u =>
    dsimp only
    cases hprepared : d₁.preparedPath c (pathOf (name :: above)) with
    | error f => exact .inl ⟨_, d₁, rfl, .of_extends hd hextends _⟩
    | ok prepared =>
      obtain ⟨number, rfl, hfree⟩ := exists_of_preparedPath h hprepared
      dsimp only
      rcases hextends.tree.fill h (hmade rfl) hfree c content (if mode = 0 then newFileMode else mode) with
        ⟨f, d', herror, hspared⟩ | ⟨d', hok, hwrote⟩
      · rw [herror]
        exact .inl ⟨f, _, rfl, hspared.after hd hextends⟩
      · rw [hok]
        exact .inr ⟨d', rfl, (Touched.of_extends hd hextends _).trans hwrote.toTouched, hwrote.written⟩

end Atomic

/-! ## What calls answer -/

section Answers

variable {α : Type} {call : Call} {path : Text} {result : Except Failure α}

/-- A call that succeeds is not refused. -/
theorem Conditions.result_of_answer {a : α} (h : c.answer call path result = .ok a) : result = .ok a := by
  rw [answer] at h
  split at h
  · exact nomatch h
  · exact h

/-- What could succeed fails where it is refused. -/
theorem Conditions.failure?_of_answer {a : α} {f : Failure} (h : c.answer call path (.ok a) = .error f) :
    c.failure? call path = some f := by
  rw [answer] at h
  split at h
  · next g hrefused => rw [hrefused, Except.error.inj h]
  · exact nomatch h

/-- A refusal does not say that something is missing. -/
theorem Conditions.not_missing_of_failure? {f : Failure} (h : c.failure? call path = some f) :
    .missingFile ∉ f.causes ∧ .notFound ∉ f.causes := by
  obtain ⟨r, -, rfl⟩ := Option.map_eq_some_iff.1 h
  cases r <;> simp [Fault.failure, Fault.causes]

end Answers

variable {names : List Text}

/-- What is found at a path. -/
def standing? (d : Disk) (path : Text) : Option Item :=
  match d.find path with
  | .ok (_, item) => some item
  | .error _ => none

theorem Tree.standing?_pathOf (hd : d.Tree) (h : Path.ArePlain names) :
    d.standing? (pathOf names) = d.itemAt? names := by
  rw [standing?]
  cases hitem : d.itemAt? names with
  | some item => rw [(hd.find_pathOf h).2 ⟨rfl, hitem⟩]
  | none =>
    split
    · next place item hfind => exact nomatch hitem.symm.trans ((hd.find_pathOf h).1 hfind).2
    · rfl

theorem Tree.look_of_item (hd : d.Tree) (h : Path.ArePlain names) {item : Item}
    (hitem : d.itemAt? names = some item) (tried : Text) : d.look tried (pathOf names) = .ok item := by
  rw [look, (hd.find_pathOf h).2 ⟨rfl, hitem⟩]

theorem Tree.item_of_look (hd : d.Tree) (h : Path.ArePlain names) {item : Item} {tried : Text}
    (hlook : d.look tried (pathOf names) = .ok item) : d.itemAt? names = some item := by
  rw [look] at hlook
  split at hlook
  · next place found hfind =>
    rw [← Except.ok.inj hlook]
    exact ((hd.find_pathOf h).1 hfind).2
  · exact nomatch hlook

theorem Tree.item_of_stat (hd : d.Tree) (h : Path.ArePlain names) {item : Item}
    (hstat : d.stat (pathOf names) c = .ok item) : d.itemAt? names = some item :=
  hd.item_of_look h (Conditions.result_of_answer hstat)

/-- What stands at a place is not called missing. -/
theorem Tree.not_missing_of_stat (hd : d.Tree) (h : Path.ArePlain names) {item : Item}
    (hitem : d.itemAt? names = some item) {f : Failure} (hstat : d.stat (pathOf names) c = .error f) :
    .missingFile ∉ f.causes ∧ .notFound ∉ f.causes := by
  rw [stat, hd.look_of_item h hitem] at hstat
  exact c.not_missing_of_failure? (Conditions.failure?_of_answer hstat)

theorem Tree.file_of_contentOf (hd : d.Tree) (h : Path.ArePlain names) {content : Text}
    (hread : d.contentOf (pathOf names) c = .ok content) :
    ∃ f, d.itemAt? names = some (.file f) ∧ f.content = content := by
  rw [contentOf] at hread
  split at hread
  · exact nomatch hread
  · exact nomatch hread
  · next f hlook =>
    exact ⟨f, hd.item_of_look h (Conditions.result_of_answer hlook),
      Except.ok.inj (Conditions.result_of_answer hread)⟩

/-- What stands at a place and cannot be read is not called missing either. -/
theorem Tree.not_missing_of_contentOf (hd : d.Tree) (h : Path.ArePlain names) {item : Item}
    (hitem : d.itemAt? names = some item) {f : Failure} (hread : d.contentOf (pathOf names) c = .error f) :
    .missingFile ∉ f.causes ∧ .notFound ∉ f.causes := by
  rw [contentOf, hd.look_of_item h hitem] at hread
  split at hread
  · next g hopen =>
    rw [← Except.error.inj hread]
    exact c.not_missing_of_failure? (Conditions.failure?_of_answer hopen)
  · rw [← Except.error.inj hread]
    simp [Fault.failure, Fault.causes]
  · exact c.not_missing_of_failure? (Conditions.failure?_of_answer hread)

/-! ## Writing what differs -/

/-- **What is written is there**, whether it was there before or not; a write that fails leaves all that stands
alone. -/
theorem Tree.writeIfChanged (hd : d.Tree) (h : Path.ArePlain names) (content : Text) (c : Conditions) :
    (∃ f d', d.writeIfChanged false (pathOf names) content c = (.error f, d') ∧ Spared d d' names) ∨
    ∃ changed d', d.writeIfChanged false (pathOf names) content c = (.ok changed, d') ∧ Wrote d d' names content := by
  have hwrite (hne : names ≠ []) (mode : Nat) :
      (∃ f d', ((d.writeAtomic false (pathOf names) content mode c).1.map fun _ => true,
          (d.writeAtomic false (pathOf names) content mode c).2) = (.error f, d') ∧ Spared d d' names) ∨
      ∃ changed d', ((d.writeAtomic false (pathOf names) content mode c).1.map fun _ => true,
          (d.writeAtomic false (pathOf names) content mode c).2) = (.ok changed, d') ∧ Wrote d d' names content := by
    rcases hd.writeAtomic h hne content mode c with ⟨f, d', herror, hspared⟩ | ⟨d', hok, hwrote⟩
    · exact .inl ⟨f, d', by rw [herror]; rfl, hspared⟩
    · exact .inr ⟨true, d', by rw [hok]; rfl, hwrote⟩
  rw [Disk.writeIfChanged]
  cases hread : d.contentOf (pathOf names) c with
  | error f =>
    dsimp only
    split
    · next hmissing =>
      refine hwrite ?_ newFileMode
      -- the root is never missing
      rintro rfl
      have hroot : d.itemAt? [] = some .directory := rfl
      exact (hd.not_missing_of_contentOf h hroot hread).1 (List.contains_iff_mem.1 hmissing)
    · exact .inl ⟨_, d, rfl, .refl hd _⟩
  | ok old =>
    obtain ⟨f, hfile, rfl⟩ := hd.file_of_contentOf h hread
    have hne : names ≠ [] := by
      rintro rfl
      exact nomatch hfile
    dsimp only
    split
    · next hsame => exact .inr ⟨false, d, rfl, .refl hd _, f, hfile, hsame⟩
    · split
      · exact hwrite hne _
      · exact hwrite hne newFileMode

end Disk
end LiquidLint
