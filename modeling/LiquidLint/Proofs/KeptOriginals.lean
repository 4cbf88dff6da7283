import LiquidLint.Proofs.SafeWriting

/-!
# Originals that are kept

Before a file is written a copy is made of it, unless there is one already (`BackedUp`).  A write whose copy
cannot be made is refused and leaves the file as it is (`copied_write`), so that others can change the file
before a later write makes the copy.  What is kept is therefore what the first write found that found a file
and was not refused so: while there is no copy there was no such write, and a copy that is made holds what that
write found (`Keeps.happen`).  This many writes keep, with whatever others do to the disk in between and
whatever calls the disk refuses (`original_kept`).  What the first write found of all is lost where others
change the file after that write was refused (`original_lost`).
-/

namespace LiquidLint
namespace Disk

variable {d d' d'' : Disk} {names : List Text}

/-! ## Copies -/

/-- The place of the copy of a file. -/
def copyOf (names : List Text) : List Text := withEnding backupSuffix names

theorem copyOf_ne (names : List Text) : copyOf names ≠ names := withEnding_ne (by decide) names

theorem copyOf_ne_nil (names : List Text) : copyOf names ≠ [] := by cases names <;> exact List.cons_ne_nil _ _

/-- What is prepared for the file is not its copy. -/
theorem copyOf_ne_temporary (names : List Text) (number : Nat) : copyOf names ≠ temporary number names := by
  have hending : backupSuffix ≠ temporaryEnding number := by
    intro h
    have hsecond : some ('p' : UInt8) = some ('t' : UInt8) := congrArg (·[1]?) h
    exact absurd hsecond (by decide)
  cases names with
  | nil => exact fun h => hending (List.cons.inj h).1
  | cons name above => exact fun h => hending (List.append_cancel_left (List.cons.inj h).1)

/-- What is prepared for the copy is not prepared for the file. -/
theorem ne_temporary_copyOf (names : List Text) (number : Nat) : names ≠ temporary number (copyOf names) := by
  cases names with
  | nil => exact (List.cons_ne_nil _ _).symm
  | cons name above =>
    intro h
    have hlength := congrArg List.length (List.cons.inj h).1
    simp only [List.length_append] at hlength
    have hsuffix : backupSuffix.length = 13 := rfl
    omega

theorem plain_copyOf (h : Path.ArePlain names) : Path.ArePlain (copyOf names) := by
  cases names with
  | nil =>
    intro name hname
    rw [List.mem_singleton.1 hname]
    decide
  | cons name above => exact plain_withEnding h (by decide) (by decide)

/-- What keeping a copy comes to, where copies are kept: there is one already, there is no file to copy, no
copy is made, or one is. -/
inductive BackedUp (d : Disk) (names : List Text) : Except Failure Bool × Disk → Prop
  | there {item : Item} (hcopy : d.itemAt? (copyOf names) = some item) : BackedUp d names (.ok false, d)
  | nothing (hfile : ∀ f, d.itemAt? names ≠ some (.file f)) : BackedUp d names (.ok false, d)
  | refused (f : Failure) {d' : Disk} (hspared : Spared d d' (copyOf names)) : BackedUp d names (.error f, d')
  | made {f : File} {d' : Disk} (hnone : d.itemAt? (copyOf names) = none)
      (hfile : d.itemAt? names = some (.file f)) (hwrote : Wrote d d' (copyOf names) f.content) :
      BackedUp d names (.ok true, d')

/-- What cannot be read is only called missing where no file is. -/
theorem Tree.read_cases (hd : d.Tree) (h : Path.ArePlain names) (c : Conditions) :
    (∃ f info, d.read false (pathOf names) c = .ok (f.content, info) ∧ d.itemAt? names = some (.file f)) ∨
    ∃ e, d.read false (pathOf names) c = .error e ∧
      (.notFound ∈ e.causes → ∀ f, d.itemAt? names ≠ some (.file f)) := by
  have hfailure {e : Failure} (hcauses : .missingFile ∉ e.causes ∧ .notFound ∉ e.causes) :
      .notFound ∉ (readFailure (pathOf names) e).causes := by
    rw [readFailure, if_neg (mt List.contains_iff_mem.1 hcauses.1)]
    split
    · exact hcauses.2
    · exact hcauses.2
  rw [read, if_neg Bool.false_ne_true]
  cases hstat : d.stat (pathOf names) c with
  | error e =>
    refine .inr ⟨_, rfl, fun hfound f hfile => ?_⟩
    exact hfailure (hd.not_missing_of_stat h hfile hstat) hfound
  | ok item =>
    have hitem := hd.item_of_stat h hstat
    cases item with
    | directory => exact .inr ⟨_, rfl, fun hfound => nomatch List.mem_singleton.1 hfound⟩
    | file f =>
      dsimp only
      cases hread : d.contentOf (pathOf names) c with
      | error e =>
        exact .inr ⟨_, rfl, fun hfound => absurd hfound (hfailure (hd.not_missing_of_contentOf h hitem hread))⟩
      | ok content =>
        obtain ⟨g, hfile, rfl⟩ := hd.file_of_contentOf h hread
        exact .inl ⟨g, _, rfl, hfile⟩

/-- **The copy of a file** is made once, from what the file holds. -/
theorem Tree.backedUp (hd : d.Tree) (h : Path.ArePlain names) {policy : BackupPolicy}
    (henabled : policy.enabled = true) (hmode : policy.mode ≠ "none") (c : Conditions) :
    BackedUp d names (d.backUp false (pathOf names) policy c) := by
  have hcopy := plain_copyOf h
  have hpath : backupPath? (pathOf names) policy.mode = some (pathOf (copyOf names)) := by
    rw [backupPath?, if_neg hmode, copyOf, pathOf_withEnding]
  rw [backUp, henabled, hpath]
  dsimp only
  rw [if_neg Bool.false_ne_true]
  cases hstat : d.stat (pathOf (copyOf names)) c with
  | ok item => exact .there (hd.item_of_stat hcopy hstat)
  | error e =>
    dsimp only
    split
    · exact .refused _ (.refl hd _)
    next hmissing =>
    have hnone : d.itemAt? (copyOf names) = none := by
      by_contra hsome
      obtain ⟨item, hitem⟩ := Option.ne_none_iff_exists'.1 hsome
      have hnot := (hd.not_missing_of_stat hcopy hitem hstat).1
      exact hmissing (by simpa using hnot)
    rcases hd.read_cases h c with ⟨f, info, hread, hfile⟩ | ⟨e, hread, hmissing⟩
    · rw [hread]
      dsimp only
      rcases hd.writeAtomic hcopy (copyOf_ne_nil names) f.content info.permissions c with
        ⟨e, d', herror, hspared⟩ | ⟨d', hok, hwrote⟩
      · rw [herror]
        exact .refused _ hspared
      · rw [hok]
        exact .made hnone hfile hwrote
    · rw [hread]
      dsimp only
      split
      · next hfound => exact .nothing (hmissing (List.contains_iff_mem.1 hfound))
      · exact .refused _ (.refl hd _)

/-! ## A file and its copy -/

/-- A disk on which what is kept of a file is there. -/
structure Secured (d d' : Disk) (names : List Text) : Prop where
  tree : d'.Tree
  /-- What stands at the place of the copy stays. -/
  copy : ∀ item, d.itemAt? (copyOf names) = some item → d'.itemAt? (copyOf names) = some item
  /-- A new copy holds what the file held. -/
  original : ∀ g, d.itemAt? (copyOf names) = none → d'.itemAt? (copyOf names) = some (.file g) →
    ∃ f, d.itemAt? names = some (.file f) ∧ f.content = g.content
  /-- Of a file that is there, there is a copy. -/
  copied : ∀ f, d.itemAt? names = some (.file f) → d'.itemAt? (copyOf names) ≠ none
  elsewhere : ∀ others, Path.ArePlain others → others ≠ copyOf names → Stays (d.itemAt? others) (d'.itemAt? others)

/-- A disk after a write of a file of which a copy is kept, where `secured` tells whether the write came past
making the copy, and `result` what came of it. -/
structure Copied (d d' : Disk) (names : List Text) (content : Text) (secured : Bool) (result : Except Failure Unit) :
    Prop where
  tree : d'.Tree
  /-- What stands elsewhere stays, a copy as well. -/
  stands : ∀ others, Path.ArePlain others → others ≠ names → ∀ item, d.itemAt? others = some item →
    d'.itemAt? others = some item
  /-- A new copy holds what the file held, and is made by a write that comes past making it. -/
  original : ∀ g, d.itemAt? (copyOf names) = none → d'.itemAt? (copyOf names) = some (.file g) →
    secured = true ∧ ∃ f, d.itemAt? names = some (.file f) ∧ f.content = g.content
  copied : secured = true → ∀ f, d.itemAt? names = some (.file f) → d'.itemAt? (copyOf names) ≠ none
  succeeds : result = .ok () → secured = true ∧ (∃ f, d'.itemAt? names = some (.file f) ∧ f.content = content) ∧
    ∀ others, Path.ArePlain others → others ≠ names → others ≠ copyOf names →
      Stays (d.itemAt? others) (d'.itemAt? others)
  fails : result ≠ .ok () → Stays (d.itemAt? names) (d'.itemAt? names)

section Secured

variable {content : Text} {f : Failure}

/-- No copy has to be made. -/
theorem Secured.refl (hd : d.Tree)
    (h : ∀ f, d.itemAt? names = some (.file f) → d.itemAt? (copyOf names) ≠ none) : Secured d d names :=
  ⟨hd, fun _ hitem => hitem, fun _ hnone hitem => (nomatch hnone.symm.trans hitem), h, fun _ _ _ => .inl rfl⟩

/-- A copy is made of the file. -/
theorem Secured.of_wrote {f : File} (hnone : d.itemAt? (copyOf names) = none)
    (hfile : d.itemAt? names = some (.file f)) (hwrote : Wrote d d' (copyOf names) f.content) :
    Secured d d' names := by
  obtain ⟨g, hcopy, hcontent⟩ := hwrote.written
  refine ⟨hwrote.tree, fun item hitem => ?_, fun g' _ hitem => ?_, fun _ _ => ?_, hwrote.kept⟩
  · exact nomatch hnone.symm.trans hitem
  · obtain rfl : g = g' := by simpa [hcopy] using hitem
    exact ⟨f, hfile, hcontent.symm⟩
  · rw [hcopy]
    nofun

theorem Secured.stands (h : Secured d d' names) {others : List Text} (hothers : Path.ArePlain others) {item : Item}
    (hitem : d.itemAt? others = some item) : d'.itemAt? others = some item := by
  by_cases heq : others = copyOf names
  · subst heq
    exact h.copy item hitem
  · exact (h.elsewhere others hothers heq).stands hitem

/-- What is made of the copy is not undone when the file is written. -/
theorem Secured.copied_after (h : Secured d d' names)
    (hstays : Stays (d'.itemAt? (copyOf names)) (d''.itemAt? (copyOf names))) :
    (∀ g, d.itemAt? (copyOf names) = none → d''.itemAt? (copyOf names) = some (.file g) →
      ∃ f, d.itemAt? names = some (.file f) ∧ f.content = g.content) ∧
    ∀ f, d.itemAt? names = some (.file f) → d''.itemAt? (copyOf names) ≠ none := by
  refine ⟨fun g hnone hitem => h.original g hnone ((hstays.file_iff g).1 hitem), fun f hfile hgone => ?_⟩
  obtain ⟨item, hitem⟩ := Option.ne_none_iff_exists'.1 (h.copied f hfile)
  exact nomatch hgone.symm.trans (hstays.stands hitem)

/-- Once the copy is there, the file is written. -/
theorem Secured.write (h : Secured d d' names) (hplain : Path.ArePlain names) (hwrote : Wrote d' d'' names content) :
    Copied d d'' names content true (.ok ()) := by
  obtain ⟨horiginal, hcopied⟩ := h.copied_after (hwrote.kept _ (plain_copyOf hplain) (copyOf_ne names))
  refine ⟨hwrote.tree, fun others hothers hne item hitem => ?_, fun g hnone hitem => ⟨rfl, horiginal g hnone hitem⟩,
    fun _ => hcopied, fun _ => ⟨rfl, hwrote.written, fun others hothers hne hcopy => ?_⟩,
    fun hfails => absurd rfl hfails⟩
  · exact (hwrote.kept others hothers hne).stands (h.stands hothers hitem)
  · exact (h.elsewhere others hothers hcopy).trans (hwrote.kept others hothers hne)

/-- Once the copy is there, writing the file fails. -/
theorem Secured.fail (h : Secured d d' names) (hplain : Path.ArePlain names) (hspared : Spared d' d'' names) :
    Copied d d'' names content true (.error f) := by
  obtain ⟨horiginal, hcopied⟩ := h.copied_after
    ((hspared.kept _ (plain_copyOf hplain)).resolve_right fun ⟨_, number, heq⟩ => copyOf_ne_temporary names number heq)
  refine ⟨hspared.tree, fun others hothers _ item hitem => hspared.stands hothers (h.stands hothers hitem),
    fun g hnone hitem => ⟨rfl, horiginal g hnone hitem⟩, fun _ => hcopied, nofun, fun _ => ?_⟩
  exact (h.elsewhere names hplain (copyOf_ne names).symm).trans (hspared.stays hplain)

/-- No copy is made, and the write is refused. -/
theorem Spared.refuse (h : Spared d d' (copyOf names)) (hplain : Path.ArePlain names) :
    Copied d d' names content false (.error f) := by
  have hcopy := h.stays (plain_copyOf hplain)
  refine ⟨h.tree, fun others hothers _ item hitem => h.stands hothers hitem, fun g hnone hitem => ?_, nofun, nofun,
    fun _ => ?_⟩
  · exact nomatch hnone.symm.trans ((hcopy.file_iff g).1 hitem)
  · exact (h.kept names hplain).resolve_right fun ⟨_, number, heq⟩ => ne_temporary_copyOf names number heq

end Secured

end Disk

namespace DiskStore

open Disk

variable {s : DiskStore} {names : List Text} {path content : Text} {copying writing : Conditions}

/-- Whether a write of a path comes past making the copy, and is not refused there. -/
def secures (s : DiskStore) (path : Text) (copying : Conditions) : Bool :=
  (s.disk.backUp false (s.absolute path) s.backup copying).1.isOk

/-- A write that fails while the copy is made. -/
theorem write_of_backUp_error {d : Disk} {f : Failure} (content : Text) (writing : Conditions)
    (h : s.disk.backUp false (s.absolute path) s.backup copying = (.error f, d)) :
    s.write path content copying writing = (.error (f.within ("backup " ++ path)), { s with disk := d }) := by
  rw [write, h]

/-- A write where the copy is made. -/
theorem write_of_backUp_ok {d : Disk} {made : Bool} (content : Text) (writing : Conditions)
    (h : s.disk.backUp false (s.absolute path) s.backup copying = (.ok made, d)) :
    s.write path content copying writing =
      match d.writeIfChanged false (s.absolute path) content writing with
      | (.error f, disk) => (.error (f.within ("write " ++ path)), { s with disk })
      | (.ok _, disk) => (.ok (), { s with disk }) := by
  rcases hw : d.writeIfChanged false (s.absolute path) content writing with ⟨_ | _, disk⟩ <;>
    simp only [write, h, hw]

/-- A write changes nothing but the disk. -/
theorem write_settings (s : DiskStore) (path content : Text) (copying writing : Conditions) :
    (s.write path content copying writing).2.root = s.root ∧
      (s.write path content copying writing).2.backup = s.backup := by
  simp only [write]
  split
  · exact ⟨rfl, rfl⟩
  · split
    · exact ⟨rfl, rfl⟩
    · exact ⟨rfl, rfl⟩

/-- **One write** of a file of which a copy is kept. -/
theorem copied_write (hd : s.disk.Tree) (hplain : Path.ArePlain names) (hplace : s.absolute path = pathOf names)
    (henabled : s.backup.enabled = true) (hmode : s.backup.mode ≠ "none") (content : Text)
    (copying writing : Conditions) :
    Copied s.disk (s.write path content copying writing).2.disk names content (s.secures path copying)
      (s.write path content copying writing).1 := by
  have hbacked := hd.backedUp hplain henabled hmode copying
  rw [← hplace] at hbacked
  cases hbackUp : s.disk.backUp false (s.absolute path) s.backup copying with
  | mk result d =>
    have hsecured {made : Bool} (hresult : result = .ok made) (h : Secured s.disk d names) :
        Copied s.disk (s.write path content copying writing).2.disk names content (s.secures path copying)
          (s.write path content copying writing).1 := by
      subst hresult
      rw [secures, write_of_backUp_ok content writing hbackUp, hbackUp, hplace]
      rcases h.tree.writeIfChanged hplain content writing with
        ⟨f, d', herror, hspared⟩ | ⟨changed, d', hok, hwrote⟩
      · rw [herror]
        exact h.fail hplain hspared
      · rw [hok]
        exact h.write hplain hwrote
    rw [hbackUp] at hbacked
    cases hbacked with
    | there hcopy => exact hsecured rfl (.refl hd fun _ _ => hcopy ▸ nofun)
    | nothing hfile => exact hsecured rfl (.refl hd fun f hitem => absurd hitem (hfile f))
    | refused f hspared =>
      rw [secures, write_of_backUp_error content writing hbackUp, hbackUp]
      exact hspared.refuse hplain
    | made hnone hfile hwrote => exact hsecured rfl (.of_wrote hnone hfile hwrote)

/-! ## Many writes -/

/-- Something that happens to a project. -/
inductive Happening where
  /-- A path is written, under the conditions for making the copy and those for writing the path. -/
  | write (content : Text) (copying writing : Conditions := {})
  /-- The disk is changed by others. -/
  | outside (disk : Disk)

/-- What stands at the place of the copy of a path. -/
def copy? (s : DiskStore) (path : Text) : Option Item := s.disk.standing? (s.absolute path ++ backupSuffix)

/-- What a path holds, if it is a file. -/
def content? (s : DiskStore) (path : Text) : Option Text :=
  match s.disk.standing? (s.absolute path) with
  | some (.file f) => some f.content
  | _ => none

/-- The project after something happened to a path. -/
def happen (path : Text) (s : DiskStore) : Happening → DiskStore
  | .write content copying writing => (s.write path content copying writing).2
  | .outside disk => { s with disk }

/-- The project after all that happened to a path. -/
def after (path : Text) (s : DiskStore) (events : List Happening) : DiskStore := events.foldl (happen path) s

/-- What a write finds at the path, if it is not refused while the copy is made. -/
def found? (path : Text) (s : DiskStore) : Happening → Option Text
  | .write _ copying _ => if s.secures path copying then s.content? path else none
  | .outside _ => none

/-- What the first write finds at the path that finds a file there and is not refused while the copy is made. -/
def firstFound (path : Text) (s : DiskStore) : List Happening → Option Text
  | [] => none
  | e :: rest => (s.found? path e).or (firstFound path (s.happen path e) rest)

/-- Others do not touch the copy. -/
def Spares (path : Text) (s : DiskStore) : Happening → Prop
  | .write .. => True
  | .outside disk => disk.Tree ∧ disk.standing? (s.absolute path ++ backupSuffix) = s.copy? path

/-- Whatever happens, others do not touch the copy. -/
def AllSpare (path : Text) (s : DiskStore) : List Happening → Prop
  | [] => True
  | e :: rest => s.Spares path e ∧ AllSpare path (s.happen path e) rest

/-- A project that keeps copies, where `found` is what the first write found that found a file and was not
refused while the copy was made. -/
structure Keeps (path : Text) (names : List Text) (found : Option Text) (s : DiskStore) : Prop where
  tree : s.disk.Tree
  place : s.absolute path = pathOf names
  enabled : s.backup.enabled = true
  mode : s.backup.mode ≠ "none"
  original : ∀ g, s.disk.itemAt? (copyOf names) = some (.file g) → found = some g.content
  /-- Where nothing stands at the place of the copy, no copy was wanted yet. -/
  missing : s.disk.itemAt? (copyOf names) = none → found = none

section Keeps

variable {found : Option Text}

theorem copy?_eq (hd : s.disk.Tree) (hplain : Path.ArePlain names) (hplace : s.absolute path = pathOf names) :
    s.copy? path = s.disk.itemAt? (copyOf names) := by
  rw [copy?, hplace, ← pathOf_withEnding]
  exact hd.standing?_pathOf (plain_copyOf hplain)

theorem content?_eq_some (hd : s.disk.Tree) (hplain : Path.ArePlain names) (hplace : s.absolute path = pathOf names)
    {content : Text} :
    s.content? path = some content ↔ ∃ f, s.disk.itemAt? names = some (.file f) ∧ f.content = content := by
  rw [content?, hplace, hd.standing?_pathOf hplain]
  cases s.disk.itemAt? names with
  | none => simp
  | some item =>
    cases item with
    | directory => simp
    | file f => simp

theorem Keeps.copied (h : Keeps path names found s) (hplain : Path.ArePlain names) (content : Text)
    (copying writing : Conditions) :
    Copied s.disk (s.write path content copying writing).2.disk names content (s.secures path copying)
      (s.write path content copying writing).1 :=
  copied_write h.tree hplain h.place h.enabled h.mode content copying writing

/-- **What happens** keeps the copy. -/
theorem Keeps.happen (h : Keeps path names found s) (hplain : Path.ArePlain names) {e : Happening}
    (hspares : s.Spares path e) :
    Keeps path names (found.or (s.found? path e)) (s.happen path e) ∧
      ∀ item, s.disk.itemAt? (copyOf names) = some item →
        (s.happen path e).disk.itemAt? (copyOf names) = some item := by
  cases e with
  | write content copying writing =>
    have hcopied := h.copied hplain content copying writing
    have hcopy := hcopied.stands (copyOf names) (plain_copyOf hplain) (copyOf_ne names)
    obtain ⟨hroot, hbackup⟩ := write_settings s path content copying writing
    refine ⟨⟨hcopied.tree, ?_, hbackup ▸ h.enabled, hbackup ▸ h.mode, fun g hnew => ?_, fun hnone => ?_⟩, hcopy⟩
    · exact (congrArg (Path.join [·, path]) hroot).trans h.place
    · cases hbefore : s.disk.itemAt? (copyOf names) with
      | some item =>
        obtain rfl : item = .file g := Option.some.inj ((hcopy item hbefore).symm.trans hnew)
        rw [h.original g hbefore]
        rfl
      | none =>
        -- no write came past making the copy before, and this one does
        obtain ⟨hsecured, f, hfile, hcontent⟩ := hcopied.original g hbefore hnew
        rw [h.missing hbefore, Option.none_or, found?, if_pos hsecured]
        exact (content?_eq_some h.tree hplain h.place).2 ⟨f, hfile, hcontent⟩
    · have hbefore : s.disk.itemAt? (copyOf names) = none := by
        by_contra hsome
        obtain ⟨item, hitem⟩ := Option.ne_none_iff_exists'.1 hsome
        exact nomatch hnone.symm.trans (hcopy item hitem)
      rw [h.missing hbefore, Option.none_or, found?]
      split
      · next hsecured =>
        by_contra hfound
        obtain ⟨held, hheld⟩ := Option.ne_none_iff_exists'.1 hfound
        obtain ⟨f, hfile, -⟩ := (content?_eq_some h.tree hplain h.place).1 hheld
        exact hcopied.copied hsecured f hfile hnone
      · rfl
  | outside disk =>
    obtain ⟨htree, hcopy⟩ := hspares
    have hsame : disk.itemAt? (copyOf names) = s.disk.itemAt? (copyOf names) := by
      rw [← copy?_eq h.tree hplain h.place, ← hcopy, h.place, ← pathOf_withEnding]
      exact (htree.standing?_pathOf (plain_copyOf hplain)).symm
    rw [found?, Option.or_none]
    refine ⟨⟨htree, h.place, h.enabled, h.mode, fun g hitem => ?_, fun hnone => ?_⟩, fun item hitem => hsame.trans hitem⟩
    · exact h.original g (hsame.symm.trans hitem)
    · exact h.missing (hsame.symm.trans hnone)

/-- **Whatever happens** keeps the copy, and it is one of what the first write found that found a file and was
not refused. -/
theorem Keeps.after (h : Keeps path names found s) (hplain : Path.ArePlain names) {events : List Happening}
    (hspare : s.AllSpare path events) :
    Keeps path names (found.or (s.firstFound path events)) (s.after path events) ∧
      ∀ item, s.disk.itemAt? (copyOf names) = some item →
        (s.after path events).disk.itemAt? (copyOf names) = some item := by
  induction events generalizing s found with
  | nil =>
    rw [firstFound, Option.or_none]
    exact ⟨h, fun _ hitem => hitem⟩
  | cons e rest ih =>
    obtain ⟨hspares, hrest⟩ := hspare
    obtain ⟨hnext, hcopy⟩ := h.happen hplain hspares
    obtain ⟨hlast, hcopies⟩ := ih hnext hrest
    rw [firstFound, ← Option.or_assoc]
    exact ⟨hlast, fun item hitem => hcopies item (hcopy item hitem)⟩

/-- A file that stands elsewhere as well is one of the files there. -/
theorem mem_files_of_stands {d d' : Disk} (hd : d.Tree) (hd' : d'.Tree) {place : Text} {f : File}
    (h : ∀ others, AreNames others → place = pathOf others → d.itemAt? others = some (.file f) →
      d'.itemAt? others = some (.file f)) (hmem : (place, f) ∈ d.files) : (place, f) ∈ d'.files := by
  have hitem := hd.mem_files.1 hmem
  obtain ⟨name, above, hnames, rfl, -, -⟩ := hd.placed _ _ hitem
  exact hd'.mem_files.2 (h _ hnames rfl hitem)

/-- **A write that succeeds** leaves what was written, a copy of a file that was there, and all other files as
they were. -/
theorem Keeps.succeeds (h : Keeps path names found s) (hplain : Path.ArePlain names)
    (hok : (s.write path content copying writing).1 = .ok ()) :
    (s.write path content copying writing).2.content? path = some content ∧
    (s.content? path ≠ none → (s.write path content copying writing).2.copy? path ≠ none) ∧
    ∀ place f, place ≠ s.absolute path → place ≠ s.absolute path ++ backupSuffix →
      ((place, f) ∈ (s.write path content copying writing).2.disk.files ↔ (place, f) ∈ s.disk.files) := by
  have hcopied := h.copied hplain content copying writing
  have hnext := (h.happen hplain (e := .write content copying writing) trivial).1
  obtain ⟨hsecured, hwritten, helsewhere⟩ := hcopied.succeeds hok
  refine ⟨(content?_eq_some hnext.tree hplain hnext.place).2 hwritten, fun hfound => ?_, fun place f hne hne' => ?_⟩
  · obtain ⟨held, hheld⟩ := Option.ne_none_iff_exists'.1 hfound
    obtain ⟨f, hfile, -⟩ := (content?_eq_some h.tree hplain h.place).1 hheld
    exact (copy?_eq hnext.tree hplain hnext.place).trans_ne (hcopied.copied hsecured f hfile)
  · have hiff (others : List Text) (hothers : AreNames others) (hat : place = pathOf others) :=
      (helsewhere others hothers.plain (fun heq => hne (hat.trans (heq ▸ h.place.symm))) fun heq =>
        hne' (by rw [hat, heq, copyOf, pathOf_withEnding, h.place])).file_iff f
    exact ⟨mem_files_of_stands hcopied.tree h.tree fun others hothers hat => (hiff others hothers hat).1,
      mem_files_of_stands h.tree hcopied.tree fun others hothers hat => (hiff others hothers hat).2⟩

/-- **A write that fails** leaves the path and all files as they were, but for a copy and what was prepared. -/
theorem Keeps.fails (h : Keeps path names found s) (hplain : Path.ArePlain names)
    (hnot : (s.write path content copying writing).1 ≠ .ok ()) :
    (s.write path content copying writing).2.content? path = s.content? path ∧
    ∀ place f, (place, f) ∈ s.disk.files → (place, f) ∈ (s.write path content copying writing).2.disk.files := by
  have hcopied := h.copied hplain content copying writing
  have hnext := (h.happen hplain (e := .write content copying writing) trivial).1
  have hstays := hcopied.fails hnot
  refine ⟨Option.ext fun held => ?_, fun place f => mem_files_of_stands h.tree hcopied.tree fun others hothers _ => ?_⟩
  · refine (content?_eq_some hnext.tree hplain hnext.place).trans
      (.trans ?_ (content?_eq_some h.tree hplain h.place).symm)
    exact exists_congr fun f => and_congr_left' (hstays.file_iff f)
  · by_cases heq : others = names
    · exact heq ▸ hstays.stands
    · exact hcopied.stands others hothers.plain heq _

end Keeps

theorem after_append (path : Text) (s : DiskStore) (earlier later : List Happening) :
    s.after path (earlier ++ later) = (s.after path earlier).after path later :=
  List.foldl_append

theorem allSpare_append (path : Text) (s : DiskStore) (earlier later : List Happening) :
    s.AllSpare path (earlier ++ later) ↔ s.AllSpare path earlier ∧ (s.after path earlier).AllSpare path later := by
  induction earlier generalizing s with
  | nil => simp [AllSpare, after]
  | cons e rest ih =>
    rw [List.cons_append, AllSpare, AllSpare, ih, and_assoc]
    rfl

/-- The place of a path in a project that lies at the root or below it. -/
theorem exists_place (hroot : Path.isAbsolute s.root = true) (path : Text) :
    ∃ names, Path.ArePlain names ∧ s.absolute path = pathOf names := by
  have hclean {p : Text} (h : Path.isAbsolute p = true) :
      ∃ names, Path.ArePlain names ∧ Path.clean p = pathOf names := by
    refine ⟨(Path.names p).reverse, (Path.plain_names h).reverse, ?_⟩
    simp only [Path.clean, h, if_pos, pathOf_eq, List.reverse_reverse]
    rfl
  obtain ⟨rest, hrest⟩ := Text.startsWith_iff.1 hroot
  have hne : s.root ≠ [] := by
    rw [hrest]
    exact List.cons_ne_nil _ _
  by_cases hpath : path = []
  · have hjoin : s.absolute path = Path.clean s.root := by simp [absolute, Path.join, Text.joinWith, hpath, hne]
    rw [hjoin]
    exact hclean hroot
  · have hjoin : s.absolute path = Path.clean (Text.joinWith ['/'] [s.root, path]) := by
      simp [absolute, Path.join, hpath, hne]
    rw [hjoin]
    refine hclean (Text.startsWith_iff.2 ⟨rest ++ (('/' : UInt8) :: path), ?_⟩)
    rw [hrest, Text.joinWith_cons _ _ (List.cons_ne_nil path [])]
    simp only [List.append_assoc]
    rfl

/-- **The original is kept.**  Where a project, whose directory is known from the root on, keeps copies and
there is none of a path yet, let the path be written any number of times, with any numbers drawn and any calls
refused, and the disk be changed by others in between who leave the copy alone.  A copy that is there at some
time stays to the end, and holds what the first write found that found a file at the path and was not refused
while the copy was made; after that write there is something at the place of the copy.  After each write that
succeeds the path holds what was written, there is a copy if there was a file, and all files but the path and
its copy are as they were.  After each write that fails the path holds what it held, and no file is lost. -/
theorem original_kept {events : List Happening} (htree : s.disk.Tree) (hroot : Path.isAbsolute s.root = true)
    (henabled : s.backup.enabled = true) (hmode : s.backup.mode ≠ "none")
    (hcopy : ∀ g, s.copy? path ≠ some (.file g)) (hspare : s.AllSpare path events) :
    ∀ earlier later, events = earlier ++ later →
      (∀ g, (s.after path earlier).copy? path = some (.file g) →
        (s.after path events).copy? path = some (.file g) ∧ s.firstFound path earlier = some g.content) ∧
      (s.firstFound path earlier ≠ none → (s.after path earlier).copy? path ≠ none) ∧
      ∀ content copying writing rest, later = .write content copying writing :: rest →
        let before := s.after path earlier
        let written := before.write path content copying writing
        (written.1 = .ok () → written.2.content? path = some content ∧
          (before.content? path ≠ none → written.2.copy? path ≠ none) ∧
          ∀ place f, place ≠ s.absolute path → place ≠ s.absolute path ++ backupSuffix →
            ((place, f) ∈ written.2.disk.files ↔ (place, f) ∈ before.disk.files)) ∧
        (written.1 ≠ .ok () → written.2.content? path = before.content? path ∧
          ∀ place f, (place, f) ∈ before.disk.files → (place, f) ∈ written.2.disk.files) := by
  obtain ⟨names, hplain, hplace⟩ := s.exists_place hroot path
  have hstart : Keeps path names none s := by
    rw [copy?_eq htree hplain hplace] at hcopy
    exact ⟨htree, hplace, henabled, hmode, fun g hitem => absurd hitem (hcopy g), fun _ => rfl⟩
  rintro earlier later rfl
  obtain ⟨hearlier, hlater⟩ := (allSpare_append path s earlier later).1 hspare
  obtain ⟨hkeeps, -⟩ := hstart.after hplain hearlier
  obtain ⟨hend, hstays⟩ := hkeeps.after hplain hlater
  rw [Option.none_or] at hkeeps
  have hsame : (s.after path earlier).absolute path = s.absolute path := hkeeps.place.trans hplace.symm
  refine ⟨fun g hg => ⟨?_, ?_⟩, fun hfound hnone => ?_, ?_⟩
  · rw [copy?_eq hkeeps.tree hplain hkeeps.place] at hg
    rw [after_append, copy?_eq hend.tree hplain hend.place]
    exact hstays _ hg
  · rw [copy?_eq hkeeps.tree hplain hkeeps.place] at hg
    exact hkeeps.original g hg
  · rw [copy?_eq hkeeps.tree hplain hkeeps.place] at hnone
    exact hfound (hkeeps.missing hnone)
  · rintro content copying writing rest -
    exact ⟨fun hok => hsame ▸ hkeeps.succeeds hplain hok, hkeeps.fails hplain⟩

/-! ### Courses of a project -/

deriving instance DecidableEq for File
deriving instance DecidableEq for Item

/-- A project in which one thing stands, and copies are kept. -/
def single (name : Text) (item : Item) : DiskStore where
  disk := { items := Table.insert {} ("/" ++ name) item }
  root := "/"
  backup := { enabled := true, mode := "sidecar" }

/-- The disk on which others put a file in the place of what stood there. -/
def replaced (s : DiskStore) (name content : Text) : Disk :=
  (s.disk.remove ("/" ++ name)).putFile ("/" ++ name) content newFileMode

/-- A name directly below the root. -/
theorem short_single {name : Text} (h : IsName name) : (pathOf [name]).length < pathLimit := by
  have hlength : (pathOf [name]).length = name.length + 1 := by
    rw [pathOf_eq, List.length_cons]
    rfl
  have hshort : name.length ≤ 255 := h.short
  have hlimit : pathLimit = 4096 := rfl
  omega

theorem tree_single {name : Text} (h : IsName name) (item : Item) : (single name item).disk.Tree where
  ordered := Table.ordered_empty.insert _ _
  placed place other hget := by
    have hordered : (Table.insert {} ("/" ++ name) item).Ordered := Table.ordered_empty.insert _ _
    have hmem : (place, other) ∈ (Table.insert {} ("/" ++ name) item).entries := hordered.mem_entries.2 hget
    obtain ⟨rfl, -⟩ := Prod.mk.inj (List.mem_singleton.1 hmem)
    exact ⟨name, [], fun n hn => List.mem_singleton.1 hn ▸ h, rfl, short_single h, rfl⟩

theorem tree_replaced (hd : s.disk.Tree) {name : Text} (h : IsName name) (content : Text) :
    (s.replaced name content).Tree := by
  have hnames : AreNames [name] := fun n hn => List.mem_singleton.1 hn ▸ h
  have hne : [name] ≠ [] := List.cons_ne_nil _ _
  have hgone : (s.disk.remove (pathOf [name])).itemAt? [name] ≠ some .directory := by
    rw [hd.itemAt?_remove hnames hne hnames, if_pos (List.suffix_refl _)]
    nofun
  exact ((hd.remove hnames hne).putFile hnames (short_single h) rfl hgone content newFileMode).tree

/-- There is no space for what is written. -/
def full : Conditions := { refuses := fun call _ => if call = .write then some .noSpace else none }

theorem absolute_single {name : Text} (h : IsName name) (item : Item) :
    (single name item).absolute name = pathOf [name] := by
  have hsplit := Text.splitAtByte_of_not_mem h.no_slash
  have hjoin := @join_pathOf [] name (fun _ hn => nomatch hn)
    (by rw [hsplit]; exact fun n hn => List.mem_singleton.1 hn ▸ h.plain)
  rw [namesBelow, hsplit] at hjoin
  exact hjoin

theorem tree_write_single {name : Text} (h : IsName name) (item : Item) (content : Text)
    (copying writing : Conditions) : ((single name item).write name content copying writing).2.disk.Tree := by
  have hplain : Path.ArePlain [name] := fun n hn => List.mem_singleton.1 hn ▸ h.plain
  have hmode : (single name item).backup.mode ≠ "none" := by
    show Text.ofString "sidecar" ≠ Text.ofString "none"
    decide
  exact (copied_write (tree_single h item) hplain (absolute_single h item) rfl hmode content copying writing).tree

/-- A write is refused, others change the file, and two more writes succeed: the copy holds what the first of
these found. -/
theorem original_kept_twice :
    let s := single "a" (.file { content := "one" })
    let refused := s.write "a" "two" full
    let events := [Happening.write "two" full, .outside (refused.2.replaced "a" "three"), .write "four", .write "five"]
    s.AllSpare "a" events ∧ refused.2.content? "a" = some "one" ∧
      s.firstFound "a" (events.take 3) = some "three" ∧ (s.after "a" events).content? "a" = some "five" ∧
      ∃ g, (s.after "a" events).copy? "a" = some (.file g) ∧ g.content = "three" := by
  intro s refused events
  have hname : IsName "a" := by decide
  have hedited : (refused.2.replaced "a" "three").Tree :=
    tree_replaced (tree_write_single hname _ _ _ _) hname "three"
  have hspare : s.AllSpare "a" events := ⟨trivial, ⟨hedited, by decide +kernel⟩, trivial, trivial, trivial⟩
  have hnone : s.copy? "a" = none := by decide +kernel
  have hcopy : (s.after "a" (events.take 3)).copy? "a" = some (.file { content := "three", time := 3 }) := by
    decide +kernel
  have hfails : refused.1 ≠ .ok () := by decide +kernel
  have hok : ((s.after "a" (events.take 3)).write "a" "five").1 = .ok () := by decide +kernel
  have hmain := @original_kept s "a" events (tree_single hname _) (by decide) rfl (by decide)
    (by rw [hnone]; nofun) hspare
  obtain ⟨hstays, hfirst⟩ := (hmain (events.take 3) (events.drop 3) rfl).1 _ hcopy
  refine ⟨hspare, ?_, hfirst, ?_, _, hstays, rfl⟩
  · exact (((hmain [] events rfl).2.2 "two" full {} _ rfl).2 hfails).1.trans (by decide +kernel)
  · exact (((hmain (events.take 3) (events.drop 3) rfl).2.2 "five" {} {} [] rfl).1 hok).1

/-- What the first write finds that finds anything at the path, refused or not; a directory holds no content. -/
def firstPresent (path : Text) (s : DiskStore) : List Happening → Option (Option Text)
  | [] => none
  | e :: rest =>
    match e, s.disk.standing? (s.absolute path) with
    | .write .., some _ => some (s.content? path)
    | _, _ => firstPresent path (s.happen path e) rest

/-- A name to which a number of ten digits cannot be added any more, once it has the ending of a copy. -/
def longName : Text := List.replicate 228 'a'

/-- The number drawn is a small one. -/
def lucky : Conditions := { drawn := fun _ => 7 }

/-- **What the first write finds is not kept where that write is refused.**  A copy cannot be made of a file with
a long name while a number with many digits is drawn, and others change the file before it can; or a directory
stands at the path first, and others put a file in its place.  In both courses the copy holds what others wrote
after the first write. -/
theorem original_lost :
    (let s := single longName (.file { content := "one" })
     let events := [Happening.write "two", .outside ((s.write longName "two").2.replaced longName "three"),
       .write "four" lucky]
     s.disk.Tree ∧ s.copy? longName = none ∧ s.AllSpare longName events ∧
       s.firstPresent longName events = some (some ("one" : Text)) ∧
       ∃ g, (s.after longName events).copy? longName = some (.file g) ∧ g.content = "three") ∧
    let s := single "a" .directory
    let events := [Happening.write "one", .outside ((s.write "a" "one").2.replaced "a" "edited"), .write "two"]
    s.disk.Tree ∧ s.copy? "a" = none ∧ s.AllSpare "a" events ∧ s.firstPresent "a" events = some none ∧
      ∃ g, (s.after "a" events).copy? "a" = some (.file g) ∧ g.content = "edited" := by
  have hlong : IsName longName := by decide +kernel
  have hshort : IsName "a" := by decide
  refine ⟨⟨tree_single hlong _, by decide +kernel, ⟨trivial, ⟨?_, by decide +kernel⟩, trivial, trivial⟩,
      by decide +kernel, { content := "three", time := 2 }, by decide +kernel, rfl⟩,
    tree_single hshort _, by decide +kernel, ⟨trivial, ⟨?_, by decide +kernel⟩, trivial, trivial⟩,
      by decide +kernel, { content := "edited", time := 2 }, by decide +kernel, rfl⟩
  · exact tree_replaced (tree_write_single hlong _ _ _ _) hlong "three"
  · exact tree_replaced (tree_write_single hshort _ _ _ _) hshort "edited"

end DiskStore
end LiquidLint
