import LiquidLint.Disk.Info

/-!
# Safe writing

A file is written beside its place first and then moved there, so that the old content stays until
the new one is complete. Where backups are wanted, the first content of a file is kept in a copy
beside it, and later writings leave that copy alone.

Any of the calls that this takes can be refused. Then the operation ends with the failure of that
call, and what was prepared is taken away again.
-/

namespace LiquidLint
namespace Disk

/-- The permissions of a new file. -/
def newFileMode : Nat := 0o644

/-- The permissions of a file while its content is prepared. -/
def preparedMode : Nat := 0o600

/-- How often a number is drawn for the name of a prepared content. -/
def drawLimit : Nat := 10000

/-- A path under which nothing stands yet: `stem` with the first number drawn that makes one, where
`left` tries are left. -/
def freePath (d : Disk) (c : Conditions) (stem : Text) : (left : Nat) → Except Failure Text
  | 0 => .error (Fault.noneFree.failure "createtemp" (stem ++ "*"))
  | left + 1 =>
    let path := stem ++ Text.ofNat (c.drawn left).toNat
    match c.failure? .createFile path with
    | some f => .error f
    | none =>
      match d.find path with
      | .ok _ => freePath d c stem left
      | .error .missing => .ok path
      | .error f => .error (f.failure "open" path)

/-- The path at which a content is prepared before it takes the place of `path`: in the same
directory, under a name that is free. -/
def preparedPath (d : Disk) (c : Conditions) (path : Text) : Except Failure Text :=
  let dir := Path.dir path
  let stem := Path.base path ++ ".tmp."
  if stem.contains '/' then .error (Fault.slashInName.failure "createtemp" (stem ++ "*"))
  else d.freePath c ((if Text.endsWith dir "/" then dir else dir ++ "/") ++ stem) drawLimit

/-- The failure of the first call that is refused while a content is prepared. -/
def preparing? (c : Conditions) (prepared : Text) : Option Failure :=
  let steps : List (Call × Text) := [(.write, "write temp file"), (.sync, "sync temp file"),
    (.close, "close temp file"), (.setMode, "chmod temp file")]
  steps.findSome? fun (call, attempt) => (c.failure? call prepared).map (·.within attempt)

/-- Prepares a content and moves it to its place. -/
def fill (d : Disk) (c : Conditions) (prepared path content : Text) (mode : Nat) :
    Except Failure Unit × Disk :=
  let place := d.absolute prepared
  match preparing? c prepared with
  | some f =>
    let refused := (c.refuses .write prepared).isSome
    (.error f, d.putFile place (if refused then content.take c.arriving else content) preparedMode)
  | none =>
    let d := d.putFile place content mode
    let moving := prepared ++ " " ++ path
    match c.refuses .rename prepared with
    | some r => (.error (((Fault.refused r).failure "rename" moving).within "rename temp file"), d)
    | none =>
      if d.isDirectory path then
        (.error ((Fault.occupied.failure "rename" moving).within "rename temp file"), d)
      else (.ok (), d.rename prepared path)

/-- Takes a prepared content away, unless that is refused. -/
def discard (d : Disk) (c : Conditions) (prepared : Text) : Disk :=
  match c.refuses .remove prepared with
  | some _ => d
  | none => d.remove prepared

/-- Writes a file by moving a complete one to its place; directories on the way are made. Without
any permissions the file gets those of a new one. -/
def writeAtomic (d : Disk) (cancelled : Bool) (path content : Text) (mode : Nat)
    (c : Conditions := {}) : Except Failure Unit × Disk :=
  if cancelled then (.error (Failure.cancelled.within "write atomic"), d)
  else
    match d.makeDirectories (Path.dir path) c with
    | (.error f, d) => (.error (f.within "create parent directory"), d)
    | (.ok (), d) =>
      match d.preparedPath c path with
      | .error f => (.error (f.within "create temp file"), d)
      | .ok prepared =>
        match d.fill c prepared path content (if mode = 0 then newFileMode else mode) with
        | (.error f, d) => (.error f, d.discard c prepared)
        | (.ok (), d) => (.ok (), d)

/-- Writes a file unless it has the content already, and tells whether it wrote. The permissions of
a file stay, where they are known. -/
def writeIfChanged (d : Disk) (cancelled : Bool) (path content : Text) (c : Conditions := {}) :
    Except Failure Bool × Disk :=
  let write (mode : Nat) : Except Failure Bool × Disk :=
    let (result, d) := d.writeAtomic cancelled path content mode c
    (result.map fun _ => true, d)
  match d.contentOf path c with
  | .error f =>
    if f.causes.contains .missingFile then write newFileMode
    else (.error (f.within "read existing"), d)
  | .ok old =>
    if old = content then (.ok false, d)
    else
      match d.stat path c with
      | .ok item => write item.mode
      | .error _ => write newFileMode

/-! ## Backups -/

/-- Which copies are kept of files that are written. -/
structure BackupPolicy where
  enabled : Bool := false
  /-- Where copies are kept; `none` keeps none. -/
  mode : Text := []

/-- What is added to the name of a file for its copy. -/
def backupSuffix : Text := ".poscheck.bak"

/-- Whether a path is that of a copy. -/
def isBackup (path : Text) : Bool := Text.endsWith path backupSuffix

/-- The path of the copy of a file, where there is one. -/
def backupPath? (path mode : Text) : Option Text :=
  if mode = "none" then none else some (path ++ backupSuffix)

/-- Copies a file, unless there is a copy already, and tells whether it did. -/
def backUp (d : Disk) (cancelled : Bool) (path : Text) (policy : BackupPolicy)
    (c : Conditions := {}) : Except Failure Bool × Disk :=
  match policy.enabled, backupPath? path policy.mode with
  | true, some copy =>
    if cancelled then (.error (Failure.cancelled.within "create backup"), d)
    else
      match d.stat copy c with
      | .ok _ => (.ok false, d)
      | .error f =>
        if !f.causes.contains .missingFile then (.error (f.within "stat backup path"), d)
        else
          match d.read cancelled path c with
          | .error f =>
            if f.causes.contains .notFound then (.ok false, d)
            else (.error (f.within "read original for backup"), d)
          | .ok (content, info) =>
            match d.writeAtomic cancelled copy content info.permissions c with
            | (.error f, d) => (.error (f.within "write backup"), d)
            | (.ok (), d) => (.ok true, d)
  | _, _ => (.ok false, d)

end Disk
end LiquidLint
