import LiquidLint.Disk.Basic
import LiquidLint.Text.Digest

/-!
# What is known of a file

A file is read together with its permissions, time, size and digest. Later these tell whether it
was changed: a time or size that differs is enough, and otherwise the digest decides.
-/

namespace LiquidLint
namespace Disk

/-- The state of a file when it was read. -/
structure Info where
  path : Text
  mode : Text
  permissions : Nat
  time : Nat
  size : Nat
  digest : Text

/-- The failure of reading a path from one of a call that is needed for it. -/
def readFailure (path : Text) (f : Failure) : Failure :=
  if f.causes.contains .missingFile then
    { causes := .notFound :: f.causes
      message := "file not found: " ++ path ++ ": " ++ f.message }
  else if f.causes.contains .permission then f.within ("permission denied: " ++ path)
  else f.within ("read " ++ path)

/-- The content of the file at a path and what is known of it. -/
def read (d : Disk) (cancelled : Bool) (path : Text) (c : Conditions := {}) :
    Except Failure (Text × Info) :=
  if cancelled then .error (Failure.cancelled.within "read file")
  else
    match d.stat path c with
    | .error f => .error (readFailure path f)
    | .ok .directory =>
      .error { causes := [.isDirectory], message := "path is a directory: " ++ path }
    | .ok (.file f) =>
      match d.contentOf path c with
      | .error f => .error (readFailure path f)
      | .ok content =>
        .ok (content,
          { path
            mode := (Item.file f).modeText
            permissions := f.mode
            time := f.time
            size := f.content.length
            digest := Digest.ofText content })

/-- Whether a file was changed since it was read; a file that is gone was. -/
def isModified (d : Disk) (cancelled : Bool) (info : Option Info) : Except Failure Bool :=
  match info with
  | none => .error { causes := [.noFileInfo], message := "nil FileInfo" }
  | some info =>
    if cancelled then .error (Failure.cancelled.within "check modified")
    else
      match d.stat info.path with
      | .error f =>
        if f.causes.contains .missingFile then .ok true
        else .error (f.within ("stat " ++ info.path))
      | .ok .directory => .ok true
      | .ok (.file f) =>
        .ok (f.time ≠ info.time || f.content.length ≠ info.size ||
          Digest.ofText f.content ≠ info.digest)

end Disk
end LiquidLint
