import Ocid.Daemon.Store
import Ocid.Lib.Files

/-!
# Index — Releases — release records as files

A record is a file below the directory of the releases: `<publisher>/<name>/<tag>.json`, where the
name may have several components.  What the operations of the index do is given here on the tree of
these files; that they act as on a finite map of records is the matter of `Index.Refinement`.

A file holds the record itself: its JSON text reads back as the record it was written from.  The
referrers of a record are files of another directory, and not looked at.
-/

namespace Ocid

open Call Files

/-- The directory of the releases. -/
abbrev IndexTree : Type := Files.Tree Str Release

/-- An operation on the files of the releases. -/
abbrev IndexOp (α : Type) : Type := Call IndexTree (Files.Change Str Release) Err α

namespace Index

/-! ### File names -/

/-- The parts of a file name before and after its last dot, which may not be its first character. -/
def splitAtDot (name : Str) : Str × Option Str :=
  if name = ".." then (name, none)
  else match Str.rfind '.' name with
    | none => (name, none)
    | some i => if i = 0 then (name, none) else (name.take i, some (name.drop (i + 1)))

/-- `Path::file_stem`. -/
def fileStem (name : Str) : Str := (splitAtDot name).1

/-- `Path::extension`. -/
def extension (name : Str) : Option Str := (splitAtDot name).2

theorem splitAtDot_json {tag : Str} (h : tag ≠ []) :
    splitAtDot (tag ++ ".json") = (tag, some ("json" : Str)) := by
  have hdots : tag ++ (".json" : Str) ≠ (".." : Str) := by
    intro heq
    have hlast : (tag ++ (".json" : Str)).getLast? = some 'n' := by
      rw [List.getLast?_append]
      rfl
    rw [heq] at hlast
    exact absurd hlast (by decide)
  have hfind : Str.rfind '.' (tag ++ ".json") = some tag.length :=
    Str.rfind_append tag (b := "json") (by decide)
  simp only [splitAtDot, hfind, if_neg hdots, List.length_eq_zero_iff, h, if_false]
  refine Prod.ext List.take_left ?_
  show some ((tag ++ ".json").drop (tag.length + 1)) = _
  rw [List.drop_length_add_append]
  rfl

/-! ### Paths -/

section
variable [External]

/-- The directory of an image. -/
def releaseDir (publisher : PublisherId) (name : Str) : Except Err (List Str) := do
  validateName name
  pure (publisher.toStr :: Str.split '/' name)

/-- The path of a record. -/
def releasePath (publisher : PublisherId) (name tag : Str) : Except Err (List Str) := do
  validateTag tag
  let dir ← releaseDir publisher name
  pure (dir ++ [tag ++ ".json"])

end

/-! ### Operations -/

/-- What an error of the file system says. -/
def ioError : FileError → Err
  | .notFound => ["No such file or directory (os error 2)"]
  | .alreadyExists => ["File exists (os error 17)"]
  | .notADirectory => ["Not a directory (os error 20)"]
  | .isADirectory => ["Is a directory (os error 21)"]
  | .notEmpty => ["Directory not empty (os error 39)"]

/-- An operation of the file system, with its errors as messages. -/
def io {α : Type} (m : FileOp Str Release α) : IndexOp α := mapErr ioError m

variable [External]

/-- The record of a reference, if its file exists. -/
def getRelease (publisher : PublisherId) (name tag : Str) : IndexOp (Option Release) := do
  let p ← ofExcept (releasePath publisher name tag)
  let t ← read
  if !t.present p then pure none
  else do
    let rel ← io (readFile p)
    pure (some rel)

/-- Store a release if it is new or supersedes the existing one.  Returns `true` if written. -/
def putRelease (release : Release) : IndexOp Bool := do
  let existing ← getRelease release.publisher release.name release.payload.tag
  if existing.all fun existing => release.supersedes existing then do
    let p ← ofExcept (releasePath release.publisher release.name release.payload.tag)
    io (writeAtomic p release)
    pure true
  else pure false

/-- Remove a record, and the directories that are empty then. -/
def removeRelease (publisher : PublisherId) (name tag : Str) : IndexOp Bool := do
  let p ← ofExcept (releasePath publisher name tag)
  let t ← read
  if !t.present p then pure false
  else do
    io (removeFile p)
    io (pruneDirs p.dropLast.reverse)
    pure true

/-- The tags of the record files in a directory. -/
def tagsIn (t : IndexTree) (dir : List Str) : List Str :=
  let files := if t.isDir dir then t.children dir else []
  (files.filter fun n => t.isFile (dir ++ [n]) && extension n == some ("json" : Str)).map fileStem

/-- The tags of an image, sorted. -/
def listTags (publisher : PublisherId) (name : Str) : IndexOp (List Str) := do
  let dir ← ofExcept (releaseDir publisher name)
  let t ← read
  pure ((tagsIn t dir).insertionSort (· ≤ ·))

/-- The files `walk_json` collects. -/
def isRecordFile (name : Str) : Bool := extension name == some ("json" : Str) && name.head? != some '.'

/-- The records of these files. -/
def recordsIn (t : IndexTree) : List Release :=
  (walk isRecordFile t t.depth []).filterMap fun p => (t.node p).join

/-- All releases we hold, sorted by reference. -/
def listReleases : IndexOp (List Release) := do
  let t ← read
  pure ((recordsIn t).insertionSort fun a b => a.reference ≤ b.reference)

end Index

end Ocid
