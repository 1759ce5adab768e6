/-!
# Folders

A folder holds files at paths of one or more parts; the folders inside it are those that some file
lies in. Paths are written with slashes: single dots and empty parts stay where they are, two dots
go up, and every folder on the way has to be there. A name has at most 255 bytes. Nothing outside of
the folder can be reached.

A file is a text, or holds bytes that are not one.
-/

namespace PostBlocks

/-- What reading a file gives. -/
inductive Reading where
  /-- There is no such file. -/
  | absent
  /-- The file is no text. -/
  | binary
  | text (s : String)
deriving DecidableEq, Repr, Inhabited

/-- Files by path; a file without text holds other bytes. -/
structure Folder where
  files : List (List String × Option String)
deriving DecidableEq, Repr, Inhabited

namespace Folder

/-- A part of a path can be the name of a file. -/
def isName (part : String) : Bool :=
  part != "" && part != "." && part != ".." && part.utf8ByteSize ≤ 255

/-- There is a folder at a path. -/
def hasFolder (f : Folder) (place : List String) : Bool :=
  place.isEmpty || f.files.any fun file ↦ place.isPrefixOf file.1 && place != file.1

/-- Where a written path leads from a place, if it can name a file there. -/
def walk? (f : Folder) (place : List String) : List String → Option (List String)
  | [] => none
  | [part] =>
    if isName part && !f.hasFolder (place ++ [part]) then some (place ++ [part]) else none
  | part :: parts =>
    if part = "" ∨ part = "." then f.walk? place parts
    else if part = ".." then if place.isEmpty then none else f.walk? place.dropLast parts
    else if f.hasFolder (place ++ [part]) then f.walk? (place ++ [part]) parts
    else none

/-- The path that a written one names in the folder; a path that starts with a slash leads
outside. -/
def locate? (f : Folder) (path : String) : Option (List String) :=
  match path.toList with
  | '/' :: _ => none
  | cs => f.walk? [] ((cs.splitOn '/').map .ofList)

/-- The file at a written path. -/
def read (f : Folder) (path : String) : Reading :=
  match f.locate? path with
  | none => .absent
  | some place =>
    match f.files.find? (·.1 == place) with
    | none => .absent
    | some (_, none) => .binary
    | some (_, some s) => .text s

/-- The folder with a text at a written path; `none` where that cannot be written. -/
def write? (f : Folder) (path text : String) : Option Folder :=
  (f.locate? path).map fun place ↦
    if f.files.any (·.1 == place) then
      ⟨f.files.map fun file ↦ if file.1 == place then (place, some text) else file⟩
    else ⟨f.files ++ [(place, some text)]⟩

end Folder

end PostBlocks
