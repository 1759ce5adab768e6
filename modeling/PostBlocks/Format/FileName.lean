/-!
# File names

The format of a file is told from its extension: what follows the last dot of the last part of its
path, if something precedes that dot. Slashes at the end and parts that are a single dot do not
count; a path that ends in two dots has no last part. A file may also be named without its
extension, which is then added to the last part.
-/

namespace PostBlocks.FileName

/-- The last part of a path, and the parts before it, latest first. -/
def parts? (path : List Char) : Option (List Char × List (List Char)) :=
  match (path.splitOn '/').reverse.dropWhile fun part ↦ part == [] || part == ['.'] with
  | [] => none
  | part :: before => if part == ['.', '.'] then none else some (part, before)

/-- The last part of a path. -/
def last? (path : List Char) : Option (List Char) :=
  (parts? path).map Prod.fst

/-- A path with an extension added to its last part, which then ends it. -/
def addExtension? (path extension : String) : Option String :=
  (parts? path.toList).map fun (part, before) ↦
    .ofList (['/'].intercalate ((part ++ '.' :: extension.toList) :: before).reverse)

/-- The extension of a path. -/
def extension? (path : String) : Option String :=
  match last? path.toList with
  | none => none
  | some part =>
    let (reversed, before) := part.reverse.span (· != '.')
    match before with
    | [] | [_] => none
    | _ => some (.ofList reversed.reverse)

end PostBlocks.FileName
