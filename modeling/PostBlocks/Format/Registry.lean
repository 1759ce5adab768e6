import PostBlocks.Format.Basic
import PostBlocks.Format.FileName

/-!
# Registries of formats

A registry holds at most one format a name; registering another under the same name replaces it.
Formats are found by name or by the extension of a file.
-/

namespace PostBlocks

/-- Formats by name. -/
structure Registry where
  formats : List Format

namespace Registry

/-- The registry without formats. -/
def empty : Registry :=
  ⟨[]⟩

/-- The registry with a format in place of the one of the same name. -/
def register (r : Registry) (f : Format) : Registry :=
  ⟨r.formats.filter (·.name ≠ f.name) ++ [f]⟩

/-- All formats; posts are read with the given tag table. -/
def withTable (table : TagTable) : Registry :=
  [.npf table, .blocks, .json, .html, .treeviz].foldl register empty

/-- All formats, with the standard tag table. -/
def standard : Registry :=
  withTable .standard

/-- The format of a name. -/
def get (r : Registry) (name : String) : Except FormatError Format :=
  match r.formats.find? (·.name == name) with
  | some f => .ok f
  | none => .error (.notFound name)

/-- There is a format of that name. -/
def has (r : Registry) (name : String) : Bool :=
  r.formats.any (·.name == name)

/-- The names of the formats, sorted. -/
def names (r : Registry) : List String :=
  (r.formats.map Format.name).mergeSort

/-- The name of the format that a file is in, by its extension. -/
def detect? (r : Registry) (path : String) : Option String := do
  let ext ← FileName.extension? path
  let f ← r.formats.find? (·.extensions.contains ext)
  return f.name

/-- The format of a name if it can be used in the given way. -/
def require (r : Registry) (name : String) (use : FormatUse) : Except FormatError Format := do
  let f ← r.get name
  if f.supports use then return f else throw (.notSupported name use)

/-- The document in a text of the named format. -/
def parse (r : Registry) (name source : String) : Except FormatError (List Block) := do
  (← r.require name .parsing).parse source

/-- A document as a text of the named format. -/
def serialize (r : Registry) (name : String) (bs : List Block) : Except FormatError String := do
  (← r.require name .serialization).serialize bs

end Registry

end PostBlocks
