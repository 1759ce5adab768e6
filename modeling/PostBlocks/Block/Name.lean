/-!
# Block names

A block belongs to a namespace: `core/quote`, `my-plugin/card`. In markup the namespace `core` is
left out. A part of a name starts with a lower-case ASCII letter and goes on with such letters,
digits, hyphens and low lines.
-/

namespace PostBlocks.BlockName

/-- The namespace that markup leaves out, with its slash. -/
def core : List Char :=
  "core/".toList

/-- A lower-case ASCII letter. -/
def isLower (c : Char) : Bool :=
  'a' ≤ c && c ≤ 'z'

/-- A character that goes on a part of a name. -/
def isPartChar (c : Char) : Bool :=
  isLower c || c.isDigit || c == '_' || c == '-'

/-- A character of a written name: of one of its parts, or the slash between them. -/
def isNameChar (c : Char) : Bool :=
  isPartChar c || c == '/'

/-- A text starts with a lower-case letter. -/
def startsLower : List Char → Bool
  | c :: _ => isLower c
  | [] => false

/-- A run of name characters is a written name: one part, or two with a slash between them, each
starting with a letter. -/
def isWritten (cs : List Char) : Bool :=
  match cs.splitOn '/' with
  | [name] => startsLower name
  | [space, name] => startsLower space && startsLower name
  | _ => false

/-- The full name of a written one: without a namespace it is in `core`. -/
def full (cs : List Char) : List Char :=
  if '/' ∈ cs then cs else core ++ cs

/-- The written form of a full name. -/
def short (name : String) : String :=
  match name.toList with
  | 'c' :: 'o' :: 'r' :: 'e' :: '/' :: cs => .ofList cs
  | _ => name

end PostBlocks.BlockName
