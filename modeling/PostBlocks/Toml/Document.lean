import PostBlocks.Toml.Scalar
import PostBlocks.Toml.Table

/-!
# TOML documents

A document is read line by line: a key with a value, a table header, or nothing but a comment.
Values nest, so their readers carry fuel; the length of the text is enough. Besides, neither nesting
nor keys go deeper than `maxDepth`: containers inside containers and parts of one key are both
counted, each by itself.
-/

namespace PostBlocks.Toml

/-- Neither do containers nest more deeply, nor has a key more parts. -/
def maxDepth : Nat := 79

/-! ### Blanks, comments and keys -/

/-- Drops blanks, line ends and comments, as between the items of an array; `inComment` says that a
comment has begun. A character that no comment may hold stays in front. -/
def skipLines (inComment : Bool) : List Char → List Char
  | [] => []
  | '\r' :: '\n' :: cs => skipLines false cs
  | c :: cs =>
    if c = '\n' then skipLines false cs
    else if inComment then if isPlain c then skipLines true cs else c :: cs
    else if c = '#' then skipLines true cs
    else if isSpace c then skipLines false cs
    else c :: cs

/-- What follows the rest of a line that holds at most a comment. -/
def endLine? (cs : List Char) : Option (List Char) :=
  let cs := match cs.dropWhile isSpace with
    | '#' :: cs => cs.dropWhile isPlain
    | cs => cs
  match cs with
  | [] => some []
  | '\n' :: cs => some cs
  | '\r' :: '\n' :: cs => some cs
  | _ => none

/-- A character of a key without quotes. -/
def isBare (c : Char) : Bool :=
  c.isAlphanum || c == '_' || c == '-'

/-- One part of a key, and what follows it. -/
def takePart? (cs : List Char) : Option (String × List Char) :=
  match cs with
  | '"' :: cs => (takeBasic? cs).map fun (s, rest) ↦ (.ofList s, rest)
  | '\'' :: cs => (takeLiteral? cs).map fun (s, rest) ↦ (.ofList s, rest)
  | cs =>
    match cs.takeWhile isBare with
    | [] => none
    | name => some (.ofList name, cs.dropWhile isBare)

/-- A key of at most `room` parts with dots between them, and what follows it and its blanks. -/
def takeParts? : (room : Nat) → List Char → Option (List String × List Char)
  | 0, _ => none
  | room + 1, cs => do
    let (part, cs) ← takePart? (cs.dropWhile isSpace)
    match cs.dropWhile isSpace with
    | '.' :: cs =>
      let (parts, cs) ← takeParts? room cs
      return (part :: parts, cs)
    | cs => return ([part], cs)

/-- A key, and what follows it and its blanks. -/
def takeKey? (cs : List Char) : Option (List String × List Char) :=
  takeParts? maxDepth cs

/-! ### Values -/

mutual

/-- The value at the front of a text, of at most `room` containers inside each other, and what
follows it. -/
def takeValue? : (fuel room : Nat) → List Char → Option (Json × List Char)
  | 0, _, _ => none
  | fuel + 1, room + 1, '[' :: cs => do
    let (items, cs) ← takeItems? fuel room (skipLines false cs)
    return (.array items, cs)
  | fuel + 1, room + 1, '\x7b' :: cs =>
    match cs.dropWhile isSpace with
    | '\x7d' :: cs => some (.object [], cs)
    | cs => do
      let (t, cs) ← takePairs? fuel room [] cs
      return (.object (fieldsOf t), cs)
  | _, _, cs => takeScalar? cs

/-- The items of an array up to its end, and what follows it. -/
def takeItems? : (fuel room : Nat) → List Char → Option (List Json × List Char)
  | 0, _, _ => none
  | _, _, ']' :: cs => some ([], cs)
  | fuel + 1, room, cs => do
    let (v, cs) ← takeValue? fuel room cs
    match skipLines false cs with
    | ',' :: cs =>
      let (vs, cs) ← takeItems? fuel room (skipLines false cs)
      return (v :: vs, cs)
    | ']' :: cs => return ([v], cs)
    | _ => none

/-- The keys and values of an inline table up to its end, added to those before, and the rest. -/
def takePairs? : (fuel room : Nat) → Table → List Char → Option (Table × List Char)
  | 0, _, _, _ => none
  | fuel + 1, room, t, cs => do
    let (path, cs) ← takeKey? cs
    let cs ← match cs with
      | '=' :: cs => some (cs.dropWhile isSpace)
      | _ => none
    let (v, cs) ← takeValue? fuel room cs
    let t ← t.insert path v
    match cs.dropWhile isSpace with
    | ',' :: cs => takePairs? fuel room t cs
    | '\x7d' :: cs => return (t, cs)
    | _ => none

end

/-! ### Lines -/

/-- The document read so far, and the path of the table that keys go into. -/
structure Progress where
  root : Table
  place : List String

/-- One line, and what follows it. -/
def Progress.line? (fuel : Nat) (p : Progress) (cs : List Char) :
    Option (Progress × List Char) :=
  match cs.dropWhile isSpace with
  | '[' :: '[' :: cs => do
    let (path, cs) ← takeKey? cs
    let cs ← match cs with
      | ']' :: ']' :: cs => endLine? cs
      | _ => none
    return (⟨← p.root.openElement path, path⟩, cs)
  | '[' :: cs => do
    let (path, cs) ← takeKey? cs
    let cs ← match cs with
      | ']' :: cs => endLine? cs
      | _ => none
    return (⟨← p.root.openTable path, path⟩, cs)
  | cs =>
    match endLine? cs with
    | some rest => some (p, rest)
    | none => do
      let (path, cs) ← takeKey? cs
      let cs ← match cs with
        | '=' :: cs => some (cs.dropWhile isSpace)
        | _ => none
      let (v, cs) ← takeValue? fuel maxDepth cs
      let cs ← endLine? cs
      return (⟨← p.root.insertIn p.place path v, p.place⟩, cs)

/-- All lines. -/
def Progress.lines? : (fuel : Nat) → Progress → List Char → Option Progress
  | _, p, [] => some p
  | 0, _, _ => none
  | fuel + 1, p, cs => do
    let (p, cs) ← p.line? (cs.length + 1) cs
    lines? fuel p cs

/-- A byte order mark in front of a text does not belong to it. -/
def dropMark : List Char → List Char
  | '\ufeff' :: cs => cs
  | cs => cs

/-- The fields of a document. -/
def parse? (text : String) : Option Json.Fields :=
  let cs := dropMark text.toList
  (Progress.lines? cs.length ⟨[], []⟩ cs).map fun p ↦ fieldsOf p.root

end PostBlocks.Toml
