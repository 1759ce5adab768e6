import PostBlocks.Block.Basic
import PostBlocks.Json.Node
import PostBlocks.Json.Printer

/-!
# Block trees as JSON

A block is an object with the keys `blockName`, `attrs`, `innerBlocks`, `innerHTML` and
`innerContent`; a placeholder is `null`. Writing gives all five. Reading asks for the name alone,
takes what is missing as empty, skips other keys and refuses a key of the five that repeats; a
block may also be an array of the five values in that order, cut short anywhere after the name. A
document read from JSON has to be balanced.
-/

namespace PostBlocks

namespace Block

/-! ### Writing -/

/-- The items of `innerContent`. -/
def contentItems (content : List (Option String)) : List Json :=
  content.map fun fragment ↦ fragment.elim .null .string

mutual

/-- A block as a JSON object. -/
def toJson : Block → Json
  | ⟨name, attrs, children, html, content⟩ =>
    .object
      [("blockName", .string name),
        ("attrs", .object attrs),
        ("innerBlocks", .array (listToJson children)),
        ("innerHTML", .string html),
        ("innerContent", .array (contentItems content))]

/-- Blocks as JSON objects. -/
def listToJson : List Block → List Json
  | [] => []
  | b :: bs => b.toJson :: listToJson bs

end

/-- A document as a JSON array. -/
def documentJson (bs : List Block) : Json :=
  .array (listToJson bs)

/-! ### Reading -/

/-- The fields of a block as far as they have been read. -/
structure Parts where
  name : Option String
  attrs : Option Json.Fields
  children : Option (List Block)
  html : Option String
  content : Option (List (Option String))

namespace Parts

/-- No field read yet. -/
def none : Parts :=
  ⟨.none, .none, .none, .none, .none⟩

/-- The block with these fields; only the name has to be there. -/
def block? (p : Parts) : Option Block :=
  p.name.map fun name ↦
    ⟨name, p.attrs.getD [], p.children.getD [], p.html.getD "", p.content.getD []⟩

end Parts

open Json (Node)

/-- An item of `innerContent`: a fragment, or null for a placeholder. -/
def fragment? : Node → Option (Option String)
  | .null => some none
  | .string s => some (some s)
  | _ => none

mutual

/-- The block that a tree of nodes describes. -/
def ofNode? : Node → Option Block
  | .object members => do (← gather? .none members).block?
  | .array [name] => do return ⟨← name.string?, [], [], "", []⟩
  | .array [name, attrs] => do return ⟨← name.string?, ← attrs.fieldsValue?, [], "", []⟩
  | .array [name, attrs, .array children] => do
    return ⟨← name.string?, ← attrs.fieldsValue?, ← ofNodes? children, "", []⟩
  | .array [name, attrs, .array children, html] => do
    return ⟨← name.string?, ← attrs.fieldsValue?, ← ofNodes? children, ← html.string?, []⟩
  | .array [name, attrs, .array children, html, content] => do
    return ⟨← name.string?, ← attrs.fieldsValue?, ← ofNodes? children, ← html.string?,
      ← content.listOf? fragment?⟩
  | _ => none

/-- The blocks that several trees describe. -/
def ofNodes? : List Node → Option (List Block)
  | [] => some []
  | v :: vs => do return (← ofNode? v) :: (← ofNodes? vs)

/-- The fields among some members of an object, added to those read before. -/
def gather? (p : Parts) : List (Option String × Node) → Option Parts
  | [] => some p
  | (none, _) :: _ => none
  | (some "innerBlocks", .array items) :: ms =>
    if p.children.isSome then none
    else do gather? { p with children := some (← ofNodes? items) } ms
  | (some "innerBlocks", _) :: _ => none
  | (some "blockName", v) :: ms =>
    if p.name.isSome then none
    else do gather? { p with name := some (← v.string?) } ms
  | (some "attrs", v) :: ms =>
    if p.attrs.isSome then none
    else do gather? { p with attrs := some (← v.fieldsValue?) } ms
  | (some "innerHTML", v) :: ms =>
    if p.html.isSome then none
    else do gather? { p with html := some (← v.string?) } ms
  | (some "innerContent", v) :: ms =>
    if p.content.isSome then none
    else do gather? { p with content := some (← v.listOf? fragment?) } ms
  | (some _, _) :: ms => gather? p ms

end

/-- The document that a tree of nodes describes. -/
def documentOfNode? : Node → Option (List Block)
  | .array items => ofNodes? items
  | _ => none

end Block

/-- What is wrong with a document in JSON. -/
inductive TreeError where
  /-- The text is no JSON, or not of the shape of a document. -/
  | unreadable
  /-- A block at the top level that is not balanced. -/
  | unbalanced (name : String)
deriving DecidableEq, Repr, Inhabited

/-- The wording of an error, where the format has one. -/
def TreeError.message? : TreeError → Option String
  | unreadable => none
  | unbalanced name =>
    s!"block '{name}' (or one of its descendants) has a placeholder count that differs from its child count"

/-- The document in a JSON text; the first unbalanced block at the top level is an error. -/
def Block.readTree (text : String) : Except TreeError (List Block) :=
  match (Json.Node.parse? text).bind documentOfNode? with
  | none => .error .unreadable
  | some bs =>
    match bs.find? fun b ↦ !b.isBalanced with
    | some b => .error (.unbalanced b.name)
    | none => .ok bs

/-- A document as a JSON text. -/
def Block.writeTree (bs : List Block) : String :=
  (documentJson bs).pretty

end PostBlocks
