import PostBlocks.Json.Token

/-!
# JSON texts as trees of nodes

A reader of a JSON text may use only part of it, and what it does not use has to be well written
but need not have a value. A *node* is a text's tree that keeps this distinction: parts without a
value (a number too large for a double, half of a surrogate pair, a container nested too deeply)
are the node `unusable`, an object keeps every key it repeats, and a key without a value is
`none`. What is an error is then decided by the reader of the tree:

* `Node.value?` reads the whole tree as a value, so nothing in it may be unusable, and of a
  repeated key the last value counts;
* a reader of records (`Node.fields?`) skips what it does not know and refuses known keys that
  repeat.

The tree is built from the tokens by a machine with a stack of open containers, one token a step.
-/

namespace PostBlocks.Json

/-- The tree of a text, with the parts that have no value marked. -/
inductive Node where
  | null
  | bool (b : Bool)
  | number (n : Number)
  | string (s : String)
  | array (items : List Node)
  | object (members : List (Option String × Node))
  | unusable
deriving Repr, BEq, Inhabited

/-! ### Building a tree -/

/-- A container that waits for a value: its entries so far, latest first. -/
inductive Frame where
  | array (items : List Node)
  | object (members : List (Option String × Node)) (key : Option String)

/-- What has to come next. -/
inductive Phase where
  /-- A value. -/
  | value
  /-- The first item of an array, or its end. -/
  | item
  /-- The first key of an object, or its end. -/
  | member
  /-- A key after a comma, in an object with these members so far. -/
  | key (members : List (Option String × Node))
  /-- The colon after a key. -/
  | colon (members : List (Option String × Node)) (key : Option String)
  /-- What may follow a finished value. -/
  | after (v : Node)

/-- A container that closes inside the given open ones; beyond `room` levels it has no value. -/
def Node.close (room : Nat) (stack : List Frame) (v : Node) : Phase :=
  .after (if stack.length < room then v else .unusable)

/-- The token at the start of a value. -/
def Token.start? (t : Token) : Option Phase :=
  match t with
  | .null => some (.after .null)
  | .bool b => some (.after (.bool b))
  | .number n => some (.after (n.elim .unusable .number))
  | .string s => some (.after (s.elim .unusable .string))
  | .openArray => some .item
  | .openObject => some .member
  | _ => none

/-- One token. -/
def Phase.step? (room : Nat) (t : Token) : Phase → List Frame → Option (Phase × List Frame)
  | .value, stack => t.start?.map (·, stack)
  | .item, stack =>
    match t with
    | .closeArray => some (Node.close room stack (.array []), stack)
    | t => t.start?.map (·, .array [] :: stack)
  | .member, stack =>
    match t with
    | .closeObject => some (Node.close room stack (.object []), stack)
    | .string k => some (.colon [] k, stack)
    | _ => none
  | .key members, stack =>
    match t with
    | .string k => some (.colon members k, stack)
    | _ => none
  | .colon members k, stack =>
    match t with
    | .colon => some (.value, .object members k :: stack)
    | _ => none
  | .after v, .array items :: stack =>
    match t with
    | .comma => some (.value, .array (v :: items) :: stack)
    | .closeArray => some (Node.close room stack (.array (v :: items).reverse), stack)
    | _ => none
  | .after v, .object members k :: stack =>
    match t with
    | .comma => some (.key ((k, v) :: members), stack)
    | .closeObject => some (Node.close room stack (.object ((k, v) :: members).reverse), stack)
    | _ => none
  | .after _, [] => none

/-- The tree that a run of tokens ends with. -/
def Node.build? (room : Nat) : Phase → List Frame → List Token → Option Node
  | .after v, [], [] => some v
  | _, _, [] => none
  | phase, stack, t :: ts =>
    match phase.step? room t stack with
    | some (phase, stack) => build? room phase stack ts
    | none => none

/-- Containers nested more deeply than this have no value. -/
def maxDepth : Nat := 127

/-- The tree of a text in which containers have values down to `room` levels. -/
def Node.ofChars? (room : Nat) (cs : List Char) : Option Node :=
  (tokens? cs).bind (build? room .value [])

/-- The tree of a text. -/
def Node.parse? (text : String) : Option Node :=
  ofChars? maxDepth text.toList

/-! ### Values -/

mutual

/-- The value of a tree all of which has one. -/
def Node.value? : Node → Option Json
  | .null => some .null
  | .bool b => some (.bool b)
  | .number n => some (.number n)
  | .string s => some (.string s)
  | .array items => (Node.values? items).map .array
  | .object members => (Node.entries? members).map fun es ↦ .object (Fields.ofList es)
  | .unusable => none

/-- The values of several trees. -/
def Node.values? : List Node → Option (List Json)
  | [] => some []
  | v :: vs => do return (← v.value?) :: (← Node.values? vs)

/-- The keys and values of an object, repeated keys included. -/
def Node.entries? : List (Option String × Node) → Option (List (String × Json))
  | [] => some []
  | (none, _) :: _ => none
  | (some k, v) :: ms => do return (k, ← v.value?) :: (← Node.entries? ms)

end

mutual

/-- The tree of a value. -/
def toNode : Json → Node
  | null => .null
  | bool b => .bool b
  | number n => .number n
  | string s => .string s
  | array items => .array (itemNodes items)
  | object fs => .object (fieldNodes fs)

/-- The trees of several values. -/
def itemNodes : List Json → List Node
  | [] => []
  | v :: vs => v.toNode :: itemNodes vs

/-- The members of an object's tree. -/
def fieldNodes : List (String × Json) → List (Option String × Node)
  | [] => []
  | (k, v) :: fs => (some k, v.toNode) :: fieldNodes fs

end

/-- The value of a text in which containers nest at most `room` levels. -/
def readWithin? (room : Nat) (text : String) : Option Json :=
  (Node.ofChars? room text.toList).bind Node.value?

/-- The value of a text. -/
def parse? (text : String) : Option Json :=
  readWithin? maxDepth text

/-- The fields of a text that is an object. -/
def Fields.parse? (cs : List Char) : Option Fields :=
  match (Node.ofChars? maxDepth cs).bind Node.value? with
  | some (.object fs) => some fs
  | _ => none

/-! ### Records -/

namespace Node

/-- The members of a record with the given field names, in that order. An object may leave fields
out and may have further keys, but repeats none of the names; an array lists all fields. -/
def fields? (names : List String) : Node → Option (List (Option Node))
  | .object members =>
    if members.all (·.1.isSome) && names.all (fun n ↦ members.countP (·.1 == some n) ≤ 1) then
      some (names.map fun n ↦ (members.find? (·.1 == some n)).map Prod.snd)
    else none
  | .array items => if items.length = names.length then some (items.map some) else none
  | _ => none

/-- A field that has to be there. -/
def required? {α : Type} (read : Node → Option α) : Option Node → Option α
  | none => none
  | some v => read v

/-- A field that may be left out or null. -/
def optional? {α : Type} (read : Node → Option α) : Option Node → Option (Option α)
  | none => some none
  | some .null => some none
  | some v => (read v).map some

/-- The text of a string. -/
def string? : Node → Option String
  | .string s => some s
  | _ => none

/-- An unsigned 64-bit integer. -/
def unsigned? : Node → Option Nat
  | .number n => n.unsigned?
  | _ => none

/-- The items of an array, each read the same way. -/
def listOf? {α : Type} (read : Node → Option α) : Node → Option (List α)
  | .array items => items.mapM read
  | _ => none

/-- The fields of an object that has a value. -/
def fieldsValue? (v : Node) : Option Fields :=
  match v.value? with
  | some (.object fs) => some fs
  | _ => none

mutual

/-- Nothing in the tree lacks a value. -/
def isUsable : Node → Bool
  | .array items => areUsable items
  | .object members => membersAreUsable members
  | .unusable => false
  | _ => true

/-- `isUsable` for each item. -/
def areUsable : List Node → Bool
  | [] => true
  | v :: vs => v.isUsable && areUsable vs

/-- `isUsable` for each member, keys included. -/
def membersAreUsable : List (Option String × Node) → Bool
  | [] => true
  | (k, v) :: ms => k.isSome && v.isUsable && membersAreUsable ms

end

end Node

end PostBlocks.Json
