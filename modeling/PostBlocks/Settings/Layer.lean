import PostBlocks.Json.Basic

/-!
# Layers of settings

Settings are a tree of tables. A layer over it names places by *paths*, keys and array positions as
in `formatting.tags[0].tag`, and puts values there: a table is merged key by key into what is there,
every other value replaces it. Where a path runs through something that is no table, or no array,
an empty one takes its place; arrays are filled up with null.

Keys do not distinguish upper and lower case: `Import.Author` is `import.author`. They are kept in
lower case. This goes for the keys of paths and of tables merged in, but not for tables that are
items of an array, which are values and stay as they are.
-/

namespace PostBlocks.Settings

/-! ### Paths -/

/-- A step into a tree of settings. -/
inductive Step where
  | key (name : String)
  | index (i : Int)
deriving DecidableEq, Repr

/-- A character of a key in a path. -/
def isKeyChar (c : Char) : Bool :=
  c.isAlphanum || c == '_' || c == '-' || c == ' '

/-- Space and tab, which may stand around an index. -/
def isIndexSpace (c : Char) : Bool :=
  c == ' ' || c == '\t'

/-- A position in an array, if a signed 64-bit word holds it. -/
def indexOf? (i : Int) : Option Int :=
  if -9223372036854775808 ≤ i ∧ i < 9223372036854775808 then some i else none

/-- The integer between brackets, of which the first has been read. -/
def takeIndex? (cs : List Char) : Option (Int × List Char) :=
  let (negative, cs) := match cs.dropWhile isIndexSpace with
    | '-' :: cs => (true, cs)
    | cs => (false, cs)
  match cs.takeWhile Char.isDigit, (cs.dropWhile Char.isDigit).dropWhile isIndexSpace with
  | [], _ => none
  | ds, ']' :: rest =>
    let n : Int := ds.foldl (fun n c ↦ 10 * n + (c.toNat - 48)) (0 : Nat)
    (indexOf? (if negative then -n else n)).map (·, rest)
  | _, _ => none

/-- The steps after the first key of a path. -/
def takeSteps? : (fuel : Nat) → List Char → Option (List Step)
  | _, [] => some []
  | 0, _ => none
  | fuel + 1, '.' :: cs =>
    match cs.takeWhile isKeyChar with
    | [] => none
    | name => (takeSteps? fuel (cs.dropWhile isKeyChar)).map (.key (.ofList name) :: ·)
  | fuel + 1, '[' :: cs => do
    let (i, cs) ← takeIndex? cs
    return .index i :: (← takeSteps? fuel cs)
  | _, _ => none

/-- The steps of a written path. -/
def pathOf? (text : String) : Option (List Step) :=
  let cs := text.toList
  match cs.takeWhile isKeyChar with
  | [] => none
  | name => (takeSteps? cs.length (cs.dropWhile isKeyChar)).map (.key (.ofList name) :: ·)

/-! ### Putting values -/

/-- The fields of a table; of anything else, none. -/
def fieldsOf : Json → Json.Fields
  | .object fs => fs
  | _ => []

/-- The items of an array; of anything else, none. -/
def itemsOf : Json → List Json
  | .array items => items
  | _ => []

/-- The form in which a key is kept. -/
def keptKey (key : String) : String :=
  .ofList (key.toList.map Char.toLower)

mutual

/-- A table with a value put under a key. -/
def putKey (key : String) : (value parent : Json) → Json
  | .object fs, parent =>
    let target := ((fieldsOf parent).get? (keptKey key)).getD (.object [])
    .object ((fieldsOf parent).put (keptKey key) (putEach fs target))
  | value, parent => .object ((fieldsOf parent).put (keptKey key) value)

/-- A table with each of some fields put into it. -/
def putEach : List (String × Json) → Json → Json
  | [], target => target
  | (k, v) :: fs, target => putEach fs (putKey k v target)

end

/-- The position that an index names in an array of the given size; a negative one counts from the
end. -/
def positionOf (i : Int) (size : Nat) : Nat :=
  if 0 ≤ i then i.toNat else size - i.natAbs

/-- An array with one item changed, filled up with null if it is too short. -/
def alterItem (i : Int) (change : Json → Json) (parent : Json) : Json :=
  let items := itemsOf parent
  let n := positionOf i items.length
  let items := items ++ List.replicate (n + 1 - items.length) .null
  .array (items.set n (change (items[n]?.getD .null)))

/-- A tree with a value put at the end of a path. -/
def putAt : (path : List Step) → (value parent : Json) → Json
  | [], _, parent => parent
  | [.key k], value, parent => putKey k value parent
  | [.index i], value, parent => alterItem i (fun _ ↦ value) parent
  | .key k :: path, value, parent =>
    let fs := fieldsOf parent
    .object (fs.put (keptKey k) (putAt path value ((fs.get? (keptKey k)).getD .null)))
  | .index i :: path, value, parent => alterItem i (putAt path value) parent

/-- A tree with each field of a layer put into it; a key that reads as a path is one. -/
def putLayer (layer : Json.Fields) (tree : Json) : Json :=
  layer.foldl (fun tree kv ↦ putAt ((pathOf? kv.1).getD [.key kv.1]) kv.2 tree) tree

end PostBlocks.Settings
