import PostBlocks.Json.Basic

/-!
# TOML tables under construction

A TOML text adds to its tables piece by piece: with headers, with keys in several parts and with
elements of arrays of tables. Each piece may be given once. What may still be added to a table
depends on how it came about, which is remembered while the text is read:

* a table with a header of its own can be opened only once;
* one that was only named on the way to another table can still get a header, but no keys of its own
  from elsewhere;
* one made by a key in several parts can get more such keys, but no header.

Inline tables and arrays are values and closed.
-/

namespace PostBlocks.Toml

/-- How a table came about. -/
inductive Origin where
  /-- By its own header. -/
  | header
  /-- On the way to a table with a header. -/
  | passed
  /-- By a key in several parts. -/
  | dotted
deriving DecidableEq, Repr

/-- What a key of a table stands for. -/
inductive Entry where
  | value (v : Json)
  | table (origin : Origin) (entries : List (String × Entry))
  /-- An array of tables, latest last. -/
  | tables (elements : List (List (String × Entry)))
deriving Repr

/-- The keys of a table and what they stand for. -/
abbrev Table := List (String × Entry)

namespace Table

/-- A table with the entry of a key changed; the change may be refused. -/
def alter (key : String) (change : Option Entry → Option Entry) : Table → Option Table
  | [] => (change none).map fun e ↦ [(key, e)]
  | (k, e) :: es =>
    if k = key then (change (some e)).map fun e ↦ (k, e) :: es
    else (alter key change es).map ((k, e) :: ·)

/-- A change of the last element of an array of tables. -/
def alterLast (change : Table → Option Table) (elements : List Table) : Option Entry :=
  match elements.reverse with
  | [] => none
  | last :: before => (change last).map fun last ↦ .tables (last :: before).reverse

/-- A value under a key, which may be in several parts. -/
def insert : (path : List String) → Json → Table → Option Table
  | [], _, _ => none
  | [key], v, t => t.alter key fun e ↦ if e.isNone then some (.value v) else none
  | key :: path, v, t => t.alter key fun
    | none => (insert path v []).map (.table .dotted)
    | some (.table .dotted es) => (insert path v es).map (.table .dotted)
    | some (.table .passed es) =>
      if path.length = 1 then none else (insert path v es).map (.table .passed)
    | some (.tables elements) => if path.length = 1 then none else alterLast (insert path v) elements
    | some (.table .header _) => none
    | some (.value _) => none

/-- A header for the table at a path. -/
def openTable : (path : List String) → Table → Option Table
  | [], _ => none
  | [key], t => t.alter key fun
    | none => some (.table .header [])
    | some (.table .passed es) => some (.table .header es)
    | some _ => none
  | key :: path, t => t.alter key fun
    | none => (openTable path []).map (.table .passed)
    | some (.table origin es) => (openTable path es).map (.table origin)
    | some (.tables elements) => alterLast (openTable path) elements
    | some (.value _) => none

/-- One more element of the array of tables at a path. -/
def openElement : (path : List String) → Table → Option Table
  | [], _ => none
  | [key], t => t.alter key fun
    | none => some (.tables [[]])
    | some (.tables elements) => some (.tables (elements ++ [[]]))
    | some _ => none
  | key :: path, t => t.alter key fun
    | none => (openElement path []).map (.table .passed)
    | some (.table origin es) => (openElement path es).map (.table origin)
    | some (.tables elements) => alterLast (openElement path) elements
    | some (.value _) => none

/-- A value under a key of the table at a path that has been opened. -/
def insertIn : (place path : List String) → Json → Table → Option Table
  | [], path, v, t => insert path v t
  | key :: place, path, v, t => t.alter key fun
    | some (.table origin es) => (insertIn place path v es).map (.table origin)
    | some (.tables elements) => alterLast (insertIn place path v) elements
    | _ => none

end Table

mutual

/-- An entry as a value. -/
def Entry.toJson : Entry → Json
  | .value v => v
  | .table _ es => .object (fieldsOf es)
  | .tables elements => .array (elementsOf elements)

/-- The keys of a table with their values. -/
def fieldsOf : List (String × Entry) → List (String × Json)
  | [] => []
  | (k, e) :: es => (k, e.toJson) :: fieldsOf es

/-- The elements of an array of tables as values. -/
def elementsOf : List (List (String × Entry)) → List Json
  | [] => []
  | t :: ts => .object (fieldsOf t) :: elementsOf ts

end

end PostBlocks.Toml
