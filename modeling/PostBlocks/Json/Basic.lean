import PostBlocks.Json.Number

/-!
# JSON values

Objects are lists of fields in the order in which their keys first came. A key given again keeps
its place and takes the new value (`Fields.put`), so an object built from a text has each key
once; `Json.WellFormed` says that of every object in a value. `Json.same` compares values as
finite maps: the order of fields does not count.
-/

namespace PostBlocks

/-- A JSON value; the fields of an object are in order. -/
inductive Json where
  | null
  | bool (b : Bool)
  | number (n : Json.Number)
  | string (s : String)
  | array (items : List Json)
  | object (fields : List (String × Json))
deriving Repr, BEq, Inhabited

namespace Json

/-- The fields of an object, in order. -/
abbrev Fields := List (String × Json)

namespace Fields

/-- The value under a key. -/
def get? (key : String) : Fields → Option Json
  | [] => none
  | (k, v) :: fs => if k = key then some v else get? key fs

/-- The fields with a value under a key: in the key's place if it is there, else at the end. -/
def put (key : String) (value : Json) : Fields → Fields
  | [] => [(key, value)]
  | (k, v) :: fs => if k = key then (k, value) :: fs else (k, v) :: put key value fs

/-- The fields that a sequence of keys and values leaves, the last value of each key. -/
def ofList (entries : List (String × Json)) : Fields :=
  entries.foldl (fun fs kv ↦ put kv.1 kv.2 fs) []

/-- The keys, in order. -/
def keys (fs : Fields) : List String :=
  fs.map Prod.fst

end Fields

/-- An integer. -/
def int (i : Int) : Json :=
  number (.int i)

/-- A natural number. -/
def nat (n : Nat) : Json :=
  number (.int n)

/-- The value under a key of an object. -/
def get? (key : String) : Json → Option Json
  | object fs => Fields.get? key fs
  | _ => none

/-- The text of a string. -/
def string? : Json → Option String
  | string s => some s
  | _ => none

/-- The truth value of a boolean. -/
def bool? : Json → Option Bool
  | bool b => some b
  | _ => none

/-- The items of an array. -/
def array? : Json → Option (List Json)
  | array items => some items
  | _ => none

/-- A signed 64-bit integer. -/
def signed? : Json → Option Int
  | number n => n.signed?
  | _ => none

/-! ### Well-formed values -/

mutual

/-- Every object in the value has each key once. -/
def WellFormed : Json → Prop
  | array items => WellFormedItems items
  | object fs => (fs.map Prod.fst).Nodup ∧ WellFormedFields fs
  | _ => True

/-- `WellFormed` for each item of an array. -/
def WellFormedItems : List Json → Prop
  | [] => True
  | v :: vs => v.WellFormed ∧ WellFormedItems vs

/-- `WellFormed` for each value of an object. -/
def WellFormedFields : List (String × Json) → Prop
  | [] => True
  | (_, v) :: fs => v.WellFormed ∧ WellFormedFields fs

end

mutual

/-- Every number in the value is an integer of a signed or unsigned 64-bit word. -/
def HasWordNumbers : Json → Prop
  | number (.int i) => Number.IsWord i
  | number (.double _) => False
  | array items => ItemsHaveWordNumbers items
  | object fs => FieldsHaveWordNumbers fs
  | _ => True

/-- `HasWordNumbers` for each item of an array. -/
def ItemsHaveWordNumbers : List Json → Prop
  | [] => True
  | v :: vs => v.HasWordNumbers ∧ ItemsHaveWordNumbers vs

/-- `HasWordNumbers` for each value of an object. -/
def FieldsHaveWordNumbers : List (String × Json) → Prop
  | [] => True
  | (_, v) :: fs => v.HasWordNumbers ∧ FieldsHaveWordNumbers fs

end

mutual

/-- How many containers a value nests: none in a scalar, one in an empty container. -/
def depth : Json → Nat
  | array items => itemsDepth items + 1
  | object fs => fieldsDepth fs + 1
  | _ => 0

/-- The depth of the deepest item. -/
def itemsDepth : List Json → Nat
  | [] => 0
  | v :: vs => max v.depth (itemsDepth vs)

/-- The depth of the deepest value of an object. -/
def fieldsDepth : List (String × Json) → Nat
  | [] => 0
  | (_, v) :: fs => max v.depth (fieldsDepth fs)

end

/-! ### Equality as finite maps -/

mutual

/-- Equality of values in which the order of an object's fields does not count. -/
def same : Json → Json → Bool
  | null, null => true
  | bool a, bool b => a == b
  | number a, number b => a.same b
  | string a, string b => a == b
  | array as, array bs => sameItems as bs
  | object fs, object gs => fs.length == gs.length && sameFields fs gs
  | _, _ => false

/-- Item by item. -/
def sameItems : List Json → List Json → Bool
  | [], [] => true
  | a :: as, b :: bs => a.same b && sameItems as bs
  | _, _ => false

/-- Each field is found in the other object. -/
def sameFields : List (String × Json) → Fields → Bool
  | [], _ => true
  | (k, v) :: fs, gs =>
    (match Fields.get? k gs with
      | some w => v.same w
      | none => false)
      && sameFields fs gs

end

end Json

end PostBlocks
