import PostBlocks.Inline.TagTable
import PostBlocks.Json.Printer
import PostBlocks.Record.Basic
import PostBlocks.Settings.Layer
import PostBlocks.Toml.Document

/-!
# Settings

The settings are the tag table, the format that is written when none is asked for, and the defaults
of records. They are layered: built-in values, then files in order, then single values, which win
over all files. What the layers leave is read with some leniency: a number or a truth value will do
for a text, and a text that names a number for a number.
-/

namespace PostBlocks

/-- Everything that can be set. -/
structure Settings where
  tags : List TagMapping
  format : String
  defaults : RecordDefaults
deriving DecidableEq, Repr, Inhabited

/-- Why settings cannot be loaded. -/
inductive SettingsError where
  /-- A file that has to be there is missing, or is no text. -/
  | missingFile
  /-- A file is not TOML. -/
  | malformedFile
  /-- A single value is put under something that is no path. -/
  | malformedPath (path : String)
  /-- A setting is missing or of the wrong type. -/
  | wrongType
deriving DecidableEq, Repr, Inhabited

namespace Settings

/-! ### Lenient readings -/

/-- A double in positional notation, without a point where there is nothing behind it. Its digits
are the fewest that read back; of two that are equally near the larger magnitude counts. -/
def doubleText (bits : UInt64) : String :=
  let f := Float.ofBits bits
  if f.isNaN then "NaN"
  else
    let magnitude :=
      if f.isInf then "inf".toList
      else if f == 0.0 then "0".toList
      else
        let x := Decimal.shortest .up (.ofBits bits)
        let ds := Json.decimalChars x.digits
        let point : Int := ds.length + x.exponent
        if 0 ≤ x.exponent then ds ++ List.replicate x.exponent.toNat '0'
        else if 0 < point then ds.take point.toNat ++ '.' :: ds.drop point.toNat
        else "0.".toList ++ List.replicate (-point).toNat '0' ++ ds
    .ofList (if bits.toNat < 9223372036854775808 then magnitude else '-' :: magnitude)

/-- A value as a text. -/
def text? : Json → Option String
  | .string s => some s
  | .bool b => some (if b then "true" else "false")
  | .number (.int i) => some (.ofList (Json.integerChars i))
  | .number (.double bits) => some (doubleText bits)
  | _ => none

/-- A text as an unsigned 64-bit word: digits, or a word for yes or no. -/
def wordOfText? (s : String) : Option Nat :=
  let lower := s.toList.map Char.toLower
  if ["true".toList, "on".toList, "yes".toList].contains lower then some 1
  else if ["false".toList, "off".toList, "no".toList].contains lower then some 0
  else
    let ds := match s.toList with
      | '+' :: cs => cs
      | cs => cs
    if ds.isEmpty || !ds.all Char.isDigit then none
    else
      let n := ds.foldl (fun n c ↦ 10 * n + (c.toNat - 48)) 0
      if n < 18446744073709551616 then some n else none

/-- A value as an unsigned 64-bit word; a double is rounded. -/
def word? : Json → Option Nat
  | .string s => wordOfText? s
  | .bool b => some (if b then 1 else 0)
  | .number (.double bits) => some (Float.ofBits bits).round.toUInt64.toNat
  | .number n => n.unsigned?
  | _ => none

/-- The values of the named fields: of a table by name, of an array in order. -/
def fields? (names : List String) : Json → Option (List Json)
  | .object fs => names.mapM (Json.Fields.get? · fs)
  | .array items => if names.length ≤ items.length then some (items.take names.length) else none
  | _ => none

/-- An entry of the tag table. -/
def mapping? (v : Json) : Option TagMapping := do
  match ← fields? ["type", "tag"] v with
  | [format, tag] => return ⟨← text? format, ← text? tag⟩
  | _ => none

/-- The settings that a tree of tables holds. -/
def ofJson? (tree : Json) : Option Settings := do
  match ← fields? ["formatting", "convert", "import"] tree with
  | [formatting, convert, imported] =>
    let tags ← match ← fields? ["tags"] formatting with
      | [.array items] => items.mapM mapping?
      | _ => none
    let format ← match ← fields? ["format"] convert with
      | [format] => text? format
      | _ => none
    match ← fields? ["status", "author"] imported with
    | [status, author] => return ⟨tags, format, ← text? status, ← word? author⟩
    | _ => none
  | _ => none

/-! ### Layering -/

/-- The built-in values. -/
def builtIn : Json :=
  .object
    [("formatting", .object [("tags", .array
        [.object [("type", .string "bold"), ("tag", .string "strong")],
          .object [("type", .string "italic"), ("tag", .string "em")]])]),
      ("convert", .object [("format", .string "blocks")]),
      ("import", .object [("status", .string "publish"), ("author", .nat 1)])]

/-- One layer. -/
inductive Layer where
  /-- A file's text, if the file is there. -/
  | file (required : Bool) (text : Option String)
  /-- A value under a path. -/
  | value (path : String) (v : Json)

/-- A tree with the files among some layers put into it, in order. -/
def putFiles (tree : Json) : List Layer → Except SettingsError Json
  | [] => .ok tree
  | .file _ (some text) :: layers =>
    match Toml.parse? text with
    | none => .error .malformedFile
    | some fields => putFiles (putLayer fields tree) layers
  | .file true none :: _ => .error .missingFile
  | .file false none :: layers => putFiles tree layers
  | .value _ _ :: layers => putFiles tree layers

/-- A tree with the single values among some layers put into it, in order. -/
def putValues (tree : Json) : List Layer → Except SettingsError Json
  | [] => .ok tree
  | .value path v :: layers =>
    match pathOf? path with
    | none => .error (.malformedPath path)
    | some steps => putValues (putAt steps v tree) layers
  | .file _ _ :: layers => putValues tree layers

/-- The settings under some layers. -/
def load (layers : List Layer) : Except SettingsError Settings := do
  let tree ← putFiles builtIn layers
  let tree ← putValues tree layers
  match ofJson? tree with
  | some settings => return settings
  | none => throw .wrongType

/-- The tag table of some settings. -/
def table (s : Settings) : TagTable :=
  .ofList s.tags

end Settings

end PostBlocks
