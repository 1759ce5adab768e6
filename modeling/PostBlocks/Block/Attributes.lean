import PostBlocks.Json.Printer

/-!
# Attributes inside a comment

Attributes stand inside an HTML comment as compact JSON, so their text must not end the comment or
look like markup. `shield` rewrites such a text: a pair of hyphens, angle brackets, ampersands and
escaped quotes become `\u` escapes, which read back as the same characters. All else stays as it
is, slashes and characters beyond ASCII among it.
-/

namespace PostBlocks.Attributes

/-- A JSON text rewritten to be safe inside a comment. -/
def shield : List Char → List Char
  | '\\' :: '"' :: cs => "\\u0022".toList ++ shield cs
  | '\\' :: c :: cs => '\\' :: c :: shield cs
  | '-' :: '-' :: cs => "\\u002d\\u002d".toList ++ shield cs
  | '<' :: cs => "\\u003c".toList ++ shield cs
  | '>' :: cs => "\\u003e".toList ++ shield cs
  | '&' :: cs => "\\u0026".toList ++ shield cs
  | c :: cs => c :: shield cs
  | [] => []

/-- Attributes as they stand in a comment. -/
def encodeChars (attrs : Json.Fields) : List Char :=
  shield (Json.object attrs).compactChars

/-- `encodeChars` as a string. -/
def encode (attrs : Json.Fields) : String :=
  .ofList (encodeChars attrs)

end PostBlocks.Attributes
