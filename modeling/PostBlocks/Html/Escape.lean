/-!
# HTML text and its entities

Five characters mean something in markup and are written as entities: `escape` writes them,
`unescape` reads them back. Reading goes left to right and takes each entity once, so what an
entity stands for is never read a second time; an ampersand that starts none of the five stays as
it is. `breaks` writes line feeds as `br` elements.

Each function comes on lists of characters, where it is reasoned about, and on strings, where it
is used.
-/

namespace PostBlocks.Html

/-- The written form of one character of text. -/
def escapeChar : Char → List Char
  | '&' => "&amp;".toList
  | '<' => "&lt;".toList
  | '>' => "&gt;".toList
  | '"' => "&quot;".toList
  | '\'' => "&#039;".toList
  | c => [c]

/-- Text written so that it can stand in markup or inside a double-quoted attribute. -/
def escapeChars (cs : List Char) : List Char :=
  cs.flatMap escapeChar

/-- Markup with its five entities read, left to right, each once. -/
def unescapeChars : List Char → List Char
  | '&' :: 'a' :: 'm' :: 'p' :: ';' :: cs => '&' :: unescapeChars cs
  | '&' :: 'l' :: 't' :: ';' :: cs => '<' :: unescapeChars cs
  | '&' :: 'g' :: 't' :: ';' :: cs => '>' :: unescapeChars cs
  | '&' :: 'q' :: 'u' :: 'o' :: 't' :: ';' :: cs => '"' :: unescapeChars cs
  | '&' :: '#' :: '0' :: '3' :: '9' :: ';' :: cs => '\'' :: unescapeChars cs
  | c :: cs => c :: unescapeChars cs
  | [] => []

/-- The written form of one character once line feeds are elements. -/
def breakChar (c : Char) : List Char :=
  if c = '\n' then "<br>".toList else [c]

/-- Markup with every line feed written as a `br` element. -/
def breakChars (cs : List Char) : List Char :=
  cs.flatMap breakChar

/-- `escapeChars` on strings. -/
def escape (text : String) : String :=
  .ofList (escapeChars text.toList)

/-- `unescapeChars` on strings. -/
def unescape (html : String) : String :=
  .ofList (unescapeChars html.toList)

/-- `breakChars` on strings. -/
def breaks (html : String) : String :=
  .ofList (breakChars html.toList)

@[simp]
theorem escapeChars_cons (c : Char) (cs : List Char) :
    escapeChars (c :: cs) = escapeChar c ++ escapeChars cs :=
  rfl

@[simp]
theorem breakChars_append (cs ds : List Char) :
    breakChars (cs ++ ds) = breakChars cs ++ breakChars ds := by
  simp [breakChars]

/-- What is shown of lists of characters holds of strings through this. -/
@[simp]
theorem toList_escape (text : String) : (escape text).toList = escapeChars text.toList := by
  simp [escape]

end PostBlocks.Html
