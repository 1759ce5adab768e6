/-!
# Slugs

A slug names a page in an address: the letters, digits and low lines of the page's path, in lower
case, with one hyphen for each run of other characters between them. Letters and digits are those of
ASCII.
-/

namespace PostBlocks.Slug

/-- A character that a slug keeps. -/
def isKept (c : Char) : Bool :=
  c.isAlphanum || c == '_'

/-- One more character of the path, at the end of a slug. -/
def push (slug : List Char) (c : Char) : List Char :=
  if isKept c then slug ++ [c.toLower]
  else if slug.getLast? = some '-' then slug
  else slug ++ ['-']

/-- A text without the hyphens at its ends. -/
def trimHyphens (cs : List Char) : List Char :=
  ((cs.dropWhile (· == '-')).reverse.dropWhile (· == '-')).reverse

/-- The slug of a path, as characters. -/
def ofChars (path : List Char) : List Char :=
  trimHyphens (path.foldl push [])

/-- The slug of a path. -/
def ofPath (path : String) : String :=
  .ofList (ofChars path.toList)

end PostBlocks.Slug
