import PostBlocks.Block.Attributes
import PostBlocks.Block.Name
import PostBlocks.Json.Node
import PostBlocks.Text.Blank

/-!
# Block delimiters

Markup marks a block with comments: an opener with the block's name and attributes, a closer with
its name, or a single void comment for a block that holds nothing. `Delimiter.write` is the written
form; `Mark.scan?` recognizes more than that: any blank characters where one is required,
attributes on a closer, the namespace `core` spelled out. A comment that is no delimiter is
literal markup. A comment that is one, but whose attributes are no JSON object, is marked as such
(`Mark.malformed`); whether that is an error is for the reader to say.

Attributes end at the first closing brace that is followed by a blank character and the end of a
comment, wherever in the rest of the text that is.
-/

namespace PostBlocks

/-- What a delimiter does. -/
inductive DelimiterKind where
  | opener
  | closer
  | void
deriving DecidableEq, Repr, Inhabited

/-- A delimiter, with the full name of its block. -/
structure Delimiter where
  kind : DelimiterKind
  name : String
  attrs : Json.Fields
deriving Repr, BEq, Inhabited

/-- What a recognized comment says. -/
inductive Mark where
  | delimiter (d : Delimiter)
  /-- A delimiter for a block of this name with unreadable attributes. -/
  | malformed (name : String)
deriving Repr, BEq, Inhabited

/-! ### Writing -/

namespace Delimiter

/-- The attributes of a delimiter with the space after them; nothing when there are none. -/
def writeAttrs (attrs : Json.Fields) : List Char :=
  if attrs.isEmpty then [] else Attributes.encodeChars attrs ++ [' ']

/-- The written form of a delimiter. -/
def write (d : Delimiter) : List Char :=
  let name := (BlockName.short d.name).toList
  match d.kind with
  | .opener => "<!-- wp:".toList ++ name ++ ' ' :: writeAttrs d.attrs ++ "-->".toList
  | .closer => "<!-- /wp:".toList ++ name ++ " -->".toList
  | .void => "<!-- wp:".toList ++ name ++ ' ' :: writeAttrs d.attrs ++ "/-->".toList

end Delimiter

/-! ### Recognizing -/

namespace Mark

/-- The start of every comment. -/
def commentOpen : List Char :=
  "<!--".toList

/-- The end of every comment. -/
def commentClose : List Char :=
  "-->".toList

/-- A slash at the front of a text, and what follows it. -/
def takeSlash : List Char → Bool × List Char
  | '/' :: cs => (true, cs)
  | cs => (false, cs)

/-- A text goes on with the end of a comment, a void one or not. -/
def endsComment (cs : List Char) : Bool :=
  commentClose.isPrefixOf cs || ('/' :: commentClose).isPrefixOf cs

/-- What follows the blank characters after the last brace of some attributes. -/
def afterAttributes? (cs : List Char) : Option (List Char) :=
  match Text.skipBlank? cs with
  | some rest => if endsComment rest then some rest else none
  | none => none

/-- The attributes at the front of a text, up to the first brace that can end them, and what
follows. -/
def splitAttributes? : List Char → Option (List Char × List Char)
  | [] => none
  | c :: cs =>
    if c = '\x7d' then
      match afterAttributes? cs with
      | some rest => some ([c], rest)
      | none => (splitAttributes? cs).map fun (json, rest) ↦ (c :: json, rest)
    else (splitAttributes? cs).map fun (json, rest) ↦ (c :: json, rest)

/-- The attributes at the front of a text if it starts with a brace. -/
def takeAttributes? (cs : List Char) : Option (Option (List Char) × List Char) :=
  match cs with
  | '\x7b' :: _ => (splitAttributes? cs).map fun (json, rest) ↦ (some json, rest)
  | _ => some (none, cs)

/-- What a delimiter with these parts says; a closer may also be written as a void. -/
def ofParts (isCloser isVoid : Bool) (name : String) (json : Option (List Char)) : Mark :=
  let kind := if isCloser then .closer else if isVoid then .void else .opener
  match json with
  | none => .delimiter ⟨kind, name, []⟩
  | some json =>
    match Json.Fields.parse? json with
    | some attrs => .delimiter ⟨kind, name, attrs⟩
    | none => .malformed name

/-- What follows a block's name and the blank characters after it. -/
def afterName? (cs : List Char) : Option (List Char) :=
  if BlockName.isWritten (cs.takeWhile BlockName.isNameChar) then
    Text.skipBlank? (cs.dropWhile BlockName.isNameChar)
  else none

/-- The delimiter at the front of a text, and what follows it. -/
def scan? (cs : List Char) : Option (Mark × List Char) := do
  let cs ← Text.after? commentOpen cs
  let cs ← Text.skipBlank? cs
  let (isCloser, cs) := takeSlash cs
  let cs ← Text.after? "wp:".toList cs
  let name := cs.takeWhile BlockName.isNameChar
  let cs ← afterName? cs
  let (json, cs) ← takeAttributes? cs
  let (isVoid, cs) := takeSlash cs
  let cs ← Text.after? commentClose cs
  return (ofParts isCloser isVoid (.ofList (BlockName.full name)) json, cs)

/-! A recognized delimiter takes some characters off the front of the text and leaves the rest as
it is. -/

/-- What is left after each part of a delimiter ends the text, so a scan goes forward. -/
theorem suffix_skipBlank? {cs rest : List Char} (h : Text.skipBlank? cs = some rest) :
    rest <:+ cs := by
  obtain ⟨c, ds, rfl, -, rfl⟩ := Text.skipBlank?_eq_some_iff.1 h
  exact (List.dropWhile_suffix _).trans (List.suffix_cons c ds)

theorem suffix_after? {lead cs rest : List Char} (h : Text.after? lead cs = some rest) :
    rest <:+ cs :=
  ⟨lead, (Text.after?_eq_some_iff.1 h).symm⟩

/-- A slash may be absent, and then nothing is taken. -/
theorem suffix_takeSlash (cs : List Char) : (takeSlash cs).2 <:+ cs := by
  unfold takeSlash
  split
  · exact List.suffix_cons _ _
  · exact List.suffix_refl _

/-- A name and the blank characters behind it. -/
theorem suffix_afterName? {cs rest : List Char} (h : afterName? cs = some rest) :
    rest <:+ cs := by
  unfold afterName? at h
  split at h
  · exact (suffix_skipBlank? h).trans (List.dropWhile_suffix _)
  · simp at h

theorem suffix_afterAttributes? {cs rest : List Char} (h : afterAttributes? cs = some rest) :
    rest <:+ cs := by
  unfold afterAttributes? at h
  split at h
  · next hs =>
    split at h
    · cases h
      exact suffix_skipBlank? hs
    · simp at h
  · simp at h

theorem suffix_splitAttributes? {cs json rest : List Char}
    (h : splitAttributes? cs = some (json, rest)) : rest <:+ cs := by
  fun_induction splitAttributes? cs generalizing json rest with
  | case1 => simp at h
  | case2 _ _ hr =>
    simp only [Option.some.injEq, Prod.mk.injEq] at h
    exact h.2 ▸ (suffix_afterAttributes? hr).trans (List.suffix_cons _ _)
  | case3 _ _ ih | case4 _ _ _ ih =>
    simp only [Option.map_eq_some_iff, Prod.mk.injEq] at h
    obtain ⟨⟨_, _⟩, hs, _, rfl⟩ := h
    exact (ih hs).trans (List.suffix_cons _ _)

theorem suffix_takeAttributes? {cs rest : List Char} {json : Option (List Char)}
    (h : takeAttributes? cs = some (json, rest)) : rest <:+ cs := by
  unfold takeAttributes? at h
  split at h
  · simp only [Option.map_eq_some_iff, Prod.mk.injEq] at h
    obtain ⟨⟨_, _⟩, hs, _, rfl⟩ := h
    exact suffix_splitAttributes? hs
  · simp_all

/-- What follows a delimiter is the end of the text, and the delimiter is not empty. -/
theorem suffix_scan? {cs rest : List Char} {m : Mark} (h : scan? cs = some (m, rest)) :
    ∃ taken, taken ≠ [] ∧ cs = taken ++ rest := by
  simp only [scan?, bind, Option.bind_eq_some_iff, pure, Option.some.injEq, Prod.mk.injEq] at h
  obtain ⟨c₁, h₁, c₂, h₂, c₃, h₃, c₄, h₄, ⟨_, c₅⟩, h₅, c₆, h₆, _, rfl⟩ := h
  have hs : c₆ <:+ c₁ :=
    (suffix_after? h₆).trans <| (suffix_takeSlash _).trans <| (suffix_takeAttributes? h₅).trans <|
      (suffix_afterName? h₄).trans <| (suffix_after? h₃).trans <| (suffix_takeSlash _).trans <|
      suffix_skipBlank? h₂
  obtain ⟨t, rfl⟩ := hs
  refine ⟨commentOpen ++ t, by simp [commentOpen], ?_⟩
  simpa using Text.after?_eq_some_iff.1 h₁

end Mark

end PostBlocks
