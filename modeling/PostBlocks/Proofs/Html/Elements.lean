import PostBlocks.Proofs.Html.Displays

/-!
# Reading elements with a stack

Markup of elements and text is read from left to right: an opening tag puts an element on the stack
of those that are open, a closing tag takes the top one off, which has to be the one it names, and
an entity or any other character is a character of text, inside all that is open (`placed`).

How tags are found does not depend on what is open, so markup is taken apart first (`pieces`). Text
that has been escaped comes apart into its characters (`pieces_escapeChars`); and elements that are
opened, and closed in the opposite order, stand around what is between them
(`placed_elements`).
-/

namespace PostBlocks.Html

/-- A tag or a character of text. -/
inductive Piece where
  | opening (name : String)
  | closing (name : String)
  | char (c : Char)
deriving DecidableEq, Repr

/-- The tag with this between its angle brackets. -/
def Piece.ofTag : List Char → Piece
  | '/' :: name => .closing (.ofList name)
  | name => .opening (.ofList name)

/-- The tags and characters of some markup. An entity is one character; an angle bracket that
nothing closes is a character like others. -/
def pieces : List Char → List Piece
  | '&' :: 'a' :: 'm' :: 'p' :: ';' :: cs => .char '&' :: pieces cs
  | '&' :: 'l' :: 't' :: ';' :: cs => .char '<' :: pieces cs
  | '&' :: 'g' :: 't' :: ';' :: cs => .char '>' :: pieces cs
  | '&' :: 'q' :: 'u' :: 'o' :: 't' :: ';' :: cs => .char '"' :: pieces cs
  | '&' :: '#' :: '0' :: '3' :: '9' :: ';' :: cs => .char '\'' :: pieces cs
  | c :: cs =>
    if c = '<' ∧ '>' ∈ cs then
      .ofTag (cs.takeWhile (· ≠ '>')) :: pieces (cs.dropWhile (· ≠ '>')).tail
    else .char c :: pieces cs
  | [] => []
termination_by cs => cs.length
decreasing_by
  all_goals
    have := (List.dropWhile_suffix (l := cs) (· ≠ '>')).length_le
    simp only [List.length_cons, List.length_tail]
    omega

/-- The characters among some pieces, each with the elements around it, outermost first. `stack`
holds the elements that are open, innermost first; there is no reading if one is closed that is not
on top, or if one is still open at the end. -/
def placed (stack : List String) : List Piece → Option (List (Char × List String))
  | [] => if stack = [] then some [] else none
  | .opening name :: ps => placed (name :: stack) ps
  | .closing name :: ps => if stack.head? = some name then placed stack.tail ps else none
  | .char c :: ps => (placed stack ps).map ((c, stack.reverse) :: ·)

/-- The text of some markup, each character with the elements around it, outermost first. -/
def readElements (html : String) : Option (List (Char × List String)) :=
  placed [] (pieces html.toList)

/-! ### Tags and text -/

/-- A tag ends at the first closing bracket, so it is found whole if its name has none. -/
theorem pieces_tag {name : List Char} (hname : '>' ∉ name) (cs : List Char) :
    pieces ('<' :: name ++ '>' :: cs) = .ofTag name :: pieces cs := by
  rw [List.cons_append, pieces, if_pos ⟨rfl, by simp⟩, Text.takeWhile_append_cons hname,
    Text.dropWhile_append_cons hname, List.tail_cons]
  all_goals simp

/-- Tags come apart one after another. -/
theorem pieces_tags (names : List (List Char)) (h : ∀ name ∈ names, '>' ∉ name) (cs : List Char) :
    pieces ((names.flatMap fun name ↦ '<' :: name ++ ['>']) ++ cs)
      = names.map .ofTag ++ pieces cs := by
  induction names with
  | nil => rfl
  | cons name names ih =>
    obtain ⟨hname, hnames⟩ := List.forall_mem_cons.1 h
    rw [List.flatMap_cons, List.append_assoc, List.append_assoc, List.singleton_append,
      pieces_tag hname, ih hnames, List.map_cons, List.cons_append]

theorem Piece.ofTag_toList {name : String} (h : '/' ∉ name.toList) :
    ofTag name.toList = opening name := by
  rw [ofTag.eq_2]
  · rw [String.ofList_toList]
  · intro cs hcs
    exact h (hcs ▸ List.mem_cons_self)

theorem Piece.ofTag_slash (name : String) : ofTag ('/' :: name.toList) = closing name := by
  rw [ofTag, String.ofList_toList]

/-- Escaped text comes apart into the characters of the text. -/
theorem pieces_escapeChars (cs ds : List Char) :
    pieces (escapeChars cs ++ ds) = cs.map .char ++ pieces ds := by
  have hchar (c : Char) (ds : List Char) : pieces (escapeChar c ++ ds) = .char c :: pieces ds := by
    unfold escapeChar
    split
    · show pieces ('&' :: 'a' :: 'm' :: 'p' :: ';' :: ds) = _
      rw [pieces]
    · show pieces ('&' :: 'l' :: 't' :: ';' :: ds) = _
      rw [pieces]
    · show pieces ('&' :: 'g' :: 't' :: ';' :: ds) = _
      rw [pieces]
    · show pieces ('&' :: 'q' :: 'u' :: 'o' :: 't' :: ';' :: ds) = _
      rw [pieces]
    · show pieces ('&' :: '#' :: '0' :: '3' :: '9' :: ';' :: ds) = _
      rw [pieces]
    · next hamp hlt _ _ _ =>
      -- any other character starts neither an entity nor a tag
      rw [List.singleton_append, pieces, if_neg fun h ↦ hlt h.1]
      all_goals exact fun _ heq _ ↦ hamp heq
  induction cs with
  | nil => rfl
  | cons c cs ih =>
    rw [escapeChars_cons, List.append_assoc, hchar, ih, List.map_cons, List.cons_append]

/-! ### Elements on the stack -/

/-- Opening tags put their elements on the stack, the last one on top. -/
theorem placed_opening (names stack : List String) (ps : List Piece) :
    placed stack (names.map .opening ++ ps) = placed (names.reverse ++ stack) ps := by
  induction names generalizing stack with
  | nil => rfl
  | cons name names ih =>
    rw [List.map_cons, List.cons_append, placed, ih, List.reverse_cons, List.append_assoc,
      List.singleton_append]

/-- Closing tags take the elements on top off again, in the order in which these are on the stack.
-/
theorem placed_closing (names stack : List String) (ps : List Piece) :
    placed (names ++ stack) (names.map .closing ++ ps) = placed stack ps := by
  induction names with
  | nil => rfl
  | cons name names ih =>
    rw [List.map_cons, List.cons_append, List.cons_append, placed, List.head?_cons, if_pos rfl,
      List.tail_cons, ih]

/-- Characters of text leave the stack as it is and are placed inside all of it. -/
theorem placed_char (cs : List Char) (stack : List String) (ps : List Piece) :
    placed stack (cs.map .char ++ ps)
      = (placed stack ps).map (cs.map (·, stack.reverse) ++ ·) := by
  induction cs with
  | nil => simp
  | cons c cs ih =>
    rw [List.map_cons, List.cons_append, placed, ih, Option.map_map]
    rfl

/-- Elements that are opened, and closed in the opposite order, stand around the text between. -/
theorem placed_elements (names : List String) (cs : List Char) (ps : List Piece) :
    placed [] (names.map .opening ++ (cs.map .char ++ (names.reverse.map .closing ++ ps)))
      = (placed [] ps).map (cs.map (·, names) ++ ·) := by
  rw [placed_opening, placed_char, placed_closing, List.append_nil, List.reverse_reverse]

end PostBlocks.Html
