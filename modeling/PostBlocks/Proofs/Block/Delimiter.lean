import PostBlocks.Block.Delimiter
import PostBlocks.Proofs.Block.Attributes
import PostBlocks.Proofs.Block.Name

/-!
# Written delimiters read back

A written delimiter is recognized at the front of a text, whatever follows it, and it ends where it
was written to end (`scan?_comment`, `scan?_write`). The delicate part is the end of the attributes:
it is the first brace that a blank character and the end of a comment follow, and the text of
attributes has no such brace but its last, since it has no `>`. So inside of any source, a written
delimiter is found at its place, whole and alone (`scanAt?_comment`).

Recognizing falls into two halves, which this module keeps apart: what is read up to the attributes
(`header?`), and the attributes with the end of the comment (`footer?`).
-/

namespace PostBlocks

namespace Mark

/-! ### The two halves of a delimiter -/

/-- What is read of a delimiter in front of its attributes: whether it is a closer, the written
name, and what follows. -/
def header? (cs : List Char) : Option (Bool × List Char × List Char) := do
  let cs ← Text.after? commentOpen cs
  let cs ← Text.skipBlank? cs
  let (isCloser, cs) := takeSlash cs
  let cs ← Text.after? "wp:".toList cs
  let rest ← afterName? cs
  return (isCloser, cs.takeWhile BlockName.isNameChar, rest)

/-- What is read of a delimiter from its attributes on: the attributes, whether it is a void, and
what follows. -/
def footer? (cs : List Char) : Option (Option (List Char) × Bool × List Char) := do
  let (json, cs) ← takeAttributes? cs
  let (isVoid, cs) := takeSlash cs
  let cs ← Text.after? commentClose cs
  return (json, isVoid, cs)

/-- The front of a text is read in two halves, before the attributes and from these on. The lemmas
about delimiters come in pairs for this reason. -/
theorem scan?_eq (cs : List Char) :
    scan? cs = (header? cs).bind fun (isCloser, name, rest) ↦
      (footer? rest).map fun (json, isVoid, after) ↦
        (ofParts isCloser isVoid (.ofList (BlockName.full name)) json, after) := by
  simp only [scan?, header?, footer?, Option.bind_eq_bind, Option.bind_assoc, pure,
    Option.bind_some, Option.map_bind, Function.comp_def, Option.map_some]

theorem scan?_of_parts {cs rest after name : List Char} {isCloser isVoid : Bool}
    {json : Option (List Char)} (h : header? cs = some (isCloser, name, rest))
    (h' : footer? rest = some (json, isVoid, after)) :
    scan? cs = some (ofParts isCloser isVoid (.ofList (BlockName.full name)) json, after) := by
  simp only [scan?_eq, h, Option.bind_some, h', Option.map_some]

/-! ### Up to the attributes -/

theorem after?_append (lead cs : List Char) : Text.after? lead (lead ++ cs) = some cs :=
  Text.after?_eq_some_iff.2 rfl

/-- The slash of a closer or a void, where there is one. -/
def slash (isThere : Bool) : List Char :=
  if isThere then ['/'] else []

theorem takeSlash_slash {c : Char} (h : c ≠ '/') (isThere : Bool) (cs : List Char) :
    takeSlash (slash isThere ++ c :: cs) = (isThere, c :: cs) := by
  cases isThere with
  | true => rfl
  | false =>
    show takeSlash (c :: cs) = _
    rw [takeSlash]
    rintro _ heq
    exact h (List.cons.inj heq).1

theorem isBlank_head?_slash {c : Char} (h : Text.isBlank c = false) (isThere : Bool)
    (cs : List Char) : ∀ d ∈ (slash isThere ++ c :: cs).head?, Text.isBlank d = false := by
  cases isThere with
  | true => rintro _ ⟨⟩; decide
  | false => rintro _ ⟨⟩; exact h

/-- A single blank character is skipped. -/
theorem skipBlank?_space {cs : List Char} (h : ∀ c ∈ cs.head?, Text.isBlank c = false) :
    Text.skipBlank? (' ' :: cs) = some cs := by
  rw [Text.skipBlank?, if_pos (by decide)]
  cases cs with
  | nil => rfl
  | cons c cs => rw [List.dropWhile_cons_of_neg (by simp [h c rfl])]

/-- The name of a delimiter is read up to the space behind it. -/
theorem header?_write {name cs : List Char} (isCloser : Bool)
    (hname : BlockName.isWritten name = true)
    (hchars : ∀ c ∈ name, BlockName.isNameChar c = true)
    (hcs : ∀ c ∈ cs.head?, Text.isBlank c = false) :
    header? ("<!-- ".toList ++ slash isCloser ++ "wp:".toList ++ name ++ ' ' :: cs)
      = some (isCloser, name, cs) := by
  have htake : (name ++ ' ' :: cs).takeWhile BlockName.isNameChar = name := by
    rw [List.takeWhile_append_of_pos hchars, List.takeWhile_cons_of_neg (by decide),
      List.append_nil]
  have hdrop : (name ++ ' ' :: cs).dropWhile BlockName.isNameChar = ' ' :: cs := by
    rw [List.dropWhile_append_of_pos hchars, List.dropWhile_cons_of_neg (by decide)]
  have hafter : afterName? (name ++ ' ' :: cs) = some cs := by
    rw [afterName?, htake, if_pos hname, hdrop, skipBlank?_space hcs]
  have hopen : "<!-- ".toList ++ slash isCloser ++ "wp:".toList ++ name ++ ' ' :: cs
      = commentOpen ++ ' ' :: (slash isCloser ++ 'w' :: ("p:".toList ++ (name ++ ' ' :: cs))) := by
    simp [commentOpen]
  have hwp : Text.after? "wp:".toList ('w' :: ("p:".toList ++ (name ++ ' ' :: cs)))
      = some (name ++ ' ' :: cs) := after?_append _ _
  have hw : Text.isBlank 'w' = false := by decide
  simp only [header?, hopen, after?_append, skipBlank?_space (isBlank_head?_slash hw _ _),
    takeSlash_slash (show 'w' ≠ '/' by decide), hwp, hafter, htake, Option.bind_eq_bind,
    Option.bind_some, pure]

/-! ### From the attributes on -/

theorem takeAttributes?_of_head? {cs : List Char} (h : cs.head? ≠ some '{') :
    takeAttributes? cs = some (none, cs) := by
  unfold takeAttributes?
  split
  · exact absurd rfl h
  · rfl

/-- A text without `>` and without the brace that follows it does not end a comment. -/
theorem not_prefix_of_not_mem {lead ds es : List Char} (hlead : '>' ∈ lead) (hbrace : '}' ∉ lead)
    (hds : '>' ∉ ds) : ¬lead <+: ds ++ '}' :: es := by
  induction lead generalizing ds with
  | nil => cases hlead
  | cons l lead ih =>
    intro h
    cases ds with
    | nil =>
      rw [List.nil_append, List.cons_prefix_cons] at h
      exact hbrace (h.1 ▸ List.mem_cons_self)
    | cons d ds =>
      rw [List.cons_append, List.cons_prefix_cons] at h
      rcases List.mem_cons.1 hlead with hl | hl
      · exact hds (hl ▸ h.1 ▸ List.mem_cons_self)
      · exact ih hl (fun hmem ↦ hbrace (List.mem_cons_of_mem _ hmem))
          (fun hmem ↦ hds (List.mem_cons_of_mem _ hmem)) h.2

/-- No brace can end attributes as long as another brace comes before the next `>`. -/
theorem afterAttributes?_append {ds es : List Char} (hds : '>' ∉ ds) :
    afterAttributes? (ds ++ '}' :: es) = none := by
  have hskip : ∀ rest, Text.skipBlank? (ds ++ '}' :: es) = some rest →
      ∃ fs, rest = fs ++ '}' :: es ∧ '>' ∉ fs := by
    intro rest h
    refine ⟨ds.dropWhile Text.isBlank, ?_, fun hmem ↦ hds (List.dropWhile_suffix _ |>.subset hmem)⟩
    cases ds with
    | nil => simp [Text.skipBlank?, show Text.isBlank '}' = false by decide] at h
    | cons d ds =>
      simp only [List.cons_append, Text.skipBlank?, Option.ite_none_right_eq_some,
        Option.some.injEq] at h
      rw [← h.2, List.dropWhile_cons_of_pos h.1, List.dropWhile_append]
      split
      · next hnil =>
        rw [List.dropWhile_cons_of_neg (by decide), List.isEmpty_iff.1 hnil, List.nil_append]
      · rfl
  unfold afterAttributes?
  split
  · next rest h =>
    obtain ⟨fs, rfl, hfs⟩ := hskip rest h
    have hclose : commentClose.isPrefixOf (fs ++ '}' :: es) = false := by
      rw [Bool.eq_false_iff, ne_eq, List.isPrefixOf_iff_prefix]
      exact not_prefix_of_not_mem (by decide) (by decide) hfs
    have hvoid : ('/' :: commentClose).isPrefixOf (fs ++ '}' :: es) = false := by
      rw [Bool.eq_false_iff, ne_eq, List.isPrefixOf_iff_prefix]
      exact not_prefix_of_not_mem (by decide) (by decide) hfs
    rw [if_neg (by simp [endsComment, hclose, hvoid])]
  · rfl

/-- A text without `>` in front of a brace that ends attributes belongs to the attributes. -/
theorem splitAttributes?_append {ds es rest : List Char} (hds : '>' ∉ ds)
    (h : afterAttributes? es = some rest) :
    splitAttributes? (ds ++ '}' :: es) = some (ds ++ ['}'], rest) := by
  induction ds with
  | nil => simp [splitAttributes?, h]
  | cons d ds ih =>
    have hds' : '>' ∉ ds := fun hmem ↦ hds (List.mem_cons_of_mem _ hmem)
    rw [List.cons_append, splitAttributes?, afterAttributes?_append hds', ih hds', Option.map_some]
    simp

/-- The end of the comment of a delimiter, and what follows it. -/
def ending (isVoid : Bool) (rest : List Char) : List Char :=
  slash isVoid ++ "-->".toList ++ rest

theorem isBlank_head?_ending (isVoid : Bool) (rest : List Char) :
    ∀ c ∈ (ending isVoid rest).head?, Text.isBlank c = false := by
  cases isVoid <;> (rintro c ⟨⟩; decide)

/-- Without attributes, a comment ends behind the name. -/
theorem footer?_ending (isVoid : Bool) (rest : List Char) :
    footer? (ending isVoid rest) = some (none, isVoid, rest) := by
  cases isVoid <;> rfl

/-- The attributes of a written delimiter are read whole, and the comment ends behind them. -/
theorem footer?_encodeChars {attrs : Json.Fields} (h : (Json.object attrs).HasWordNumbers)
    (isVoid : Bool) (rest : List Char) :
    footer? (Attributes.encodeChars attrs ++ ' ' :: ending isVoid rest)
      = some (some (Attributes.encodeChars attrs), isVoid, rest) := by
  obtain ⟨cs, hcs⟩ := Attributes.encodeChars_eq_braces h
  have hgt : '>' ∉ '{' :: cs := fun hmem ↦
    Attributes.forall_mem_encodeChars h '>' (hcs ▸ List.mem_append_left _ hmem) (by decide)
  have hafter : afterAttributes? (' ' :: ending isVoid rest) = some (ending isVoid rest) := by
    rw [afterAttributes?, skipBlank?_space (isBlank_head?_ending isVoid rest)]
    cases isVoid <;> rfl
  -- the last brace of the attributes is the first that ends them
  have hsplit := splitAttributes?_append hgt hafter
  have htake : takeAttributes? (Attributes.encodeChars attrs ++ ' ' :: ending isVoid rest)
      = some (some (Attributes.encodeChars attrs), ending isVoid rest) := by
    rw [hcs, List.append_assoc, List.singleton_append, List.cons_append, takeAttributes?,
      ← List.cons_append, hsplit, Option.map_some]
  rw [footer?, htake]
  cases isVoid <;> rfl

/-! ### Written delimiters -/

/-- The comment of a delimiter with a written name, and with attributes or without. A closer has a
slash in front of its name, a void has one at its end. -/
def comment (kind : DelimiterKind) (name : List Char) (attrs : Option Json.Fields) : List Char :=
  "<!-- ".toList ++ slash (kind = .closer) ++ "wp:".toList ++ name
    ++ ' ' :: (attrs.elim [] (fun fs ↦ Attributes.encodeChars fs ++ [' '])
      ++ slash (kind = .void) ++ "-->".toList)

/-- A comment with its parts in the order in which they are read. -/
theorem comment_append (kind : DelimiterKind) (name : List Char) (attrs : Option Json.Fields)
    (rest : List Char) :
    comment kind name attrs ++ rest
      = "<!-- ".toList ++ slash (kind = .closer) ++ "wp:".toList ++ name
        ++ ' ' :: (attrs.elim [] (fun fs ↦ Attributes.encodeChars fs ++ [' '])
          ++ ending (kind = .void) rest) := by
  show "<!-- ".toList ++ slash (kind = .closer) ++ "wp:".toList ++ name
    ++ ' ' :: (attrs.elim [] (fun fs ↦ Attributes.encodeChars fs ++ [' '])
      ++ slash (kind = .void) ++ "-->".toList) ++ rest = _
  simp only [ending, List.append_assoc, List.cons_append]

section

variable {attrs : Option Json.Fields}

/-- The attributes of a delimiter, if it has any, and the end of its comment. -/
theorem footer?_elim (h : ∀ fs ∈ attrs, (Json.object fs).HasWordNumbers) (isVoid : Bool)
    (rest : List Char) :
    footer? (attrs.elim [] (fun fs ↦ Attributes.encodeChars fs ++ [' ']) ++ ending isVoid rest)
      = some (attrs.map Attributes.encodeChars, isVoid, rest) := by
  cases attrs with
  | none => exact footer?_ending isVoid rest
  | some fs =>
    rw [Option.elim_some, List.append_assoc, List.singleton_append,
      footer?_encodeChars (h fs rfl), Option.map_some]

/-- The parts of a written comment are those of its delimiter: attributes that are written are read
back, and none are read where none are written. -/
theorem ofParts_map (h : ∀ fs ∈ attrs, Attributes.IsRepresentable fs) (isCloser isVoid : Bool)
    (name : String) :
    ofParts isCloser isVoid name (attrs.map Attributes.encodeChars)
      = .delimiter ⟨if isCloser then .closer else if isVoid then .void else .opener, name,
        attrs.getD []⟩ := by
  cases attrs with
  | none => rfl
  | some fs => simp only [ofParts, Option.map_some, Attributes.parse?_encodeChars (h fs rfl),
      Option.getD_some]

/-- What follows the name of a delimiter does not start with a blank character. -/
theorem isBlank_head?_elim (h : ∀ fs ∈ attrs, (Json.object fs).HasWordNumbers) (isVoid : Bool)
    (rest : List Char) :
    ∀ c ∈ (attrs.elim [] (fun fs ↦ Attributes.encodeChars fs ++ [' '])
      ++ ending isVoid rest).head?, Text.isBlank c = false := by
  cases attrs with
  | none => exact isBlank_head?_ending isVoid rest
  | some fs =>
    obtain ⟨cs, hcs⟩ := Attributes.encodeChars_eq_braces (h fs rfl)
    rw [Option.elim_some, hcs]
    rintro c ⟨⟩
    decide

/-- The comment of a delimiter is read as it was written, and it ends where it was written to
end. -/
theorem scan?_comment {name : List Char} (hname : BlockName.isWritten name = true)
    (hchars : ∀ c ∈ name, BlockName.isNameChar c = true)
    (h : ∀ fs ∈ attrs, Attributes.IsRepresentable fs) (kind : DelimiterKind) (rest : List Char) :
    scan? (comment kind name attrs ++ rest)
      = some (.delimiter ⟨kind, .ofList (BlockName.full name), attrs.getD []⟩, rest) := by
  have hwords : ∀ fs ∈ attrs, (Json.object fs).HasWordNumbers := fun fs hfs ↦ (h fs hfs).words
  have hheader := header?_write (kind = .closer) hname hchars
    (isBlank_head?_elim hwords (kind = .void) rest)
  have hfooter := footer?_elim hwords (kind = .void) rest
  rw [comment_append, scan?_of_parts hheader hfooter, ofParts_map h]
  cases kind <;> rfl

end

/-- What is written for a delimiter is such a comment; a closer has no attributes there. -/
theorem write_eq_comment (d : Delimiter) (h : d.kind = .closer → d.attrs = []) :
    d.write = comment d.kind (BlockName.short d.name).toList
      (if d.attrs.isEmpty then none else some d.attrs) := by
  obtain ⟨kind, name, attrs⟩ := d
  rw [← List.append_nil (comment ..), comment_append]
  cases attrs with
  | nil => cases kind <;> simp [Delimiter.write, Delimiter.writeAttrs, ending, slash]
  | cons f fs =>
    have hkind : kind ≠ .closer := fun heq ↦ List.cons_ne_nil f fs (h heq)
    cases kind <;> simp_all [Delimiter.write, Delimiter.writeAttrs, ending, slash]

/-- A delimiter is read as it was written. -/
theorem scan?_write {d : Delimiter} (hname : BlockName.IsFull d.name.toList)
    (hattrs : Attributes.IsRepresentable d.attrs) (hcloser : d.kind = .closer → d.attrs = [])
    (rest : List Char) : scan? (d.write ++ rest) = some (.delimiter d, rest) := by
  obtain ⟨hfull, hwritten, hchars⟩ := BlockName.full_short hname
  rw [write_eq_comment d hcloser, scan?_comment hwritten hchars, hfull, String.ofList_toList]
  · split
    · next hempty => rw [Option.getD_none, ← List.isEmpty_iff.1 hempty]
    · rfl
  · intro fs hfs
    split at hfs
    · cases hfs
    · cases hfs
      exact hattrs

end Mark

/-! ### Delimiters inside a source -/

/-- What is left of a text behind a number of bytes. -/
def Text.dropBytes : Nat → List Char → List Char
  | 0, cs => cs
  | _ + 1, [] => []
  | n + 1, c :: cs => dropBytes (n + 1 - c.utf8Size) cs

/-- A number of bytes that ends a stretch of characters leads behind that stretch. -/
theorem Text.dropBytes_byteSize (cs ds : List Char) : dropBytes (byteSize cs) (cs ++ ds) = ds := by
  induction cs with
  | nil => rw [byteSize_nil, dropBytes, List.nil_append]
  | cons c cs ih =>
    obtain ⟨n, hn⟩ : ∃ n, byteSize (c :: cs) = n + 1 :=
      Nat.exists_eq_succ_of_ne_zero (by have := c.utf8Size_pos; rw [byteSize_cons]; omega)
    have hrest : n + 1 - c.utf8Size = byteSize cs := by
      rw [← hn, byteSize_cons, Nat.add_sub_cancel_left]
    rw [hn, List.cons_append, dropBytes, hrest, ih]

/-- The delimiter at a place of a source, and the place where it ends; places count bytes. -/
def Mark.scanAt? (source : List Char) (start : Nat) : Option (Mark × Nat) :=
  (scan? (Text.dropBytes start source)).map fun (mark, rest) ↦
    (mark, Text.byteSize source - Text.byteSize rest)

/-- The comment of a delimiter is read whole and alone: with any text in front of it and any text
behind it, it is a delimiter of its kind, with the full name and the same attributes, and it ends at
its own end. -/
theorem Mark.scanAt?_comment {name : List Char} {attrs : Option Json.Fields}
    (hname : BlockName.IsPart name ∨ BlockName.IsFull name)
    (hattrs : ∀ fs ∈ attrs, Attributes.IsRepresentable fs) (kind : DelimiterKind)
    (before after : List Char) :
    scanAt? (before ++ comment kind name attrs ++ after) (Text.byteSize before)
      = some (.delimiter ⟨kind, .ofList (BlockName.full name), attrs.getD []⟩,
        Text.byteSize (before ++ comment kind name attrs)) := by
  have hwritten : BlockName.isWritten name = true :=
    hname.elim BlockName.isWritten_of_isPart BlockName.isWritten_of_isFull
  have hchars : ∀ c ∈ name, BlockName.isNameChar c = true :=
    hname.elim BlockName.IsPart.isNameChar BlockName.IsFull.isNameChar
  have hend : Text.byteSize (before ++ comment kind name attrs ++ after) - Text.byteSize after
      = Text.byteSize (before ++ comment kind name attrs) := by
    rw [Text.byteSize_append, Nat.add_sub_cancel]
  rw [scanAt?, List.append_assoc, Text.dropBytes_byteSize,
    scan?_comment hwritten hchars hattrs kind after, ← List.append_assoc, ← hend]
  rfl

/-- Braces and ends of comments, in a string of the attributes as well as behind the delimiter, do
not move its end. -/
theorem Mark.scanAt?_comment_brace :
    scanAt? "é<!-- wp:quote \x7b\"a\":\"\x7d \\u002d\\u002d\\u003e\"\x7d -->\x7d -->".toList 2
      = some (.delimiter ⟨.opener, "core/quote", [("a", .string "\x7d -->")]⟩, 48) := by
  have hattrs : Attributes.IsRepresentable [("a", .string "\x7d -->")] :=
    Attributes.isRepresentable_of_flat (by decide) (List.forall_mem_singleton.2 ⟨trivial, rfl⟩)
  have hcomment : comment .opener "quote".toList (some [("a", .string "\x7d -->")])
      = "<!-- wp:quote \x7b\"a\":\"\x7d \\u002d\\u002d\\u003e\"\x7d -->".toList := by
    rw [← List.append_nil (comment ..), comment_append, Option.elim_some,
      Attributes.encodeChars_eq_compactWith hattrs.words]
    rfl
  have hscan := scanAt?_comment (.inl (by decide : BlockName.IsPart "quote".toList))
    (fun _ heq ↦ Option.some.inj heq ▸ hattrs) .opener "é".toList "\x7d -->".toList
  have hsource : "é".toList
      ++ "<!-- wp:quote \x7b\"a\":\"\x7d \\u002d\\u002d\\u003e\"\x7d -->".toList
      ++ "\x7d -->".toList
      = "é<!-- wp:quote \x7b\"a\":\"\x7d \\u002d\\u002d\\u003e\"\x7d -->\x7d -->".toList := by
    decide
  have hname : BlockName.full "quote".toList = "core/quote".toList := by decide
  have hbefore : Text.byteSize "é".toList = 2 := by decide
  have hend : Text.byteSize ("é".toList
      ++ "<!-- wp:quote \x7b\"a\":\"\x7d \\u002d\\u002d\\u003e\"\x7d -->".toList) = 48 := by
    decide
  rwa [hcomment, hsource, hbefore, hend, hname, Option.getD_some, String.ofList_toList] at hscan

end PostBlocks
