import PostBlocks.Inline.Range

/-!
# Tag tables

A tag table says which element each kind of format is written as, outermost element first. A kind
has at most one entry, and the first one given for it counts. Kinds without an entry leave no
trace in the markup.
-/

namespace PostBlocks

/-- One entry of a tag table: formats of kind `format` are written as the element `tag`. -/
structure TagMapping where
  format : String
  tag : String
deriving DecidableEq, Repr, Inhabited

/-- A tag table, outermost element first, with one entry a kind. -/
structure TagTable where
  mappings : List TagMapping
  nodup_formats : (mappings.map (·.format)).Nodup

namespace TagTable

/-- A table with one more entry at its inner end, unless its kind has one already. -/
def push (t : TagTable) (m : TagMapping) : TagTable :=
  if h : m.format ∈ t.mappings.map (·.format) then t
  else
    { mappings := t.mappings ++ [m]
      nodup_formats := by
        rw [List.map_append, List.nodup_append]
        refine ⟨t.nodup_formats, by simp, ?_⟩
        rintro a ha b hb rfl
        simp only [List.map_cons, List.map_nil, List.mem_singleton] at hb
        exact h (hb ▸ ha) }

/-- The table with no entries. -/
def empty : TagTable :=
  ⟨[], List.nodup_nil⟩

/-- The table of the given entries, the first for each kind. -/
def ofList (ms : List TagMapping) : TagTable :=
  ms.foldl push empty

/-- Without settings, bold is `strong` and italic is `em`. -/
def standard : TagTable :=
  ofList [⟨"bold", "strong"⟩, ⟨"italic", "em"⟩]

/-- The element a kind of format is written as. -/
def tagFor? (t : TagTable) (format : String) : Option String :=
  (t.mappings.find? (·.format == format)).map (·.tag)

/-- The elements around a span, outermost first. -/
def tagsOf (t : TagTable) (s : Span) : List String :=
  (t.mappings.filter fun m ↦ s.hasFormat m.format).map (·.tag)

end TagTable

instance : Inhabited TagTable :=
  ⟨.standard⟩

end PostBlocks
