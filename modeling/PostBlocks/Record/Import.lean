import PostBlocks.Record.Basic

/-!
# Imports

A response holds many posts under `response` and `posts`, or many pages under `pages`, by itself or
under `response`. Each entry is converted on its own, so one that fails leaves the others alone; a
response of another shape fails as a whole.
-/

namespace PostBlocks

namespace Record

/-- The array under a path of keys. -/
def arrayAt? (path : List String) (v : Json) : Option (List Json) :=
  (path.foldl (fun v key ↦ v.bind (Json.get? key)) (some v)).bind Json.array?

/-- The posts of a response. -/
def posts (source : String) : Except ConvertError (List Json) :=
  match Json.parse? source with
  | none => .error (.malformed .unreadable)
  | some v =>
    match arrayAt? ["response", "posts"] v with
    | none => .error (.malformed .noPosts)
    | some entries => .ok entries

/-- The pages of a response; `pages` at the top wins, whatever it holds. -/
def pages (source : String) : Except ConvertError (List Json) :=
  match Json.parse? source with
  | none => .error (.malformed .unreadable)
  | some v =>
    let path := if (v.get? "pages").isSome then ["pages"] else ["response", "pages"]
    match arrayAt? path v with
    | none => .error (.malformed .noPages)
    | some entries => .ok entries

end Record

/-- The records of a response's posts, or why one has none. -/
def PostRecord.importAll (defaults : RecordDefaults) (table : TagTable) (source : String) :
    Except ConvertError (List (Except ConvertError PostRecord)) :=
  (Record.posts source).map (·.map (PostRecord.ofJson defaults table))

/-- The records of a response's pages, or why one has none. -/
def PageRecord.importAll (defaults : RecordDefaults) (table : TagTable) (source : String) :
    Except ConvertError (List (Except ConvertError PageRecord)) :=
  (Record.pages source).map (·.map (PageRecord.ofJson defaults table))

end PostBlocks
