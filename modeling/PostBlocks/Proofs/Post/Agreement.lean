import PostBlocks.Proofs.Json.Double
import PostBlocks.Proofs.Json.Faithful
import PostBlocks.Proofs.Post.Convert
import PostBlocks.Proofs.Record.Fields

/-!
# Posts as texts and as values

A post is decoded from a text or from a value, and both decoders read a tree with the same readers.
The trees differ: that of a text may have parts that no value has, and its doubles are read afresh.
The readers of posts are faithful, from formatting ranges and media up to the list of content blocks
(`Post.faithful_map_rawBlocks?`), so they read from a value what they read from any tree that
presents it. A text with a value is such a tree, and the compact text of a value and the value are
such trees of each other: the two decoders agree (`Post.decode_agrees`).

Two places ask for more than faithful fields. Media are tried as a list first and as one descriptor
then; the two never both succeed (`Media.listOf?_eq_none`). And the content of a content block is
kept as a value, of which the trees share no more than whether it is a text
(`RawBlock.variantAt_congr`).
-/

namespace PostBlocks

open Json (Node)
open Json.Node (Faithful faithful_fields? faithful_string? faithful_unsigned?)

/-! ### Faithful records -/

theorem FormatRange.faithful_ofNode? : Faithful FormatRange.ofNode? := by
  refine faithful_fields? fun ms vs r hrel hread ↦ ?_
  split at hread
  · next start stop kind =>
    simp only [Option.bind_eq_bind, Option.bind_eq_some_iff, pure, Option.some.injEq] at hread
    obtain ⟨i, hi, j, hj, k, hk, rfl⟩ := hread
    obtain _ | ⟨hstart, _ | ⟨hstop, _ | ⟨hkind, ⟨⟩⟩⟩⟩ := hrel
    simp only [List.map_cons, List.map_nil]
    rw [faithful_unsigned?.required? hstart hi,
      faithful_unsigned?.required? hstop hj,
      faithful_string?.required? hkind hk]
    rfl
  · cases hread

theorem Media.faithful_ofNode? : Faithful Media.ofNode? := by
  refine faithful_fields? fun ms vs m hrel hread ↦ ?_
  split at hread
  · next url width height =>
    simp only [Option.bind_eq_bind, Option.bind_eq_some_iff, pure, Option.some.injEq] at hread
    obtain ⟨i, hi, j, hj, k, hk, rfl⟩ := hread
    obtain _ | ⟨hurl, _ | ⟨hwidth, _ | ⟨hheight, ⟨⟩⟩⟩⟩ := hrel
    simp only [List.map_cons, List.map_nil]
    rw [faithful_string?.optional? hurl hi,
      faithful_unsigned?.optional? hwidth hj,
      faithful_unsigned?.optional? hheight hk]
    rfl
  · cases hread

/-- What may stand for the address of a descriptor is none itself. -/
theorem Media.ofNode?_of_optional? {v : Node} {url : Option String}
    (h : Node.optional? Node.string? (some v) = some url) : Media.ofNode? v = none := by
  cases v with
  | null | string => rfl
  | _ => cases h

/-- One descriptor is no list of descriptors: it is an object, or an array that starts with its
address. -/
theorem Media.listOf?_eq_none {v : Node} {m : Media} (h : Media.ofNode? v = some m) :
    v.listOf? Media.ofNode? = none := by
  cases v with
  | array items =>
    simp only [ofNode?, Option.bind_eq_bind, Option.bind_eq_some_iff] at h
    obtain ⟨ms, hms, h⟩ := h
    rw [Node.fields?, Option.ite_none_right_eq_some, Option.some.injEq] at hms
    obtain ⟨-, rfl⟩ := hms
    cases items with
    | nil => cases h
    | cons item items =>
      split at h
      · next hitems =>
        obtain ⟨rfl, -⟩ := List.cons_eq_cons.1 hitems
        obtain ⟨_, hurl, -⟩ := Option.bind_eq_some_iff.1 h
        rw [Node.listOf?, List.mapM_cons, ofNode?_of_optional? hurl]
        rfl
      · cases h
  | _ => rfl

/-- A list of media presents a list and no descriptor, so both are read in the same way. -/
theorem Media.faithful_listOfNode? : Faithful Media.listOfNode? := by
  intro n v media h hread
  rw [Media.listOfNode?, Option.ite_none_right_eq_some, Option.or_eq_some_iff] at hread
  rw [Media.listOfNode?, if_pos (Json.Node.isUsable_toNode v)]
  rcases hread.2 with hlist | ⟨-, hone⟩
  · rw [faithful_ofNode?.listOf? h hlist, Option.some_or]
  · obtain ⟨m, hm, rfl⟩ := Option.map_eq_some_iff.1 hone
    have hm := faithful_ofNode? h hm
    rw [listOf?_eq_none hm, hm]
    rfl

/-- The variant of a content block, wherever the block stands. -/
def RawBlock.variantAt (b : RawBlock) (index : Nat) : Except ConvertError SourceBlock :=
  b.classify index

/-- A variant depends on no more of the content than its text. -/
theorem RawBlock.variantAt_congr {b : RawBlock} {content : Option Json}
    (h : content.map Json.string? = b.content.map Json.string?) :
    { b with content }.variantAt = b.variantAt := by
  have hbind : content.bind Json.string? = b.content.bind Json.string? := by
    simpa [Option.bind_map, Function.comp_def] using congrArg (·.bind id) h
  funext index
  simp only [variantAt, classify, hbind]

/-- A content block is read faithfully as far as its variant goes. -/
theorem RawBlock.faithful_map_variantAt :
    Faithful fun n ↦ (RawBlock.ofNode? n).map RawBlock.variantAt := by
  simp only [RawBlock.ofNode?, Option.bind_eq_bind, Option.map_bind, Function.comp_def]
  refine faithful_fields? fun ms vs f hrel hread ↦ ?_
  obtain ⟨b, hb, rfl⟩ := Option.map_eq_some_iff.1 hread
  split at hb
  · simp only [Option.bind_eq_some_iff, pure, Option.some.injEq] at hb
    obtain ⟨kind, hkind, subtype, hsubtype, text, htext, content, hcontent, formatting, hformatting,
      media, hmedia, url, hurl, rfl⟩ := hb
    obtain _ | ⟨rkind, _ | ⟨rsubtype, _ | ⟨rtext, _ | ⟨rcontent, _ | ⟨rformatting, _ | ⟨rmedia,
      _ | ⟨rurl, ⟨⟩⟩⟩⟩⟩⟩⟩⟩ := hrel
    -- all fields are read faithfully but the content, of which the text is what counts
    obtain ⟨content', hcontent', hsame⟩ : ∃ content', Node.optional? Node.value? _ = some content'
        ∧ content'.map Json.string? = content.map Json.string? := by
      rw [← Option.map_eq_some_iff, ← Json.Node.optional?_map]
      refine Json.Node.faithful_map_string?_value?.optional? rcontent ?_
      rw [Json.Node.optional?_map, hcontent, Option.map_some]
    simp only [List.map_cons, List.map_nil]
    rw [faithful_string?.optional? rkind hkind,
      faithful_string?.optional? rsubtype hsubtype,
      faithful_string?.optional? rtext htext, hcontent',
      FormatRange.faithful_ofNode?.listOf?.optional? rformatting hformatting,
      Media.faithful_listOfNode?.optional? rmedia hmedia,
      faithful_string?.optional? rurl hurl]
    exact congrArg some
      (variantAt_congr (b := ⟨kind, subtype, text, content, formatting, media, url⟩) hsame)
  · cases hb

/-- Sorting asks only for the variants of the blocks. -/
theorem RawBlock.classifyAll_congr {bs bs' : List RawBlock}
    (h : bs'.map variantAt = bs.map variantAt) (index : Nat) :
    classifyAll index bs' = classifyAll index bs := by
  induction bs generalizing bs' index with
  | nil => rw [List.map_eq_nil_iff.1 h]
  | cons b bs ih =>
    obtain ⟨b', bs', rfl, hb, hbs⟩ := List.map_eq_cons_iff.1 h
    have hvariant : b'.classify index = b.classify index := congrFun hb index
    rw [classifyAll, classifyAll, hvariant, ih hbs]

/-! ### Decoders -/

namespace Post

theorem faithful_map_rawBlocks? :
    Faithful fun n ↦ (rawBlocks? n).map (List.map RawBlock.variantAt) := by
  simp only [rawBlocks?, Option.bind_eq_bind, Option.map_bind, Function.comp_def]
  refine faithful_fields? fun ms vs fs hrel hread ↦ ?_
  obtain ⟨bs, hbs, rfl⟩ := Option.map_eq_some_iff.1 hread
  split at hbs
  · obtain _ | ⟨hcontent, ⟨⟩⟩ := hrel
    cases hcontent with
    | none => cases hbs
    | some hcontent =>
      simp only [List.map_cons, List.map_nil, Option.map_some, Node.required?]
      rw [← Json.Node.listOf?_map]
      refine RawBlock.faithful_map_variantAt.listOf? hcontent ?_
      rw [Json.Node.listOf?_map]
      exact congrArg (Option.map _) hbs
  · cases hbs

/-- A tree with content blocks is decoded as the value is that it presents. -/
theorem decodeNode_toNode {n : Node} {v : Json} (h : n.Presents v) {bs : List RawBlock}
    (hbs : rawBlocks? n = some bs) : decodeNode v.toNode = decodeNode n := by
  obtain ⟨bs', hbs', heq⟩ := Option.map_eq_some_iff.1
    (faithful_map_rawBlocks? h (congrArg (Option.map _) hbs))
  simp only [decodeNode, Option.bind_some, hbs, hbs']
  exact RawBlock.classifyAll_congr heq 0

/-- Values that present each other are decoded alike. -/
theorem decodeNode_toNode_eq {v w : Json} (hv : v.toNode.Presents w) (hw : w.toNode.Presents v) :
    decodeNode v.toNode = decodeNode w.toNode := by
  cases hleft : rawBlocks? v.toNode with
  | some bs => exact (decodeNode_toNode hv hleft).symm
  | none =>
    cases hright : rawBlocks? w.toNode with
    | some bs => exact decodeNode_toNode hw hright
    | none => simp only [decodeNode, Option.bind_some, hleft, hright]

/-- The text of a value is decoded as the value is. -/
theorem decode_compact {v : Json} (hfinite : ∀ n ∈ v.numbers, n.IsFinite)
    (hd : v.depth ≤ Json.maxDepth) : decode v.compact = decodeValue v := by
  obtain ⟨hreread, hvalue⟩ := Json.Node.presents_mapNumbers_self v fun n hn ↦
    (Json.Number.readsAs_reread (hfinite n hn)).2
  rw [decode, Json.parse?_compact hfinite hd, decodeValue, decodeNode_toNode_eq hreread hvalue]

/-- A text with a value is decoded, if it is decoded at all, as the value is. -/
theorem decodeValue_of_decode {source : String} {v : Json} {ss : List SourceBlock}
    (hv : Json.parse? source = some v) (h : decode source = .ok ss) : decodeValue v = .ok ss := by
  obtain ⟨n, hn, hvalue⟩ := Option.bind_eq_some_iff.1 hv
  have hn : Node.parse? source = some n := hn
  rw [decode, hn] at h
  cases hbs : rawBlocks? n with
  | none =>
    simp only [decodeNode, Option.bind_some, hbs] at h
    cases h
  | some bs => rw [decodeValue, decodeNode_toNode (Json.Node.presents_of_value? n hvalue) hbs, h]

/-- The content of a post's record, if it is converted, is the markup of the post. -/
theorem content_of_ofJson {defaults : RecordDefaults} {table : TagTable} {post : Json}
    {r : PostRecord} {items : List Json} (h : PostRecord.ofJson defaults table post = .ok r)
    (hcontent : post.get? "content" = some (.array items))
    (hbody : (post.get? "body").bind Json.string? = none) :
    valueMarkup table post = .ok r.content := by
  simpa only [Record.postContent, hbody, Record.content, hcontent]
    using (PostRecord.isOf_of_ofJson h).content

/-- A post is decoded alike from its text and from its value. The compact text of a value that nests
no deeper than a text may is decoded as the value is, into the same source blocks or with the same
error. So its markup is that of the value, and the content of the post's record if that is
converted. And what any text with a value is decoded into, the value is decoded into. -/
theorem decode_agrees :
    (∀ v : Json, (∀ n ∈ v.numbers, n.IsFinite) → v.depth ≤ Json.maxDepth →
      ((∃ ss, decode v.compact = .ok ss ∧ decodeValue v = .ok ss)
        ∨ (decode v.compact = .error (.malformed .unreadable)
          ∧ decodeValue v = .error (.malformed .unreadable))
        ∨ ∃ index field, decode v.compact = .error (.missing index field)
          ∧ decodeValue v = .error (.missing index field))
      ∧ (∀ table, markup table v.compact = valueMarkup table v)
      ∧ ∀ defaults table r items, PostRecord.ofJson defaults table v = .ok r →
          v.get? "content" = some (.array items) → (v.get? "body").bind Json.string? = none →
          markup table v.compact = .ok r.content)
    ∧ ∀ source v ss, Json.parse? source = some v → decode source = .ok ss →
        decodeValue v = .ok ss := by
  refine ⟨fun v hfinite hd ↦ ?_, fun source v ss ↦ decodeValue_of_decode⟩
  have heq := decode_compact hfinite hd
  have hmarkup (table : TagTable) : markup table v.compact = valueMarkup table v := by
    rw [markup, valueMarkup, heq]
  refine ⟨?_, hmarkup, fun defaults table r items hr hcontent hbody ↦ ?_⟩
  · rw [heq]
    cases hvalue : decodeValue v with
    | ok ss => exact .inl ⟨ss, rfl, rfl⟩
    | error e =>
      rcases error_of_decodeNode hvalue with rfl | ⟨index, field, rfl⟩
      · exact .inr (.inl ⟨rfl, rfl⟩)
      · exact .inr (.inr ⟨index, field, rfl, rfl⟩)
  · rw [hmarkup, content_of_ofJson hr hcontent hbody]

/-- A paragraph among fields with a double, and a text with a repeated key that decoding does not
ask for. -/
theorem decode_agrees_paragraph :
    (∃ v r, v.numbers = [.double 4609434218613702656]
      ∧ PostRecord.ofJson default .standard v = .ok r ∧ markup .standard v.compact = .ok r.content)
    ∧ decode "\x7b\"x\":1,\"x\":2,\"content\":[\x7b\x7d]\x7d" = .ok [.fallback "" ⟨"", []⟩]
      ∧ decodeValue (.object [("x", .int 2), ("content", .array [.object []])])
        = .ok [.fallback "" ⟨"", []⟩] := by
  constructor
  · have hsizes : ∀ s ∈ [.paragraph ⟨"a", []⟩], SourceBlock.HasWordSizes s := by
      simp [SourceBlock.HasWordSizes]
    obtain ⟨m, hm⟩ : ∃ m, Block.documentMarkup [Block.paragraph .standard ⟨"a", []⟩] = .ok m := by
      obtain ⟨-, m, hm, -⟩ :=
        Block.exists_parse_ofSource TagTable.isAlphanumeric_standard hsizes rfl
      exact ⟨m, hm⟩
    have hr : PostRecord.ofJson default .standard (.object [("content", .array [.object
        [("type", .string "text"), ("text", .string "a"),
          ("aspect", .number (.double 4609434218613702656))]])])
        = .ok ⟨"", m, none, "publish", 1, false⟩ := by
      show (Block.documentMarkup [Block.paragraph .standard ⟨"a", []⟩]).mapError _ >>= _ = _
      rw [hm]
      rfl
    exact ⟨_, _, rfl, hr, (decode_agrees.1 _ (by decide) (by decide)).2.2 _ _ _ _ hr rfl rfl⟩
  · have hdecode : decode "\x7b\"x\":1,\"x\":2,\"content\":[\x7b\x7d]\x7d"
        = .ok [.fallback "" ⟨"", []⟩] := by cbv
    exact ⟨hdecode, decode_agrees.2 _ _ _ (by cbv) hdecode⟩

end Post

end PostBlocks
