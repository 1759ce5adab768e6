import PostBlocks.Json.Node
import PostBlocks.Proofs.Json.Tokens

/-!
# Trees of texts and values

The tokens of a value build the value's tree (`build?_tokens`), as long as its containers nest no
deeper than there is room, and the tree has the value as its value (`value?_toNode`), as long as no
object repeats a key.

Both go by recursion over the value, with a lemma for items and one for fields beside that for
values. Behind the tokens of a value anything may follow, and the stack is then what it was before;
its depth and that of the value are counted together, so there is one bound for both.
A token in front of an item could close the array, but no value starts with it
(`build?_item_tokens`).

What is used of putting fields into an object stands in front: keys are not repeated afterwards
(`Fields.nodup_keys_ofList`), every field was an entry (`Fields.mem_of_mem_ofList`), and entries
without a repeated key stay as they are (`Fields.ofList_of_nodup`).
-/

namespace PostBlocks.Json

/-! ### Fields without repeated keys -/

namespace Fields

/-- Storing a field adds that field and no other. -/
theorem mem_of_mem_put {key : String} {value : Json} {fs : Fields} {f : String × Json}
    (h : f ∈ put key value fs) : f = (key, value) ∨ f ∈ fs := by
  fun_induction put key value fs with
  | case1 => exact .inl (List.mem_singleton.1 h)
  | case2 v fs =>
    rcases List.mem_cons.1 h with h | h
    · exact .inl h
    · exact .inr (List.mem_cons_of_mem _ h)
  | case3 k v fs hk ih =>
    rcases List.mem_cons.1 h with h | h
    · exact .inr (h ▸ List.mem_cons_self)
    · exact (ih h).imp_right (List.mem_cons_of_mem _)

/-- Storing replaces the field under a key that is there, so no key is repeated. -/
theorem nodup_keys_put {key : String} (value : Json) {fs : Fields} (h : fs.keys.Nodup) :
    (put key value fs).keys.Nodup := by
  fun_induction put key value fs with
  | case1 => simp [keys]
  | case2 v fs => exact h
  | case3 k v fs hk ih =>
    simp only [keys, List.map_cons, List.nodup_cons] at h ⊢
    refine ⟨fun hmem ↦ ?_, ih h.2⟩
    obtain ⟨f, hf, rfl⟩ := List.mem_map.1 hmem
    rcases mem_of_mem_put hf with rfl | hf
    · exact hk rfl
    · exact h.1 (List.mem_map.2 ⟨f, hf, rfl⟩)

/-- A new key goes to the end. -/
theorem put_of_not_mem {key : String} (value : Json) {fs : Fields} (h : key ∉ fs.keys) :
    put key value fs = fs ++ [(key, value)] := by
  fun_induction put key value fs with
  | case1 => rfl
  | case2 v fs => exact absurd (List.mem_cons_self) h
  | case3 k v fs hk ih =>
    rw [ih fun hmem ↦ h (List.mem_cons_of_mem _ hmem), List.cons_append]

/-- Whichever keys the entries repeat, the fields made of them repeat none. -/
theorem nodup_keys_ofList (es : List (String × Json)) : (ofList es).keys.Nodup := by
  suffices h : ∀ fs : Fields, fs.keys.Nodup →
      (es.foldl (fun fs kv ↦ put kv.1 kv.2 fs) fs).keys.Nodup from h [] List.nodup_nil
  induction es with
  | nil => exact fun fs h ↦ h
  | cons e es ih => exact fun fs h ↦ ih _ (nodup_keys_put e.2 h)

theorem mem_of_mem_ofList {es : List (String × Json)} {f : String × Json} (h : f ∈ ofList es) :
    f ∈ es := by
  suffices hall : ∀ fs : Fields, f ∈ es.foldl (fun fs kv ↦ put kv.1 kv.2 fs) fs → f ∈ fs ∨ f ∈ es by
    simpa using hall [] h
  clear h
  induction es with
  | nil => exact fun fs h ↦ .inl h
  | cons e es ih =>
    intro fs h
    rcases ih _ h with h | h
    · rcases mem_of_mem_put h with rfl | h
      · exact .inr List.mem_cons_self
      · exact .inl h
    · exact .inr (List.mem_cons_of_mem _ h)

theorem mem_keys_put {key k : String} {value : Json} {fs : Fields} :
    k ∈ (put key value fs).keys ↔ k = key ∨ k ∈ fs.keys := by
  fun_induction put key value fs with
  | case1 => simp [keys]
  | case2 v fs => simp [keys]
  | case3 l v fs hk ih =>
    simp only [keys, List.map_cons, List.mem_cons] at ih ⊢
    rw [ih]
    exact or_left_comm

/-- Entries leave each of their keys. -/
theorem mem_keys_ofList {es : List (String × Json)} {k : String} :
    k ∈ (ofList es).keys ↔ k ∈ es.map Prod.fst := by
  suffices hall : ∀ fs : Fields, k ∈ (es.foldl (fun fs kv ↦ put kv.1 kv.2 fs) fs).keys
      ↔ k ∈ fs.keys ∨ k ∈ es.map Prod.fst from
    (hall []).trans (or_iff_right List.not_mem_nil)
  induction es with
  | nil => simp
  | cons e es ih =>
    intro fs
    rw [List.foldl_cons, ih, mem_keys_put, List.map_cons, List.mem_cons, or_assoc, or_left_comm]

/-- Entries without a repeated key are fields as they stand. -/
theorem ofList_of_nodup {es : List (String × Json)} (h : (es.map Prod.fst).Nodup) :
    ofList es = es := by
  suffices hall : ∀ fs : Fields, ((fs ++ es).map Prod.fst).Nodup →
      es.foldl (fun fs kv ↦ put kv.1 kv.2 fs) fs = fs ++ es from hall [] h
  clear h
  induction es with
  | nil => simp
  | cons e es ih =>
    intro fs h
    have hnew : e.1 ∉ fs.keys := by
      simp only [List.map_append, List.map_cons, List.nodup_append] at h
      exact fun hmem ↦ h.2.2 _ hmem _ List.mem_cons_self rfl
    rw [List.foldl_cons, put_of_not_mem e.2 hnew, ih _ (by simpa using h)]
    simp

end Fields

/-! ### From tokens to trees -/

/-- In front of the first item of an array stands what stands in front of a value. -/
theorem build?_item_tokens (room : Nat) (v : Json) (stack : List Frame) (ts : List Token) :
    Node.build? room .item stack (v.tokens ++ ts)
      = Node.build? room .value (.array [] :: stack) (v.tokens ++ ts) := by
  match v with
  | null | bool _ | number _ | string _ => rfl
  | array [] | array (_ :: _) | object [] | object ((_, _) :: _) => rfl

theorem close_of_lt {room : Nat} {stack : List Frame} (h : stack.length < room) (v : Node) :
    Node.close room stack v = .after v := by
  rw [Node.close, if_pos h]

mutual

/-- The tokens of a value build its tree. -/
theorem build?_tokens {room : Nat} : ∀ (v : Json) {stack : List Frame} (ts : List Token),
    stack.length + v.depth ≤ room →
      Node.build? room .value stack (v.tokens ++ ts) = Node.build? room (.after v.toNode) stack ts
  | null, _, _, _ | bool _, _, _, _ | number _, _, _, _ | string _, _, _, _ => rfl
  | array [], stack, ts, h => by
    have hroom : stack.length < room := by
      simp only [depth, itemsDepth] at h
      omega
    rw [← close_of_lt hroom]
    rfl
  | array (v :: vs), stack, ts, h => by
    simp only [depth, itemsDepth] at h
    calc Node.build? room .value stack ((array (v :: vs)).tokens ++ ts)
        = Node.build? room .item stack (v.tokens ++ (itemTokens vs ++ .closeArray :: ts)) := by
          simp only [tokens, List.append_assoc, List.cons_append, List.nil_append]
          rfl
      _ = Node.build? room (.after v.toNode) (.array [] :: stack)
            (itemTokens vs ++ .closeArray :: ts) := by
          rw [build?_item_tokens, build?_tokens v _ (by rw [List.length_cons]; omega)]
      _ = Node.build? room (.after (array (v :: vs)).toNode) stack ts := by
          rw [build?_itemTokens vs ts (by omega) (by omega)]
          rfl
  | object [], stack, ts, h => by
    have hroom : stack.length < room := by
      simp only [depth, fieldsDepth] at h
      omega
    rw [← close_of_lt hroom]
    rfl
  | object ((k, v) :: fs), stack, ts, h => by
    simp only [depth, fieldsDepth] at h
    calc Node.build? room .value stack ((object ((k, v) :: fs)).tokens ++ ts)
        = Node.build? room .value (.object [] (some k) :: stack)
            (v.tokens ++ (fieldTokens fs ++ .closeObject :: ts)) := by
          simp only [tokens, List.append_assoc, List.cons_append, List.nil_append]
          rfl
      _ = Node.build? room (.after v.toNode) (.object [] (some k) :: stack)
            (fieldTokens fs ++ .closeObject :: ts) := by
          rw [build?_tokens v _ (by rw [List.length_cons]; omega)]
      _ = Node.build? room (.after (object ((k, v) :: fs)).toNode) stack ts := by
          rw [build?_fieldTokens fs ts (by omega) (by omega)]
          rfl

/-- Behind an item, the other items follow up to the closing bracket. The items so far wait on the
stack, the last of them first. -/
theorem build?_itemTokens {room : Nat} : ∀ (vs : List Json) {stack : List Frame} {items : List Node}
    {v : Node} (ts : List Token), stack.length < room → stack.length + 1 + itemsDepth vs ≤ room →
      Node.build? room (.after v) (.array items :: stack) (itemTokens vs ++ .closeArray :: ts)
        = Node.build? room (.after (.array ((v :: items).reverse ++ itemNodes vs))) stack ts
  | [], stack, items, v, ts, h, _ => by
    rw [itemNodes, List.append_nil, ← close_of_lt h (.array _)]
    rfl
  | w :: vs, stack, items, v, ts, h, hd => by
    simp only [itemsDepth] at hd
    simp only [itemTokens, List.append_assoc, List.cons_append]
    rw [show Node.build? room (.after v) (.array items :: stack)
        (.comma :: (w.tokens ++ (itemTokens vs ++ .closeArray :: ts)))
          = Node.build? room .value (.array (v :: items) :: stack)
            (w.tokens ++ (itemTokens vs ++ .closeArray :: ts)) from rfl,
      build?_tokens w _ (by rw [List.length_cons]; omega),
      build?_itemTokens vs ts h (by omega), itemNodes]
    simp

/-- Behind a field, the other fields follow up to the closing brace, with those so far on the stack.
-/
theorem build?_fieldTokens {room : Nat} : ∀ (fs : List (String × Json)) {stack : List Frame}
    {members : List (Option String × Node)} {key : Option String} {v : Node} (ts : List Token),
    stack.length < room → stack.length + 1 + fieldsDepth fs ≤ room →
      Node.build? room (.after v) (.object members key :: stack)
          (fieldTokens fs ++ .closeObject :: ts)
        = Node.build? room (.after (.object (((key, v) :: members).reverse ++ fieldNodes fs)))
          stack ts
  | [], stack, members, key, v, ts, h, _ => by
    rw [fieldNodes, List.append_nil, ← close_of_lt h (.object _)]
    rfl
  | (k, w) :: fs, stack, members, key, v, ts, h, hd => by
    simp only [fieldsDepth] at hd
    simp only [fieldTokens, List.append_assoc, List.cons_append]
    rw [show Node.build? room (.after v) (.object members key :: stack)
        (.comma :: .string (some k) :: .colon
          :: (w.tokens ++ (fieldTokens fs ++ .closeObject :: ts)))
          = Node.build? room .value (.object ((key, v) :: members) (some k) :: stack)
            (w.tokens ++ (fieldTokens fs ++ .closeObject :: ts)) from rfl,
      build?_tokens w _ (by rw [List.length_cons]; omega),
      build?_fieldTokens fs ts h (by omega), fieldNodes]
    simp

end

mutual

/-- The tree of a value has that value. -/
theorem value?_toNode : ∀ v : Json, v.WellFormed → v.toNode.value? = some v
  | null, _ | bool _, _ | number _, _ | string _, _ => rfl
  | array vs, h => by
    rw [toNode, Node.value?, values?_itemNodes vs h, Option.map_some]
  | object fs, h => by
    rw [toNode, Node.value?, entries?_fieldNodes fs h.2, Option.map_some,
      Fields.ofList_of_nodup h.1]

theorem values?_itemNodes : ∀ vs : List Json, WellFormedItems vs →
    Node.values? (itemNodes vs) = some vs
  | [], _ => rfl
  | v :: vs, h => by
    simp [itemNodes, Node.values?, value?_toNode v h.1, values?_itemNodes vs h.2]

/-- The fields of an object, before repeated keys would be merged. -/
theorem entries?_fieldNodes : ∀ fs : List (String × Json), WellFormedFields fs →
    Node.entries? (fieldNodes fs) = some fs
  | [], _ => rfl
  | (k, v) :: fs, h => by
    simp [fieldNodes, Node.entries?, value?_toNode v h.1, entries?_fieldNodes fs h.2]

end

/-- A text that is cut into the tokens of a value reads as the value's tree. -/
theorem ofChars?_eq_toNode {room : Nat} {cs : List Char} {v : Json}
    (hcs : tokens? cs = some v.tokens) (hd : v.depth ≤ room) :
    Node.ofChars? room cs = some v.toNode := by
  have hbuild := @build?_tokens room v [] [] (by simpa using hd)
  rw [List.append_nil] at hbuild
  rw [Node.ofChars?, hcs, Option.bind_some, hbuild]
  rfl

/-- A text that is cut into the tokens of a value has that value. -/
theorem value?_ofChars? {room : Nat} {cs : List Char} {v : Json} (hcs : tokens? cs = some v.tokens)
    (hwf : v.WellFormed) (hd : v.depth ≤ room) :
    (Node.ofChars? room cs).bind Node.value? = some v := by
  rw [ofChars?_eq_toNode hcs hd, Option.bind_some, value?_toNode v hwf]

end PostBlocks.Json
