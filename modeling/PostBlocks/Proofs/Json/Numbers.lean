import PostBlocks.Decimal.Shortest
import PostBlocks.Json.Basic

/-!
# Numbers in a value

A value is read from its text as it was but for its numbers, and what is said of its numbers is said
of each of them: `numbers` lists them and `mapNumbers` replaces them.
-/

namespace PostBlocks.Json

/-- A number that a value can have: an integer of a word, or a double that is neither infinite nor
undefined. -/
def Number.IsFinite : Number → Prop
  | int i => IsWord i
  | double bits => bits.toNat / Decimal.Dyadic.hidden % 2048 ≠ 2047

instance (n : Number) : Decidable n.IsFinite :=
  match n with
  | .int i => inferInstanceAs (Decidable (Number.IsWord i))
  | .double bits => inferInstanceAs (Decidable (bits.toNat / Decimal.Dyadic.hidden % 2048 ≠ 2047))

mutual

/-- The numbers in a value, in order. -/
def numbers : Json → List Number
  | number n => [n]
  | array items => itemNumbers items
  | object fs => fieldNumbers fs
  | _ => []

/-- The numbers in the items of an array. -/
def itemNumbers : List Json → List Number
  | [] => []
  | v :: vs => v.numbers ++ itemNumbers vs

/-- The numbers in the values of an object. -/
def fieldNumbers : List (String × Json) → List Number
  | [] => []
  | (_, v) :: fs => v.numbers ++ fieldNumbers fs

end

mutual

/-- A value with each number replaced. -/
def mapNumbers (g : Number → Number) : Json → Json
  | number n => number (g n)
  | array items => array (mapItems g items)
  | object fs => object (mapFields g fs)
  | v => v

/-- `mapNumbers` for each item of an array. -/
def mapItems (g : Number → Number) : List Json → List Json
  | [] => []
  | v :: vs => v.mapNumbers g :: mapItems g vs

/-- `mapNumbers` for each value of an object. -/
def mapFields (g : Number → Number) : List (String × Json) → List (String × Json)
  | [] => []
  | (k, v) :: fs => (k, v.mapNumbers g) :: mapFields g fs

end

mutual

/-- A value is compared with what is read from its text through `mapNumbers`, also where no number
changes. -/
theorem mapNumbers_id : ∀ v : Json, v.mapNumbers id = v
  | null | bool _ | number _ | string _ => rfl
  | array items => congrArg array (mapItems_id items)
  | object fs => congrArg object (mapFields_id fs)

theorem mapItems_id : ∀ vs : List Json, mapItems id vs = vs
  | [] => rfl
  | v :: vs => by rw [mapItems, mapNumbers_id v, mapItems_id vs]

theorem mapFields_id : ∀ fs : List (String × Json), mapFields id fs = fs
  | [] => rfl
  | (k, v) :: fs => by rw [mapFields, mapNumbers_id v, mapFields_id fs]

end

mutual

/-- Numbers do not nest anything. -/
theorem depth_mapNumbers (g : Number → Number) : ∀ v : Json, (v.mapNumbers g).depth = v.depth
  | null | bool _ | number _ | string _ => rfl
  | array items => congrArg (· + 1) (itemsDepth_mapItems g items)
  | object fs => congrArg (· + 1) (fieldsDepth_mapFields g fs)

/-- The items of an array. -/
theorem itemsDepth_mapItems (g : Number → Number) : ∀ vs : List Json,
    itemsDepth (mapItems g vs) = itemsDepth vs
  | [] => rfl
  | v :: vs => by rw [mapItems, itemsDepth, itemsDepth, depth_mapNumbers g v,
      itemsDepth_mapItems g vs]

/-- The fields of an object. -/
theorem fieldsDepth_mapFields (g : Number → Number) : ∀ fs : List (String × Json),
    fieldsDepth (mapFields g fs) = fieldsDepth fs
  | [] => rfl
  | (k, v) :: fs => by rw [mapFields, fieldsDepth, fieldsDepth, depth_mapNumbers g v,
      fieldsDepth_mapFields g fs]

end

mutual

/-- The numbers of a value with integers of a word. -/
theorem isWord_of_mem_numbers : ∀ v : Json, v.HasWordNumbers →
    ∀ n ∈ v.numbers, ∃ i, n = .int i ∧ Number.IsWord i
  | null, _, _, hn | bool _, _, _, hn | string _, _, _, hn => nomatch hn
  | number (.int i), h, _, hn => ⟨i, List.mem_singleton.1 hn, h⟩
  | array items, h, n, hn => isWord_of_mem_itemNumbers items h n hn
  | object fs, h, n, hn => isWord_of_mem_fieldNumbers fs h n hn

theorem isWord_of_mem_itemNumbers : ∀ vs : List Json, ItemsHaveWordNumbers vs →
    ∀ n ∈ itemNumbers vs, ∃ i, n = .int i ∧ Number.IsWord i
  | [], _, _, hn => nomatch hn
  | v :: vs, h, n, hn => (List.mem_append.1 hn).elim (isWord_of_mem_numbers v h.1 n)
      (isWord_of_mem_itemNumbers vs h.2 n)

theorem isWord_of_mem_fieldNumbers : ∀ fs : List (String × Json), FieldsHaveWordNumbers fs →
    ∀ n ∈ fieldNumbers fs, ∃ i, n = .int i ∧ Number.IsWord i
  | [], _, _, hn => nomatch hn
  | (_, v) :: fs, h, n, hn => (List.mem_append.1 hn).elim (isWord_of_mem_numbers v h.1 n)
      (isWord_of_mem_fieldNumbers fs h.2 n)

end

end PostBlocks.Json
