import Mathlib.Data.List.Forall2
import PostBlocks.Proofs.Block.Runs
import PostBlocks.Proofs.Block.Shows

/-!
# Grouping keeps what is shown

A list shows what its items show, one after another (`Block.shows_list`), so the block for a run
shows what the members of the run show (`Run.shows_toBlock`). Since a document has a block for each
run of what is grouped, nothing is shown more, less or in another place (`Listing.showsEach_group`).
-/

namespace PostBlocks

open Block (ShowsEach)
open Html (AllowsTags)

variable {p : List Char → Prop}

/-- A built block or item, with the text that its HTML displays. -/
def Built.Shows (p : List Char → Prop) : Built → List Char → Prop
  | .block b, text => b.Shows p text
  | .item _ b, text => b.Shows p text

/-- The list around some items shows what these show. -/
theorem Block.shows_list (hp : AllowsTags p) (kind : ListKind) {items : List Block}
    {text : List Char} (hne : items ≠ []) (h : ShowsEach p items text) :
    (list kind items).Shows p text := by
  have hordered : Attributes.IsRepresentable [("ordered", .bool true)] :=
    ⟨⟨by decide, trivial, trivial⟩, ⟨trivial, trivial⟩, by decide⟩
  cases kind with
  | unordered =>
    exact .container (by decide) Attributes.isRepresentable_nil
      (.ofTags hp ["ul class=\"wp-block-list\""] (by decide)) (.ofTags hp ["/ul"] (by decide))
      (by decide) hne h
  | ordered =>
    exact .container (by decide) hordered
      (.ofTags hp ["ol class=\"wp-block-list\""] (by decide)) (.ofTags hp ["/ol"] (by decide))
      (by decide) hne h

section

variable (hp : AllowsTags p)
include hp

/-- The block for a run shows what its members show. -/
theorem Run.shows_toBlock {r : Run} {texts : List (List Char)}
    (h : List.Forall₂ (Built.Shows p) r.members texts) : r.toBlock.Shows p texts.flatten := by
  match r, h with
  | .block _, .cons hb .nil =>
    rw [List.flatten_singleton]
    exact hb
  | .items kind bs hne, h =>
    rw [members, List.forall₂_map_left_iff] at h
    exact Block.shows_list hp kind hne (.of_forall₂ h)

/-- The blocks for some runs show what the members of these show, in order. -/
theorem Run.showsEach_map_toBlock {runs : List Run} {texts : List (List Char)}
    (h : List.Forall₂ (Built.Shows p) (runs.flatMap members) texts) :
    ShowsEach p (runs.map toBlock) texts.flatten := by
  induction runs generalizing texts with
  | nil =>
    obtain rfl := List.forall₂_nil_left_iff.1 h
    exact .nil
  | cons r runs ih =>
    have hfirst := List.forall₂_take r.members.length h
    have hothers := List.forall₂_drop r.members.length h
    rw [List.flatMap_cons, List.take_left] at hfirst
    rw [List.flatMap_cons, List.drop_left] at hothers
    rw [← List.take_append_drop r.members.length texts, List.flatten_append]
    exact .cons (shows_toBlock hp hfirst) (ih hothers)

/-- Grouping shows what its blocks and items show, in order. -/
theorem Listing.showsEach_group {builts : List Built} {texts : List (List Char)}
    (h : List.Forall₂ (Built.Shows p) builts texts) :
    ShowsEach p (Block.group builts) texts.flatten := by
  obtain ⟨runs, hgroups, hmembers⟩ := exists_groups builts
  rw [Block.group, hgroups.finish_eq]
  exact Run.showsEach_map_toBlock hp (hmembers ▸ h)

end

end PostBlocks
