import Mathlib.Data.List.SplitBy
import PostBlocks.Block.Listing

/-!
# Grouping is grouping of runs

A *run* is a block that is no item, or some items of one kind that follow one another. Where no two
runs side by side could be one, they are told from their members (`Run.eq_of_areMaximal`); and
closing a listing at any moment gives a block for each run of what has been pushed
(`Listing.exists_finish_eq_map_toBlock`).

Until then the listing has a block for every run but the last if a list is open, which holds the
items of that one (`Listing.Groups`). One push lengthens the last run or starts another
(`Listing.Groups.push`).
-/

namespace PostBlocks

/-- A block that stands by itself, or the items of one list, of which there is at least one. -/
inductive Run where
  | block (b : Block)
  | items (kind : ListKind) (bs : List Block) (hne : bs ≠ [])

/-- An item joins the run of an item of its kind in front of it. -/
def Built.joins : Built → Built → Bool
  | .item kind _, .item kind' _ => kind = kind'
  | _, _ => false

namespace Run

/-- The blocks and items of a run, as they were built. -/
def members : Run → List Built
  | block b => [.block b]
  | items kind bs _ => bs.map (.item kind)

/-- The kind of the items of a run. -/
def kind? : Run → Option ListKind
  | block _ => none
  | items kind _ _ => some kind

/-- What stands in the document for a run. -/
def toBlock : Run → Block
  | block b => b
  | items kind bs _ => .list kind bs

/-- No two neighbours have items of the same kind. -/
def AreMaximal (runs : List Run) : Prop :=
  runs.IsChain fun r r' ↦ r.kind? = r'.kind? → r.kind? = none

theorem areMaximal_concat_iff {runs : List Run} {r : Run} : AreMaximal (runs ++ [r]) ↔
    AreMaximal runs ∧ ∀ r' ∈ runs.getLast?, r'.kind? = r.kind? → r'.kind? = none := by
  simp [AreMaximal, List.isChain_append]

/-! ### Runs are determined by their members -/

/-- A run has a member. -/
theorem members_ne_nil : ∀ r : Run, r.members ≠ []
  | block _ => List.cons_ne_nil _ _
  | items _ _ hne => fun h ↦ hne (List.map_eq_nil_iff.1 h)

/-- The members of a run belong together, each with the next. -/
theorem isChain_members : ∀ r : Run, r.members.IsChain fun a b ↦ a.joins b = true
  | block b => .singleton _
  | items kind bs _ => by
    rw [members, List.isChain_map]
    exact List.Pairwise.isChain (List.pairwise_of_forall fun _ _ ↦ decide_eq_true rfl)

/-- Neighbours with items of different kinds do not join. -/
theorem joins_getLast_head {r r' : Run} (h : r.kind? = r'.kind? → r.kind? = none) :
    (r.members.getLast r.members_ne_nil).joins (r'.members.head r'.members_ne_nil) = false := by
  match r, r' with
  | block _, _ => rfl
  | items _ _ _, block _ => simp [members, Built.joins]
  | items kind _ _, items kind' _ _ =>
    have hne : kind ≠ kind' := fun heq ↦ nomatch h (congrArg some heq)
    simp [members, Built.joins, hne]

/-- Splitting where members do not join gives maximal runs back. -/
theorem splitBy_joins {runs : List Run} (h : AreMaximal runs) :
    (runs.flatMap members).splitBy Built.joins = runs.map members := by
  refine List.splitBy_eq_iff.2 ⟨rfl, fun hmem ↦ ?_, fun ms hmem ↦ ?_, ?_⟩
  · obtain ⟨r, -, hr⟩ := List.mem_map.1 hmem
    exact r.members_ne_nil hr
  · obtain ⟨r, -, rfl⟩ := List.mem_map.1 hmem
    exact r.isChain_members
  · rw [List.isChain_map]
    exact h.imp fun _ _ hne ↦ ⟨members_ne_nil _, members_ne_nil _, joins_getLast_head hne⟩

theorem members_injective : Function.Injective members := by
  intro r r' h
  match r, r' with
  | block b, block b' =>
    obtain rfl : b = b' := Built.block.inj (List.cons.inj h).1
    rfl
  | block _, items _ (_ :: _) _ => cases h
  | items _ (_ :: _) _, block _ => cases h
  | items kind (b :: bs) _, items kind' (b' :: bs') _ =>
    obtain ⟨hhead, htail⟩ := List.cons.inj h
    obtain ⟨rfl, rfl⟩ := Built.item.inj hhead
    obtain rfl : bs = bs' := List.map_injective_iff.2 (fun _ _ heq ↦ (Built.item.inj heq).2) htail
    rfl

/-- There is one way only to part blocks and items into maximal runs. -/
theorem eq_of_areMaximal {runs runs' : List Run} (h : AreMaximal runs) (h' : AreMaximal runs')
    (hmembers : runs.flatMap members = runs'.flatMap members) : runs = runs' := by
  refine List.map_injective_iff.2 members_injective ?_
  rw [← splitBy_joins h, ← splitBy_joins h', hmembers]

end Run

namespace Listing

open Run (AreMaximal)

/-- A listing and the runs of what has been pushed on it. -/
inductive Groups : Listing → List Run → Prop
  | closed {runs : List Run} (h : AreMaximal runs) (hlast : ∀ r ∈ runs.getLast?, r.kind? = none) :
    Groups ⟨runs.map Run.toBlock, none⟩ runs
  | opened {runs : List Run} {kind : ListKind} {bs : List Block} (hne : bs ≠ [])
    (h : AreMaximal (runs ++ [.items kind bs hne])) :
    Groups ⟨runs.map Run.toBlock, some (kind, bs)⟩ (runs ++ [.items kind bs hne])

namespace Groups

variable {l : Listing} {runs : List Run}

theorem areMaximal : Groups l runs → AreMaximal runs
  | closed h _ => h
  | opened _ h => h

/-- Closing the open list gives a block for each run. -/
theorem finish_eq : Groups l runs → l.finish = runs.map Run.toBlock
  | closed _ _ => rfl
  | opened _ _ => by
    rw [List.map_append]
    rfl

/-- A block is a run of its own. -/
theorem push_block (h : Groups l runs) (b : Block) :
    Groups (l.push (.block b)) (runs ++ [.block b]) := by
  have hblocks : l.push (.block b) = ⟨(runs ++ [Run.block b]).map Run.toBlock, none⟩ := by
    rw [Listing.push, h.finish_eq, List.map_append]
    rfl
  rw [hblocks]
  refine .closed (Run.areMaximal_concat_iff.2 ⟨h.areMaximal, fun _ _ heq ↦ heq⟩) ?_
  simp [Run.kind?]

/-- An item goes on with the last run or is the first of another. -/
theorem push_item (h : Groups l runs) (kind : ListKind) (b : Block) :
    ∃ runs', Groups (l.push (.item kind b)) runs'
      ∧ runs'.flatMap Run.members = runs.flatMap Run.members ++ [.item kind b] := by
  have hsingle : [b] ≠ [] := List.cons_ne_nil _ _
  have hmembers : ∀ runs : List Run, (runs ++ [Run.items kind [b] hsingle]).flatMap Run.members
      = runs.flatMap Run.members ++ [.item kind b] := fun runs ↦ by
    rw [List.flatMap_append, List.flatMap_singleton]
    rfl
  rcases h with ⟨hmaximal, hlast⟩ | @⟨runs, openKind, bs, hne, hmaximal⟩
  · exact ⟨_, .opened hsingle (Run.areMaximal_concat_iff.2 ⟨hmaximal, fun r hr _ ↦ hlast r hr⟩),
      hmembers runs⟩
  · by_cases hkind : openKind = kind
    · subst hkind
      have hpush : Listing.push ⟨runs.map Run.toBlock, some (openKind, bs)⟩ (.item openKind b)
          = ⟨runs.map Run.toBlock, some (openKind, bs ++ [b])⟩ := if_pos rfl
      have hlonger : bs ++ [b] ≠ [] := List.append_ne_nil_of_right_ne_nil _ hsingle
      -- the longer run is of the same kind, and nothing else of it counts for its neighbour
      obtain ⟨hruns, hlast⟩ := Run.areMaximal_concat_iff.1 hmaximal
      rw [hpush]
      refine ⟨_, .opened hlonger (Run.areMaximal_concat_iff.2 ⟨hruns, hlast⟩), ?_⟩
      simp only [List.flatMap_append, List.flatMap_singleton, Run.members, List.map_append,
        List.map_singleton, List.append_assoc]
    · have hpush : Listing.push ⟨runs.map Run.toBlock, some (openKind, bs)⟩ (.item kind b)
          = ⟨(runs ++ [Run.items openKind bs hne]).map Run.toBlock, some (kind, [b])⟩ := by
        rw [← (opened hne hmaximal).finish_eq]
        exact if_neg hkind
      rw [hpush]
      refine ⟨_, .opened hsingle (Run.areMaximal_concat_iff.2 ⟨hmaximal, ?_⟩), hmembers _⟩
      simpa [Run.kind?] using hkind

/-- One more block or item is grouped behind the others. -/
theorem push (h : Groups l runs) (built : Built) : ∃ runs', Groups (l.push built) runs'
    ∧ runs'.flatMap Run.members = runs.flatMap Run.members ++ [built] := by
  match built with
  | .block b => exact ⟨_, h.push_block b, by rw [List.flatMap_append, List.flatMap_singleton]; rfl⟩
  | .item kind b => exact h.push_item kind b

/-- Any number of blocks and items are grouped in order. -/
theorem foldl_push (h : Groups l runs) (builts : List Built) :
    ∃ runs', Groups (builts.foldl Listing.push l) runs'
      ∧ runs'.flatMap Run.members = runs.flatMap Run.members ++ builts := by
  induction builts generalizing l runs with
  | nil => exact ⟨runs, h, (List.append_nil _).symm⟩
  | cons built builts ih =>
    obtain ⟨runs', hpush, hmembers⟩ := h.push built
    obtain ⟨runs'', hfold, hmembers'⟩ := ih hpush
    refine ⟨runs'', hfold, ?_⟩
    rw [hmembers', hmembers, List.append_assoc, List.singleton_append]

end Groups

/-- Whatever has been pushed is grouped in runs. -/
theorem exists_groups (builts : List Built) :
    ∃ runs, Groups (builts.foldl push empty) runs ∧ runs.flatMap Run.members = builts :=
  (Groups.closed .nil fun _ hr ↦ nomatch hr).foldl_push builts

/-- A list has a placeholder for each item between its two fragments, and the attribute `ordered` if
it is. -/
theorem exists_list_eq (kind : ListKind) : ∃ opening closing, ∀ items : List Block,
    Block.list kind items
      = ⟨"core/list", if kind = .ordered then [("ordered", .bool true)] else [], items,
          opening ++ closing,
          some opening :: List.replicate items.length none ++ [some closing]⟩ := by
  simp only [← List.map_const']
  match kind with
  | .unordered => exact ⟨"<ul class=\"wp-block-list\">", "</ul>", fun _ ↦ rfl⟩
  | .ordered => exact ⟨"<ol class=\"wp-block-list\">", "</ol>", fun _ ↦ rfl⟩

/-- Whatever has been pushed parts into maximal runs in one way, and closing the listing gives a
block for each of them: one that stands by itself as it is, and the items of a run in one list, with
a placeholder for each between its two fragments, and with the attribute `ordered` if they are. -/
theorem exists_finish_eq_map_toBlock (builts : List Built) :
    ∃ runs : List Run, runs.flatMap Run.members = builts ∧ AreMaximal runs
      ∧ (∀ runs', runs'.flatMap Run.members = builts → AreMaximal runs' → runs' = runs)
      ∧ (builts.foldl push empty).finish = runs.map Run.toBlock
      ∧ ∀ kind, ∃ opening closing, ∀ items hne, (Run.items kind items hne).toBlock
          = ⟨"core/list", if kind = .ordered then [("ordered", .bool true)] else [], items,
              opening ++ closing,
              some opening :: List.replicate items.length none ++ [some closing]⟩ := by
  obtain ⟨runs, hgroups, hmembers⟩ := exists_groups builts
  refine ⟨runs, hmembers, hgroups.areMaximal, fun runs' hmembers' hmaximal ↦ ?_, hgroups.finish_eq,
    fun kind ↦ ?_⟩
  · exact Run.eq_of_areMaximal hmaximal hgroups.areMaximal (hmembers'.trans hmembers.symm)
  · obtain ⟨opening, closing, hlist⟩ := exists_list_eq kind
    exact ⟨opening, closing, fun items _ ↦ hlist items⟩

end Listing

end PostBlocks
