import Nbtrfs.Cache.Bookkeeping

/-!
# The per-inode dirty lists as sets

`dl.c` keeps a list of block numbers for an inode, with an index in each node: a new node's index is
one more than that of the node behind it, and `dl_pop` goes on to the next node only if the index is
above 1. Removing a node from the middle leaves the others' indices as they are, so they decrease
along the list and only the last node may have index 1.
-/

namespace Nbtrfs

/-- The blocks on the dirty list of an inode. -/
def blocksOf (hashmap : DlHm) (inum : Nat) : List Nat :=
  ((dlLookup hashmap inum).getD []).map Prod.snd

/-- A dirty list: its indices decrease along the list and are not 0, and no block occurs twice. -/
structure DlList (list : List DlNode) : Prop where
  /-- The indices decrease. -/
  decreasing : (list.map Prod.fst).Pairwise (· > ·)
  /-- They are not 0. -/
  positive : ∀ node ∈ list, 0 < node.1
  /-- No block occurs twice. -/
  distinct : (list.map Prod.snd).Nodup

/-- The hash map of the dirty lists. -/
structure DlTidy (hashmap : DlHm) : Prop where
  /-- Its chains are well formed. -/
  chained : Chains.Chained hashmapBucket hashmap
  /-- So are its lists. -/
  lists : ∀ inum list, dlLookup hashmap inum = some list → DlList list

section

variable {hashmap : DlHm} {list : List DlNode} {inum pnum : Nat}

/-- Looking for a block in a list. -/
theorem dlFindBlock_iff : dlFindBlock list pnum = true ↔ pnum ∈ list.map Prod.snd := by
  unfold dlFindBlock
  rw [List.any_eq_true, List.mem_map]
  simp only [beq_iff_eq]

/-- The empty list. -/
theorem DlList.nil : DlList [] := ⟨List.Pairwise.nil, nofun, List.nodup_nil⟩

/-- A new block is pushed with an index above all others. -/
theorem DlList.push (wellFormed : DlList list) (fresh : pnum ∉ list.map Prod.snd) :
    DlList (dlPush list pnum) ∧ (dlPush list pnum).map Prod.snd = pnum :: list.map Prod.snd := by
  cases list with
  | nil =>
    refine ⟨⟨List.pairwise_singleton _ _, ?_, List.nodup_singleton _⟩, rfl⟩
    intro node inside
    rw [List.mem_singleton.mp inside]
    exact Nat.one_pos
  | cons head rest =>
    refine ⟨⟨?_, ?_, List.nodup_cons.mpr ⟨fresh, wellFormed.distinct⟩⟩, rfl⟩
    · refine List.pairwise_cons.mpr ⟨?_, wellFormed.decreasing⟩
      intro index inside
      rcases List.mem_cons.mp inside with rfl | behind
      · exact Nat.lt_succ_self _
      · exact Nat.lt_succ_of_lt ((List.pairwise_cons.mp wellFormed.decreasing).1 index behind)
    · intro node inside
      rcases List.mem_cons.mp inside with rfl | older
      · exact Nat.succ_pos _
      · exact wellFormed.positive node older

/-- Unlinking a block leaves the others in order. -/
theorem DlList.unlink (wellFormed : DlList list) (pnum : Nat) :
    DlList (list.eraseP fun node => node.2 == pnum) ∧
      (list.eraseP fun node => node.2 == pnum).map Prod.snd = (list.map Prod.snd).erase pnum := by
  have sublist : (list.eraseP fun node => node.2 == pnum).Sublist list := List.eraseP_sublist
  refine ⟨⟨wellFormed.decreasing.sublist (sublist.map Prod.fst),
    fun node inside => wellFormed.positive node (sublist.subset inside),
    (sublist.map Prod.snd).nodup wellFormed.distinct⟩, ?_⟩
  rw [List.erase_eq_eraseP, List.eraseP_map]
  congr 2
  funext node
  exact Bool.beq_comm

/-- Behind a node that `dl_pop` stops at there is no other. -/
theorem DlList.last {node : DlNode} {rest : List DlNode} (wellFormed : DlList (node :: rest))
    (stop : ¬ 1 < node.1) : rest = [] := by
  cases rest with
  | nil => rfl
  | cons next behind =>
    have less := (List.pairwise_cons.mp wellFormed.decreasing).1 next.1 (by simp)
    have positive := wellFormed.positive next (by simp)
    have : next.1 < node.1 := less
    omega

/-- The rest of a list. -/
theorem DlList.tail {node : DlNode} {rest : List DlNode} (wellFormed : DlList (node :: rest)) :
    DlList rest :=
  ⟨(List.pairwise_cons.mp wellFormed.decreasing).2,
    fun other inside => wellFormed.positive other (List.mem_cons_of_mem _ inside),
    (List.nodup_cons.mp wellFormed.distinct).2⟩

/-- The blocks of an inode are different. -/
theorem DlTidy.distinct (tidy : DlTidy hashmap) (inum : Nat) : (blocksOf hashmap inum).Nodup := by
  unfold blocksOf
  cases found : dlLookup hashmap inum with
  | none => exact List.nodup_nil
  | some list => exact (tidy.lists inum list found).distinct

/-- No list has been filed. -/
theorem DlTidy.empty : DlTidy (fun _ => []) := by
  refine ⟨Chains.chained_empty _, ?_⟩
  intro inum list found
  cases found

/-- Replacing the answer of one inode by a well-formed list. -/
theorem DlTidy.replace {hashmap' : DlHm} (tidy : DlTidy hashmap)
    (chained : Chains.Chained hashmapBucket hashmap') {answer : Option (List DlNode)}
    (lookup : ∀ other, dlLookup hashmap' other =
      if other = inum then answer else dlLookup hashmap other)
    (wellFormed : ∀ list, answer = some list → DlList list) :
    DlTidy hashmap' ∧ ∀ other, blocksOf hashmap' other =
      if other = inum then (answer.getD []).map Prod.snd else blocksOf hashmap other := by
  refine ⟨⟨chained, ?_⟩, ?_⟩
  · intro other list found
    rw [lookup] at found
    by_cases same : other = inum
    · rw [if_pos same] at found
      exact wellFormed list found
    · rw [if_neg same] at found
      exact tidy.lists other list found
  · intro other
    unfold blocksOf
    rw [lookup]
    by_cases same : other = inum
    · rw [if_pos same, if_pos same]
    · rw [if_neg same, if_neg same]

/-- `dl_delete` empties the list of an inode. -/
theorem DlTidy.delete (tidy : DlTidy hashmap) (inum : Nat) :
    DlTidy (dlDelete hashmap inum) ∧ ∀ other, dlLookup (dlDelete hashmap inum) other =
      if other = inum then none else dlLookup hashmap other := by
  have lookup := Chains.lookup_erase hashmapBucket tidy.chained inum
  exact ⟨(tidy.replace (Chains.chained_erase _ tidy.chained inum) lookup nofun).1, lookup⟩

/-- `dl_insert` adds a block that the inode's list does not have. -/
theorem DlTidy.insert (tidy : DlTidy hashmap) (inum pnum : Nat) :
    DlTidy (dlInsert hashmap inum pnum) ∧ ∀ other, blocksOf (dlInsert hashmap inum pnum) other =
      if other = inum then
        if pnum ∈ blocksOf hashmap inum then blocksOf hashmap inum else pnum :: blocksOf hashmap inum
      else blocksOf hashmap other := by
  unfold dlInsert
  cases former : dlLookup hashmap inum with
  | none =>
    have blocks : blocksOf hashmap inum = [] := by
      unfold blocksOf
      rw [former]
      rfl
    have pushed := DlList.nil.push (show pnum ∉ ([] : List DlNode).map Prod.snd from nofun)
    have result := tidy.replace (Chains.chained_insert hashmapBucket tidy.chained inum _ former)
      (fun other => Chains.lookup_insert hashmapBucket hashmap inum other (dlPush [] pnum))
      (fun list same => Option.some.inj same ▸ pushed.1)
    refine ⟨result.1, fun other => ?_⟩
    rw [result.2, blocks, if_neg List.not_mem_nil]
    rfl
  | some list =>
    have wellFormed := tidy.lists inum list former
    have blocks : blocksOf hashmap inum = list.map Prod.snd := by
      unfold blocksOf
      rw [former]
      rfl
    dsimp only
    by_cases present : pnum ∈ list.map Prod.snd
    · rw [if_pos (dlFindBlock_iff.mpr present)]
      refine ⟨tidy, fun other => ?_⟩
      rw [blocks, if_pos present, ← blocks]
      split
      case isTrue same => rw [same]
      case isFalse => rfl
    · have absent : ¬ dlFindBlock list pnum = true := fun found => present (dlFindBlock_iff.mp found)
      rw [if_neg absent]
      have pushed := wellFormed.push present
      have lookup : ∀ other, dlLookup (Chains.assign hashmapBucket hashmap inum (dlPush list pnum))
          other = if other = inum then some (dlPush list pnum) else dlLookup hashmap other := by
        intro other
        by_cases same : other = inum
        · rw [if_pos same, same]
          exact Chains.lookup_assign_same hashmapBucket former _
        · rw [if_neg same]
          exact Chains.lookup_assign_other hashmapBucket same _
      have result := tidy.replace (Chains.chained_assign hashmapBucket tidy.chained inum _) lookup
        (fun list same => Option.some.inj same ▸ pushed.1)
      refine ⟨result.1, fun other => ?_⟩
      rw [result.2, blocks, if_neg present]
      split
      · exact pushed.2
      · rfl

/-- `dl_remove_block` takes a block off the inode's list. -/
theorem DlTidy.removeBlock (tidy : DlTidy hashmap) (inum pnum : Nat) :
    DlTidy (dlRemoveBlock hashmap inum pnum) ∧
      ∀ other, blocksOf (dlRemoveBlock hashmap inum pnum) other =
        if other = inum then (blocksOf hashmap inum).erase pnum else blocksOf hashmap other := by
  unfold dlRemoveBlock
  cases former : dlLookup hashmap inum with
  | none =>
    have blocks : blocksOf hashmap inum = [] := by
      unfold blocksOf
      rw [former]
      rfl
    refine ⟨tidy, fun other => ?_⟩
    dsimp only
    split
    case isTrue same => rw [same, blocks, List.erase_nil]
    case isFalse => rfl
  | some list =>
    have wellFormed := tidy.lists inum list former
    have blocks : blocksOf hashmap inum = list.map Prod.snd := by
      unfold blocksOf
      rw [former]
      rfl
    dsimp only
    by_cases present : pnum ∈ list.map Prod.snd
    · rw [if_pos (dlFindBlock_iff.mpr present)]
      obtain ⟨rest, rest_blocks⟩ := wellFormed.unlink pnum
      generalize list.eraseP (fun node => node.2 == pnum) = remaining at rest rest_blocks ⊢
      have assigned : ∀ other, dlLookup (Chains.assign hashmapBucket hashmap inum remaining) other =
          if other = inum then some remaining else dlLookup hashmap other := by
        intro other
        by_cases same : other = inum
        · rw [if_pos same, same]
          exact Chains.lookup_assign_same hashmapBucket former _
        · rw [if_neg same]
          exact Chains.lookup_assign_other hashmapBucket same _
      have kept := Chains.chained_assign hashmapBucket tidy.chained inum remaining
      by_cases empty : remaining = []
      · rw [if_pos empty]
        have lookup : ∀ other, dlLookup
            (dlDelete (Chains.assign hashmapBucket hashmap inum remaining) inum) other =
            if other = inum then none else dlLookup hashmap other := by
          intro other
          have erased := Chains.lookup_erase hashmapBucket kept inum other
          refine erased.trans ?_
          split
          · rfl
          case isFalse differs => exact (assigned other).trans (if_neg differs)
        have result := tidy.replace (Chains.chained_erase _ kept inum) lookup nofun
        refine ⟨result.1, fun other => (result.2 other).trans ?_⟩
        rw [blocks, ← rest_blocks, empty]
        rfl
      · rw [if_neg empty]
        have result := tidy.replace kept assigned fun list same => Option.some.inj same ▸ rest
        refine ⟨result.1, fun other => ?_⟩
        rw [result.2, blocks, ← rest_blocks]
        rfl
    · have absent : ¬ dlFindBlock list pnum = true := fun found => present (dlFindBlock_iff.mp found)
      rw [if_neg absent]
      refine ⟨tidy, fun other => ?_⟩
      split
      case isTrue same => rw [same, blocks, List.erase_of_not_mem present]
      case isFalse => rfl

end

end Nbtrfs
