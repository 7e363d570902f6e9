import StorageEngine.Tree.Index

/-!
The chain of leaves, and scans along it.

`next` follows the chain from any leaf to its end. From the leftmost leaf on
this is the whole tree in order. A scan starts at the last leaf that may hold
its key, so that it misses records when equal keys take up several leaves.
-/

namespace StorageEngine

open Lib Lib.BPlus

/-- The leaves have every record from `key` on exactly once, in key order. -/
def ScanComplete (key : Key) (records : List LeafKv) (leaves : List LeafNode) : Prop :=
  ((leaves.flatMap LeafNode.entries).filter (key ≤ ·.1)).Perm (records.filter (key ≤ ·.1)) ∧
    (leaves.flatMap LeafNode.entries).Pairwise fun a b => a.1 ≤ b.1

instance (key : Key) (records : List LeafKv) (leaves : List LeafNode) :
    Decidable (ScanComplete key records leaves) :=
  inferInstanceAs (Decidable (_ ∧ _))

namespace PlainStore

variable {I : IdSupply} {st : PlainStore I} {tree : BTree} {h : ℕ} {t : PageTree h}
variable {records : List LeafKv}

/-- What a page with a leaf decodes to. -/
def nodeOf (l : Leaf PageId Key RecordId) : LeafNode := ⟨l.next, l.entries⟩

theorem flatMap_nodeOf (ls : List (Leaf PageId Key RecordId)) :
    (ls.map nodeOf).flatMap LeafNode.entries = ls.flatMap Leaf.entries := List.flatMap_map _ _ _

/-! ### Following the chain -/

theorem exec_scanNext_invalid :
    exec (BTree.scanNext invalidPageId) st = .ok ((none, invalidPageId), st) := by
  rw [BTree.scanNext, if_pos rfl]
  rfl

theorem exec_scanNext {l : Leaf PageId Key RecordId}
    (hl : st.HoldsNode (l.id, .leaf l.next l.entries)) (hheld : l.id ∉ st.held) :
    exec (BTree.scanNext l.id) st = .ok ((some (nodeOf l), l.next), st) := by
  obtain ⟨hissued, -, hdecode⟩ := hl
  have hmem : l.id ∈ (st.hold l.id).held := Finset.mem_insert_self _ _
  rw [BTree.scanNext, if_neg (ne_invalid hissued), exec_check hissued hheld, exec_data hmem,
    content_hold, exec_attempt hdecode, exec_drop hmem, release_hold hheld]
  rfl

/-- `next` yields the leaves of a chain up to its end. -/
theorem exec_scanFrom {ls : List (Leaf PageId Key RecordId)} :
    ∀ {start : PageId} {turns : ℕ}, Linked start ls invalidPageId →
      (∀ l ∈ ls, st.HoldsNode (l.id, .leaf l.next l.entries) ∧ l.id ∉ st.held) →
      ls.length < turns → exec (BTree.scanFrom turns start) st = .ok (ls.map nodeOf, st) := by
  induction ls with
  | nil =>
      intro start turns hlinked _ hturns
      obtain ⟨turns, rfl⟩ : ∃ n, turns = n + 1 := ⟨turns - 1, by omega⟩
      obtain rfl : start = invalidPageId := hlinked
      rw [BTree.scanFrom, exec, Prog.run_bind_ok exec_scanNext_invalid]
      rfl
  | cons l ls ih =>
      intro start turns hlinked hls hturns
      obtain ⟨turns, rfl⟩ : ∃ n, turns = n + 1 := ⟨turns - 1, by omega⟩
      obtain ⟨rfl, hlinked⟩ := hlinked
      obtain ⟨hl, hheld⟩ := hls l List.mem_cons_self
      rw [List.length_cons] at hturns
      have hrest := ih hlinked (fun l' hl' => hls l' (List.mem_cons_of_mem _ hl'))
        (show ls.length < turns by omega)
      rw [BTree.scanFrom, exec, Prog.run_bind_ok (exec_scanNext hl hheld)]
      simp only
      rw [Prog.run_bind_ok hrest]
      rfl

/-- A part of the chain of a tree up to its end. -/
theorem exec_scanFrom_suffix (hr : st.Represents tree t records)
    {before ls : List (Leaf PageId Key RecordId)} {start : PageId}
    (hleaves : t.leaves = before ++ ls) (hlinked : Linked start ls invalidPageId) :
    exec (BTree.scanFrom BTree.maxTurns start) st = .ok (ls.map nodeOf, st) := by
  refine exec_scanFrom hlinked (fun l hl => ⟨?_, hr.notMem_held _⟩) ?_
  · refine hr.holds _ (Tree.leaf_mem_nodes ?_)
    rw [hleaves]
    exact List.mem_append_right _ hl
  · have hids := (Tree.leaf_ids_sublist t).length_le
    rw [List.length_map, hleaves, List.length_append] at hids
    have hlt := hr.length_ids_lt
    omega

/-- **The chain of leaves.** From the leftmost leaf on, `next` visits every
leaf once, from left to right, and ends; the entries of the leaves are in key
order and are exactly the inserted records. -/
theorem chain_build (I : IdSupply) (B : Build) (S : KeySort) {L M : ℕ} (hL : 1 ≤ L ∧ L ≤ 511)
    (hM : 2 ≤ M ∧ M ≤ 681) {records : List LeafKv} (hne : records ≠ []) :
    (exec (BTree.build B S L M records) (.new I) = .error .outOfIds ∧
      ¬I.Suffices L M records.length) ∨
    ∃ (tree : BTree) (st : PlainStore I) (h : ℕ) (t : PageTree h)
      (first : Leaf PageId Key RecordId),
      exec (BTree.build B S L M records) (.new I) = .ok (tree, st) ∧
      t.id = tree.rootPageId ∧ st.Holds t ∧ t.leaves.head? = some first ∧
      Linked first.id t.leaves invalidPageId ∧ (t.leaves.map Leaf.id).Nodup ∧
      exec (BTree.scanFrom BTree.maxTurns first.id) st = .ok (t.leaves.map nodeOf, st) ∧
      SortedKeys (t.leaves.flatMap Leaf.entries) ∧
      (t.leaves.flatMap Leaf.entries).Perm records := by
  rcases exec_build I B S hL hM hne with hfew | ⟨tree, st, h, t, hrun, -, -, hb⟩
  · exact Or.inl hfew
  have hr := hb.toRepresents
  have hwf := hr.wellFormed
  obtain ⟨start, hlinked⟩ := hwf.linked
  obtain ⟨first, rest, hfirst⟩ : ∃ first rest, t.leaves = first :: rest := by
    apply List.exists_cons_of_ne_nil
    intro hnil
    apply hwf.searchable.separated.entries_ne_nil
    rw [Tree.entries, hnil]
    rfl
  obtain rfl : start = first.id := by
    rw [hfirst] at hlinked
    exact hlinked.1
  have hnodup := (List.nodup_cons.mp hr.nodup).2
  exact Or.inr ⟨tree, st, h, t, first, hrun, hr.root.symm, hr.holds, by rw [hfirst]; rfl,
    hlinked, hnodup.sublist (Tree.leaf_ids_sublist t),
    exec_scanFrom_suffix hr (List.nil_append _).symm hlinked,
    hwf.searchable.sorted, hr.entries⟩

theorem chain_build_twins :
    ∃ (tree : BTree) (st : PlainStore (.counting 10 (by decide))) (h : ℕ) (t : PageTree h)
      (first : Leaf PageId Key RecordId),
      exec (BTree.build ⟨true⟩ .insertion 2 2 [(5, ⟨1, 1⟩), (5, ⟨1, 2⟩), (-3, ⟨2, 0⟩)])
        (.new _) = .ok (tree, st) ∧
      t.id = tree.rootPageId ∧ st.Holds t ∧ t.leaves.head? = some first ∧
      Linked first.id t.leaves invalidPageId ∧ (t.leaves.map Leaf.id).Nodup ∧
      exec (BTree.scanFrom BTree.maxTurns first.id) st = .ok (t.leaves.map nodeOf, st) ∧
      SortedKeys (t.leaves.flatMap Leaf.entries) ∧
      (t.leaves.flatMap Leaf.entries).Perm [(5, ⟨1, 1⟩), (5, ⟨1, 2⟩), (-3, ⟨2, 0⟩)] :=
  (chain_build (.counting 10 (by decide)) ⟨true⟩ .insertion (by decide) (by decide)
    (List.cons_ne_nil _ _)).resolve_left fun h => h.2 (IdSupply.suffices_of_square (by decide))

/-! ### Scans -/

/-- A scan yields the leaves from the one that `locate` finds on. -/
theorem exec_scanAll (B : Build) (key : Key) (hr : st.Represents tree t records) :
    ∃ before l after, exec (tree.scanAll B key) st = .ok ((l :: after).map nodeOf, st) ∧
      t.leaves = before ++ l :: after ∧
      (before ≠ [] → ∃ a, l.entries.head?.map Prod.fst = some a ∧ a ≤ key) ∧
      ∀ l' ∈ after, ∀ x ∈ l'.entries, key < x.1 := by
  obtain ⟨before, l, after, hl, hleaves, hbefore, hafter⟩ :=
    hr.wellFormed.searchable.locate_spec key
  obtain ⟨start, hlinked⟩ := hr.wellFormed.linked
  rw [hleaves] at hlinked
  obtain ⟨mid, -, rfl, hlinked⟩ := linked_append.mp hlinked
  refine ⟨before, l, after, ?_, hleaves, hbefore, hafter⟩
  rw [BTree.scanAll, BTree.scan]
  simp only [bind_assoc]
  rw [exec_findLeaf B hr hl]
  exact exec_scanFrom_suffix hr hleaves ⟨rfl, hlinked⟩

/-- **What a scan misses.** It yields every record from its key on, once and
in order, if and only if at most one leaf of the tree has a record with the
key. -/
theorem scan_build (I : IdSupply) (B : Build) (S : KeySort) {L M : ℕ} (hL : 1 ≤ L ∧ L ≤ 511)
    (hM : 2 ≤ M ∧ M ≤ 681) {records : List LeafKv} (hne : records ≠ []) (key : Key) :
    (exec (BTree.build B S L M records) (.new I) = .error .outOfIds ∧
      ¬I.Suffices L M records.length) ∨
    ∃ (tree : BTree) (st : PlainStore I) (h : ℕ) (t : PageTree h) (leaves : List LeafNode),
      exec (BTree.build B S L M records) (.new I) = .ok (tree, st) ∧
      t.id = tree.rootPageId ∧ st.Holds t ∧ exec (tree.scanAll B key) st = .ok (leaves, st) ∧
      (ScanComplete key records leaves ↔ (t.leaves.filter (Leaf.Has key ·)).length ≤ 1) := by
  rcases exec_build I B S hL hM hne with hfew | ⟨tree, st, h, t, hrun, -, -, hb⟩
  · exact Or.inl hfew
  have hr := hb.toRepresents
  obtain ⟨before, l, after, hscan, hleaves, hbefore, hafter⟩ := exec_scanAll B key hr
  refine Or.inr ⟨tree, st, h, t, _, hrun, hr.root.symm, hr.holds, hscan, ?_⟩
  have hs := hr.wellFormed.searchable
  have hsorted := hs.sorted
  rw [Tree.entries, hleaves, List.flatMap_append] at hsorted
  have hrecords := hr.entries.filter (key ≤ ·.1)
  rw [← hs.chain_complete_iff hleaves hbefore hafter, ScanComplete, flatMap_nodeOf]
  constructor
  · rintro ⟨hperm, -⟩
    exact hperm.trans hrecords.symm
  · intro hperm
    exact ⟨hperm.trans hrecords, (sortedKeys_append.mp hsorted).2.1⟩

theorem scan_build_pair :
    ∃ (tree : BTree) (st : PlainStore (.counting 10 (by decide))) (h : ℕ) (t : PageTree h)
      (leaves : List LeafNode),
      exec (BTree.build ⟨true⟩ .insertion 1 2 [(5, ⟨1, 1⟩), (5, ⟨1, 2⟩)]) (.new _) =
        .ok (tree, st) ∧
      t.id = tree.rootPageId ∧ st.Holds t ∧ exec (tree.scanAll ⟨true⟩ 5) st = .ok (leaves, st) ∧
      (ScanComplete 5 [(5, ⟨1, 1⟩), (5, ⟨1, 2⟩)] leaves ↔
        (t.leaves.filter (Leaf.Has 5 ·)).length ≤ 1) :=
  (scan_build (.counting 10 (by decide)) ⟨true⟩ .insertion (by decide) (by decide)
    (List.cons_ne_nil _ _) 5).resolve_left fun h => h.2 (IdSupply.suffices_of_square (by decide))

/-- Four records with one key fill two leaves of at most three. -/
def equalKeys : List LeafKv := [(5, ⟨1, 0⟩), (5, ⟨1, 1⟩), (5, ⟨1, 2⟩), (5, ⟨1, 3⟩)]

/-- The scan from the key has two of the four. -/
theorem equalKeys_scan_misses :
    ∃ leaves st, exec (BTree.build ⟨true⟩ .insertion 3 2 equalKeys >>=
        fun tree => tree.scanAll ⟨true⟩ 5) (.new (.counting 17 (by decide))) = .ok (leaves, st) ∧
      ¬ScanComplete 5 equalKeys leaves := by
  have hrun : (exec (BTree.build ⟨true⟩ .insertion 3 2 equalKeys >>=
      fun tree => tree.scanAll ⟨true⟩ 5) (.new (.counting 17 (by decide)))).toOption.map
        Prod.fst = some [⟨invalidPageId, [(5, ⟨1, 2⟩), (5, ⟨1, 3⟩)]⟩] := by decide +kernel
  obtain ⟨st, hst⟩ := exists_ok_of_toOption hrun
  exact ⟨_, st, hst, by decide⟩

end PlainStore

end StorageEngine
