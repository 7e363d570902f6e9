import StorageEngine.Tree.Codec
import StorageEngine.Tree.NodeSearch
import StorageEngine.Tree.PlainStore

/-!
Searches on a tree kept in a plain store.

`Holds` says that the pages of the store are the nodes of a tree. The binary
search of a branch finds the child before which the tree library cuts, and
with it `find_leaf` ends in the leaf that `locate` finds.
-/

namespace StorageEngine

open Lib Lib.BPlus

/-- Trees of keys and record ids over page ids. -/
abbrev PageTree (h : ℕ) : Type := Tree PageId Key RecordId h

/-! ### The search within a branch -/

namespace InternalNode

/-- The number of entries up to `key`, cut off where a later one is greater. -/
theorem length_takeWhile_eq {entries : List InternalKv} {key : Key} {m : ℕ}
    (hm : m ≤ entries.length) (hle : ∀ i e, i < m → entries[i]? = some e → e.1 ≤ key)
    (hgt : ∀ e, entries[m]? = some e → key < e.1) :
    (entries.takeWhile (·.1 ≤ key)).length = m := by
  have hall : ∀ e ∈ entries.take m, decide (e.1 ≤ key) = true := by
    intro e he
    obtain ⟨i, hi, heq⟩ := List.mem_iff_getElem.mp he
    have hlt : i < m := by
      rw [List.length_take] at hi
      omega
    have hget : entries[i]? = some e := by
      rw [← heq, List.getElem_take, List.getElem?_eq_getElem]
    simpa using hle i e hlt hget
  have hnil : (entries.drop m).takeWhile (fun e => decide (e.1 ≤ key)) = [] := by
    cases hd : entries.drop m with
    | nil => rfl
    | cons e rest =>
        have hget : entries[m]? = some e := by
          rw [← List.head?_drop, hd]
          rfl
        rw [List.takeWhile_cons_of_neg]
        simpa using hgt e hget
  have htake : entries.takeWhile (fun e => decide (e.1 ≤ key)) = entries.take m := by
    rw [← List.take_append_drop m entries, List.takeWhile_append_of_pos hall, hnil,
      List.append_nil, List.take_append_drop]
  rw [htake, List.length_take]
  omega

/-- `find_child_index` finds the child before which the children are cut. -/
theorem findChildIndex_eq {h : ℕ} (B : Build) {t : PageTree (h + 1)} (hs : t.Searchable)
    {key : Key} {pre post : List (Key × PageTree h)} {e : Key × PageTree h}
    (hcut : cut key t.children = some (pre, e, post)) :
    findChildIndex B ⟨t.children.map fun e => (e.1, e.2.id)⟩ key = .ok pre.length := by
  have hsorted : (t.children.map fun e => (e.1, e.2.id)).Pairwise fun a b => a.1 ≤ b.1 :=
    List.pairwise_map.mpr hs.children_sorted
  have hlen : ((t.children.map fun e => (e.1, e.2.id)).takeWhile (·.1 ≤ key)).length =
      pre.length + 1 := by
    rw [List.takeWhile_map, List.length_map]
    have htake := takeWhile_of_cut hcut
    simp only [Function.comp_def]
    rw [htake, List.length_append, List.length_singleton]
  obtain ⟨c, rest, hc, -⟩ := hs.separated.branch.1
  obtain ⟨i, -, hfind, hnarrowed⟩ := findChildIndex_spec B
    ⟨t.children.map fun e => (e.1, e.2.id)⟩ hsorted (e := (⊥, c.id)) (by rw [hc]; rfl) bot_le
  rw [length_takeWhile_eq hnarrowed.high_le hnarrowed.below
    fun e he => hnarrowed.above _ e le_rfl he] at hlen
  rw [hfind, Nat.succ_injective hlen]

end InternalNode

/-! ### Trees in a store -/

namespace PlainStore

variable {I : IdSupply} {st : PlainStore I}

/-- The page of the store is the node. -/
def HoldsNode (st : PlainStore I) (x : PageId × Node PageId Key RecordId) : Prop :=
  x.1 ∈ st.issued ∧
    match x.2 with
    | .leaf next entries => (st.content x.1).get 0 = .ok leafNode ∧
        LeafNode.decode (st.content x.1) = .ok { nextPageId := next, entries }
    | .branch entries => (st.content x.1).get 0 = .ok internalNode ∧
        InternalNode.decode (st.content x.1) = .ok { entries }

/-- The pages of the store are the nodes of the tree. -/
def Holds {h : ℕ} (st : PlainStore I) (t : PageTree h) : Prop := ∀ x ∈ t.nodes, st.HoldsNode x

theorem Holds.issued {h : ℕ} {t : PageTree h} (hh : st.Holds t) {p : PageId}
    (hp : p ∈ t.ids) : p ∈ st.issued := by
  obtain ⟨x, hx, rfl⟩ := List.mem_map.mp hp
  exact (hh x hx).1

theorem Holds.leaf {t : PageTree 0} (hh : st.Holds t) :
    (st.content t.id).get 0 = .ok leafNode ∧
      LeafNode.decode (st.content t.id) = .ok ⟨t.toLeaf.next, t.toLeaf.entries⟩ :=
  (hh (t.id, .leaf t.toLeaf.next t.toLeaf.entries) (List.mem_singleton.mpr rfl)).2

theorem Holds.branch {h : ℕ} {t : PageTree (h + 1)} (hh : st.Holds t) :
    (st.content t.id).get 0 = .ok internalNode ∧ InternalNode.decode (st.content t.id) =
      .ok ⟨t.children.map fun e => (e.1, e.2.id)⟩ :=
  (hh (t.id, .branch (t.children.map fun e => (e.1, e.2.id))) List.mem_cons_self).2

theorem Holds.child {h : ℕ} {t : PageTree (h + 1)} (hh : st.Holds t)
    {e : Key × PageTree h} (he : e ∈ t.children) : st.Holds e.2 := fun x hx =>
  hh x (List.mem_cons_of_mem _ (List.mem_flatMap.mpr ⟨e, he, hx⟩))

theorem release_hold {p : PageId} (hp : p ∉ st.held) : (st.hold p).release p = st := by
  rw [hold, release]
  simp only [Finset.erase_insert hp]

theorem getElem?_map_of_cut {h : ℕ} {t : PageTree (h + 1)}
    {pre post : List (Key × PageTree h)} {e : Key × PageTree h}
    (hc : t.children = pre ++ e :: post) :
    (t.children.map fun e => (e.1, e.2.id))[pre.length]? = some (e.1, e.2.id) := by
  rw [hc, List.map_append, List.getElem?_append_right (by simp)]
  simp

/-- The loop of `find_leaf` ends in the leaf that `locate` finds. -/
theorem exec_findLeafFrom {α : Type} (B : Build) (key : Key)
    (f : Option (LeafNode × PageId) → PageProg α) :
    ∀ {h : ℕ} {t : PageTree h} {turns : ℕ}, t.Searchable → st.Holds t →
      (∀ p ∈ t.ids, p ∉ st.held) → h < turns → ∀ {l}, t.locate key = some l →
      exec (BTree.findLeafFrom B key turns t.id >>= f) st =
        exec (f (some (⟨l.next, l.entries⟩, l.id))) st
  | 0, t, turns + 1, hs, hh, hheld, hturns, l, hl => by
      obtain rfl : t.toLeaf = l := Option.some.inj hl
      obtain ⟨htype, hdecode⟩ := hh.leaf
      have hid := Tree.id_mem_ids t
      have hmem : t.id ∈ (st.hold t.id).held := by simp
      rw [BTree.findLeafFrom]
      simp only [bind_assoc]
      rw [exec_check (hh.issued hid) (hheld _ hid), exec_data hmem, content_hold,
        exec_attempt htype]
      simp only [if_true, bind_assoc]
      rw [exec_attempt hdecode, exec_drop hmem, release_hold (hheld _ hid)]
      rfl
  | h + 1, t, turns + 1, hs, hh, hheld, hturns, l, hl => by
      obtain ⟨htype, hdecode⟩ := hh.branch
      have hid := Tree.id_mem_ids t
      have hmem : t.id ∈ (st.hold t.id).held := by simp
      rw [Tree.locate] at hl
      split at hl
      · simp at hl
      next pre e post hcut =>
      obtain ⟨hc, -⟩ := hs.cut_spec hcut
      have he : e ∈ t.children := by simp [hc]
      rw [BTree.findLeafFrom]
      simp only [bind_assoc]
      rw [exec_check (hh.issued hid) (hheld _ hid), exec_data hmem, content_hold,
        exec_attempt htype]
      simp only [internalNode_ne, if_false, if_true, bind_assoc]
      rw [exec_attempt hdecode, exec_attempt (InternalNode.findChildIndex_eq B hs hcut),
        exec_attempt (b := (e.1, e.2.id)) (by rw [getElem?_map_of_cut hc]; rfl),
        exec_drop hmem, release_hold (hheld _ hid)]
      refine exec_findLeafFrom B key f (hs.child hc) (hh.child he) (fun p hp => ?_) (by omega) hl
      apply hheld p
      rw [Tree.ids_of_branch]
      exact List.mem_cons_of_mem _ (List.mem_flatMap.mpr ⟨e, he, hp⟩)

end PlainStore

end StorageEngine
