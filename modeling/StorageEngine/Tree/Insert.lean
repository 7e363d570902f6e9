import StorageEngine.Lib.BPlusPath
import StorageEngine.Tree.Search

/-!
The insert of the B+Tree performs the insertion of the tree library.

`Performs` compares a run on a plain store with the outcome of an insertion
below one node: the run ends with the tree in the store, or goes on with the
propagation of the split to the path stack. It is proved for the leaf, for
one turn of the propagation against `graft`, and by induction on the height
for the descent.
-/

namespace StorageEngine

open Lib Lib.BPlus

/-- The order of `sort_unstable_by_key` is the one the library asks for. -/
theorem KeySort.sorts (S : KeySort) : Sorts S.sort := ⟨S.perm, S.sorted⟩

/-- The maximal sizes with which every node fits into a page. -/
structure BTree.Sized (tree : BTree) : Prop where
  one_le_leaf : 1 ≤ tree.leafNodeMaxSize
  leaf_le : tree.leafNodeMaxSize ≤ 511
  two_le_internal : 2 ≤ tree.internalNodeMaxSize
  internal_le : tree.internalNodeMaxSize ≤ 681

theorem BTree.Sized.of_eq {tree : BTree} {L M : ℕ} (hL : 1 ≤ L ∧ L ≤ 511) (hM : 2 ≤ M ∧ M ≤ 681)
    (hleaf : tree.leafNodeMaxSize = L) (hinternal : tree.internalNodeMaxSize = M) :
    tree.Sized := by
  subst hleaf hinternal
  exact ⟨hL.1, hL.2, hM.1, hM.2⟩

namespace PlainStore

variable {I : IdSupply} {st st' st'' : PlainStore I}

/-! ### What a run keeps -/

/-- The pages handed out so far are as before, but for `ids`. -/
structure Keeps (ids : List PageId) (st st' : PlainStore I) : Prop where
  next_le : st.next ≤ st'.next
  content : ∀ p ∈ st.issued, p ∉ ids → st'.content p = st.content p

namespace Keeps

variable {ids ids' : List PageId}

theorem issued (h : Keeps ids st st') {p : PageId} (hp : p ∈ st.issued) : p ∈ st'.issued :=
  (List.take_sublist_take_left h.next_le).subset hp

theorem mono (h : Keeps ids st st') (hsub : ids ⊆ ids') : Keeps ids' st st' where
  next_le := h.next_le
  content := fun p hp hnot => h.content p hp fun hmem => hnot (hsub hmem)

theorem trans (h : Keeps ids st st') (h' : Keeps ids st' st'') : Keeps ids st st'' where
  next_le := h.next_le.trans h'.next_le
  content := fun p hp hnot => (h'.content p (h.issued hp) hnot).trans (h.content p hp hnot)

theorem holdsNode (h : Keeps ids st st') {x : PageId × Node PageId Key RecordId}
    (hx : st.HoldsNode x) (hnot : x.1 ∉ ids) : st'.HoldsNode x := by
  refine ⟨h.issued hx.1, ?_⟩
  rw [h.content x.1 hx.1 hnot]
  exact hx.2

theorem holds (h : Keeps ids st st') {n : ℕ} {t : PageTree n} (ht : st.Holds t)
    (hnot : ∀ p ∈ t.ids, p ∉ ids) : st'.Holds t := fun x hx =>
  h.holdsNode (ht x hx) (hnot x.1 (List.mem_map_of_mem hx))

/-- A tree without the page that was written. -/
theorem holds_of_notMem {p : PageId} (h : Keeps [p] st st') {n : ℕ} {t : PageTree n}
    (ht : st.Holds t) (hnot : p ∉ t.ids) : st'.Holds t := by
  apply h.holds ht
  intro q hq hqp
  rw [List.mem_singleton.mp hqp] at hq
  exact hnot hq

/-- A run that has written a new page and the page `p`. -/
theorem of_alloc {p new : PageId} {rest : List PageId} (hfresh : st.fresh = new :: rest)
    (hnext : st'.next = st.next + 1)
    (hcontent : ∀ q, q ≠ p → q ≠ new → st'.content q = st.content q) : Keeps [p] st st' where
  next_le := hnext.symm ▸ Nat.le_succ _
  content := fun q hq hnot => hcontent q (by simpa using hnot) (ne_new hfresh hq)

end Keeps

/-! ### The path stack -/

/-- The pages of the stack are those with a guard. -/
structure OnStack (st : PlainStore I) (stack : List PageId) : Prop where
  nodup : stack.Nodup
  held : st.held = stack.toFinset
  issued : ∀ p ∈ stack, p ∈ st.issued

namespace OnStack

variable {α : Type} {p : PageId} {stack : List PageId}

theorem mem_held (h : st.OnStack stack) : p ∈ st.held ↔ p ∈ stack := by
  rw [h.held, List.mem_toFinset]

theorem top (h : st.OnStack (p :: stack)) : p ∈ st.held := h.mem_held.mpr List.mem_cons_self

theorem push (h : st.OnStack stack) (hp : p ∈ st.issued) (hnot : p ∉ stack) :
    (st.hold p).OnStack (p :: stack) where
  nodup := List.nodup_cons.mpr ⟨hnot, h.nodup⟩
  held := by rw [held_hold, h.held, List.toFinset_cons]
  issued := fun q hq => by
    rcases List.mem_cons.mp hq with rfl | hq
    · exact hp
    · exact h.issued q hq

theorem pop (h : st.OnStack (p :: stack)) : (st.release p).OnStack stack where
  nodup := (List.nodup_cons.mp h.nodup).2
  held := by
    rw [held_release, h.held, List.toFinset_cons, Finset.erase_insert]
    rw [List.mem_toFinset]
    exact (List.nodup_cons.mp h.nodup).1
  issued := fun q hq => h.issued q (List.mem_cons_of_mem _ hq)

theorem put (h : st.OnStack stack) (page : Page) : (st.put p page).OnStack stack :=
  ⟨h.nodup, h.held, h.issued⟩

theorem alloc {rest : List PageId} (h : st.OnStack stack) (hfresh : st.fresh = p :: rest) :
    (st.alloc p).OnStack stack :=
  ⟨h.nodup, h.held, fun q hq => (mem_issued_alloc hfresh).mpr (Or.inr (h.issued q hq))⟩

theorem notMem_fresh {rest : List PageId} (h : st.OnStack stack) (hfresh : st.fresh = p :: rest) :
    p ∉ stack := fun hp => notMem_issued hfresh (h.issued p hp)

/-- The stack dropped from its bottom, up to what is above it. -/
theorem exec_dropAll (h : st.OnStack (p :: stack)) {f : Unit → PageProg α} :
    exec (PageProg.dropAll stack.reverse >>= f) st = exec (f ()) { st with held := {p} } := by
  rw [PlainStore.exec_dropAll (List.nodup_reverse.mpr (List.nodup_cons.mp h.nodup).2)
    fun q hq => h.mem_held.mpr (List.mem_cons_of_mem _ (List.mem_reverse.mp hq))]
  have hset : st.held \ stack.reverse.toFinset = {p} := by
    rw [h.held, List.toFinset_reverse, List.toFinset_cons, Finset.insert_sdiff_of_notMem,
      Finset.sdiff_self]
    · rfl
    · rw [List.mem_toFinset]
      exact (List.nodup_cons.mp h.nodup).1
  rw [hset]

theorem exec_dropAll_all (h : st.OnStack stack) {f : Unit → PageProg α} :
    exec (PageProg.dropAll stack.reverse >>= f) st = exec (f ()) { st with held := ∅ } := by
  rw [PlainStore.exec_dropAll (List.nodup_reverse.mpr h.nodup)
    fun q hq => h.mem_held.mpr (List.mem_reverse.mp hq), h.held, List.toFinset_reverse,
    Finset.sdiff_self]

end OnStack

/-- The run of `prog`, below which are the guards of `stack`, carries out an
insertion with the given outcome at the node `id`, and writes to the pages
`ids` only. -/
def Performs {h : ℕ} (tree : BTree) (stack ids : List PageId) (id : PageId)
    (prog : PageProg BTree) (st : PlainStore I) :
    Option (Grown (PageTree h) Key × List PageId) → Prop
  | none => exec prog st = .error .outOfIds
  | some (.fit t, fresh) => ∃ st', exec prog st = .ok (tree, st') ∧ Keeps ids st st' ∧
      st'.fresh = fresh ∧ st'.held = ∅ ∧ st'.Holds t
  | some (.split l s r, fresh) => ∃ st',
      exec prog st = exec (tree.propagate stack (s, r.id) id) st' ∧ Keeps ids st st' ∧
      st'.fresh = fresh ∧ st'.OnStack stack ∧ st'.Holds l ∧ st'.Holds r

theorem Holds.release {h : ℕ} {t : PageTree h} (hh : st.Holds t) (p : PageId) :
    (st.release p).Holds t := hh

/-! ### The leaf -/

theorem holds_leaf {id next : PageId} {entries : List LeafKv} (hid : id ∈ st.issued)
    (htype : (st.content id).get 0 = .ok leafNode)
    (hdecode : LeafNode.decode (st.content id) = .ok ⟨next, entries⟩) :
    st.Holds (Tree.leaf id next entries) := by
  intro x hx
  obtain rfl := List.mem_singleton.mp hx
  exact ⟨hid, htype, hdecode⟩

/-- The split of a leaf: the new record is sorted in, and the upper half goes
to a new page. -/
theorem exec_splitLeaf {α : Type} {f : InternalKv → PageProg α} (S : KeySort) {key : Key}
    {rid : RecordId} {t : PageTree 0} {stack : List PageId} {new : PageId}
    {fresh : List PageId} {es right : List LeafKv} {e : LeafKv} (hh : st.Holds t)
    (hstack : st.OnStack stack) (hnot : t.id ∉ stack) (hfresh : st.fresh = new :: fresh)
    (hes : S.sort (t.toLeaf.entries ++ [(key, rid)]) = es)
    (hdrop : es.drop (es.length / 2) = e :: right) (hlen : es.length ≤ 512)
    (hpos : 2 ≤ es.length) :
    ∃ st', exec (BTree.splitLeaf S t.id key rid >>= f) st = exec (f (e.1, new)) st' ∧
      Keeps [t.id] st st' ∧ st'.fresh = fresh ∧ st'.OnStack stack ∧
      st'.Holds (Tree.leaf t.id new (es.take (es.length / 2))) ∧
      st'.Holds (Tree.leaf new t.toLeaf.next (e :: right)) := by
  obtain ⟨-, hdecode⟩ := hh.leaf
  have hid : t.id ∈ st.issued := hh.issued (Tree.id_mem_ids t)
  have hne : t.id ≠ new := ne_new hfresh hid
  have hright : (e :: right).length = es.length - es.length / 2 := by
    rw [← hdrop, List.length_drop]
  have hleft : (es.take (es.length / 2)).length = es.length / 2 := by
    rw [List.length_take]
    omega
  have hmid : es[es.length / 2]? = some e := by
    rw [← List.head?_drop, hdrop]
    rfl
  have hstack₁ := hstack.alloc hfresh
  have hid₁ : t.id ∈ (st.alloc new).issued := (mem_issued_alloc hfresh).mpr (Or.inr hid)
  have hstack₂ := hstack₁.push hid₁ hnot
  have hnew₂ : new ∉ t.id :: stack := by
    rw [List.mem_cons, not_or]
    exact ⟨hne.symm, hstack.notMem_fresh hfresh⟩
  have hnew₁ : new ∈ ((st.alloc new).hold t.id).issued := mem_issued_new hfresh
  have hstack₃ := hstack₂.push hnew₁ hnew₂
  obtain ⟨b, hencode, htype, hdecode'⟩ := LeafNode.encode_spec ⟨t.toLeaf.next, e :: right⟩
    (.zero pageSize) (by simp only [headerSize, pageSize]; omega) (by decide)
  obtain ⟨b', hencode', htype', hdecode''⟩ := LeafNode.encode_spec
    ⟨new, es.take (es.length / 2)⟩ (st.content t.id)
    (by simp only [headerSize, pageSize]; omega) (by decide)
  have hstack₄ := (hstack₃.put (p := new) b).put (p := t.id) b'
  refine ⟨_, ?_, ?_, ?_, hstack₄.pop.pop, ?_, ?_⟩
  · rw [BTree.splitLeaf]
    simp only [bind_assoc]
    rw [exec_newPage hfresh, exec_check hid₁ (mt hstack₁.mem_held.mp hnot),
      exec_dataMut hstack₂.top, content_hold, content_alloc, Function.update_of_ne hne,
      exec_attempt hdecode]
    simp only [hes]
    rw [exec_attempt (b := e) (by rw [hmid]; rfl),
      exec_check hnew₁ (mt hstack₂.mem_held.mp hnew₂),
      exec_dataMut hstack₃.top, content_hold, content_hold, content_alloc, Function.update_self,
      hdrop, exec_attempt hencode, exec_store hstack₃.top, exec_attempt hencode',
      exec_store (hstack₃.put b |>.mem_held.mpr (by simp)), exec_drop hstack₄.top,
      exec_drop hstack₄.pop.top]
    rfl
  · refine .of_alloc hfresh rfl fun p hp hpnew => ?_
    simp [Function.update_of_ne hp, Function.update_of_ne hpnew]
  · exact fresh_alloc hfresh
  · refine holds_leaf hid₁ ?_ ?_
    · simpa using htype'
    · simpa using hdecode''
  · refine holds_leaf (mem_issued_new hfresh) ?_ ?_
    · simpa [Function.update_of_ne hne.symm] using htype
    · simpa [Function.update_of_ne hne.symm] using hdecode'

theorem performs_insertLeaf {tree : BTree} (hsize : tree.Sized) (S : KeySort) (key : Key)
    (rid : RecordId) {t : PageTree 0} {stack : List PageId} (hh : st.Holds t)
    (hfits : t.Fits tree.leafNodeMaxSize tree.internalNodeMaxSize)
    (hstack : st.OnStack (t.id :: stack)) :
    Performs tree stack [t.id] t.id (tree.insertIntoLeaf S key rid (t.id :: stack)) st
      (insertLeaf S.sort tree.leafNodeMaxSize t key rid st.fresh) := by
  obtain ⟨-, hdecode⟩ := hh.leaf
  have hold : t.toLeaf.entries.length ≤ tree.leafNodeMaxSize := hfits
  have hmax := hsize.leaf_le
  have hlen : (S.sort (t.toLeaf.entries ++ [(key, rid)])).length =
      t.toLeaf.entries.length + 1 := by
    rw [(S.perm _).length_eq, List.length_append, List.length_singleton]
  have hid := hstack.issued t.id List.mem_cons_self
  have hbelow := hstack.pop
  rw [BTree.insertIntoLeaf]
  by_cases hle : (S.sort (t.toLeaf.entries ++ [(key, rid)])).length ≤ tree.leafNodeMaxSize
  · obtain ⟨b, hencode, htype', hdecode'⟩ := LeafNode.encode_spec
      ⟨t.toLeaf.next, S.sort (t.toLeaf.entries ++ [(key, rid)])⟩ (st.content t.id)
      (by simp only [headerSize, pageSize]; omega) (by decide)
    rw [insertLeaf_of_length_le hle]
    refine ⟨{ (st.put t.id b).release t.id with held := ∅ }, ?_, ⟨le_rfl, ?_⟩, rfl, rfl, ?_⟩
    · rw [exec_dataMut hstack.top, exec_attempt hdecode]
      simp only [not_lt.mpr hle, if_false]
      rw [exec_attempt hencode, exec_store hstack.top, exec_drop (hstack.put b).top,
        (hstack.put b).pop.exec_dropAll_all]
      rfl
    · intro p _ hp
      exact Function.update_of_ne (by simpa using hp) _ _
    · refine holds_leaf hid ?_ ?_
      · show (Function.update st.content t.id b t.id).get 0 = _
        rw [Function.update_self]
        exact htype'
      · show LeafNode.decode (Function.update st.content t.id b t.id) = _
        rw [Function.update_self]
        exact hdecode'
  · have hpos : 0 < (S.sort (t.toLeaf.entries ++ [(key, rid)])).length := by omega
    cases hfresh : st.fresh with
    | nil =>
        rw [insertLeaf_of_nil (by omega)]
        show exec _ st = .error .outOfIds
        rw [exec_dataMut hstack.top, exec_attempt hdecode]
        simp only [not_le.mp hle, if_true]
        rw [exec_drop hstack.top, BTree.splitLeaf]
        simp only [bind_assoc]
        exact exec_newPage_nil hfresh
    | cons new fresh =>
        generalize hes : S.sort (t.toLeaf.entries ++ [(key, rid)]) = es at *
        obtain ⟨e, right, hdrop⟩ := List.exists_cons_of_ne_nil (drop_half_ne_nil hpos)
        have hmin := hsize.one_le_leaf
        have hle512 : es.length ≤ 512 := by omega
        have hge2 : 2 ≤ es.length := by omega
        obtain ⟨st', hexec, hkeeps, hfresh', hstack', hl, hr⟩ :=
          exec_splitLeaf (f := fun kv => tree.propagate stack kv t.id) S (hh.release t.id)
            hbelow (List.nodup_cons.mp hstack.nodup).1 hfresh hes hdrop hle512 hge2
        subst hes
        rw [insertLeaf_of_lt (not_le.mp hle) hdrop]
        refine ⟨st', ?_, ⟨hkeeps.next_le, hkeeps.content⟩, hfresh', hstack', hl, hr⟩
        rw [exec_dataMut hstack.top, exec_attempt hdecode]
        simp only [not_le.mp hle, if_true]
        rw [exec_drop hstack.top]
        exact hexec

/-! ### The ancestors -/

section Branch

variable {h : ℕ} {id : PageId} {pre post cs : List (Key × PageTree h)} {e : Key × PageTree h}

theorem holds_branch (hid : id ∈ st.issued) (htype : (st.content id).get 0 = .ok internalNode)
    (hdecode : InternalNode.decode (st.content id) = .ok ⟨cs.map fun e => (e.1, e.2.id)⟩)
    (hh : ∀ e ∈ cs, st.Holds e.2) : st.Holds (Tree.branch id cs) := by
  intro x hx
  rcases List.mem_cons.mp hx with rfl | hx
  · exact ⟨hid, htype, hdecode⟩
  · obtain ⟨e, he, hxe⟩ := List.mem_flatMap.mp hx
    exact hh e he x hxe

/-- The position of the split child among the entries. -/
theorem findIdx?_of_pre (hpre : ∀ x ∈ pre, x.2.id ≠ e.2.id) :
    ((pre ++ e :: post).map fun e => (e.1, e.2.id)).findIdx?
      (fun x : InternalKv => x.2 = e.2.id) = some pre.length := by
  induction pre with
  | nil => simp [List.findIdx?_cons]
  | cons p pre ih =>
      have hp : p.2.id ≠ e.2.id := hpre p List.mem_cons_self
      rw [List.cons_append, List.map_cons, List.findIdx?_cons, if_neg (by simpa using hp),
        ih fun x hx => hpre x (List.mem_cons_of_mem _ hx)]
      rfl

theorem insertIdx_of_pre {α : Type*} (xs : List α) (y z : α) (ys : List α) :
    (xs ++ y :: ys).insertIdx (xs.length + 1) z = xs ++ y :: z :: ys := by
  induction xs with
  | nil => rfl
  | cons x xs ih =>
      rw [List.cons_append, List.length_cons, List.insertIdx_succ_cons, ih]
      rfl

/-- The children of a branch that is written anew. -/
theorem Keeps.holds_children {id : PageId} {cs ds : List (Key × PageTree h)}
    (hkeeps : Keeps [id] st st') (hh : ∀ x ∈ cs, st.Holds x.2) (hid : ∀ x ∈ cs, id ∉ x.2.ids)
    (hsub : ∀ x ∈ ds, ∃ y ∈ cs, y.2 = x.2) : ∀ x ∈ ds, st'.Holds x.2 := by
  intro x hx
  obtain ⟨y, hy, hyx⟩ := hsub x hx
  rw [← hyx]
  exact hkeeps.holds_of_notMem (hh y hy) (hid y hy)

/-- One turn of the propagation at a branch that overflows: the upper half of
its entries `cs` goes to a new page. -/
theorem exec_splitBranch {tree : BTree} (hsize : tree.Sized) {entries : List InternalKv} {i : ℕ}
    {kv : InternalKv} {left new : PageId} {stack fresh : List PageId} {x : Key × PageTree h}
    {right : List (Key × PageTree h)}
    (hdecode : InternalNode.decode (st.content id) = .ok ⟨entries⟩)
    (hindex : entries.findIdx? (fun e => e.2 = left) = some i)
    (hentries : entries.insertIdx (i + 1) kv = cs.map fun e => (e.1, e.2.id))
    (hlt : tree.internalNodeMaxSize < cs.length) (hlen : cs.length ≤ tree.internalNodeMaxSize + 1)
    (hdrop : cs.drop (cs.length / 2) = x :: right) (hfresh : st.fresh = new :: fresh)
    (hh : ∀ x ∈ cs, st.Holds x.2) (hid : ∀ x ∈ cs, id ∉ x.2.ids)
    (hstack : st.OnStack (id :: stack)) :
    ∃ st', exec (tree.propagate (id :: stack) kv left) st =
        exec (tree.propagate stack (x.1, new) id) st' ∧ Keeps [id] st st' ∧ st'.fresh = fresh ∧
      st'.OnStack stack ∧ st'.Holds (Tree.branch id (cs.take (cs.length / 2))) ∧
      st'.Holds (Tree.branch new ((⊥, x.2) :: right)) := by
  have hmax := hsize.internal_le
  have hissued := hstack.issued id List.mem_cons_self
  have hmid : (cs.map fun e => (e.1, e.2.id))[cs.length / 2]? = some (x.1, x.2.id) := by
    rw [List.getElem?_map, ← List.head?_drop, hdrop]
    rfl
  have hright : (((⊥, x.2) :: right : List (Key × PageTree h)).map fun e => (e.1, e.2.id)) =
      (((cs.map fun e => (e.1, e.2.id)).drop (cs.length / 2)).set 0 (invalidKey, x.2.id)) := by
    rw [← List.map_drop, hdrop]
    rfl
  have hrightLen : right.length + 1 = cs.length - cs.length / 2 := by
    rw [← List.length_drop, hdrop, List.length_cons]
  have hne : id ≠ new := ne_new hfresh hissued
  have hstack₁ := hstack.alloc hfresh
  have hnew₁ := mem_issued_new hfresh
  have hnewStack := hstack.notMem_fresh hfresh
  have hstack₂ := hstack₁.push hnew₁ hnewStack
  obtain ⟨b, hencode, htype, hdecode'⟩ := InternalNode.encode_spec
    ⟨((⊥, x.2) :: right).map fun e => (e.1, e.2.id)⟩ (.zero pageSize)
    (by simp only [headerSize, pageSize, List.length_map, List.length_cons]; omega) (by decide)
  obtain ⟨b', hencode', htype', hdecode''⟩ := InternalNode.encode_spec
    ⟨(cs.take (cs.length / 2)).map fun e => (e.1, e.2.id)⟩ (st.content id)
    (by simp only [headerSize, pageSize, List.length_map, List.length_take]; omega) (by decide)
  have hstack₃ := (hstack₂.put (p := new) b).pop
  have hstack₄ := (hstack₃.put (p := id) b').pop
  have hkeeps : Keeps [id] st
      (((((st.alloc new).hold new).put new b).release new).put id b' |>.release id) := by
    refine .of_alloc hfresh rfl fun p hp hpnew => ?_
    simp [Function.update_of_ne hp, Function.update_of_ne hpnew]
  refine ⟨_, ?_, hkeeps, fresh_alloc hfresh, hstack₄, holds_branch ?_ ?_ ?_ ?_,
    holds_branch hnew₁ ?_ ?_ ?_⟩
  · rw [BTree.propagate, exec_dataMut hstack.top, exec_attempt hdecode,
      exec_attempt (b := i) (by rw [hindex]; rfl)]
    simp only [hentries, List.length_map, not_le.mpr hlt, if_false]
    rw [exec_attempt (b := (x.1, x.2.id)) (by rw [hmid]; rfl), exec_newPage hfresh,
      exec_check hnew₁ (mt hstack₁.mem_held.mp hnewStack),
      exec_dataMut hstack₂.top, content_hold, content_alloc, Function.update_self,
      exec_attempt (b := b) (by rw [← hright]; exact hencode), exec_store hstack₂.top,
      exec_drop (hstack₂.put b).top,
      exec_attempt (b := b') (by rw [← List.map_take]; exact hencode'),
      exec_store hstack₃.top, exec_drop (hstack₃.put b').top]
  · exact hkeeps.issued hissued
  · simpa using htype'
  · simpa using hdecode''
  · exact hkeeps.holds_children hh hid fun y hy => ⟨y, List.mem_of_mem_take hy, rfl⟩
  · simpa [Function.update_of_ne hne.symm] using htype
  · simpa [Function.update_of_ne hne.symm] using hdecode'
  · apply hkeeps.holds_children hh hid
    intro y hy
    have hxmem : ∀ z ∈ x :: right, z ∈ cs := fun z hz => List.mem_of_mem_drop (hdrop ▸ hz)
    rcases List.mem_cons.mp hy with rfl | hy
    · exact ⟨x, hxmem x List.mem_cons_self, rfl⟩
    · exact ⟨y, hxmem y (List.mem_cons_of_mem _ hy), rfl⟩

/-- One turn of the propagation: the separator enters the branch, whose
entries are then `cs`. -/
theorem performs_graft {tree : BTree} (hsize : tree.Sized) {l r : PageTree h} {s : Key}
    {stack : List PageId} (hcs : cs = pre ++ ((e.1, l) :: (s, r) :: post)) (hl : l.id = e.2.id)
    (hdecode : InternalNode.decode (st.content id) =
      .ok ⟨(pre ++ e :: post).map fun e => (e.1, e.2.id)⟩)
    (hpre : ∀ x ∈ pre, x.2.id ≠ e.2.id) (hlen : cs.length ≤ tree.internalNodeMaxSize + 1)
    (hh : ∀ x ∈ cs, st.Holds x.2) (hid : ∀ x ∈ cs, id ∉ x.2.ids)
    (hstack : st.OnStack (id :: stack)) :
    Performs tree stack [id] id (tree.propagate (id :: stack) (s, r.id) e.2.id) st
      (graft tree.internalNodeMaxSize id cs st.fresh) := by
  have hmax := hsize.internal_le
  have hmin := hsize.two_le_internal
  have hissued := hstack.issued id List.mem_cons_self
  have hindex : ((pre ++ e :: post).map fun e => (e.1, e.2.id)).findIdx?
      (fun x : InternalKv => x.2 = e.2.id) = some pre.length := findIdx?_of_pre hpre
  have hentries : ((pre ++ e :: post).map fun e => (e.1, e.2.id)).insertIdx (pre.length + 1)
      (s, r.id) = cs.map fun e => (e.1, e.2.id) := by
    have hins := insertIdx_of_pre (pre.map fun e => (e.1, e.2.id)) (e.1, e.2.id) (s, r.id)
      (post.map fun e => (e.1, e.2.id))
    rw [List.length_map] at hins
    rw [List.map_append, List.map_cons, hins, hcs]
    simp [hl]
  by_cases hle : cs.length ≤ tree.internalNodeMaxSize
  · obtain ⟨b, hencode, htype, hdecode'⟩ := InternalNode.encode_spec
      ⟨cs.map fun e => (e.1, e.2.id)⟩ (st.content id)
      (by simp only [headerSize, pageSize, List.length_map]; omega) (by decide)
    rw [graft_of_length_le hle]
    have hkeeps : Keeps [id] st { (st.put id b).release id with held := ∅ } :=
      ⟨le_rfl, fun p _ hp => Function.update_of_ne (by simpa using hp) _ _⟩
    refine ⟨_, ?_, hkeeps, rfl, rfl, holds_branch hissued ?_ ?_
      (hkeeps.holds_children hh hid fun x hx => ⟨x, hx, rfl⟩)⟩
    · rw [BTree.propagate, exec_dataMut hstack.top, exec_attempt hdecode,
        exec_attempt (b := pre.length) (by rw [hindex]; rfl)]
      simp only [hentries, List.length_map, hle, if_true]
      rw [exec_attempt hencode, exec_store hstack.top, exec_drop (hstack.put b).top,
        (hstack.put b).pop.exec_dropAll_all]
      rfl
    · simpa using htype
    · simpa using hdecode'
  · have hlt : tree.internalNodeMaxSize < cs.length := not_le.mp hle
    have hpos : 0 < cs.length := by omega
    obtain ⟨x, right, hdrop⟩ := List.exists_cons_of_ne_nil (drop_half_ne_nil hpos)
    cases hfresh : st.fresh with
    | nil =>
        have hmid : (cs.map fun e => (e.1, e.2.id))[cs.length / 2]? = some (x.1, x.2.id) := by
          rw [List.getElem?_map, ← List.head?_drop, hdrop]
          rfl
        rw [graft_of_nil hlt]
        show exec _ st = .error .outOfIds
        rw [BTree.propagate, exec_dataMut hstack.top, exec_attempt hdecode,
          exec_attempt (b := pre.length) (by rw [hindex]; rfl)]
        simp only [hentries, List.length_map, hle, if_false]
        rw [exec_attempt (b := (x.1, x.2.id)) (by rw [hmid]; rfl)]
        exact exec_newPage_nil hfresh
    | cons new fresh =>
        rw [graft_of_lt hlt hdrop]
        exact exec_splitBranch hsize hdecode hindex hentries hlt hlen hdrop hfresh hh hid hstack

end Branch

/-! ### The descent -/

section Descent

variable {h : ℕ} {tree : BTree} {B : Build} {S : KeySort} {key : Key} {rid : RecordId}
variable {pre post : List (Key × PageTree h)} {e : Key × PageTree h}

/-- The rest of an insert whose descent is at the node `t`, with the guards
of `stack` below its own. -/
def restOfInsert (B : Build) (S : KeySort) (tree : BTree) (key : Key) (rid : RecordId)
    (turns : ℕ) (stack : List PageId) : {h : ℕ} → PageTree h → PageProg BTree
  | 0, t => tree.insertIntoLeaf S key rid (t.id :: stack)
  | _ + 1, t => do
      let internal : InternalNode := ⟨t.children.map fun e => (e.1, e.2.id)⟩
      let slot ← PageProg.attempt (internal.findChildIndex B key)
      let pathStack ← tree.descend B key turns internal slot (t.id :: stack)
      tree.insertIntoLeaf S key rid pathStack

theorem exec_restOfInsert {t : PageTree (h + 1)} (ht : t.Searchable)
    (hcut : cut key t.children = some (pre, e, post)) (turns : ℕ) (stack : List PageId) :
    exec (restOfInsert B S tree key rid turns stack t) st =
      exec (tree.descend B key turns ⟨t.children.map fun e => (e.1, e.2.id)⟩ pre.length
        (t.id :: stack) >>= tree.insertIntoLeaf S key rid) st :=
  exec_attempt (InternalNode.findChildIndex_eq B ht hcut)

/-- One turn of the descent. At a child with room the guards above it are
dropped. -/
theorem exec_descend (tree : BTree) (B : Build) (S : KeySort) (rid : RecordId) (turns : ℕ)
    {t : PageTree (h + 1)} {stack : List PageId} (ht : t.Searchable) (hh : st.Holds t)
    (hcut : cut key t.children = some (pre, e, post))
    (hnot : e.2.id ∉ t.id :: stack) (hstack : st.OnStack (t.id :: stack)) :
    ∃ stack' st', exec (restOfInsert B S tree key rid (turns + 1) stack t) st =
        exec (restOfInsert B S tree key rid turns stack' e.2) st' ∧
      st'.OnStack (e.2.id :: stack') ∧ st'.content = st.content ∧ st'.next = st.next ∧
      (e.2.Room tree.leafNodeMaxSize tree.internalNodeMaxSize ∧ stack' = [] ∨
        stack' = t.id :: stack) := by
  obtain ⟨hc, -⟩ := ht.cut_spec hcut
  have hchild := hh.child (show e ∈ t.children by simp [hc])
  have hid := hchild.issued (Tree.id_mem_ids e.2)
  have hheld : e.2.id ∉ st.held := mt hstack.mem_held.mp hnot
  have hpush := hstack.push hid hnot
  have hentry : orPanic Panic.index (t.children.map fun e => (e.1, e.2.id))[pre.length]? =
      .ok (e.1, e.2.id) := by
    rw [getElem?_map_of_cut hc]
    rfl
  rw [exec_restOfInsert ht hcut, BTree.descend]
  simp only [bind_assoc]
  rw [exec_attempt hentry, exec_check hid hheld, exec_data hpush.top, content_hold]
  cases h with
  | zero =>
      obtain ⟨htype, hdecode⟩ := hchild.leaf
      rw [exec_attempt htype]
      simp only [leafNode_ne, if_true, if_false, pure_bind, bind_assoc]
      rw [exec_drop hpush.top, release_hold hheld, exec_check hid hheld, exec_dataMut hpush.top,
        content_hold, exec_attempt hdecode]
      by_cases hroom : e.2.toLeaf.entries.length < tree.leafNodeMaxSize
      · refine ⟨[], { st.hold e.2.id with held := {e.2.id} }, ?_, ?_, rfl, rfl,
          Or.inl ⟨hroom, rfl⟩⟩
        · simp only [hroom, if_true, bind_assoc, pure_bind]
          exact hpush.exec_dropAll
        · exact ⟨List.nodup_singleton _, rfl, fun p hp => List.mem_singleton.mp hp ▸ hid⟩
      · refine ⟨t.id :: stack, st.hold e.2.id, ?_, hpush, rfl, rfl, Or.inr rfl⟩
        simp only [hroom, if_false, pure_bind]
        rfl
  | succ h =>
      obtain ⟨htype, hdecode⟩ := hchild.branch
      have hsearch := ht.child hc
      obtain ⟨pre', e', post', hcut'⟩ := hsearch.separated.exists_cut key
      rw [exec_attempt htype]
      simp only [internalNode_ne, if_true, if_false, bind_assoc, pure_bind]
      rw [exec_attempt hdecode, exec_attempt (InternalNode.findChildIndex_eq B hsearch hcut'),
        exec_drop hpush.top, release_hold hheld, exec_check hid hheld, exec_dataMut hpush.top,
        content_hold, exec_attempt hdecode]
      by_cases hroom : e.2.children.length < tree.internalNodeMaxSize
      · refine ⟨[], { st.hold e.2.id with held := {e.2.id} }, ?_, ?_, rfl, rfl,
          Or.inl ⟨hroom, rfl⟩⟩
        · simp only [List.length_map, hroom, if_true, bind_assoc]
          rw [hpush.exec_dropAll, exec_restOfInsert hsearch hcut']
        · exact ⟨List.nodup_singleton _, rfl, fun p hp => List.mem_singleton.mp hp ▸ hid⟩
      · refine ⟨t.id :: stack, st.hold e.2.id, ?_, hpush, rfl, rfl, Or.inr rfl⟩
        simp only [List.length_map, hroom, if_false]
        rw [exec_restOfInsert hsearch hcut']

theorem Performs.of_exec {stack ids ids' : List PageId} {id : PageId}
    {prog prog' : PageProg BTree} {o : Option (Grown (PageTree h) Key × List PageId)}
    (hp : Performs tree stack ids' id prog' st' o) (hexec : exec prog st = exec prog' st')
    (hkeeps : Keeps ids st st') (hsub : ids' ⊆ ids) : Performs tree stack ids id prog st o := by
  match o with
  | none => exact hexec.trans hp
  | some (.fit t, fresh) =>
      obtain ⟨st'', hrun, hkeeps', hrest⟩ := hp
      exact ⟨st'', hexec.trans hrun, hkeeps.trans (hkeeps'.mono hsub), hrest⟩
  | some (.split l s r, fresh) =>
      obtain ⟨st'', hrun, hkeeps', hrest⟩ := hp
      exact ⟨st'', hexec.trans hrun, hkeeps.trans (hkeeps'.mono hsub), hrest⟩

theorem notMem_fresh_of_issued {p : PageId} (hp : p ∈ st.issued) : p ∉ st.fresh := by
  have hnodup : (st.issued ++ st.fresh).Nodup := by
    rw [issued, fresh, List.take_append_drop]
    exact I.nodup
  exact List.disjoint_of_nodup_append hnodup hp

/-- The halves of a node that was split have its pages and new ones. -/
theorem notMem_halves {L M n : ℕ} {t l r : PageTree n} {s k : Key} {fresh : List PageId}
    {p : PageId} (hp : p ∈ st.issued) (hnot : p ∉ t.ids)
    (hg : Grew L M key rid st.fresh fresh t k (Grown.children k (.split l s r))) :
    p ∉ l.ids ∧ p ∉ r.ids := by
  obtain ⟨used, hused, hids⟩ := hg.ids
  have hfresh := notMem_fresh_of_issued hp
  rw [hused, List.mem_append, not_or] at hfresh
  have hboth : p ∉ (Grown.children k (.split l s r)).flatMap fun e => e.2.ids := by
    rw [hids.mem_iff, List.mem_append, not_or]
    exact ⟨hnot, hfresh.1⟩
  simpa [Grown.children] using hboth

/-- Below the branch no page is on the stack with the branch on top. -/
theorem notMem_stack_of_child {t : PageTree (h + 1)} {stack : List PageId} (hnodup : t.ids.Nodup)
    (hc : t.children = pre ++ e :: post) (hapart : ∀ p ∈ t.ids, p ∉ stack) :
    ∀ p ∈ e.2.ids, p ∉ t.id :: stack := by
  intro p hp
  have he : e ∈ t.children := by simp [hc]
  rw [List.mem_cons, not_or]
  refine ⟨?_, hapart p (ids_subset_of_child he hp)⟩
  rintro rfl
  exact (ids_of_cut hnodup hc).2.1 hp

/-- What a run below one child leaves as it was: the branch and the other children. -/
theorem Keeps.branch {t : PageTree (h + 1)} {ids : List PageId} (hkeeps : Keeps ids st st')
    (hids : ids ⊆ e.2.ids) (hh : st.Holds t) (hnodup : t.ids.Nodup)
    (hc : t.children = pre ++ e :: post) :
    t.id ∈ st'.issued ∧ st'.content t.id = st.content t.id ∧
      ∀ x, x ∈ pre ∨ x ∈ post → st'.Holds x.2 := by
  have hid := hh.issued (Tree.id_mem_ids t)
  obtain ⟨-, hidChild, hothers⟩ := ids_of_cut hnodup hc
  refine ⟨hkeeps.issued hid, hkeeps.content t.id hid fun hmem => hidChild (hids hmem),
    fun x hx => ?_⟩
  have hxc : x ∈ t.children := by
    rw [hc]
    rcases hx with hx | hx <;> simp [hx]
  exact hkeeps.holds (hh.child hxc) fun p hp hmem => (hothers x hx).2 p hp (hids hmem)

section Child

variable {t : PageTree (h + 1)} {c l r : PageTree h} {s : Key}
  {stack stack' ids fresh : List PageId} {prog : PageProg BTree}

/-- The child has taken the record in without a split. -/
theorem performs_fit (hh : st.Holds t) (hnodup : t.ids.Nodup)
    (hc : t.children = pre ++ e :: post) (hidc : c.id = e.2.id)
    (hle : t.children.length ≤ tree.internalNodeMaxSize) (hids : ids ⊆ e.2.ids)
    (hp : Performs tree stack' ids e.2.id prog st (some (.fit c, fresh))) :
    Performs tree stack ids t.id prog st (graft tree.internalNodeMaxSize t.id
      (pre ++ (Grown.children e.1 (.fit c) ++ post)) fresh) := by
  obtain ⟨st', hrun, hkeeps, hfresh, hheld, hholds⟩ := hp
  obtain ⟨hid, hsame, hsiblings⟩ := hkeeps.branch hids hh hnodup hc
  obtain ⟨htype, hdecode⟩ := hh.branch
  rw [hc] at hdecode
  rw [hc, List.length_append, List.length_cons] at hle
  rw [graft_of_length_le (by
    simp only [Grown.children, List.length_append, List.length_cons, List.length_nil]
    omega)]
  refine ⟨st', hrun, hkeeps, hfresh, hheld, holds_branch hid ?_ ?_ ?_⟩
  · rw [hsame]
    exact htype
  · rw [hsame, hdecode]
    simp [Grown.children, hidc]
  · intro x hx
    simp only [Grown.children, List.mem_append, List.mem_singleton] at hx
    rcases hx with hx | rfl | hx
    · exact hsiblings x (Or.inl hx)
    · exact hholds
    · exact hsiblings x (Or.inr hx)

/-- The child has been split, and the separator enters the branch. -/
theorem performs_split (hsize : tree.Sized) (hh : st.Holds t) (hnodup : t.ids.Nodup)
    (hc : t.children = pre ++ e :: post) (hidl : l.id = e.2.id)
    (hle : t.children.length ≤ tree.internalNodeMaxSize) (hids : ids ⊆ e.2.ids)
    (hnot : t.id ∉ l.ids ∧ t.id ∉ r.ids)
    (hp : Performs tree (t.id :: stack) ids e.2.id prog st (some (.split l s r, fresh))) :
    Performs tree stack (ids ++ [t.id]) t.id prog st (graft tree.internalNodeMaxSize t.id
      (pre ++ (Grown.children e.1 (.split l s r) ++ post)) fresh) := by
  obtain ⟨st', hrun, hkeeps, hfresh, hstack, hl, hr⟩ := hp
  obtain ⟨-, hsame, hsiblings⟩ := hkeeps.branch hids hh hnodup hc
  obtain ⟨-, -, hothers⟩ := ids_of_cut hnodup hc
  obtain ⟨-, hdecode⟩ := hh.branch
  have hcs : pre ++ (Grown.children e.1 (.split l s r) ++ post) =
      pre ++ ((e.1, l) :: (s, r) :: post) := rfl
  rw [hc] at hdecode
  rw [hc, List.length_append, List.length_cons] at hle
  rw [← hfresh]
  refine Performs.of_exec (performs_graft hsize hcs hidl ?_ ?_ ?_ ?_ ?_ hstack) hrun
    (hkeeps.mono (List.subset_append_left ids [t.id])) (List.subset_append_right ids [t.id])
  · rw [hsame]
    exact hdecode
  · intro x hx heq
    apply (hothers x (Or.inl hx)).2 x.2.id (Tree.id_mem_ids _)
    rw [heq]
    exact Tree.id_mem_ids _
  · rw [hcs]
    simp only [List.length_append, List.length_cons]
    omega
  · intro x hx
    rw [hcs] at hx
    simp only [List.mem_append, List.mem_cons] at hx
    rcases hx with hx | rfl | rfl | hx
    · exact hsiblings x (Or.inl hx)
    · exact hl
    · exact hr
    · exact hsiblings x (Or.inr hx)
  · intro x hx
    rw [hcs] at hx
    simp only [List.mem_append, List.mem_cons] at hx
    rcases hx with hx | rfl | rfl | hx
    · exact (hothers x (Or.inl hx)).1
    · exact hnot.1
    · exact hnot.2
    · exact (hothers x (Or.inr hx)).1

end Child

/-- **The descent and what follows** performs the insertion below its node,
and writes to the nodes of the tree that the insertion writes. -/
theorem performs_insert (hsize : tree.Sized) (B : Build) (S : KeySort) (key : Key)
    (rid : RecordId) : ∀ (turns : ℕ) {h : ℕ} {t : PageTree h} {st : PlainStore I}
      {stack : List PageId}, t.Searchable → t.Fits tree.leafNodeMaxSize tree.internalNodeMaxSize →
      t.Filled tree.leafNodeMaxSize tree.internalNodeMaxSize → st.Holds t → t.ids.Nodup →
      (∀ l ∈ t.leaves, l.next ∉ st.fresh) → (∀ p ∈ t.ids, p ∉ stack) →
      st.OnStack (t.id :: stack) → h ≤ turns →
      Performs tree stack (t.written tree.leafNodeMaxSize tree.internalNodeMaxSize key) t.id
        (restOfInsert B S tree key rid turns stack t) st
        (t.insert S.sort tree.leafNodeMaxSize tree.internalNodeMaxSize key rid st.fresh)
  | _, 0, _, _, _, _, hfits, _, hh, _, _, _, hstack, _ => by
      rw [Tree.written_of_leaf]
      exact performs_insertLeaf hsize S key rid hh hfits hstack
  | turns + 1, h + 1, t, st, stack, ht, hfits, hfilled, hh, hnodup, hnext, hapart, hstack,
      hturns => by
      obtain ⟨pre, e, post, hcut⟩ := ht.separated.exists_cut key
      obtain ⟨hc, -⟩ := ht.cut_spec hcut
      have he : e ∈ t.children := by simp [hc]
      obtain ⟨hnodupChild, hidChild, -⟩ := ids_of_cut hnodup hc
      have hapartChild := notMem_stack_of_child hnodup hc hapart
      have hnextChild : ∀ l ∈ e.2.leaves, l.next ∉ st.fresh :=
        fun l hl => hnext l (List.mem_flatMap.mpr ⟨e, he, hl⟩)
      obtain ⟨stack', st', hexec, hstack', hcontent, hstnext, hroom⟩ :=
        exec_descend tree B S rid turns ht hh hcut (hapartChild _ (Tree.id_mem_ids e.2)) hstack
      have hkeeps : Keeps [] st st' := ⟨hstnext.ge, fun p _ _ => by rw [hcontent]⟩
      have hfresh : st'.fresh = st.fresh := by rw [fresh, fresh, hstnext]
      have hapart' : ∀ p ∈ e.2.ids, p ∉ stack' := by
        rcases hroom with ⟨-, rfl⟩ | rfl
        · exact fun p _ => List.not_mem_nil
        · exact hapartChild
      -- the induction is on the turns, of which there are enough for the height
      have hih := performs_insert hsize B S key rid turns (ht.child hc) (hfits.2 e he)
        (hfilled e he).2 (hkeeps.holds (hh.child he) (by simp)) hnodupChild
        (by rwa [hfresh]) hapart' hstack' (by omega)
      rw [hfresh] at hih
      replace hih := hih.of_exec hexec (hkeeps.mono (List.nil_subset _)) (List.Subset.refl _)
      have hwritten := Tree.insert_writes (v := rid) S.perm hsize.two_le_internal
        (ht.child hc).separated (hfits.2 e he) hnextChild (k := key)
      have hids : e.2.written tree.leafNodeMaxSize tree.internalNodeMaxSize key ⊆ e.2.ids :=
        Tree.written_subset e.2
      rw [Tree.insert, hcut]
      simp only
      cases hins : e.2.insert S.sort tree.leafNodeMaxSize tree.internalNodeMaxSize key rid
          st.fresh with
      | none =>
          rw [hins] at hih
          exact hih
      | some out =>
      obtain ⟨g, fresh⟩ := out
      have hg := Tree.insert_grew S.sorts hsize.one_le_leaf hsize.two_le_internal (ht.child hc)
        (hfits.2 e he) (hfilled e he).2 hins e.1
      rw [hins] at hih hwritten
      cases g with
      | fit c =>
          rw [Tree.written_of_fit hcut hwritten]
          exact performs_fit hh hnodup hc (Tree.id_of_insert hins) hfits.1 hids hih
      | split l s r =>
          rw [Tree.written_of_split hcut hwritten]
          -- a child with room is not split, so that the branch is still on the stack
          rcases hroom with ⟨hroom, -⟩ | rfl
          · exact absurd hroom hwritten.not_room
          exact performs_split hsize hh hnodup hc (Tree.id_of_insert hins) hfits.1 hids
            (notMem_halves (hh.issued (Tree.id_mem_ids t)) hidChild hg) hih

end Descent

end PlainStore

end StorageEngine
