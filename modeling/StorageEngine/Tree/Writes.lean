import StorageEngine.Tree.PathStack

/-!
The pages an insert writes.

Of the nodes there are, an insert writes to the full ones at the bottom of
its search path and to the first with room, and the bytes of each of them
change. It asks for one page for each full node, and for one more, and writes
the header page, if the root is among them.
-/

namespace StorageEngine

open Lib Lib.BPlus

/-- The node on the page has as many entries as it may. -/
def BTree.isFull (tree : BTree) (page : Page) : Bool :=
  match page.get 0 with
  | .error _ => false
  | .ok nodeType =>
      if nodeType = leafNode then
        match LeafNode.decode page with
        | .error _ => false
        | .ok node => tree.leafNodeMaxSize ≤ node.entries.length
      else
        match InternalNode.decode page with
        | .error _ => false
        | .ok node => tree.internalNodeMaxSize ≤ node.entries.length

namespace PlainStore

variable {I : IdSupply} {st st' : PlainStore I} {tree tree' : BTree}

/-- The full nodes at the bottom of a path, which starts with its leaf. -/
def splits (st : PlainStore I) (tree : BTree) (path : List PageId) : List PageId :=
  path.takeWhile fun p => tree.isFull (st.content p)

/-- The first node of a path with room. -/
def roomyNode (st : PlainStore I) (tree : BTree) (path : List PageId) : Option PageId :=
  (path.dropWhile fun p => tree.isFull (st.content p)).head?

/-- The number of pages an insert asks for. -/
def pagesNeeded (st : PlainStore I) (tree : BTree) (path : List PageId) : ℕ :=
  (st.splits tree path).length + if tree.rootPageId ∈ st.splits tree path then 1 else 0

/-- What an insert along a path of the tree changes of the store. -/
structure WritesAlong (tree tree' : BTree) (path : List PageId) (st st' : PlainStore I) :
    Prop where
  elsewhere : ∀ p ∈ st.issued, p ≠ tree.headerPageId → p ∉ path → st'.content p = st.content p
  changed : ∀ p ∈ st.issued, p ≠ tree.headerPageId →
    (st'.content p ≠ st.content p ↔ p ∈ st.splits tree path ∨ st.roomyNode tree path = some p)
  header : st'.content tree.headerPageId ≠ st.content tree.headerPageId ↔
    tree.rootPageId ∈ st.splits tree path
  root : tree'.rootPageId ≠ tree.rootPageId ↔ tree.rootPageId ∈ st.splits tree path
  allocated : ∃ new, st'.issued = st.issued ++ new ∧ new.length = st.pagesNeeded tree path

/-- The bytes of one page change, and no page is handed out. -/
structure WritesOnly (p : PageId) (st st' : PlainStore I) : Prop where
  changed : ∀ q ∈ st.issued, (st'.content q ≠ st.content q ↔ q = p)
  issued : st'.issued = st.issued

/-! ### Pages and nodes -/

theorem HoldsNode.isFull {x : PageId × Node PageId Key RecordId} (hx : st.HoldsNode x)
    (tree : BTree) : tree.isFull (st.content x.1) =
      full tree.leafNodeMaxSize tree.internalNodeMaxSize x := by
  obtain ⟨p, n⟩ := x
  cases n with
  | leaf next entries =>
      obtain ⟨-, htype, hdecode⟩ := hx
      simp only [BTree.isFull, htype, hdecode, if_true, full]
  | branch entries =>
      obtain ⟨-, htype, hdecode⟩ := hx
      simp only [BTree.isFull, htype, hdecode, internalNode_ne, if_false, full]

/-- A page has the bytes of one node only. -/
theorem HoldsNode.inj {p : PageId} {n n' : Node PageId Key RecordId} (hn : st.HoldsNode (p, n))
    (hn' : st'.HoldsNode (p, n')) (hsame : st'.content p = st.content p) : n = n' := by
  obtain ⟨-, hn⟩ := hn
  obtain ⟨-, hn'⟩ := hn'
  simp only [hsame] at hn hn'
  cases n with
  | leaf next entries =>
      cases n' with
      | leaf next' entries' =>
          have heq := LeafNode.mk.inj (Except.ok.inj (hn.2.symm.trans hn'.2))
          rw [heq.1, heq.2]
      | branch entries' => exact absurd (Except.ok.inj (hn.1.symm.trans hn'.1)) leafNode_ne
  | branch entries =>
      cases n' with
      | leaf next' entries' => exact absurd (Except.ok.inj (hn'.1.symm.trans hn.1)) leafNode_ne
      | branch entries' =>
          have heq := InternalNode.mk.inj (Except.ok.inj (hn.2.symm.trans hn'.2))
          rw [heq]

theorem Keeps.exists_new {ids : List PageId} (hkeeps : Keeps ids st st') :
    ∃ new, st.fresh = new ++ st'.fresh := by
  refine ⟨st.fresh.take (st'.next - st.next), ?_⟩
  have hdrop : st'.fresh = st.fresh.drop (st'.next - st.next) := by
    rw [fresh, fresh, List.drop_drop, Nat.add_sub_cancel' hkeeps.next_le]
  rw [hdrop, List.take_append_drop]

/-! ### The search path -/

/-- The rest of the descent, from a branch `t` on, goes down the path of `key`. -/
theorem exec_descendWholePath_path (B : Build) (key : Key) : ∀ (turns : ℕ) {h : ℕ}
    {t : PageTree (h + 1)} {st : PlainStore I} {stack : List PageId}
    {pre post : List (Key × PageTree h)} {e : Key × PageTree h}, t.Searchable → st.Holds t →
      t.ids.Nodup → (∀ p ∈ t.ids, p ∉ stack) → st.OnStack (t.id :: stack) → h < turns →
      cut key t.children = some (pre, e, post) →
      ∃ st', exec (BTree.descendWholePath B key turns ⟨t.children.map fun e => (e.1, e.2.id)⟩
        pre.length (t.id :: stack)) st = .ok ((e.2.path key).map Prod.fst ++ t.id :: stack, st')
  | turns + 1, h, t, st, stack, pre, post, e, ht, hh, hnodup, hapart, hstack, hturns, hcut => by
      obtain ⟨hc, -⟩ := ht.cut_spec hcut
      have hchild := hh.child (show e ∈ t.children by simp [hc])
      have hid := hchild.issued (Tree.id_mem_ids e.2)
      have hapartChild := notMem_stack_of_child hnodup hc hapart
      have hnot := hapartChild _ (Tree.id_mem_ids e.2)
      have hheld : e.2.id ∉ st.held := mt hstack.mem_held.mp hnot
      have hpush := hstack.push hid hnot
      have hentry : orPanic Panic.index (t.children.map fun e => (e.1, e.2.id))[pre.length]? =
          .ok (e.1, e.2.id) := by
        rw [getElem?_map_of_cut hc]
        rfl
      rw [BTree.descendWholePath, exec_attempt hentry, exec_check hid hheld,
        exec_data hpush.top, content_hold]
      cases h with
      | zero =>
          obtain ⟨htype, hdecode⟩ := hchild.leaf
          rw [exec_attempt htype]
          simp only [leafNode_ne, if_true, if_false, pure_bind]
          rw [exec_drop hpush.top, release_hold hheld, exec_check hid hheld,
            exec_dataMut hpush.top, content_hold, exec_attempt hdecode]
          exact ⟨_, rfl⟩
      | succ h =>
          obtain ⟨htype, hdecode⟩ := hchild.branch
          have hsearch := ht.child hc
          obtain ⟨pre', e', post', hcut'⟩ := hsearch.separated.exists_cut key
          rw [exec_attempt htype]
          simp only [internalNode_ne, if_true, if_false, pure_bind]
          rw [exec_attempt hdecode, exec_attempt (InternalNode.findChildIndex_eq B hsearch hcut'),
            exec_drop hpush.top, release_hold hheld, exec_check hid hheld,
            exec_dataMut hpush.top, content_hold, exec_attempt hdecode, Tree.path_of_cut hcut',
            List.map_append, List.append_assoc]
          exact exec_descendWholePath_path B key turns hsearch hchild (ids_of_cut hnodup hc).1
            hapartChild hpush (by omega) hcut'

variable {h : ℕ} {t : PageTree h} {records : List LeafKv}

theorem exec_findWholePath (B : Build) (key : Key) (hr : st.Represents tree t records) :
    ∃ st', exec (tree.findWholePath B key) st = .ok ((t.path key).map Prod.fst, st') := by
  have hid := hr.holds.issued (Tree.id_mem_ids t)
  have hmem : t.id ∈ (st.hold t.id).held := Finset.mem_insert_self _ _
  have hholds : (st.hold t.id).Holds t := hr.holds
  rw [BTree.findWholePath, hr.root, exec_check hid (hr.notMem_held _), exec_dataMut hmem,
    content_hold]
  cases h with
  | zero =>
      obtain ⟨htype, -⟩ := hr.holds.leaf
      rw [exec_attempt htype]
      exact ⟨_, rfl⟩
  | succ h =>
      obtain ⟨htype, hdecode⟩ := hr.holds.branch
      have hsearch := hr.wellFormed.searchable
      obtain ⟨pre, e, post, hcut⟩ := hsearch.separated.exists_cut key
      rw [exec_attempt htype]
      simp only [internalNode_ne, if_true, if_false]
      rw [exec_data hmem, content_hold, exec_attempt hdecode,
        exec_attempt (InternalNode.findChildIndex_eq B hsearch hcut), Tree.path_of_cut hcut,
        List.map_append]
      have hheight := hr.height_lt
      exact exec_descendWholePath_path B key BTree.maxTurns hsearch hholds
        (List.nodup_cons.mp hr.nodup).2 (by simp) hr.onStack_root (by omega) hcut

/-! ### The pages that change -/

section Effect

variable {key : Key}

/-- The pages of the search path, as nodes of the tree. -/
theorem Represents.path (hr : st.Represents tree t records) (key : Key) :
    st.splits tree ((t.path key).map Prod.fst) =
        ((t.path key).takeWhile
          (full tree.leafNodeMaxSize tree.internalNodeMaxSize)).map Prod.fst ∧
      ∀ p, p ∈ st.splits tree ((t.path key).map Prod.fst) ∨
          st.roomyNode tree ((t.path key).map Prod.fst) = some p ↔
        p ∈ t.written tree.leafNodeMaxSize tree.internalNodeMaxSize key := by
  have hfull : ∀ x ∈ t.path key, tree.isFull (st.content x.1) =
      full tree.leafNodeMaxSize tree.internalNodeMaxSize x :=
    fun x hx => (hr.holds x (t.path_subset hx)).isFull tree
  obtain ⟨hupTo, htake⟩ := upTo_map Prod.fst (q := fun p => tree.isFull (st.content p)) hfull
  refine ⟨htake, fun p => ?_⟩
  rw [splits, roomyNode, ← mem_upTo, hupTo]
  exact Iff.rfl

/-- The root is split if all nodes on the path are full. -/
theorem Represents.root_mem_splits (hr : st.Represents tree t records) (key : Key) :
    tree.rootPageId ∈ st.splits tree ((t.path key).map Prod.fst) ↔
      (t.path key).all (full tree.leafNodeMaxSize tree.internalNodeMaxSize) = true := by
  have hnodup := Tree.nodup_path (k := key) (List.nodup_cons.mp hr.nodup).2
  have hlast : ((t.path key).map Prod.fst).getLast? = some tree.rootPageId := by
    rw [List.getLast?_map, t.getLast?_path, hr.root]
    rfl
  rw [splits, getLast_mem_takeWhile hnodup hlast, List.all_eq_true, List.forall_mem_map]
  refine forall₂_congr fun x hx => ?_
  rw [(hr.holds x (t.path_subset hx)).isFull tree]

/-- What the pages of the store show of an insertion into the tree. -/
theorem Represents.writesAlong {g : Grown (PageTree h) Key} {fresh : List PageId}
    (hr : st.Represents tree t records)
    (hw : Written tree.leafNodeMaxSize tree.internalNodeMaxSize (t.path key) st.fresh fresh g)
    {ids : List PageId} (hkeeps : Keeps ids st st')
    (hids : ∀ p, p ≠ tree.headerPageId →
      (p ∈ ids ↔ p ∈ t.written tree.leafNodeMaxSize tree.internalNodeMaxSize key))
    (hnodes : ∀ x ∈ g.nodes, st'.HoldsNode x)
    (hfresh : fresh.length = st'.fresh.length + g.isSplit.toNat)
    (hheader : st'.content tree.headerPageId ≠ st.content tree.headerPageId ↔
      g.isSplit = true)
    (hnewRoot : tree'.rootPageId ≠ tree.rootPageId ↔ g.isSplit = true) :
    WritesAlong tree tree' ((t.path key).map Prod.fst) st st' := by
  obtain ⟨hsplits, hwritten⟩ := hr.path key
  have hroot := (hr.root_mem_splits key).trans (by rw [← hw.isSplit])
  have hsame : ∀ p ∈ st.issued, p ≠ tree.headerPageId →
      p ∉ t.written tree.leafNodeMaxSize tree.internalNodeMaxSize key →
      st'.content p = st.content p :=
    fun p hp hne hnot => hkeeps.content p hp (mt (hids p hne).mp hnot)
  refine ⟨fun p hp hne hnot => ?_, fun p hp hne => ?_, hheader.trans hroot.symm,
    hnewRoot.trans hroot.symm, ?_⟩
  · refine hsame p hp hne fun hmem => hnot ?_
    exact List.map_subset _ (upTo_subset _ _) hmem
  · rw [hwritten]
    refine ⟨fun hne' => by_contra fun hnot => hne' (hsame p hp hne hnot), fun hmem => ?_⟩
    obtain ⟨x, hx, rfl⟩ := List.mem_map.mp hmem
    obtain ⟨n, hn, hne'⟩ := hw.changed x hx
    intro heq
    exact hne' ((hr.holds x (t.path_subset (upTo_subset _ _ hx))).inj (hnodes _ hn) heq).symm
  · obtain ⟨new, hnew⟩ := hkeeps.exists_new
    have hlen := congrArg List.length hnew
    have hused := hw.length_fresh
    rw [List.length_append] at hlen
    have hgrown : (if tree.rootPageId ∈ st.splits tree ((t.path key).map Prod.fst) then 1 else 0) =
        g.isSplit.toNat := by
      simp only [hroot]
      cases g.isSplit <;> rfl
    refine ⟨new, issued_eq_append hnew, ?_⟩
    rw [pagesNeeded, hgrown, hsplits, List.length_map]
    omega

/-- An insert into a leaf with room. -/
theorem WritesAlong.writesOnly {path : List PageId} {leaf : PageId}
    (hw : WritesAlong tree tree' path st st') (hhead : path.head? = some leaf)
    (hroom : tree.isFull (st.content leaf) = false) (hne : leaf ≠ tree.headerPageId) :
    WritesOnly leaf st st' := by
  obtain ⟨above, rfl⟩ : ∃ above, path = leaf :: above := by
    cases path with
    | nil => simp at hhead
    | cons p above => exact ⟨above, by rw [Option.some.inj hhead]⟩
  have hsplits : st.splits tree (leaf :: above) = [] := by simp [splits, hroom]
  have hroomy : st.roomyNode tree (leaf :: above) = some leaf := by simp [roomyNode, hroom]
  refine ⟨fun p hp => ?_, ?_⟩
  · by_cases hp' : p = tree.headerPageId
    · subst hp'
      rw [hw.header, hsplits]
      simp [hne.symm]
    · rw [hw.changed p hp hp', hsplits, hroomy]
      simp [eq_comm]
  · obtain ⟨new, hissued, hnew⟩ := hw.allocated
    obtain rfl : new = [] := by simpa [pagesNeeded, hsplits] using hnew
    rw [hissued, List.append_nil]

/-- **One insert.** It fails if the store has not the pages it needs. -/
theorem Represents.exec_insert_writesAlong (hsize : tree.Sized) (B : Build) (S : KeySort)
    (key : Key) (rid : RecordId) (hr : st.Represents tree t records) :
    (exec (tree.insert B S key rid) st = .error .outOfIds ∧
      st.fresh.length < st.pagesNeeded tree ((t.path key).map Prod.fst)) ∨
    ∃ tree' st', exec (tree.insert B S key rid) st = .ok (tree', st') ∧
      WritesAlong tree tree' ((t.path key).map Prod.fst) st st' := by
  have hwf := hr.wellFormed
  have hfinishes := finishes_insert hsize B S key rid hr
  have hwrites := Tree.insert_writes (k := key) (v := rid) S.perm hsize.two_le_internal
    hwf.searchable.separated hwf.fits hr.next_notMem_fresh
  obtain ⟨hsplits, -⟩ := hr.path key
  have hroot := hr.root_mem_splits key
  have hheader := (List.nodup_cons.mp hr.nodup).1
  cases hins : t.insert S.sort tree.leafNodeMaxSize tree.internalNodeMaxSize key rid st.fresh with
  | none =>
      rw [hins] at hfinishes hwrites
      have hfew : st.fresh.length < _ := hwrites
      refine Or.inl ⟨hfinishes, ?_⟩
      rw [pagesNeeded, hsplits, List.length_map]
      omega
  | some out =>
  obtain ⟨g, fresh⟩ := out
  rw [hins] at hfinishes hwrites
  have hw : Written tree.leafNodeMaxSize tree.internalNodeMaxSize (t.path key) st.fresh fresh g :=
    hwrites
  match g, fresh with
  | .fit t', fresh =>
      obtain ⟨st', hrun, hkeeps, hfresh, -, hholds⟩ := hfinishes
      refine Or.inr ⟨tree, st', hrun, hr.writesAlong hw hkeeps (fun _ _ => Iff.rfl) hholds
        (by rw [hfresh]; rfl) ?_ (iff_of_false (fun hne => hne rfl) Bool.false_ne_true)⟩
      refine iff_of_false (fun hne => hne ?_) Bool.false_ne_true
      exact hkeeps.content _ hr.header_issued fun hmem => hheader (Tree.written_subset t hmem)
  | .split l s r, [] =>
      have hlen := hw.length_fresh
      rw [← hw.isSplit] at hroot
      refine Or.inl ⟨hfinishes, ?_⟩
      rw [pagesNeeded, if_pos (hroot.mpr rfl), hsplits, List.length_map, hlen]
      exact Nat.lt_succ_of_le (Nat.zero_add _).le
  | .split l s r, new :: fresh =>
      obtain ⟨st', hrun, hkeeps, hfresh, -, hholds, hnew⟩ := hfinishes
      -- the old root is an old page, and the new one is not
      have hne : new ≠ t.id := by
        rintro rfl
        obtain ⟨-, -, used, hused, -⟩ :=
          hwf.split S.sorts hsize.one_le_leaf hsize.two_le_internal hins t.id
        apply notMem_fresh_of_issued (hr.holds.issued (Tree.id_mem_ids t))
        rw [hused]
        exact List.mem_append_right _ List.mem_cons_self
      refine Or.inr ⟨_, st', hrun, hr.writesAlong hw hkeeps (fun p hp => ?_) (fun x hx => ?_)
        (by rw [hfresh]; rfl) (iff_of_true (fun heq => ?_) rfl) (iff_of_true ?_ rfl)⟩
      · simp [hp]
      · apply hholds
        refine List.mem_cons_of_mem _ ?_
        simpa [Grown.nodes] using hx
      · rw [heq, hr.header] at hnew
        exact hne (Except.ok.inj hnew).symm
      · rw [hr.root]
        exact hne

end Effect

/-- **An insert changes only the pages it must.** On a tree built by inserts a
further one writes the full nodes at the bottom of its search path and the
first node above them with room, or the header page if there is none. -/
theorem insert_writesAlong (I : IdSupply) (B : Build) (S : KeySort) {L M : ℕ}
    (hL : 1 ≤ L ∧ L ≤ 511) (hM : 2 ≤ M ∧ M ≤ 681) {records : List LeafKv} (hne : records ≠ []) :
    (exec (BTree.build B S L M records) (.new I) = .error .outOfIds ∧
      ¬I.Suffices L M records.length) ∨
    ∃ (tree : BTree) (st : PlainStore I),
      exec (BTree.build B S L M records) (.new I) = .ok (tree, st) ∧
      ∀ (key : Key) (rid : RecordId), ∃ (path : List PageId) (st₁ : PlainStore I) (leaf : PageId)
          (node : LeafNode),
        exec (tree.findWholePath B key) st = .ok (path, st₁) ∧ path.Nodup ∧
        (∀ p ∈ path, p ∈ st.issued ∧ p ≠ tree.headerPageId) ∧
        path.getLast? = some tree.rootPageId ∧ path.head? = some leaf ∧
        LeafNode.decode (st.content leaf) = .ok node ∧
        ((exec (tree.insert B S key rid) st = .error .outOfIds ∧
            st.fresh.length < st.pagesNeeded tree path) ∨
          ∃ tree' st', exec (tree.insert B S key rid) st = .ok (tree', st') ∧
            WritesAlong tree tree' path st st' ∧
            (node.entries.length < L → WritesOnly leaf st st')) := by
  rcases exec_build I B S hL hM hne with herror | ⟨tree, st, h, t, hexec, hleaf, hinternal, hb⟩
  · exact Or.inl herror
  obtain ⟨hr, hsize, -⟩ := hb
  refine Or.inr ⟨tree, st, hexec, fun key rid => ?_⟩
  obtain ⟨hheader, hnodup⟩ := List.nodup_cons.mp hr.nodup
  obtain ⟨st₁, hpath⟩ := exec_findWholePath B key hr
  obtain ⟨leaf, next, es, hhead⟩ := Tree.head?_path (k := key) hr.wellFormed.searchable.separated
  have hids : ∀ p ∈ (t.path key).map Prod.fst, p ∈ t.ids :=
    fun p hp => List.map_subset _ t.path_subset hp
  have hhead' : ((t.path key).map Prod.fst).head? = some leaf := by
    rw [List.head?_map, hhead]
    rfl
  have hlast : ((t.path key).map Prod.fst).getLast? = some tree.rootPageId := by
    rw [List.getLast?_map, t.getLast?_path, hr.root]
    rfl
  have hnode := hr.holds _ (t.path_subset (List.mem_of_mem_head? hhead))
  have hissued : ∀ p ∈ (t.path key).map Prod.fst, p ∈ st.issued ∧ p ≠ tree.headerPageId := by
    refine fun p hp => ⟨hr.holds.issued (hids p hp), ?_⟩
    rintro rfl
    exact hheader (hids _ hp)
  refine ⟨_, st₁, leaf, ⟨next, es⟩, hpath, Tree.nodup_path hnodup, hissued, hlast, hhead',
    hnode.2.2, ?_⟩
  rcases hr.exec_insert_writesAlong hsize B S key rid with hfull | ⟨tree', st', hrun, hwrites⟩
  · exact Or.inl hfull
  refine Or.inr ⟨tree', st', hrun, hwrites, fun hroom => hwrites.writesOnly hhead' ?_ ?_⟩
  · rw [hnode.isFull tree, full, hleaf]
    exact decide_eq_false (not_le.mpr hroom)
  · exact (hissued leaf (List.mem_of_mem_head? hhead')).2

theorem insert_writesAlong_three :
    ∃ (tree : BTree) (st : PlainStore (.counting 10 (by decide))),
      exec (BTree.build ⟨true⟩ .insertion 2 2 [(5, ⟨1, 1⟩), (3, ⟨1, 2⟩), (4, ⟨1, 3⟩)])
        (.new _) = .ok (tree, st) ∧
      ∀ (key : Key) (rid : RecordId), ∃ (path : List PageId)
          (st₁ : PlainStore (.counting 10 (by decide))) (leaf : PageId) (node : LeafNode),
        exec (tree.findWholePath ⟨true⟩ key) st = .ok (path, st₁) ∧ path.Nodup ∧
        (∀ p ∈ path, p ∈ st.issued ∧ p ≠ tree.headerPageId) ∧
        path.getLast? = some tree.rootPageId ∧ path.head? = some leaf ∧
        LeafNode.decode (st.content leaf) = .ok node ∧
        ((exec (tree.insert ⟨true⟩ .insertion key rid) st = .error .outOfIds ∧
            st.fresh.length < st.pagesNeeded tree path) ∨
          ∃ tree' st', exec (tree.insert ⟨true⟩ .insertion key rid) st = .ok (tree', st') ∧
            WritesAlong tree tree' path st st' ∧
            (node.entries.length < 2 → WritesOnly leaf st st')) :=
  (insert_writesAlong (.counting 10 (by decide)) ⟨true⟩ .insertion (by decide) (by decide)
    (by decide)).resolve_left fun h => h.2 (IdSupply.suffices_of_square (by decide))

end PlainStore

end StorageEngine
