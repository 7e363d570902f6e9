import StorageEngine.Tree.Insert
import StorageEngine.Tree.Supply

/-!
A tree built by inserts, over a plain store.

`Represents` relates the tree object and its pages to a tree of the library
and to the inserted records. The first insert establishes it and every
further one keeps it, as long as the store has ids: an insert that finds none
left was about to build a tree of more pages than the store has ids.
-/

namespace StorageEngine

open Lib Lib.BPlus

namespace BTree

/-- The inserts of a list of records, one after the other. -/
def insertAll (B : Build) (S : KeySort) : BTree → List LeafKv → PageProg BTree
  | tree, [] => pure tree
  | tree, (key, rid) :: records => do
      let tree ← tree.insert B S key rid
      insertAll B S tree records

/-- A new tree with the maximal sizes `L` and `M`, and its inserts. -/
def build (B : Build) (S : KeySort) (L M : ℕ) (records : List LeafKv) : PageProg BTree := do
  let tree ← new L M
  insertAll B S tree records

end BTree

namespace PlainStore

variable {I : IdSupply} {st : PlainStore I} {α : Type}

/-! ### Writing whole pages -/

theorem hold_put_release {p : PageId} (hp : p ∉ st.held) (page : Page) :
    ((st.hold p).put p page).release p = st.put p page := by
  show ({ st with held := _, content := _ } : PlainStore I) = _
  simp only [held_put, held_hold, Finset.erase_insert hp]
  rfl

/-- A page written under a guard of its own. -/
theorem exec_rewrite {p : PageId} {page : Page} {edit : Page → Except Panic Page}
    {f : Unit → PageProg α} (hp : p ∈ st.issued) (hheld : p ∉ st.held)
    (hedit : edit (st.content p) = .ok page) :
    exec (do
      PageProg.check .write p
      let bytes ← PageProg.dataMut p
      let bytes ← PageProg.attempt (edit bytes)
      PageProg.store p bytes
      PageProg.drop p
      f ()) st = exec (f ()) (st.put p page) := by
  have hmem : p ∈ (st.hold p).held := Finset.mem_insert_self _ _
  have hmem' : p ∈ ((st.hold p).put p page).held := hmem
  rw [exec_check hp hheld, exec_dataMut hmem, content_hold, exec_attempt hedit, exec_store hmem,
    exec_drop hmem', hold_put_release hheld]

theorem exec_writeHeader (tree : BTree) (f : Unit → PageProg α)
    (hp : tree.headerPageId ∈ st.issued) (hheld : tree.headerPageId ∉ st.held) :
    ∃ b, b.getU32 0 = .ok tree.rootPageId ∧
      exec (tree.writeHeader >>= f) st = exec (f ()) (st.put tree.headerPageId b) := by
  obtain ⟨b, hb⟩ := (st.content tree.headerPageId).putU32_ok 0 tree.rootPageId (by decide)
  refine ⟨b, Bytes.getU32_putU32 hb, ?_⟩
  rw [BTree.writeHeader]
  simp only [bind_assoc]
  exact exec_rewrite hp hheld hb

/-! ### The tree between two inserts -/

/-- The pages of the store are a header page, which names the root, and a
well-formed tree with the given records. -/
structure Represents (st : PlainStore I) (tree : BTree) {h : ℕ} (t : PageTree h)
    (records : List LeafKv) : Prop where
  root : tree.rootPageId = t.id
  header : (st.content tree.headerPageId).getU32 0 = .ok t.id
  holds : st.Holds t
  wellFormed : t.WellFormed tree.leafNodeMaxSize tree.internalNodeMaxSize invalidPageId
  entries : t.entries.Perm records
  ids : st.issued.Perm (tree.headerPageId :: t.ids)
  held : st.held = ∅

namespace Represents

variable {tree : BTree} {h : ℕ} {t : PageTree h} {records : List LeafKv}

theorem nodup (hr : st.Represents tree t records) : (tree.headerPageId :: t.ids).Nodup :=
  hr.ids.nodup_iff.mp st.issued_nodup

theorem header_issued (hr : st.Represents tree t records) : tree.headerPageId ∈ st.issued :=
  hr.ids.mem_iff.mpr List.mem_cons_self

theorem notMem_held (hr : st.Represents tree t records) (p : PageId) : p ∉ st.held := by
  rw [hr.held]
  exact Finset.notMem_empty p

theorem root_ne_invalid (hr : st.Represents tree t records) :
    tree.rootPageId ≠ invalidPageId := by
  rw [hr.root]
  exact ne_invalid (hr.holds.issued (Tree.id_mem_ids t))

/-- The path stack of an insert starts with the root. -/
theorem onStack_root (hr : st.Represents tree t records) : (st.hold t.id).OnStack [t.id] := by
  refine OnStack.push ⟨List.nodup_nil, ?_, by simp⟩ (hr.holds.issued (Tree.id_mem_ids t))
    List.not_mem_nil
  rw [hr.held, List.toFinset_nil]

theorem length_ids (hr : st.Represents tree t records) :
    I.ids.length = t.ids.length + 1 + st.fresh.length := by
  have hissued := hr.ids.length_eq
  rw [List.length_cons] at hissued
  rw [← hissued, ← List.length_append, issued, fresh, List.take_append_drop]

/-- No leaf is linked to the header page. -/
theorem next_ne_header (hr : st.Represents tree t records) :
    ∀ l ∈ t.leaves, l.next ≠ tree.headerPageId := by
  intro l hl hnext
  obtain ⟨start, hlinked⟩ := hr.wellFormed.linked
  rcases hlinked.next_mem hl with hstop | ⟨l', hl', hid⟩
  · exact ne_invalid hr.header_issued (hnext.symm.trans hstop)
  · have hmem := t.leaf_ids_sublist.subset (List.mem_map_of_mem hl')
    rw [hid, hnext] at hmem
    exact (List.nodup_cons.mp hr.nodup).1 hmem

/-- The leaves are linked to pages of the tree, which are not handed out again. -/
theorem next_notMem_fresh (hr : st.Represents tree t records) :
    ∀ l ∈ t.leaves, l.next ∉ st.fresh := by
  intro l hl hfresh
  obtain ⟨start, hlinked⟩ := hr.wellFormed.linked
  rcases hlinked.next_mem hl with hstop | ⟨l', hl', hid⟩
  · rw [hstop] at hfresh
    exact I.valid (List.mem_of_mem_drop hfresh)
  · rw [← hid] at hfresh
    have hmem : l'.id ∈ t.ids := t.leaf_ids_sublist.subset (List.mem_map_of_mem hl')
    exact notMem_fresh_of_issued (hr.holds.issued hmem) hfresh

/-- There are not as many pages as a loop may make turns. -/
theorem length_ids_lt (hr : st.Represents tree t records) : t.ids.length < BTree.maxTurns := by
  have hlen : ((tree.headerPageId :: t.ids).map UInt32.toNat).length ≤
      (List.range (2 ^ 32)).length := by
    refine List.Subperm.length_le (List.subperm_of_subset ?_ fun n hn => ?_)
    · exact hr.nodup.map fun a b hab => UInt32.toNat_inj.mp hab
    · obtain ⟨p, -, rfl⟩ := List.mem_map.mp hn
      exact List.mem_range.mpr p.toNat_lt
  rwa [List.length_map, List.length_range, List.length_cons, Nat.succ_le_iff] at hlen

/-- The descents end before they are cut off. -/
theorem height_lt (hr : st.Represents tree t records) : h < BTree.maxTurns :=
  hr.wellFormed.searchable.separated.lt_length_ids.trans hr.length_ids_lt

/-- What an insert that kept the root made of the store. -/
theorem keeps {st' : PlainStore I} {t' : PageTree h} {used : List PageId} {key : Key}
    {rid : RecordId} (hr : st.Represents tree t records) (hkeeps : Keeps t.ids st st')
    (hholds : st'.Holds t') (hid : t'.id = t.id)
    (hwf : t'.WellFormed tree.leafNodeMaxSize tree.internalNodeMaxSize invalidPageId)
    (hentries : t'.entries.Perm ((key, rid) :: t.entries)) (hused : st.fresh = used ++ st'.fresh)
    (hids : t'.ids.Perm (t.ids ++ used)) (hheld : st'.held = ∅) :
    st'.Represents tree t' ((key, rid) :: records) where
  root := hr.root.trans hid.symm
  header := by
    rw [hkeeps.content _ hr.header_issued (List.nodup_cons.mp hr.nodup).1, hid]
    exact hr.header
  holds := hholds
  wellFormed := hwf
  entries := hentries.trans (hr.entries.cons _)
  ids := by
    rw [issued_eq_append hused]
    exact (hr.ids.append_right used).trans (hids.symm.cons _)
  held := hheld

end Represents

variable {tree : BTree} {h : ℕ} {t : PageTree h} {records : List LeafKv}

/-- An insert into a tree that is not empty is the rest of an insert at its root. -/
theorem exec_insert_eq (B : Build) (S : KeySort) (key : Key) (rid : RecordId)
    (hr : st.Represents tree t records) :
    exec (tree.insert B S key rid) st =
      exec (restOfInsert B S tree key rid BTree.maxTurns [] t) (st.hold t.id) := by
  have hid := hr.holds.issued (Tree.id_mem_ids t)
  have hmem : t.id ∈ (st.hold t.id).held := Finset.mem_insert_self _ _
  rw [BTree.insert, if_neg hr.root_ne_invalid, BTree.findPath, hr.root]
  simp only [bind_assoc]
  rw [exec_check hid (hr.notMem_held _), exec_dataMut hmem, content_hold]
  cases h with
  | zero =>
      obtain ⟨htype, -⟩ := hr.holds.leaf
      rw [exec_attempt htype]
      simp only [if_true, pure_bind]
      rfl
  | succ h =>
      obtain ⟨htype, hdecode⟩ := hr.holds.branch
      rw [exec_attempt htype]
      simp only [internalNode_ne, if_true, if_false, bind_assoc]
      rw [exec_data hmem, content_hold, exec_attempt hdecode]
      rfl

/-- The new root above the two halves of the old one. -/
theorem exec_growRoot {l r : PageTree h} {s : Key} {new : PageId} {fresh : List PageId}
    (hfresh : st.fresh = new :: fresh) (hheld : st.held = ∅)
    (hheader : tree.headerPageId ∈ st.issued) (hl : st.Holds l) (hr : st.Holds r)
    (hnot : tree.headerPageId ∉ l.ids ∧ tree.headerPageId ∉ r.ids) :
    ∃ st', exec (tree.growRoot (s, r.id) l.id) st =
        .ok ({ tree with rootPageId := new }, st') ∧ Keeps [tree.headerPageId] st st' ∧
      st'.Holds (Tree.branch new [(⊥, l), (s, r)]) ∧ st'.fresh = fresh ∧ st'.held = ∅ ∧
      (st'.content tree.headerPageId).getU32 0 = .ok new := by
  have hne : tree.headerPageId ≠ new := ne_new hfresh hheader
  have hnew₁ := mem_issued_new hfresh
  have hfree : ∀ p, p ∉ (st.alloc new).held := by
    intro p
    rw [held_alloc, hheld]
    exact Finset.notMem_empty p
  obtain ⟨b, hencode, htype, hdecode⟩ := InternalNode.encode_spec
    ⟨[(⊥, l), (s, r)].map fun e => (e.1, e.2.id)⟩ (.zero pageSize)
    (by simp [headerSize, pageSize]) (by decide)
  have hencode' : (fun bytes => InternalNode.encode
      ⟨[(⊥, l), (s, r)].map fun e => (e.1, e.2.id)⟩ bytes) ((st.alloc new).content new) =
      .ok b := by
    rw [content_alloc, Function.update_self]
    exact hencode
  have hheader₁ : tree.headerPageId ∈ ((st.alloc new).put new b).issued :=
    (mem_issued_alloc hfresh).mpr (Or.inr hheader)
  obtain ⟨b', hb', hexec⟩ := exec_writeHeader { tree with rootPageId := new }
    (fun _ => pure { tree with rootPageId := new }) hheader₁ (hfree _)
  have hroot := exec_rewrite (f := fun _ => BTree.writeHeader { tree with rootPageId := new } >>=
    fun _ => pure { tree with rootPageId := new }) hnew₁ (hfree _) hencode'
  have hkeeps : Keeps [tree.headerPageId] st
      (((st.alloc new).put new b).put tree.headerPageId b') := by
    refine .of_alloc hfresh rfl fun p hp hpnew => ?_
    simp [Function.update_of_ne hp, Function.update_of_ne hpnew]
  refine ⟨((st.alloc new).put new b).put tree.headerPageId b', ?_, hkeeps, ?_, fresh_alloc hfresh,
    hheld, ?_⟩
  · rw [BTree.growRoot, exec_newPage hfresh]
    exact hroot.trans hexec
  · refine holds_branch hnew₁ ?_ ?_ ?_
    · simpa [Function.update_of_ne hne.symm] using htype
    · simpa [Function.update_of_ne hne.symm] using hdecode
    · intro x hx
      rcases List.mem_pair.mp hx with rfl | rfl
      · exact hkeeps.holds_of_notMem hl hnot.1
      · exact hkeeps.holds_of_notMem hr hnot.2
  · simpa using hb'

theorem Represents.perm {records' : List LeafKv} (hr : st.Represents tree t records)
    (hperm : records.Perm records') : st.Represents tree t records' where
  root := hr.root
  header := hr.header
  holds := hr.holds
  wellFormed := hr.wellFormed
  entries := hr.entries.trans hperm
  ids := hr.ids
  held := hr.held

/-- The run of `prog` ends with the tree that an insertion with the given
outcome makes, under a new root if the old one was split. It writes to the
pages `ids` only, and for a new root to the header page. -/
def Finishes (tree : BTree) (ids : List PageId) (prog : PageProg BTree) (st : PlainStore I) :
    Option (Grown (PageTree h) Key × List PageId) → Prop
  | some (.fit t, fresh) => ∃ st', exec prog st = .ok (tree, st') ∧ Keeps ids st st' ∧
      st'.fresh = fresh ∧ st'.held = ∅ ∧ st'.Holds t
  | some (.split l s r, new :: fresh) => ∃ st',
      exec prog st = .ok ({ tree with rootPageId := new }, st') ∧
      Keeps (tree.headerPageId :: ids) st st' ∧ st'.fresh = fresh ∧ st'.held = ∅ ∧
      st'.Holds (Tree.branch new [(⊥, l), (s, r)]) ∧
      (st'.content tree.headerPageId).getU32 0 = .ok new
  | _ => exec prog st = .error .outOfIds

/-- **One insert**, as the insertion it carries out. -/
theorem finishes_insert (hsize : tree.Sized) (B : Build) (S : KeySort) (key : Key)
    (rid : RecordId) (hr : st.Represents tree t records) :
    Finishes tree (t.written tree.leafNodeMaxSize tree.internalNodeMaxSize key)
      (tree.insert B S key rid) st
      (t.insert S.sort tree.leafNodeMaxSize tree.internalNodeMaxSize key rid st.fresh) := by
  have hwf := hr.wellFormed
  obtain ⟨hheader, hnodup⟩ := List.nodup_cons.mp hr.nodup
  have hperforms := performs_insert hsize B S key rid BTree.maxTurns hwf.searchable hwf.fits
    hwf.filled (show (st.hold t.id).Holds t from hr.holds) hnodup hr.next_notMem_fresh (by simp)
    hr.onStack_root hr.height_lt.le
  rw [fresh_hold] at hperforms
  have hexec := exec_insert_eq B S key rid hr
  cases hins : t.insert S.sort tree.leafNodeMaxSize tree.internalNodeMaxSize key rid st.fresh with
  | none =>
      rw [hins] at hperforms
      exact hexec.trans hperforms
  | some out =>
  obtain ⟨g, fresh⟩ := out
  rw [hins] at hperforms
  cases g with
  | fit t' =>
      obtain ⟨st', hrun, hkeeps, hrest⟩ := hperforms
      exact ⟨st', hexec.trans hrun, ⟨hkeeps.next_le, hkeeps.content⟩, hrest⟩
  | split l s r =>
      obtain ⟨st', hrun, hkeeps, rfl, hstack', hl, hr'⟩ := hperforms
      have hidl : l.id = t.id := Tree.id_of_insert hins
      have hgrows : exec (tree.insert B S key rid) st =
          exec (tree.growRoot (s, r.id) l.id) st' := by
        rw [hidl]
        exact hexec.trans hrun
      cases hnew : st'.fresh with
      | nil => exact hgrows.trans (exec_newPage_nil hnew)
      | cons new fresh =>
          have hg := Tree.insert_grew S.sorts hsize.one_le_leaf hsize.two_le_internal
            hwf.searchable hwf.fits hwf.filled hins ⊥
          obtain ⟨st'', hgrow, hkeeps', hholds, hfresh, hheld, hroot⟩ := exec_growRoot hnew
            (by rw [hstack'.held, List.toFinset_nil]) (hkeeps.issued hr.header_issued) hl hr'
            (notMem_halves hr.header_issued hheader hg)
          have hkeeps'' : Keeps (tree.headerPageId ::
              t.written tree.leafNodeMaxSize tree.internalNodeMaxSize key) st st'' := by
            refine Keeps.trans ?_ (hkeeps'.mono (by simp))
            exact (show Keeps _ st st' from ⟨hkeeps.next_le, hkeeps.content⟩).mono
              (List.subset_cons_self _ _)
          exact ⟨st'', hgrows.trans hgrow, hkeeps'', hfresh, hheld, hholds, hroot⟩

/-- Without enough ids left, the tree the insert was about to build has more
pages than there are ids. -/
theorem Represents.not_suffices (hsize : tree.Sized) (S : KeySort) (key : Key) (rid : RecordId)
    (hr : st.Represents tree t records)
    (hout : t.insert S.sort tree.leafNodeMaxSize tree.internalNodeMaxSize key rid st.fresh =
      none ∨ ∃ l s r, t.insert S.sort tree.leafNodeMaxSize tree.internalNodeMaxSize key rid
        st.fresh = some (.split l s r, [])) (hheight : h < records.length) :
    ¬I.Suffices tree.leafNodeMaxSize tree.internalNodeMaxSize (records.length + 1) := by
  intro hs
  obtain ⟨n, t', hwf', hn, hperm, hlen⟩ := hr.wellFormed.outgrows S.sorts hsize.one_le_leaf
    hsize.two_le_internal hr.next_notMem_fresh hr.next_ne_header hout
  have hentries := (hperm.trans (hr.entries.cons _)).length_eq
  rw [List.length_cons] at hentries
  have hfew := hs n t' hwf' hentries.le (by omega)
  have hall := hr.length_ids
  omega

/-- It ends with the tree that has the new record too, unless the store has
not enough ids. -/
theorem exec_insert (hsize : tree.Sized) (B : Build) (S : KeySort) (key : Key) (rid : RecordId)
    (hr : st.Represents tree t records) :
    (exec (tree.insert B S key rid) st = .error .outOfIds ∧ (h < records.length →
      ¬I.Suffices tree.leafNodeMaxSize tree.internalNodeMaxSize (records.length + 1))) ∨
    ∃ (tree' : BTree) (st' : PlainStore I) (h' : ℕ) (t' : PageTree h'),
      exec (tree.insert B S key rid) st = .ok (tree', st') ∧
      tree'.leafNodeMaxSize = tree.leafNodeMaxSize ∧
      tree'.internalNodeMaxSize = tree.internalNodeMaxSize ∧
      st'.Represents tree' t' ((key, rid) :: records) ∧ h' ≤ h + 1 := by
  have hwf := hr.wellFormed
  have hfinishes := finishes_insert hsize B S key rid hr
  have hfew := hr.not_suffices hsize S key rid
  cases hins : t.insert S.sort tree.leafNodeMaxSize tree.internalNodeMaxSize key rid st.fresh with
  | none =>
      rw [hins] at hfinishes
      exact Or.inl ⟨hfinishes, hfew (Or.inl hins)⟩
  | some out =>
  obtain ⟨g, fresh⟩ := out
  rw [hins] at hfinishes
  match g, fresh with
  | .fit t', fresh =>
      obtain ⟨st', hrun, hkeeps, rfl, hheld, hholds⟩ := hfinishes
      obtain ⟨hwf', hentries, used, hused, hids⟩ :=
        hwf.fit S.sorts hsize.one_le_leaf hsize.two_le_internal hins
      have hidt : t'.id = t.id := Tree.id_of_insert hins
      exact Or.inr ⟨tree, st', h, t', hrun, rfl, rfl,
        hr.keeps (hkeeps.mono (Tree.written_subset t)) hholds hidt hwf' hentries hused hids hheld,
        Nat.le_succ h⟩
  | .split l s r, [] => exact Or.inl ⟨hfinishes, hfew (Or.inr ⟨l, s, r, hins⟩)⟩
  | .split l s r, new :: fresh =>
      obtain ⟨st', hrun, -, hfresh, hheld, hholds, hroot⟩ := hfinishes
      obtain ⟨hwf', hentries, used, hused, hids⟩ :=
        hwf.split S.sorts hsize.one_le_leaf hsize.two_le_internal hins new
      have hissued : st'.issued = st.issued ++ (used ++ [new]) :=
        issued_eq_append (by rw [hused, hfresh, List.append_assoc, List.singleton_append])
      refine Or.inr ⟨_, st', h + 1, Tree.branch new [(⊥, l), (s, r)], hrun, rfl, rfl,
        ⟨rfl, hroot, hholds, hwf', hentries.trans (hr.entries.cons _), ?_, hheld⟩, le_rfl⟩
      rw [hissued]
      apply (hr.ids.append_right _).trans
      rw [← List.append_assoc]
      exact (List.perm_append_singleton new _).trans
        ((List.Perm.swap _ _ _).trans (hids.symm.cons _))

/-! ### From the first insert on -/

/-- The first insert makes a leaf the root. -/
theorem exec_insertFirst (hsize : tree.Sized) (key : Key) (rid : RecordId) {new : PageId}
    {fresh : List PageId} (hfresh : st.fresh = new :: fresh) (hheld : st.held = ∅)
    (hissued : st.issued = [tree.headerPageId]) :
    ∃ st', exec (tree.insertFirst key rid) st = .ok ({ tree with rootPageId := new }, st') ∧
      st'.Represents { tree with rootPageId := new } (Tree.leaf new invalidPageId [(key, rid)])
        [(key, rid)] ∧ st'.fresh = fresh := by
  have hmin := hsize.one_le_leaf
  have hne : tree.headerPageId ≠ new := ne_new hfresh (by simp [hissued])
  have hnew₁ := mem_issued_new hfresh
  have hheader : tree.headerPageId ∈ (st.alloc new).issued :=
    (mem_issued_alloc hfresh).mpr (Or.inr (by simp [hissued]))
  have hfree : ∀ p, p ∉ (st.alloc new).held := by
    intro p
    rw [held_alloc, hheld]
    exact Finset.notMem_empty p
  obtain ⟨b, hencode, htype, hdecode⟩ := LeafNode.encode_spec ⟨invalidPageId, [(key, rid)]⟩
    (.zero pageSize) (by simp [headerSize, pageSize]) (by decide)
  obtain ⟨b', hb', hexec⟩ := exec_writeHeader (f := fun _ => do
      PageProg.check .write new
      let bytes ← PageProg.dataMut new
      let bytes ← PageProg.attempt (LeafNode.encode ⟨invalidPageId, [(key, rid)]⟩ bytes)
      PageProg.store new bytes
      PageProg.drop new
      pure { tree with rootPageId := new })
    { tree with rootPageId := new } hheader (hfree _)
  have hencode' : (fun bytes => LeafNode.encode ⟨invalidPageId, [(key, rid)]⟩ bytes)
      (((st.alloc new).put tree.headerPageId b').content new) = .ok b := by
    rw [content_put, Function.update_of_ne hne.symm, content_alloc, Function.update_self]
    exact hencode
  have hleaf := exec_rewrite (p := new) (f := fun _ => pure { tree with rootPageId := new })
    (show new ∈ ((st.alloc new).put tree.headerPageId b').issued from hnew₁) (hfree _) hencode'
  refine ⟨((st.alloc new).put tree.headerPageId b').put new b, ?_, ?_, fresh_alloc hfresh⟩
  · rw [BTree.insertFirst, exec_newPage hfresh]
    exact hexec.trans hleaf
  refine ⟨rfl, ?_, holds_leaf hnew₁ ?_ ?_, ⟨⟨?_, ?_⟩, hmin, trivial, ?_, ?_⟩, ?_, ?_, hheld⟩
  · simpa [Function.update_of_ne hne] using hb'
  · simpa using htype
  · simpa using hdecode
  · exact List.pairwise_singleton _ _
  · exact List.cons_ne_nil _ _
  · exact fun hzero => absurd rfl hzero
  · exact ⟨new, rfl, rfl⟩
  · exact List.Perm.refl _
  · have hissued' : (st.alloc new).issued = st.issued ++ [new] := issued_eq_append (by
      rw [hfresh, fresh_alloc hfresh]
      rfl)
    show List.Perm (st.alloc new).issued _
    rw [hissued', hissued]
    exact List.Perm.refl _

/-- A tree built by inserts: it is less high than there are records. -/
structure Built (st : PlainStore I) (tree : BTree) {h : ℕ} (t : PageTree h)
    (records : List LeafKv) : Prop extends st.Represents tree t records where
  sized : tree.Sized
  height : h < records.length

theorem Built.perm {records' : List LeafKv} (hb : st.Built tree t records)
    (hperm : records.Perm records') : st.Built tree t records' where
  toRepresents := hb.toRepresents.perm hperm
  sized := hb.sized
  height := hperm.length_eq ▸ hb.height

theorem exec_insert_built (B : Build) (S : KeySort) (key : Key) (rid : RecordId)
    (hb : st.Built tree t records) :
    (exec (tree.insert B S key rid) st = .error .outOfIds ∧
      ¬I.Suffices tree.leafNodeMaxSize tree.internalNodeMaxSize (records.length + 1)) ∨
    ∃ (tree' : BTree) (st' : PlainStore I) (h' : ℕ) (t' : PageTree h'),
      exec (tree.insert B S key rid) st = .ok (tree', st') ∧
      tree'.leafNodeMaxSize = tree.leafNodeMaxSize ∧
      tree'.internalNodeMaxSize = tree.internalNodeMaxSize ∧
      st'.Built tree' t' ((key, rid) :: records) := by
  obtain ⟨hr, hsize, hheight⟩ := hb
  rcases exec_insert hsize B S key rid hr with
    ⟨herror, hfew⟩ | ⟨tree', st', h', t', hrun, hleaf, hinternal, hr', hh'⟩
  · exact Or.inl ⟨herror, hfew hheight⟩
  · have hsize' : tree'.Sized := .of_eq ⟨hsize.one_le_leaf, hsize.leaf_le⟩
      ⟨hsize.two_le_internal, hsize.internal_le⟩ hleaf hinternal
    refine Or.inr ⟨tree', st', h', t', hrun, hleaf, hinternal, hr', hsize', ?_⟩
    rw [List.length_cons]
    omega

/-- A new tree and its first insert. -/
theorem exec_new_insert (B : Build) (S : KeySort) {L M : ℕ} (hL : 1 ≤ L ∧ L ≤ 511)
    (hM : 2 ≤ M ∧ M ≤ 681) (key : Key) (rid : RecordId) (f : BTree → PageProg α) :
    (exec (do
      let tree ← BTree.new L M
      let tree ← tree.insert B S key rid
      f tree) (.new I) = .error .outOfIds ∧ ¬I.Suffices L M 1) ∨
    ∃ (tree : BTree) (st : PlainStore I) (t : PageTree 0),
      exec (do
        let tree ← BTree.new L M
        let tree ← tree.insert B S key rid
        f tree) (.new I) = exec (f tree) st ∧
      tree.leafNodeMaxSize = L ∧ tree.internalNodeMaxSize = M ∧
      st.Built tree t [(key, rid)] := by
  have hids : (PlainStore.new I).fresh = I.ids := rfl
  have hfew : I.ids.length ≤ 1 → ¬I.Suffices L M 1 := by
    intro hone hs
    have htwo := hs.two_le hL.1 le_rfl
    omega
  rw [BTree.new]
  simp only [bind_assoc, pure_bind]
  cases hheader : I.ids with
  | nil => exact Or.inl ⟨exec_newPage_nil (hids.trans hheader), hfew (by simp [hheader])⟩
  | cons header rest =>
  have hfresh : (PlainStore.new I).fresh = header :: rest := hids.trans hheader
  have hissued : ((PlainStore.new I).alloc header).issued = [header] := by
    show I.ids.take 1 = [header]
    rw [hheader]
    rfl
  rw [exec_newPage hfresh, BTree.insert, if_pos rfl]
  cases hroot : rest with
  | nil =>
      refine Or.inl ⟨exec_newPage_nil ((fresh_alloc hfresh).trans hroot), hfew ?_⟩
      simp [hheader, hroot]
  | cons root fresh =>
  have hsize : BTree.Sized ⟨header, invalidPageId, L, M⟩ := .of_eq hL hM rfl rfl
  obtain ⟨st, hrun, hr, -⟩ :=
    exec_insertFirst hsize key rid ((fresh_alloc hfresh).trans hroot) rfl hissued
  exact Or.inr ⟨⟨header, root, L, M⟩, st, _, Prog.run_bind_ok hrun, rfl, rfl, hr,
    .of_eq hL hM rfl rfl, Nat.zero_lt_one⟩

/-- **A run of inserts** into a tree that is not empty. -/
theorem exec_insertAll (B : Build) (S : KeySort) (more : List LeafKv) :
    ∀ {tree : BTree} {st : PlainStore I} {h : ℕ} {t : PageTree h} {records : List LeafKv},
      st.Built tree t records →
      (exec (tree.insertAll B S more) st = .error .outOfIds ∧
        ¬I.Suffices tree.leafNodeMaxSize tree.internalNodeMaxSize
          (records.length + more.length)) ∨
      ∃ (tree' : BTree) (st' : PlainStore I) (h' : ℕ) (t' : PageTree h'),
        exec (tree.insertAll B S more) st = .ok (tree', st') ∧
        tree'.leafNodeMaxSize = tree.leafNodeMaxSize ∧
        tree'.internalNodeMaxSize = tree.internalNodeMaxSize ∧
        st'.Built tree' t' (records ++ more) := by
  induction more with
  | nil =>
      intro tree st h t records hb
      refine Or.inr ⟨tree, st, h, t, rfl, rfl, rfl, ?_⟩
      rw [List.append_nil]
      exact hb
  | cons record more ih =>
      intro tree st h t records hb
      obtain ⟨key, rid⟩ := record
      rw [List.length_cons]
      rcases exec_insert_built B S key rid hb with
        ⟨herror, hfew⟩ | ⟨tree₁, st₁, h₁, t₁, hrun, hleaf, hinternal, hb₁⟩
      · exact Or.inl ⟨Prog.run_bind_error herror, fun hs => hfew (hs.mono (by omega))⟩
      have hexec : exec (tree.insertAll B S ((key, rid) :: more)) st =
          exec (tree₁.insertAll B S more) st₁ := Prog.run_bind_ok hrun
      rw [hexec]
      rcases ih hb₁ with ⟨herror, hfew⟩ | ⟨tree', st', h', t', hrun', hleaf', hinternal', hb'⟩
      · refine Or.inl ⟨herror, fun hs => ?_⟩
        rw [hleaf, hinternal, List.length_cons] at hfew
        exact hfew (hs.mono (by omega))
      · exact Or.inr ⟨tree', st', h', t', hrun', hleaf'.trans hleaf, hinternal'.trans hinternal,
          hb'.perm List.perm_middle.symm⟩

/-- **The tree that inserts build.** The store holds it with exactly the
inserted records, or had too few ids for them. -/
theorem exec_build (I : IdSupply) (B : Build) (S : KeySort) {L M : ℕ} (hL : 1 ≤ L ∧ L ≤ 511)
    (hM : 2 ≤ M ∧ M ≤ 681) {records : List LeafKv} (hne : records ≠ []) :
    (exec (BTree.build B S L M records) (.new I) = .error .outOfIds ∧
      ¬I.Suffices L M records.length) ∨
    ∃ (tree : BTree) (st : PlainStore I) (h : ℕ) (t : PageTree h),
      exec (BTree.build B S L M records) (.new I) = .ok (tree, st) ∧
      tree.leafNodeMaxSize = L ∧ tree.internalNodeMaxSize = M ∧
      st.Built tree t records := by
  obtain ⟨⟨key, rid⟩, more, rfl⟩ := List.exists_cons_of_ne_nil hne
  rcases exec_new_insert B S hL hM key rid (fun tree => tree.insertAll B S more) with
    ⟨herror, hfew⟩ | ⟨tree, st, t, hexec, hleaf, hinternal, hb⟩
  · exact Or.inl ⟨herror, fun hs => hfew (hs.mono (by simp))⟩
  have hexec' : exec (BTree.build B S L M ((key, rid) :: more)) (.new I) =
      exec (tree.insertAll B S more) st := hexec
  rw [hexec']
  rcases exec_insertAll B S more hb with
    ⟨herror, hfew⟩ | ⟨tree', st', h', t', hrun', hleaf', hinternal', hb'⟩
  · refine Or.inl ⟨herror, ?_⟩
    rwa [hleaf, hinternal, List.length_singleton, Nat.add_comm] at hfew
  · exact Or.inr ⟨tree', st', h', t', hrun', hleaf'.trans hleaf, hinternal'.trans hinternal, hb'⟩

end PlainStore

end StorageEngine
