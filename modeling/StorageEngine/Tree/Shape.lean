import StorageEngine.Lib.BPlusMap
import StorageEngine.Tree.Build

/-!
What the shape of a tree depends on.

The order `sort_unstable_by_key` gives to records with one key is not known.
It does not matter for the shape of the tree, nor do the record ids: page ids,
the links of the leaves, the separators and the keys in every page come from
the keys inserted and their order alone, and so does whether the inserts run
out of page ids.
-/

namespace StorageEngine

open Lib Lib.BPlus

namespace PlainStore

variable {I : IdSupply} {st st' : PlainStore I} {tree : BTree} {h : ℕ} {t : PageTree h}
  {records : List LeafKv}

/-- The run of `prog` ends with the tree of the outcome, and with its records. -/
def Makes (tree : BTree) (records : List LeafKv) (prog : PageProg BTree) (st : PlainStore I) :
    Option (Grown (PageTree h) Key × List PageId) → Prop
  | some (.fit t, fresh) => ∃ st', exec prog st = .ok (tree, st') ∧
      st'.Represents tree t records ∧ st'.fresh = fresh
  | some (.split l s r, new :: fresh) => ∃ st',
      exec prog st = .ok ({ tree with rootPageId := new }, st') ∧
      st'.Represents { tree with rootPageId := new } (Tree.branch new [(⊥, l), (s, r)]) records ∧
      st'.fresh = fresh
  | _ => exec prog st = .error .outOfIds

theorem makes_insert (hsize : tree.Sized) (B : Build) (S : KeySort) (key : Key) (rid : RecordId)
    (hr : st.Represents tree t records) :
    Makes tree ((key, rid) :: records) (tree.insert B S key rid) st
      (t.insert S.sort tree.leafNodeMaxSize tree.internalNodeMaxSize key rid st.fresh) := by
  have hwf := hr.wellFormed
  have hfinishes := finishes_insert hsize B S key rid hr
  cases hins : t.insert S.sort tree.leafNodeMaxSize tree.internalNodeMaxSize key rid st.fresh with
  | none =>
      rw [hins] at hfinishes
      exact hfinishes
  | some out =>
  obtain ⟨g, fresh⟩ := out
  rw [hins] at hfinishes
  match g, fresh with
  | .fit t', fresh =>
      obtain ⟨st', hrun, hkeeps, rfl, hheld, hholds⟩ := hfinishes
      obtain ⟨hwf', hentries, used, hused, hids⟩ :=
        hwf.fit S.sorts hsize.one_le_leaf hsize.two_le_internal hins
      exact ⟨st', hrun, hr.keeps (hkeeps.mono (Tree.written_subset t)) hholds
        (Tree.id_of_insert hins) hwf' hentries hused hids hheld, rfl⟩
  | .split l s r, [] => exact hfinishes
  | .split l s r, new :: fresh =>
      obtain ⟨st', hrun, -, hfresh, hheld, hholds, hroot⟩ := hfinishes
      obtain ⟨hwf', hentries, used, hused, hids⟩ :=
        hwf.split S.sorts hsize.one_le_leaf hsize.two_le_internal hins new
      have hissued : st'.issued = st.issued ++ (used ++ [new]) :=
        issued_eq_append (by rw [hused, hfresh, List.append_assoc, List.singleton_append])
      refine ⟨st', hrun, ⟨rfl, hroot, hholds, hwf', hentries.trans (hr.entries.cons _), ?_, hheld⟩,
        hfresh⟩
      rw [hissued]
      apply (hr.ids.append_right _).trans
      rw [← List.append_assoc]
      exact (List.perm_append_singleton new _).trans
        ((List.Perm.swap _ _ _).trans (hids.symm.cons _))

/-- The two stores hold trees of one shape, in the same pages. -/
def SameShape (tree : BTree) (st st' : PlainStore I) : Prop :=
  st.fresh = st'.fresh ∧ ∃ (h : ℕ) (t t' : PageTree h) (records records' : List LeafKv),
    st.Represents tree t records ∧ st'.Represents tree t' records' ∧ t.skeleton = t'.skeleton

/-- **One insert** under the same key. -/
theorem SameShape.insert (hs : SameShape tree st st') (hsize : tree.Sized) (B B' : Build)
    (S S' : KeySort) (key : Key) (rid rid' : RecordId) :
    (exec (tree.insert B S key rid) st = .error .outOfIds ∧
      exec (tree.insert B' S' key rid') st' = .error .outOfIds) ∨
    ∃ (tree₁ : BTree) (st₁ st₁' : PlainStore I), tree₁.Sized ∧
      exec (tree.insert B S key rid) st = .ok (tree₁, st₁) ∧
      exec (tree.insert B' S' key rid') st' = .ok (tree₁, st₁') ∧ SameShape tree₁ st₁ st₁' := by
  obtain ⟨hfresh, h, t, t', records, records', hr, hr', hskeleton⟩ := hs
  have hout := Tree.insert_skeleton tree.leafNodeMaxSize tree.internalNodeMaxSize S.sorts S'.sorts
    hskeleton key rid rid' st.fresh
  have hleft := makes_insert hsize B S key rid hr
  have hright := makes_insert hsize B' S' key rid' hr'
  rw [← hfresh] at hright
  obtain ⟨ho, ho'⟩ | ⟨t₁, t₁', fresh, ho, ho', ht⟩ |
      ⟨l, l', s, r, r', fresh, ho, ho', hl, hright'⟩ := mapOutcome_cases hout
  · rw [ho] at hleft
    rw [ho'] at hright
    exact Or.inl ⟨hleft, hright⟩
  · rw [ho] at hleft
    rw [ho'] at hright
    obtain ⟨st₁, hrun, hr₁, hfresh₁⟩ := hleft
    obtain ⟨st₁', hrun', hr₁', hfresh₁'⟩ := hright
    exact Or.inr ⟨tree, st₁, st₁', hsize, hrun, hrun', hfresh₁.trans hfresh₁'.symm, h, t₁, t₁', _,
      _, hr₁, hr₁', ht⟩
  · rw [ho] at hleft
    rw [ho'] at hright
    cases fresh with
    | nil => exact Or.inl ⟨hleft, hright⟩
    | cons new fresh =>
        obtain ⟨st₁, hrun, hr₁, hfresh₁⟩ := hleft
        obtain ⟨st₁', hrun', hr₁', hfresh₁'⟩ := hright
        refine Or.inr ⟨_, st₁, st₁', ?_, hrun, hrun', hfresh₁.trans hfresh₁'.symm, h + 1, _, _, _,
          _, hr₁, hr₁', ?_⟩
        · exact ⟨hsize.one_le_leaf, hsize.leaf_le, hsize.two_le_internal, hsize.internal_le⟩
        · show Tree.branch new [(⊥, l.skeleton), (s, r.skeleton)] =
            Tree.branch new [(⊥, l'.skeleton), (s, r'.skeleton)]
          rw [hl, hright']

/-- Inserts under the same keys, one after the other. -/
theorem SameShape.insertAll (B B' : Build) (S S' : KeySort) (more : List LeafKv) :
    ∀ {more' : List LeafKv} {tree : BTree} {st st' : PlainStore I},
      more.map Prod.fst = more'.map Prod.fst → SameShape tree st st' → tree.Sized →
      (exec (tree.insertAll B S more) st = .error .outOfIds ∧
        exec (tree.insertAll B' S' more') st' = .error .outOfIds) ∨
      ∃ (tree₁ : BTree) (st₁ st₁' : PlainStore I),
        exec (tree.insertAll B S more) st = .ok (tree₁, st₁) ∧
        exec (tree.insertAll B' S' more') st' = .ok (tree₁, st₁') ∧ SameShape tree₁ st₁ st₁' := by
  induction more with
  | nil =>
      intro more' tree st st' hkeys hs hsize
      obtain rfl : more' = [] := by simpa using hkeys.symm
      exact Or.inr ⟨tree, st, st', rfl, rfl, hs⟩
  | cons record more ih =>
      intro more' tree st st' hkeys hs hsize
      obtain ⟨key, rid⟩ := record
      cases more' with
      | nil => simp at hkeys
      | cons record' more' =>
          obtain ⟨key', rid'⟩ := record'
          obtain ⟨rfl, hmore⟩ : key = key' ∧ more.map Prod.fst = more'.map Prod.fst := by
            simpa using hkeys
          obtain ⟨herror, herror'⟩ | ⟨tree₁, st₁, st₁', hsize₁, hrun, hrun', hs₁⟩ :=
            hs.insert hsize B B' S S' key rid rid'
          · exact Or.inl ⟨Prog.run_bind_error herror, Prog.run_bind_error herror'⟩
          · have hrest := ih hmore hs₁ hsize₁
            have hexec : exec (tree.insertAll B S ((key, rid) :: more)) st =
                exec (tree₁.insertAll B S more) st₁ := Prog.run_bind_ok hrun
            have hexec' : exec (tree.insertAll B' S' ((key, rid') :: more')) st' =
                exec (tree₁.insertAll B' S' more') st₁' := Prog.run_bind_ok hrun'
            rwa [hexec, hexec']

/-- A new tree and its first insert, in any build and with any record id. -/
theorem exec_build_cons (I : IdSupply) {L M : ℕ} (hL : 1 ≤ L ∧ L ≤ 511) (hM : 2 ≤ M ∧ M ≤ 681)
    (key : Key) :
    (∀ B S rid more, exec (BTree.build B S L M ((key, rid) :: more)) (.new I) =
        .error .outOfIds) ∨
    ∃ (tree : BTree) (fresh : List PageId), tree.Sized ∧ ∀ rid, ∃ st : PlainStore I,
      (∀ B S more, exec (BTree.build B S L M ((key, rid) :: more)) (.new I) =
        exec (tree.insertAll B S more) st) ∧
      st.Represents tree (Tree.leaf tree.rootPageId invalidPageId [(key, rid)]) [(key, rid)] ∧
      st.fresh = fresh := by
  have hids : (PlainStore.new I).fresh = I.ids := rfl
  cases hheader : I.ids with
  | nil =>
      left
      intro B S rid more
      rw [BTree.build, BTree.new]
      simp only [bind_assoc, pure_bind]
      exact exec_newPage_nil (hids.trans hheader)
  | cons header rest =>
  have hfresh : (PlainStore.new I).fresh = header :: rest := hids.trans hheader
  have hissued : ((PlainStore.new I).alloc header).issued = [header] := by
    show I.ids.take 1 = [header]
    rw [hheader]
    rfl
  -- the header page is there, and the first insert begins
  have hbegin : ∀ B S rid more, exec (BTree.build B S L M ((key, rid) :: more)) (.new I) =
      exec (BTree.insertFirst ⟨header, invalidPageId, L, M⟩ key rid >>= fun tree =>
        tree.insertAll B S more) ((PlainStore.new I).alloc header) := by
    intro B S rid more
    rw [BTree.build, BTree.new]
    simp only [bind_assoc, pure_bind]
    rw [exec_newPage hfresh, BTree.insertAll, BTree.insert, if_pos rfl]
  cases hroot : rest with
  | nil =>
      left
      intro B S rid more
      rw [hbegin, BTree.insertFirst]
      simp only [bind_assoc]
      exact exec_newPage_nil ((fresh_alloc hfresh).trans hroot)
  | cons root fresh =>
      have hsize : BTree.Sized ⟨header, invalidPageId, L, M⟩ := .of_eq hL hM rfl rfl
      refine Or.inr ⟨⟨header, root, L, M⟩, fresh, .of_eq hL hM rfl rfl, fun rid => ?_⟩
      obtain ⟨st, hrun, hr, hfresh'⟩ :=
        exec_insertFirst hsize key rid ((fresh_alloc hfresh).trans hroot) rfl hissued
      refine ⟨st, fun B S more => ?_, hr, hfresh'⟩
      rw [hbegin]
      exact Prog.run_bind_ok hrun

/-- **The keys decide the shape.** Two runs of inserts under the same keys, with
any two sorts, any record ids and in any two builds, both run out of page ids or
leave trees of one shape in the same pages. -/
theorem shape_of_keys (I : IdSupply) (B B' : Build) (S S' : KeySort) {L M : ℕ}
    (hL : 1 ≤ L ∧ L ≤ 511) (hM : 2 ≤ M ∧ M ≤ 681) {records records' : List LeafKv}
    (hne : records ≠ []) (hkeys : records.map Prod.fst = records'.map Prod.fst) :
    (exec (BTree.build B S L M records) (.new I) = .error .outOfIds ∧
      exec (BTree.build B' S' L M records') (.new I) = .error .outOfIds) ∨
    ∃ (tree : BTree) (st st' : PlainStore I) (h : ℕ) (t t' : PageTree h),
      exec (BTree.build B S L M records) (.new I) = .ok (tree, st) ∧
      exec (BTree.build B' S' L M records') (.new I) = .ok (tree, st') ∧
      t.id = tree.rootPageId ∧ st.Holds t ∧ t'.id = tree.rootPageId ∧ st'.Holds t' ∧
      t.skeleton = t'.skeleton ∧ st.fresh = st'.fresh := by
  obtain ⟨⟨key, rid⟩, more, rfl⟩ := List.exists_cons_of_ne_nil hne
  cases records' with
  | nil => simp at hkeys
  | cons record' more' =>
  obtain ⟨key', rid'⟩ := record'
  obtain ⟨rfl, hmore⟩ : key = key' ∧ more.map Prod.fst = more'.map Prod.fst := by
    simpa using hkeys
  obtain hnone | ⟨tree₁, fresh, hsize, hfirst⟩ := exec_build_cons I hL hM key
  · exact Or.inl ⟨hnone B S rid more, hnone B' S' rid' more'⟩
  obtain ⟨st₁, hrun, hr₁, hfresh⟩ := hfirst rid
  obtain ⟨st₁', hrun', hr₁', hfresh'⟩ := hfirst rid'
  have hs : SameShape tree₁ st₁ st₁' :=
    ⟨hfresh.trans hfresh'.symm, 0, _, _, _, _, hr₁, hr₁', rfl⟩
  rw [hrun, hrun']
  obtain hfails | ⟨tree, st, st', hend, hend', hsame, h, t, t', _, _, hr, hr', hskeleton⟩ :=
    hs.insertAll B B' S S' more hmore hsize
  · exact Or.inl hfails
  · exact Or.inr ⟨tree, st, st', h, t, t', hend, hend', hr.root.symm, hr.holds, hr'.root.symm,
      hr'.holds, hskeleton, hsame⟩

/-- Two records under one key, with the ids swapped. -/
theorem shape_of_keys_twins :
    (exec (BTree.build ⟨true⟩ .insertion 1 3 [(5, ⟨1, 0⟩), (5, ⟨2, 0⟩)])
        (.new (.counting 4 (by decide))) = .error .outOfIds ∧
      exec (BTree.build ⟨false⟩ .insertion 1 3 [(5, ⟨2, 0⟩), (5, ⟨1, 0⟩)])
        (.new (.counting 4 (by decide))) = .error .outOfIds) ∨
    ∃ (tree : BTree) (st st' : PlainStore (.counting 4 (by decide))) (h : ℕ) (t t' : PageTree h),
      exec (BTree.build ⟨true⟩ .insertion 1 3 [(5, ⟨1, 0⟩), (5, ⟨2, 0⟩)]) (.new _) =
        .ok (tree, st) ∧
      exec (BTree.build ⟨false⟩ .insertion 1 3 [(5, ⟨2, 0⟩), (5, ⟨1, 0⟩)]) (.new _) =
        .ok (tree, st') ∧
      t.id = tree.rootPageId ∧ st.Holds t ∧ t'.id = tree.rootPageId ∧ st'.Holds t' ∧
      t.skeleton = t'.skeleton ∧ st.fresh = st'.fresh :=
  shape_of_keys (.counting 4 (by decide)) ⟨true⟩ ⟨false⟩ .insertion .insertion (by decide)
    (by decide) (List.cons_ne_nil _ _) rfl

end PlainStore

end StorageEngine
