import StorageEngine.Lib.BPlusChain
import StorageEngine.Tree.Build

/-!
The B+Tree as an index: what its inserts build, and what `find` finds.

A list of inserts runs on a store of page ids that is given once and for all.
A run that needs more ids than there are ends with `outOfIds`; this is ruled
out for stores whose ids suffice for as many records as are inserted.
-/

namespace StorageEngine

open Lib Lib.BPlus

/-- An operation of a tree. -/
inductive TreeOp
  | insert (key : Key) (rid : RecordId)
  | find (key : Key)

namespace BTree

/-- Operations in turn, with the results of the finds. -/
def perform (B : Build) (S : KeySort) : BTree → List TreeOp → PageProg (List (Option LeafKv))
  | _, [] => pure []
  | tree, .insert key rid :: ops => do
      let tree ← tree.insert B S key rid
      perform B S tree ops
  | tree, .find key :: ops => do
      let result ← tree.find B key
      let results ← perform B S tree ops
      return result :: results

/-- A new tree with the maximal sizes `L` and `M`, a first insert, and the
operations after it. -/
def workload (B : Build) (S : KeySort) (L M : ℕ) (key : Key) (rid : RecordId)
    (ops : List TreeOp) : PageProg (List (Option LeafKv)) := do
  let tree ← new L M
  let tree ← tree.insert B S key rid
  perform B S tree ops

end BTree

namespace PlainStore

variable {I : IdSupply} {st : PlainStore I} {tree : BTree} {h : ℕ} {t : PageTree h}
variable {records : List LeafKv}

/-! ### Lookups -/

/-- `find_leaf` returns the leaf that `locate` finds. -/
theorem exec_findLeaf {α : Type} (B : Build) {key : Key}
    {f : Option (LeafNode × PageId) → PageProg α} (hr : st.Represents tree t records)
    {l : Leaf PageId Key RecordId} (hl : t.locate key = some l) :
    exec (tree.findLeaf B key >>= f) st = exec (f (some (⟨l.next, l.entries⟩, l.id))) st := by
  have hmem : tree.headerPageId ∈ (st.hold tree.headerPageId).held := Finset.mem_insert_self _ _
  rw [BTree.findLeaf]
  simp only [bind_assoc]
  rw [exec_check hr.header_issued (hr.notMem_held _), exec_data hmem, content_hold,
    exec_attempt hr.header, exec_drop hmem, release_hold (hr.notMem_held _)]
  exact exec_findLeafFrom B key f hr.wellFormed.searchable hr.holds
    (fun p _ => hr.notMem_held p) hr.height_lt hl

theorem exec_find (B : Build) (key : Key) (hr : st.Represents tree t records) :
    ∃ o, exec (tree.find B key) st = .ok (o, st) ∧ (o = none ↔ ∀ r ∈ records, r.1 ≠ key) ∧
      ∀ r, o = some r → r.1 = key ∧ r ∈ records := by
  have hs := hr.wellFormed.searchable
  obtain ⟨-, l, -, hl, -⟩ := hs.locate_spec key
  have hmem : ∀ e ∈ l.entries, e ∈ records := fun e he =>
    hr.entries.mem_iff.mp (List.mem_flatMap.mpr ⟨l, Tree.locate_mem hl, he⟩)
  have hsub : l.entries.Sublist (t.leaves.map Leaf.entries).flatten :=
    List.sublist_flatten_of_mem (List.mem_map_of_mem (Tree.locate_mem hl))
  have hsorted : (LeafNode.mk l.next l.entries).entries.Pairwise fun a b => a.1 ≤ b.1 :=
    hs.sorted.sublist hsub
  obtain ⟨o, -, ho, hsome, hnone⟩ := LeafNode.findKv_spec key hsorted
  refine ⟨o, ?_, ⟨fun hnil r hrec hkey => ?_, fun hno => ?_⟩, fun r hor => ?_⟩
  · rw [BTree.find, exec_findLeaf B hr hl]
    show exec (PageProg.attempt _) st = _
    rw [ho]
    rfl
  · obtain ⟨e, he, hek⟩ := hs.has_of_mem hl (hr.entries.mem_iff.mpr hrec) hkey
    exact hnone hnil e he hek
  · cases ho' : o with
    | none => rfl
    | some r => exact absurd (hsome r ho').2 (hno r (hmem r (hsome r ho').1))
  · exact ⟨(hsome r hor).2, hmem r (hsome r hor).1⟩

/-- **The B+Tree is an index.** After any inserts, `find` returns a record
with the key that was inserted, and nothing only if there is none. -/
theorem find_build (I : IdSupply) (B : Build) (S : KeySort) {L M : ℕ} (hL : 1 ≤ L ∧ L ≤ 511)
    (hM : 2 ≤ M ∧ M ≤ 681) {records : List LeafKv} (hne : records ≠ []) (key : Key) :
    (exec (BTree.build B S L M records >>= fun tree => tree.find B key) (.new I) =
        .error .outOfIds ∧ ¬I.Suffices L M records.length) ∨
    ∃ o st, exec (BTree.build B S L M records >>= fun tree => tree.find B key) (.new I) =
        .ok (o, st) ∧ (o = none ↔ ∀ r ∈ records, r.1 ≠ key) ∧
      ∀ r, o = some r → r.1 = key ∧ r ∈ records := by
  rcases exec_build I B S hL hM hne with ⟨herror, hfew⟩ | ⟨tree, st, h, t, hrun, -, -, hb⟩
  · exact Or.inl ⟨Prog.run_bind_error herror, hfew⟩
  · obtain ⟨o, ho, hspec⟩ := exec_find B key hb.toRepresents
    exact Or.inr ⟨o, st, (Prog.run_bind_ok hrun).trans ho, hspec⟩

theorem find_build_twins : ∃ o st,
    exec (BTree.build ⟨true⟩ .insertion 2 2 [(5, ⟨1, 1⟩), (5, ⟨1, 2⟩), (-3, ⟨2, 0⟩)] >>=
      fun tree => tree.find ⟨true⟩ 5) (.new (.counting 10 (by decide))) = .ok (o, st) ∧
      (o = none ↔ ∀ r ∈ [((5 : Key), RecordId.mk 1 1), (5, ⟨1, 2⟩), (-3, ⟨2, 0⟩)], r.1 ≠ 5) ∧
      ∀ r, o = some r → r.1 = 5 ∧ r ∈ [((5 : Key), RecordId.mk 1 1), (5, ⟨1, 2⟩), (-3, ⟨2, 0⟩)] :=
  (find_build (.counting 10 (by decide)) ⟨true⟩ .insertion (by decide) (by decide)
    (List.cons_ne_nil _ _) 5).resolve_left fun h => h.2 (IdSupply.suffices_of_square (by decide))

/-- Operations on a tree built by inserts complete, as long as there are ids. -/
theorem exec_perform (B : Build) (S : KeySort) (ops : List TreeOp) :
    ∀ {tree : BTree} {st : PlainStore I} {h : ℕ} {t : PageTree h} {records : List LeafKv},
      st.Built tree t records →
      (exec (tree.perform B S ops) st = .error .outOfIds ∧
        ¬I.Suffices tree.leafNodeMaxSize tree.internalNodeMaxSize
          (records.length + ops.length)) ∨
      ∃ results st', exec (tree.perform B S ops) st = .ok (results, st') := by
  induction ops with
  | nil =>
      intro tree st h t records _
      exact Or.inr ⟨[], st, rfl⟩
  | cons op ops ih =>
      intro tree st h t records hb
      cases op with
      | insert key rid =>
          rcases exec_insert_built B S key rid hb with
            ⟨herror, hfew⟩ | ⟨tree₁, st₁, h₁, t₁, hrun, hleaf, hinternal, hb₁⟩
          · exact Or.inl ⟨Prog.run_bind_error herror, fun hs => hfew (hs.mono (by simp))⟩
          have hexec : exec (tree.perform B S (.insert key rid :: ops)) st =
              exec (tree₁.perform B S ops) st₁ := Prog.run_bind_ok hrun
          rw [hexec, List.length_cons,
            show records.length + (ops.length + 1) = records.length + 1 + ops.length by omega,
            ← hleaf, ← hinternal]
          exact ih hb₁
      | find key =>
          obtain ⟨o, ho, -⟩ := exec_find B key hb.toRepresents
          have hexec : exec (tree.perform B S (.find key :: ops)) st =
              exec (tree.perform B S ops >>= fun results => pure (o :: results)) st :=
            Prog.run_bind_ok ho
          rw [hexec]
          rcases ih hb with ⟨herror, hfew⟩ | ⟨results, st', hrun⟩
          · exact Or.inl ⟨Prog.run_bind_error herror, fun hs => hfew (hs.mono (by simp))⟩
          · exact Or.inr ⟨o :: results, st', Prog.run_bind_ok hrun⟩

theorem exec_workload (I : IdSupply) (B : Build) (S : KeySort) {L M : ℕ}
    (hL : 1 ≤ L ∧ L ≤ 511) (hM : 2 ≤ M ∧ M ≤ 681) (key : Key) (rid : RecordId)
    (ops : List TreeOp) :
    (exec (BTree.workload B S L M key rid ops) (.new I) = .error .outOfIds ∧
      ¬I.Suffices L M (ops.length + 1)) ∨
    ∃ results st, exec (BTree.workload B S L M key rid ops) (.new I) = .ok (results, st) := by
  rcases exec_new_insert B S hL hM key rid (fun tree => tree.perform B S ops) with
    ⟨herror, hfew⟩ | ⟨tree, st, t, hexec, hleaf, hinternal, hb⟩
  · exact Or.inl ⟨herror, fun hs => hfew (hs.mono (by simp))⟩
  · have hexec' : exec (BTree.workload B S L M key rid ops) (.new I) =
        exec (tree.perform B S ops) st := hexec
    rw [hexec', Nat.add_comm, ← hleaf, ← hinternal]
    exact exec_perform B S ops hb

/-! ### The shape of the tree -/

/-- **Inserts keep the shape of the tree.** Its root is the page the header
names, all leaves are at the depth `h`, the entries are in order, the nodes
are neither too large nor too small, and its pages are all that were ever
handed out, each once, but for the header. -/
theorem shape_build (I : IdSupply) (B : Build) (S : KeySort) {L M : ℕ} (hL : 1 ≤ L ∧ L ≤ 511)
    (hM : 2 ≤ M ∧ M ≤ 681) {records : List LeafKv} (hne : records ≠ []) :
    (exec (BTree.build B S L M records) (.new I) = .error .outOfIds ∧
      ¬I.Suffices L M records.length) ∨
    ∃ (tree : BTree) (st : PlainStore I) (h : ℕ) (t : PageTree h),
      exec (BTree.build B S L M records) (.new I) = .ok (tree, st) ∧
      (st.content tree.headerPageId).getU32 0 = .ok tree.rootPageId ∧
      t.id = tree.rootPageId ∧ st.Holds t ∧ t.Ordered ∧ t.Fits L M ∧ t.Filled L M ∧
      (h ≠ 0 → 2 ≤ t.size) ∧ st.issued.Nodup ∧
      st.issued.Perm (tree.headerPageId :: t.ids) := by
  rcases exec_build I B S hL hM hne with hfew | ⟨tree, st, h, t, hrun, hleaf, hinternal, hb⟩
  · exact Or.inl hfew
  · have hr := hb.toRepresents
    have hwf := hr.wellFormed
    rw [hleaf, hinternal] at hwf
    exact Or.inr ⟨tree, st, h, t, hrun, hr.root ▸ hr.header, hr.root.symm, hr.holds,
      hwf.searchable.ordered, hwf.fits, hwf.filled, hwf.branched, st.issued_nodup, hr.ids⟩

theorem shape_build_twins :
    ∃ (tree : BTree) (st : PlainStore (.counting 10 (by decide))) (h : ℕ) (t : PageTree h),
      exec (BTree.build ⟨true⟩ .insertion 2 2 [(5, ⟨1, 1⟩), (5, ⟨1, 2⟩), (-3, ⟨2, 0⟩)]) (.new _) =
        .ok (tree, st) ∧
      (st.content tree.headerPageId).getU32 0 = .ok tree.rootPageId ∧
      t.id = tree.rootPageId ∧ st.Holds t ∧ t.Ordered ∧ t.Fits 2 2 ∧ t.Filled 2 2 ∧
      (h ≠ 0 → 2 ≤ t.size) ∧ st.issued.Nodup ∧
      st.issued.Perm (tree.headerPageId :: t.ids) :=
  (shape_build (.counting 10 (by decide)) ⟨true⟩ .insertion (by decide) (by decide)
    (List.cons_ne_nil _ _)).resolve_left fun h => h.2 (IdSupply.suffices_of_square (by decide))

end PlainStore

end StorageEngine
