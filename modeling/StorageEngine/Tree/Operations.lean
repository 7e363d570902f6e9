import StorageEngine.Lib.OrderedIndex
import StorageEngine.Tree.Scan
import StorageEngine.Tree.Size

/-!
The B+Tree carries out an ordered index.

Inserts, lookups and scans in any order get the replies an index with the
records inserted so far allows, on every store that has enough page ids.
-/

namespace StorageEngine

open Lib Lib.BPlus

/-- The operations of the tree. -/
abbrev IndexOp : Type := Index.Op Key RecordId

/-- Their results; a scan is read to its end, for the entries of its leaves. -/
abbrev IndexReply : Type := Index.Reply Key RecordId

namespace BTree

def serve (B : Build) (S : KeySort) (tree : BTree) : IndexOp → PageProg (BTree × IndexReply)
  | .insert key rid => do
      let tree ← tree.insert B S key rid
      return (tree, .inserted)
  | .find key => do
      let result ← tree.find B key
      return (tree, .found result)
  | .scan key => do
      let leaves ← tree.scanAll B key
      return (tree, .scanned (leaves.flatMap LeafNode.entries))

/-- Operations in turn. -/
def serveAll (B : Build) (S : KeySort) : BTree → List IndexOp → PageProg (BTree × List IndexReply)
  | tree, [] => pure (tree, [])
  | tree, op :: ops => do
      let (tree, reply) ← tree.serve B S op
      let (tree, replies) ← serveAll B S tree ops
      return (tree, reply :: replies)

/-- The life of a tree: a first insert, and the operations after it. -/
def life (B : Build) (S : KeySort) (L M : ℕ) (key : Key) (rid : RecordId) (ops : List IndexOp) :
    PageProg (BTree × List IndexReply) := do
  let tree ← new L M
  let tree ← tree.insert B S key rid
  serveAll B S tree ops

theorem serveAll_append (B : Build) (S : KeySort) (ops ops' : List IndexOp) : ∀ tree : BTree,
    tree.serveAll B S (ops ++ ops') = (do
      let (tree, replies) ← tree.serveAll B S ops
      let (tree, replies') ← tree.serveAll B S ops'
      return (tree, replies ++ replies')) := by
  induction ops with
  | nil =>
      intro tree
      exact (bind_pure (tree.serveAll B S ops')).symm
  | cons op ops ih =>
      intro tree
      simp only [List.cons_append, serveAll, ih, bind_assoc, pure_bind]

/-- A life that goes on. -/
theorem life_append (B : Build) (S : KeySort) (L M : ℕ) (key : Key) (rid : RecordId)
    (ops ops' : List IndexOp) :
    life B S L M key rid (ops ++ ops') = (do
      let (tree, replies) ← life B S L M key rid ops
      let (tree, replies') ← tree.serveAll B S ops'
      return (tree, replies ++ replies')) := by
  simp only [life, serveAll_append, bind_assoc]

end BTree

namespace PlainStore

variable {I : IdSupply} {st : PlainStore I} {tree : BTree} {h : ℕ} {t : PageTree h}
variable {records : List LeafKv} {B : Build} {S : KeySort}

/-- What a lookup on the tree finds. -/
theorem exec_find_finds (B : Build) (key : Key) (hr : st.Represents tree t records) :
    ∃ o, exec (tree.find B key) st = .ok (o, st) ∧ Index.Finds (records : Index _ _) key o := by
  obtain ⟨o, hrun, hnone, hsome⟩ := exec_find B key hr
  exact ⟨o, hrun, by simpa using hnone, fun r hor => (hsome r hor).symm⟩

/-- What a scan of the tree lists. -/
theorem exec_scanAll_scans (B : Build) (key : Key) (hr : st.Represents tree t records) :
    ∃ leaves, exec (tree.scanAll B key) st = .ok (leaves, st) ∧
      Index.Scans (records : Index _ _) key (leaves.flatMap LeafNode.entries) := by
  obtain ⟨before, l, after, hscan, hleaves, hbefore, hafter⟩ := exec_scanAll B key hr
  have hs := hr.wellFormed.searchable
  have hsorted := hs.sorted
  rw [Tree.entries, hleaves, List.flatMap_append] at hsorted
  obtain ⟨-, hlisted, hcross⟩ := sortedKeys_append.mp hsorted
  refine ⟨_, hscan, ?_⟩
  rw [flatMap_nodeOf]
  refine ⟨hlisted, (before.flatMap Leaf.entries : List LeafKv), ?_, hcross, ?_, ?_⟩
  · have hentries : t.entries =
        before.flatMap Leaf.entries ++ (l :: after).flatMap Leaf.entries := by
      rw [Tree.entries, hleaves, List.flatMap_append]
    rw [Multiset.coe_add, ← hentries]
    exact (Multiset.coe_eq_coe.mpr hr.entries).symm
  · intro x hx
    obtain ⟨l', hl', hxl⟩ := List.mem_flatMap.mp hx
    exact (hs.before hleaves hbefore hl' hxl).1
  · intro x hx hkey
    obtain ⟨l', hl', hxl⟩ := List.mem_flatMap.mp hx
    obtain ⟨e, he, hek⟩ := (hs.before hleaves hbefore hl' hxl).2 hkey
    exact ⟨e, List.mem_flatMap.mpr ⟨l, List.mem_cons_self, he⟩, hek⟩

theorem length_after {op : IndexOp} {records records' : List LeafKv}
    (h : (records' : Index _ _) = Index.after records op) :
    records'.length = records.length + Index.inserts [op] :=
  (congrArg Multiset.card h).trans (Index.card_after _ op)

/-- **One operation.** -/
theorem exec_serve (op : IndexOp) (hb : st.Built tree t records)
    (hs : I.Suffices tree.leafNodeMaxSize tree.internalNodeMaxSize
      (records.length + Index.inserts [op])) :
    ∃ (tree' : BTree) (reply : IndexReply) (st' : PlainStore I) (h' : ℕ) (t' : PageTree h')
      (records' : List LeafKv),
      exec (tree.serve B S op) st = .ok ((tree', reply), st') ∧
      tree'.leafNodeMaxSize = tree.leafNodeMaxSize ∧
      tree'.internalNodeMaxSize = tree.internalNodeMaxSize ∧
      st'.Built tree' t' records' ∧ (records' : Index _ _) = Index.after records op ∧
      Index.Allows records op reply := by
  cases op with
  | insert key rid =>
      obtain ⟨tree', st', h', t', hrun, hleaf, hinternal, hb'⟩ :=
        (exec_insert_built B S key rid hb).resolve_left fun hfew => hfew.2 hs
      exact ⟨tree', .inserted, st', h', t', _, (Prog.run_bind_ok hrun).trans rfl, hleaf, hinternal,
        hb', rfl, trivial⟩
  | find key =>
      obtain ⟨o, hrun, hfinds⟩ := exec_find_finds B key hb.toRepresents
      exact ⟨tree, .found o, st, h, t, records, (Prog.run_bind_ok hrun).trans rfl, rfl, rfl, hb,
        rfl, hfinds⟩
  | scan key =>
      obtain ⟨leaves, hrun, hscans⟩ := exec_scanAll_scans B key hb.toRepresents
      exact ⟨tree, _, st, h, t, records, (Prog.run_bind_ok hrun).trans rfl, rfl, rfl, hb, rfl,
        hscans⟩

/-- Operations in turn, each of them answered as the records before it demand. -/
theorem exec_serveAll (ops : List IndexOp) :
    ∀ {tree : BTree} {st : PlainStore I} {h : ℕ} {t : PageTree h} {records : List LeafKv},
      st.Built tree t records →
      I.Suffices tree.leafNodeMaxSize tree.internalNodeMaxSize
        (records.length + Index.inserts ops) →
      ∃ (tree' : BTree) (replies : List IndexReply) (st' : PlainStore I) (h' : ℕ)
        (t' : PageTree h') (records' : List LeafKv),
        exec (tree.serveAll B S ops) st = .ok ((tree', replies), st') ∧
        tree'.leafNodeMaxSize = tree.leafNodeMaxSize ∧
        tree'.internalNodeMaxSize = tree.internalNodeMaxSize ∧
        st'.Built tree' t' records' ∧
        (records' : Index _ _) = ops.foldl Index.after (records : Index _ _) ∧
        Index.Answers records ops replies := by
  induction ops with
  | nil =>
      intro tree st h t records hb _
      exact ⟨tree, [], st, h, t, records, rfl, rfl, rfl, hb, rfl, trivial⟩
  | cons op ops ih =>
      intro tree st h t records hb hs
      rw [Index.inserts_cons, ← Nat.add_assoc] at hs
      obtain ⟨tree₁, reply, st₁, h₁, t₁, records₁, hrun, hleaf, hinternal, hb₁, hafter, hallows⟩ :=
        exec_serve (B := B) (S := S) op hb (hs.mono (Nat.le_add_right _ _))
      rw [← length_after hafter, ← hleaf, ← hinternal] at hs
      obtain ⟨tree', replies, st', h', t', records', hrun', hleaf', hinternal', hb', hall,
        hanswers⟩ := ih hb₁ hs
      rw [hafter] at hall hanswers
      refine ⟨tree', reply :: replies, st', h', t', records', ?_, hleaf'.trans hleaf,
        hinternal'.trans hinternal, hb', hall, hallows, hanswers⟩
      rw [BTree.serveAll, exec, Prog.run_bind_ok hrun]
      simp only
      rw [Prog.run_bind_ok hrun']
      rfl

theorem exec_life {L M : ℕ} (hL : 1 ≤ L ∧ L ≤ 511) (hM : 2 ≤ M ∧ M ≤ 681) (key : Key)
    (rid : RecordId) (ops : List IndexOp) (hs : I.Suffices L M (Index.inserts ops + 1)) :
    ∃ (tree : BTree) (replies : List IndexReply) (st : PlainStore I) (h : ℕ) (t : PageTree h)
      (records : List LeafKv),
      exec (BTree.life B S L M key rid ops) (.new I) = .ok ((tree, replies), st) ∧
      tree.leafNodeMaxSize = L ∧ tree.internalNodeMaxSize = M ∧ st.Built tree t records ∧
      (records : Index _ _) = ops.foldl Index.after {(key, rid)} ∧
      Index.Answers {(key, rid)} ops replies := by
  obtain ⟨tree₁, st₁, t₁, hexec, hleaf, hinternal, hb⟩ :=
    (exec_new_insert B S hL hM key rid (fun tree => tree.serveAll B S ops)).resolve_left
      fun hfew => hfew.2 (hs.mono (Nat.le_add_left 1 _))
  rw [← hleaf, ← hinternal, Nat.add_comm] at hs
  obtain ⟨tree, replies, st, h, t, records, hrun, hleaf', hinternal', hb', hall, hanswers⟩ :=
    exec_serveAll (B := B) (S := S) ops hb hs
  exact ⟨tree, replies, st, h, t, records, hexec.trans hrun, hleaf'.trans hleaf,
    hinternal'.trans hinternal, hb', hall, hanswers⟩

/-- **The tree is an ordered index**, in every run of inserts, lookups and
scans after a first insert. It holds on to no page between them. -/
theorem life_answers (I : IdSupply) (B : Build) (S : KeySort) {L M : ℕ} (hL : 1 ≤ L ∧ L ≤ 511)
    (hM : 2 ≤ M ∧ M ≤ 681) (key : Key) (rid : RecordId) (ops : List IndexOp)
    (hids : 3 ≤ M ∧ 2 * max 1 ((Index.inserts ops + 1) / ((L + 1) / 2)) ≤ I.ids.length ∨
      (Index.inserts ops + 1) ^ 2 < I.ids.length) :
    ∃ (tree : BTree) (replies : List IndexReply) (st : PlainStore I),
      exec (BTree.life B S L M key rid ops) (.new I) = .ok ((tree, replies), st) ∧
      Index.Answers {(key, rid)} ops replies ∧ st.held = ∅ := by
  have hs : I.Suffices L M (Index.inserts ops + 1) := IdSupply.suffices_of_either hL.1 hids
  obtain ⟨tree, replies, st, h, t, records, hrun, -, -, hb, -, hanswers⟩ :=
    exec_life (B := B) (S := S) hL hM key rid ops hs
  exact ⟨tree, replies, st, hrun, hanswers, hb.held⟩

theorem life_answers_scan :
    ∃ (tree : BTree) (replies : List IndexReply) (st : PlainStore (.counting 4 (by decide))),
      exec (BTree.life ⟨true⟩ .insertion 1 3 5 ⟨1, 0⟩
        [.find 7, .insert 7 ⟨1, 1⟩, .scan 5]) (.new _) = .ok ((tree, replies), st) ∧
      Index.Answers {((5 : Key), RecordId.mk 1 0)} [.find 7, .insert 7 ⟨1, 1⟩, .scan 5] replies ∧
      st.held = ∅ :=
  life_answers (.counting 4 (by decide)) ⟨true⟩ .insertion (by decide) (by decide) 5 ⟨1, 0⟩ _
    (by decide)

end PlainStore

end StorageEngine
