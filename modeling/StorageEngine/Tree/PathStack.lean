import StorageEngine.Tree.Build

/-!
The ancestors an insert lets go.

On its way down an insert drops the guards above every node that has room.
The variant `insertWholePath` keeps them all: it runs like the insert, next
to which it holds the guards let go, `kept`. A split stops at the latest at
the node with room, below which the insert let go, or at the root, so that
neither an ancestor nor its guard is missed.
-/

namespace StorageEngine

open Lib Lib.BPlus

namespace BTree

open PageProg

/-! ### The variants -/

/-- `descend` without `path_stack.clear()`. -/
def descendWholePath (B : Build) (key : Key) :
    ℕ → InternalNode → ℕ → List PageId → PageProg (List PageId)
  | 0, _, _, _ => .fail .diverges
  | turns + 1, internal, slot, pathStack => do
      let entry ← attempt (orPanic .index internal.entries[slot]?)
      let child := entry.2
      check .read child
      let bytes ← data child
      let nodeType ← attempt (bytes.get 0)
      let (internal, slot) ←
        if nodeType = internalNode then do
          let node ← attempt (InternalNode.decode bytes)
          let slot ← attempt (node.findChildIndex B key)
          pure (node, slot)
        else pure (internal, slot)
      drop child
      if nodeType = leafNode then do
        check .write child
        let bytes ← dataMut child
        let _ ← attempt (LeafNode.decode bytes)
        return child :: pathStack
      else do
        check .write child
        let bytes ← dataMut child
        let _ ← attempt (InternalNode.decode bytes)
        descendWholePath B key turns internal slot (child :: pathStack)

/-- `findPath` without `path_stack.clear()`: the whole path. -/
def findWholePath (B : Build) (tree : BTree) (key : Key) : PageProg (List PageId) := do
  check .write tree.rootPageId
  let bytes ← dataMut tree.rootPageId
  let nodeType ← attempt (bytes.get 0)
  if nodeType = leafNode then return [tree.rootPageId]
  else if nodeType = internalNode then do
    let bytes ← data tree.rootPageId
    let internal ← attempt (InternalNode.decode bytes)
    let slot ← attempt (internal.findChildIndex B key)
    descendWholePath B key maxTurns internal slot [tree.rootPageId]
  else do
    drop tree.rootPageId
    return []

/-- The insert that never lets an ancestor go. -/
def insertWholePath (B : Build) (S : KeySort) (tree : BTree) (key : Key) (rid : RecordId) :
    PageProg BTree := do
  if tree.rootPageId = invalidPageId then tree.insertFirst key rid
  else do
    let pathStack ← tree.findWholePath B key
    tree.insertIntoLeaf S key rid pathStack

/-- `propagate`, with `onEmpty` for what it does when the stack is empty. -/
def propagateTo (onEmpty : InternalKv → PageId → PageProg BTree) (tree : BTree) :
    List PageId → InternalKv → PageId → PageProg BTree
  | [], intendedInsert, leftPageId => onEmpty intendedInsert leftPageId
  | internalPageId :: pathStack, intendedInsert, leftPageId => do
      let bytes ← dataMut internalPageId
      let node ← attempt (InternalNode.decode bytes)
      let ptrToLeftIndex ← attempt (orPanic .unwrap
        (node.entries.findIdx? fun e => e.2 = leftPageId))
      let entries := node.entries.insertIdx (ptrToLeftIndex + 1) intendedInsert
      if entries.length ≤ tree.internalNodeMaxSize then do
        let bytes ← attempt (InternalNode.encode { entries } bytes)
        store internalPageId bytes
        drop internalPageId
        dropAll pathStack.reverse
        return tree
      else do
        let mid := entries.length / 2
        let up ← attempt (orPanic .index entries[mid]?)
        let rightInternalId ← newPage
        let rightEntries := (entries.drop mid).set 0 (invalidKey, up.2)
        check .write rightInternalId
        let rightBytes ← dataMut rightInternalId
        let rightBytes ← attempt (InternalNode.encode { entries := rightEntries } rightBytes)
        store rightInternalId rightBytes
        drop rightInternalId
        let bytes ← attempt (InternalNode.encode { entries := entries.take mid } bytes)
        store internalPageId bytes
        drop internalPageId
        propagateTo onEmpty tree pathStack (up.1, rightInternalId) internalPageId

/-- `insertIntoLeaf`, with `onEmpty` for what the propagation does when the
stack is empty. -/
def insertIntoLeafTo (onEmpty : InternalKv → PageId → PageProg BTree) (S : KeySort)
    (tree : BTree) (key : Key) (rid : RecordId) : List PageId → PageProg BTree
  | [] => attempt (.error .unwrap)
  | leafPageId :: pathStack => do
      let bytes ← dataMut leafPageId
      let node ← attempt (LeafNode.decode bytes)
      let entries := S.sort (node.entries ++ [(key, rid)])
      if entries.length > tree.leafNodeMaxSize then do
        drop leafPageId
        let intendedInsert ← splitLeaf S leafPageId key rid
        tree.propagateTo onEmpty pathStack intendedInsert leafPageId
      else do
        let bytes ← attempt (LeafNode.encode { node with entries } bytes)
        store leafPageId bytes
        drop leafPageId
        dropAll pathStack.reverse
        return tree

/-- A new root, which only the current root may be split for. -/
def growRootAsserting (tree : BTree) (intendedInsert : InternalKv) (leftPageId : PageId) :
    PageProg BTree :=
  if leftPageId = tree.rootPageId then tree.growRoot intendedInsert leftPageId
  else attempt (.error .explicit)

/-- The insert that asserts, where the propagation finds the stack empty, that
the node just split is the root. -/
def insertAsserting (B : Build) (S : KeySort) (tree : BTree) (key : Key) (rid : RecordId) :
    PageProg BTree := do
  if tree.rootPageId = invalidPageId then tree.insertFirst key rid
  else do
    let pathStack ← tree.findPath B key
    tree.insertIntoLeafTo tree.growRootAsserting S key rid pathStack

theorem propagateTo_growRoot (tree : BTree) (stack : List PageId) :
    ∀ kv left, tree.propagateTo tree.growRoot stack kv left = tree.propagate stack kv left := by
  induction stack with
  | nil => exact fun _ _ => rfl
  | cons p stack ih =>
      intro kv left
      simp only [propagateTo, propagate, ih]

theorem insertIntoLeafTo_growRoot (S : KeySort) (tree : BTree) (key : Key) (rid : RecordId)
    (stack : List PageId) : tree.insertIntoLeafTo tree.growRoot S key rid stack =
      tree.insertIntoLeaf S key rid stack := by
  cases stack with
  | nil => rfl
  | cons p stack => simp only [insertIntoLeafTo, insertIntoLeaf, propagateTo_growRoot]

end BTree

namespace PlainStore

variable {I : IdSupply} {st : PlainStore I} {α : Type}

/-! ### Two runs side by side -/

/-- The store with the guards of `kept` held besides. -/
def keeping (st : PlainStore I) (kept : List PageId) : PlainStore I :=
  { st with held := st.held ∪ kept.toFinset }

/-- The pages of `kept` are different, handed out and held by nobody else. -/
structure Apart (st : PlainStore I) (kept : List PageId) : Prop where
  nodup : kept.Nodup
  notHeld : ∀ p ∈ kept, p ∉ st.held
  issued : ∀ p ∈ kept, p ∈ st.issued

section SideBySide

variable {kept : List PageId} {p : PageId} {f g : Unit → PageProg α}

theorem keeping_nil (st : PlainStore I) : st.keeping [] = st := by
  simp [keeping]

theorem mem_held_keeping (hp : p ∉ kept) : p ∈ (st.keeping kept).held ↔ p ∈ st.held := by
  simp [keeping, hp]

theorem keeping_hold (p : PageId) : (st.keeping kept).hold p = (st.hold p).keeping kept := by
  simp only [keeping, hold, Finset.insert_union]

theorem keeping_release (hp : p ∉ kept) :
    (st.keeping kept).release p = (st.release p).keeping kept := by
  have hset : (st.held ∪ kept.toFinset).erase p = st.held.erase p ∪ kept.toFinset := by
    rw [Finset.erase_union_distrib, Finset.erase_eq_of_notMem (a := p) (s := kept.toFinset)]
    simpa using hp
  simp only [keeping, release, hset]

theorem Apart.alloc (h : st.Apart kept) {rest : List PageId} (hfresh : st.fresh = p :: rest) :
    (st.alloc p).Apart kept :=
  ⟨h.nodup, h.notHeld, fun q hq => (mem_issued_alloc hfresh).mpr (Or.inr (h.issued q hq))⟩

theorem Apart.hold (h : st.Apart kept) (hp : p ∉ kept) : (st.hold p).Apart kept := by
  refine ⟨h.nodup, fun q hq hheld => ?_, h.issued⟩
  rcases Finset.mem_insert.mp hheld with rfl | hheld
  · exact hp hq
  · exact h.notHeld q hq hheld

theorem Apart.release (h : st.Apart kept) (p : PageId) : (st.release p).Apart kept :=
  ⟨h.nodup, fun q hq hheld => h.notHeld q hq (Finset.mem_of_mem_erase hheld), h.issued⟩

theorem Apart.put (h : st.Apart kept) (p : PageId) (page : Page) : (st.put p page).Apart kept :=
  ⟨h.nodup, h.notHeld, h.issued⟩

theorem Apart.notMem_of_fresh (h : st.Apart kept) {rest : List PageId}
    (hfresh : st.fresh = p :: rest) : p ∉ kept := fun hp => notMem_issued hfresh (h.issued p hp)

/-! Commands about other pages than the kept ones. -/

theorem exec_attempt_congr {β : Type} {x : Except Panic β} {f g : β → PageProg α}
    {st st' : PlainStore I} (h : ∀ b, x = .ok b → exec (f b) st' = exec (g b) st) :
    exec (PageProg.attempt x >>= f) st' = exec (PageProg.attempt x >>= g) st := by
  cases x with
  | error e => rfl
  | ok b => exact h b rfl

theorem exec_newPage_congr {f g : PageId → PageProg α}
    (h : ∀ new rest, st.fresh = new :: rest →
      exec (f new) ((st.alloc new).keeping kept) = exec (g new) (st.alloc new)) :
    exec (PageProg.newPage >>= f) (st.keeping kept) = exec (PageProg.newPage >>= g) st := by
  cases hfresh : st.fresh with
  | nil =>
      have hfresh' : (st.keeping kept).fresh = [] := hfresh
      rw [exec_newPage_nil hfresh, exec_newPage_nil hfresh']
  | cons new rest =>
      have hfresh' : (st.keeping kept).fresh = new :: rest := hfresh
      rw [exec_newPage hfresh, exec_newPage hfresh']
      exact h new rest hfresh

/-- A command under a condition the kept guards have no part in. -/
theorem exec_call_congr {β : Type} {c : PageCmd β} {f g : β → PageProg α} {b : β}
    {st' : PlainStore I} {P : Prop} [Decidable P]
    (hstep : step β c st = if P then .ok (b, st') else .error .misuse)
    (hkeep : step β c (st.keeping kept) =
      if P then .ok (b, st'.keeping kept) else .error .misuse)
    (h : exec (f b) (st'.keeping kept) = exec (g b) st') :
    exec (Prog.call c >>= f) (st.keeping kept) = exec (Prog.call c >>= g) st := by
  by_cases hP : P
  · rw [if_pos hP] at hstep hkeep
    exact (Prog.run_call_bind_ok hkeep).trans (h.trans (Prog.run_call_bind_ok hstep).symm)
  · rw [if_neg hP] at hstep hkeep
    exact (Prog.run_call_bind_error hkeep).trans (Prog.run_call_bind_error hstep).symm

theorem exec_check_congr {kind : GuardKind} (hp : p ∉ kept)
    (h : exec (f ()) ((st.hold p).keeping kept) = exec (g ()) (st.hold p)) :
    exec (PageProg.check kind p >>= f) (st.keeping kept) =
      exec (PageProg.check kind p >>= g) st := by
  refine exec_call_congr rfl ?_ h
  simp only [step, mem_held_keeping hp, keeping_hold]
  rfl

theorem exec_data_congr {f g : Page → PageProg α} (hp : p ∉ kept)
    (h : exec (f (st.content p)) (st.keeping kept) = exec (g (st.content p)) st) :
    exec (PageProg.data p >>= f) (st.keeping kept) = exec (PageProg.data p >>= g) st := by
  refine exec_call_congr rfl ?_ h
  simp only [step, mem_held_keeping hp]
  rfl

theorem exec_dataMut_congr {f g : Page → PageProg α} (hp : p ∉ kept)
    (h : exec (f (st.content p)) (st.keeping kept) = exec (g (st.content p)) st) :
    exec (PageProg.dataMut p >>= f) (st.keeping kept) = exec (PageProg.dataMut p >>= g) st := by
  refine exec_call_congr rfl ?_ h
  simp only [step, mem_held_keeping hp]
  rfl

theorem exec_store_congr {page : Page} (hp : p ∉ kept)
    (h : exec (f ()) ((st.put p page).keeping kept) = exec (g ()) (st.put p page)) :
    exec (PageProg.store p page >>= f) (st.keeping kept) =
      exec (PageProg.store p page >>= g) st := by
  refine exec_call_congr rfl ?_ h
  simp only [step, mem_held_keeping hp]
  rfl

theorem exec_drop_congr (hp : p ∉ kept)
    (h : exec (f ()) ((st.release p).keeping kept) = exec (g ()) (st.release p)) :
    exec (PageProg.drop p >>= f) (st.keeping kept) = exec (PageProg.drop p >>= g) st := by
  refine exec_call_congr rfl ?_ h
  simp only [step, mem_held_keeping hp, keeping_release hp]

/-- At the end of the stack the kept guards are dropped with it. -/
theorem exec_dropAll_congr (h : st.Apart kept) (stack : List PageId) {f : Unit → PageProg α} :
    exec (PageProg.dropAll (stack ++ kept).reverse >>= f) (st.keeping kept) =
      exec (PageProg.dropAll stack.reverse >>= f) st := by
  have hsplit : ∀ as bs : List PageId, PageProg.dropAll (as ++ bs) =
      (PageProg.dropAll as >>= fun _ => PageProg.dropAll bs) := by
    intro as bs
    induction as with
    | nil => rfl
    | cons a as ih =>
        simp only [List.cons_append, PageProg.dropAll, ih, bind_assoc]
  have hheld : ∀ p ∈ kept.reverse, p ∈ (st.keeping kept).held := by
    intro p hp
    simp only [keeping, Finset.mem_union, List.mem_toFinset]
    exact Or.inr (List.mem_reverse.mp hp)
  have hset : (st.held ∪ kept.toFinset) \ kept.reverse.toFinset = st.held := by
    rw [List.toFinset_reverse, Finset.union_sdiff_right, Finset.sdiff_eq_self_iff_disjoint,
      Finset.disjoint_right]
    exact fun p hp => h.notHeld p (List.mem_toFinset.mp hp)
  rw [List.reverse_append, hsplit, bind_assoc,
    exec_dropAll (List.nodup_reverse.mpr h.nodup) hheld]
  simp only [keeping, hset]

end SideBySide

/-! ### Where a propagation stops -/

/-- The internal node has room for one more entry. -/
def HasRoom (st : PlainStore I) (tree : BTree) (p : PageId) : Prop :=
  ∀ node, InternalNode.decode (st.content p) = .ok node →
    node.entries.length < tree.internalNodeMaxSize

/-- A propagation up the stack, after a split of `left`, ends in the stack, or
at the root, above which nothing is kept. -/
def Stops (st : PlainStore I) (tree : BTree) (kept stack : List PageId) (left : PageId) : Prop :=
  (∃ p, stack.getLast? = some p ∧ st.HasRoom tree p) ∨
    kept = [] ∧ stack.getLast?.getD left = tree.rootPageId

section Stops

variable {tree : BTree} {kept stack : List PageId} {left p : PageId}
  {onEmpty : InternalKv → PageId → PageProg BTree}

theorem Stops.congr {st' : PlainStore I} (h : st.Stops tree kept stack left)
    (hcontent : ∀ p ∈ stack, st'.content p = st.content p) :
    st'.Stops tree kept stack left := by
  rcases h with ⟨p, hp, hroom⟩ | hroot
  · refine Or.inl ⟨p, hp, fun node hnode => hroom node ?_⟩
    rwa [← hcontent p (List.mem_of_getLast? hp)]
  · exact Or.inr hroot

/-- Above a node that overflows the propagation still stops. -/
theorem Stops.tail (h : st.Stops tree kept (p :: stack) left) {node : InternalNode}
    (hnode : InternalNode.decode (st.content p) = .ok node)
    (hfull : tree.internalNodeMaxSize ≤ node.entries.length) : st.Stops tree kept stack p := by
  rw [Stops, List.getLast?_cons] at h
  rcases h with ⟨q, hq, hroom⟩ | ⟨hkept, hroot⟩
  · cases hlast : stack.getLast? with
    | none =>
        obtain rfl : p = q := by simpa [hlast] using hq
        exact absurd (hroom node hnode) (not_lt.mpr hfull)
    | some r =>
        obtain rfl : r = q := by simpa [hlast] using hq
        exact Or.inl ⟨r, hlast, hroom⟩
  · exact Or.inr ⟨hkept, by simpa using hroot⟩

theorem le_of_length_insertIdx {n i : ℕ} {entries : List InternalKv} {kv : InternalKv}
    (h : ¬(entries.insertIdx i kv).length ≤ n) : n ≤ entries.length := by
  rw [List.length_insertIdx] at h
  split at h
  · omega
  · omega

/-- **The propagation** up the whole path is the one up the stack, whose end
it does not pass. -/
theorem exec_propagate_wholePath
    (honEmpty : ∀ kv, onEmpty kv tree.rootPageId = tree.growRoot kv tree.rootPageId) :
    ∀ {stack : List PageId} {st : PlainStore I} {kv : InternalKv} {left : PageId},
      st.Apart kept → stack.Nodup → (∀ p ∈ stack, p ∉ kept ∧ p ∈ st.issued) →
      st.Stops tree kept stack left →
      exec (tree.propagate (stack ++ kept) kv left) (st.keeping kept) =
        exec (tree.propagateTo onEmpty stack kv left) st := by
  intro stack
  induction stack with
  | nil =>
      intro st kv left _ _ _ hstop
      -- past the end of the stack there is only the root's parent to come
      rcases hstop with ⟨p, hp, -⟩ | ⟨rfl, hroot⟩
      · simp at hp
      · obtain rfl : left = tree.rootPageId := hroot
        rw [keeping_nil]
        exact congrArg (exec · st) (honEmpty kv).symm
  | cons p stack ih =>
      intro st kv left hapart hnodup hmem hstop
      obtain ⟨hnot, hnodup⟩ := List.nodup_cons.mp hnodup
      obtain ⟨hp, hissued⟩ := hmem p List.mem_cons_self
      rw [BTree.propagateTo, List.cons_append, BTree.propagate]
      refine exec_dataMut_congr hp (exec_attempt_congr fun node hnode =>
        exec_attempt_congr fun i _ => ?_)
      simp only
      split
      · refine exec_attempt_congr fun b _ => exec_store_congr hp (exec_drop_congr hp ?_)
        exact exec_dropAll_congr ((hapart.put p b).release p) stack
      · next hover =>
          refine exec_attempt_congr fun up _ => exec_newPage_congr fun new rest hfresh => ?_
          have hnew := hapart.notMem_of_fresh hfresh
          refine exec_check_congr hnew (exec_dataMut_congr hnew (exec_attempt_congr fun right _ =>
            exec_store_congr hnew (exec_drop_congr hnew (exec_attempt_congr fun b _ =>
              exec_store_congr hp (exec_drop_congr hp (ih ?_ hnodup ?_ ?_))))))
          · have hapart₁ := ((hapart.alloc hfresh).hold hnew).put new right
            exact ((hapart₁.release new).put p b).release p
          · intro q hq
            obtain ⟨hqk, hqi⟩ := hmem q (List.mem_cons_of_mem p hq)
            exact ⟨hqk, (mem_issued_alloc hfresh).mpr (Or.inr hqi)⟩
          · apply (hstop.tail hnode (le_of_length_insertIdx hover)).congr
            intro q hq
            have hqp : q ≠ p := by
              rintro rfl
              exact hnot hq
            have hqnew := ne_new hfresh (hmem q (List.mem_cons_of_mem p hq)).2
            simp [Function.update_of_ne hqp, Function.update_of_ne hqnew]

/-- The leaf has room for one more entry. -/
def LeafHasRoom (st : PlainStore I) (tree : BTree) (p : PageId) : Prop :=
  ∀ node, LeafNode.decode (st.content p) = .ok node →
    node.entries.length < tree.leafNodeMaxSize

/-- The insert into the leaf on top of either stack. -/
theorem exec_insertIntoLeaf_wholePath
    (honEmpty : ∀ kv, onEmpty kv tree.rootPageId = tree.growRoot kv tree.rootPageId)
    (S : KeySort) (key : Key) (rid : RecordId) (hapart : st.Apart kept)
    (hnodup : (p :: stack).Nodup) (hmem : ∀ q ∈ p :: stack, q ∉ kept ∧ q ∈ st.issued)
    (hstop : st.LeafHasRoom tree p ∨ st.Stops tree kept stack p) :
    exec (tree.insertIntoLeaf S key rid (p :: (stack ++ kept))) (st.keeping kept) =
      exec (tree.insertIntoLeafTo onEmpty S key rid (p :: stack)) st := by
  obtain ⟨hnot, hnodup⟩ := List.nodup_cons.mp hnodup
  obtain ⟨hp, hissued⟩ := hmem p List.mem_cons_self
  rw [BTree.insertIntoLeaf, BTree.insertIntoLeafTo]
  refine exec_dataMut_congr hp (exec_attempt_congr fun node hnode => ?_)
  simp only
  split
  · next hover =>
      have hfull : tree.leafNodeMaxSize ≤ node.entries.length := by
        rw [(S.perm _).length_eq, List.length_append, List.length_singleton] at hover
        omega
      -- a leaf that splits had no room, so that the propagation has to stop
      replace hstop := hstop.resolve_left fun hroom => absurd (hroom node hnode) (not_lt.mpr hfull)
      rw [BTree.splitLeaf]
      simp only [bind_assoc]
      refine exec_drop_congr hp (exec_newPage_congr fun new rest hfresh => ?_)
      have hnew := hapart.notMem_of_fresh hfresh
      refine exec_check_congr hp (exec_dataMut_congr hp (exec_attempt_congr fun _ _ =>
        exec_attempt_congr fun _ _ => exec_check_congr hnew (exec_dataMut_congr hnew
          (exec_attempt_congr fun right _ => exec_store_congr hnew (exec_attempt_congr fun b _ =>
            exec_store_congr hp (exec_drop_congr hnew (exec_drop_congr hp
              (exec_propagate_wholePath honEmpty ?_ hnodup ?_ ?_))))))))
      · have hapart₁ := ((hapart.release p).alloc hfresh).hold hp |>.hold hnew
        exact (((hapart₁.put new right).put p b).release new).release p
      · intro q hq
        obtain ⟨hqk, hqi⟩ := hmem q (List.mem_cons_of_mem p hq)
        exact ⟨hqk, (mem_issued_alloc hfresh).mpr (Or.inr hqi)⟩
      · apply hstop.congr
        intro q hq
        have hqp : q ≠ p := by
          rintro rfl
          exact hnot hq
        have hqnew := ne_new hfresh (hmem q (List.mem_cons_of_mem p hq)).2
        simp [Function.update_of_ne hqp, Function.update_of_ne hqnew]
  · refine exec_attempt_congr fun b _ => exec_store_congr hp (exec_drop_congr hp ?_)
    exact exec_dropAll_congr ((hapart.put p b).release p) stack

end Stops

/-! ### The descents -/

section Descents

variable {tree : BTree} {kept stack : List PageId} {p : PageId}
  {onEmpty : InternalKv → PageId → PageProg BTree}

/-- The guards of the stack let go at the page `p`. -/
def lettingGo (st : PlainStore I) (p : PageId) : PlainStore I := { st.hold p with held := {p} }

theorem lettingGo_onStack (hp : p ∈ st.issued) : (st.lettingGo p).OnStack [p] where
  nodup := List.nodup_singleton p
  held := rfl
  issued := fun q hq => by
    rw [List.mem_singleton.mp hq]
    exact hp

/-- The insert that keeps its path has the guards let go still. -/
theorem keeping_lettingGo (hstack : st.OnStack stack) (kept : List PageId) :
    (st.lettingGo p).keeping (stack ++ kept) = (st.hold p).keeping kept := by
  have hset : ({p} : Finset PageId) ∪ (stack ++ kept).toFinset =
      insert p st.held ∪ kept.toFinset := by
    rw [List.toFinset_append, ← hstack.held, ← Finset.union_assoc, Finset.insert_eq]
  simp only [keeping, lettingGo, held_hold, hset]

theorem Apart.lettingGo (h : st.Apart kept) (hstack : st.OnStack stack)
    (hp : p ∉ stack ∧ p ∉ kept) : (st.lettingGo p).Apart (stack ++ kept) where
  nodup := hstack.nodup.append h.nodup fun q hq hkept =>
    h.notHeld q hkept (hstack.mem_held.mpr hq)
  notHeld := by
    rintro q hq hheld
    obtain rfl : q = p := Finset.mem_singleton.mp hheld
    exact (List.mem_append.mp hq).elim hp.1 hp.2
  issued := fun q hq => (List.mem_append.mp hq).elim (hstack.issued q) (h.issued q)

/-- The pages of the stack have their guards, so that they are none of the kept ones. -/
theorem Apart.of_onStack (h : st.Apart kept) (hstack : st.OnStack stack) :
    ∀ q ∈ stack, q ∉ kept ∧ q ∈ st.issued := fun q hq =>
  ⟨fun hkept => h.notHeld q hkept (hstack.mem_held.mpr hq), hstack.issued q hq⟩

/-- The descent to the leaf `p`, which splits or is where a split stops. -/
theorem exec_descend_leaf
    (honEmpty : ∀ kv, onEmpty kv tree.rootPageId = tree.growRoot kv tree.rootPageId)
    (S : KeySort) (key : Key) (rid : RecordId) {node : LeafNode} (hp : p ∈ st.issued)
    (hdecode : LeafNode.decode (st.content p) = .ok node) (hnot : p ∉ stack ∧ p ∉ kept)
    (hstack : st.OnStack stack) (hapart : st.Apart kept)
    (hstop : st.Stops tree kept stack p) :
    exec (tree.insertIntoLeaf S key rid (p :: (stack ++ kept))) ((st.hold p).keeping kept) =
      exec ((if node.entries.length < tree.leafNodeMaxSize then do
          PageProg.dropAll stack.reverse
          return [p]
        else return p :: stack) >>= tree.insertIntoLeafTo onEmpty S key rid) (st.hold p) := by
  have hpush := hstack.push hp hnot.1
  split
  · next hroom =>
      have hleaf : (st.lettingGo p).LeafHasRoom tree p := by
        intro node' hnode'
        rwa [← Except.ok.inj (hdecode.symm.trans hnode')]
      have hgone := lettingGo_onStack hp
      have hapart' := hapart.lettingGo hstack hnot
      rw [bind_assoc, hpush.exec_dropAll, pure_bind, ← keeping_lettingGo hstack]
      have hinsert := exec_insertIntoLeaf_wholePath honEmpty S key rid hapart' hgone.nodup
        (hapart'.of_onStack hgone) (Or.inl hleaf)
      rwa [List.nil_append] at hinsert
  · have hapart' := hapart.hold hnot.2
    rw [pure_bind]
    exact exec_insertIntoLeaf_wholePath honEmpty S key rid hapart' hpush.nodup
      (hapart'.of_onStack hpush) (Or.inr hstop)

/-- **The descent** that keeps its path ends like the one that lets it go. -/
theorem exec_descendWholePath
    (honEmpty : ∀ kv, onEmpty kv tree.rootPageId = tree.growRoot kv tree.rootPageId)
    (B : Build) (S : KeySort) (key : Key) (rid : RecordId) :
    ∀ (turns : ℕ) {h : ℕ} {t : PageTree (h + 1)} {st : PlainStore I} {stack kept : List PageId}
      (slot : ℕ), st.Holds t → t.ids.Nodup → (∀ q ∈ t.ids, q ∉ stack ∧ q ∉ kept) →
      st.OnStack (t.id :: stack) → st.Apart kept →
      (∀ left, st.Stops tree kept (t.id :: stack) left) →
      exec (BTree.descendWholePath B key turns ⟨t.children.map fun e => (e.1, e.2.id)⟩ slot
          (t.id :: (stack ++ kept)) >>= tree.insertIntoLeaf S key rid) (st.keeping kept) =
        exec (tree.descend B key turns ⟨t.children.map fun e => (e.1, e.2.id)⟩ slot
          (t.id :: stack) >>= tree.insertIntoLeafTo onEmpty S key rid) st
  | 0, _, _, _, _, _, _, _, _, _, _, _, _ => rfl
  | turns + 1, h, t, st, stack, kept, slot, hh, hnodup, hids, hstack, hapart, hstop => by
      rw [BTree.descendWholePath, BTree.descend]
      simp only [bind_assoc]
      apply exec_attempt_congr
      intro entry hentry
      obtain ⟨e, he, rfl⟩ : ∃ e ∈ t.children, (e.1, e.2.id) = entry :=
        List.mem_map.mp (List.mem_of_getElem? (orPanic_eq_ok.mp hentry))
      obtain ⟨pre, post, hc⟩ := List.append_of_mem he
      obtain ⟨hnodupChild, -, -⟩ := ids_of_cut hnodup hc
      have hidsChild : ∀ q ∈ e.2.ids, q ∉ t.id :: stack ∧ q ∉ kept := fun q hq =>
        ⟨notMem_stack_of_child hnodup hc (fun q hq => (hids q hq).1) q hq,
          (hids q (ids_subset_of_child he hq)).2⟩
      have hnot := hidsChild _ (Tree.id_mem_ids e.2)
      have hchild := hh.child he
      have hid := hchild.issued (Tree.id_mem_ids e.2)
      have hheld : e.2.id ∉ st.held := mt hstack.mem_held.mp hnot.1
      have hpush := hstack.push hid hnot.1
      refine exec_check_congr hnot.2 (exec_data_congr hnot.2 (exec_attempt_congr
        fun nodeType htype => ?_))
      -- the page type tells the last turn, at a leaf, from those before
      cases h with
      | zero =>
          obtain ⟨htype', hdecode⟩ := hchild.leaf
          obtain rfl := Except.ok.inj (htype'.symm.trans htype)
          simp only [leafNode_ne, if_true, if_false, pure_bind, bind_assoc]
          apply exec_drop_congr hnot.2
          rw [release_hold hheld]
          refine exec_check_congr hnot.2 (exec_dataMut_congr hnot.2 (exec_attempt_congr
            fun node hnode => ?_))
          rw [← List.cons_append]
          exact exec_descend_leaf honEmpty S key rid hid hnode hnot hstack hapart (hstop _)
      | succ h =>
          obtain ⟨htype', hdecode⟩ := hchild.branch
          obtain rfl := Except.ok.inj (htype'.symm.trans htype)
          simp only [internalNode_ne, if_true, if_false, bind_assoc, pure_bind]
          refine exec_attempt_congr fun node hnode => exec_attempt_congr fun slot' _ =>
            exec_drop_congr hnot.2 ?_
          rw [release_hold hheld]
          refine exec_check_congr hnot.2 (exec_dataMut_congr hnot.2 (exec_attempt_congr
            fun node' hnode' => ?_))
          obtain rfl := Except.ok.inj (hdecode.symm.trans hnode)
          obtain rfl := Except.ok.inj (hnode.symm.trans hnode')
          rw [← List.cons_append]
          -- at a node with room the kept path ends where the other stack starts anew
          split
          · next hroom =>
              have hroom' : (st.lettingGo e.2.id).HasRoom tree e.2.id := by
                intro node hnode''
                rwa [← Except.ok.inj (hdecode.symm.trans hnode'')]
              have hchild' : (st.lettingGo e.2.id).Holds e.2 := hchild
              have hapart' := hapart.lettingGo hstack hnot
              rw [bind_assoc, hpush.exec_dropAll, ← keeping_lettingGo hstack]
              refine exec_descendWholePath honEmpty B S key rid turns slot' hchild' hnodupChild
                (fun q hq => ⟨List.not_mem_nil, ?_⟩) (lettingGo_onStack hid) hapart'
                fun _ => Or.inl ⟨e.2.id, rfl, hroom'⟩
              exact List.mem_append.not.mpr (not_or.mpr (hidsChild q hq))
          · exact exec_descendWholePath honEmpty B S key rid turns slot' hchild hnodupChild
              hidsChild hpush (hapart.hold hnot.2) hstop

/-- The insert with its whole path, from the root on. -/
theorem exec_insertWholePath {h : ℕ} {t : PageTree h} {records : List LeafKv}
    (honEmpty : ∀ kv, onEmpty kv tree.rootPageId = tree.growRoot kv tree.rootPageId)
    (B : Build) (S : KeySort) (key : Key) (rid : RecordId) (hr : st.Represents tree t records) :
    exec (tree.insertWholePath B S key rid) st =
      exec (tree.findPath B key >>= tree.insertIntoLeafTo onEmpty S key rid) st := by
  have hapart : st.Apart [] := ⟨List.nodup_nil, by simp, by simp⟩
  have hnot : t.id ∉ ([] : List PageId) := List.not_mem_nil
  have hstack := hr.onStack_root
  have hstop : ∀ left, (st.hold t.id).Stops tree [] [t.id] left := fun _ =>
    Or.inr ⟨rfl, hr.root.symm⟩
  rw [BTree.insertWholePath, if_neg hr.root_ne_invalid, BTree.findWholePath, BTree.findPath,
    hr.root]
  nth_rewrite 1 [← keeping_nil st]
  simp only [bind_assoc]
  refine exec_check_congr hnot (exec_dataMut_congr hnot (exec_attempt_congr
    fun nodeType htype => ?_))
  cases h with
  | zero =>
      obtain ⟨htype', -⟩ := hr.holds.leaf
      obtain rfl := Except.ok.inj (htype'.symm.trans htype)
      have hapart' := hapart.hold hnot
      simp only [if_true, pure_bind]
      have hinsert := exec_insertIntoLeaf_wholePath honEmpty S key rid hapart' hstack.nodup
        (hapart'.of_onStack hstack) (Or.inr (Or.inr ⟨rfl, hr.root.symm⟩))
      rwa [List.append_nil] at hinsert
  | succ h =>
      obtain ⟨htype', hdecode⟩ := hr.holds.branch
      obtain rfl := Except.ok.inj (htype'.symm.trans htype)
      have hnodup := (List.nodup_cons.mp hr.nodup).2
      simp only [internalNode_ne, if_true, if_false, bind_assoc]
      refine exec_data_congr hnot (exec_attempt_congr fun node hnode =>
        exec_attempt_congr fun slot _ => ?_)
      obtain rfl := Except.ok.inj (hdecode.symm.trans hnode)
      have hholds : (st.hold t.id).Holds t := hr.holds
      have hdescend := exec_descendWholePath honEmpty B S key rid BTree.maxTurns slot hholds
        hnodup (fun q _ => ⟨List.not_mem_nil, List.not_mem_nil⟩) hstack (hapart.hold hnot) hstop
      rwa [List.append_nil] at hdescend

end Descents

/-- **Letting the ancestors go changes nothing.** On a tree built by inserts a
further insert runs like the one that keeps its whole path, to the same pages,
ids and root, and it splits no node but the root without an ancestor on its
stack. -/
theorem insert_eq_insertWholePath (I : IdSupply) (B : Build) (S : KeySort) {L M : ℕ}
    (hL : 1 ≤ L ∧ L ≤ 511) (hM : 2 ≤ M ∧ M ≤ 681) {records : List LeafKv} (hne : records ≠ []) :
    (exec (BTree.build B S L M records) (.new I) = .error .outOfIds ∧
      ¬I.Suffices L M records.length) ∨
    ∃ (tree : BTree) (st : PlainStore I),
      exec (BTree.build B S L M records) (.new I) = .ok (tree, st) ∧
      ∀ (key : Key) (rid : RecordId),
        exec (tree.insert B S key rid) st = exec (tree.insertWholePath B S key rid) st ∧
        exec (tree.insert B S key rid) st = exec (tree.insertAsserting B S key rid) st ∧
        (exec (tree.insert B S key rid) st = .error .outOfIds ∧
            ¬I.Suffices L M (records.length + 1) ∨
          ∃ tree' st', exec (tree.insert B S key rid) st = .ok (tree', st')) := by
  rcases exec_build I B S hL hM hne with herror | ⟨tree, st, h, t, hexec, hleaf, hinternal, hb⟩
  · exact Or.inl herror
  obtain ⟨hr, hsize, hheight⟩ := hb
  refine Or.inr ⟨tree, st, hexec, fun key rid => ?_⟩
  -- the insert is the one whose propagation grows the root, whatever it split last
  have hwhole : exec (tree.insert B S key rid) st =
      exec (tree.insertWholePath B S key rid) st := by
    have hgrow := exec_insertWholePath (fun _ => rfl) B S key rid hr
    have hpath : tree.insertIntoLeafTo tree.growRoot S key rid = tree.insertIntoLeaf S key rid :=
      funext (tree.insertIntoLeafTo_growRoot S key rid)
    rw [hgrow, hpath, BTree.insert, if_neg hr.root_ne_invalid]
  have hassert : exec (tree.insertWholePath B S key rid) st =
      exec (tree.insertAsserting B S key rid) st := by
    rw [BTree.insertAsserting, if_neg hr.root_ne_invalid]
    exact exec_insertWholePath (fun _ => if_pos rfl) B S key rid hr
  refine ⟨hwhole, hwhole.trans hassert, ?_⟩
  rcases exec_insert hsize B S key rid hr with
    ⟨herror, hfew⟩ | ⟨tree', st', _, _, hrun, -⟩
  · rw [hleaf, hinternal] at hfew
    exact Or.inl ⟨herror, hfew hheight⟩
  · exact Or.inr ⟨tree', st', hrun⟩

theorem insert_eq_insertWholePath_three :
    ∃ (tree : BTree) (st : PlainStore (.counting 10 (by decide))),
      exec (BTree.build ⟨true⟩ .insertion 2 2 [(5, ⟨1, 1⟩), (3, ⟨1, 2⟩), (4, ⟨1, 3⟩)])
        (.new _) = .ok (tree, st) ∧
      ∀ (key : Key) (rid : RecordId),
        exec (tree.insert ⟨true⟩ .insertion key rid) st =
          exec (tree.insertWholePath ⟨true⟩ .insertion key rid) st ∧
        exec (tree.insert ⟨true⟩ .insertion key rid) st =
          exec (tree.insertAsserting ⟨true⟩ .insertion key rid) st ∧
        (exec (tree.insert ⟨true⟩ .insertion key rid) st = .error .outOfIds ∧
            ¬(IdSupply.counting 10 (by decide)).Suffices 2 2 (3 + 1) ∨
          ∃ tree' st', exec (tree.insert ⟨true⟩ .insertion key rid) st = .ok (tree', st')) :=
  (insert_eq_insertWholePath (.counting 10 (by decide)) ⟨true⟩ .insertion (by decide) (by decide)
    (by decide)).resolve_left fun h => h.2 (IdSupply.suffices_of_square (by decide))

end PlainStore

end StorageEngine
