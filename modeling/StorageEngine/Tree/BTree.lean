import StorageEngine.Lib.Prog
import StorageEngine.Pool.BufferPool
import StorageEngine.Tree.Node

/-!
The B+Tree (`b_plus_tree.rs`) as a program over pages.

The commands are the calls the tree makes of its buffer pool and of the
guards it holds. A guard is named by its page: the tree never holds two
guards on one page. A guard that goes out of scope is dropped where the
source drops it. The loops that descend the tree are cut off after 2^32
turns, more than a tree over 2^32 page ids has levels.
-/

namespace StorageEngine

open Lib

/-- The calls of the buffer pool and of the guards. -/
inductive PageCmd : Type → Type
  | newPage : PageCmd PageId
  /-- `check_read_page(p).unwrap()` and `check_write_page(p).unwrap()` -/
  | check (kind : GuardKind) (p : PageId) : PageCmd Unit
  /-- the bytes shown by `data()` -/
  | data (p : PageId) : PageCmd Page
  /-- `data_mut()`, with the bytes it shows -/
  | dataMut (p : PageId) : PageCmd Page
  /-- the bytes stored through `data_mut()` -/
  | store (p : PageId) (page : Page) : PageCmd Unit
  | drop (p : PageId) : PageCmd Unit

/-- How a program of the tree can end without a value. -/
inductive Abort
  | panic (e : Panic)
  /-- a loop was cut off -/
  | diverges
  /-- the store has no fresh page id left -/
  | outOfIds
  /-- a guard that is not held, or a second one on its page -/
  | misuse
  deriving DecidableEq, Repr

abbrev PageProg (α : Type) : Type 1 := Prog PageCmd Abort α

namespace PageProg

def newPage : PageProg PageId := .call .newPage

def check (kind : GuardKind) (p : PageId) : PageProg Unit := .call (.check kind p)

def data (p : PageId) : PageProg Page := .call (.data p)

def dataMut (p : PageId) : PageProg Page := .call (.dataMut p)

def store (p : PageId) (page : Page) : PageProg Unit := .call (.store p page)

def drop (p : PageId) : PageProg Unit := .call (.drop p)

/-- A computation of the source that may panic. -/
def attempt {α : Type} (x : Except Panic α) : PageProg α := .lift (x.mapError .panic)

/-- The guards of a vector dropped, the first first. -/
def dropAll : List PageId → PageProg Unit
  | [] => pure ()
  | p :: ps => do
      drop p
      dropAll ps

end PageProg

/-- `sort_unstable_by_key(|item| item.0)`: some permutation in key order. -/
structure KeySort where
  sort : List LeafKv → List LeafKv
  perm : ∀ es, (sort es).Perm es
  sorted : ∀ es, (sort es).Pairwise fun a b => a.1 ≤ b.1

/-- The insertion sort, one such sort. -/
def KeySort.insertion : KeySort where
  sort es := es.insertionSort fun a b => a.1 ≤ b.1
  perm es := List.perm_insertionSort _ es
  sorted es := by
    have : Std.Total fun a b : LeafKv => a.1 ≤ b.1 := ⟨fun a b => le_total a.1 b.1⟩
    have : IsTrans LeafKv fun a b => a.1 ≤ b.1 := ⟨fun _ _ _ => le_trans⟩
    exact List.pairwise_insertionSort _ es

/-- The tree, without its buffer pool. -/
structure BTree where
  headerPageId : PageId
  rootPageId : PageId
  leafNodeMaxSize : ℕ
  internalNodeMaxSize : ℕ

namespace BTree

open PageProg

/-- `BTree::new`, with the maximal sizes set afterwards. -/
def new (leafNodeMaxSize internalNodeMaxSize : ℕ) : PageProg BTree := do
  let headerPageId ← newPage
  return { headerPageId, rootPageId := invalidPageId, leafNodeMaxSize, internalNodeMaxSize }

/-- The bound on the turns of a descent. -/
def maxTurns : ℕ := 2 ^ 32

/-! ### Search -/

/-- The loop of `find_leaf`. -/
def findLeafFrom (B : Build) (key : Key) : ℕ → PageId → PageProg (Option (LeafNode × PageId))
  | 0, _ => .fail .diverges
  | turns + 1, id => do
      check .read id
      let bytes ← data id
      let nodeType ← attempt (bytes.get 0)
      if nodeType = leafNode then
        let leaf ← attempt (LeafNode.decode bytes)
        drop id
        return some (leaf, id)
      else if nodeType = internalNode then
        let internal ← attempt (InternalNode.decode bytes)
        let slot ← attempt (internal.findChildIndex B key)
        let entry ← attempt (orPanic .index internal.entries[slot]?)
        drop id
        findLeafFrom B key turns entry.2
      else
        drop id
        return none

def findLeaf (B : Build) (tree : BTree) (key : Key) :
    PageProg (Option (LeafNode × PageId)) := do
  check .read tree.headerPageId
  let bytes ← data tree.headerPageId
  let root ← attempt (bytes.getU32 0)
  drop tree.headerPageId
  findLeafFrom B key maxTurns root

def find (B : Build) (tree : BTree) (key : Key) : PageProg (Option LeafKv) := do
  match ← tree.findLeaf B key with
  | some (leaf, _) => attempt (leaf.findKv key)
  | none => return none

/-- `Scan::next`, from the page the scan is at. -/
def scanNext (pageId : PageId) : PageProg (Option LeafNode × PageId) := do
  if pageId = invalidPageId then return (none, pageId)
  else
    check .read pageId
    let bytes ← data pageId
    let leaf ← attempt (LeafNode.decode bytes)
    drop pageId
    return (some leaf, leaf.nextPageId)

/-- `scan`: the page the scan starts at. -/
def scan (B : Build) (tree : BTree) (key : Key) : PageProg PageId := do
  let leaf ← tree.findLeaf B key
  let leaf ← attempt (orPanic .unwrap leaf)
  return leaf.2

/-- The leaves `next` yields until it returns `None`. -/
def scanFrom : ℕ → PageId → PageProg (List LeafNode)
  | 0, _ => .fail .diverges
  | turns + 1, pageId => do
      match ← scanNext pageId with
      | (none, _) => return []
      | (some leaf, next) => do
          let leaves ← scanFrom turns next
          return leaf :: leaves

def scanAll (B : Build) (tree : BTree) (key : Key) : PageProg (List LeafNode) := do
  let start ← tree.scan B key
  scanFrom maxTurns start

/-! ### Insertion -/

/-- Write the root page id to the header page. -/
def writeHeader (tree : BTree) : PageProg Unit := do
  check .write tree.headerPageId
  let bytes ← dataMut tree.headerPageId
  let bytes ← attempt (bytes.putU32 0 tree.rootPageId)
  store tree.headerPageId bytes
  drop tree.headerPageId

/-- The first insert creates the root leaf. -/
def insertFirst (tree : BTree) (key : Key) (rid : RecordId) : PageProg BTree := do
  let rootPageId ← newPage
  let tree := { tree with rootPageId }
  tree.writeHeader
  let leaf : LeafNode := { nextPageId := invalidPageId, entries := [(key, rid)] }
  check .write tree.rootPageId
  let bytes ← dataMut tree.rootPageId
  let bytes ← attempt (leaf.encode bytes)
  store tree.rootPageId bytes
  drop tree.rootPageId
  return tree

/-- The loop that descends from an internal node, whose guard is on top of
the path stack (a list with its top first), to a leaf. The stack is cleared
from its bottom at every node that has room. -/
def descend (B : Build) (tree : BTree) (key : Key) :
    ℕ → InternalNode → ℕ → List PageId → PageProg (List PageId)
  | 0, _, _, _ => .fail .diverges
  | turns + 1, internal, slot, pathStack => do
      let entry ← attempt (orPanic .index internal.entries[slot]?)
      let child := entry.2
      check .read child
      let bytes ← data child
      let nodeType ← attempt (bytes.get 0)
      let (internal, slot) ←
        if nodeType = internalNode then do
          let node ← attempt (InternalNode.decode bytes)
          let slot ← attempt (node.findChildIndex B key)
          pure (node, slot)
        else pure (internal, slot)
      drop child
      if nodeType = leafNode then do
        check .write child
        let bytes ← dataMut child
        let node ← attempt (LeafNode.decode bytes)
        if node.entries.length < tree.leafNodeMaxSize then do
          dropAll pathStack.reverse
          return [child]
        else return child :: pathStack
      else do
        check .write child
        let bytes ← dataMut child
        let node ← attempt (InternalNode.decode bytes)
        if node.entries.length < tree.internalNodeMaxSize then do
          dropAll pathStack.reverse
          descend B tree key turns internal slot [child]
        else descend B tree key turns internal slot (child :: pathStack)

/-- The path stack of an insert: the leaf, and above it the ancestors a split
of the leaf may reach. -/
def findPath (B : Build) (tree : BTree) (key : Key) : PageProg (List PageId) := do
  check .write tree.rootPageId
  let bytes ← dataMut tree.rootPageId
  let nodeType ← attempt (bytes.get 0)
  if nodeType = leafNode then return [tree.rootPageId]
  else if nodeType = internalNode then do
    let bytes ← data tree.rootPageId
    let internal ← attempt (InternalNode.decode bytes)
    let slot ← attempt (internal.findChildIndex B key)
    descend B tree key maxTurns internal slot [tree.rootPageId]
  else do
    drop tree.rootPageId
    return []

/-- The new root over the two halves of the old one. -/
def growRoot (tree : BTree) (intendedInsert : InternalKv) (leftPageId : PageId) :
    PageProg BTree := do
  let newRootPageId ← newPage
  check .write newRootPageId
  let bytes ← dataMut newRootPageId
  let rootNode : InternalNode :=
    { entries := [(invalidKey, leftPageId), intendedInsert] }
  let bytes ← attempt (rootNode.encode bytes)
  store newRootPageId bytes
  drop newRootPageId
  let tree := { tree with rootPageId := newRootPageId }
  tree.writeHeader
  return tree

/-- The loop that enters a separator into the ancestors of a split node. -/
def propagate (tree : BTree) : List PageId → InternalKv → PageId → PageProg BTree
  | [], intendedInsert, leftPageId => tree.growRoot intendedInsert leftPageId
  | internalPageId :: pathStack, intendedInsert, leftPageId => do
      let bytes ← dataMut internalPageId
      let node ← attempt (InternalNode.decode bytes)
      let ptrToLeftIndex ← attempt (orPanic .unwrap
        (node.entries.findIdx? fun e => e.2 = leftPageId))
      let entries := node.entries.insertIdx (ptrToLeftIndex + 1) intendedInsert
      if entries.length ≤ tree.internalNodeMaxSize then do
        let bytes ← attempt (InternalNode.encode { entries } bytes)
        store internalPageId bytes
        drop internalPageId
        dropAll pathStack.reverse
        return tree
      else do
        let mid := entries.length / 2
        let up ← attempt (orPanic .index entries[mid]?)
        let rightInternalId ← newPage
        let rightEntries := (entries.drop mid).set 0 (invalidKey, up.2)
        check .write rightInternalId
        let rightBytes ← dataMut rightInternalId
        let rightBytes ← attempt (InternalNode.encode { entries := rightEntries } rightBytes)
        store rightInternalId rightBytes
        drop rightInternalId
        let bytes ← attempt (InternalNode.encode { entries := entries.take mid } bytes)
        store internalPageId bytes
        drop internalPageId
        propagate tree pathStack (up.1, rightInternalId) internalPageId

/-- The split of an overflowing leaf, with the separator it sends up. -/
def splitLeaf (S : KeySort) (leftLeafPageId : PageId) (key : Key) (rid : RecordId) :
    PageProg InternalKv := do
  let rightLeafPageId ← newPage
  check .write leftLeafPageId
  let leftBytes ← dataMut leftLeafPageId
  let leftLeaf ← attempt (LeafNode.decode leftBytes)
  let entries := S.sort (leftLeaf.entries ++ [(key, rid)])
  let middleIndex := entries.length / 2
  let middleEntry ← attempt (orPanic .index entries[middleIndex]?)
  check .write rightLeafPageId
  let rightBytes ← dataMut rightLeafPageId
  let rightBytes ← attempt (LeafNode.encode
    { nextPageId := leftLeaf.nextPageId, entries := entries.drop middleIndex } rightBytes)
  store rightLeafPageId rightBytes
  let leftBytes ← attempt (LeafNode.encode
    { nextPageId := rightLeafPageId, entries := entries.take middleIndex } leftBytes)
  store leftLeafPageId leftBytes
  drop rightLeafPageId
  drop leftLeafPageId
  return (middleEntry.1, rightLeafPageId)

/-- The insert into the leaf on top of the path stack. -/
def insertIntoLeaf (S : KeySort) (tree : BTree) (key : Key) (rid : RecordId) :
    List PageId → PageProg BTree
  | [] => attempt (.error .unwrap)
  | leafPageId :: pathStack => do
      let bytes ← dataMut leafPageId
      let node ← attempt (LeafNode.decode bytes)
      let entries := S.sort (node.entries ++ [(key, rid)])
      if entries.length > tree.leafNodeMaxSize then do
        drop leafPageId
        let intendedInsert ← splitLeaf S leafPageId key rid
        tree.propagate pathStack intendedInsert leafPageId
      else do
        let bytes ← attempt (LeafNode.encode { node with entries } bytes)
        store leafPageId bytes
        drop leafPageId
        dropAll pathStack.reverse
        return tree

def insert (B : Build) (S : KeySort) (tree : BTree) (key : Key) (rid : RecordId) :
    PageProg BTree := do
  if tree.rootPageId = invalidPageId then tree.insertFirst key rid
  else do
    let pathStack ← tree.findPath B key
    tree.insertIntoLeaf S key rid pathStack

end BTree

end StorageEngine
