import StorageEngine.Common
import StorageEngine.Lib.LittleEndian

/-!
The nodes of the B+Tree (`b_plus_tree.rs`): their layout in a page, and the
searches within one node.

A node starts with a header of 16 bytes: its type, the number of its entries,
the default maximal size and, in a leaf, the id of the next leaf. The entries
follow, 16 bytes each in a leaf and 12 bytes each in an internal node.
-/

namespace StorageEngine

open Lib

abbrev Key := Int64

/-- `INVALID_KEY`, the least key. -/
def invalidKey : Key := Int64.minValue

instance Key.instLinearOrder : LinearOrder Int64 where
  le_refl := Int64.le_refl
  le_trans := fun _ _ _ => Int64.le_trans
  lt_iff_le_not_ge := fun a b => by
    simp only [Int64.lt_iff_toInt_lt, Int64.le_iff_toInt_le]
    omega
  le_antisymm := fun _ _ => Int64.le_antisymm
  le_total := Int64.le_total
  toDecidableLE := inferInstance
  toDecidableEq := inferInstance
  toDecidableLT := inferInstance

instance Key.instOrderBot : OrderBot Int64 where
  bot := Int64.minValue
  bot_le := Int64.minValue_le

structure RecordId where
  pageId : PageId
  slotNum : UInt32
  deriving DecidableEq, Repr

abbrev LeafKv := Key × RecordId

abbrev InternalKv := Key × PageId

structure LeafNode where
  nextPageId : PageId
  entries : List LeafKv
  deriving DecidableEq

structure InternalNode where
  entries : List InternalKv
  deriving DecidableEq

/-- `DEFAULT_LEAF_NODE_MAX_SIZE` -/
def defaultLeafNodeMaxSize : UInt32 := 511

/-- `DEFAULT_INTERNAL_NODE_MAX_SIZE` -/
def defaultInternalNodeMaxSize : UInt32 := 681

/-- `HEADER_SIZE` -/
abbrev headerSize : ℕ := 16

/-- `LEAF_NODE` -/
def leafNode : UInt8 := 1

/-- `INTERNAL_NODE` -/
def internalNode : UInt8 := 0

theorem leafNode_ne : leafNode ≠ internalNode := by decide

theorem internalNode_ne : internalNode ≠ leafNode := by decide

namespace Bytes

variable {n : ℕ}

/-- `u32::from_le_bytes(bytes[off .. off + 4].try_into().unwrap())` -/
def getU32 (b : Bytes n) (off : ℕ) : Except Panic UInt32 := do
  let s ← b.slice off 4
  return UInt32.ofNat (ofLeBytes s)

/-- `i64::from_le_bytes(bytes[off .. off + 8].try_into().unwrap())` -/
def getI64 (b : Bytes n) (off : ℕ) : Except Panic Key := do
  let s ← b.slice off 8
  return (UInt64.ofNat (ofLeBytes s)).toInt64

/-- `bytes[off .. off + 4].copy_from_slice(&x.to_le_bytes())` -/
def putU32 (b : Bytes n) (off : ℕ) (x : UInt32) : Except Panic (Bytes n) :=
  b.copyFromSlice off (leBytes 4 x.toNat)

/-- `bytes[off .. off + 8].copy_from_slice(&x.to_le_bytes())` -/
def putI64 (b : Bytes n) (off : ℕ) (x : Key) : Except Panic (Bytes n) :=
  b.copyFromSlice off (leBytes 8 x.toUInt64.toNat)

/-- The loop that reads `count` entries of a fixed width from `off` on. -/
def getEntries {α : Type} (width : ℕ) (get : Bytes n → ℕ → Except Panic α) (b : Bytes n) :
    ℕ → ℕ → Except Panic (List α)
  | 0, _ => .ok []
  | count + 1, off => do
      let entry ← get b off
      let entries ← getEntries width get b count (off + width)
      return entry :: entries

/-- The loop that writes entries of a fixed width from `off` on. -/
def putEntries {α : Type} (width : ℕ) (put : Bytes n → ℕ → α → Except Panic (Bytes n)) :
    Bytes n → ℕ → List α → Except Panic (Bytes n)
  | b, _, [] => .ok b
  | b, off, entry :: entries => do
      let b ← put b off entry
      putEntries width put b (off + width) entries

end Bytes

namespace LeafNode

variable {n : ℕ}

def getKv (b : Bytes n) (off : ℕ) : Except Panic LeafKv := do
  let key ← b.getI64 off
  let pageId ← b.getU32 (off + 8)
  let slotNum ← b.getU32 (off + 12)
  return (key, { pageId, slotNum })

def putKv (b : Bytes n) (off : ℕ) (kv : LeafKv) : Except Panic (Bytes n) := do
  let b ← b.putI64 off kv.1
  let b ← b.putU32 (off + 8) kv.2.pageId
  b.putU32 (off + 12) kv.2.slotNum

/-- `decode`, where `Vec::with_capacity` is given the memory it asks for. -/
def decode (bytes : Bytes n) : Except Panic LeafNode := do
  let currentSize ← bytes.getU32 4
  let nextPageId ← bytes.getU32 12
  let entries ← bytes.getEntries 16 getKv currentSize.toNat headerSize
  return { nextPageId, entries }

def encode (node : LeafNode) (bytes : Bytes n) : Except Panic (Bytes n) := do
  let bytes ← bytes.copyFromSlice 0 [leafNode]
  let bytes ← bytes.putU32 4 (UInt32.ofNat node.entries.length)
  let bytes ← bytes.putU32 8 defaultLeafNodeMaxSize
  let bytes ← bytes.putU32 12 node.nextPageId
  bytes.putEntries 16 putKv headerSize node.entries

/-- The loop of `find_kv`; the first argument bounds `high - low`. -/
def findKvLoop (entries : List LeafKv) (key : Key) : ℕ → ℕ → ℕ → Except Panic (Option LeafKv)
  | 0, _, _ => .ok none
  | fuel + 1, low, high =>
      if low < high then do
        let mid := low + (high - low) / 2
        let entry ← orPanic .index entries[mid]?
        if entry.1 = key then return some entry
        else if entry.1 ≤ key then findKvLoop entries key fuel (mid + 1) high
        else findKvLoop entries key fuel low mid
      else .ok none

def findKv (node : LeafNode) (key : Key) : Except Panic (Option LeafKv) :=
  findKvLoop node.entries key node.entries.length 0 node.entries.length

end LeafNode

namespace InternalNode

variable {n : ℕ}

def getKv (b : Bytes n) (off : ℕ) : Except Panic InternalKv := do
  let key ← b.getI64 off
  let pid ← b.getU32 (off + 8)
  return (key, pid)

def putKv (b : Bytes n) (off : ℕ) (kv : InternalKv) : Except Panic (Bytes n) := do
  let b ← b.putI64 off kv.1
  b.putU32 (off + 8) kv.2

/-- `decode`, where `Vec::with_capacity` is given the memory it asks for. -/
def decode (bytes : Bytes n) : Except Panic InternalNode := do
  let currentSize ← bytes.getU32 4
  let entries ← bytes.getEntries 12 getKv currentSize.toNat headerSize
  return { entries }

def encode (node : InternalNode) (bytes : Bytes n) : Except Panic (Bytes n) := do
  let bytes ← bytes.copyFromSlice 0 [internalNode]
  let bytes ← bytes.putU32 4 (UInt32.ofNat node.entries.length)
  let bytes ← bytes.putU32 8 defaultInternalNodeMaxSize
  bytes.putEntries 12 putKv headerSize node.entries

/-- The loop of `find_child_index`; the first argument bounds `high - low`. -/
def findChildIndexLoop (entries : List InternalKv) (key : Key) : ℕ → ℕ → ℕ → Except Panic ℕ
  | 0, low, _ => .ok low
  | fuel + 1, low, high =>
      if low < high then do
        let mid := low + (high - low) / 2
        let entry ← orPanic .index entries[mid]?
        if entry.1 ≤ key then findChildIndexLoop entries key fuel (mid + 1) high
        else findChildIndexLoop entries key fuel low mid
      else .ok low

def findChildIndex (B : Build) (node : InternalNode) (key : Key) : Except Panic ℕ := do
  let low ← findChildIndexLoop node.entries key node.entries.length 0 node.entries.length
  B.subUsize low 1

end InternalNode

end StorageEngine
