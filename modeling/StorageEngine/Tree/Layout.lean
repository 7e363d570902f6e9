import StorageEngine.Tree.Codec

/-!
What an encoding leaves alone.

An encoding writes the header and the slots of its entries: the rest of the
page is as before. A node that was decoded from a page is written back to the
bytes it was read from, all but the maximal size, which `encode` sets to the
default and `decode` does not read.
-/

namespace StorageEngine

open Lib

namespace Bytes

variable {n : ℕ} {b b' : Bytes n} {off : ℕ}

/-! ### What was read, written back -/

/-- The bytes of a slice copied back change nothing. -/
theorem copyFromSlice_slice {len : ℕ} {s : List UInt8} (h : b.slice off len = .ok s) :
    s.length = len ∧ b.copyFromSlice off s = .ok b := by
  rw [slice] at h
  split at h
  · next hle =>
      obtain rfl := Except.ok.inj h
      have hlen : ((b.toList.drop off).take len).length = len := by
        rw [List.length_take, List.length_drop, b.length_toList]
        omega
      obtain ⟨b', hb', hlist⟩ := b.copyFromSlice_ok off ((b.toList.drop off).take len)
        (by rw [hlen]; exact hle)
      refine ⟨hlen, hb'.trans (congrArg Except.ok (Bytes.ext ?_))⟩
      rw [hlist, hlen, ← List.drop_drop, List.take_append_drop, List.take_append_drop]
  · simp at h

theorem putU32_getU32 {x : UInt32} (h : b.getU32 off = .ok x) : b.putU32 off x = .ok b := by
  obtain ⟨s, hs, hx⟩ := bind_eq_ok.mp h
  obtain ⟨hlen, hback⟩ := copyFromSlice_slice hs
  have hlt := ofLeBytes_lt s
  rw [hlen] at hlt
  obtain rfl := Except.ok.inj hx
  rw [putU32, UInt32.toNat_ofNat_of_lt' hlt, ← hlen, leBytes_ofLeBytes, hback]

theorem putI64_getI64 {x : Key} (h : b.getI64 off = .ok x) : b.putI64 off x = .ok b := by
  obtain ⟨s, hs, hx⟩ := bind_eq_ok.mp h
  obtain ⟨hlen, hback⟩ := copyFromSlice_slice hs
  have hlt := ofLeBytes_lt s
  rw [hlen] at hlt
  obtain rfl := Except.ok.inj hx
  rw [putI64, UInt64.toUInt64_toInt64, UInt64.toNat_ofNat_of_lt' hlt, ← hlen, leBytes_ofLeBytes,
    hback]

theorem copyFromSlice_get {x : UInt8} (h : b.get off = .ok x) :
    b.copyFromSlice off [x] = .ok b := by
  rw [get_eq] at h
  obtain ⟨s, hs, hx⟩ := bind_eq_ok.mp h
  obtain ⟨hlen, hback⟩ := copyFromSlice_slice hs
  obtain ⟨y, rfl⟩ := List.length_eq_one_iff.mp hlen
  obtain rfl := Option.some.inj (orPanic_eq_ok.mp hx)
  exact hback

/-! ### Reads within the page -/

theorem getU32_ok (b : Bytes n) (off : ℕ) (h : off + 4 ≤ n) : ∃ x, b.getU32 off = .ok x :=
  ⟨_, by rw [getU32, slice, if_pos h]; rfl⟩

theorem getI64_ok (b : Bytes n) (off : ℕ) (h : off + 8 ≤ n) : ∃ x, b.getI64 off = .ok x :=
  ⟨_, by rw [getI64, slice, if_pos h]; rfl⟩

/-! ### The loops over the slots -/

section Entries

variable {α : Type} {width : ℕ} {get : Bytes n → ℕ → Except Panic α}
  {put : Bytes n → ℕ → α → Except Panic (Bytes n)}

/-- Nothing is written outside the slots. -/
theorem EntryCodec.putEntries_agreeOn (hc : EntryCodec n width get put) {es : List α} :
    ∀ {b b' : Bytes n} {off : ℕ}, b.putEntries width put off es = .ok b' → ∀ off' len,
      off' + len ≤ off ∨ off + width * es.length ≤ off' → b.AgreeOn b' off' len := by
  induction es with
  | nil =>
      intro b b' off h off' len _
      obtain rfl := Except.ok.inj h
      exact fun _ _ _ _ => rfl
  | cons e es ih =>
      intro b b' off h off' len hdisj
      obtain ⟨b₁, hput, hrest⟩ := bind_eq_ok.mp h
      have hsplit : width * (e :: es).length = width + width * es.length := by
        rw [List.length_cons]
        ring
      exact (hc.agreeOn hput off' len (by omega)).trans (ih hrest off' len (by omega))

theorem getEntries_ok (hget : ∀ b off, off + width ≤ n → ∃ a, get b off = .ok a) {b : Bytes n}
    {count : ℕ} : ∀ {off : ℕ}, off + width * count ≤ n →
      ∃ es, b.getEntries width get count off = .ok es ∧ es.length = count := by
  induction count with
  | zero => exact fun _ => ⟨[], rfl, rfl⟩
  | succ count ih =>
      intro off hle
      rw [Nat.mul_succ] at hle
      obtain ⟨a, ha⟩ := hget b off (by omega)
      obtain ⟨es, hes, hlen⟩ := ih (show off + width + width * count ≤ n by omega)
      refine ⟨a :: es, ?_, by rw [List.length_cons, hlen]⟩
      rw [getEntries, ha, ok_bind, hes]
      rfl

theorem EntryCodec.getEntries_congr (hc : EntryCodec n width get put) {b b' : Bytes n}
    {count : ℕ} : ∀ {off : ℕ}, b.AgreeOn b' off (width * count) →
      b'.getEntries width get count off = b.getEntries width get count off := by
  induction count with
  | zero => exact fun _ => rfl
  | succ count ih =>
      intro off h
      rw [Nat.mul_succ] at h
      rw [getEntries, getEntries, hc.get_congr (h.mono le_rfl (by omega)),
        ih (h.mono (by omega) (by omega))]

/-- Entries that were read, written back. -/
theorem putEntries_getEntries (hback : ∀ {b off a}, get b off = .ok a → put b off a = .ok b)
    {b : Bytes n} {count : ℕ} : ∀ {off : ℕ} {es : List α},
      b.getEntries width get count off = .ok es → b.putEntries width put off es = .ok b := by
  induction count with
  | zero =>
      intro off es h
      obtain rfl := Except.ok.inj h
      rfl
  | succ count ih =>
      intro off es h
      obtain ⟨a, ha, h⟩ := bind_eq_ok.mp h
      obtain ⟨es', hes', h⟩ := bind_eq_ok.mp h
      obtain rfl := Except.ok.inj h
      rw [putEntries, hback ha, ok_bind, ih hes']

end Entries

end Bytes

namespace LeafNode

variable {n : ℕ} {b b' : Bytes n} {node : LeafNode}

/-- The steps of an encoding. -/
theorem encode_cases (h : node.encode b = .ok b') : ∃ b₁ b₂ b₃ b₄,
    b.copyFromSlice 0 [leafNode] = .ok b₁ ∧
    b₁.putU32 4 (UInt32.ofNat node.entries.length) = .ok b₂ ∧
    b₂.putU32 8 defaultLeafNodeMaxSize = .ok b₃ ∧ b₃.putU32 12 node.nextPageId = .ok b₄ ∧
    b₄.putEntries 16 putKv headerSize node.entries = .ok b' := by
  obtain ⟨b₁, h₁, h⟩ := bind_eq_ok.mp h
  obtain ⟨b₂, h₂, h⟩ := bind_eq_ok.mp h
  obtain ⟨b₃, h₃, h⟩ := bind_eq_ok.mp h
  obtain ⟨b₄, h₄, h⟩ := bind_eq_ok.mp h
  exact ⟨b₁, b₂, b₃, b₄, h₁, h₂, h₃, h₄, h⟩

/-- Bytes past the last entry stay as they were. -/
theorem encode_get_of_le (h : node.encode b = .ok b') {i : ℕ}
    (hi : headerSize + 16 * node.entries.length ≤ i) : b'.get i = b.get i := by
  obtain ⟨b₁, b₂, b₃, b₄, h₁, h₂, h₃, h₄, h₅⟩ := encode_cases h
  have hi' : 16 ≤ i := (Nat.le_add_right _ _).trans hi
  have hkeep := ((((Bytes.copyFromSlice_agreeOn h₁ i 1 (Or.inr (by simp; omega))).trans
    (Bytes.putU32_agreeOn h₂ i 1 (by omega))).trans
    (Bytes.putU32_agreeOn h₃ i 1 (by omega))).trans
    (Bytes.putU32_agreeOn h₄ i 1 (by omega))).trans
    ((entryCodec n).putEntries_agreeOn h₅ i 1 (Or.inr hi))
  exact hkeep.get le_rfl le_rfl

theorem getKv_ok (b : Bytes n) {off : ℕ} (h : off + 16 ≤ n) : ∃ kv, getKv b off = .ok kv := by
  obtain ⟨key, hkey⟩ := b.getI64_ok off (by omega)
  obtain ⟨pid, hpid⟩ := b.getU32_ok (off + 8) (by omega)
  obtain ⟨slot, hslot⟩ := b.getU32_ok (off + 12) (by omega)
  exact ⟨(key, ⟨pid, slot⟩), by rw [getKv, hkey, ok_bind, hpid, ok_bind, hslot]; rfl⟩

theorem putKv_getKv {off : ℕ} {kv : LeafKv} (h : getKv b off = .ok kv) :
    putKv b off kv = .ok b := by
  obtain ⟨key, hkey, h⟩ := bind_eq_ok.mp h
  obtain ⟨pid, hpid, h⟩ := bind_eq_ok.mp h
  obtain ⟨slot, hslot, h⟩ := bind_eq_ok.mp h
  obtain rfl := Except.ok.inj h
  rw [putKv, Bytes.putI64_getI64 hkey, ok_bind, Bytes.putU32_getU32 hpid, ok_bind,
    Bytes.putU32_getU32 hslot]

/-- A leaf read from its page and written back changes the maximal size only. -/
theorem encode_decode {count : UInt32} (htype : b.get 0 = .ok leafNode)
    (hcount : b.getU32 4 = .ok count) (hle : headerSize + 16 * count.toNat ≤ n) :
    ∃ node, decode b = .ok node ∧ node.encode b = b.putU32 8 defaultLeafNodeMaxSize := by
  have hsize : 16 + 16 * count.toNat ≤ n := hle
  obtain ⟨next, hnext⟩ := b.getU32_ok 12 (by omega)
  obtain ⟨es, hes, hlen⟩ := Bytes.getEntries_ok (fun b _ h => getKv_ok b h) (b := b) hle
  obtain ⟨b', hb'⟩ := b.putU32_ok 8 defaultLeafNodeMaxSize (by omega)
  have hnext' : b'.getU32 12 = .ok next := by
    rw [(Bytes.putU32_agreeOn hb' 12 4 (by omega)).getU32 le_rfl le_rfl, hnext]
  have hes' : b'.getEntries 16 getKv count.toNat headerSize = .ok es := by
    rw [(entryCodec n).getEntries_congr (Bytes.putU32_agreeOn hb' _ _ (Or.inr (by decide))), hes]
  refine ⟨⟨next, es⟩, ?_, ?_⟩
  · rw [decode, hcount, ok_bind, hnext, ok_bind, hes]
    rfl
  · rw [encode, Bytes.copyFromSlice_get htype, ok_bind]
    simp only [hlen, UInt32.ofNat_toNat]
    rw [Bytes.putU32_getU32 hcount, ok_bind, hb', ok_bind, Bytes.putU32_getU32 hnext', ok_bind,
      Bytes.putEntries_getEntries putKv_getKv hes']

end LeafNode

namespace InternalNode

variable {n : ℕ} {b b' : Bytes n} {node : InternalNode}

/-- The steps of an encoding. -/
theorem encode_cases (h : node.encode b = .ok b') : ∃ b₁ b₂ b₃,
    b.copyFromSlice 0 [internalNode] = .ok b₁ ∧
    b₁.putU32 4 (UInt32.ofNat node.entries.length) = .ok b₂ ∧
    b₂.putU32 8 defaultInternalNodeMaxSize = .ok b₃ ∧
    b₃.putEntries 12 putKv headerSize node.entries = .ok b' := by
  obtain ⟨b₁, h₁, h⟩ := bind_eq_ok.mp h
  obtain ⟨b₂, h₂, h⟩ := bind_eq_ok.mp h
  obtain ⟨b₃, h₃, h⟩ := bind_eq_ok.mp h
  exact ⟨b₁, b₂, b₃, h₁, h₂, h₃, h⟩

/-- Bytes past the last entry stay as they were. -/
theorem encode_get_of_le (h : node.encode b = .ok b') {i : ℕ}
    (hi : headerSize + 12 * node.entries.length ≤ i) : b'.get i = b.get i := by
  obtain ⟨b₁, b₂, b₃, h₁, h₂, h₃, h₄⟩ := encode_cases h
  have hi' : 16 ≤ i := (Nat.le_add_right _ _).trans hi
  have hkeep := (((Bytes.copyFromSlice_agreeOn h₁ i 1 (Or.inr (by simp; omega))).trans
    (Bytes.putU32_agreeOn h₂ i 1 (by omega))).trans
    (Bytes.putU32_agreeOn h₃ i 1 (by omega))).trans
    ((entryCodec n).putEntries_agreeOn h₄ i 1 (Or.inr hi))
  exact hkeep.get le_rfl le_rfl

theorem getKv_ok (b : Bytes n) {off : ℕ} (h : off + 12 ≤ n) : ∃ kv, getKv b off = .ok kv := by
  obtain ⟨key, hkey⟩ := b.getI64_ok off (by omega)
  obtain ⟨pid, hpid⟩ := b.getU32_ok (off + 8) (by omega)
  exact ⟨(key, pid), by rw [getKv, hkey, ok_bind, hpid]; rfl⟩

theorem putKv_getKv {off : ℕ} {kv : InternalKv} (h : getKv b off = .ok kv) :
    putKv b off kv = .ok b := by
  obtain ⟨key, hkey, h⟩ := bind_eq_ok.mp h
  obtain ⟨pid, hpid, h⟩ := bind_eq_ok.mp h
  obtain rfl := Except.ok.inj h
  rw [putKv, Bytes.putI64_getI64 hkey, ok_bind, Bytes.putU32_getU32 hpid]

/-- An internal node read from its page and written back changes the maximal
size only. -/
theorem encode_decode {count : UInt32} (htype : b.get 0 = .ok internalNode)
    (hcount : b.getU32 4 = .ok count) (hle : headerSize + 12 * count.toNat ≤ n) :
    ∃ node, decode b = .ok node ∧ node.encode b = b.putU32 8 defaultInternalNodeMaxSize := by
  have hsize : 16 + 12 * count.toNat ≤ n := hle
  obtain ⟨es, hes, hlen⟩ := Bytes.getEntries_ok (fun b _ h => getKv_ok b h) (b := b) hle
  obtain ⟨b', hb'⟩ := b.putU32_ok 8 defaultInternalNodeMaxSize (by omega)
  have hes' : b'.getEntries 12 getKv count.toNat headerSize = .ok es := by
    rw [(entryCodec n).getEntries_congr (Bytes.putU32_agreeOn hb' _ _ (Or.inr (by decide))), hes]
  refine ⟨⟨es⟩, ?_, ?_⟩
  · rw [decode, hcount, ok_bind, hes]
    rfl
  · rw [encode, Bytes.copyFromSlice_get htype, ok_bind]
    simp only [hlen, UInt32.ofNat_toNat]
    rw [Bytes.putU32_getU32 hcount, ok_bind, hb', ok_bind,
      Bytes.putEntries_getEntries putKv_getKv hes']

end InternalNode

/-- **Encoding and decoding are inverse** for every node and every page. A
node with as many entries as fit is read back as it was, past its entries the
page is unchanged; a page with such a node, decoded and encoded again, changes
in its bytes 8 to 11 only. -/
theorem codecs_inverse :
    (∀ (b : Page) (node : LeafNode), node.entries.length ≤ 511 →
      ∃ b', node.encode b = .ok b' ∧ LeafNode.decode b' = .ok node ∧
        ∀ i, headerSize + 16 * node.entries.length ≤ i → b'.get i = b.get i) ∧
    (∀ (b : Page) (node : InternalNode), node.entries.length ≤ 681 →
      ∃ b', node.encode b = .ok b' ∧ InternalNode.decode b' = .ok node ∧
        ∀ i, headerSize + 12 * node.entries.length ≤ i → b'.get i = b.get i) ∧
    (∀ (b : Page) (count : UInt32), b.get 0 = .ok leafNode → b.getU32 4 = .ok count →
      count.toNat ≤ 511 → ∃ node b', LeafNode.decode b = .ok node ∧ node.encode b = .ok b' ∧
        ∀ i, i < 8 ∨ 12 ≤ i → b'.get i = b.get i) ∧
    (∀ (b : Page) (count : UInt32), b.get 0 = .ok internalNode → b.getU32 4 = .ok count →
      count.toNat ≤ 681 → ∃ node b', InternalNode.decode b = .ok node ∧ node.encode b = .ok b' ∧
        ∀ i, i < 8 ∨ 12 ≤ i → b'.get i = b.get i) := by
  refine ⟨fun b node hle => ?_, fun b node hle => ?_, fun b count htype hcount hle => ?_,
    fun b count htype hcount hle => ?_⟩
  · obtain ⟨b', hencode, -, hdecode⟩ := node.encode_spec b
      (by simp only [headerSize, pageSize]; omega) (by decide)
    exact ⟨b', hencode, hdecode, fun i hi => LeafNode.encode_get_of_le hencode hi⟩
  · obtain ⟨b', hencode, -, hdecode⟩ := node.encode_spec b
      (by simp only [headerSize, pageSize]; omega) (by decide)
    exact ⟨b', hencode, hdecode, fun i hi => InternalNode.encode_get_of_le hencode hi⟩
  · obtain ⟨node, hdecode, hencode⟩ := LeafNode.encode_decode htype hcount
      (by simp only [headerSize, pageSize]; omega)
    obtain ⟨b', hb'⟩ := b.putU32_ok 8 defaultLeafNodeMaxSize (by decide)
    exact ⟨node, b', hdecode, hencode.trans hb', fun i hi =>
      (Bytes.putU32_agreeOn hb' i 1 (by omega)).get le_rfl le_rfl⟩
  · obtain ⟨node, hdecode, hencode⟩ := InternalNode.encode_decode htype hcount
      (by simp only [headerSize, pageSize]; omega)
    obtain ⟨b', hb'⟩ := b.putU32_ok 8 defaultInternalNodeMaxSize (by decide)
    exact ⟨node, b', hdecode, hencode.trans hb', fun i hi =>
      (Bytes.putU32_agreeOn hb' i 1 (by omega)).get le_rfl le_rfl⟩

end StorageEngine
