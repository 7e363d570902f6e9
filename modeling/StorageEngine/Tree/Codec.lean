import StorageEngine.Tree.Node

/-!
What is encoded is decoded.

An entry of a node is written to, and read from, the bytes of its own slot
alone (`EntryCodec`). From this the loops over the slots are inverse to each
other, for entries of any kind, and with the header fields the nodes are.
-/

namespace StorageEngine

open Lib

namespace Bytes

variable {n : ℕ} {b b' : Bytes n}

/-- Two byte strings agree from `off` on, for `len` bytes. -/
def AgreeOn (b b' : Bytes n) (off len : ℕ) : Prop :=
  ∀ o l, off ≤ o → o + l ≤ off + len → b'.slice o l = b.slice o l

theorem AgreeOn.trans {b'' : Bytes n} {off len : ℕ} (h : b.AgreeOn b' off len)
    (h' : b'.AgreeOn b'' off len) : b.AgreeOn b'' off len :=
  fun o l ho hl => (h' o l ho hl).trans (h o l ho hl)

theorem AgreeOn.mono {off len off' len' : ℕ} (h : b.AgreeOn b' off len) (ho : off ≤ off')
    (hl : off' + len' ≤ off + len) : b.AgreeOn b' off' len' :=
  fun o l ho' hl' => h o l (ho.trans ho') (hl'.trans hl)

theorem AgreeOn.getU32 {off len o : ℕ} (h : b.AgreeOn b' off len) (ho : off ≤ o)
    (hl : o + 4 ≤ off + len) : b'.getU32 o = b.getU32 o := by
  rw [Bytes.getU32, Bytes.getU32, h o 4 ho hl]

theorem AgreeOn.getI64 {off len o : ℕ} (h : b.AgreeOn b' off len) (ho : off ≤ o)
    (hl : o + 8 ≤ off + len) : b'.getI64 o = b.getI64 o := by
  rw [Bytes.getI64, Bytes.getI64, h o 8 ho hl]

theorem AgreeOn.get {off len o : ℕ} (h : b.AgreeOn b' off len) (ho : off ≤ o)
    (hl : o + 1 ≤ off + len) : b'.get o = b.get o := by
  rw [get_eq, get_eq, h o 1 ho hl]

theorem copyFromSlice_agreeOn {off : ℕ} {src : List UInt8}
    (h : b.copyFromSlice off src = .ok b') (off' len : ℕ)
    (hdisj : off' + len ≤ off ∨ off + src.length ≤ off') : b.AgreeOn b' off' len := by
  intro o l ho hl
  apply slice_copyFromSlice_of_disjoint h
  omega

theorem putU32_ok (b : Bytes n) (off : ℕ) (x : UInt32) (h : off + 4 ≤ n) :
    ∃ b', b.putU32 off x = .ok b' := by
  obtain ⟨b', hb', -⟩ := b.copyFromSlice_ok off (leBytes 4 x.toNat) (by simpa using h)
  exact ⟨b', hb'⟩

theorem putI64_ok (b : Bytes n) (off : ℕ) (x : Key) (h : off + 8 ≤ n) :
    ∃ b', b.putI64 off x = .ok b' := by
  obtain ⟨b', hb', -⟩ :=
    b.copyFromSlice_ok off (leBytes 8 x.toUInt64.toNat) (by simpa using h)
  exact ⟨b', hb'⟩

theorem putU32_agreeOn {off : ℕ} {x : UInt32} (h : b.putU32 off x = .ok b') (off' len : ℕ)
    (hdisj : off' + len ≤ off ∨ off + 4 ≤ off') : b.AgreeOn b' off' len :=
  copyFromSlice_agreeOn h off' len (by simpa using hdisj)

theorem putI64_agreeOn {off : ℕ} {x : Key} (h : b.putI64 off x = .ok b') (off' len : ℕ)
    (hdisj : off' + len ≤ off ∨ off + 8 ≤ off') : b.AgreeOn b' off' len :=
  copyFromSlice_agreeOn h off' len (by simpa using hdisj)

theorem getU32_putU32 {off : ℕ} {x : UInt32} (h : b.putU32 off x = .ok b') :
    b'.getU32 off = .ok x := by
  have hslice := slice_copyFromSlice_self h
  rw [length_leBytes] at hslice
  have hx : x.toNat < 256 ^ 4 := x.toNat_lt
  rw [getU32, hslice]
  show Except.ok (UInt32.ofNat (ofLeBytes (leBytes 4 x.toNat))) = .ok x
  rw [ofLeBytes_leBytes_of_lt hx, UInt32.ofNat_toNat]

theorem getI64_putI64 {off : ℕ} {x : Key} (h : b.putI64 off x = .ok b') :
    b'.getI64 off = .ok x := by
  have hslice := slice_copyFromSlice_self h
  rw [length_leBytes] at hslice
  have hx : x.toUInt64.toNat < 256 ^ 8 := x.toUInt64.toNat_lt
  rw [getI64, hslice]
  show Except.ok (UInt64.ofNat (ofLeBytes (leBytes 8 x.toUInt64.toNat))).toInt64 = .ok x
  rw [ofLeBytes_leBytes_of_lt hx, UInt64.ofNat_toNat, Int64.toInt64_toUInt64]

theorem get_copyFromSlice {off : ℕ} {x : UInt8} (h : b.copyFromSlice off [x] = .ok b') :
    b'.get off = .ok x := by
  have hslice : b'.slice off 1 = .ok [x] := slice_copyFromSlice_self h
  rw [get_eq, hslice]
  rfl

/-- Entries that are written to, and read from, slots of their own. -/
structure EntryCodec {α : Type} (n width : ℕ) (get : Bytes n → ℕ → Except Panic α)
    (put : Bytes n → ℕ → α → Except Panic (Bytes n)) : Prop where
  put_ok : ∀ b off a, off + width ≤ n → ∃ b', put b off a = .ok b'
  get_put : ∀ {b b' off a}, put b off a = .ok b' → get b' off = .ok a
  agreeOn : ∀ {b b' off a}, put b off a = .ok b' → ∀ off' len,
    off' + len ≤ off ∨ off + width ≤ off' → b.AgreeOn b' off' len
  get_congr : ∀ {b b' off}, b.AgreeOn b' off width → get b' off = get b off

section EntryCodec

variable {α : Type} {width : ℕ} {get : Bytes n → ℕ → Except Panic α}
  {put : Bytes n → ℕ → α → Except Panic (Bytes n)}

/-- The entries written are read back, and nothing before them changes. -/
theorem EntryCodec.getEntries_putEntries (hc : EntryCodec n width get put) (es : List α) :
    ∀ (b : Bytes n) (off : ℕ), off + width * es.length ≤ n →
      ∃ b', b.putEntries width put off es = .ok b' ∧
        b'.getEntries width get es.length off = .ok es ∧ b.AgreeOn b' 0 off := by
  induction es with
  | nil =>
      intro b off _
      exact ⟨b, rfl, rfl, fun _ _ _ _ => rfl⟩
  | cons e es ih =>
      intro b off hlen
      have hsplit : width * (e :: es).length = width + width * es.length := by
        rw [List.length_cons]
        ring
      obtain ⟨b₁, hput⟩ := hc.put_ok b off e (by omega)
      obtain ⟨b₂, hrest, hback, hkeep⟩ := ih b₁ (off + width) (by omega)
      have hfirst : get b₂ off = .ok e :=
        (hc.get_congr (hkeep.mono (by omega) (by omega))).trans (hc.get_put hput)
      refine ⟨b₂, ?_, ?_, ?_⟩
      · rw [putEntries, hput]
        exact hrest
      · rw [List.length_cons, getEntries, hfirst]
        show (b₂.getEntries width get es.length (off + width) >>= fun entries =>
          Except.ok (e :: entries)) = _
        rw [hback]
        rfl
      · exact (hc.agreeOn hput 0 off (by omega)).trans (hkeep.mono le_rfl (by omega))

end EntryCodec

end Bytes

namespace LeafNode

variable {n : ℕ}

theorem entryCodec (n : ℕ) : Bytes.EntryCodec n 16 getKv putKv where
  put_ok := by
    intro b off kv h
    obtain ⟨b₁, h₁⟩ := b.putI64_ok off kv.1 (by omega)
    obtain ⟨b₂, h₂⟩ := b₁.putU32_ok (off + 8) kv.2.pageId (by omega)
    obtain ⟨b₃, h₃⟩ := b₂.putU32_ok (off + 12) kv.2.slotNum (by omega)
    refine ⟨b₃, ?_⟩
    rw [putKv, h₁]
    show b₁.putU32 (off + 8) kv.2.pageId >>= _ = _
    rw [h₂]
    exact h₃
  get_put := by
    intro b b' off kv h
    obtain ⟨b₁, h₁, h⟩ := bind_eq_ok.mp h
    obtain ⟨b₂, h₂, h₃⟩ := bind_eq_ok.mp h
    have hkey : b'.getI64 off = .ok kv.1 := by
      rw [(Bytes.putU32_agreeOn h₃ off 8 (by omega)).getI64 le_rfl le_rfl,
        (Bytes.putU32_agreeOn h₂ off 8 (by omega)).getI64 le_rfl le_rfl,
        Bytes.getI64_putI64 h₁]
    have hpid : b'.getU32 (off + 8) = .ok kv.2.pageId := by
      rw [(Bytes.putU32_agreeOn h₃ (off + 8) 4 (by omega)).getU32 le_rfl le_rfl,
        Bytes.getU32_putU32 h₂]
    rw [getKv, hkey]
    show (b'.getU32 (off + 8) >>= _) = _
    rw [hpid]
    show (b'.getU32 (off + 12) >>= _) = _
    rw [Bytes.getU32_putU32 h₃]
    rfl
  agreeOn := by
    intro b b' off kv h off' len hdisj
    obtain ⟨b₁, h₁, h⟩ := bind_eq_ok.mp h
    obtain ⟨b₂, h₂, h₃⟩ := bind_eq_ok.mp h
    exact ((Bytes.putI64_agreeOn h₁ _ _ (by omega)).trans
      (Bytes.putU32_agreeOn h₂ _ _ (by omega))).trans
      (Bytes.putU32_agreeOn h₃ _ _ (by omega))
  get_congr := by
    intro b b' off h
    rw [getKv, getKv, h.getI64 le_rfl (by omega), h.getU32 (by omega) (by omega),
      h.getU32 (by omega) (by omega)]

/-- **A leaf that fits in its page is read back**, and its page is marked as
a leaf. -/
theorem encode_spec (node : LeafNode) (b : Bytes n)
    (h : headerSize + 16 * node.entries.length ≤ n) (hn : n < 4294967296) :
    ∃ b', node.encode b = .ok b' ∧ b'.get 0 = .ok leafNode ∧ decode b' = .ok node := by
  have hsize : 16 + 16 * node.entries.length ≤ n := h
  obtain ⟨b₁, h₁, -⟩ := b.copyFromSlice_ok 0 [leafNode] (by
    simp only [List.length_singleton]
    omega)
  obtain ⟨b₂, h₂⟩ := b₁.putU32_ok 4 (UInt32.ofNat node.entries.length) (by omega)
  obtain ⟨b₃, h₃⟩ := b₂.putU32_ok 8 defaultLeafNodeMaxSize (by omega)
  obtain ⟨b₄, h₄⟩ := b₃.putU32_ok 12 node.nextPageId (by omega)
  obtain ⟨b₅, h₅, hentries, hkeep⟩ :=
    (entryCodec n).getEntries_putEntries node.entries b₄ headerSize h
  have hcount : b₅.getU32 4 = .ok (UInt32.ofNat node.entries.length) := by
    rw [hkeep.getU32 (Nat.zero_le _) (by decide),
      (Bytes.putU32_agreeOn h₄ 4 4 (by omega)).getU32 le_rfl le_rfl,
      (Bytes.putU32_agreeOn h₃ 4 4 (by omega)).getU32 le_rfl le_rfl,
      Bytes.getU32_putU32 h₂]
  have hnext : b₅.getU32 12 = .ok node.nextPageId := by
    rw [hkeep.getU32 (Nat.zero_le _) (by decide), Bytes.getU32_putU32 h₄]
  have htype : b₅.get 0 = .ok leafNode := by
    rw [hkeep.get le_rfl (by decide),
      (Bytes.putU32_agreeOn h₄ 0 1 (by omega)).get le_rfl le_rfl,
      (Bytes.putU32_agreeOn h₃ 0 1 (by omega)).get le_rfl le_rfl,
      (Bytes.putU32_agreeOn h₂ 0 1 (by omega)).get le_rfl le_rfl,
      Bytes.get_copyFromSlice h₁]
  have hlen : (UInt32.ofNat node.entries.length).toNat = node.entries.length :=
    UInt32.toNat_ofNat_of_lt' (by
      show node.entries.length < 4294967296
      omega)
  refine ⟨b₅, ?_, htype, ?_⟩
  · rw [encode, h₁]
    show b₁.putU32 4 _ >>= _ = _
    rw [h₂]
    show b₂.putU32 8 _ >>= _ = _
    rw [h₃]
    show b₃.putU32 12 _ >>= _ = _
    rw [h₄]
    exact h₅
  · rw [decode, hcount]
    show b₅.getU32 12 >>= _ = _
    rw [hnext]
    show b₅.getEntries 16 getKv (UInt32.ofNat node.entries.length).toNat headerSize >>= _ = _
    rw [hlen, hentries]
    rfl

end LeafNode

namespace InternalNode

variable {n : ℕ}

theorem entryCodec (n : ℕ) : Bytes.EntryCodec n 12 getKv putKv where
  put_ok := by
    intro b off kv h
    obtain ⟨b₁, h₁⟩ := b.putI64_ok off kv.1 (by omega)
    obtain ⟨b₂, h₂⟩ := b₁.putU32_ok (off + 8) kv.2 (by omega)
    refine ⟨b₂, ?_⟩
    rw [putKv, h₁]
    exact h₂
  get_put := by
    intro b b' off kv h
    obtain ⟨b₁, h₁, h₂⟩ := bind_eq_ok.mp h
    have hkey : b'.getI64 off = .ok kv.1 := by
      rw [(Bytes.putU32_agreeOn h₂ off 8 (by omega)).getI64 le_rfl le_rfl,
        Bytes.getI64_putI64 h₁]
    rw [getKv, hkey]
    show (b'.getU32 (off + 8) >>= _) = _
    rw [Bytes.getU32_putU32 h₂]
    rfl
  agreeOn := by
    intro b b' off kv h off' len hdisj
    obtain ⟨b₁, h₁, h₂⟩ := bind_eq_ok.mp h
    exact (Bytes.putI64_agreeOn h₁ _ _ (by omega)).trans (Bytes.putU32_agreeOn h₂ _ _ (by omega))
  get_congr := by
    intro b b' off h
    rw [getKv, getKv, h.getI64 le_rfl (by omega), h.getU32 (by omega) (by omega)]

/-- **An internal node that fits in its page is read back**, and its page is
marked as one. -/
theorem encode_spec (node : InternalNode) (b : Bytes n)
    (h : headerSize + 12 * node.entries.length ≤ n) (hn : n < 4294967296) :
    ∃ b', node.encode b = .ok b' ∧ b'.get 0 = .ok internalNode ∧ decode b' = .ok node := by
  have hsize : 16 + 12 * node.entries.length ≤ n := h
  obtain ⟨b₁, h₁, -⟩ := b.copyFromSlice_ok 0 [internalNode] (by
    simp only [List.length_singleton]
    omega)
  obtain ⟨b₂, h₂⟩ := b₁.putU32_ok 4 (UInt32.ofNat node.entries.length) (by omega)
  obtain ⟨b₃, h₃⟩ := b₂.putU32_ok 8 defaultInternalNodeMaxSize (by omega)
  obtain ⟨b₄, h₄, hentries, hkeep⟩ :=
    (entryCodec n).getEntries_putEntries node.entries b₃ headerSize h
  have hcount : b₄.getU32 4 = .ok (UInt32.ofNat node.entries.length) := by
    rw [hkeep.getU32 (Nat.zero_le _) (by decide),
      (Bytes.putU32_agreeOn h₃ 4 4 (by omega)).getU32 le_rfl le_rfl,
      Bytes.getU32_putU32 h₂]
  have htype : b₄.get 0 = .ok internalNode := by
    rw [hkeep.get le_rfl (by decide),
      (Bytes.putU32_agreeOn h₃ 0 1 (by omega)).get le_rfl le_rfl,
      (Bytes.putU32_agreeOn h₂ 0 1 (by omega)).get le_rfl le_rfl,
      Bytes.get_copyFromSlice h₁]
  have hlen : (UInt32.ofNat node.entries.length).toNat = node.entries.length :=
    UInt32.toNat_ofNat_of_lt' (by
      show node.entries.length < 4294967296
      omega)
  refine ⟨b₄, ?_, htype, ?_⟩
  · rw [encode, h₁]
    show b₁.putU32 4 _ >>= _ = _
    rw [h₂]
    show b₂.putU32 8 _ >>= _ = _
    rw [h₃]
    exact h₄
  · rw [decode, hcount]
    show b₄.getEntries 12 getKv (UInt32.ofNat node.entries.length).toNat headerSize >>= _ = _
    rw [hlen, hentries]
    rfl

end InternalNode

end StorageEngine
