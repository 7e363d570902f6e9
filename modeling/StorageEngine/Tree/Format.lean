import StorageEngine.Tree.Layout

/-!
The page format of the nodes, as fields at fixed offsets.

A field is an offset and the bytes found there. What a sequence of writes to
fields apart from each other does is said by the fields alone: the page holds
them and is otherwise as before. An encoding is such a sequence, and a node is
decoded from the pages that hold its fields, and from no other. A decoder first
reserves memory for as many entries as the header counts, be it ever so many,
and is aborted where there is not that much.
-/

namespace StorageEngine

open Lib

namespace Bytes

variable {n : ℕ}

/-- An offset, and the bytes from there on. -/
abbrev Field := ℕ × List UInt8

/-- The bytes from the offset on are those of the field. -/
def Holds (b : Bytes n) (field : Field) : Prop :=
  ∀ i < field.2.length, b.toList[field.1 + i]? = field.2[i]?

/-- Two fields have no byte in common. -/
def Field.Apart (f g : Field) : Prop :=
  f.1 + f.2.length ≤ g.1 ∨ g.1 + g.2.length ≤ f.1

/-- A page with fields written to it: it holds them, and its other bytes are
as before. -/
structure Written (b b' : Bytes n) (fields : List Field) : Prop where
  holds : ∀ f ∈ fields, b'.Holds f
  rest : ∀ i, (∀ f ∈ fields, i < f.1 ∨ f.1 + f.2.length ≤ i) → b'.toList[i]? = b.toList[i]?

/-- The writes of an encoding, one field after the other. -/
def writeFields : Bytes n → List Field → Except Panic (Bytes n)
  | b, [] => .ok b
  | b, field :: fields => do
      let b ← b.copyFromSlice field.1 field.2
      b.writeFields fields

section Fields

variable {b b' : Bytes n} {off : ℕ}

/-! ### Reading a field -/

theorem holds_append {s t : List UInt8} :
    b.Holds (off, s ++ t) ↔ b.Holds (off, s) ∧ b.Holds (off + s.length, t) := by
  constructor
  · intro h
    constructor
    · intro i hi
      rw [h i (by rw [List.length_append]; exact Nat.lt_add_right _ hi),
        List.getElem?_append_left hi]
    · intro i hi
      have happ := h (s.length + i) (by rw [List.length_append]; exact Nat.add_lt_add_left hi _)
      rw [List.getElem?_append_right (Nat.le_add_right _ _), Nat.add_sub_cancel_left] at happ
      rw [Nat.add_assoc]
      exact happ
  · rintro ⟨hs, ht⟩ i hi
    obtain hlt | hle := Nat.lt_or_ge i s.length
    · rw [List.getElem?_append_left hlt]
      exact hs i hlt
    · have hlen : i < s.length + t.length := by
        rw [← List.length_append]
        exact hi
      have hrest := ht (i - s.length) (Nat.sub_lt_left_of_lt_add hle hlen)
      rw [List.getElem?_append_right hle, ← hrest]
      show b.toList[off + i]? = b.toList[off + s.length + (i - s.length)]?
      congr 1
      omega

/-- A field with bytes lies in the page. -/
theorem Holds.le {s : List UInt8} (h : b.Holds (off, s)) (hs : s ≠ []) :
    off + s.length ≤ n := by
  have hpos : 0 < s.length := List.length_pos_iff.mpr hs
  have hlast := h (s.length - 1) (by show s.length - 1 < s.length; omega)
  have hsome : b.toList[off + (s.length - 1)]?.isSome := by
    rw [hlast]
    simp only [isSome_getElem?]
    omega
  have hlt : off + (s.length - 1) < b.toList.length := by simpa using hsome
  rw [b.length_toList] at hlt
  omega

/-- A slice is the field it reads. -/
theorem slice_eq_ok {len : ℕ} {s : List UInt8} (hle : off + len ≤ n) :
    b.slice off len = .ok s ↔ s.length = len ∧ b.Holds (off, s) := by
  have hlen := b.length_toList
  rw [slice, if_pos hle]
  constructor
  · intro h
    obtain rfl := Except.ok.inj h
    refine ⟨by simp [hlen]; omega, fun i hi => ?_⟩
    have hlt : i < len := by
      simp only [List.length_take] at hi
      omega
    rw [List.getElem?_take_of_lt hlt, List.getElem?_drop]
  · rintro ⟨rfl, h⟩
    apply congrArg Except.ok
    apply List.ext_getElem?
    intro i
    obtain hlt | hge := Nat.lt_or_ge i s.length
    · rw [List.getElem?_take_of_lt hlt, List.getElem?_drop]
      exact h i hlt
    · rw [List.getElem?_eq_none hge, List.getElem?_eq_none]
      exact (List.length_take_le _ _).trans hge

/-- A field past the end is not read. -/
theorem slice_error {len : ℕ} (h : n < off + len) : b.slice off len = .error .index :=
  if_neg (by omega)

/-- A number is read from the bytes it is written as. -/
theorem getU32_eq_ok {x : UInt32} :
    b.getU32 off = .ok x ↔ b.Holds (off, leBytes 4 x.toNat) := by
  have hx : x.toNat < 256 ^ 4 := x.toNat_lt
  constructor
  · intro h
    obtain ⟨s, hs, hval⟩ := bind_eq_ok.mp h
    have hle : off + 4 ≤ n := by
      by_contra hlt
      simp [slice_error (Nat.lt_of_not_le hlt)] at hs
    obtain ⟨hlen, hholds⟩ := (slice_eq_ok hle).mp hs
    obtain rfl := Except.ok.inj hval
    have hlt := ofLeBytes_lt s
    rw [hlen] at hlt
    rw [UInt32.toNat_ofNat_of_lt' hlt, ← hlen, leBytes_ofLeBytes]
    exact hholds
  · intro h
    have hle := h.le (List.ne_nil_of_length_eq_add_one (length_leBytes 4 _))
    rw [length_leBytes] at hle
    rw [getU32, (slice_eq_ok hle).mpr ⟨length_leBytes 4 _, h⟩, ok_bind,
      ofLeBytes_leBytes_of_lt hx, UInt32.ofNat_toNat]
    rfl

theorem getI64_eq_ok {x : Key} :
    b.getI64 off = .ok x ↔ b.Holds (off, leBytes 8 x.toUInt64.toNat) := by
  have hx : x.toUInt64.toNat < 256 ^ 8 := x.toUInt64.toNat_lt
  constructor
  · intro h
    obtain ⟨s, hs, hval⟩ := bind_eq_ok.mp h
    have hle : off + 8 ≤ n := by
      by_contra hlt
      simp [slice_error (Nat.lt_of_not_le hlt)] at hs
    obtain ⟨hlen, hholds⟩ := (slice_eq_ok hle).mp hs
    obtain rfl := Except.ok.inj hval
    have hlt := ofLeBytes_lt s
    rw [hlen] at hlt
    rw [UInt64.toUInt64_toInt64, UInt64.toNat_ofNat_of_lt' hlt, ← hlen, leBytes_ofLeBytes]
    exact hholds
  · intro h
    have hle := h.le (List.ne_nil_of_length_eq_add_one (length_leBytes 8 _))
    rw [length_leBytes] at hle
    rw [getI64, (slice_eq_ok hle).mpr ⟨length_leBytes 8 _, h⟩, ok_bind,
      ofLeBytes_leBytes_of_lt hx, UInt64.ofNat_toNat, Int64.toInt64_toUInt64]
    rfl

theorem getU32_error (h : n < off + 4) : b.getU32 off = .error .index := by
  rw [getU32, slice_error h]
  rfl

theorem getI64_error (h : n < off + 8) : b.getI64 off = .error .index := by
  rw [getI64, slice_error h]
  rfl

/-! ### Writing a field -/

theorem copyFromSlice_error {s : List UInt8} (h : n < off + s.length) :
    b.copyFromSlice off s = .error .index :=
  dif_neg (by omega)

theorem written_of_copyFromSlice {s : List UInt8} (h : b.copyFromSlice off s = .ok b') :
    off + s.length ≤ n ∧ b.Written b' [(off, s)] := by
  obtain ⟨hle, -⟩ := copyFromSlice_eq_ok h
  have hkeep : ∀ i, i < off ∨ off + s.length ≤ i → b'.get i = b.get i := by
    intro i hi
    rw [get_eq, get_eq, slice_copyFromSlice_of_disjoint h (by omega)]
  refine ⟨hle, ?_, ?_⟩
  · intro f hf
    obtain rfl := List.mem_singleton.mp hf
    exact ((slice_eq_ok hle).mp (slice_copyFromSlice_self h)).2
  · intro i hi
    have hget := hkeep i (hi (off, s) (List.mem_singleton_self _))
    rw [get, get] at hget
    cases hb' : b'.toList[i]? with
    | none =>
        rw [hb'] at hget
        cases hb : b.toList[i]? with
        | none => rfl
        | some x => simp [hb] at hget
    | some x =>
        rw [hb'] at hget
        exact (orPanic_eq_ok.mp hget.symm).symm

/-- One write of two fields that follow each other. -/
theorem copyFromSlice_append (b : Bytes n) (off : ℕ) (s t : List UInt8) :
    (b.copyFromSlice off s >>= fun b => b.copyFromSlice (off + s.length) t) =
      b.copyFromSlice off (s ++ t) := by
  obtain hle | hgt := Nat.lt_or_ge n (off + s.length)
  · rw [copyFromSlice_error hle, copyFromSlice_error (by rw [List.length_append]; omega)]
    rfl
  · obtain ⟨b₁, h₁, hlist₁⟩ := b.copyFromSlice_ok off s hgt
    rw [h₁, ok_bind]
    obtain hlt | hfit := Nat.lt_or_ge n (off + s.length + t.length)
    · rw [copyFromSlice_error hlt, copyFromSlice_error (by rw [List.length_append]; omega)]
    · obtain ⟨b₂, h₂, hlist₂⟩ := b₁.copyFromSlice_ok (off + s.length) t hfit
      obtain ⟨b₃, h₃, hlist₃⟩ := b.copyFromSlice_ok off (s ++ t)
        (by rw [List.length_append]; omega)
      have hoff : (b.toList.take off ++ s).length = off + s.length := by
        rw [List.length_append, List.length_take, b.length_toList]
        omega
      have htail : b₁.toList.drop (off + s.length + t.length) =
          b.toList.drop (off + (s ++ t).length) := by
        rw [hlist₁, ← List.append_assoc, ← hoff, List.drop_length_add_append, List.drop_drop,
          hoff, List.length_append, Nat.add_assoc]
      have hhead : b₁.toList.take (off + s.length) = b.toList.take off ++ s := by
        rw [hlist₁, ← List.append_assoc, List.take_left' hoff]
      rw [h₂, h₃]
      apply congrArg Except.ok
      apply Bytes.ext
      rw [hlist₂, hlist₃, htail, hhead, List.append_assoc, List.append_assoc]

/-- Fields apart from each other hold after all the writes, and only they
determine the page written. -/
theorem writeFields_eq_ok {fields : List Field} (hapart : fields.Pairwise Field.Apart) :
    ∀ {b b' : Bytes n}, b.writeFields fields = .ok b' ↔
      (∀ f ∈ fields, f.1 + f.2.length ≤ n) ∧ b.Written b' fields := by
  induction fields with
  | nil =>
      intro b b'
      constructor
      · intro h
        obtain rfl := Except.ok.inj h
        exact ⟨fun f hf => absurd hf List.not_mem_nil, fun f hf => absurd hf List.not_mem_nil,
          fun i _ => rfl⟩
      · rintro ⟨-, hw⟩
        apply congrArg Except.ok
        apply Bytes.ext
        apply List.ext_getElem?
        intro i
        exact (hw.rest i fun f hf => absurd hf List.not_mem_nil).symm
  | cons field fields ih =>
      obtain ⟨hfirst, hrest⟩ := List.pairwise_cons.mp hapart
      intro b b'
      constructor
      · intro h
        obtain ⟨b₁, h₁, h⟩ := bind_eq_ok.mp h
        obtain ⟨hle, hw₁⟩ := written_of_copyFromSlice h₁
        obtain ⟨hles, hw⟩ := (ih hrest).mp h
        refine ⟨List.forall_mem_cons.mpr ⟨hle, hles⟩, List.forall_mem_cons.mpr ⟨?_, hw.holds⟩, ?_⟩
        · -- the later writes are to other bytes
          intro i hi
          rw [hw.rest]
          · exact hw₁.holds field (List.mem_singleton_self _) i hi
          · intro f hf
            have := hfirst f hf
            rw [Field.Apart] at this
            omega
        · intro i hi
          obtain ⟨hi₁, hi⟩ := List.forall_mem_cons.mp hi
          rw [hw.rest i hi]
          exact hw₁.rest i fun f hf => by
            obtain rfl := List.mem_singleton.mp hf
            exact hi₁
      · rintro ⟨hles, hw⟩
        obtain ⟨hle, hles⟩ := List.forall_mem_cons.mp hles
        obtain ⟨b₁, h₁, -⟩ := b.copyFromSlice_ok field.1 field.2 hle
        obtain ⟨-, hw₁⟩ := written_of_copyFromSlice h₁
        rw [writeFields, h₁, ok_bind, ih hrest]
        refine ⟨hles, fun f hf => hw.holds f (List.mem_cons_of_mem _ hf), fun i hi => ?_⟩
        by_cases hin : i < field.1 ∨ field.1 + field.2.length ≤ i
        · rw [hw.rest i (List.forall_mem_cons.mpr ⟨hin, hi⟩)]
          exact (hw₁.rest i fun f hf => by
            obtain rfl := List.mem_singleton.mp hf
            exact hin).symm
        · have hlo : field.1 + (i - field.1) = i := by omega
          have hnew := hw.holds field List.mem_cons_self (i - field.1) (by omega)
          have hold := hw₁.holds field (List.mem_singleton_self _) (i - field.1) (by omega)
          rw [hlo] at hnew hold
          rw [hnew, hold]

theorem bind_ok {α : Type} (x : Except Panic α) : (x >>= fun a => Except.ok a) = x := by
  cases x with
  | error e => rfl
  | ok a => rfl

theorem writeFields_error {fields : List Field} {f : Field} (hf : f ∈ fields)
    (h : n < f.1 + f.2.length) : ∀ b : Bytes n, b.writeFields fields = .error .index := by
  induction fields with
  | nil => exact absurd hf List.not_mem_nil
  | cons field fields ih =>
      intro b
      obtain hle | hgt := Nat.lt_or_ge n (field.1 + field.2.length)
      · rw [writeFields, copyFromSlice_error hle]
        rfl
      · obtain ⟨b₁, h₁, -⟩ := b.copyFromSlice_ok field.1 field.2 hgt
        have hrest : f ∈ fields := by
          obtain rfl | hrest := List.mem_cons.mp hf
          · omega
          · exact hrest
        rw [writeFields, h₁, ok_bind, ih hrest]

end Fields

/-! ### Entries -/

/-- Entries read from, and written to, their bytes. -/
structure EntryFormat {α : Type} (n width : ℕ) (get : Bytes n → ℕ → Except Panic α)
    (put : Bytes n → ℕ → α → Except Panic (Bytes n)) (bytes : α → List UInt8) : Prop where
  length : ∀ a, (bytes a).length = width
  get_eq_ok : ∀ {b off a}, get b off = .ok a ↔ b.Holds (off, bytes a)
  get_error : ∀ {b off}, n < off + width → get b off = .error .index
  put_eq : ∀ b off a, put b off a = b.copyFromSlice off (bytes a)

section EntryFormat

variable {α : Type} {width : ℕ} {get : Bytes n → ℕ → Except Panic α}
  {put : Bytes n → ℕ → α → Except Panic (Bytes n)} {bytes : α → List UInt8}

theorem EntryFormat.length_flatMap (hf : EntryFormat n width get put bytes) (es : List α) :
    (es.flatMap bytes).length = width * es.length := by
  induction es with
  | nil => rfl
  | cons e es ih =>
      rw [List.flatMap_cons, List.length_append, hf.length, ih, List.length_cons]
      ring

/-- Entries that are there fit. -/
theorem EntryFormat.fits (hf : EntryFormat n width get put bytes) {b : Bytes n} {off : ℕ}
    {es : List α} (hoff : off ≤ n) (h : b.Holds (off, es.flatMap bytes)) :
    off + width * es.length ≤ n := by
  rw [← hf.length_flatMap]
  by_cases hnil : es.flatMap bytes = []
  · rw [hnil]
    exact hoff
  · exact h.le hnil

/-- The loop writes the entries one after the other, as one field. -/
theorem EntryFormat.putEntries_eq (hf : EntryFormat n width get put bytes) (es : List α) :
    ∀ (b : Bytes n) (off : ℕ), off ≤ n →
      b.putEntries width put off es = b.copyFromSlice off (es.flatMap bytes) := by
  induction es with
  | nil =>
      intro b off hoff
      obtain ⟨b', hb', hlist⟩ := b.copyFromSlice_ok off [] (by simpa using hoff)
      obtain rfl : b' = b := by
        apply Bytes.ext
        rw [hlist]
        simp
      exact hb'.symm
  | cons e es ih =>
      intro b off hoff
      rw [List.flatMap_cons, ← copyFromSlice_append, hf.length, putEntries, hf.put_eq]
      obtain hlt | hle := Nat.lt_or_ge n (off + width)
      · rw [copyFromSlice_error (by rwa [hf.length])]
        rfl
      · obtain ⟨b₁, h₁, -⟩ := b.copyFromSlice_ok off (bytes e) (by rwa [hf.length])
        rw [h₁, ok_bind, ok_bind]
        exact ih b₁ (off + width) hle

/-- The loop reads the entries whose bytes are there. -/
theorem EntryFormat.getEntries_eq_ok (hf : EntryFormat n width get put bytes) {b : Bytes n}
    {count : ℕ} : ∀ {off : ℕ} {es : List α}, b.getEntries width get count off = .ok es ↔
      es.length = count ∧ b.Holds (off, es.flatMap bytes) := by
  induction count with
  | zero =>
      intro off es
      constructor
      · intro h
        obtain rfl := Except.ok.inj h
        exact ⟨rfl, fun i hi => absurd hi (Nat.not_lt_zero i)⟩
      · rintro ⟨hlen, -⟩
        obtain rfl := List.length_eq_zero_iff.mp hlen
        rfl
  | succ count ih =>
      intro off es
      constructor
      · intro h
        obtain ⟨a, ha, h⟩ := bind_eq_ok.mp h
        obtain ⟨es', hes', h⟩ := bind_eq_ok.mp h
        obtain rfl := Except.ok.inj h
        obtain ⟨hlen, hrest⟩ := ih.mp hes'
        refine ⟨by rw [List.length_cons, hlen], ?_⟩
        rw [List.flatMap_cons, holds_append, hf.length]
        exact ⟨hf.get_eq_ok.mp ha, hrest⟩
      · rintro ⟨hlen, hholds⟩
        obtain ⟨e, es', rfl⟩ := List.exists_cons_of_length_eq_add_one hlen
        rw [List.flatMap_cons, holds_append, hf.length] at hholds
        have hrest := ih.mpr ⟨Nat.succ.inj hlen, hholds.2⟩
        rw [getEntries, hf.get_eq_ok.mpr hholds.1, ok_bind, hrest]
        rfl

/-- The entries a header counts. -/
theorem EntryFormat.getEntries_counted (hf : EntryFormat n width get put bytes) {b : Bytes n}
    {count : UInt32} {es : List α} (hlt : es.length < 2 ^ 32) :
    b.getU32 4 = .ok count ∧ b.getEntries width get count.toNat headerSize = .ok es ↔
      count = UInt32.ofNat es.length ∧ b.Holds (4, leBytes 4 es.length) ∧
        b.Holds (headerSize, es.flatMap bytes) := by
  have hlen : (UInt32.ofNat es.length).toNat = es.length := UInt32.toNat_ofNat_of_lt' hlt
  rw [getU32_eq_ok, hf.getEntries_eq_ok]
  constructor
  · rintro ⟨hcount, heq, hholds⟩
    rw [← heq] at hcount
    exact ⟨by rw [heq, UInt32.ofNat_toNat], hcount, hholds⟩
  · rintro ⟨rfl, hcount, hholds⟩
    rw [hlen]
    exact ⟨hcount, rfl, hholds⟩

/-- Entries beyond the page are not read. -/
theorem EntryFormat.getEntries_error (hf : EntryFormat n width get put bytes)
    (hget : ∀ b off, off + width ≤ n → ∃ a, get b off = .ok a) {b : Bytes n} {count : ℕ} :
    ∀ {off : ℕ}, off ≤ n → n < off + width * count →
      b.getEntries width get count off = .error .index := by
  induction count with
  | zero =>
      intro off hoff hlt
      omega
  | succ count ih =>
      intro off hoff hlt
      rw [Nat.mul_succ] at hlt
      obtain hpast | hle := Nat.lt_or_ge n (off + width)
      · rw [getEntries, hf.get_error hpast]
        rfl
      · obtain ⟨a, ha⟩ := hget b off hle
        rw [getEntries, ha, ok_bind, ih hle (by omega)]
        rfl

end EntryFormat

/-- How a decoder can end without a node. -/
inductive DecodeFailure
  | panic (e : Panic)
  /-- `Vec::with_capacity` is not given the memory it asks for -/
  | abort
  deriving DecidableEq, Repr

/-- A codec of nodes with a format: a node is written where its entries fit,
and then the page holds the layout of the node and is otherwise as before; a
node is read where the number of entries in the header fits, and it is the one
whose fields the page holds. Reading depends on whether there is room to
reserve for as many entries as the header says. -/
structure Format {N : Type} (encode : N → Page → Except Panic Page)
    (decode : (ℕ → Bool) → Page → Except DecodeFailure N) (capacity : ℕ) (size : N → ℕ)
    (layout fields : N → List Field) : Prop where
  encode_eq_ok : ∀ node b b', encode node b = .ok b' ↔
    size node ≤ capacity ∧ b.Written b' (layout node)
  encode_error : ∀ node b, capacity < size node → encode node b = .error .index
  decode_eq_ok : ∀ reserves b node, decode reserves b = .ok node ↔
    size node ≤ capacity ∧ reserves (size node) ∧ ∀ f ∈ fields node, b.Holds f
  accepts : ∀ reserves b count, b.getU32 4 = .ok count → count.toNat ≤ capacity →
    reserves count.toNat → ∃ node, decode reserves b = .ok node ∧ size node = count.toNat
  rejects : ∀ reserves b count, b.getU32 4 = .ok count → capacity < count.toNat →
    reserves count.toNat → decode reserves b = .error (.panic .index)
  aborts : ∀ reserves b count, b.getU32 4 = .ok count → ¬reserves count.toNat →
    decode reserves b = .error .abort

/-- A decoder that may be aborted, from one that is not. -/
theorem Format.of_decode {N : Type} {encode : N → Page → Except Panic Page}
    {decode : Page → Except Panic N} {decodeIn : (ℕ → Bool) → Page → Except DecodeFailure N}
    {capacity : ℕ} {size : N → ℕ} {layout fields : N → List Field}
    (hin : ∀ reserves b count, b.getU32 4 = .ok count → decodeIn reserves b =
      if reserves count.toNat then (decode b).mapError .panic else .error .abort)
    (hencode : ∀ node b b', encode node b = .ok b' ↔
      size node ≤ capacity ∧ b.Written b' (layout node))
    (herror : ∀ node b, capacity < size node → encode node b = .error .index)
    (hdecode : ∀ b node, decode b = .ok node ↔
      size node ≤ capacity ∧ ∀ f ∈ fields node, b.Holds f)
    (haccepts : ∀ b count, b.getU32 4 = .ok count → count.toNat ≤ capacity →
      ∃ node, decode b = .ok node ∧ size node = count.toNat)
    (hrejects : ∀ b count, b.getU32 4 = .ok count → capacity < count.toNat →
      decode b = .error .index) :
    Format encode decodeIn capacity size layout fields where
  encode_eq_ok := hencode
  encode_error := herror
  decode_eq_ok := by
    intro reserves b node
    obtain ⟨count, hcount⟩ := b.getU32_ok 4 (by decide)
    -- the header of a page that is decoded counts the entries of the node
    have hsize : decode b = .ok node → size node = count.toNat := by
      intro hnode
      obtain hlt | hle := Nat.lt_or_ge capacity count.toNat
      · simp [hrejects b count hcount hlt] at hnode
      · obtain ⟨node', hnode', hsize⟩ := haccepts b count hcount hle
        obtain rfl := Except.ok.inj (hnode.symm.trans hnode')
        exact hsize
    have hok : (decode b).mapError DecodeFailure.panic = .ok node ↔ decode b = .ok node := by
      cases decode b <;> simp [Except.mapError]
    rw [hin reserves b count hcount, and_left_comm, ← hdecode]
    constructor
    · intro h
      split at h
      · next hreserves =>
          have hnode := hok.mp h
          exact ⟨by rwa [hsize hnode], hnode⟩
      · simp at h
    · rintro ⟨hreserves, hnode⟩
      rw [hsize hnode] at hreserves
      rw [if_pos hreserves]
      exact hok.mpr hnode
  accepts := by
    intro reserves b count hcount hle hreserves
    obtain ⟨node, hnode, hsize⟩ := haccepts b count hcount hle
    exact ⟨node, by rw [hin reserves b count hcount, if_pos hreserves, hnode]; rfl, hsize⟩
  rejects := by
    intro reserves b count hcount hlt hreserves
    rw [hin reserves b count hcount, if_pos hreserves, hrejects b count hcount hlt]
    rfl
  aborts := by
    intro reserves b count hcount hreserves
    rw [hin reserves b count hcount, if_neg hreserves]

end Bytes

/-- A number wrapped to the width of a field has the bytes of the number. -/
theorem leBytes_mod (width : ℕ) : ∀ x, leBytes width (x % 256 ^ width) = leBytes width x := by
  induction width with
  | zero => exact fun _ => rfl
  | succ width ih =>
      intro x
      have hlow : UInt8.ofNat (x % 256 ^ (width + 1)) = UInt8.ofNat x := by
        apply UInt8.toNat_inj.mp
        rw [UInt8.toNat_ofNat', UInt8.toNat_ofNat', Nat.pow_succ']
        exact Nat.mod_mul_right_mod x 256 (256 ^ width)
      rw [leBytes, leBytes, hlow, Nat.pow_succ', Nat.mod_mul_right_div_self, ih]

theorem leBytes_ofNat (x : ℕ) : leBytes 4 (UInt32.ofNat x).toNat = leBytes 4 x := by
  rw [UInt32.toNat_ofNat']
  exact leBytes_mod 4 x

namespace LeafNode

variable {n : ℕ}

/-- The 16 bytes of an entry. -/
def kvBytes (kv : LeafKv) : List UInt8 :=
  leBytes 8 kv.1.toUInt64.toNat ++ (leBytes 4 kv.2.pageId.toNat ++ leBytes 4 kv.2.slotNum.toNat)

/-- The fields of a leaf in its page. -/
def layout (node : LeafNode) : List Bytes.Field :=
  [(0, [leafNode]), (4, leBytes 4 node.entries.length),
    (8, leBytes 4 defaultLeafNodeMaxSize.toNat), (12, leBytes 4 node.nextPageId.toNat),
    (headerSize, node.entries.flatMap kvBytes)]

/-- The fields a leaf is decoded from. -/
def fields (node : LeafNode) : List Bytes.Field :=
  [(4, leBytes 4 node.entries.length),
    (12, leBytes 4 node.nextPageId.toNat), (headerSize, node.entries.flatMap kvBytes)]

theorem getKv_eq_ok {b : Bytes n} {off : ℕ} {kv : LeafKv} :
    getKv b off = .ok kv ↔ b.Holds (off, kvBytes kv) := by
  obtain ⟨key, pid, slot⟩ := kv
  rw [kvBytes, Bytes.holds_append, Bytes.holds_append, length_leBytes, length_leBytes,
    ← Bytes.getI64_eq_ok, ← Bytes.getU32_eq_ok, ← Bytes.getU32_eq_ok]
  constructor
  · intro h
    obtain ⟨key', hkey, h⟩ := bind_eq_ok.mp h
    obtain ⟨pid', hpid, h⟩ := bind_eq_ok.mp h
    obtain ⟨slot', hslot, h⟩ := bind_eq_ok.mp h
    obtain ⟨rfl, hrid⟩ := Prod.mk.inj (Except.ok.inj h)
    obtain ⟨rfl, rfl⟩ := RecordId.mk.inj hrid
    exact ⟨hkey, hpid, hslot⟩
  · rintro ⟨hkey, hpid, hslot⟩
    rw [getKv, hkey, ok_bind, hpid, ok_bind, hslot]
    rfl

theorem getKv_error {b : Bytes n} {off : ℕ} (h : n < off + 16) :
    getKv b off = .error .index := by
  rw [getKv]
  obtain hkey | hle := Nat.lt_or_ge n (off + 8)
  · rw [Bytes.getI64_error hkey]
    rfl
  · obtain ⟨key, hkey⟩ := b.getI64_ok off hle
    rw [hkey, ok_bind]
    obtain hpid | hle := Nat.lt_or_ge n (off + 8 + 4)
    · rw [Bytes.getU32_error hpid]
      rfl
    · obtain ⟨pid, hpid⟩ := b.getU32_ok (off + 8) hle
      rw [hpid, ok_bind, Bytes.getU32_error (show n < off + 12 + 4 by omega)]
      rfl

theorem entryFormat (n : ℕ) : Bytes.EntryFormat n 16 getKv putKv kvBytes where
  length := by simp [kvBytes]
  get_eq_ok := getKv_eq_ok
  get_error := getKv_error
  put_eq := by
    intro b off kv
    rw [kvBytes, ← Bytes.copyFromSlice_append]
    simp only [← Bytes.copyFromSlice_append, length_leBytes]
    rfl

/-- An encoding writes the fields of the node one after the other. -/
theorem encode_eq (node : LeafNode) (b : Bytes n) (hn : headerSize ≤ n) :
    node.encode b = b.writeFields node.layout := by
  simp only [encode, layout, Bytes.writeFields, (entryFormat n).putEntries_eq _ _ _ hn,
    Bytes.putU32, Bytes.bind_ok, leBytes_ofNat]

theorem layout_apart (node : LeafNode) : node.layout.Pairwise Bytes.Field.Apart := by
  simp [layout, Bytes.Field.Apart, headerSize]

/-- The layout fits in a page with as many entries as the maximal size says. -/
theorem layout_fits {node : LeafNode} :
    (∀ f ∈ node.layout, f.1 + f.2.length ≤ pageSize) ↔ node.entries.length ≤ 511 := by
  simp only [layout, List.forall_mem_cons, List.not_mem_nil, IsEmpty.forall_iff, implies_true,
    List.length_singleton, length_leBytes, (entryFormat pageSize).length_flatMap, pageSize,
    headerSize, and_true]
  omega

/-- A leaf is decoded from the pages that hold its fields. -/
theorem decode_eq_ok {b : Page} {node : LeafNode} : decode b = .ok node ↔
    node.entries.length ≤ 511 ∧ ∀ f ∈ node.fields, b.Holds f := by
  simp only [fields, List.forall_mem_cons]
  constructor
  · intro h
    obtain ⟨count, hcount, h⟩ := bind_eq_ok.mp h
    obtain ⟨next, hnext, h⟩ := bind_eq_ok.mp h
    obtain ⟨es, hes, h⟩ := bind_eq_ok.mp h
    obtain rfl := Except.ok.inj h
    obtain ⟨hlen, hholds⟩ := (entryFormat pageSize).getEntries_eq_ok.mp hes
    have hfits := (entryFormat pageSize).fits (by decide) hholds
    simp only [headerSize, pageSize] at hfits
    obtain ⟨-, hsize, -⟩ := ((entryFormat pageSize).getEntries_counted
      (by omega)).mp ⟨hcount, hes⟩
    exact ⟨show es.length ≤ 511 by omega, hsize, Bytes.getU32_eq_ok.mp hnext, hholds,
      fun f hf => absurd hf List.not_mem_nil⟩
  · rintro ⟨hle, hsize, hnext, hholds, -⟩
    obtain ⟨hcount, hes⟩ := ((entryFormat pageSize).getEntries_counted
      (by omega)).mpr ⟨rfl, hsize, hholds⟩
    rw [decode, hcount, ok_bind, Bytes.getU32_eq_ok.mpr hnext, ok_bind, hes]
    rfl

theorem decode_accepts {b : Page} {count : UInt32} (hcount : b.getU32 4 = .ok count)
    (hle : count.toNat ≤ 511) :
    ∃ node, decode b = .ok node ∧ node.entries.length = count.toNat := by
  have hfits : headerSize + 16 * count.toNat ≤ pageSize := by
    simp only [headerSize, pageSize]
    omega
  obtain ⟨next, hnext⟩ := b.getU32_ok 12 (by decide)
  obtain ⟨es, hes, hlen⟩ := Bytes.getEntries_ok (fun b _ h => getKv_ok b h) (b := b) hfits
  refine ⟨⟨next, es⟩, ?_, hlen⟩
  rw [decode, hcount, ok_bind, hnext, ok_bind, hes]
  rfl

theorem decode_rejects {b : Page} {count : UInt32} (hcount : b.getU32 4 = .ok count)
    (hlt : 511 < count.toNat) : decode b = .error .index := by
  have hpast : pageSize < headerSize + 16 * count.toNat := by
    simp only [headerSize, pageSize]
    omega
  obtain ⟨next, hnext⟩ := b.getU32_ok 12 (by decide)
  rw [decode, hcount, ok_bind, hnext, ok_bind,
    (entryFormat pageSize).getEntries_error (fun b _ h => getKv_ok b h) (by decide) hpast]
  rfl

/-- `decode`, where the memory that can be reserved is limited. -/
def decodeIn (reserves : ℕ → Bool) (bytes : Bytes n) : Except Bytes.DecodeFailure LeafNode := do
  let currentSize ← (bytes.getU32 4).mapError .panic
  let nextPageId ← (bytes.getU32 12).mapError .panic
  if reserves currentSize.toNat then
    let entries ← (bytes.getEntries 16 getKv currentSize.toNat headerSize).mapError .panic
    return { nextPageId, entries }
  else .error .abort

theorem decodeIn_eq (reserves : ℕ → Bool) (b : Page) {count : UInt32}
    (hcount : b.getU32 4 = .ok count) : decodeIn reserves b =
      if reserves count.toNat then (decode b).mapError .panic else .error .abort := by
  obtain ⟨next, hnext⟩ := b.getU32_ok 12 (by decide)
  simp only [decodeIn, decode, hcount, hnext, Except.mapError, ok_bind]
  split
  · cases b.getEntries 16 getKv count.toNat headerSize with
    | error e => rfl
    | ok es => rfl
  · rfl

theorem encode_eq_ok {b b' : Page} {node : LeafNode} : node.encode b = .ok b' ↔
    node.entries.length ≤ 511 ∧ b.Written b' node.layout := by
  rw [encode_eq _ _ (by decide), Bytes.writeFields_eq_ok node.layout_apart, layout_fits]

theorem encode_error {b : Page} {node : LeafNode} (hlt : 511 < node.entries.length) :
    node.encode b = .error .index := by
  rw [encode_eq _ _ (by decide)]
  apply Bytes.writeFields_error (f := (headerSize, node.entries.flatMap kvBytes))
  · simp [layout]
  · rw [(entryFormat pageSize).length_flatMap]
    simp only [pageSize, headerSize]
    omega

end LeafNode

namespace InternalNode

variable {n : ℕ}

/-- The 12 bytes of an entry. -/
def kvBytes (kv : InternalKv) : List UInt8 :=
  leBytes 8 kv.1.toUInt64.toNat ++ leBytes 4 kv.2.toNat

/-- The fields of an internal node in its page, bytes 12 to 15 of which are
not its own. -/
def layout (node : InternalNode) : List Bytes.Field :=
  [(0, [internalNode]), (4, leBytes 4 node.entries.length),
    (8, leBytes 4 defaultInternalNodeMaxSize.toNat),
    (headerSize, node.entries.flatMap kvBytes)]

/-- The fields an internal node is decoded from. -/
def fields (node : InternalNode) : List Bytes.Field :=
  [(4, leBytes 4 node.entries.length),
    (headerSize, node.entries.flatMap kvBytes)]

theorem getKv_eq_ok {b : Bytes n} {off : ℕ} {kv : InternalKv} :
    getKv b off = .ok kv ↔ b.Holds (off, kvBytes kv) := by
  obtain ⟨key, pid⟩ := kv
  rw [kvBytes, Bytes.holds_append, length_leBytes, ← Bytes.getI64_eq_ok, ← Bytes.getU32_eq_ok]
  constructor
  · intro h
    obtain ⟨key', hkey, h⟩ := bind_eq_ok.mp h
    obtain ⟨pid', hpid, h⟩ := bind_eq_ok.mp h
    obtain ⟨rfl, rfl⟩ := Prod.mk.inj (Except.ok.inj h)
    exact ⟨hkey, hpid⟩
  · rintro ⟨hkey, hpid⟩
    rw [getKv, hkey, ok_bind, hpid]
    rfl

theorem getKv_error {b : Bytes n} {off : ℕ} (h : n < off + 12) :
    getKv b off = .error .index := by
  rw [getKv]
  obtain hkey | hle := Nat.lt_or_ge n (off + 8)
  · rw [Bytes.getI64_error hkey]
    rfl
  · obtain ⟨key, hkey⟩ := b.getI64_ok off hle
    rw [hkey, ok_bind, Bytes.getU32_error (show n < off + 8 + 4 by omega)]
    rfl

theorem entryFormat (n : ℕ) : Bytes.EntryFormat n 12 getKv putKv kvBytes where
  length := by simp [kvBytes]
  get_eq_ok := getKv_eq_ok
  get_error := getKv_error
  put_eq := by
    intro b off kv
    rw [kvBytes, ← Bytes.copyFromSlice_append, length_leBytes]
    rfl

/-- An encoding writes the fields of the node one after the other. -/
theorem encode_eq (node : InternalNode) (b : Bytes n) (hn : headerSize ≤ n) :
    node.encode b = b.writeFields node.layout := by
  simp only [encode, layout, Bytes.writeFields, (entryFormat n).putEntries_eq _ _ _ hn,
    Bytes.putU32, Bytes.bind_ok, leBytes_ofNat]

theorem layout_apart (node : InternalNode) : node.layout.Pairwise Bytes.Field.Apart := by
  simp [layout, Bytes.Field.Apart, headerSize]

theorem layout_fits {node : InternalNode} :
    (∀ f ∈ node.layout, f.1 + f.2.length ≤ pageSize) ↔ node.entries.length ≤ 681 := by
  simp only [layout, List.forall_mem_cons, List.not_mem_nil, IsEmpty.forall_iff, implies_true,
    List.length_singleton, length_leBytes, (entryFormat pageSize).length_flatMap, pageSize,
    headerSize, and_true]
  omega

/-- An internal node is decoded from the pages that hold its fields. -/
theorem decode_eq_ok {b : Page} {node : InternalNode} : decode b = .ok node ↔
    node.entries.length ≤ 681 ∧ ∀ f ∈ node.fields, b.Holds f := by
  simp only [fields, List.forall_mem_cons]
  constructor
  · intro h
    obtain ⟨count, hcount, h⟩ := bind_eq_ok.mp h
    obtain ⟨es, hes, h⟩ := bind_eq_ok.mp h
    obtain rfl := Except.ok.inj h
    obtain ⟨hlen, hholds⟩ := (entryFormat pageSize).getEntries_eq_ok.mp hes
    have hfits := (entryFormat pageSize).fits (by decide) hholds
    simp only [headerSize, pageSize] at hfits
    obtain ⟨-, hsize, -⟩ := ((entryFormat pageSize).getEntries_counted
      (by omega)).mp ⟨hcount, hes⟩
    exact ⟨show es.length ≤ 681 by omega, hsize, hholds, fun f hf => absurd hf List.not_mem_nil⟩
  · rintro ⟨hle, hsize, hholds, -⟩
    obtain ⟨hcount, hes⟩ := ((entryFormat pageSize).getEntries_counted
      (by omega)).mpr ⟨rfl, hsize, hholds⟩
    rw [decode, hcount, ok_bind, hes]
    rfl

theorem decode_accepts {b : Page} {count : UInt32} (hcount : b.getU32 4 = .ok count)
    (hle : count.toNat ≤ 681) :
    ∃ node, decode b = .ok node ∧ node.entries.length = count.toNat := by
  have hfits : headerSize + 12 * count.toNat ≤ pageSize := by
    simp only [headerSize, pageSize]
    omega
  obtain ⟨es, hes, hlen⟩ := Bytes.getEntries_ok (fun b _ h => getKv_ok b h) (b := b) hfits
  refine ⟨⟨es⟩, ?_, hlen⟩
  rw [decode, hcount, ok_bind, hes]
  rfl

theorem decode_rejects {b : Page} {count : UInt32} (hcount : b.getU32 4 = .ok count)
    (hlt : 681 < count.toNat) : decode b = .error .index := by
  have hpast : pageSize < headerSize + 12 * count.toNat := by
    simp only [headerSize, pageSize]
    omega
  rw [decode, hcount, ok_bind,
    (entryFormat pageSize).getEntries_error (fun b _ h => getKv_ok b h) (by decide) hpast]
  rfl

/-- `decode`, where the memory that can be reserved is limited. -/
def decodeIn (reserves : ℕ → Bool) (bytes : Bytes n) :
    Except Bytes.DecodeFailure InternalNode := do
  let currentSize ← (bytes.getU32 4).mapError .panic
  if reserves currentSize.toNat then
    let entries ← (bytes.getEntries 12 getKv currentSize.toNat headerSize).mapError .panic
    return { entries }
  else .error .abort

theorem decodeIn_eq (reserves : ℕ → Bool) (b : Page) {count : UInt32}
    (hcount : b.getU32 4 = .ok count) : decodeIn reserves b =
      if reserves count.toNat then (decode b).mapError .panic else .error .abort := by
  simp only [decodeIn, decode, hcount, Except.mapError, ok_bind]
  split
  · cases b.getEntries 12 getKv count.toNat headerSize with
    | error e => rfl
    | ok es => rfl
  · rfl

theorem encode_eq_ok {b b' : Page} {node : InternalNode} : node.encode b = .ok b' ↔
    node.entries.length ≤ 681 ∧ b.Written b' node.layout := by
  rw [encode_eq _ _ (by decide), Bytes.writeFields_eq_ok node.layout_apart, layout_fits]

theorem encode_error {b : Page} {node : InternalNode} (hlt : 681 < node.entries.length) :
    node.encode b = .error .index := by
  rw [encode_eq _ _ (by decide)]
  apply Bytes.writeFields_error (f := (headerSize, node.entries.flatMap kvBytes))
  · simp [layout]
  · rw [(entryFormat pageSize).length_flatMap]
    simp only [pageSize, headerSize]
    omega

end InternalNode

/-- **The page format, exactly**: which nodes are encoded and which pages
decoded, to what. Every other attempt panics on an index, unless the decoder is
aborted when it reserves memory. -/
theorem codecs_format :
    Bytes.Format (LeafNode.encode (n := pageSize)) LeafNode.decodeIn 511
      (fun node => node.entries.length) LeafNode.layout LeafNode.fields ∧
    Bytes.Format (InternalNode.encode (n := pageSize)) InternalNode.decodeIn 681
      (fun node => node.entries.length) InternalNode.layout InternalNode.fields := by
  constructor
  · exact .of_decode (fun reserves b _ => LeafNode.decodeIn_eq reserves b)
      (fun _ _ _ => LeafNode.encode_eq_ok) (fun _ _ => LeafNode.encode_error)
      (fun _ _ => LeafNode.decode_eq_ok) (fun _ _ => LeafNode.decode_accepts)
      (fun _ _ => LeafNode.decode_rejects)
  · exact .of_decode (fun reserves b _ => InternalNode.decodeIn_eq reserves b)
      (fun _ _ _ => InternalNode.encode_eq_ok) (fun _ _ => InternalNode.encode_error)
      (fun _ _ => InternalNode.decode_eq_ok) (fun _ _ => InternalNode.decode_accepts)
      (fun _ _ => InternalNode.decode_rejects)

end StorageEngine
