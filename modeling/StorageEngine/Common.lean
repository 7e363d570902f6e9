import Mathlib

/-!
The shared types and constants of the crate (`common.rs`), the machine
arithmetic it is compiled to, and pages as byte strings of a fixed length.

A panic is a value: every function of the source that can panic returns
`Except Panic`, and the run it belongs to has no further state.
-/

namespace StorageEngine

/-- Why the program panics. -/
inductive Panic
  /-- `unwrap` or `expect` on `None` or on an `Err` -/
  | unwrap
  /-- a slice or vector index out of range -/
  | index
  /-- an integer operation out of range, where overflow is checked -/
  | overflow
  | divByZero
  /-- a `panic!` of the source -/
  | explicit
  deriving DecidableEq, Repr

/-- `unwrap`, `expect` and indexing of a vector, whose failure is `e`. -/
def orPanic {α : Type} (e : Panic) : Option α → Except Panic α
  | some a => .ok a
  | none => .error e

@[simp] theorem orPanic_some {α : Type} (e : Panic) (a : α) :
    orPanic e (some a) = .ok a := rfl

@[simp] theorem orPanic_none {α : Type} (e : Panic) :
    orPanic e (none : Option α) = .error e := rfl

theorem orPanic_eq_ok {α : Type} {e : Panic} {o : Option α} {a : α} :
    orPanic e o = .ok a ↔ o = some a := by
  cases o <;> simp [orPanic]

theorem bind_eq_ok {ε α β : Type} {x : Except ε α} {f : α → Except ε β} {b : β} :
    x >>= f = .ok b ↔ ∃ a, x = .ok a ∧ f a = .ok b := by
  cases x with
  | error e => simp [Bind.bind, Except.bind]
  | ok a => simp [Bind.bind, Except.bind]

theorem ok_bind {ε α β : Type} (a : α) (f : α → Except ε β) : Except.ok a >>= f = f a := rfl

/-- A computation returns one pair. -/
theorem ok_pair_unique {ε α β : Type} {x : Except ε (α × β)} {a a' : α} {b b' : β}
    (h : x = .ok (a, b)) (h' : x = .ok (a', b')) : a = a' ∧ b = b' :=
  Prod.mk.inj (Except.ok.inj (h.symm.trans h'))

theorem exists_ok_of_toOption {ε α σ : Type} {x : Except ε (α × σ)} {a : α}
    (h : x.toOption.map Prod.fst = some a) : ∃ s, x = .ok (a, s) := by
  cases x with
  | error e => simp [Except.toOption] at h
  | ok r =>
      obtain rfl : r.1 = a := by simpa [Except.toOption] using h
      exact ⟨r.2, rfl⟩

/-- The error of a computation that fails. -/
def errorOf {ε α : Type} : Except ε α → Option ε
  | .error e => some e
  | .ok _ => none

theorem errorOf_eq_some {ε α : Type} {x : Except ε α} {e : ε} :
    errorOf x = some e ↔ x = .error e := by
  cases x <;> simp [errorOf]

/-- How the crate is compiled: `cargo test` checks integer overflow,
`cargo build --release` wraps. -/
structure Build where
  overflowChecks : Bool
  deriving DecidableEq, Repr

/-- `x + y` on `u32`. -/
def Build.addU32 (B : Build) (x y : ℕ) : Except Panic ℕ :=
  if x + y < 2 ^ 32 then .ok (x + y)
  else if B.overflowChecks then .error .overflow
  else .ok ((x + y) % 2 ^ 32)

theorem Build.addU32_eq (B : Build) {x y : ℕ} (h : x + y < 2 ^ 32) :
    B.addU32 x y = .ok (x + y) :=
  if_pos h

/-- An addition only panics where overflow is checked. -/
theorem Build.addU32_ok (B : Build) {x y : ℕ}
    (h : B.overflowChecks = true → x + y < 2 ^ 32) : ∃ z, B.addU32 x y = .ok z := by
  rw [Build.addU32]
  split
  · exact ⟨_, rfl⟩
  · next hge =>
      rw [if_neg fun hB => hge (h hB)]
      exact ⟨_, rfl⟩

/-- `x - y` on `u32`. -/
def Build.subU32 (B : Build) (x y : ℕ) : Except Panic ℕ :=
  if y ≤ x then .ok (x - y)
  else if B.overflowChecks then .error .overflow
  else .ok (x + 2 ^ 32 - y)

theorem Build.subU32_eq (B : Build) {x y : ℕ} (h : y ≤ x) : B.subU32 x y = .ok (x - y) :=
  if_pos h

theorem Build.subU32_ok (B : Build) {x y : ℕ} (h : B.overflowChecks = true → y ≤ x) :
    ∃ z, B.subU32 x y = .ok z := by
  rw [Build.subU32]
  split
  · exact ⟨_, rfl⟩
  · next hlt =>
      rw [if_neg fun hB => hlt (h hB)]
      exact ⟨_, rfl⟩

/-- `x - y` on `usize`. -/
def Build.subUsize (B : Build) (x y : ℕ) : Except Panic ℕ :=
  if y ≤ x then .ok (x - y)
  else if B.overflowChecks then .error .overflow
  else .ok (x + 2 ^ 64 - y)

/-- `usize::try_into::<u32>().unwrap()` -/
def toU32 (x : ℕ) : Except Panic ℕ :=
  if x < 2 ^ 32 then .ok x else .error .unwrap

theorem toU32_eq {x : ℕ} (h : x < 2 ^ 32) : toU32 x = .ok x := if_pos h

/-- `(x / y) as u32` on `usize`. -/
def divAsU32 (x y : ℕ) : Except Panic ℕ :=
  if y = 0 then .error .divByZero else .ok (x / y % 2 ^ 32)

theorem divAsU32_eq {x y : ℕ} (h : y ≠ 0) : divAsU32 x y = .ok (x / y % 2 ^ 32) := if_neg h

abbrev PageId := UInt32

/-- A position in the pool's vector of frames. The source stores it as a
`u32`; a pool has far fewer than 2^32 frames of 8 KiB each, so the
conversion is the identity and the index is kept as it is. -/
abbrev FrameId := ℕ

/-- `PAGE_SIZE` -/
abbrev pageSize : ℕ := 8192

/-- `DB_IO_SIZE` -/
abbrev dbIoSize : ℕ := 16

/-- `INVALID_PAGE_ID` -/
def invalidPageId : PageId := 4294967295

/-- A byte slice of length `n`. -/
structure Bytes (n : ℕ) where
  toList : List UInt8
  length_toList : toList.length = n
  deriving DecidableEq

/-- The contents of a page: a vector of `PAGE_SIZE` bytes. -/
abbrev Page := Bytes pageSize

namespace Bytes

variable {n : ℕ}

@[ext] theorem ext {b c : Bytes n} (h : b.toList = c.toList) : b = c := by
  cases b; cases c; simpa using h

/-- `vec![0u8; n]` -/
def zero (n : ℕ) : Bytes n := ⟨List.replicate n 0, List.length_replicate⟩

/-- The bytes a function lists. -/
def ofFn (n : ℕ) (f : ℕ → UInt8) : Bytes n := ⟨(List.range n).map f, by simp⟩

/-- `bytes[off .. off + len]` as a value. -/
def slice (b : Bytes n) (off len : ℕ) : Except Panic (List UInt8) :=
  if off + len ≤ n then .ok ((b.toList.drop off).take len) else .error .index

/-- `bytes[off .. off + src.len()].copy_from_slice(src)` -/
def copyFromSlice (b : Bytes n) (off : ℕ) (src : List UInt8) : Except Panic (Bytes n) :=
  if h : off + src.length ≤ n then
    .ok ⟨b.toList.take off ++ (src ++ b.toList.drop (off + src.length)), by
      simp only [List.length_append, List.length_take, List.length_drop, b.length_toList]
      omega⟩
  else .error .index

/-- `bytes[i]` -/
def get (b : Bytes n) (i : ℕ) : Except Panic UInt8 := orPanic .index b.toList[i]?

theorem get_eq (b : Bytes n) (i : ℕ) :
    b.get i = b.slice i 1 >>= fun s => orPanic .index s.head? := by
  rw [get, slice]
  split
  · next hle =>
      have hi : i < b.toList.length := by
        rw [b.length_toList]
        omega
      rw [List.getElem?_eq_getElem hi, ← List.getElem_cons_drop hi]
      rfl
  · next hle =>
      have hi : b.toList.length ≤ i := by
        rw [b.length_toList]
        omega
      rw [List.getElem?_eq_none hi]
      rfl

theorem copyFromSlice_ok (b : Bytes n) (off : ℕ) (src : List UInt8)
    (h : off + src.length ≤ n) : ∃ b', b.copyFromSlice off src = .ok b' ∧
      b'.toList = b.toList.take off ++ (src ++ b.toList.drop (off + src.length)) := by
  simp [copyFromSlice, h]

theorem copyFromSlice_eq_ok {b b' : Bytes n} {off : ℕ} {src : List UInt8}
    (h : b.copyFromSlice off src = .ok b') : off + src.length ≤ n ∧
      b'.toList = b.toList.take off ++ (src ++ b.toList.drop (off + src.length)) := by
  rw [copyFromSlice] at h
  split at h
  · next hle =>
      obtain rfl := Except.ok.inj h
      exact ⟨hle, rfl⟩
  · simp at h

/-- The bytes just copied are read back. -/
theorem slice_copyFromSlice_self {b b' : Bytes n} {off : ℕ} {src : List UInt8}
    (h : b.copyFromSlice off src = .ok b') : b'.slice off src.length = .ok src := by
  obtain ⟨hle, hlist⟩ := copyFromSlice_eq_ok h
  have hlen : (b.toList.take off).length = off := by
    rw [List.length_take, b.length_toList]
    omega
  rw [slice, if_pos hle, hlist, List.drop_left' hlen, List.take_left]

/-- Bytes outside the copied range are left alone. -/
theorem slice_copyFromSlice_of_disjoint {b b' : Bytes n} {off off' len : ℕ}
    {src : List UInt8} (h : b.copyFromSlice off src = .ok b')
    (hdisj : off' + len ≤ off ∨ off + src.length ≤ off') :
    b'.slice off' len = b.slice off' len := by
  obtain ⟨hle, hlist⟩ := copyFromSlice_eq_ok h
  have hlen := b.length_toList
  rw [slice, slice]
  split
  · next hle' =>
      refine congrArg Except.ok (List.ext_getElem? fun i => ?_)
      rw [hlist]
      simp only [List.getElem?_take, List.getElem?_drop, List.getElem?_append, List.length_take,
        hlen]
      split
      · next hi =>
          rcases hdisj with hdisj | hdisj
          · have h₁ : off' + i < min off n := by omega
            have h₂ : off' + i < off := by omega
            simp only [h₁, h₂, if_true]
          · have h₁ : ¬off' + i < min off n := by omega
            have h₂ : ¬off' + i - min off n < src.length := by omega
            simp only [h₁, h₂, if_false]
            congr 1
            omega
      · rfl
  · rfl

end Bytes

end StorageEngine
