import StorageEngine.Common

/-!
The database file, as the operating system presents it.

A file is a length, the bytes below it and a cursor. Any operation may
fail: `fault n` is the outcome of the `n`-th operation asked of the file,
`none` for a success and `some w` for a failure, of which a write has
already stored its first `w` bytes. A file whose operations all succeed is
one whose `fault` is constantly `none`.
-/

namespace StorageEngine

/-- `std::io::Error`, of which the source only asks whether its kind is
`UnexpectedEof`. -/
inductive IoError
  | unexpectedEof
  | other
  deriving DecidableEq, Repr

structure DbFile where
  len : ℕ
  byte : ℕ → UInt8
  pos : ℕ
  fault : ℕ → Option ℕ
  ops : ℕ

namespace DbFile

/-- Every operation the file is asked for succeeds. -/
def NoFaults (file : DbFile) : Prop := ∀ n, file.fault n = none

/-- Account for one more operation. -/
def tick (file : DbFile) : DbFile := { file with ops := file.ops + 1 }

/-- Store `src` at `off`; a file that was shorter is filled up with zeros. -/
def store (file : DbFile) (off : ℕ) (src : List UInt8) : DbFile :=
  { file with
    len := max file.len (off + src.length)
    byte := fun i =>
      if off ≤ i ∧ i < off + src.length then src.getD (i - off) 0
      else if i < file.len then file.byte i else 0 }

/-- The page of the file at `off`. -/
def pageAt (file : DbFile) (off : ℕ) : Page := .ofFn pageSize fun i => file.byte (off + i)

/-- `File::set_len` -/
def setLen (file : DbFile) (n : ℕ) : Except IoError Unit × DbFile :=
  match file.fault file.ops with
  | some _ => (.error .other, file.tick)
  | none => (.ok (), { file.tick with
      len := n, byte := fun i => if i < file.len then file.byte i else 0 })

/-- `file.metadata()`, of which only the length is used. -/
def metadataLen (file : DbFile) : Except IoError ℕ × DbFile :=
  match file.fault file.ops with
  | some _ => (.error .other, file.tick)
  | none => (.ok file.len, file.tick)

/-- `file.seek(SeekFrom::Start(off))` -/
def seek (file : DbFile) (off : ℕ) : Except IoError Unit × DbFile :=
  match file.fault file.ops with
  | some _ => (.error .other, file.tick)
  | none => (.ok (), { file.tick with pos := off })

/-- `file.write_all(&page_data[..PAGE_SIZE])` -/
def writeAll (file : DbFile) (pageData : Page) : Except IoError Unit × DbFile :=
  match file.fault file.ops with
  | some w => (.error .other, file.tick.store file.pos (pageData.toList.take w))
  | none => (.ok (), { file.tick.store file.pos pageData.toList with
      pos := file.pos + pageSize })

/-- `file.read_exact(&mut page_data[..PAGE_SIZE])`. At the end of the file
the buffer keeps its old bytes where the file has none. -/
def readExact (file : DbFile) (pageData : Page) : Except IoError Unit × Page × DbFile :=
  match file.fault file.ops with
  | some _ => (.error .other, pageData, file.tick)
  | none =>
      if file.pos + pageSize ≤ file.len then
        (.ok (), file.pageAt file.pos, { file.tick with pos := file.pos + pageSize })
      else
        (.error .unexpectedEof,
          .ofFn pageSize fun i =>
            if file.pos + i < file.len then file.byte (file.pos + i)
            else pageData.toList.getD i 0,
          { file.tick with pos := max file.pos file.len })

/-- `file.flush()` -/
def flush (file : DbFile) : Except IoError Unit × DbFile :=
  match file.fault file.ops with
  | some _ => (.error .other, file.tick)
  | none => (.ok (), file.tick)

/-! ### Operations that succeed -/

section NoFaults

variable {file : DbFile} (h : file.NoFaults)

include h

theorem setLen_ok (n : ℕ) : file.setLen n = (.ok (), { file with
    len := n, byte := fun i => if i < file.len then file.byte i else 0
    ops := file.ops + 1 }) := by
  simp [setLen, h file.ops, tick]

theorem metadataLen_ok :
    file.metadataLen = (.ok file.len, { file with ops := file.ops + 1 }) := by
  simp [metadataLen, h file.ops, tick]

theorem seek_ok (off : ℕ) :
    file.seek off = (.ok (), { file with pos := off, ops := file.ops + 1 }) := by
  simp [seek, h file.ops, tick]

theorem writeAll_ok (page : Page) : file.writeAll page =
    (.ok (), { file.store file.pos page.toList with
      pos := file.pos + pageSize, ops := file.ops + 1 }) := by
  rw [writeAll, h file.ops]
  rfl

theorem readExact_ok (page : Page) (hlen : file.pos + pageSize ≤ file.len) :
    file.readExact page = (.ok (), file.pageAt file.pos,
      { file with pos := file.pos + pageSize, ops := file.ops + 1 }) := by
  simp [readExact, h file.ops, hlen, tick]

theorem flush_ok : file.flush = (.ok (), { file with ops := file.ops + 1 }) := by
  simp [flush, h file.ops, tick]

end NoFaults

/-! ### Pages stored and read back -/

/-- A page just stored is read back. -/
theorem pageAt_store_self (file : DbFile) (off : ℕ) (page : Page) :
    (file.store off page.toList).pageAt off = page := by
  apply Bytes.ext
  apply List.ext_getElem (by simp [pageAt, Bytes.ofFn, page.length_toList])
  intro i h₁ h₂
  have hi : i < page.toList.length := h₂
  simp [pageAt, Bytes.ofFn, store, hi]

/-- A page stored elsewhere leaves this one alone. -/
theorem pageAt_store_ne {file : DbFile} {off off' : ℕ} (page : Page)
    (hlen : off + pageSize ≤ file.len)
    (hdisj : off + pageSize ≤ off' ∨ off' + pageSize ≤ off) :
    (file.store off' page.toList).pageAt off = file.pageAt off := by
  apply Bytes.ext
  simp only [pageAt, Bytes.ofFn]
  apply List.map_congr_left
  intro i hi
  have hi' : i < pageSize := List.mem_range.mp hi
  have hout : ¬(off' ≤ off + i ∧ off + i < off' + pageSize) := by omega
  have hin : off + i < file.len := by omega
  simp only [store, page.length_toList, hout, hin, if_false, if_true]

theorem pageAt_congr {file file' : DbFile} {off : ℕ}
    (h : ∀ i < pageSize, file'.byte (off + i) = file.byte (off + i)) :
    file'.pageAt off = file.pageAt off := by
  apply Bytes.ext
  simp only [pageAt, Bytes.ofFn]
  exact List.map_congr_left fun i hi => h i (List.mem_range.mp hi)

end DbFile

end StorageEngine
