import StorageEngine.Lib.Runs
import StorageEngine.Pool.Effects

/-!
Sessions: a pool with the guards its callers hold, and the calls they make.

Guards are dropped in any order, and several may be live on one frame. A
call on a guard that is not held is no call of the program, and a call that
panics has no state after it; in both cases the step has no value.
-/

namespace StorageEngine

open Lib

inductive PoolCall
  | newPage
  | checkPage (kind : GuardKind) (pageId : PageId)
  /-- bytes stored through `data_mut()` -/
  | write (guard : Guard) (data : Page)
  | flushGuard (guard : Guard)
  | dropGuard (guard : Guard)
  | flushPage (pageId : PageId)
  | flushAllPages
  | deletePage (pageId : PageId)

/-- A pool and its live guards. -/
structure Session where
  pool : BufferPoolManager
  guards : List Guard

namespace Session

/-- A session on a new pool. -/
def new (numFrames : ℕ) (diskManager : DiskManager) : Session where
  pool := .new numFrames diskManager
  guards := []

def step (B : Build) (order : HashOrder) : PoolCall → Session → Option Session
  | .newPage, s => do
      let (_, pool) ← s.pool.newPage.toOption
      return { s with pool }
  | .checkPage kind pageId, s => do
      let (guard, pool) ← (s.pool.checkPage B order kind pageId).toOption
      return { pool, guards := guard :: s.guards }
  | .write guard data, s =>
      if guard ∈ s.guards ∧ guard.kind = .write then
        some { s with pool := (s.pool.dataMut guard).store guard data }
      else none
  | .flushGuard guard, s =>
      if guard ∈ s.guards then do
        let (_, pool) ← (s.pool.flushGuard guard).toOption
        return { s with pool }
      else none
  | .dropGuard guard, s =>
      if guard ∈ s.guards then do
        let pool ← (s.pool.dropGuard B guard).toOption
        return { pool, guards := s.guards.erase guard }
      else none
  | .flushPage pageId, s => do
      let (_, pool) ← (s.pool.flushPage B pageId).toOption
      return { s with pool }
  | .flushAllPages, s => do
      let (_, pool) ← (s.pool.flushAllPages B order).toOption
      return { s with pool }
  | .deletePage pageId, s => do
      let pool ← (s.pool.deletePage pageId).toOption
      return { s with pool }

section Calls

variable {B : Build} {order : HashOrder} {s s' : Session}

theorem toOption_bind_eq_some {α β : Type} {x : Except Panic α} {f : α → Option β} {b : β} :
    x.toOption.bind f = some b ↔ ∃ a, x = .ok a ∧ f a = some b := by
  cases x <;> simp [Except.toOption]

theorem step_newPage : step B order .newPage s = some s' ↔
    ∃ p pool, s.pool.newPage = .ok (p, pool) ∧ s' = { s with pool } := by
  show Option.bind _ _ = some s' ↔ _
  rw [toOption_bind_eq_some, Prod.exists]
  simp [eq_comm]

theorem step_checkPage {kind : GuardKind} {p : PageId} :
    step B order (.checkPage kind p) s = some s' ↔
      ∃ g pool, s.pool.checkPage B order kind p = .ok (g, pool) ∧
        s' = ⟨pool, g :: s.guards⟩ := by
  show Option.bind _ _ = some s' ↔ _
  rw [toOption_bind_eq_some, Prod.exists]
  simp [eq_comm]

theorem step_write {g : Guard} {data : Page} :
    step B order (.write g data) s = some s' ↔
      g ∈ s.guards ∧ g.kind = .write ∧
        s' = { s with pool := (s.pool.dataMut g).store g data } := by
  simp [step, and_assoc, eq_comm]

theorem step_flushGuard {g : Guard} : step B order (.flushGuard g) s = some s' ↔
    g ∈ s.guards ∧ ∃ b pool, s.pool.flushGuard g = .ok (b, pool) ∧
      s' = { s with pool } := by
  rw [step]
  split
  · next h =>
      show Option.bind _ _ = some s' ↔ _
      rw [toOption_bind_eq_some, Prod.exists]
      simp [h, eq_comm]
  · next h => simp [h]

theorem step_dropGuard {g : Guard} : step B order (.dropGuard g) s = some s' ↔
    g ∈ s.guards ∧ ∃ pool, s.pool.dropGuard B g = .ok pool ∧
      s' = ⟨pool, s.guards.erase g⟩ := by
  rw [step]
  split
  · next h =>
      show Option.bind _ _ = some s' ↔ _
      rw [toOption_bind_eq_some]
      simp [h, eq_comm]
  · next h => simp [h]

theorem step_flushPage {p : PageId} : step B order (.flushPage p) s = some s' ↔
    ∃ b pool, s.pool.flushPage B p = .ok (b, pool) ∧ s' = { s with pool } := by
  show Option.bind _ _ = some s' ↔ _
  rw [toOption_bind_eq_some, Prod.exists]
  simp [eq_comm]

theorem step_flushAllPages : step B order .flushAllPages s = some s' ↔
    ∃ b pool, s.pool.flushAllPages B order = .ok (b, pool) ∧ s' = { s with pool } := by
  show Option.bind _ _ = some s' ↔ _
  rw [toOption_bind_eq_some, Prod.exists]
  simp [eq_comm]

theorem step_deletePage {p : PageId} : step B order (.deletePage p) s = some s' ↔
    ∃ pool, s.pool.deletePage p = .ok pool ∧ s' = { s with pool } := by
  show Option.bind _ _ = some s' ↔ _
  rw [toOption_bind_eq_some]
  simp [eq_comm]

end Calls

end Session

end StorageEngine
