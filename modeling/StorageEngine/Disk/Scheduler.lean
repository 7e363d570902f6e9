import StorageEngine.Disk.Manager

/-!
The disk scheduler (`disk_scheduler.rs`): what its worker does with one
request.

The channel is first in, first out, and a client of the buffer pool waits
for the reply before it goes on, so that a request scheduled by the pool is
served at once. A worker that panics drops the reply channel, and the
client panics in turn on `recv().unwrap()`.
-/

namespace StorageEngine

inductive DiskRequestType
  | read
  | write
  | delete
  deriving DecidableEq, Repr

structure DiskRequest where
  type : DiskRequestType
  pageId : PageId
  data : Page

/-- One turn of the worker loop: the reply sent on `promise`, and the disk
manager afterwards. -/
def DiskManager.serve (dm : DiskManager) (request : DiskRequest) :
    Except Panic (Option Page × DiskManager) :=
  match request.type with
  | .read => do
      match ← dm.readPage request.pageId request.data with
      | (.ok data, dm) => return (some data, dm)
      | (.error _, dm) => return (none, dm)
  | .write =>
      match dm.writePage request.pageId request.data with
      | (.ok _, dm) => .ok (some request.data, dm)
      | (.error _, dm) => .ok (none, dm)
  | .delete =>
      match dm.deletePage request.pageId with
      | (.ok _, dm) => .ok (some request.data, dm)
      | (.error _, dm) => .ok (none, dm)

end StorageEngine
