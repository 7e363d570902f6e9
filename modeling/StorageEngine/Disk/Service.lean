import StorageEngine.Disk.Calls
import StorageEngine.Disk.Scheduler

/-!
The disk scheduler as a service: clients that schedule requests in any
order, the channel, the worker and its end.

What an interleaving does to the disk is what serving the accepted requests
one after the other does, and no more of the interleaving is seen: the
replies sent are the first of those the disk gives to the whole sequence.
-/

namespace StorageEngine

open Lib

/-- The call of the disk manager a request makes. -/
def DiskRequest.call (request : DiskRequest) : DiskCall :=
  match request.type with
  | .read => .read request.pageId request.data
  | .write => .write request.pageId request.data
  | .delete => .delete request.pageId

namespace DiskManager

section Serve

variable {dm dm' : DiskManager}

/-! ### One request -/

theorem serve_write (hs : dm.Sized) (hp : dm.Packed) (p : PageId) (data : Page) :
    ∃ dm', dm.serve ⟨.write, p, data⟩ = .ok (some data, dm') ∧ dm'.Sized ∧ dm'.Packed ∧
      ∀ q, dm'.contents q = if q = p then some data else dm.contents q := by
  obtain ⟨dm', heq, h⟩ := writePage_spec hs hp p data
  exact ⟨dm', by simp [serve, heq], h⟩

theorem serve_read (hs : dm.Sized) (hp : dm.Packed) {p : PageId} {page : Page}
    (h : dm.contents p = some page) (buf : Page) :
    ∃ dm', dm.serve ⟨.read, p, buf⟩ = .ok (some page, dm') ∧ dm'.Sized ∧ dm'.Packed ∧
      ∀ q, dm'.contents q = dm.contents q := by
  obtain ⟨dm', heq, h'⟩ := readPage_spec hs hp h buf
  exact ⟨dm', by simp only [serve, heq]; rfl, h'⟩

theorem serve_delete (hs : dm.Sized) (hp : dm.Packed) (p : PageId) (data : Page) :
    ∃ dm', dm.serve ⟨.delete, p, data⟩ = .ok (some data, dm') ∧ dm'.Sized ∧ dm'.Packed ∧
      ∀ q, dm'.contents q = if q = p then none else dm.contents q := by
  obtain ⟨dm', heq, h⟩ := deletePage_spec hs hp p
  exact ⟨dm', by simp [serve, heq], h⟩

/-! What a request that was answered did. -/

theorem served_write (hs : dm.Sized) (hp : dm.Packed) {p : PageId} {data : Page}
    {reply : Option Page} (h : dm.serve ⟨.write, p, data⟩ = .ok (reply, dm')) :
    dm'.Sized ∧ dm'.Packed ∧
      ∀ q, dm'.contents q = if q = p then some data else dm.contents q := by
  obtain ⟨dm₁, heq, hspec⟩ := serve_write hs hp p data
  obtain ⟨-, rfl⟩ := ok_pair_unique h heq
  exact hspec

theorem served_read (hs : dm.Sized) (hp : dm.Packed) {p : PageId} {page buf : Page}
    {reply : Option Page} (hpage : dm.contents p = some page)
    (h : dm.serve ⟨.read, p, buf⟩ = .ok (reply, dm')) :
    reply = some page ∧ dm'.Sized ∧ dm'.Packed ∧ ∀ q, dm'.contents q = dm.contents q := by
  obtain ⟨dm₁, heq, hspec⟩ := serve_read hs hp hpage buf
  obtain ⟨rfl, rfl⟩ := ok_pair_unique h heq
  exact ⟨rfl, hspec⟩

theorem served_delete (hs : dm.Sized) (hp : dm.Packed) {p : PageId} {data : Page}
    {reply : Option Page} (h : dm.serve ⟨.delete, p, data⟩ = .ok (reply, dm')) :
    dm'.Sized ∧ dm'.Packed ∧
      ∀ q, dm'.contents q = if q = p then none else dm.contents q := by
  obtain ⟨dm₁, heq, hspec⟩ := serve_delete hs hp p data
  obtain ⟨-, rfl⟩ := ok_pair_unique h heq
  exact hspec

/-- A slot handed out lies in the file, whether or not it is another page's. -/
theorem slotFor_sized (hs : dm.Sized) (p : PageId) :
    ∃ o dm₁, dm.slotFor p = (o, dm₁) ∧ dm₁.pages = dm.pages ∧ dm₁.Sized ∧
      o + pageSize ≤ dm₁.dbFile.len := by
  obtain ⟨o, dm₁, hslot⟩ : ∃ o dm₁, dm.slotFor p = (o, dm₁) := ⟨_, _, rfl⟩
  have hpages : dm₁.pages = dm.pages := by rw [← slotFor_pages dm p, hslot]
  obtain ⟨-, ⟨k, hk, rfl⟩, -⟩ := hs.roomy.slotFor hslot
  obtain ⟨hs₁, -, -⟩ := hs.slotFor hslot
  refine ⟨k * pageSize, dm₁, hslot, hpages, hs₁, ?_⟩
  rw [hs₁.len]
  simp only [pageSize]
  omega

theorem readPage_sized (hs : dm.Sized) (p : PageId) (buf : Page) :
    ∃ page dm', dm.readPage p buf = .ok (.ok page, dm') ∧ dm'.Sized ∧ dm'.pages = dm.pages := by
  obtain ⟨o, dm₁, hslot, hpages, hs₁, hend⟩ := slotFor_sized hs p
  exact ⟨_, _, readPage_eq buf hslot hs₁.noFaults hend,
    ⟨hs₁.noFaults, hs₁.len, hs₁.room, hs₁.offsets⟩, hpages⟩

theorem writePage_sized (hs : dm.Sized) (p : PageId) (data : Page) :
    ∃ o dm', dm.writePage p data = (.ok (), dm') ∧ dm'.Sized ∧
      dm'.pages = dm.pages.insert p o := by
  obtain ⟨o, dm₁, hslot, hpages, hs₁, hend⟩ := slotFor_sized hs p
  obtain ⟨dbFile, heq, hf, hlen, -⟩ := writePage_eq data hslot hs₁.noFaults
  have hroomy := hs.roomy.mapped hslot dbFile
  rw [max_eq_left hend] at hlen
  exact ⟨o, _, heq, ⟨hf, hlen.trans hs₁.len, hroomy.room, hroomy.offsets⟩, by rw [hpages]⟩

theorem deletePage_sized (hs : dm.Sized) (p : PageId) :
    ∃ dm', dm.deletePage p = (.ok (), dm') ∧ dm'.Sized ∧ dm'.pages = dm.pages.erase p := by
  obtain ⟨freeSlots, heq⟩ := dm.deletePage_eq p
  have hroomy := hs.roomy.deletePage p
  rw [heq] at hroomy
  exact ⟨_, heq, ⟨hs.noFaults, hs.len, hroomy.room, hroomy.offsets⟩, rfl⟩

/-- Every request is answered, whatever it asks for. -/
theorem serve_sized (hs : dm.Sized) (request : DiskRequest) :
    ∃ data dm', dm.serve request = .ok (some data, dm') ∧ dm'.Sized ∧
      match request.type with
      | .read => dm'.pages = dm.pages
      | .write => ∃ o, dm'.pages = dm.pages.insert request.pageId o
      | .delete => dm'.pages = dm.pages.erase request.pageId := by
  obtain ⟨type, p, data⟩ := request
  cases type with
  | read =>
      obtain ⟨page, dm', heq, hs', hpages⟩ := readPage_sized hs p data
      refine ⟨page, dm', ?_, hs', hpages⟩
      simp only [serve, heq]
      rfl
  | write =>
      obtain ⟨o, dm', heq, hs', hpages⟩ := writePage_sized hs p data
      exact ⟨data, dm', by simp only [serve, heq], hs', o, hpages⟩
  | delete =>
      obtain ⟨dm', heq, hs', hpages⟩ := deletePage_sized hs p
      exact ⟨data, dm', by simp only [serve, heq], hs', hpages⟩

/-! ### Requests one after the other -/

/-- The disk serves requests in order. -/
def serveAll : DiskManager → List DiskRequest → Except Panic (List (Option Page) × DiskManager)
  | dm, [] => .ok ([], dm)
  | dm, request :: requests => do
      let (reply, dm) ← dm.serve request
      let (replies, dm) ← dm.serveAll requests
      return (reply :: replies, dm)

theorem serveAll_cons {request : DiskRequest} {requests : List DiskRequest}
    {reply : Option Page} {replies : List (Option Page)} {dm'' : DiskManager}
    (hserve : dm.serve request = .ok (reply, dm'))
    (hrest : dm'.serveAll requests = .ok (replies, dm'')) :
    dm.serveAll (request :: requests) = .ok (reply :: replies, dm'') := by
  simp only [serveAll, hserve, hrest, ok_bind]
  rfl

/-- One more request is served last. -/
theorem serveAll_concat {requests : List DiskRequest} {request : DiskRequest}
    {reply : Option Page} : ∀ {dm dm' dm'' : DiskManager} {replies : List (Option Page)},
      dm.serveAll requests = .ok (replies, dm') → dm'.serve request = .ok (reply, dm'') →
        dm.serveAll (requests ++ [request]) = .ok (replies ++ [reply], dm'') := by
  induction requests with
  | nil =>
      intro dm dm' dm'' replies hall hserve
      obtain ⟨rfl, rfl⟩ := Prod.mk.inj (Except.ok.inj hall)
      exact serveAll_cons hserve rfl
  | cons first rest ih =>
      intro dm dm' dm'' replies hall hserve
      simp only [serveAll] at hall
      obtain ⟨⟨reply₁, dm₁⟩, hfirst, hall⟩ := bind_eq_ok.mp hall
      obtain ⟨⟨replies₁, dm₂⟩, hrest, hall⟩ := bind_eq_ok.mp hall
      obtain ⟨rfl, rfl⟩ := Prod.mk.inj (Except.ok.inj hall)
      exact serveAll_cons hfirst (ih hrest hserve)

/-- Every read is of a page that was written, and not deleted since, by the
requests before it, the latest of which come first in `hist`. -/
def ReadsWritten : List DiskCall → List DiskRequest → Prop
  | _, [] => True
  | hist, request :: requests =>
      (request.type = .read → lastWrite hist request.pageId ≠ none) ∧
        ReadsWritten (request.call :: hist) requests

/-- The replies clients are to get: a read that of the latest write of its
page, the other requests their own bytes. -/
def answers : List DiskCall → List DiskRequest → List (Option Page)
  | _, [] => []
  | hist, request :: requests =>
      (match request.type with
        | .read => lastWrite hist request.pageId
        | _ => some request.data) :: answers (request.call :: hist) requests

theorem ReadsWritten.of_append {as bs : List DiskRequest} : ∀ {hist : List DiskCall},
    ReadsWritten hist (as ++ bs) → ReadsWritten hist as := by
  induction as with
  | nil => exact fun _ => trivial
  | cons request as ih => exact fun h => ⟨h.1, ih h.2⟩

theorem answers_prefix (as bs : List DiskRequest) : ∀ hist : List DiskCall,
    answers hist as <+: answers hist (as ++ bs) := by
  induction as with
  | nil => exact fun hist => List.nil_prefix
  | cons request as ih =>
      intro hist
      exact (List.prefix_cons_inj _).mpr (ih (request.call :: hist))

/-- **Reads see the writes before them**, whatever writes and deletes of
other pages stand between. -/
theorem serveAll_answers {requests : List DiskRequest} : ∀ {hist : List DiskCall}
    {dm : DiskManager}, Tracks hist dm → ReadsWritten hist requests →
      ∃ dm', dm.serveAll requests = .ok (answers hist requests, dm') := by
  induction requests with
  | nil => exact fun _ _ => ⟨_, rfl⟩
  | cons request requests ih =>
      rintro hist dm ⟨hs, hp, hcont⟩ ⟨hread, hrest⟩
      obtain ⟨type, p, data⟩ := request
      cases type with
      | read =>
          obtain ⟨page, hpage⟩ := Option.ne_none_iff_exists'.mp (hread rfl)
          obtain ⟨dm', heq, hs', hp', hcont'⟩ :=
            serve_read hs hp ((hcont p).trans hpage) data
          have htracks : Tracks (DiskRequest.call ⟨.read, p, data⟩ :: hist) dm' :=
            ⟨hs', hp', fun q => (hcont' q).trans (hcont q)⟩
          obtain ⟨dm'', hall⟩ := ih htracks hrest
          rw [← hpage] at heq
          exact ⟨dm'', serveAll_cons heq hall⟩
      | write =>
          obtain ⟨dm', heq, hs', hp', hcont'⟩ := serve_write hs hp p data
          obtain ⟨dm'', hall⟩ := ih ⟨hs', hp', fun q => by
            rw [hcont', hcont, DiskRequest.call, lastWrite]⟩ hrest
          exact ⟨dm'', serveAll_cons heq hall⟩
      | delete =>
          obtain ⟨dm', heq, hs', hp', hcont'⟩ := serve_delete hs hp p data
          obtain ⟨dm'', hall⟩ := ih ⟨hs', hp', fun q => by
            rw [hcont', hcont, DiskRequest.call, lastWrite]⟩ hrest
          exact ⟨dm'', serveAll_cons heq hall⟩

end Serve

end DiskManager

/-! ### The scheduler -/

inductive Worker
  | running
  | stopped
  | panicked
  deriving DecidableEq

/-- The scheduler with its worker, the disk it has locked and what was sent
on the reply channels, each of which is named by a `promise`. -/
structure DiskScheduler (ι : Type) where
  requests : List (Option (ι × DiskRequest))
  diskManager : DiskManager
  worker : Worker
  dropped : Bool
  replies : List (ι × Option Page)

inductive SchedulerEvent (ι : Type)
  | schedule (promise : ι) (request : DiskRequest)
  /-- a turn of the worker loop -/
  | work
  | drop

namespace DiskScheduler

variable {ι : Type}

def new (diskManager : DiskManager) : DiskScheduler ι where
  requests := []
  diskManager
  worker := .running
  dropped := false
  replies := []

/-- `recv` and the body of the loop; a worker that finds nothing waits. -/
def turn (s : DiskScheduler ι) : Option (DiskScheduler ι) :=
  match s.requests with
  | [] => none
  | none :: requests => some { s with requests, worker := .stopped }
  | some (promise, request) :: requests =>
      match s.diskManager.serve request with
      | .ok (reply, diskManager) => some { s with
          requests, diskManager, replies := s.replies ++ [(promise, reply)] }
      | .error _ => some { s with requests, worker := .panicked }

/-- `schedule` and `drop` act on the channel. Nobody has a reference to a
scheduler that is dropped, and the `send` of `schedule` panics where the
worker is gone. -/
def step : SchedulerEvent ι → DiskScheduler ι → Option (DiskScheduler ι)
  | .schedule promise request, s =>
      if s.dropped = false ∧ s.worker = .running then
        some { s with requests := s.requests ++ [some (promise, request)] }
      else none
  | .work, s => if s.worker = .running then s.turn else none
  | .drop, s =>
      if s.dropped = false then
        some { s with requests := s.requests ++ [none], dropped := true }
      else none

/-- The requests accepted, oldest first. -/
def accepted : List (SchedulerEvent ι) → List (ι × DiskRequest)
  | [] => []
  | .schedule promise request :: hist => accepted hist ++ [(promise, request)]
  | _ :: hist => accepted hist

/-- The requests still in the channel. -/
def waiting (s : DiskScheduler ι) : List (ι × DiskRequest) := s.requests.reduceOption

/-- Every accepted request is replied to once, in order, and reads that are
of written pages are replied to with what was written. -/
structure Serves (hist : List (SchedulerEvent ι)) (s : DiskScheduler ι) : Prop where
  alive : s.worker ≠ .panicked
  order : s.replies.map Prod.fst ++ s.waiting.map Prod.fst = (accepted hist).map Prod.fst
  finished : s.worker = .stopped → s.replies.map Prod.fst = (accepted hist).map Prod.fst
  drains : ∃ s', run step (List.replicate s.requests.length .work) s = some s' ∧
    s'.replies.map Prod.fst = (accepted hist).map Prod.fst ∧
    (s.dropped = true → s'.worker = .stopped)
  readsBack : DiskManager.ReadsWritten [] ((accepted hist).map Prod.snd) →
    s.replies.map Prod.snd <+: DiskManager.answers [] ((accepted hist).map Prod.snd)

/-- The invariant behind `Serves`: the disk has served some of the requests
accepted, one after the other, and the others are in the channel, after them
the message that ends the worker. -/
structure Serving (dm : DiskManager) (served waiting : List (ι × DiskRequest))
    (s : DiskScheduler ι) : Prop where
  sized : s.diskManager.Sized
  replied : s.replies.map Prod.fst = served.map Prod.fst
  onDisk : dm.serveAll (served.map Prod.snd) = .ok (s.replies.map Prod.snd, s.diskManager)
  channel : s.worker = .running ∧
      s.requests = waiting.map some ++ (if s.dropped then [none] else []) ∨
    s.worker = .stopped ∧ s.dropped = true ∧ s.requests = [] ∧ waiting = []

section Serving

variable {dm : DiskManager} {served waiting : List (ι × DiskRequest)}
  {s s' : DiskScheduler ι} {hist : List (SchedulerEvent ι)}

theorem new_serving (hs : dm.Sized) : (new dm : DiskScheduler ι).Serving dm [] [] where
  sized := hs
  replied := rfl
  onDisk := rfl
  channel := Or.inl ⟨rfl, rfl⟩

theorem Serving.waiting_eq (h : s.Serving dm served waiting) : s.waiting = waiting := by
  rcases h.channel with ⟨-, hreq⟩ | ⟨-, -, hreq, rfl⟩
  · have hend : (if s.dropped then [none] else [] : List (Option (ι × DiskRequest))).reduceOption
        = [] := by
      split
      · rfl
      · rfl
    rw [DiskScheduler.waiting, hreq, List.reduceOption_append, hend, List.append_nil]
    simp [List.reduceOption, List.filterMap_map]
  · rw [DiskScheduler.waiting, hreq]
    rfl

/-- A turn of the worker serves the next request. -/
theorem Serving.turn_request {m : ι × DiskRequest} (h : s.Serving dm served (m :: waiting)) :
    ∃ s', s.turn = some s' ∧ s'.Serving dm (served ++ [m]) waiting ∧ s'.dropped = s.dropped ∧
      s.requests.length = s'.requests.length + 1 := by
  obtain ⟨promise, request⟩ := m
  rcases h.channel with ⟨hrun, hreq⟩ | ⟨-, -, -, hnil⟩
  · obtain ⟨data, dm', hserve, hs', -⟩ := DiskManager.serve_sized h.sized request
    rw [List.map_cons, List.cons_append] at hreq
    refine ⟨{ s with
        requests := waiting.map some ++ (if s.dropped then [none] else [])
        diskManager := dm'
        replies := s.replies ++ [(promise, some data)] }, ?_,
      ⟨hs', ?_, ?_, Or.inl ⟨hrun, rfl⟩⟩, rfl, ?_⟩
    · simp only [turn, hreq, hserve]
    · simp [h.replied]
    · simpa using DiskManager.serveAll_concat h.onDisk hserve
    · rw [hreq, List.length_cons]
  · exact absurd hnil (List.cons_ne_nil _ _)

/-- With no request left, the worker ends when the scheduler was dropped. -/
theorem Serving.turn_end (h : s.Serving dm served []) (hrun : s.worker = .running)
    (hreq : s.requests ≠ []) : ∃ s', s.turn = some s' ∧ s'.Serving dm served [] ∧
      s'.dropped = s.dropped ∧ s.requests.length = s'.requests.length + 1 := by
  have hchannel : s.requests = if s.dropped then [none] else [] := by
    simpa [hrun] using h.channel
  cases hdrop : s.dropped with
  | false => exact absurd (by rw [hchannel, hdrop]; rfl) hreq
  | true =>
      rw [hdrop, if_pos rfl] at hchannel
      refine ⟨{ s with requests := [], worker := .stopped }, ?_, ?_, hdrop, ?_⟩
      · rw [turn, hchannel]
      · exact ⟨h.sized, h.replied, h.onDisk, Or.inr ⟨rfl, hdrop, rfl, rfl⟩⟩
      · rw [hchannel]
        rfl

/-- Each turn the worker can take keeps the invariant. -/
theorem Serving.work (h : s.Serving dm served waiting) (hreq : s.requests ≠ []) :
    ∃ s' served' waiting', step .work s = some s' ∧ served ++ waiting = served' ++ waiting' ∧
      s'.Serving dm served' waiting' ∧ s'.dropped = s.dropped ∧
      s.requests.length = s'.requests.length + 1 := by
  have hrun : s.worker = .running := by
    rcases h.channel with ⟨hrun, -⟩ | ⟨-, -, hnil, -⟩
    · exact hrun
    · exact absurd hnil hreq
  have hstep : step .work s = s.turn := if_pos hrun
  cases waiting with
  | nil =>
      obtain ⟨s', hturn, hserving, hrest⟩ := h.turn_end hrun hreq
      exact ⟨s', served, [], hstep.trans hturn, rfl, hserving, hrest⟩
  | cons m waiting =>
      obtain ⟨s', hturn, hserving, hrest⟩ := h.turn_request
      exact ⟨s', served ++ [m], waiting, hstep.trans hturn, by simp, hserving, hrest⟩

/-- The worker can empty the channel, and ends if the scheduler was dropped. -/
theorem Serving.drains {n : ℕ} : ∀ {s : DiskScheduler ι} {served waiting},
    s.Serving dm served waiting → s.requests.length = n →
      ∃ s', run step (List.replicate n .work) s = some s' ∧
        s'.Serving dm (served ++ waiting) [] ∧ (s.dropped = true → s'.worker = .stopped) := by
  induction n with
  | zero =>
      intro s served waiting h hlen
      have hreq : s.requests = [] := List.length_eq_zero_iff.mp hlen
      -- an empty channel has not even the message that ends the worker
      rcases h.channel with ⟨-, hchannel⟩ | ⟨hstop, -, -, rfl⟩
      · rw [hreq] at hchannel
        obtain ⟨hwaiting, hdrop⟩ := List.append_eq_nil_iff.mp hchannel.symm
        obtain rfl := List.map_eq_nil_iff.mp hwaiting
        refine ⟨s, rfl, by rwa [List.append_nil], fun hdropped => ?_⟩
        simp [hdropped] at hdrop
      · exact ⟨s, rfl, by rwa [List.append_nil], fun _ => hstop⟩
  | succ n ih =>
      intro s served waiting h hlen
      have hreq : s.requests ≠ [] := by
        intro hnil
        simp [hnil] at hlen
      obtain ⟨s₁, served₁, waiting₁, hstep, hall, h₁, hdrop, hlen₁⟩ := h.work hreq
      obtain ⟨s', hrun, h', hend⟩ := ih h₁ (by omega)
      rw [hdrop] at hend
      rw [hall]
      refine ⟨s', ?_, h', hend⟩
      rw [List.replicate_succ, run_cons, hstep]
      exact hrun

theorem Serving.serves (h : s.Serving dm served waiting) {hist : List (SchedulerEvent ι)}
    (hacc : accepted hist = served ++ waiting) (htracks : DiskManager.Tracks [] dm) :
    s.Serves hist where
  alive := by
    rcases h.channel with ⟨hrun, -⟩ | ⟨hstop, -⟩
    · simp [hrun]
    · simp [hstop]
  order := by rw [hacc, h.replied, h.waiting_eq, List.map_append]
  finished := by
    intro hstop
    rcases h.channel with ⟨hrun, -⟩ | ⟨-, -, -, rfl⟩
    · simp [hrun] at hstop
    · rw [hacc, h.replied, List.append_nil]
  drains := by
    obtain ⟨s', hrun, h', hend⟩ := h.drains rfl
    exact ⟨s', hrun, by rw [h'.replied, hacc], hend⟩
  readsBack := by
    intro hwritten
    rw [hacc, List.map_append] at hwritten ⊢
    obtain ⟨dm', hall⟩ := DiskManager.serveAll_answers htracks hwritten.of_append
    obtain ⟨heq, -⟩ := ok_pair_unique h.onDisk hall
    rw [heq]
    exact DiskManager.answers_prefix _ _ _

/-- One event, whichever client or party it is of. -/
theorem step_serving {e : SchedulerEvent ι} (h : s.Serving dm served waiting)
    (hacc : accepted hist = served ++ waiting) (hstep : step e s = some s') :
    ∃ served' waiting', accepted (e :: hist) = served' ++ waiting' ∧
      s'.Serving dm served' waiting' := by
  cases e with
  | schedule promise request =>
      rw [step] at hstep
      split at hstep
      · next hopen =>
          -- while requests are accepted, the end is not in the channel yet
          obtain ⟨hdrop, hrun⟩ := hopen
          obtain rfl := Option.some.inj hstep
          have hreq : s.requests = waiting.map some := by
            simpa [hrun, hdrop] using h.channel
          refine ⟨served, waiting ++ [(promise, request)], by simp [accepted, hacc],
            h.sized, h.replied, h.onDisk, Or.inl ⟨hrun, ?_⟩⟩
          simp [hreq, hdrop]
      · simp at hstep
  | work =>
      have hreq : s.requests ≠ [] := by
        intro hnil
        simp [step, turn, hnil] at hstep
      obtain ⟨s₁, served', waiting', hstep', hall, h', -⟩ := h.work hreq
      obtain rfl := Option.some.inj (hstep.symm.trans hstep')
      exact ⟨served', waiting', hacc.trans hall, h'⟩
  | drop =>
      rw [step] at hstep
      split at hstep
      · next hdrop =>
          obtain rfl := Option.some.inj hstep
          rcases h.channel with ⟨hrun, hreq⟩ | ⟨-, hdropped, -⟩
          · refine ⟨served, waiting, hacc, h.sized, h.replied, h.onDisk, Or.inl ⟨hrun, ?_⟩⟩
            simp [hreq, hdrop]
          · simp [hdrop] at hdropped
      · simp at hstep

end Serving

/-- **Every request is served once, in order**, whatever the interleaving of
the clients with the worker and the end of the scheduler, and reads of written
pages see what was written. -/
theorem serves_throughout (dbFile : DbFile) (hf : dbFile.NoFaults) (dm : DiskManager)
    (hnew : DiskManager.new dbFile = .ok dm) (events : List (SchedulerEvent ι)) :
    Throughout step Serves [] events (new dm) := by
  obtain rfl : DiskManager.fresh dbFile = dm := by
    simpa [DiskManager.new_eq_fresh hf] using hnew
  have htracks := DiskManager.fresh_tracks hf
  let J : List (SchedulerEvent ι) → DiskScheduler ι → Prop := fun hist s =>
    ∃ served waiting, accepted hist = served ++ waiting ∧
      s.Serving (DiskManager.fresh dbFile) served waiting
  have hstep : ∀ hist e s s', J hist s → True → step e s = some s' → J (e :: hist) s' := by
    rintro hist e s s' ⟨served, waiting, hacc, h⟩ - hs'
    exact step_serving h hacc hs'
  refine (throughout_of_along hstep ⟨[], [], rfl, new_serving htracks.1⟩
    (along_true [] events _)).mono ?_
  rintro hist s ⟨served, waiting, hacc, h⟩
  exact h.serves hacc htracks

/-- The scheduler is dropped with a read still in the channel. -/
theorem serves_throughout_two_clients :
    Throughout step Serves []
      [.schedule 0 ⟨.write, 5, .zero _⟩, .schedule 1 ⟨.read, 5, .zero _⟩, .work, .drop, .work,
        .work] (new (.fresh DiskManager.blankFile) : DiskScheduler ℕ) :=
  serves_throughout DiskManager.blankFile (fun _ => rfl) _
    (DiskManager.new_eq_fresh fun _ => rfl) _

end DiskScheduler

end StorageEngine
