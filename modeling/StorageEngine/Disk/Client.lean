import StorageEngine.Lib.Prog
import StorageEngine.Disk.Service

/-!
A client of the scheduler that waits for each reply, among others.

The client is a program of requests. On the disk alone they are served at
once; on the scheduler each of them goes through the channel, between requests
of other clients, to the worker, and its reply comes back on a channel of its
own. While the others keep to other pages, the client cannot tell one from
the other, and it is never left waiting.
-/

namespace StorageEngine

open Lib

/-- What a client asks of the disk. -/
inductive DiskCmd : Type → Type
  | request (request : DiskRequest) : DiskCmd (Option Page)

/-- A client: a program of requests, which may fail. -/
abbrev DiskProg := Prog DiskCmd

/-- The disk alone, where a request is served at once; a panic ends the client
as `fault` says. -/
def DiskManager.answer {E : Type} (fault : Panic → E) :
    ∀ β, DiskCmd β → DiskManager → Except E (β × DiskManager)
  | _, .request request, dm => (dm.serve request).mapError fault

/-- The reply to a request after the calls `hist`. -/
def DiskRequest.reply (hist : List DiskCall) (request : DiskRequest) : Option Page :=
  match request.type with
  | .read => DiskManager.lastWrite hist request.pageId
  | _ => some request.data

/-- The calls of accepted requests, latest first. -/
def DiskRequest.calls {ι : Type} (log : List (ι × DiskRequest)) : List DiskCall :=
  (log.map fun m => m.2.call).reverse

namespace DiskManager

section Replies

variable {ι : Type} {hist : List DiskCall} {request : DiskRequest} {q : PageId}

/-! ### The last write of a page -/

/-- A request leaves the other pages alone. -/
theorem lastWrite_call_of_ne (h : q ≠ request.pageId) :
    lastWrite (request.call :: hist) q = lastWrite hist q := by
  obtain ⟨type, p, data⟩ := request
  cases type with
  | read => rfl
  | write => exact if_neg h
  | delete => exact if_neg h

theorem lastWrite_call_congr {hist' : List DiskCall}
    (h : lastWrite hist q = lastWrite hist' q) :
    lastWrite (request.call :: hist) q = lastWrite (request.call :: hist') q := by
  obtain ⟨type, p, data⟩ := request
  cases type with
  | read => exact h
  | write => exact congrArg (ite (q = p) (some data)) h
  | delete => exact congrArg (ite (q = p) none) h

theorem calls_concat (log : List (ι × DiskRequest)) (m : ι × DiskRequest) :
    DiskRequest.calls (log ++ [m]) = m.2.call :: DiskRequest.calls log := by
  simp [DiskRequest.calls]

/-- Requests for other pages, after those of interest. -/
theorem lastWrite_append {log rest : List (ι × DiskRequest)}
    (h : ∀ m ∈ rest, q ≠ m.2.pageId) :
    lastWrite (DiskRequest.calls (log ++ rest)) q = lastWrite (DiskRequest.calls log) q := by
  induction rest using List.reverseRecOn with
  | nil => rw [List.append_nil]
  | append_singleton rest m ih =>
      rw [← List.append_assoc, calls_concat,
        lastWrite_call_of_ne (h m (List.mem_append_right _ (List.mem_singleton_self m)))]
      exact ih fun m' hm' => h m' (List.mem_append_left _ hm')

theorem ReadsWritten.append {as bs : List DiskRequest} : ∀ {hist : List DiskCall},
    ReadsWritten hist as → ReadsWritten ((as.map DiskRequest.call).reverse ++ hist) bs →
      ReadsWritten hist (as ++ bs) := by
  induction as with
  | nil => exact fun _ h => h
  | cons a as ih =>
      intro hist has hbs
      refine ⟨has.1, ih has.2 ?_⟩
      rwa [List.map_cons, List.reverse_cons, List.append_assoc] at hbs

/-- One more request is accepted. -/
theorem ReadsWritten.concat {log : List (ι × DiskRequest)} {m : ι × DiskRequest}
    (h : ReadsWritten [] (log.map Prod.snd))
    (hm : m.2.type = .read → lastWrite (DiskRequest.calls log) m.2.pageId ≠ none) :
    ReadsWritten [] ((log ++ [m]).map Prod.snd) := by
  rw [List.map_append]
  apply h.append
  refine ⟨fun hread => ?_, trivial⟩
  rw [List.map_map, List.append_nil]
  exact hm hread

/-! ### Requests served -/

/-- A request that finds its page as the calls before left it. -/
theorem serve_reply {dm : DiskManager} (hs : dm.Sized) (hp : dm.Packed)
    (hpage : dm.contents request.pageId = lastWrite hist request.pageId)
    (hread : request.type = .read → dm.contents request.pageId ≠ none) :
    ∃ dm', dm.serve request = .ok (request.reply hist, dm') ∧ dm'.Sized ∧ dm'.Packed ∧
      ∀ q, dm.contents q = lastWrite hist q →
        dm'.contents q = lastWrite (request.call :: hist) q := by
  obtain ⟨type, p, data⟩ := request
  cases type with
  | read =>
      obtain ⟨page, hmapped⟩ := Option.ne_none_iff_exists'.mp (hread rfl)
      obtain ⟨dm', heq, hs', hp', hcont⟩ := serve_read hs hp hmapped data
      refine ⟨dm', ?_, hs', hp', fun q hq => (hcont q).trans hq⟩
      rw [heq, ← hmapped, hpage]
      rfl
  | write =>
      obtain ⟨dm', heq, hs', hp', hcont⟩ := serve_write hs hp p data
      refine ⟨dm', heq, hs', hp', fun q hq => ?_⟩
      rw [hcont, hq]
      rfl
  | delete =>
      obtain ⟨dm', heq, hs', hp', hcont⟩ := serve_delete hs hp p data
      refine ⟨dm', heq, hs', hp', fun q hq => ?_⟩
      rw [hcont, hq]
      rfl

/-- The disk after requests all of whose reads are of written pages. -/
theorem serveAll_tracks {requests : List DiskRequest} : ∀ {hist : List DiskCall}
    {dm : DiskManager}, Tracks hist dm → ReadsWritten hist requests →
      ∃ dm', dm.serveAll requests = .ok (answers hist requests, dm') ∧
        Tracks ((requests.map DiskRequest.call).reverse ++ hist) dm' := by
  induction requests with
  | nil => exact fun htracks _ => ⟨_, rfl, htracks⟩
  | cons request requests ih =>
      rintro hist dm ⟨hs, hp, hcont⟩ ⟨hread, hrest⟩
      have hmapped : request.type = .read → dm.contents request.pageId ≠ none := by
        rw [hcont]
        exact hread
      obtain ⟨dm₁, heq, hs₁, hp₁, hcont₁⟩ := serve_reply hs hp (hcont request.pageId) hmapped
      obtain ⟨dm', hall, htracks⟩ := ih ⟨hs₁, hp₁, fun q => hcont₁ q (hcont q)⟩ hrest
      refine ⟨dm', serveAll_cons heq hall, ?_⟩
      rwa [List.map_cons, List.reverse_cons, List.append_assoc]

/-- The reply found on a channel that one request alone was given. -/
theorem lookup_answers [BEq ι] [LawfulBEq ι] {c : ι} {after : List (ι × DiskRequest)}
    {before : List (ι × DiskRequest)} (hc : ∀ m ∈ before, m.1 ≠ c) :
    ∀ {hist : List DiskCall} {replies : List (ι × Option Page)},
      replies.map Prod.fst = (before ++ (c, request) :: after).map Prod.fst →
      replies.map Prod.snd = answers hist ((before ++ (c, request) :: after).map Prod.snd) →
      replies.lookup c = some (request.reply (DiskRequest.calls before ++ hist)) := by
  induction before with
  | nil =>
      intro hist replies hfst hsnd
      obtain ⟨⟨c', reply⟩, replies, rfl, rfl, -⟩ := List.map_eq_cons_iff.mp hfst
      obtain ⟨hreply, -⟩ := List.cons.inj hsnd
      rw [List.lookup_cons_self]
      exact congrArg some hreply
  | cons m before ih =>
      intro hist replies hfst hsnd
      obtain ⟨⟨c', reply⟩, replies, rfl, hc', hfst⟩ := List.map_eq_cons_iff.mp hfst
      obtain ⟨-, hsnd⟩ := List.cons.inj hsnd
      have hne : (c == c') = false := by
        rw [beq_eq_false_iff_ne, show c' = m.1 from hc']
        exact (hc m List.mem_cons_self).symm
      rw [List.lookup_cons, hne]
      have hrest := ih (fun m' hm' => hc m' (List.mem_cons_of_mem m hm')) hfst hsnd
      rw [DiskRequest.calls, List.map_cons, List.reverse_cons, List.append_assoc]
      exact hrest

end Replies

end DiskManager

namespace DiskScheduler

section Open

variable {ι : Type} {dm : DiskManager} {served waiting : List (ι × DiskRequest)}
  {s : DiskScheduler ι}

/-! ### A scheduler that is not dropped -/

theorem Serving.channel_open (h : s.Serving dm served waiting) (hdrop : s.dropped = false) :
    s.worker = .running ∧ s.requests = waiting.map some := by
  rcases h.channel with ⟨hrun, hreq⟩ | ⟨-, hdropped, -⟩
  · exact ⟨hrun, by simpa [hdrop] using hreq⟩
  · simp [hdrop] at hdropped

theorem Serving.schedule (h : s.Serving dm served waiting) (hdrop : s.dropped = false)
    (m : ι × DiskRequest) : ∃ s', step (.schedule m.1 m.2) s = some s' ∧
      s'.Serving dm served (waiting ++ [m]) ∧ s'.dropped = false := by
  obtain ⟨hrun, hreq⟩ := h.channel_open hdrop
  refine ⟨_, if_pos ⟨hdrop, hrun⟩, ⟨h.sized, h.replied, h.onDisk, Or.inl ⟨hrun, ?_⟩⟩, hdrop⟩
  simp [hreq, hdrop]

/-- The worker serves the first of the requests that wait. -/
theorem Serving.work_open {m : ι × DiskRequest} (h : s.Serving dm served (m :: waiting))
    (hdrop : s.dropped = false) : ∃ s', step .work s = some s' ∧
      s'.Serving dm (served ++ [m]) waiting ∧ s'.dropped = false := by
  obtain ⟨hrun, -⟩ := h.channel_open hdrop
  obtain ⟨s', hturn, hserving, hdrop', -⟩ := h.turn_request
  exact ⟨s', (if_pos hrun).trans hturn, hserving, hdrop'.trans hdrop⟩

/-- With nothing to serve, the worker waits. -/
theorem Serving.work_idle (h : s.Serving dm served []) (hdrop : s.dropped = false) :
    step .work s = none := by
  obtain ⟨hrun, hreq⟩ := h.channel_open hdrop
  rw [step, if_pos hrun, turn, hreq]
  rfl

end Open

end DiskScheduler

/-! ### The client among others -/

/-- A client, with the number of channels it has made for replies and whether
it is in `recv` on the last of them, and the scheduler it shares. -/
structure SharedDisk (E α : Type) where
  client : DiskProg E α
  sent : ℕ
  blocked : Bool
  scheduler : DiskScheduler (Option ℕ)

inductive ClientEvent
  /-- `schedule`, with a new reply channel -/
  | send
  /-- `recv().unwrap()` returns -/
  | recv
  /-- another client schedules a request -/
  | other (request : DiskRequest)
  /-- a turn of the worker loop -/
  | work

namespace SharedDisk

variable {E α : Type} {fault : Panic → E}

def new (client : DiskProg E α) (dm : DiskManager) : SharedDisk E α where
  client
  sent := 0
  blocked := false
  scheduler := .new dm

/-- A `recv` waits for a reply as long as there may come one. -/
def step (fault : Panic → E) : ClientEvent → SharedDisk E α → Option (SharedDisk E α)
  | .send, s =>
      match s.client, s.blocked with
      | .cmd (.request request) _, false =>
          (s.scheduler.step (.schedule (some s.sent) request)).map fun scheduler =>
            { s with blocked := true, scheduler }
      | _, _ => none
  | .recv, s =>
      match s.client, s.blocked with
      | .cmd (.request _) k, true =>
          match s.scheduler.replies.lookup (some s.sent) with
          | some reply => some { s with client := k reply, sent := s.sent + 1, blocked := false }
          | none =>
              if s.scheduler.worker = .panicked then
                some { s with client := .fail (fault .unwrap), blocked := false }
              else none
      | _, _ => none
  | .other request, s =>
      (s.scheduler.step (.schedule none request)).map fun scheduler => { s with scheduler }
  | .work, s => (s.scheduler.step .work).map fun scheduler => { s with scheduler }

/-- The calls of the other clients, latest first. -/
def others : List ClientEvent → List DiskCall
  | [] => []
  | .other request :: hist => request.call :: others hist
  | _ :: hist => others hist

/-- The other clients keep off the pages `mine`, and read pages they have
written. -/
def OthersApart (mine : PageId → Prop) (hist : List ClientEvent) (e : ClientEvent)
    (_ : SharedDisk E α) : Prop :=
  ∀ request, e = .other request → ¬mine request.pageId ∧
    (request.type = .read → DiskManager.lastWrite (others hist) request.pageId ≠ none)

/-- The request is for a page of `mine`, and reads no unmapped page. -/
def KeepsTo (mine : PageId → Prop) : ∀ β, DiskCmd β → DiskManager → Prop
  | _, .request request, dm => mine request.pageId ∧
      (request.type = .read → dm.contents request.pageId ≠ none)

/-- The client ended as it would, had it the disk to itself. -/
def EndsAlone (fault : Panic → E) (client : DiskProg E α) (dm : DiskManager)
    (s : SharedDisk E α) : Prop :=
  (∃ a alone, s.client = .ret a ∧
    client.run (DiskManager.answer fault) dm = .ok (a, alone)) ∨
  ∃ e, s.client = .fail e ∧ client.run (DiskManager.answer fault) dm = .error e

/-- The client is where it would be, had it the disk to itself: what it comes
to, what its pages hold then, and that it comes to an end if the others let
the worker. -/
structure ServedAlone (fault : Panic → E) (mine : PageId → Prop) (client : DiskProg E α)
    (dm : DiskManager) (s : SharedDisk E α) : Prop where
  returns : ∀ a, s.client = .ret a →
    ∃ alone, client.run (DiskManager.answer fault) dm = .ok (a, alone) ∧
      ∀ p, mine p → s.scheduler.diskManager.contents p = alone.contents p
  panics : ∀ e, s.client = .fail e → client.run (DiskManager.answer fault) dm = .error e
  ends : ∃ events s', (∀ request, .other request ∉ events) ∧
    run (step fault) events s = some s' ∧ s'.EndsAlone fault client dm

/-- The disk the client would have for itself, after the requests `log`. -/
def Alone (fault : Panic → E) (mine : PageId → Prop) (client : DiskProg E α) (dm : DiskManager)
    (log : List (Option ℕ × DiskRequest)) (rest : DiskProg E α) : Prop :=
  ∃ alone : DiskManager, alone.Sized ∧ alone.Packed ∧
    (∀ p, mine p → alone.contents p = DiskManager.lastWrite (DiskRequest.calls log) p) ∧
    client.run (DiskManager.answer fault) dm = rest.run (DiskManager.answer fault) alone ∧
    rest.Along (DiskManager.answer fault) (KeepsTo mine) alone

/-- What the requests accepted have in common: reads are of written pages, and
the other clients keep to theirs. -/
structure Logged (mine : PageId → Prop) (hist : List ClientEvent)
    (log : List (Option ℕ × DiskRequest)) : Prop where
  reads : DiskManager.ReadsWritten [] (log.map Prod.snd)
  apart : ∀ m ∈ log, m.1 = none → ¬mine m.2.pageId
  written : ∀ p, ¬mine p →
    DiskManager.lastWrite (DiskRequest.calls log) p = DiskManager.lastWrite (others hist) p

/-- The invariant behind `ServedAlone`. The client's channels are numbered in
order; while it is blocked, the last of them belongs to a request that only
those of other clients follow. -/
structure Serving (fault : Panic → E) (mine : PageId → Prop) (client : DiskProg E α)
    (dm : DiskManager) (hist : List ClientEvent) (served waiting : List (Option ℕ × DiskRequest))
    (s : SharedDisk E α) : Prop where
  scheduler : s.scheduler.Serving dm served waiting
  dropped : s.scheduler.dropped = false
  logged : Logged mine hist (served ++ waiting)
  ready : s.blocked = false → waiting.filterMap Prod.fst = [] ∧
    (served ++ waiting).filterMap Prod.fst = List.range s.sent ∧
    Alone fault mine client dm (served ++ waiting) s.client
  pending : s.blocked = true → ∃ before request after k,
    served ++ waiting = before ++ (some s.sent, request) :: after ∧
    before.filterMap Prod.fst = List.range s.sent ∧ after.filterMap Prod.fst = [] ∧
    s.client = .cmd (.request request) k ∧ Alone fault mine client dm before s.client

section Serving

variable {mine : PageId → Prop} {client rest : DiskProg E α} {dm : DiskManager}
  {hist : List ClientEvent} {log served waiting : List (Option ℕ × DiskRequest)}
  {s s' : SharedDisk E α} {k : Option Page → DiskProg E α} {request : DiskRequest}

/-! ### The requests accepted -/

/-- A request of another client is accepted. -/
theorem Logged.other (h : Logged mine hist log) (hmine : ¬mine request.pageId)
    (hread : request.type = .read →
      DiskManager.lastWrite (others hist) request.pageId ≠ none) :
    Logged mine (.other request :: hist) (log ++ [(none, request)]) where
  reads := by
    apply h.reads.concat
    intro htype
    rw [h.written _ hmine]
    exact hread htype
  apart := by
    intro m hm hnone
    obtain hm | hm := List.mem_append.mp hm
    · exact h.apart m hm hnone
    · obtain rfl := List.mem_singleton.mp hm
      exact hmine
  written := by
    intro p hp
    rw [DiskManager.calls_concat, others]
    exact DiskManager.lastWrite_call_congr (h.written p hp)

/-- A request of the client is accepted. -/
theorem Logged.send (h : Logged mine hist log) (hmine : mine request.pageId)
    (hread : request.type = .read →
      DiskManager.lastWrite (DiskRequest.calls log) request.pageId ≠ none) (i : ℕ)
    {hist' : List ClientEvent} (hothers : others hist' = others hist) :
    Logged mine hist' (log ++ [(some i, request)]) where
  reads := h.reads.concat hread
  apart := by
    intro m hm hnone
    obtain hm | hm := List.mem_append.mp hm
    · exact h.apart m hm hnone
    · obtain rfl := List.mem_singleton.mp hm
      simp at hnone
  written := by
    intro p hp
    have hne : p ≠ request.pageId := fun heq => hp (heq ▸ hmine)
    rw [DiskManager.calls_concat, DiskManager.lastWrite_call_of_ne hne, hothers, h.written p hp]

/-! ### The client on its own disk -/

/-- The client is served its next request, whatever the others have asked for
since. -/
theorem Alone.next (h : Alone fault mine client dm log (.cmd (.request request) k))
    {after : List (Option ℕ × DiskRequest)} {c : Option ℕ}
    (hafter : ∀ m ∈ after, ¬mine m.2.pageId) :
    Alone fault mine client dm (log ++ (c, request) :: after)
      (k (request.reply (DiskRequest.calls log))) := by
  obtain ⟨alone, hs, hp, hcont, hrun, ⟨hmine, hread⟩, hrest⟩ := h
  obtain ⟨alone', hserve, hs', hp', hcont'⟩ :=
    DiskManager.serve_reply hs hp (hcont request.pageId hmine) hread
  have hanswer : DiskManager.answer fault _ (.request request) alone =
      .ok (request.reply (DiskRequest.calls log), alone') :=
    congrArg (Except.mapError fault) hserve
  refine ⟨alone', hs', hp', fun p hmine' => ?_, ?_, hrest _ _ hanswer⟩
  · rw [← List.singleton_append, ← List.append_assoc, DiskManager.lastWrite_append,
      DiskManager.calls_concat]
    · exact hcont' p (hcont p hmine')
    · intro m hm heq
      exact hafter m hm (heq ▸ hmine')
  · rw [hrun, Prog.run, hanswer]

/-! ### One event -/

theorem new_serving (htracks : DiskManager.Tracks [] dm)
    (hkeeps : client.Along (DiskManager.answer fault) (KeepsTo mine) dm) :
    (new client dm).Serving fault mine client dm [] [] [] where
  scheduler := DiskScheduler.new_serving htracks.1
  dropped := rfl
  logged := ⟨trivial, fun _ hm => absurd hm List.not_mem_nil, fun _ _ => rfl⟩
  ready := fun _ => ⟨rfl, rfl, dm, htracks.1, htracks.2.1, fun p _ => htracks.2.2 p, rfl, hkeeps⟩
  pending := fun h => absurd h Bool.false_ne_true

theorem step_send (h : step fault .send s = some s') :
    ∃ request k, s.client = .cmd (.request request) k ∧ s.blocked = false := by
  rw [step] at h
  split at h
  · next request k hclient hready => exact ⟨request, k, hclient, hready⟩
  · simp at h

/-- The client schedules its next request. -/
theorem Serving.send (h : s.Serving fault mine client dm hist served waiting)
    (hclient : s.client = .cmd (.request request) k) (hready : s.blocked = false) :
    ∃ s', step fault .send s = some s' ∧
      s'.Serving fault mine client dm (.send :: hist) served (waiting ++ [(some s.sent, request)]) ∧
      s'.client = s.client ∧ s'.blocked = true := by
  obtain ⟨-, hsent, halone⟩ := h.ready hready
  obtain ⟨scheduler, hstep, hserving, hdrop⟩ :=
    h.scheduler.schedule h.dropped (some s.sent, request)
  have hnext := halone
  rw [hclient] at hnext
  obtain ⟨alone, -, -, hcont, -, ⟨hmine, hread⟩, -⟩ := hnext
  refine ⟨{ s with blocked := true, scheduler }, ?_, ⟨hserving, hdrop, ?_,
    fun hfalse => absurd hfalse.symm Bool.false_ne_true, fun _ => ?_⟩, rfl, rfl⟩
  · simp only [step, hclient, hready]
    rw [hstep]
    rfl
  · have hwritten : request.type = .read →
        DiskManager.lastWrite (DiskRequest.calls (served ++ waiting)) request.pageId ≠ none := by
      rw [← hcont _ hmine]
      exact hread
    rw [← List.append_assoc]
    exact h.logged.send hmine hwritten s.sent rfl
  · exact ⟨served ++ waiting, request, [], k, by rw [List.append_assoc], hsent, rfl, hclient,
      halone⟩

/-- A request of another client is accepted. -/
theorem Serving.other (h : s.Serving fault mine client dm hist served waiting)
    (hmine : ¬mine request.pageId)
    (hread : request.type = .read →
      DiskManager.lastWrite (others hist) request.pageId ≠ none) :
    ∃ s', step fault (.other request) s = some s' ∧
      s'.Serving fault mine client dm (.other request :: hist) served
        (waiting ++ [(none, request)]) := by
  obtain ⟨scheduler, hstep, hserving, hdrop⟩ := h.scheduler.schedule h.dropped (none, request)
  have hfilter : ∀ log : List (Option ℕ × DiskRequest),
      (log ++ [(none, request)]).filterMap Prod.fst = log.filterMap Prod.fst := by
    intro log
    rw [List.filterMap_append]
    exact List.append_nil _
  refine ⟨{ s with scheduler }, ?_, hserving, hdrop, ?_, fun hready => ?_, fun hpending => ?_⟩
  · rw [step, hstep]
    rfl
  · rw [← List.append_assoc]
    exact h.logged.other hmine hread
  · obtain ⟨hwaiting, hsent, alone, hs, hp, hcont, hrest⟩ := h.ready hready
    rw [hfilter, ← List.append_assoc, hfilter]
    refine ⟨hwaiting, hsent, alone, hs, hp, fun p hp => ?_, hrest⟩
    rw [DiskManager.lastWrite_append]
    · exact hcont p hp
    · intro m hm heq
      obtain rfl := List.mem_singleton.mp hm
      exact hmine (heq ▸ hp)
  · obtain ⟨before, request', after, k, hlog, hbefore, hafter, hclient, halone⟩ :=
      h.pending hpending
    refine ⟨before, request', after ++ [(none, request)], k, ?_, hbefore, ?_, hclient, halone⟩
    · rw [← List.append_assoc, hlog, List.append_assoc, List.cons_append]
    · rw [hfilter]
      exact hafter

/-- A turn of the worker. -/
theorem Serving.work {m : Option ℕ × DiskRequest}
    (h : s.Serving fault mine client dm hist served (m :: waiting)) :
    ∃ s', step fault .work s = some s' ∧
      s'.Serving fault mine client dm (.work :: hist) (served ++ [m]) waiting ∧
      s'.client = s.client ∧ s'.blocked = s.blocked := by
  obtain ⟨scheduler, hstep, hserving, hdrop⟩ := h.scheduler.work_open h.dropped
  have hlog : served ++ [m] ++ waiting = served ++ m :: waiting := by
    rw [List.append_assoc, List.singleton_append]
  refine ⟨{ s with scheduler }, ?_, ⟨hserving, hdrop, ?_, fun hready => ?_, fun hpending => ?_⟩,
    rfl, rfl⟩
  · rw [step, hstep]
    rfl
  · rw [hlog]
    exact ⟨h.logged.reads, h.logged.apart, h.logged.written⟩
  · obtain ⟨hwaiting, hrest⟩ := h.ready hready
    rw [hlog]
    refine ⟨?_, hrest⟩
    rw [List.filterMap_cons] at hwaiting
    split at hwaiting
    · exact hwaiting
    · exact absurd hwaiting (List.cons_ne_nil _ _)
  · rw [hlog]
    exact h.pending hpending

/-- The reply the client waits for is the one it would get alone, and it is on
its channel once the worker has come to the request. -/
theorem Serving.recv_cases (h : s.Serving fault mine client dm hist served waiting)
    (htracks : DiskManager.Tracks [] dm) (hpending : s.blocked = true) :
    ∃ before request after k, served ++ waiting = before ++ (some s.sent, request) :: after ∧
      before.filterMap Prod.fst = List.range s.sent ∧ after.filterMap Prod.fst = [] ∧
      s.client = .cmd (.request request) k ∧ Alone fault mine client dm before s.client ∧
      ((∃ done, served = before ++ (some s.sent, request) :: done ∧ after = done ++ waiting ∧
          s.scheduler.replies.lookup (some s.sent) =
            some (request.reply (DiskRequest.calls before))) ∨
        (some s.sent, request) ∈ waiting ∧ s.scheduler.replies.lookup (some s.sent) = none) := by
  obtain ⟨before, request, after, k, hlog, hbefore, hafter, hclient, halone⟩ :=
    h.pending hpending
  refine ⟨before, request, after, k, hlog, hbefore, hafter, hclient, halone, ?_⟩
  have hnew : ∀ m ∈ before, m.1 ≠ some s.sent := by
    intro m hm heq
    have hmem : s.sent ∈ before.filterMap Prod.fst := List.mem_filterMap.mpr ⟨m, hm, heq⟩
    rw [hbefore] at hmem
    exact List.not_mem_range_self hmem
  have hnone : ∀ {served' : List (Option ℕ × DiskRequest)}, (∀ m ∈ served', m ∈ before) →
      s.scheduler.replies.map Prod.fst = served'.map Prod.fst →
      s.scheduler.replies.lookup (some s.sent) = none := by
    intro served' hsub hfst
    rw [List.lookup_eq_none_iff]
    intro reply hreply
    have hmem : reply.1 ∈ served'.map Prod.fst := hfst ▸ List.mem_map_of_mem hreply
    obtain ⟨m, hm, heq⟩ := List.mem_map.mp hmem
    exact bne_iff_ne.mpr fun hsent => hnew m (hsub m hm) (heq.trans hsent.symm)
  obtain ⟨rest, rfl, rfl⟩ | ⟨rest, rfl, hsplit⟩ := List.append_eq_append_iff.mp hlog
  · -- the worker has yet to come to the request
    exact Or.inr ⟨List.mem_append_right _ List.mem_cons_self,
      hnone (fun m hm => List.mem_append_left _ hm) h.scheduler.replied⟩
  · cases rest with
    | nil =>
        rw [List.append_nil] at h
        rw [List.nil_append] at hsplit
        exact Or.inr ⟨hsplit ▸ List.mem_cons_self, hnone (fun m hm => hm) h.scheduler.replied⟩
    | cons m done =>
        obtain ⟨rfl, rfl⟩ := List.cons.inj hsplit
        refine Or.inl ⟨done, rfl, rfl, ?_⟩
        have hreads := h.logged.reads
        rw [List.map_append] at hreads
        obtain ⟨dm', hall, -⟩ := DiskManager.serveAll_tracks htracks hreads.of_append
        obtain ⟨hsnd, -⟩ := ok_pair_unique h.scheduler.onDisk hall
        have hlookup := DiskManager.lookup_answers hnew h.scheduler.replied hsnd
        rwa [List.append_nil] at hlookup

/-- Requests without a channel of the client are of others. -/
theorem apart_of_filterMap (hlogged : Logged mine hist log) {rest : List (Option ℕ × DiskRequest)}
    (hsub : ∀ m ∈ rest, m ∈ log) (hrest : rest.filterMap Prod.fst = []) :
    ∀ m ∈ rest, ¬mine m.2.pageId := by
  intro m hm
  exact hlogged.apart m (hsub m hm) (List.filterMap_eq_nil_iff.mp hrest m hm)

/-- `recv` returns the reply, or there is none yet. -/
theorem Serving.recv (h : s.Serving fault mine client dm hist served waiting)
    (htracks : DiskManager.Tracks [] dm) (hpending : s.blocked = true) :
    waiting ≠ [] ∧ step fault .recv s = none ∨ ∃ request k reply s',
      s.client = .cmd (.request request) k ∧ step fault .recv s = some s' ∧
        s'.Serving fault mine client dm (.recv :: hist) served waiting ∧ s'.client = k reply ∧
        s'.blocked = false := by
  obtain ⟨before, request, after, k, hlog, hbefore, hafter, hclient, halone, hcases⟩ :=
    h.recv_cases htracks hpending
  obtain ⟨done, hserved, rfl, hlookup⟩ | ⟨hwaiting, hlookup⟩ := hcases
  · right
    refine ⟨request, k, request.reply (DiskRequest.calls before),
      { s with client := k _, sent := s.sent + 1, blocked := false }, hclient, ?_,
      ⟨h.scheduler, h.dropped, ⟨h.logged.reads, h.logged.apart, h.logged.written⟩, fun _ => ?_,
        fun hfalse => absurd hfalse Bool.false_ne_true⟩, rfl, rfl⟩
    · simp only [step, hclient, hpending, hlookup]
    · have hapart := apart_of_filterMap h.logged (fun m hm => by
        rw [hlog]
        exact List.mem_append_right _ (List.mem_cons_of_mem _ hm)) hafter
      have hwaiting : waiting.filterMap Prod.fst = [] := by
        rw [List.filterMap_append] at hafter
        exact (List.append_eq_nil_iff.mp hafter).2
      refine ⟨hwaiting, ?_, ?_⟩
      · have hchannel : ((some s.sent, request) :: (done ++ waiting)).filterMap Prod.fst =
            [s.sent] := congrArg (s.sent :: ·) hafter
        rw [hlog, List.filterMap_append, hbefore, hchannel, List.range_succ]
      · rw [hclient] at halone
        rw [hlog]
        exact halone.next hapart
  · left
    obtain ⟨hrun, -⟩ := h.scheduler.channel_open h.dropped
    refine ⟨List.ne_nil_of_mem hwaiting, ?_⟩
    simp [step, hclient, hpending, hlookup, hrun]

/-- Every event keeps the invariant. -/
theorem step_serving {e : ClientEvent} (h : s.Serving fault mine client dm hist served waiting)
    (htracks : DiskManager.Tracks [] dm) (hothers : OthersApart mine hist e s)
    (hstep : step fault e s = some s') :
    ∃ served' waiting', s'.Serving fault mine client dm (e :: hist) served' waiting' := by
  cases e with
  | send =>
      obtain ⟨request, k, hclient, hready⟩ := step_send hstep
      obtain ⟨s₁, hstep₁, hserving, -⟩ := h.send hclient hready
      obtain rfl := Option.some.inj (hstep.symm.trans hstep₁)
      exact ⟨_, _, hserving⟩
  | recv =>
      cases hblocked : s.blocked with
      | false =>
          rw [step] at hstep
          split at hstep
          · next hpending => simp [hblocked] at hpending
          · simp at hstep
      | true =>
          obtain ⟨-, hnone⟩ | ⟨request, k, reply, s₁, -, hstep₁, hserving, -⟩ :=
            h.recv htracks hblocked
          · simp [hnone] at hstep
          · obtain rfl := Option.some.inj (hstep.symm.trans hstep₁)
            exact ⟨_, _, hserving⟩
  | other request =>
      obtain ⟨hmine, hread⟩ := hothers request rfl
      obtain ⟨s₁, hstep₁, hserving⟩ := h.other hmine hread
      obtain rfl := Option.some.inj (hstep.symm.trans hstep₁)
      exact ⟨_, _, hserving⟩
  | work =>
      cases waiting with
      | nil =>
          rw [step, h.scheduler.work_idle h.dropped] at hstep
          simp at hstep
      | cons m waiting =>
          obtain ⟨s₁, hstep₁, hserving, -⟩ := h.work
          obtain rfl := Option.some.inj (hstep.symm.trans hstep₁)
          exact ⟨_, _, hserving⟩

/-! ### The client comes to an end -/

/-- The worker empties the channel. -/
theorem Serving.drain : ∀ {s : SharedDisk E α} {hist served},
    s.Serving fault mine client dm hist served waiting →
      ∃ events s' hist' served', (∀ request, .other request ∉ events) ∧
        run (step fault) events s = some s' ∧ s'.Serving fault mine client dm hist' served' [] ∧
        s'.client = s.client ∧ s'.blocked = s.blocked := by
  induction waiting with
  | nil =>
      intro s hist served h
      exact ⟨[], s, hist, served, fun _ => List.not_mem_nil, rfl, h, rfl, rfl⟩
  | cons m waiting ih =>
      intro s hist served h
      obtain ⟨s₁, hstep, h₁, hclient, hblocked⟩ := h.work
      obtain ⟨events, s', hist', served', hours, hrun, h', hclient', hblocked'⟩ := ih h₁
      refine ⟨.work :: events, s', hist', served', fun request hmem => ?_, ?_, h',
        hclient'.trans hclient, hblocked'.trans hblocked⟩
      · obtain hmem | hmem := List.mem_cons.mp hmem
        · simp at hmem
        · exact hours request hmem
      · rw [run_cons, hstep]
        exact hrun

/-- A client that waits gets its reply from the worker. -/
theorem Serving.unblock (h : s.Serving fault mine client dm hist served waiting)
    (htracks : DiskManager.Tracks [] dm) (hpending : s.blocked = true) :
    ∃ events s' hist' served' waiting' request k reply,
      (∀ request, .other request ∉ events) ∧ run (step fault) events s = some s' ∧
        s'.Serving fault mine client dm hist' served' waiting' ∧
        s.client = .cmd (.request request) k ∧ s'.client = k reply ∧ s'.blocked = false := by
  obtain ⟨events, s₁, hist₁, served₁, hours, hrun, h₁, hclient, hblocked⟩ := h.drain
  obtain ⟨hne, -⟩ | ⟨request, k, reply, s₂, hclient₁, hstep, h₂, hclient₂, hblocked₂⟩ :=
    h₁.recv htracks (hblocked.trans hpending)
  · exact absurd rfl hne
  · refine ⟨events ++ [.recv], s₂, _, _, _, request, k, reply, fun request hmem => ?_, ?_, h₂,
      hclient.symm.trans hclient₁, hclient₂, hblocked₂⟩
    · obtain hmem | hmem := List.mem_append.mp hmem
      · exact hours request hmem
      · simp at hmem
    · rw [run_append, hrun]
      simp [hstep]

/-! ### Where the client ends -/

theorem Serving.ready_of_ended (h : s.Serving fault mine client dm hist served waiting)
    {rest : DiskProg E α} (hclient : s.client = rest)
    (hended : ∀ request k, rest ≠ .cmd (.request request) k) : s.blocked = false := by
  cases hblocked : s.blocked with
  | false => rfl
  | true =>
      obtain ⟨-, request, -, k, -, -, -, hcmd, -⟩ := h.pending hblocked
      exact absurd (hclient.symm.trans hcmd) (hended request k)

theorem Serving.returns (h : s.Serving fault mine client dm hist served waiting)
    (htracks : DiskManager.Tracks [] dm) {a : α} (hclient : s.client = .ret a) :
    ∃ alone, client.run (DiskManager.answer fault) dm = .ok (a, alone) ∧
      ∀ p, mine p → s.scheduler.diskManager.contents p = alone.contents p := by
  obtain ⟨hwaiting, -, alone, -, -, hcont, hrun, -⟩ :=
    h.ready (h.ready_of_ended hclient fun _ _ hcmd => by cases hcmd)
  rw [hclient] at hrun
  refine ⟨alone, hrun, fun p hp => ?_⟩
  have hreads := h.logged.reads
  rw [List.map_append] at hreads
  obtain ⟨dm', hall, -, -, hdisk⟩ := DiskManager.serveAll_tracks htracks hreads.of_append
  obtain ⟨-, rfl⟩ := ok_pair_unique h.scheduler.onDisk hall
  have hapart := apart_of_filterMap h.logged
    (fun m hm => List.mem_append_right served hm) hwaiting
  rw [hcont p hp, DiskManager.lastWrite_append fun m hm heq => hapart m hm (heq ▸ hp), hdisk,
    List.append_nil, List.map_map]
  rfl

theorem Serving.panics (h : s.Serving fault mine client dm hist served waiting) {e : E}
    (hclient : s.client = .fail e) :
    client.run (DiskManager.answer fault) dm = .error e := by
  obtain ⟨-, -, alone, -, -, -, hrun, -⟩ :=
    h.ready (h.ready_of_ended hclient fun _ _ hcmd => by cases hcmd)
  rwa [hclient] at hrun

/-- The rest of the client, request by request. -/
theorem Serving.finish (htracks : DiskManager.Tracks [] dm) (rest : DiskProg E α) :
    ∀ {s : SharedDisk E α} {hist served waiting},
      s.Serving fault mine client dm hist served waiting → s.client = rest → s.blocked = false →
      ∃ events s', (∀ request, .other request ∉ events) ∧ run (step fault) events s = some s' ∧
        s'.EndsAlone fault client dm := by
  induction rest with
  | ret a =>
      intro s hist served waiting h hclient _
      obtain ⟨alone, hrun, -⟩ := h.returns htracks hclient
      exact ⟨[], s, fun _ => List.not_mem_nil, rfl, Or.inl ⟨a, alone, hclient, hrun⟩⟩
  | fail e =>
      intro s hist served waiting h hclient _
      exact ⟨[], s, fun _ => List.not_mem_nil, rfl, Or.inr ⟨e, hclient, h.panics hclient⟩⟩
  | cmd c k ih =>
      intro s hist served waiting h hclient hready
      obtain ⟨request⟩ := c
      obtain ⟨s₁, hstep, h₁, hclient₁, hpending⟩ := h.send hclient hready
      obtain ⟨events₁, s₂, hist₂, served₂, waiting₂, request', k', reply, hours₁, hrun₁, h₂,
        hclient₁', hclient₂, hready₂⟩ := h₁.unblock htracks hpending
      obtain ⟨-, -, hk⟩ := Prog.cmd.inj ((hclient₁.trans hclient).symm.trans hclient₁')
      obtain rfl := eq_of_heq hk
      obtain ⟨events₂, s', hours₂, hrun₂, hend⟩ := ih reply h₂ hclient₂ hready₂
      refine ⟨.send :: (events₁ ++ events₂), s', fun request hmem => ?_, ?_, hend⟩
      · obtain hmem | hmem := List.mem_cons.mp hmem
        · simp at hmem
        · obtain hmem | hmem := List.mem_append.mp hmem
          · exact hours₁ request hmem
          · exact hours₂ request hmem
      · rw [run_cons, hstep, Option.bind_some, run_append, hrun₁]
        exact hrun₂

theorem Serving.servedAlone (h : s.Serving fault mine client dm hist served waiting)
    (htracks : DiskManager.Tracks [] dm) : s.ServedAlone fault mine client dm where
  returns := fun _ => h.returns htracks
  panics := fun _ => h.panics
  ends := by
    cases hblocked : s.blocked with
    | false => exact Serving.finish htracks s.client h rfl hblocked
    | true =>
        obtain ⟨events₁, s₁, _, _, _, _, k, reply, hours₁, hrun₁, h₁, -, hclient₁, hready₁⟩ :=
          h.unblock htracks hblocked
        obtain ⟨events₂, s', hours₂, hrun₂, hend⟩ :=
          Serving.finish htracks (k reply) h₁ hclient₁ hready₁
        refine ⟨events₁ ++ events₂, s', fun request hmem => ?_, ?_, hend⟩
        · obtain hmem | hmem := List.mem_append.mp hmem
          · exact hours₁ request hmem
          · exact hours₂ request hmem
        · rw [run_append, hrun₁]
          exact hrun₂

/-- The invariant holds throughout. -/
theorem serving_throughout (htracks : DiskManager.Tracks [] dm)
    (hkeeps : client.Along (DiskManager.answer fault) (KeepsTo mine) dm) {events : List ClientEvent}
    (hothers : Along (step fault) (OthersApart mine) [] events (new client dm)) :
    Throughout (step fault) (fun hist s => ∃ served waiting,
      Serving fault mine client dm hist served waiting s) [] events (new client dm) := by
  apply throughout_of_along _ ⟨[], [], new_serving htracks hkeeps⟩ hothers
  rintro hist e s s' ⟨served, waiting, h⟩ hothers hstep
  exact step_serving h htracks hothers hstep

end Serving

/-- **A client that waits for its replies has the disk to itself**, as far as
it can tell, whatever the interleaving with the worker and with clients that
keep to other pages; and it is not kept waiting. -/
theorem servedAlone_throughout (fault : Panic → E) (mine : PageId → Prop)
    (client : DiskProg E α) (dbFile : DbFile) (hf : dbFile.NoFaults) (dm : DiskManager)
    (hnew : DiskManager.new dbFile = .ok dm)
    (hkeeps : client.Along (DiskManager.answer fault) (KeepsTo mine) dm)
    (events : List ClientEvent)
    (hothers : Along (step fault) (OthersApart mine) [] events (new client dm)) :
    Throughout (step fault) (fun _ => ServedAlone fault mine client dm) [] events
      (new client dm) := by
  obtain rfl : DiskManager.fresh dbFile = dm := by
    simpa [DiskManager.new_eq_fresh hf] using hnew
  have htracks := DiskManager.fresh_tracks hf
  apply (serving_throughout htracks hkeeps hothers).mono
  rintro hist s ⟨served, waiting, h⟩
  exact h.servedAlone htracks

/-- A client that writes page 5 and reads it back, while somebody else writes
and deletes page 6. -/
theorem servedAlone_throughout_write_read :
    Throughout (step id)
      (fun _ => ServedAlone id (· = 5)
        (.cmd (.request ⟨.write, 5, .ofFn pageSize fun _ => 7⟩) fun _ =>
          .cmd (.request ⟨.read, 5, .zero _⟩) .ret) (.fresh DiskManager.blankFile)) []
      [.other ⟨.write, 6, .ofFn pageSize fun _ => 1⟩, .send, .other ⟨.delete, 6, .zero _⟩, .work,
        .work, .recv, .send, .work, .work, .recv]
      (new (.cmd (.request ⟨.write, 5, .ofFn pageSize fun _ => 7⟩) fun _ =>
        .cmd (.request ⟨.read, 5, .zero _⟩) .ret) (.fresh DiskManager.blankFile)) := by
  apply servedAlone_throughout id (· = 5) _ DiskManager.blankFile (fun _ => rfl) _
    (DiskManager.new_eq_fresh fun _ => rfl)
  · refine ⟨⟨rfl, by simp⟩, fun reply dm hanswer => ⟨⟨rfl, fun _ => ?_⟩, fun _ _ _ => trivial⟩⟩
    obtain ⟨hs, hp, -⟩ :=
      DiskManager.fresh_tracks (show DiskManager.blankFile.NoFaults from fun _ => rfl)
    obtain ⟨dm', hserve, -, -, hcont⟩ :=
      DiskManager.serve_write hs hp 5 (.ofFn pageSize fun _ => 7)
    have heq := hanswer.symm.trans (congrArg (Except.mapError id) hserve)
    obtain ⟨-, rfl⟩ := Prod.mk.inj (Except.ok.inj heq)
    rw [hcont, if_pos rfl]
    exact Option.some_ne_none _
  · apply Along.of_forall
    rintro e he hist s request rfl
    obtain rfl | rfl : request = ⟨.write, 6, .ofFn pageSize fun _ => 1⟩ ∨
        request = ⟨.delete, 6, .zero _⟩ := by simpa using he
    · exact ⟨by decide, by simp⟩
    · exact ⟨by decide, by simp⟩

end SharedDisk

end StorageEngine
