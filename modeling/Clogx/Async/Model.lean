/-
# The async path of a logger

`core/async.c`: producers in `log_async_write_for`, the worker thread in
`async_worker_for`, one thread in `log_async_shutdown_for` and one in
`log_async_flush_for`, all on the queue of `Clogx.Queue.Model`.

Each party is a program counter again.  Inside a queue function it makes the
steps of that function; the return of a queue function is part of its last
shared operation.  `log_dispatcher_dispatch_for` and `log_dispatcher_flush_for`
are single events of the log `events`, which also records each return of
`log_async_write_for` with its result.

A call of `log_async_write_for` is numbered when it starts (`Call.id`), so that
two calls with the same record stay apart; no step reads the number.
`log_record_clone` may fail for want of memory (`Act.cloneFails`).  The memory
of the queue stays allocated after `mpsc_queue_destroy`: what
`log_async_shutdown_for` takes away from the producers is the pointer
`logger->queue`, which each call reads twice.
-/

import Clogx.Queue.Delivery

namespace Clogx
namespace Async

open SeqRing (Shape)

/-- A call of `log_async_write_for`: its number and its record. -/
structure Call (ρ : Type*) where
  id : ℕ
  record : ρ
deriving DecidableEq

instance {ρ : Type*} [Inhabited ρ] : Inhabited (Call ρ) := ⟨⟨0, default⟩⟩

/-- What `log_async_write_for` returns: `CLOG_OK`, `CLOG_ERR_QUEUE_FULL` or
`CLOG_ERR_OOM`. -/
inductive Ret
  | ok
  | queueFull
  | oom
deriving DecidableEq

/-- What can be observed: a record passed to `log_dispatcher_dispatch_for`, by the
worker or by the caller; the sinks flushed, by the worker or by
`log_async_flush_for`; a call of `log_async_write_for` returned. -/
inductive Event (ρ : Type*)
  | dispatched (byWorker : Bool) (c : Call ρ)
  | flushed (byWorker : Bool)
  | wrote (c : Call ρ) (ret : Ret)
deriving DecidableEq

/-- Where a call of `log_async_write_for` stands. -/
inductive Write (ρ : Type*)
  | idle
  | checkQueue (c : Call ρ)
  | clone (c : Call ρ)
  | loadQueue (c : Call ρ)
  | tryPut (c : Call ρ)
  | dispatch (c : Call ρ) (ret : Ret)

/-- Where `async_worker_for` stands; `dispatching i` is at `batch[i]`. -/
inductive Worker
  | start
  | waiting
  | setProcessing
  | callGet
  | getting
  | dispatching (i : ℕ)
  | flushing
  | clearProcessing
  | exited
deriving DecidableEq

/-- Where `log_async_shutdown_for` stands. -/
inductive Shutdown
  | idle
  | check
  | closing
  | clearRunning
  | join
  | clearQueue
  | returned
deriving DecidableEq

/-- Where `log_async_flush_for` stands. -/
inductive Flush
  | idle
  | check
  | waiting
  | poll
  | flushing
  | returned
deriving DecidableEq

/-- `ASYNC_BATCH_SIZE`. -/
def asyncBatchSize : ℕ := 64

/-- The fields of `logger_t` the async path uses, its parties, and the history:
the observations, the number of calls begun, and what `head` and the
observations were when the last flush began. -/
structure State (ι ρ : Type*) where
  q : Queue.State ι (Call ρ)
  queueSet : Bool
  asyncRunning : Bool
  asyncProcessing : Bool
  write : ι → Write ρ
  worker : Worker
  shutdown : Shutdown
  flush : Flush
  events : List (Event ρ)
  calls : ℕ
  mark : ℕ
  marked : List (Event ρ)

/-- One step of one party. -/
inductive Act (ι ρ : Type*)
  | log (t : ι) (r : ρ)
  | write (t : ι)
  | cloneFails (t : ι)
  | giveUp (t : ι)
  | casMiss (t : ι)
  | work
  | callShutdown
  | shutdown
  | callFlush
  | flush
  | spurious

variable {ι ρ : Type*} [DecidableEq ι] [Inhabited ρ]

/-- `log_async_init_for`: a fresh queue and a worker about to start. -/
def logAsyncInitFor (g : Shape) (junk : ℕ → Queue.Entry (Call ρ)) : State ι ρ where
  q := Queue.mpscQueueCreate g junk
  queueSet := true
  asyncRunning := true
  asyncProcessing := false
  write _ := .idle
  worker := .start
  shutdown := .idle
  flush := .idle
  events := []
  calls := 0
  mark := 0
  marked := []

/-- Thread `t` goes to `pc`. -/
def State.setWrite (s : State ι ρ) (t : ι) (pc : Write ρ) : State ι ρ :=
  { s with write := Function.update s.write t pc }

/-- Something is observed. -/
def State.emit (s : State ι ρ) (es : List (Event ρ)) : State ι ρ :=
  { s with events := s.events ++ es }

/-- `t` goes on in `mpsc_queue_try_put`, or comes back from it. -/
def afterPut (s : State ι ρ) (t : ι) (c : Call ρ) (q : Queue.State ι (Call ρ)) : State ι ρ :=
  match q.put t with
  | .returned ret =>
    if ret ≠ 0 then { s with q := q }.setWrite t (.dispatch c .queueFull)
    else ({ s with q := q }.emit [.wrote c .ok]).setWrite t .idle
  | _ => { s with q := q }

/-- `log_async_write_for`. -/
def logAsyncWriteFor (g : Shape) (s : State ι ρ) (t : ι) : Option (State ι ρ) :=
  match s.write t with
  | .idle => none
  | .checkQueue c =>
    if s.queueSet then some (s.setWrite t (.clone c))
    else some (s.setWrite t (.dispatch c .queueFull))
  | .clone c => some (s.setWrite t (.loadQueue c))
  | .loadQueue c =>
    if s.queueSet then
      (Queue.step g s.q (.call t c)).map fun q => { s with q := q }.setWrite t (.tryPut c)
    else some (s.setWrite t (.dispatch c .queueFull))
  | .tryPut c => (Queue.step g s.q (.put t)).map (afterPut s t c)
  | .dispatch c ret =>
    some ((s.emit [.dispatched false c, .wrote c ret]).setWrite t .idle)

/-- `log_record_clone` returns `-1`. -/
def cloneFails (s : State ι ρ) (t : ι) : Option (State ι ρ) :=
  match s.write t with
  | .clone c => some (s.setWrite t (.dispatch c .oom))
  | _ => none

/-- A choice inside `mpsc_queue_try_put`: to time out, or a failing
compare-exchange. -/
def insidePut (g : Shape) (s : State ι ρ) (t : ι) (a : Queue.Act ι (Call ρ)) :
    Option (State ι ρ) :=
  match s.write t with
  | .tryPut c => (Queue.step g s.q a).map (afterPut s t c)
  | _ => none

/-- `async_worker_for`. -/
def asyncWorkerFor (g : Shape) (s : State ι ρ) : Option (State ι ρ) :=
  match s.worker with
  | .start => (Queue.step g s.q .callWait).map fun q => { s with q := q, worker := .waiting }
  | .waiting =>
    match s.q.consumer with
    | .wait (.returned ret) =>
      if ret ≠ 0 then some { s with worker := .exited }
      else some { s with worker := .setProcessing }
    | _ => (Queue.step g s.q .consume).map fun q => { s with q := q }
  | .setProcessing => some { s with asyncProcessing := true, worker := .callGet }
  | .callGet =>
    (Queue.step g s.q (.callGet asyncBatchSize)).map fun q => { s with q := q, worker := .getting }
  | .getting =>
    match s.q.consumer with
    | .get (.returned _) => some { s with worker := .dispatching 0 }
    | _ => (Queue.step g s.q .consume).map fun q => { s with q := q }
  | .dispatching i =>
    match s.q.records[i]? with
    | some e =>
      if e.isTombstone then some { s with worker := .dispatching (i + 1) }
      else some { s.emit [.dispatched true e.body] with worker := .dispatching (i + 1) }
    | none => some { s with worker := if i = 0 then .clearProcessing else .flushing }
  | .flushing =>
    some { s.emit [.flushed true] with worker := .clearProcessing }
  | .clearProcessing => some { s with asyncProcessing := false, worker := .start }
  | .exited => none

/-- `log_async_shutdown_for`. -/
def logAsyncShutdownFor (g : Shape) (s : State ι ρ) : Option (State ι ρ) :=
  match s.shutdown with
  | .idle | .returned => none
  | .check =>
    if s.asyncRunning ∧ s.queueSet then
      (Queue.step g s.q .callClose).map fun q => { s with q := q, shutdown := .closing }
    else some { s with shutdown := .returned }
  | .closing =>
    match s.q.closer with
    | .returned => some { s with shutdown := .clearRunning }
    | _ => (Queue.step g s.q .close).map fun q => { s with q := q }
  | .clearRunning => some { s with asyncRunning := false, shutdown := .join }
  | .join => if s.worker = .exited then some { s with shutdown := .clearQueue } else none
  | .clearQueue => some { s with queueSet := false, shutdown := .returned }

/-- `log_async_flush_for`. -/
def logAsyncFlushFor (g : Shape) (s : State ι ρ) : Option (State ι ρ) :=
  match s.flush with
  | .idle | .returned => none
  | .check =>
    if s.queueSet then
      (Queue.step g s.q .callWaitEmpty).map fun q => { s with q := q, flush := .waiting }
    else some { s with flush := .returned }
  | .waiting =>
    match s.q.waiter with
    | .returned => some { s with flush := .poll }
    | _ => (Queue.step g s.q .waitEmpty).map fun q => { s with q := q }
  | .poll => if s.asyncProcessing then some s else some { s with flush := .flushing }
  | .flushing => some { s.emit [.flushed false] with flush := .returned }

/-- One step of the system. -/
def step (g : Shape) (s : State ι ρ) : Act ι ρ → Option (State ι ρ)
  | .log t r =>
    match s.write t with
    | .idle => some ({ s with calls := s.calls + 1 }.setWrite t (.checkQueue ⟨s.calls, r⟩))
    | _ => none
  | .write t => logAsyncWriteFor g s t
  | .cloneFails t => cloneFails s t
  | .giveUp t => insidePut g s t (.giveUp t)
  | .casMiss t => insidePut g s t (.casMiss t)
  | .work => asyncWorkerFor g s
  | .callShutdown => if s.shutdown = .idle then some { s with shutdown := .check } else none
  | .shutdown => logAsyncShutdownFor g s
  | .callFlush =>
    if s.flush = .idle ∨ s.flush = .returned then
      some { s with flush := .check, mark := s.q.head, marked := s.events }
    else none
  | .flush => logAsyncFlushFor g s
  | .spurious => (Queue.step g s.q .spurious).map fun q => { s with q := q }

end Async
end Clogx
