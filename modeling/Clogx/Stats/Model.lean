/-
# The write path of a logger and its statistics

`logger_writevprintf_internal` and `logger_write_kv_internal` of `core/log.c`,
from the level check to the dispatch.  For the counters the two are alike: the
total is counted, the rate limiter is asked, a suppression notice is written if
one is due, the message is written, and an error of `log_async_write_for` is
counted as a drop.

In async mode both writes are calls of `log_async_write_for` on the system of
`Clogx.Async.Model`, interleaved with the other threads and the worker; in sync
mode they are dispatches by the calling thread (`direct`).  The bucket of the
rate limiter enters as the answer it gives (`Act.limit`); what it counts under
its mutex is modelled.
-/

import Clogx.Async.Returns

namespace Clogx
namespace Stats

open SeqRing (Shape)

/-- What a run does not change: `config.level`, `config.async` and `rl_enabled`. -/
structure Config where
  level : ℤ
  async : Bool
  rlEnabled : Bool

/-- What is handed over: a message, or the notice that `suppressed` messages before it were
suppressed. -/
inductive Rec (ρ : Type*)
  | message (r : ρ)
  | notice (r : ρ) (suppressed : ℕ)
deriving DecidableEq

instance {ρ : Type*} [Inhabited ρ] : Inhabited (Rec ρ) := ⟨.message default⟩

def Rec.isMessage {ρ : Type*} : Rec ρ → Bool
  | .message _ => true
  | .notice _ _ => false

/-- `rl_suppressed_count` and `rl_total_suppressed`. -/
structure Limiter where
  suppressedCount : ℕ := 0
  totalSuppressed : ℕ := 0
deriving DecidableEq

/-- `log_rate_limit_allow_for`, the bucket having a token or not: whether the message may pass,
`*out_suppressed_count`, and the counters. -/
def logRateLimitAllowFor (cfg : Config) (l : Limiter) (token : Bool) : Bool × ℕ × Limiter :=
  if ¬cfg.rlEnabled then (true, 0, l)
  else if token then (true, l.suppressedCount, { l with suppressedCount := 0 })
  else (false, 0, ⟨l.suppressedCount + 1, l.totalSuppressed + 1⟩)

/-- Where a thread stands on the write path. -/
inductive Pc (ρ : Type*)
  | idle
  | countTotal (r : ρ)
  | limit (r : ρ)
  | notice (r : ρ) (suppressed : ℕ)
  | inNotice (r : ρ)
  | write (r : ρ)
  | inWrite
  | countDropped
deriving DecidableEq

/-- The counters of `logger_t`, the async path, and what was dispatched in sync mode. -/
structure State (ι ρ : Type*) where
  async : Async.State ι (Rec ρ)
  totalLogged : ℕ
  droppedQueueFull : ℕ
  rl : Limiter
  pc : ι → Pc ρ
  direct : List (Rec ρ)

/-- One step: a call of `log_writevprintf` or `log_write_kv` starts, a thread goes on with one, the
rate limiter answers, or something moves in the async path. -/
inductive Act (ι ρ : Type*)
  | log (t : ι) (level : ℤ) (r : ρ)
  | write (t : ι)
  | limit (t : ι) (token : Bool)
  | async (a : Async.Act ι (Rec ρ))

variable {ι ρ : Type*} [DecidableEq ι]

/-- A fresh logger. -/
def init [Inhabited ρ] (g : Shape) (junk : ℕ → Queue.Entry (Async.Call (Rec ρ))) : State ι ρ where
  async := Async.logAsyncInitFor g junk
  totalLogged := 0
  droppedQueueFull := 0
  rl := {}
  pc _ := .idle
  direct := []

def State.setPc (s : State ι ρ) (t : ι) (pc : Pc ρ) : State ι ρ :=
  { s with pc := Function.update s.pc t pc }

@[simp] theorem setPc_async (s : State ι ρ) (t : ι) (pc : Pc ρ) : (s.setPc t pc).async = s.async := rfl

@[simp] theorem setPc_totalLogged (s : State ι ρ) (t : ι) (pc : Pc ρ) :
    (s.setPc t pc).totalLogged = s.totalLogged := rfl

@[simp] theorem setPc_droppedQueueFull (s : State ι ρ) (t : ι) (pc : Pc ρ) :
    (s.setPc t pc).droppedQueueFull = s.droppedQueueFull := rfl

@[simp] theorem setPc_rl (s : State ι ρ) (t : ι) (pc : Pc ρ) : (s.setPc t pc).rl = s.rl := rfl

@[simp] theorem setPc_direct (s : State ι ρ) (t : ι) (pc : Pc ρ) :
    (s.setPc t pc).direct = s.direct := rfl

/-- What the last call returned. -/
def lastRet (l : List (Async.Event (Rec ρ))) : Option Async.Ret :=
  match l.getLast? with
  | some (.wrote _ ret) => some ret
  | _ => none

/-- The async path has moved to `a`; `t` comes back from its call if it has none any more. -/
def afterAsync (s : State ι ρ) (t : ι) (a : Async.State ι (Rec ρ)) : State ι ρ :=
  match a.write t, s.pc t with
  | .idle, .inNotice r => { s with async := a }.setPc t (.write r)
  | .idle, .inWrite =>
    { s with async := a }.setPc t (if lastRet a.events = some Async.Ret.ok then .idle else .countDropped)
  | _, _ => { s with async := a }

/-- The message passes the rate limiter or is suppressed. -/
def askLimiter (cfg : Config) (s : State ι ρ) (t : ι) (r : ρ) (token : Bool) : State ι ρ :=
  let (allowed, suppressed, rl) := logRateLimitAllowFor cfg s.rl token
  { s with rl := rl }.setPc t
    (if ¬allowed then .idle else if 0 < suppressed then .notice r suppressed else .write r)

variable [Inhabited ρ]

/-- The next operation of a thread on the write path. -/
def writePath (cfg : Config) (g : Shape) (s : State ι ρ) (t : ι) : Option (State ι ρ) :=
  match s.pc t with
  | .countTotal r => some ({ s with totalLogged := s.totalLogged + 1 }.setPc t (.limit r))
  | .notice r n =>
    if cfg.async then
      (Async.step g s.async (.log t (Rec.notice r n))).map fun a =>
        { s with async := a }.setPc t (.inNotice r)
    else some ({ s with direct := s.direct ++ [Rec.notice r n] }.setPc t (.write r))
  | .write r =>
    if cfg.async then
      (Async.step g s.async (.log t (Rec.message r))).map fun a =>
        { s with async := a }.setPc t .inWrite
    else some ({ s with direct := s.direct ++ [Rec.message r] }.setPc t .idle)
  | .countDropped =>
    some ({ s with droppedQueueFull := s.droppedQueueFull + 1 }.setPc t .idle)
  | _ => none

/-- One step; the queue is not shut down, and calls start only from the write path. -/
def step (cfg : Config) (g : Shape) (s : State ι ρ) : Act ι ρ → Option (State ι ρ)
  | .log t level r =>
    match s.pc t with
    | .idle => if level < cfg.level then some s else some (s.setPc t (.countTotal r))
    | _ => none
  | .write t => writePath cfg g s t
  | .limit t token =>
    match s.pc t with
    | .limit r => some (askLimiter cfg s t r token)
    | _ => none
  | .async a =>
    match a with
    | .log _ _ | .callShutdown => none
    | .write t | .cloneFails t | .giveUp t | .casMiss t =>
      (Async.step g s.async a).map (afterAsync s t)
    | _ => (Async.step g s.async a).map fun a => { s with async := a }

/-- No thread is on the write path. -/
def State.Quiet (s : State ι ρ) : Prop := ∀ t, s.pc t = .idle

/-- Nothing is left in the queue or in the worker's batch. -/
def State.Drained (s : State ι ρ) : Prop :=
  s.async.q.head = s.async.q.tail ∧ s.async.worker.busy = false

/-- How many messages were handed to `log_dispatcher_dispatch_for`. -/
def State.dispatched (s : State ι ρ) : ℕ :=
  s.async.events.countP (Async.Event.isDispatch fun c => c.record.isMessage) +
    s.direct.countP Rec.isMessage

/-- The statistics account for every message: it was suppressed, dropped or dispatched. -/
def State.Accounted (s : State ι ρ) : Prop :=
  s.totalLogged = s.rl.totalSuppressed + s.droppedQueueFull + s.dispatched

end Stats
end Clogx
