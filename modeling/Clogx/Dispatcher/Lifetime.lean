/-
# The life of a sink

The array `logger->sinks` under `dispatcher_mutex`: any number of threads in
`log_dispatcher_dispatch_for`, `log_dispatcher_flush_for`,
`log_dispatcher_add_sink_for`, `log_dispatcher_remove_sink_for`,
`log_dispatcher_destroy_for`, `log_dispatcher_init_for` and in a reload
(`log_dispatcher_build_snapshot_for`, `log_dispatcher_commit_snapshot_for`).
`Dispatcher.Build` says which sinks a configuration makes, and `Dispatcher.Lines`
what a dispatch writes to each; here the calls are interleaved, one step being
one operation on the mutex, one call of a sink, or one change of the array.

A sink is destroyed by `sink->destroy`, and from then on it may be neither used nor
destroyed.  `fault` is raised when that happens.  A commit destroys the old sinks after it has
unlocked the mutex, and a reload works on sinks that no other thread knows.
-/

import Clogx.Machine.Run

namespace Clogx
namespace Dispatcher

open Machine

/-- Where a thread is.  `ρ` are the records and `σ` the sinks. -/
inductive Pc (ρ σ : Type*)
  | idle
  /-- `log_dispatcher_dispatch_for`: before the lock, and at write `j` of `sinks[i]`. -/
  | dispatchLock (record : ρ)
  | dispatchLoop (record : ρ) (i j : ℕ)
  /-- `log_dispatcher_flush_for`. -/
  | flushLock
  | flushLoop (i : ℕ)
  /-- `log_dispatcher_add_sink_for`. -/
  | addLock (sink : σ)
  | addRealloc (sink : σ)
  /-- `log_dispatcher_remove_sink_for`. -/
  | removeLock (sink : σ)
  | removeLoop (sink : σ)
  /-- `log_dispatcher_commit_snapshot_for`. -/
  | commitLock (snap : List σ)
  | commitSwap (snap : List σ)
  | commitUnlock (old : List σ)
  /-- The loop that destroys sinks without the mutex: the old ones of a commit, or those of a
  snapshot whose array could not be allocated. -/
  | destroyEach (sinks : List σ)
  /-- `log_dispatcher_destroy_for`; `next` is what `log_dispatcher_init_for` installs behind it. -/
  | destroyLock (next : List σ)
  | destroyLoop (i : ℕ) (next : List σ)
  /-- The end of `log_dispatcher_init_for`, and the loop there if `malloc` fails. -/
  | installLock (sinks : List σ)
  | installMalloc (sinks : List σ)
  | installFails (sinks : List σ)
  | unlock
  deriving DecidableEq

/-- The logger, the threads, and what became of the sinks.  `made` are all that exist, `owned` those
of the application, `lost` those that nobody has any more; `writes` and `rounds` are history: the
writes of all sinks, and for each dispatch the array when it took the mutex. -/
structure State (ι ρ σ ω : Type*) where
  mutex : Option ι
  sinks : List σ
  pc : ι → Pc ρ σ
  made : List σ
  owned : List σ
  destroyed : List σ
  lost : List σ
  fault : Bool
  writes : List (σ × ω)
  rounds : List (ρ × List σ)

/-- A call begins, the application makes or destroys a sink of its own, or a thread takes its next
step; `ok` is what `malloc` or `realloc` answers if the step asks it. -/
inductive Act (ι ρ σ : Type*)
  | dispatch (t : ι) (record : ρ)
  | flush (t : ι)
  | addSink (t : ι) (sink : σ)
  | removeSink (t : ι) (sink : σ)
  | reload (t : ι) (sinks : List σ) (ok : Bool)
  | init (t : ι) (sinks dropped : List σ)
  | destroy (t : ι)
  | make (sink : σ)
  | drop (sink : σ)
  | step (t : ι) (ok : Bool)

variable {ι ρ σ ω : Type*} [DecidableEq ι] [DecidableEq σ]

/-- A logger without sinks. -/
def State.start : State ι ρ σ ω where
  mutex := none
  sinks := []
  pc _ := .idle
  made := []
  owned := []
  destroyed := []
  lost := []
  fault := false
  writes := []
  rounds := []

namespace State

variable (s : State ι ρ σ ω)

/-- Thread `t` goes to `p`. -/
def goto (t : ι) (p : Pc ρ σ) : State ι ρ σ ω := { s with pc := Function.update s.pc t p }

/-- `clog_mutex_lock`. -/
def lock (t : ι) (p : Pc ρ σ) : Option (State ι ρ σ ω) :=
  if s.mutex = none then some ({ s with mutex := some t }.goto t p) else none

/-- `clog_mutex_unlock`. -/
def unlock (t : ι) (p : Pc ρ σ) : State ι ρ σ ω := { s with mutex := none }.goto t p

/-- `sink->write` or `sink->flush` is called. -/
def use (sink : σ) : State ι ρ σ ω := { s with fault := s.fault || decide (sink ∈ s.destroyed) }

/-- `sink->destroy` is called. -/
def destroySink (sink : σ) : State ι ρ σ ω :=
  { s.use sink with destroyed := s.destroyed ++ [sink] }

end State

/-- The next step of thread `t`.  `chunks record sink` are the writes of a record to a sink, none if
the sink does not take records of its level. -/
def threadStep (chunks : ρ → σ → List ω) (s : State ι ρ σ ω) (t : ι) (ok : Bool) :
    Option (State ι ρ σ ω) :=
  match s.pc t with
  | .idle => none
  | .dispatchLock record =>
    { s with rounds := s.rounds ++ [(record, s.sinks)] }.lock t (.dispatchLoop record 0 0)
  | .dispatchLoop record i j =>
    match s.sinks[i]? with
    | none => some (s.unlock t .idle)
    | some sink =>
      match (chunks record sink)[j]? with
      | none => some (s.goto t (.dispatchLoop record (i + 1) 0))
      | some w =>
        some ({ s.use sink with writes := s.writes ++ [(sink, w)] }.goto t
          (.dispatchLoop record i (j + 1)))
  | .flushLock => s.lock t (.flushLoop 0)
  | .flushLoop i =>
    match s.sinks[i]? with
    | none => some (s.unlock t .idle)
    | some sink => some ((s.use sink).goto t (.flushLoop (i + 1)))
  | .addLock sink => s.lock t (.addRealloc sink)
  | .addRealloc sink =>
    if ok then some ({ s with sinks := s.sinks ++ [sink] }.goto t .unlock)
    else some ({ s with owned := s.owned ++ [sink] }.goto t .unlock)
  | .removeLock sink => s.lock t (.removeLoop sink)
  | .removeLoop sink =>
    if sink ∈ s.sinks then
      some ({ s with sinks := s.sinks.erase sink, owned := s.owned ++ [sink] }.goto t .unlock)
    else some (s.goto t .unlock)
  | .commitLock snap => s.lock t (.commitSwap snap)
  | .commitSwap snap => some ({ s with sinks := snap }.goto t (.commitUnlock s.sinks))
  | .commitUnlock old => some (s.unlock t (.destroyEach old))
  | .destroyEach [] => some (s.goto t .idle)
  | .destroyEach (sink :: sinks) => some ((s.destroySink sink).goto t (.destroyEach sinks))
  | .destroyLock next => s.lock t (.destroyLoop 0 next)
  | .destroyLoop i next =>
    match s.sinks[i]? with
    | none =>
      some ({ s with sinks := [] }.unlock t (if next = [] then .idle else .installLock next))
    | some sink => some ((s.destroySink sink).goto t (.destroyLoop (i + 1) next))
  | .installLock sinks => s.lock t (.installMalloc sinks)
  | .installMalloc sinks =>
    -- what another thread has added since the array was emptied is overwritten; if `malloc` fails,
    -- `sink_count` counts it while `sinks` is `NULL`
    if ok then some ({ s with sinks := sinks, lost := s.lost ++ s.sinks }.goto t .unlock)
    else
      some ({ s with
        sinks := []
        lost := s.lost ++ s.sinks
        fault := s.fault || decide (s.sinks ≠ []) }.goto t (.installFails sinks))
  | .installFails [] => some (s.unlock t .idle)
  | .installFails (sink :: sinks) => some ((s.destroySink sink).goto t (.installFails sinks))
  | .unlock => some (s.unlock t .idle)

/-- The factories return new sinks. -/
def Fresh (s : State ι ρ σ ω) (sinks : List σ) : Prop := (s.made ++ sinks).Nodup

instance (s : State ι ρ σ ω) (sinks : List σ) : Decidable (Fresh s sinks) :=
  inferInstanceAs (Decidable (List.Nodup _))

/-- A call begins: thread `t` is not in another one. -/
def begin (s : State ι ρ σ ω) (t : ι) (p : Pc ρ σ) : Option (State ι ρ σ ω) :=
  match s.pc t with
  | .idle => some (s.goto t p)
  | _ => none

/-- One step. -/
def step (chunks : ρ → σ → List ω) (s : State ι ρ σ ω) : Act ι ρ σ → Option (State ι ρ σ ω)
  | .dispatch t record => begin s t (.dispatchLock record)
  | .flush t => begin s t .flushLock
  | .addSink t sink => begin { s with owned := s.owned.erase sink } t (.addLock sink)
  | .removeSink t sink => begin s t (.removeLock sink)
  | .reload t sinks ok =>
    if Fresh s sinks then
      begin { s with made := s.made ++ sinks } t
        (if sinks = [] then .idle else if ok then .commitLock sinks else .destroyEach sinks)
    else none
  | .init t sinks dropped =>
    if Fresh s (sinks ++ dropped) then
      begin { s with made := s.made ++ (sinks ++ dropped), lost := s.lost ++ dropped } t
        (if sinks = [] then .idle else .destroyLock sinks)
    else none
  | .destroy t => begin s t (.destroyLock [])
  | .make sink =>
    if Fresh s [sink] then
      some { s with made := s.made ++ [sink], owned := s.owned ++ [sink] }
    else none
  | .drop sink => some { s.destroySink sink with owned := s.owned.erase sink }
  | .step t ok => threadStep chunks s t ok

/-- The thread is about to store the array of `log_dispatcher_init_for`. -/
def Pc.installs : Pc ρ σ → Bool
  | .installMalloc _ => true
  | _ => false

/-- **What the callers keep to.**  A sink that is added, or destroyed by the application, is the
application's own; and where the array of an initialisation cannot be allocated, no thread has added
a sink since the old ones were destroyed. -/
def Keeps (s : State ι ρ σ ω) : Act ι ρ σ → Prop
  | .addSink _ sink => sink ∈ s.owned
  | .drop sink => sink ∈ s.owned
  | .step t ok => (s.pc t).installs = true → ok = false → s.sinks = []
  | _ => True

/-- And nothing is lost: an initialisation makes no more sinks than its array holds, and no thread
adds one while it runs. -/
def Tidy (s : State ι ρ σ ω) : Act ι ρ σ → Prop
  | .addSink _ sink => sink ∈ s.owned
  | .drop sink => sink ∈ s.owned
  | .init _ _ dropped => dropped = []
  | .step t _ => (s.pc t).installs = true → s.sinks = []
  | _ => True

instance (s : State ι ρ σ ω) : (a : Act ι ρ σ) → Decidable (Keeps s a)
  | .addSink _ sink => inferInstanceAs (Decidable (sink ∈ s.owned))
  | .drop sink => inferInstanceAs (Decidable (sink ∈ s.owned))
  | .step t ok => inferInstanceAs (Decidable ((s.pc t).installs = true → ok = false → s.sinks = []))
  | .dispatch .. | .flush _ | .removeSink .. | .reload .. | .init .. | .destroy _ | .make _ =>
    inferInstanceAs (Decidable True)

instance (s : State ι ρ σ ω) : (a : Act ι ρ σ) → Decidable (Tidy s a)
  | .addSink _ sink => inferInstanceAs (Decidable (sink ∈ s.owned))
  | .drop sink => inferInstanceAs (Decidable (sink ∈ s.owned))
  | .init _ _ dropped => inferInstanceAs (Decidable (dropped = []))
  | .step t _ => inferInstanceAs (Decidable ((s.pc t).installs = true → s.sinks = []))
  | .dispatch .. | .flush _ | .removeSink .. | .reload .. | .destroy _ | .make _ =>
    inferInstanceAs (Decidable True)

end Dispatcher
end Clogx
