/-
# Shutdown

Producers log while `log_async_shutdown_for` closes the queue and joins the
worker.  What has to hold when the worker is gone is `Accounted`: the ring is
empty, a call that returned `CLOG_OK` was dispatched once by the worker, and a
call that returned an error once by its caller.

`mpsc_queue_try_put` looks at `closed` once, at its start, and claims its
position several operations later; `mpsc_queue_wait_for_items` reads `head`,
`tail` and `closed` one after the other.  So a claim can come after the last
look of the worker.  In every run in which none does (`clean`), the account is
right.
-/

import Clogx.Async.Calls

namespace Clogx
namespace Queue

open SeqRing (Shape)

variable {ι ρ : Type*}

/-- The next operation is the load of `closed` that ends the worker's loop. -/
def Consumer.readsClosed : Consumer → Bool
  | .wait .loadClosed | .wait .reloadClosed => true
  | _ => false

/-- `mpsc_queue_wait_for_items` has seen `closed`, and is about to return `-1` or has
returned it. -/
def Consumer.leaving : Consumer → Bool
  | .wait (.unpark ret) | .wait (.returned ret) => ret ≠ 0
  | _ => false

variable [DecidableEq ι] [Inhabited ρ] {g : Shape} {s s' : State ι ρ}

omit [DecidableEq ι] [Inhabited ρ] in
/-- The worker leaves only after it has seen `closed`. -/
theorem leaving_waitForItems {pc : WaitForItems} (hc : s.consumer = .wait pc)
    (hs : mpscQueueWaitForItems s pc = some s') (hl : s'.consumer.leaving = true) :
    s.consumer.leaving = true ∨ s.consumer.readsClosed = true ∧ s.closed = true := by
  rw [hc]
  cases pc with
  | loadClosed | reloadClosed =>
    simp only [mpscQueueWaitForItems] at hs
    split_ifs at hs with hcl <;> cases hs
    · exact .inr ⟨rfl, hcl⟩
    · cases hl
  | unpark ret =>
    cases hs
    exact .inl hl
  | returned => cases hs
  | loadHead | loadTail | park | reloadHead | reloadTail | semWait | unparkAwake =>
    simp only [mpscQueueWaitForItems] at hs
    try split_ifs at hs
    all_goals
      cases hs
      cases hl

/-- The ring is empty from the moment the worker decides to leave, as long as it was
empty then and nothing is claimed after. -/
theorem drained_step {a : Act ι ρ} (h : s.consumer.leaving = true → s.head = s.tail)
    (hclosed : a.consumes = true → s.consumer.readsClosed = true → s.closed = true →
      s.head = s.tail)
    (hclaim : ∀ t, a = .put t → s.consumer.leaving = true → (s.put t).claims = false)
    (hs : step g s a = some s') (hl : s'.consumer.leaving = true) : s'.head = s'.tail := by
  by_cases ha : a.consumes = true
  · have hsame := sameCalls_step (by cases a <;> first | rfl | cases ha) hs
    rw [hsame.head]
    cases a with
    | callWait | callGet =>
      simp only [step] at hs
      split_ifs at hs
      cases hs
      cases hl
    | consume =>
      rcases consume_cases hs with ⟨pc, hc, hs⟩ | ⟨pc, -, hs⟩
      · rw [(tail_waitForItems hs).2]
        rcases leaving_waitForItems hc hs hl with hl | ⟨hr, hcl⟩
        · exact h hl
        · exact hclosed rfl hr hcl
      · obtain ⟨tail, slots, locked, waiter, records, copied, pc', -, rfl⟩ := getBatchTry_eq hs
        cases hl
    | _ => cases ha
  · have hsame := sameConsumer_step (Bool.eq_false_iff.2 ha) hs
    rw [hsame.consumer] at hl
    rw [hsame.tail, head_step (fun t ht => hclaim t ht hl) hs]
    exact h hl

end Queue

namespace Async

open SeqRing (Shape)
open Machine (Reach Reachable exists_of_run exists_of_runIf)

variable {ι ρ : Type*}

/-- The steps of a shutdown without a late claim: when the worker loads `closed` and
finds it set the ring is empty, and from then on no producer claims a position. -/
def clean (s : State ι ρ) : Act ι ρ → Prop
  | .work => s.q.consumer.readsClosed = true → s.q.closed = true → s.q.head = s.q.tail
  | .write t => s.q.consumer.leaving = true → (s.q.put t).claims = false
  | _ => True

instance (s : State ι ρ) : (a : Act ι ρ) → Decidable (clean s a)
  | .work => inferInstanceAs (Decidable (_ → _ → _))
  | .write _ => inferInstanceAs (Decidable (_ → _))
  | .log .. | .cloneFails _ | .giveUp _ | .casMiss _ | .callShutdown | .shutdown | .callFlush
  | .flush | .spurious => .isTrue trivial

/-- Every call is accounted for, and nothing is left in the ring. -/
structure Accounted (s : State ι ρ) : Prop where
  drained : s.q.head = s.q.tail
  accepted : ∀ c, Event.wrote c .ok ∈ s.events →
    s.workers c.id = 1 ∧ Event.dispatched true c ∈ s.events ∧ s.callers c.id = 0
  refused : ∀ c ret, ret ≠ .ok → Event.wrote c ret ∈ s.events →
    s.callers c.id = 1 ∧ Event.dispatched false c ∈ s.events ∧ s.workers c.id = 0

variable {g : Shape} {s s' : State ι ρ} {c : Call ρ}

theorem mem_workerLog {l : List (Event ρ)} : c ∈ workerLog l ↔ Event.dispatched true c ∈ l := by
  refine List.mem_filterMap.trans ⟨?_, fun h => ⟨_, h, rfl⟩⟩
  rintro ⟨e, he, hc⟩
  split at hc
  · exact Option.some.inj hc ▸ he
  · cases hc

theorem countP_workerLog (l : List (Event ρ)) (k : ℕ) :
    l.countP (Event.byWorker k) = (workerLog l).countP fun c => c.id == k := by
  rw [workerLog, List.countP_filterMap]
  refine List.countP_congr fun e _ => ?_
  cases e with
  | dispatched b c => cases b <;> simp [Event.byWorker]
  | _ => simp [Event.byWorker]

/-- How often the worker has dispatched call `k`, by positions. -/
theorem WorkerInv.workers (h : WorkerInv s) (k : ℕ) :
    s.workers k = (List.range s.upTo).countP fun p => (s.q.acceptedAt p).any fun c => c.id == k := by
  rw [State.workers, countP_workerLog, h.log, List.countP_filterMap]
  refine List.countP_congr fun p _ => ?_
  cases s.q.acceptedAt p <;> simp

theorem claim_of_acceptedAt {p : ℕ} (h : s.q.acceptedAt p = some c) :
    ∃ t, s.q.claim p = some ⟨t, c, .accepted⟩ := by
  rw [Queue.State.acceptedAt] at h
  split at h
  case h_1 t r hc => exact ⟨t, Option.some.inj h ▸ hc⟩
  case h_2 => cases h

/-- **A call accepted at a position the worker has passed was dispatched once**: no
other position is claimed for it. -/
theorem workers_eq_one (hw : WorkerInv s) (hc : CallsInv s) {p : ℕ}
    (hp : s.q.acceptedAt p = some c) (hlt : p < s.upTo) : s.workers c.id = 1 := by
  obtain ⟨t, hcl⟩ := claim_of_acceptedAt hp
  rw [hw.workers, ← List.count_eq_one_of_mem List.nodup_range (List.mem_range.2 hlt)]
  refine List.countP_congr fun p' _ => ?_
  simp only [Option.any_eq_true, beq_iff_eq]
  constructor
  · rintro ⟨c', hp', hid⟩
    obtain ⟨t', hcl'⟩ := claim_of_acceptedAt hp'
    exact hc.inj p' p _ _ hcl' hcl hid
  · rintro rfl
    exact ⟨c, hp, rfl⟩

/-- What was refused is never dispatched by the worker. -/
theorem workers_eq_zero (hw : WorkerInv s) {k : ℕ} (hl : s.Lost k) : s.workers k = 0 := by
  rw [hw.workers]
  refine List.countP_eq_zero.2 fun p _ hany => ?_
  obtain ⟨c, hp, hid⟩ := (Option.any_eq_true ..).1 hany
  obtain ⟨t, hcl⟩ := claim_of_acceptedAt hp
  rcases hl p _ hcl (beq_iff_eq.1 hid) with hf | hf <;> cases hf

variable [DecidableEq ι] [Inhabited ρ]

omit [DecidableEq ι] in
/-- With the worker gone and nothing left in the ring, the account is right. -/
theorem Good.accounted (h : Good g s) (hw : s.worker = .exited) (hd : s.q.head = s.q.tail) :
    Accounted s where
  drained := hd
  accepted c he := by
    obtain ⟨⟨p, hp⟩, hzero⟩ := h.calls.wrote c .ok he
    obtain ⟨t, hcl⟩ := claim_of_acceptedAt hp
    have hup : s.upTo = s.q.tail := by rw [State.upTo, hw]
    have hlt : p < s.upTo := by
      rw [hup, ← hd]
      exact (h.queue.inv.claimed p).1 (by rw [hcl]; rfl)
    refine ⟨workers_eq_one h.worker h.calls hp hlt, mem_workerLog.1 ?_, hzero⟩
    rw [h.worker.log]
    exact List.mem_filterMap.2 ⟨p, List.mem_range.2 hlt, hp⟩
  refused c ret hret he := by
    have hok := h.calls.wrote c ret he
    cases ret with
    | ok => exact absurd rfl hret
    | queueFull | oom =>
      obtain ⟨hl, hone, hmem⟩ := hok
      exact ⟨hone, hmem, workers_eq_zero h.worker hl⟩

/-- In a clean run the ring is empty once the worker has decided to leave. -/
theorem drained_of_clean {a : Act ι ρ}
    (h : s.q.consumer.leaving = true → s.q.head = s.q.tail) (ha : clean s a)
    (hs : step g s a = some s') : s'.q.consumer.leaving = true → s'.q.head = s'.q.tail := by
  rcases (moves_step hs).queue with heq | ⟨b, hb, hal⟩
  · rw [heq]
    exact h
  · refine Queue.drained_step h (fun hcons => ?_) (fun t ht => ?_) hb
    · obtain rfl := Act.work_of_consumes hal hcons
      exact ha
    · subst ht
      cases a with
      | write u =>
        obtain rfl : t = u := hal
        exact ha
      | _ => exact hal.elim

/-- **Accepted records survive a shutdown without late claims.**  In every run whose
steps are all clean, in every state in which the worker has left: the ring is
empty, a call that returned `CLOG_OK` was dispatched exactly once, by the worker,
and a call that returned an error exactly once, by its caller. -/
theorem accounted_of_clean (g : Shape) (junk : ℕ → Queue.Entry (Call ρ)) (s : State ι ρ)
    (h : Reach (step g) clean (logAsyncInitFor g junk) s) (hw : s.worker = .exited) :
    Accounted s := by
  have hgood := good_reachable h.any
  have hdrained := h.invariant (I := fun s => s.q.consumer.leaving = true → s.q.head = s.q.tail)
    (fun _ => rfl) fun _ _ _ hi ha hs => drained_of_clean hi ha hs
  have hcons := hgood.worker.consumer
  rw [hw] at hcons
  obtain ⟨r, hr, hc⟩ := hcons
  exact hgood.accounted hw (hdrained (by rw [hc]; simpa [Queue.Consumer.leaving] using hr))

/-- A logger with a queue of two slots, and two threads that log. -/
def smallLogger : State (Fin 2) ℕ := logAsyncInitFor (.ofPow 1) fun _ => Queue.tombstone

/-- Thread 0 logs 7, the worker dispatches it, and after the queue is closed thread 1
logs 8; then the worker leaves. -/
def cleanTrace : List (Act (Fin 2) ℕ) :=
  List.flatten [[.log 0 7], List.replicate 11 (.write 0), List.replicate 22 .work,
    [.callShutdown], List.replicate 10 .shutdown, [.log 1 8], List.replicate 5 (.write 1),
    List.replicate 5 .work]

/-- The first record is dispatched, and the one that comes too late is refused. -/
theorem accounted_of_clean_trace : ∃ s, Reach (step (.ofPow 1)) clean smallLogger s ∧
    (s.worker = .exited ∧ Event.wrote ⟨0, 7⟩ .ok ∈ s.events ∧
      Event.wrote ⟨1, 8⟩ .queueFull ∈ s.events) ∧ Accounted s := by
  obtain ⟨s, hr, hs⟩ : ∃ s, Reach (step (.ofPow 1)) clean smallLogger s ∧
      (s.worker = .exited ∧ Event.wrote ⟨0, 7⟩ .ok ∈ s.events ∧
        Event.wrote ⟨1, 8⟩ .queueFull ∈ s.events) := by
    apply exists_of_runIf cleanTrace
    decide +kernel
  exact ⟨s, hr, hs, accounted_of_clean (.ofPow 1) (fun _ => Queue.tombstone) s hr hs.1⟩

/-- Thread 0 passes its look at `closed` and stops before its claim; the queue is
closed and the worker leaves; then thread 0 goes on. -/
def lateTrace : List (Act (Fin 2) ℕ) :=
  List.flatten [[.log 0 7], List.replicate 6 (.write 0), [.callShutdown],
    List.replicate 10 .shutdown, List.replicate 5 .work, List.replicate 5 (.write 0),
    List.replicate 2 .shutdown]

/-- The call returned `CLOG_OK`, `log_async_shutdown_for` returned, and the record was
dispatched by nobody: it is still in the ring. -/
theorem record_lost_at_shutdown : ∃ s, Reachable (step (.ofPow 1)) smallLogger s ∧
    s.worker = .exited ∧ s.shutdown = .returned ∧ Event.wrote ⟨0, 7⟩ .ok ∈ s.events ∧
      s.workers 0 = 0 ∧ s.callers 0 = 0 ∧ s.q.tail < s.q.head := by
  apply exists_of_run lateTrace
  decide +kernel

end Async
end Clogx
