/-
# What the worker has dispatched

`WorkerInv`: what the worker has dispatched is, in order, the records accepted
for the positions below `State.upTo`; between batches that is all of `tail`, and
`async_processing` is set whenever it may be less.
-/

import Clogx.Async.Model
import Clogx.Queue.Call

namespace Clogx
namespace Async

open SeqRing (Shape)

variable {ι ρ : Type*}

/-! ### What is observed -/

/-- The records the worker has dispatched. -/
def workerLog (l : List (Event ρ)) : List (Call ρ) :=
  l.filterMap fun
    | .dispatched true c => some c
    | _ => none

/-- Call `k` is dispatched by the worker. -/
def Event.byWorker (k : ℕ) : Event ρ → Bool
  | .dispatched true c => c.id == k
  | _ => false

/-- Call `k` is dispatched by its caller. -/
def Event.byCaller (k : ℕ) : Event ρ → Bool
  | .dispatched false c => c.id == k
  | _ => false

/-- How often the worker has dispatched call `k`. -/
def State.workers (s : State ι ρ) (k : ℕ) : ℕ := s.events.countP (Event.byWorker k)

/-- How often call `k` was dispatched by its caller. -/
def State.callers (s : State ι ρ) (k : ℕ) : ℕ := s.events.countP (Event.byCaller k)

/-! ### The worker -/

/-- The worker is between its two stores of `async_processing`. -/
def Worker.busy : Worker → Bool
  | .callGet | .getting | .dispatching _ | .flushing | .clearProcessing => true
  | _ => false

/-- Where the consumer side of the queue stands. -/
def ConsumerAt : Worker → Queue.Consumer → Prop
  | .waiting, c => ∃ pc, c = .wait pc
  | .getting, c => ∃ pc, c = .get pc
  | .dispatching i, c => ∃ n, c = .get (.returned n) ∧ i ≤ n
  | .exited, c => ∃ r, r ≠ 0 ∧ c = .wait (.returned r)
  | _, c => c.free = true

/-- The position the worker has dispatched up to. -/
def State.upTo (s : State ι ρ) : ℕ :=
  match s.worker with
  | .getting => s.q.tail - s.q.consumer.batched
  | .dispatching i => s.q.tail - s.q.consumer.batched + i
  | _ => s.q.tail

/-- The invariant of the worker. -/
structure WorkerInv (s : State ι ρ) : Prop where
  processing : s.asyncProcessing = s.worker.busy
  consumer : ConsumerAt s.worker s.q.consumer
  log : workerLog s.events = (List.range s.upTo).filterMap s.q.acceptedAt

variable [Inhabited ρ] {g : Shape} {s s' : State ι ρ}

/-- A batch the caller holds ends at `tail`. -/
theorem batch_le (hi : Queue.Inv g s.q) {n : ℕ} (hc : s.q.consumer = .get (.returned n)) :
    n ≤ s.q.tail ∧ s.q.records = (List.range' (s.q.tail - n) n).map s.q.item := by
  have hrec := hi.records
  simp only [Queue.RecordsOk, hc] at hrec
  exact hrec

theorem upTo_le_tail (hi : Queue.Inv g s.q) (hw : WorkerInv s) : s.upTo ≤ s.q.tail := by
  have hcons := hw.consumer
  unfold State.upTo
  cases hk : s.worker with
  | dispatching i =>
    rw [hk] at hcons
    obtain ⟨n, hc, hle⟩ := hcons
    have := (batch_le hi hc).1
    simp only [hc, Queue.Consumer.batched]
    omega
  | getting => exact Nat.sub_le _ _
  | _ => exact le_rfl

/-- What happens on the other side of the queue does not concern the worker. -/
theorem WorkerInv.frame (h : WorkerInv s) (hi : Queue.Inv g s.q)
    (hq : s'.q.tail = s.q.tail ∧ s'.q.consumer = s.q.consumer)
    (hacc : ∀ p, p < s.q.tail → s'.q.acceptedAt p = s.q.acceptedAt p)
    (hworker : s'.worker = s.worker) (hproc : s'.asyncProcessing = s.asyncProcessing)
    (hlog : workerLog s'.events = workerLog s.events) : WorkerInv s' where
  processing := by rw [hproc, hworker]; exact h.processing
  consumer := by rw [hworker, hq.2]; exact h.consumer
  log := by
    have hup : s'.upTo = s.upTo := by rw [State.upTo, State.upTo, hworker, hq.1, hq.2]
    rw [hlog, hup, h.log]
    refine List.filterMap_congr fun p hp => ?_
    exact (hacc p ((List.mem_range.1 hp).trans_le (upTo_le_tail hi h))).symm

omit [Inhabited ρ] in
theorem workerLog_append (l l' : List (Event ρ)) :
    workerLog (l ++ l') = workerLog l ++ workerLog l' :=
  List.filterMap_append

omit [Inhabited ρ] in
/-- The queue moves, or the worker's counter does, and the position the worker has
dispatched up to stays. -/
theorem WorkerInv.move (h : WorkerInv s) (hclaim : s'.q.claim = s.q.claim) (hup : s'.upTo = s.upTo)
    (hproc : s'.asyncProcessing = s'.worker.busy) (hcons : ConsumerAt s'.worker s'.q.consumer)
    (hlog : workerLog s'.events = workerLog s.events) : WorkerInv s' where
  processing := hproc
  consumer := hcons
  log := by
    rw [hlog, hup, h.log]
    refine List.filterMap_congr fun p _ => ?_
    rw [Queue.State.acceptedAt, Queue.State.acceptedAt, hclaim]

/-- **One record of a batch**: the entry at `batch[i]` is a tombstone where
nothing was accepted, and the accepted record otherwise. -/
theorem WorkerInv.dispatch (h : WorkerInv s) (hi : Queue.Inv g s.q) {i : ℕ}
    (hk : s.worker = .dispatching i) {e : Queue.Entry (Call ρ)} (he : s.q.records[i]? = some e) :
    WorkerInv (if e.isTombstone then { s with worker := .dispatching (i + 1) }
      else { s.emit [.dispatched true e.body] with worker := .dispatching (i + 1) }) := by
  have hcons := h.consumer
  rw [hk] at hcons
  obtain ⟨n, hc, hle⟩ := hcons
  obtain ⟨hn, hrec⟩ := batch_le hi hc
  have hlog := h.log
  have hup : s.upTo = s.q.tail - n + i := by
    simp only [State.upTo, hk, hc, Queue.Consumer.batched]
  rw [hup] at hlog
  -- the entry was written for position `tail - n + i`
  rw [hrec, List.getElem?_map, Option.map_eq_some_iff] at he
  obtain ⟨p, hp, rfl⟩ := he
  obtain ⟨hlt, rfl⟩ := List.getElem?_eq_some_iff.1 hp
  rw [List.length_range'] at hlt
  rw [List.getElem_range', Nat.one_mul]
  have hpos : s.q.tail - n + i < s.q.tail := by omega
  have hproc : s.asyncProcessing = true := by rw [h.processing, hk]; rfl
  have hcontent := hi.content _ (hi.published_of_lt (p := s.q.tail - n + i) (by omega))
  obtain ⟨t, r, ⟨hcl, hitem⟩ | ⟨hcl, hitem⟩⟩ := hcontent
  · have hacc : s.q.acceptedAt (s.q.tail - n + i) = some r := by
      rw [Queue.State.acceptedAt, hcl]
    rw [hitem, if_neg (by simp)]
    refine ⟨hproc, ⟨n, hc, by omega⟩, ?_⟩
    have hup' : ({ s.emit [.dispatched true r] with worker := .dispatching (i + 1) } :
        State ι ρ).upTo = s.q.tail - n + i + 1 := by
      simp only [State.upTo, State.emit, hc, Queue.Consumer.batched]
      omega
    rw [hup', List.range_succ, List.filterMap_append]
    show workerLog (s.events ++ [.dispatched true r]) = _
    rw [workerLog_append, hlog]
    simp [workerLog, hacc, State.emit]
  · have hacc : s.q.acceptedAt (s.q.tail - n + i) = none := by
      rw [Queue.State.acceptedAt, hcl]
    rw [hitem, if_pos (show (Queue.tombstone : Queue.Entry (Call ρ)).isTombstone = true from rfl)]
    refine ⟨hproc, ⟨n, hc, by omega⟩, ?_⟩
    have hup' : ({ s with worker := .dispatching (i + 1) } : State ι ρ).upTo
        = s.q.tail - n + i + 1 := by
      simp only [State.upTo, hc, Queue.Consumer.batched]
      omega
    rw [hup', List.range_succ, List.filterMap_append]
    show workerLog s.events = _
    rw [hlog]
    simp [hacc]

variable [DecidableEq ι]

/-- **`async_worker_for` keeps its account.** -/
theorem WorkerInv.work (h : WorkerInv s) (hi : Queue.Inv g s.q)
    (hs : asyncWorkerFor g s = some s') : WorkerInv s' := by
  have hcons := h.consumer
  have hproc := h.processing
  unfold asyncWorkerFor at hs
  cases hk : s.worker with
  | exited => simp [hk] at hs
  | start =>
    simp only [hk] at hs
    obtain ⟨q, hq, rfl⟩ := Option.map_eq_some_iff.1 hs
    have hsame := Queue.sameCalls_step rfl hq
    simp only [Queue.step] at hq
    split_ifs at hq
    cases hq
    exact h.move rfl (by simp only [State.upTo, hk]) (by rw [hproc, hk]; rfl) ⟨_, rfl⟩ rfl
  | waiting =>
    simp only [hk] at hs
    rw [hk] at hcons
    obtain ⟨pc, hc⟩ := hcons
    rw [hc] at hs
    split at hs
    case h_1 r hr =>
      split_ifs at hs with hne <;> cases hs
      · exact h.move rfl (by simp only [State.upTo, hk]) (by rw [hproc, hk]; rfl)
          ⟨r, hne, hc.trans hr⟩ rfl
      · exact h.move rfl (by simp only [State.upTo, hk]) (by rw [hproc, hk]; rfl)
          (by show s.q.consumer.free = true; rw [hc, hr]; rfl) rfl
    case h_2 =>
      obtain ⟨q, hq, rfl⟩ := Option.map_eq_some_iff.1 hs
      have hsame := Queue.sameCalls_step rfl hq
      simp only [Queue.step, hc] at hq
      obtain ⟨hpc, htail⟩ := Queue.tail_waitForItems hq
      rw [hk] at hproc
      exact h.move hsame.claim (by simp only [State.upTo, hk, htail]) hproc hpc rfl
  | setProcessing =>
    simp only [hk] at hs
    rw [hk] at hcons
    cases hs
    exact h.move rfl (by simp only [State.upTo, hk]) rfl hcons rfl
  | callGet =>
    simp only [hk] at hs
    obtain ⟨q, hq, rfl⟩ := Option.map_eq_some_iff.1 hs
    simp only [Queue.step] at hq
    split_ifs at hq
    cases hq
    exact h.move rfl (by simp only [State.upTo, hk]; rfl) (by rw [hproc, hk]; rfl) ⟨_, rfl⟩ rfl
  | getting =>
    simp only [hk] at hs
    rw [hk] at hcons
    obtain ⟨pc, hc⟩ := hcons
    rw [hc] at hs
    split at hs
    case h_1 n hn =>
      cases hs
      exact h.move rfl (by simp only [State.upTo, hk, Nat.add_zero]) (by rw [hproc, hk]; rfl)
        ⟨n, hc.trans hn, Nat.zero_le _⟩ rfl
    case h_2 =>
      obtain ⟨q, hq, rfl⟩ := Option.map_eq_some_iff.1 hs
      have hsame := Queue.sameCalls_step rfl hq
      simp only [Queue.step, hc] at hq
      obtain ⟨hpc, hstart⟩ := Queue.batchStart_getBatchTry hi hc hq
      rw [hk] at hproc
      exact h.move hsame.claim (by simp only [State.upTo, hk]; exact hstart) hproc hpc rfl
  | dispatching i =>
    simp only [hk] at hs
    rw [hk] at hcons
    obtain ⟨n, hc, hle⟩ := hcons
    split at hs
    case h_1 e he =>
      have := h.dispatch hi hk he
      split_ifs at hs this <;> cases hs <;> exact this
    case h_2 he =>
      -- the batch is through: the worker is at `tail`
      cases hs
      obtain ⟨hn, hrec⟩ := batch_le hi hc
      have hlen : s.q.records.length = n := by rw [hrec, List.length_map, List.length_range']
      have hin : i = n := by
        have := List.getElem?_eq_none_iff.1 he
        omega
      have hup : s.upTo = s.q.tail := by
        simp only [State.upTo, hk, hc, Queue.Consumer.batched]
        omega
      rw [hk] at hproc
      split_ifs
      · exact h.move rfl hup.symm hproc (by show s.q.consumer.free = true; rw [hc]; rfl) rfl
      · exact h.move rfl hup.symm hproc (by show s.q.consumer.free = true; rw [hc]; rfl) rfl
  | flushing =>
    simp only [hk] at hs
    rw [hk] at hcons
    cases hs
    rw [hk] at hproc
    refine h.move rfl (by simp only [State.upTo, hk]; rfl) hproc hcons ?_
    show workerLog (s.events ++ [.flushed true]) = _
    rw [workerLog_append]
    exact List.append_nil _
  | clearProcessing =>
    simp only [hk] at hs
    rw [hk] at hcons
    cases hs
    exact h.move rfl (by simp only [State.upTo, hk]) rfl hcons rfl

end Async
end Clogx
