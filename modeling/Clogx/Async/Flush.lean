/-
# The flush barrier

`log_async_flush_for` waits for an empty queue, then for `async_processing` to be
clear, then flushes the sinks.  The two conditions are read at different times,
while batches keep starting.  What makes it a barrier is an order of positions:
`mark`, the value of `head` when the flush begins, is at or above every claim of
a call that has returned.  Once the waiter has seen `head = tail`, `tail` has
passed `mark` (`WaiterAt`); and the worker clears `async_processing` only when it
has dispatched everything below `tail` (`WorkerInv`), so a poll that finds it
clear finds everything below `mark` dispatched.
-/

import Clogx.Async.Shutdown

namespace Clogx
namespace Queue

open SeqRing (Shape)

variable {ι ρ : Type*}

/-- What the waiter knows about a position `m` that was claimed before it started. -/
def WaiterAt (m : ℕ) (s : State ι ρ) : Prop :=
  match s.waiter with
  | .loadTail h => m ≤ h
  | .unlock | .returned => m ≤ s.tail
  | _ => True

/-- A step of `mpsc_queue_wait_empty`, the start of the call included. -/
def Act.waits : Act ι ρ → Bool
  | .callWaitEmpty | .waitEmpty => true
  | _ => false

variable {g : Shape} {s s' : State ι ρ} {m : ℕ}

theorem WaiterAt.frame (h : WaiterAt m s) (htail : s.tail ≤ s'.tail)
    (hw : s'.waiter = s.waiter ∨ s'.waiter = .woken) : WaiterAt m s' := by
  unfold WaiterAt at h ⊢
  rcases hw with hw | hw
  · rw [hw]
    split at h
    · exact h
    · exact h.trans htail
    · exact h.trans htail
    · trivial
  · rw [hw]
    trivial

/-- Seeing `head = tail`, the waiter learns that `tail` has passed `m`. -/
theorem WaiterAt.waitEmpty (h : WaiterAt m s) (hm : m ≤ s.head)
    (hs : mpscQueueWaitEmpty s = some s') : WaiterAt m s' := by
  unfold mpscQueueWaitEmpty at hs
  unfold WaiterAt at h
  cases hw : s.waiter with
  | idle | blocked | returned => simp [hw] at hs
  | lock | woken =>
    simp only [hw] at hs
    split_ifs at hs
    cases hs
    trivial
  | loadHead =>
    simp only [hw] at hs
    cases hs
    exact hm
  | loadTail k =>
    simp only [hw] at hs h
    split_ifs at hs with hk <;> cases hs
    · exact h.trans hk.le
    · trivial
  | unlock =>
    simp only [hw] at hs h
    cases hs
    exact h

theorem wakeWaiter_waiter (s : State ι ρ) :
    s.wakeWaiter.waiter = s.waiter ∨ s.wakeWaiter.waiter = .woken := by
  unfold State.wakeWaiter
  dsimp only
  split_ifs
  · exact .inr rfl
  · exact .inl rfl

variable [DecidableEq ι] [Inhabited ρ]

/-- The others move the waiter only by waking it. -/
theorem waiter_step {a : Act ι ρ} (ha : a.waits = false) (hs : step g s a = some s') :
    s'.waiter = s.waiter ∨ s'.waiter = .woken := by
  cases a with
  | callWaitEmpty | waitEmpty => cases ha
  | call | put | giveUp | casMiss => exact .inl (sameOthers_step rfl hs).waiter
  | callWait | callGet =>
    simp only [step] at hs
    split_ifs at hs
    cases hs
    exact .inl rfl
  | consume =>
    rcases consume_cases hs with ⟨pc, -, hs⟩ | ⟨pc, -, hs⟩
    · obtain ⟨parked, items, pc', rfl⟩ := waitForItems_eq hs
      exact .inl rfl
    · obtain ⟨tail, slots, locked, waiter, records, copied, pc', hw | hw, rfl⟩ :=
        getBatchTry_eq hs
      · exact .inl hw
      · exact hw ▸ wakeWaiter_waiter s
  | callClose =>
    obtain ⟨-, rfl⟩ := callClose_eq hs
    exact .inl rfl
  | close =>
    obtain ⟨closed, items, slots, locked, waiter, closer, -, hw | hw, rfl⟩ := close_eq hs
    · exact .inl hw
    · exact hw ▸ wakeWaiter_waiter s
  | spurious =>
    simp only [step] at hs
    split_ifs at hs
    cases hs
    exact .inr rfl

end Queue

namespace Async

open SeqRing (Shape)
open Machine (Reach Reachable exists_of_runIf)

variable {ι ρ : Type*}

/-- Nobody shuts the logger down. -/
def noShutdown (_ : State ι ρ) : Act ι ρ → Prop
  | .callShutdown => False
  | _ => True

/-- Nor is `log_async_flush_for` called again. -/
def inFlush (s : State ι ρ) : Act ι ρ → Prop
  | .callFlush => False
  | a => noShutdown s a

instance (s : State ι ρ) : (a : Act ι ρ) → Decidable (noShutdown s a)
  | .callShutdown => .isFalse id
  | .log .. | .write _ | .cloneFails _ | .giveUp _ | .casMiss _ | .work | .shutdown | .callFlush
  | .flush | .spurious => .isTrue trivial

instance (s : State ι ρ) : (a : Act ι ρ) → Decidable (inFlush s a)
  | .callShutdown | .callFlush => .isFalse id
  | .log .. | .write _ | .cloneFails _ | .giveUp _ | .casMiss _ | .work | .shutdown | .flush
  | .spurious => .isTrue trivial

/-- Every call in the log `m` has been dispatched in the log `l`. -/
def Dispatched (m l : List (Event ρ)) : Prop :=
  ∀ c e, Event.wrote c e ∈ m → ∃ b, Event.dispatched b c ∈ l

/-- What the flushing thread knows, by where it stands. -/
def FlushAt (s : State ι ρ) : Flush → Prop
  | .idle | .check => True
  | .waiting => Queue.WaiterAt s.mark s.q
  | .poll => s.mark ≤ s.q.tail
  | .flushing => Dispatched s.marked s.events
  | .returned => ∃ l₁ l₂, s.events = s.marked ++ l₁ ++ .flushed false :: l₂ ∧
      Dispatched s.marked (s.marked ++ l₁)

/-- The invariant of the flushing thread. -/
structure FlushInv (s : State ι ρ) : Prop where
  shutdown : s.shutdown = .idle
  queueSet : s.queueSet = true
  mark : s.mark ≤ s.q.head
  marked : s.marked <+: s.events
  wrote : ∀ c e, Event.wrote c e ∈ s.marked →
    (∃ p, p < s.mark ∧ s.q.acceptedAt p = some c) ∨ Event.dispatched false c ∈ s.marked
  flush : FlushAt s s.flush

variable {g : Shape} {s s' : State ι ρ}

/-- Between two batches the worker has dispatched all of `tail`. -/
theorem upTo_of_idle (h : s.worker.busy = false) : s.upTo = s.q.tail := by
  unfold State.upTo
  cases hw : s.worker <;> first | rfl | (rw [hw] at h; cases h)

/-- **Once `tail` has passed the mark and no batch is in progress, all calls that
returned before the flush are dispatched.** -/
theorem FlushInv.dispatched (h : FlushInv s) (hw : WorkerInv s) (htail : s.mark ≤ s.q.tail)
    (hp : s.asyncProcessing = false) : Dispatched s.marked s.events := by
  intro c e hc
  have hup : s.upTo = s.q.tail := upTo_of_idle (hw.processing ▸ hp)
  rcases h.wrote c e hc with ⟨p, hlt, hacc⟩ | hd
  · refine ⟨true, mem_workerLog.1 ?_⟩
    rw [hw.log, hup]
    exact List.mem_filterMap.2 ⟨p, List.mem_range.2 (hlt.trans_le htail), hacc⟩
  · exact ⟨false, h.marked.subset hd⟩

theorem Dispatched.append {m l : List (Event ρ)} (h : Dispatched m l) (l' : List (Event ρ)) :
    Dispatched m (l ++ l') := by
  intro c e hc
  obtain ⟨b, hb⟩ := h c e hc
  exact ⟨b, List.mem_append_left _ hb⟩

/-- What the flushing thread knows survives what the others do. -/
theorem FlushAt.frame {pc : Flush} (h : FlushAt s pc) (hmark : s'.mark = s.mark)
    (hmarked : s'.marked = s.marked) (htail : s.q.tail ≤ s'.q.tail)
    (hw : s'.q.waiter = s.q.waiter ∨ s'.q.waiter = .woken) {l : List (Event ρ)}
    (hl : s'.events = s.events ++ l) : FlushAt s' pc := by
  cases pc with
  | idle | check => trivial
  | waiting =>
    show Queue.WaiterAt s'.mark s'.q
    rw [hmark]
    exact Queue.WaiterAt.frame h htail hw
  | poll =>
    show s'.mark ≤ s'.q.tail
    rw [hmark]
    exact le_trans h htail
  | flushing =>
    show Dispatched s'.marked s'.events
    rw [hmarked, hl]
    exact Dispatched.append h l
  | returned =>
    obtain ⟨l₁, l₂, he, hd⟩ := h
    refine ⟨l₁, l₂ ++ l, ?_, hmarked ▸ hd⟩
    rw [hl, he, hmarked, List.append_assoc, List.cons_append]

variable [DecidableEq ι] [Inhabited ρ]

/-- What is accepted stays accepted, in every step. -/
theorem acceptedAt_of_step {a : Act ι ρ} (h : Good g s) (hs : step g s a = some s') {p : ℕ}
    {c : Call ρ} (hp : s.q.acceptedAt p = some c) : s'.q.acceptedAt p = some c := by
  rcases (moves_step hs).queue with heq | ⟨b, hb, -⟩
  · rw [heq, hp]
  · exact acceptedAt_of_settled (fun p cl hcl hf => Queue.settled_step h.queue.inv hb hcl hf) hp

theorem head_le_step {a : Act ι ρ} (hs : step g s a = some s') : s.q.head ≤ s'.q.head := by
  rcases (moves_step hs).queue with heq | ⟨b, hb, -⟩
  · rw [heq]
  · exact Queue.head_le_step hb

/-- A step that keeps the mark keeps what the mark stands for. -/
theorem FlushInv.keep {a : Act ι ρ} (h : FlushInv s) (hg : Good g s) (hs : step g s a = some s')
    (hmark : s'.mark = s.mark) (hmarked : s'.marked = s.marked) (hsh : s'.shutdown = .idle)
    (hset : s'.queueSet = true) (hf : FlushAt s' s'.flush) : FlushInv s' where
  shutdown := hsh
  queueSet := hset
  mark := hmark ▸ h.mark.trans (head_le_step hs)
  marked := by
    obtain ⟨l, hl, -⟩ := (moves_step hs).events
    rw [hmarked, hl]
    exact h.marked.trans (List.prefix_append _ _)
  wrote c e hc := by
    rw [hmarked] at hc ⊢
    rw [hmark]
    refine (h.wrote c e hc).imp_left ?_
    rintro ⟨p, hlt, hp⟩
    exact ⟨p, hlt, acceptedAt_of_step hg hs hp⟩
  flush := hf

/-- **`log_async_flush_for`, operation by operation.** -/
theorem FlushInv.step_flush (h : FlushInv s) (hg : Good g s)
    (hs : logAsyncFlushFor g s = some s') : FlushInv s' := by
  have hs' : step g s .flush = some s' := hs
  have hat := h.flush
  unfold logAsyncFlushFor at hs
  cases hf : s.flush with
  | idle | returned => simp [hf] at hs
  | check =>
    simp only [hf] at hs
    rw [if_pos h.queueSet] at hs
    obtain ⟨q, hq, rfl⟩ := Option.map_eq_some_iff.1 hs
    refine h.keep hg hs' rfl rfl h.shutdown h.queueSet ?_
    simp only [Queue.step] at hq
    split_ifs at hq
    cases hq
    trivial
  | waiting =>
    simp only [hf] at hs
    rw [hf] at hat
    split at hs
    case h_1 hw =>
      cases hs
      refine h.keep hg hs' rfl rfl h.shutdown h.queueSet ?_
      simpa only [FlushAt, Queue.WaiterAt, hw] using hat
    case h_2 =>
      obtain ⟨q, hq, rfl⟩ := Option.map_eq_some_iff.1 hs
      exact h.keep hg hs' rfl rfl h.shutdown h.queueSet (Queue.WaiterAt.waitEmpty hat h.mark hq)
  | poll =>
    simp only [hf] at hs
    rw [hf] at hat
    split_ifs at hs with hp <;> cases hs
    · exact h
    · exact h.keep hg hs' rfl rfl h.shutdown h.queueSet
        (h.dispatched hg.worker hat (Bool.eq_false_iff.2 hp))
  | flushing =>
    simp only [hf] at hs
    rw [hf] at hat
    cases hs
    refine h.keep hg hs' rfl rfl h.shutdown h.queueSet ?_
    obtain ⟨l₁, hl⟩ := h.marked
    have he : s.events ++ [.flushed false] = s.marked ++ l₁ ++ [.flushed false] := by rw [hl]
    have hd : Dispatched s.marked (s.marked ++ l₁) := by rw [hl]; exact hat
    exact ⟨l₁, [], he, hd⟩

omit [DecidableEq ι] in
/-- A new flush marks the positions claimed so far: every call that has returned
was dispatched by its caller, or owns one of them. -/
theorem FlushInv.call (h : FlushInv s) (hg : Good g s) :
    FlushInv { s with flush := .check, mark := s.q.head, marked := s.events } where
  shutdown := h.shutdown
  queueSet := h.queueSet
  mark := le_rfl
  marked := List.prefix_rfl
  wrote c e hc := by
    have hok := hg.calls.wrote c e hc
    cases e with
    | ok =>
      obtain ⟨⟨p, hp⟩, -⟩ := hok
      obtain ⟨t, hcl⟩ := claim_of_acceptedAt hp
      exact .inl ⟨p, (hg.queue.inv.claimed p).1 (by rw [hcl]; rfl), hp⟩
    | queueFull | oom => exact .inr hok.2.2
  flush := trivial

/-- The parties other than the flushing thread leave its knowledge alone. -/
theorem FlushInv.other {a : Act ι ρ} (h : FlushInv s) (hg : Good g s) (ha : a.aside = false)
    (hs : step g s a = some s') : FlushInv s' := by
  have hm := moves_step hs
  have hth := hm.threads ha
  obtain ⟨l, hl, -⟩ := hm.events
  refine h.keep hg hs hth.mark hth.marked (hth.shutdown.trans h.shutdown)
    (hth.queueSet.trans h.queueSet) ?_
  rw [hth.flush]
  rcases hm.queue with heq | ⟨b, hb, hal⟩
  · exact h.flush.frame hth.mark hth.marked (by rw [heq]) (.inl (by rw [heq])) hl
  · have hwaits : b.waits = false := by
      cases a <;> cases b <;> first | rfl | exact hal.elim | cases ha
    exact h.flush.frame hth.mark hth.marked (Queue.tail_le_step hg.queue.inv hb)
      (Queue.waiter_step hwaits hb) hl

/-- Without a shutdown, every step keeps it. -/
theorem FlushInv.step {a : Act ι ρ} (h : FlushInv s) (hg : Good g s) (ha : noShutdown s a)
    (hs : Async.step g s a = some s') : FlushInv s' := by
  cases a with
  | callShutdown => exact ha.elim
  | shutdown => simp [Async.step, logAsyncShutdownFor, h.shutdown] at hs
  | flush => exact h.step_flush hg hs
  | callFlush =>
    simp only [Async.step] at hs
    split_ifs at hs
    cases hs
    exact h.call hg
  | log | write | cloneFails | giveUp | casMiss | work | spurious => exact h.other hg rfl hs

/-- Over whole runs. -/
theorem flushInv_reach {junk : ℕ → Queue.Entry (Call ρ)}
    (h : Reach (step g) noShutdown (logAsyncInitFor g junk : State ι ρ) s) : FlushInv s := by
  have hinit : FlushInv (logAsyncInitFor g junk : State ι ρ) :=
    ⟨rfl, rfl, le_rfl, List.prefix_rfl, fun _ _ hc => (nomatch hc), trivial⟩
  have hboth : Good g s ∧ FlushInv s := h.invariant (I := fun s => Good g s ∧ FlushInv s)
    ⟨good_init g junk, hinit⟩ fun _ _ _ hi ha hs => ⟨good_step hi.1 hs, hi.2.step hi.1 ha hs⟩
  exact hboth.2

/-- Until the next flush the mark stays. -/
theorem marked_step {a : Act ι ρ} (ha : inFlush s a) (hs : step g s a = some s') :
    s'.marked = s.marked := by
  cases a with
  | callShutdown | callFlush => exact ha.elim
  | log | write | cloneFails | giveUp | casMiss | work | spurious =>
    exact ((moves_step hs).threads rfl).marked
  | shutdown =>
    simp only [step, logAsyncShutdownFor] at hs
    split at hs <;> try split at hs
    all_goals first
      | cases hs; done
      | (cases hs; rfl)
      | (obtain ⟨q, -, rfl⟩ := Option.map_eq_some_iff.1 hs; rfl)
  | flush =>
    simp only [step, logAsyncFlushFor] at hs
    split at hs <;> try split at hs
    all_goals first
      | cases hs; done
      | (cases hs; rfl)
      | (obtain ⟨q, -, rfl⟩ := Option.map_eq_some_iff.1 hs; rfl)

/-- **The flush barrier.**  `log_async_flush_for` is called in `s₀`, a state of any run
without a shutdown, and has returned in `s`: the sinks were flushed by it, and
before that every call of `log_async_write_for` that had returned in `s₀` was
dispatched. -/
theorem flush_barrier (g : Shape) (junk : ℕ → Queue.Entry (Call ρ)) (s₀ s₁ s : State ι ρ)
    (h₀ : Reach (step g) noShutdown (logAsyncInitFor g junk) s₀)
    (hcall : step g s₀ .callFlush = some s₁) (h : Reach (step g) inFlush s₁ s)
    (hret : s.flush = .returned) :
    ∃ l₁ l₂, s.events = s₀.events ++ l₁ ++ .flushed false :: l₂ ∧
      ∀ c e, Event.wrote c e ∈ s₀.events → ∃ b, Event.dispatched b c ∈ s₀.events ++ l₁ := by
  have hmarked : s.marked = s₀.events := by
    have h₁ : s₁.marked = s₀.events := by
      simp only [step] at hcall
      split_ifs at hcall
      cases hcall
      rfl
    exact h.invariant (I := fun s => s.marked = s₀.events) h₁
      fun _ _ _ hi ha hs => (marked_step ha hs).trans hi
  have hmono : ∀ (s : State ι ρ) a, inFlush s a → noShutdown s a := by
    intro s a ha
    cases a with
    | callFlush => exact ha.elim
    | _ => exact ha
  have h₁ : Reach (step g) noShutdown (logAsyncInitFor g junk) s₁ :=
    .tail h₀ (show noShutdown s₀ .callFlush from trivial) hcall
  have hinv := (flushInv_reach (h₁.trans (h.mono hmono))).flush
  rw [hret] at hinv
  obtain ⟨l₁, l₂, he, hd⟩ := hinv
  rw [hmarked] at he hd
  exact ⟨l₁, l₂, he, hd⟩

/-- The flush finds the record in the queue and blocks; the worker dispatches it and
wakes the flush. -/
def flushTrace : List (Act (Fin 2) ℕ) :=
  List.flatten [List.replicate 4 .flush, List.replicate 22 .work, List.replicate 7 .flush]

/-- A record that was accepted before the flush, and not dispatched, is dispatched behind it. -/
theorem flush_barrier_trace : ∃ s₀ s₁ s : State (Fin 2) ℕ, step (.ofPow 1) s₀ .callFlush = some s₁ ∧
    Reach (step (.ofPow 1)) inFlush s₁ s ∧ Event.wrote ⟨0, 7⟩ .ok ∈ s₀.events ∧
      Event.dispatched true ⟨0, 7⟩ ∉ s₀.events ∧ s.flush = .returned ∧
      ∃ l₁ l₂, s.events = s₀.events ++ l₁ ++ .flushed false :: l₂ ∧
        ∀ c e, Event.wrote c e ∈ s₀.events → ∃ b, Event.dispatched b c ∈ s₀.events ++ l₁ := by
  obtain ⟨s₀, h₀, hw, hn, hrest⟩ : ∃ s₀, Reach (step (.ofPow 1)) noShutdown smallLogger s₀ ∧
      Event.wrote ⟨0, 7⟩ .ok ∈ s₀.events ∧ Event.dispatched true ⟨0, 7⟩ ∉ s₀.events ∧
      (step (.ofPow 1) s₀ .callFlush).any (fun s₁ =>
        (Machine.runIf (step (.ofPow 1)) inFlush s₁ flushTrace).any
          fun s => s.flush = .returned) = true := by
    apply exists_of_runIf (.log 0 7 :: List.replicate 11 (.write 0))
    decide +kernel
  obtain ⟨s₁, hcall, hrest⟩ := (Option.any_eq_true ..).1 hrest
  obtain ⟨s, h, hret⟩ := exists_of_runIf flushTrace hrest
  exact ⟨s₀, s₁, s, hcall, h, hw, hn, hret,
    flush_barrier (.ofPow 1) (fun _ => Queue.tombstone) s₀ s₁ s h₀ hcall h hret⟩

end Async
end Clogx
