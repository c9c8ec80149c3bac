/-
# The lock-free queue of the async path

`core/queue.c` and `include/queue.h`: `mpsc_queue_t` with its producers in
`mpsc_queue_try_put`, the single consumer in `mpsc_queue_wait_for_items` and
`mpsc_queue_get_batch_try`, a closer in `mpsc_queue_close` and a waiter in
`mpsc_queue_wait_empty`.

Every party is a program counter that names the next shared operation of the C
function and carries its locals; one step executes that operation.  So each
atomic load, store, fetch-add and compare-exchange, each slot write
(`slot->rec = …`), each slot copy (`records[n] = slot->rec`), each semaphore,
mutex and condition-variable call is a step of its own, and any interleaving of
the parties is a list of actions (`Act`).  `head`, `tail` and the positions are
naturals; a difference of two counters is taken as the unsigned word the C code
computes (`szSub`).

`ρ` stands for the fields of `log_record_t` the queue only moves about; the one
it reads is `is_tombstone`.  Both write paths of `core/log.c` build their records
with `is_tombstone = false`, so a call starts from a bare `ρ`.  The polling loop
of the full-queue race counts to a million before it abandons its claim; here
giving up is a choice of the scheduler (`Act.giveUp`), open whenever a poll sees
`tail` where it was.  `clog_atomic_cas_int` is a weak compare-exchange, so it may
also fail for no reason (`Act.casMiss`).

The fields after `waiter` are history: they record what happened and no step
reads them.
-/

import Clogx.Machine.Run
import Clogx.SeqRing.Protocol

namespace Clogx
namespace Queue

open SeqRing (Shape Phase)

/-- `log_record_t` as the queue sees it. -/
structure Entry (ρ : Type*) where
  body : ρ
  isTombstone : Bool
deriving DecidableEq, Repr

/-- The marker of a lost full-queue race: `memset` to zero, `is_tombstone` set. -/
def tombstone {ρ : Type*} [Inhabited ρ] : Entry ρ := ⟨default, true⟩

/-- `mpsc_slot_t`. -/
structure Slot (ρ : Type*) where
  entry : Entry ρ
  seq : ℕ

/-- The difference of two `size_t`. -/
def szSub (a b : ℕ) : ℕ := if b ≤ a then a - b else a + 2 ^ 64 - b

/-- Where a call of `mpsc_queue_try_put` stands; from `signal` on it is inside
`queue_signal_consumer`. -/
inductive TryPut (ρ : Type*)
  | idle
  | loadClosed (r : ρ)
  | loadTail (r : ρ)
  | loadHead (r : ρ) (tailSnap : ℕ)
  | fetchAdd (r : ρ)
  | recheck (r : ρ) (pos : ℕ)
  | poll (r : ρ) (pos lastTail : ℕ)
  | writeTomb (r : ρ) (pos : ℕ)
  | publishTomb (r : ρ) (pos : ℕ)
  | writeRec (r : ρ) (pos : ℕ)
  | publishRec (r : ρ) (pos : ℕ)
  | signal (r : ρ) (pos : ℕ) (ret : ℤ)
  | post (r : ρ) (pos : ℕ) (ret : ℤ)
  | returned (ret : ℤ)

/-- Where a call of `mpsc_queue_wait_for_items` stands. -/
inductive WaitForItems
  | loadHead
  | loadTail (head : ℕ)
  | loadClosed
  | park
  | reloadHead
  | reloadTail (head : ℕ)
  | reloadClosed
  | semWait
  | unparkAwake
  | unpark (ret : ℤ)
  | returned (ret : ℤ)
deriving DecidableEq

/-- Where a call of `mpsc_queue_get_batch_try` stands. -/
inductive GetBatchTry
  | loadHead (maxRecords : ℕ)
  | loadTail (maxRecords head : ℕ)
  | loadSeq (maxRecords head tail n : ℕ)
  | copy (maxRecords head tail n : ℕ)
  | storeTail (tail n : ℕ)
  | postSlots (n i : ℕ)
  | remHead (n : ℕ)
  | remTail (n head : ℕ)
  | lock (n : ℕ)
  | broadcast (n : ℕ)
  | unlock (n : ℕ)
  | returned (n : ℕ)
deriving DecidableEq

/-- The consumer is in one call or the other, or between calls. -/
inductive Consumer
  | idle
  | wait (pc : WaitForItems)
  | get (pc : GetBatchTry)
deriving DecidableEq

/-- Where the call of `mpsc_queue_close` stands. -/
inductive Close
  | idle
  | store
  | postItems
  | postSlots (i : ℕ)
  | lock
  | broadcast
  | unlock
  | returned
deriving DecidableEq

/-- Where the call of `mpsc_queue_wait_empty` stands; `blocked` is inside
`clog_cond_wait`, `woken` has to take the mutex again. -/
inductive WaitEmpty
  | idle
  | lock
  | loadHead
  | loadTail (head : ℕ)
  | blocked
  | woken
  | unlock
  | returned
deriving DecidableEq

/-- What became of a claimed position. -/
inductive Fate
  | pending
  | accepted
  | refused
  | abandoned
deriving DecidableEq

/-- The `mpsc_queue_try_put` call that owns a position. -/
structure Claim (ι ρ : Type*) where
  thread : ι
  record : ρ
  fate : Fate

/-- A call of `mpsc_queue_try_put` that has returned, with the position it
claimed, if any. -/
structure Done (ι ρ : Type*) where
  thread : ι
  record : ρ
  pos : Option ℕ
  ret : ℤ

/-- The queue, the parties working on it, and the history. -/
structure State (ι ρ : Type*) where
  buffer : ℕ → Slot ρ
  head : ℕ
  tail : ℕ
  closed : Bool
  consumerParked : Bool
  itemsSem : ℕ
  slotsSem : ℕ
  drainLocked : Bool
  put : ι → TryPut ρ
  consumer : Consumer
  records : List (Entry ρ)
  closer : Close
  waiter : WaitEmpty
  phase : ℕ → Phase
  item : ℕ → Entry ρ
  claim : ℕ → Option (Claim ι ρ)
  copied : List (Entry ρ)
  done : List (Done ι ρ)

/-- One step of one party. -/
inductive Act (ι ρ : Type*)
  | call (t : ι) (r : ρ)
  | put (t : ι)
  | giveUp (t : ι)
  | casMiss (t : ι)
  | callWait
  | callGet (maxRecords : ℕ)
  | consume
  | callClose
  | close
  | callWaitEmpty
  | waitEmpty
  | spurious

variable {ι ρ : Type*} [DecidableEq ι] [Inhabited ρ]

namespace State

variable (s : State ι ρ)

/-- Thread `t` goes to `pc`. -/
def setPut (t : ι) (pc : TryPut ρ) : State ι ρ := { s with put := Function.update s.put t pc }

/-- The call of thread `t` on `r` returns. -/
def finish (t : ι) (r : ρ) (pos : Option ℕ) (ret : ℤ) : State ι ρ :=
  { s with
    put := Function.update s.put t (.returned ret)
    done := s.done ++ [⟨t, r, pos, ret⟩] }

/-- What became of position `pos` is decided. -/
def setFate (t : ι) (r : ρ) (pos : ℕ) (f : Fate) : State ι ρ :=
  { s with claim := Function.update s.claim pos (some ⟨t, r, f⟩) }

/-- `slot->rec = e` for the slot of `pos`. -/
def writeSlot (g : Shape) (pos : ℕ) (e : Entry ρ) : State ι ρ :=
  { s with
    buffer := Function.update s.buffer (g.ix pos) { s.buffer (g.ix pos) with entry := e }
    phase := Function.update s.phase pos .written
    item := Function.update s.item pos e }

/-- `clog_atomic_store_u64(&slot->seq, pos + 1)` for the slot of `pos`. -/
def publishSlot (g : Shape) (pos : ℕ) : State ι ρ :=
  { s with
    buffer := Function.update s.buffer (g.ix pos) { s.buffer (g.ix pos) with seq := pos + 1 }
    phase := Function.update s.phase pos .published }

/-- `clog_cond_broadcast(&q->drain_cond)`. -/
def wakeWaiter : State ι ρ :=
  { s with waiter := if s.waiter = .blocked then .woken else s.waiter }

end State

/-- `mpsc_queue_create`: slot `i` starts at `seq = i`; the records of the
`malloc`ed buffer are whatever they were. -/
def mpscQueueCreate (g : Shape) (junk : ℕ → Entry ρ) : State ι ρ where
  buffer i := ⟨junk i, i⟩
  head := 0
  tail := 0
  closed := false
  consumerParked := false
  itemsSem := 0
  slotsSem := g.capacity
  drainLocked := false
  put _ := .idle
  consumer := .idle
  records := []
  closer := .idle
  waiter := .idle
  phase _ := .vacant
  item _ := tombstone
  claim _ := none
  copied := []
  done := []

/-- `mpsc_queue_try_put`, with `queue_signal_consumer` at its end. -/
def mpscQueueTryPut (g : Shape) (s : State ι ρ) (t : ι) : Option (State ι ρ) :=
  match s.put t with
  | .idle | .returned _ => none
  | .loadClosed r =>
    if s.closed then some (s.finish t r none (-1)) else some (s.setPut t (.loadTail r))
  | .loadTail r => some (s.setPut t (.loadHead r s.tail))
  | .loadHead r tailSnap =>
    if g.capacity ≤ szSub s.head tailSnap then some (s.finish t r none (-1))
    else some (s.setPut t (.fetchAdd r))
  | .fetchAdd r =>
    some (({ s with head := s.head + 1 }.setFate t r s.head .pending).setPut t
      (.recheck r s.head))
  | .recheck r pos =>
    if g.capacity ≤ szSub pos s.tail then
      if g.capacity ≤ pos then some (s.setPut t (.poll r pos s.tail))
      else some ((s.setFate t r pos .refused).setPut t (.writeTomb r pos))
    else some ((s.setFate t r pos .accepted).setPut t (.writeRec r pos))
  | .poll r pos _ =>
    if pos - g.capacity < s.tail then
      some ((s.setFate t r pos .refused).setPut t (.writeTomb r pos))
    else some (s.setPut t (.poll r pos s.tail))
  | .writeTomb r pos => some ((s.writeSlot g pos tombstone).setPut t (.publishTomb r pos))
  | .publishTomb r pos => some ((s.publishSlot g pos).setPut t (.signal r pos (-1)))
  | .writeRec r pos => some ((s.writeSlot g pos ⟨r, false⟩).setPut t (.publishRec r pos))
  | .publishRec r pos => some ((s.publishSlot g pos).setPut t (.signal r pos 0))
  | .signal r pos ret =>
    if s.consumerParked then some ({ s with consumerParked := false }.setPut t (.post r pos ret))
    else some (s.finish t r (some pos) ret)
  | .post r pos ret => some ({ s with itemsSem := s.itemsSem + 1 }.finish t r (some pos) ret)

/-- The exit `++stalls > 1000000` of the polling loop: a poll that sees no
progress of `tail` returns without publishing. -/
def abandon (g : Shape) (s : State ι ρ) (t : ι) : Option (State ι ρ) :=
  match s.put t with
  | .poll r pos lastTail =>
    if pos - g.capacity < s.tail ∨ s.tail ≠ lastTail then none
    else some ((s.setFate t r pos .abandoned).finish t r (some pos) (-1))
  | _ => none

/-- A spurious failure of the weak compare-exchange in `queue_signal_consumer`. -/
def casMiss (s : State ι ρ) (t : ι) : Option (State ι ρ) :=
  match s.put t with
  | .signal r pos ret => some (s.finish t r (some pos) ret)
  | _ => none

/-- `mpsc_queue_wait_for_items`. -/
def mpscQueueWaitForItems (s : State ι ρ) : WaitForItems → Option (State ι ρ)
  | .loadHead => some { s with consumer := .wait (.loadTail s.head) }
  | .loadTail head =>
    if head = s.tail then some { s with consumer := .wait .loadClosed }
    else some { s with consumer := .wait (.returned 0) }
  | .loadClosed =>
    if s.closed then some { s with consumer := .wait (.returned (-1)) }
    else some { s with consumer := .wait .park }
  | .park => some { s with consumerParked := true, consumer := .wait .reloadHead }
  | .reloadHead => some { s with consumer := .wait (.reloadTail s.head) }
  | .reloadTail head =>
    if head = s.tail then some { s with consumer := .wait .reloadClosed }
    else some { s with consumer := .wait (.unpark 0) }
  | .reloadClosed =>
    if s.closed then some { s with consumer := .wait (.unpark (-1)) }
    else some { s with consumer := .wait .semWait }
  | .semWait =>
    if s.itemsSem = 0 then none
    else some { s with itemsSem := s.itemsSem - 1, consumer := .wait .unparkAwake }
  | .unparkAwake => some { s with consumerParked := false, consumer := .wait .loadHead }
  | .unpark ret => some { s with consumerParked := false, consumer := .wait (.returned ret) }
  | .returned _ => none

/-- What follows the copying loop. -/
def afterLoop (tail n : ℕ) : GetBatchTry := if n = 0 then .returned 0 else .storeTail tail n

/-- The test `n < available && n < max_records` of the copying loop. -/
def loopTop (maxRecords head tail n : ℕ) : GetBatchTry :=
  if n < szSub head tail ∧ n < maxRecords then .loadSeq maxRecords head tail n
  else afterLoop tail n

/-- `mpsc_queue_get_batch_try`. -/
def mpscQueueGetBatchTry (g : Shape) (s : State ι ρ) : GetBatchTry → Option (State ι ρ)
  | .loadHead maxRecords => some { s with consumer := .get (.loadTail maxRecords s.head) }
  | .loadTail maxRecords head =>
    if szSub head s.tail = 0 then some { s with consumer := .get (.returned 0) }
    else some { s with consumer := .get (loopTop maxRecords head s.tail 0) }
  | .loadSeq maxRecords head tail n =>
    if (s.buffer (g.ix (tail + n))).seq = tail + n + 1 then
      some { s with consumer := .get (.copy maxRecords head tail n) }
    else some { s with consumer := .get (afterLoop tail n) }
  | .copy maxRecords head tail n =>
    some { s with
      records := s.records ++ [(s.buffer (g.ix (tail + n))).entry]
      copied := s.copied ++ [(s.buffer (g.ix (tail + n))).entry]
      consumer := .get (loopTop maxRecords head tail (n + 1)) }
  | .storeTail tail n => some { s with tail := tail + n, consumer := .get (.postSlots n n) }
  | .postSlots n i =>
    some { s with
      slotsSem := s.slotsSem + 1
      consumer := .get (if i ≤ 1 then .remHead n else .postSlots n (i - 1)) }
  | .remHead n => some { s with consumer := .get (.remTail n s.head) }
  | .remTail n head =>
    if head = s.tail then some { s with consumer := .get (.lock n) }
    else some { s with consumer := .get (.returned n) }
  | .lock n =>
    if s.drainLocked then none
    else some { s with drainLocked := true, consumer := .get (.broadcast n) }
  | .broadcast n => some { s.wakeWaiter with consumer := .get (.unlock n) }
  | .unlock n => some { s with drainLocked := false, consumer := .get (.returned n) }
  | .returned _ => none

/-- `mpsc_queue_close`. -/
def mpscQueueClose (g : Shape) (s : State ι ρ) : Option (State ι ρ) :=
  match s.closer with
  | .idle | .returned => none
  | .store => some { s with closed := true, closer := .postItems }
  | .postItems => some { s with itemsSem := s.itemsSem + 1, closer := .postSlots g.capacity }
  | .postSlots i =>
    some { s with
      slotsSem := s.slotsSem + 1, closer := if i ≤ 1 then .lock else .postSlots (i - 1) }
  | .lock => if s.drainLocked then none else some { s with drainLocked := true, closer := .broadcast }
  | .broadcast => some { s.wakeWaiter with closer := .unlock }
  | .unlock => some { s with drainLocked := false, closer := .returned }

/-- `mpsc_queue_wait_empty`. -/
def mpscQueueWaitEmpty (s : State ι ρ) : Option (State ι ρ) :=
  match s.waiter with
  | .idle | .blocked | .returned => none
  | .lock => if s.drainLocked then none else some { s with drainLocked := true, waiter := .loadHead }
  | .loadHead => some { s with waiter := .loadTail s.head }
  | .loadTail head =>
    if head = s.tail then some { s with waiter := .unlock }
    else some { s with drainLocked := false, waiter := .blocked }
  | .woken => if s.drainLocked then none else some { s with drainLocked := true, waiter := .loadHead }
  | .unlock => some { s with drainLocked := false, waiter := .returned }

/-- A party may start a call when it is not inside one. -/
def TryPut.inside : TryPut ρ → Bool
  | .idle | .returned _ => false
  | _ => true

/-- The consumer is between two calls. -/
def Consumer.free : Consumer → Bool
  | .idle | .wait (.returned _) | .get (.returned _) => true
  | _ => false

/-- One step of the system. -/
def step (g : Shape) (s : State ι ρ) : Act ι ρ → Option (State ι ρ)
  | .call t r => if (s.put t).inside then none else some (s.setPut t (.loadClosed r))
  | .put t => mpscQueueTryPut g s t
  | .giveUp t => abandon g s t
  | .casMiss t => casMiss s t
  | .callWait =>
    if s.consumer.free then some { s with consumer := .wait .loadHead } else none
  | .callGet maxRecords =>
    if s.consumer.free ∧ maxRecords ≠ 0 then
      some { s with records := [], consumer := .get (.loadHead maxRecords) }
    else none
  | .consume =>
    match s.consumer with
    | .idle => none
    | .wait pc => mpscQueueWaitForItems s pc
    | .get pc => mpscQueueGetBatchTry g s pc
  | .callClose => match s.closer with
      | .idle => some { s with closer := .store }
      | _ => none
  | .close => mpscQueueClose g s
  | .callWaitEmpty =>
    if s.waiter = .idle ∨ s.waiter = .returned then some { s with waiter := .lock } else none
  | .waitEmpty => mpscQueueWaitEmpty s
  | .spurious => if s.waiter = .blocked then some { s with waiter := .woken } else none

/-- No producer is inside `mpsc_queue_try_put`. -/
def State.quiet (s : State ι ρ) : Prop := ∀ t, (s.put t).inside = false

/-- The record of the accepted call that owns position `p`. -/
def State.acceptedAt (s : State ι ρ) (p : ℕ) : Option ρ :=
  match s.claim p with
  | some ⟨_, r, .accepted⟩ => some r
  | _ => none

/-- How many slots the batch in progress has copied. -/
def Consumer.taken : Consumer → ℕ
  | .get (.loadSeq _ _ _ n) => n
  | .get (.copy _ _ _ n) => n
  | .get (.storeTail _ n) => n
  | _ => 0

end Queue
end Clogx
