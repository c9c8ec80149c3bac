/-
# The blocking put, and close

`mpsc_queue_put` (`core/queue.c`): it tries `mpsc_queue_try_put`, and where that
fails on an open queue it waits on `slots_sem` and tries again.  The queue below is
that of `Clogx.Queue.Model`; a producer is in one call of `mpsc_queue_try_put` after
the other, and between them at a place of `Put`.

`slots_sem` starts at the capacity, but a put that succeeds takes no token, so the
value is not the number of free slots.  After the store of `closed` nobody decides to
wait any more: who still waits had found the queue open.  The tokens for those
waiters are the ones there, one for each record the consumer has yet to take
(`State.tokens`), and `capacity` more that `mpsc_queue_close` posts; that is enough
for them, or it is not.
-/

import Clogx.Queue.Call
import Mathlib.Data.Set.Card

namespace Clogx
namespace Queue

open SeqRing (Shape)

variable {ι ρ : Type*}

/-! ### Tokens -/

/-- The posts to `slots_sem` that `mpsc_queue_close` still makes, once it has stored `closed`. -/
def Close.slotPosts (capacity : ℕ) : Close → ℕ
  | .postItems => capacity
  | .postSlots i => i
  | _ => 0

/-- The posts to `slots_sem` that the batch in progress still makes. -/
def Consumer.slotPosts : Consumer → ℕ
  | .get (.postSlots _ i) => i
  | _ => 0

/-- The tokens of `slots_sem`: those there, those about to be posted, and one for each position
that the consumer has not freed. -/
def State.tokens (g : Shape) (s : State ι ρ) : ℕ :=
  s.slotsSem + s.closer.slotPosts g.capacity + s.consumer.slotPosts + (s.head - s.tail)

variable [DecidableEq ι] [Inhabited ρ] {g : Shape} {s s' : State ι ρ}

omit [DecidableEq ι] in
/-- The batch call posts for what it frees. -/
theorem tokens_getBatchTry (hi : Inv g s) {pc : GetBatchTry} (hc : s.consumer = .get pc)
    (hs : mpscQueueGetBatchTry g s pc = some s') : s.tokens g ≤ s'.tokens g := by
  have hget := hi.get
  simp only [GetOk, hc] at hget
  -- a step that neither posts nor frees
  have hmove : ∀ c : GetBatchTry, (∀ n i, pc ≠ .postSlots n i) → ∀ (records copied : List (Entry ρ))
      (locked : Bool) (waiter : WaitEmpty), s.tokens g ≤ ({ s with
        records := records, copied := copied, drainLocked := locked, waiter := waiter
        consumer := .get c } : State ι ρ).tokens g := by
    intro c hne records copied locked waiter
    have hzero : s.consumer.slotPosts = 0 := by
      rw [hc]
      cases pc <;> first | rfl | exact absurd rfl (hne _ _)
    simp only [State.tokens, hzero]
    omega
  cases pc with
  | storeTail tail n =>
    cases hs
    have htail : tail = s.tail := hget.1
    simp only [State.tokens, hc, Consumer.slotPosts, htail]
    omega
  | postSlots n i =>
    cases hs
    simp only [State.tokens, hc]
    split_ifs <;> simp only [Consumer.slotPosts] <;> omega
  | _ =>
    simp only [mpscQueueGetBatchTry] at hs
    try split_ifs at hs
    all_goals first
      | cases hs; done
      | (cases hs; exact hmove _ (by rintro n i ⟨⟩) _ _ _ _)

omit [DecidableEq ι] [Inhabited ρ] in
theorem slotPosts_of_free {c : Consumer} (h : c.free = true) : c.slotPosts = 0 := by
  rcases c with _ | _ | pc
  · rfl
  · rfl
  · cases pc <;> first | rfl | cases h

/-- **No step takes a token away.** -/
theorem tokens_step {a : Act ι ρ} (hi : Inv g s) (hs : step g s a = some s') :
    s.tokens g ≤ s'.tokens g := by
  cases a with
  | call | put | giveUp | casMiss =>
    obtain ⟨buffer, head, parked, items, put, phase, item, claim, done, hhead, -, rfl⟩ :=
      producer_eq rfl hs
    simp only [State.tokens]
    omega
  | callWait | callGet =>
    simp only [step] at hs
    split_ifs at hs with hfree
    cases hs
    have hzero : s.consumer.slotPosts = 0 := slotPosts_of_free (by simp_all)
    simp only [State.tokens, hzero]
    omega
  | consume =>
    rcases consume_cases hs with ⟨pc, hc, hs⟩ | ⟨pc, hc, hs⟩
    · have hzero : s.consumer.slotPosts = 0 := by rw [hc]; rfl
      obtain ⟨parked, items, pc', rfl⟩ := waitForItems_eq hs
      simp only [State.tokens, hzero]
      omega
    · exact tokens_getBatchTry hi hc hs
  | callClose =>
    obtain ⟨hcloser, rfl⟩ := callClose_eq hs
    simp only [State.tokens, hcloser, Close.slotPosts]
    exact le_rfl
  | close =>
    simp only [step, mpscQueueClose] at hs
    cases hk : s.closer with
    | postSlots i =>
      rw [hk] at hs
      cases hs
      simp only [State.tokens, hk]
      split_ifs <;> simp only [Close.slotPosts] <;> omega
    | _ =>
      simp only [hk] at hs
      try split_ifs at hs
      all_goals first
        | cases hs; done
        | (cases hs
           simp only [State.tokens, State.wakeWaiter, hk, Close.slotPosts]
           omega)
  | callWaitEmpty | spurious =>
    simp only [step] at hs
    split_ifs at hs
    cases hs
    exact le_rfl
  | waitEmpty =>
    obtain ⟨locked, waiter, rfl⟩ := waitEmpty_eq hs
    exact le_rfl

/-- Only the store of `mpsc_queue_close` closes the queue; the posts of the close are still to
come. -/
theorem store_of_closed {a : Act ι ρ} (hopen : s.closed = false) (hs : step g s a = some s')
    (hclosed : s'.closed = true) : a = .close ∧ s.closer = .store ∧
      s'.tokens g = s.tokens g + g.capacity := by
  have hsame : s'.closed ≠ s.closed := by
    rw [hopen, hclosed]
    decide
  obtain rfl : a = .close := by
    by_contra ha
    exact hsame (closed_of_ne_close ha hs)
  simp only [step, mpscQueueClose] at hs
  cases hk : s.closer with
  | store =>
    rw [hk] at hs
    cases hs
    refine ⟨rfl, rfl, ?_⟩
    simp only [State.tokens, hk, Close.slotPosts]
    omega
  | _ =>
    simp only [hk] at hs
    try split_ifs at hs
    all_goals first
      | cases hs; done
      | (cases hs; exact absurd rfl hsame)

end Queue

namespace Blocking

open SeqRing (Shape)
open Machine (Reach Reachable exists_of_run exists_of_runIf)

/-! ### `mpsc_queue_put` -/

/-- Where a call of `mpsc_queue_put` stands; in `tryPut` the queue says how far it is. -/
inductive Put (ρ : Type*)
  | idle
  | tryPut (r : ρ)
  | loadClosed (r : ρ)
  | semWait (r : ρ)
  | returned (ret : ℤ)

/-- The queue and the producers that block. -/
structure State (ι ρ : Type*) where
  q : Queue.State ι ρ
  put : ι → Put ρ

/-- A call begins, a call goes on outside `mpsc_queue_try_put`, or the queue takes a step. -/
inductive Act (ι ρ : Type*)
  | call (t : ι) (r : ρ)
  | put (t : ι)
  | queue (a : Queue.Act ι ρ)

variable {ι ρ : Type*} [DecidableEq ι] [Inhabited ρ]

namespace State

variable (s : State ι ρ)

/-- Thread `t` goes to `pc`. -/
def goto (t : ι) (pc : Put ρ) : State ι ρ := { s with put := Function.update s.put t pc }

/-- Thread `t` calls `mpsc_queue_try_put`. -/
def tryPut (t : ι) (r : ρ) : State ι ρ :=
  { s with q := s.q.setPut t (.loadClosed r) }.goto t (.tryPut r)

end State

/-- `mpsc_queue_create`. -/
def create (g : Shape) (junk : ℕ → Queue.Entry ρ) : State ι ρ where
  q := Queue.mpscQueueCreate g junk
  put _ := .idle

/-- `mpsc_queue_put`. -/
def mpscQueuePut (s : State ι ρ) (t : ι) : Option (State ι ρ) :=
  match s.put t with
  | .idle | .returned _ => none
  | .tryPut r =>
    match s.q.put t with
    | .returned ret =>
      if ret = 0 then some (s.goto t (.returned 0)) else some (s.goto t (.loadClosed r))
    | _ => none
  | .loadClosed r =>
    if s.q.closed then some (s.goto t (.returned (-1))) else some (s.goto t (.semWait r))
  | .semWait r =>
    if s.q.slotsSem = 0 then none
    else some ({ s with q := { s.q with slotsSem := s.q.slotsSem - 1 } }.tryPut t r)

/-- One step of the system; `mpsc_queue_try_put` is called by `mpsc_queue_put` alone. -/
def step (g : Shape) (s : State ι ρ) : Act ι ρ → Option (State ι ρ)
  | .call t r =>
    match s.put t with
    | .idle | .returned _ => some (s.tryPut t r)
    | _ => none
  | .put t => mpscQueuePut s t
  | .queue (.call ..) => none
  | .queue a => (Queue.step g s.q a).map fun q => { s with q := q }

/-- The call has found the queue open and waits on `slots_sem`. -/
def Put.waits : Put ρ → Bool
  | .semWait _ => true
  | _ => false

/-- The threads that wait. -/
def State.waiting (s : State ι ρ) : Set ι := {t | (s.put t).waits = true}

/-- The queue is closed, the close has returned, the consumer has drained the queue and left, and
a producer is still blocked. -/
structure State.Stuck (s : State ι ρ) : Prop where
  closed : s.q.closed = true
  closer : s.q.closer = .returned
  consumer : s.q.consumer = .wait (.returned (-1))
  drained : s.q.tail = s.q.head
  empty : s.q.slotsSem = 0
  blocked : s.waiting.Nonempty

/-- The condition on a step: when `mpsc_queue_close` stores `closed`, the threads that wait are no
more than the tokens for them. -/
def Enough (g : Shape) (s : State ι ρ) : Act ι ρ → Prop
  | .queue .close => s.q.closer = .store → s.waiting.encard ≤ (s.q.tokens g + g.capacity : ℕ)
  | _ => True

/-! ### The balance -/

/-- What is known of a run that meets the condition. -/
structure Inv (g : Shape) (s : State ι ρ) : Prop where
  queue : Queue.Inv g s.q
  balance : s.q.closed = true → s.waiting.encard ≤ (s.q.tokens g : ℕ)

variable {g : Shape} {s s' : State ι ρ} {t : ι} {r : ρ}

omit [Inhabited ρ] in
/-- A move that is not to or from the wait. -/
theorem waiting_update {pc : Put ρ} (hold : (s.put t).waits = false) (hnew : pc.waits = false) :
    {u | (Function.update s.put t pc u).waits = true} = s.waiting := by
  ext u
  change (Function.update s.put t pc u).waits = true ↔ (s.put u).waits = true
  rcases eq_or_ne u t with rfl | hne
  · rw [Function.update_self, hold, hnew]
  · rw [Function.update_of_ne hne]

omit [Inhabited ρ] in
/-- A thread leaves the wait. -/
theorem waiting_leave {pc : Put ρ} (hold : (s.put t).waits = true) (hnew : pc.waits = false) :
    {u | (Function.update s.put t pc u).waits = true}.encard + 1 = s.waiting.encard := by
  have heq : {u | (Function.update s.put t pc u).waits = true} = s.waiting \ {t} := by
    ext u
    change (Function.update s.put t pc u).waits = true ↔ (s.put u).waits = true ∧ u ≠ t
    rcases eq_or_ne u t with rfl | hne
    · rw [Function.update_self, hnew]
      exact iff_of_false Bool.false_ne_true fun h => h.2 rfl
    · rw [Function.update_of_ne hne]
      exact (and_iff_left hne).symm
  rw [heq]
  exact Set.encard_sdiff_singleton_add_one hold

/-- A call of `mpsc_queue_try_put` that begins. -/
theorem Inv.tryPut (h : Inv g s) (ht : (s.put t).waits = false) : Inv g (s.tryPut t r) where
  queue := h.queue.setPut trivial
  balance hclosed := by
    have hwaiting : (s.tryPut t r).waiting = s.waiting := waiting_update ht rfl
    rw [hwaiting]
    exact h.balance hclosed

/-- A step of a call outside `mpsc_queue_try_put`. -/
theorem Inv.goto {pc : Put ρ} (h : Inv g s) (ht : (s.put t).waits = false)
    (hpc : pc.waits = true → s.q.closed = false) : Inv g (s.goto t pc) where
  queue := h.queue
  balance hclosed := by
    have hnew : pc.waits = false := by
      refine Bool.eq_false_iff.2 fun hw => ?_
      have hopen := hpc hw
      rw [show s.q.closed = true from hclosed] at hopen
      cases hopen
    have hwaiting : (s.goto t pc).waiting = s.waiting := waiting_update ht hnew
    rw [hwaiting]
    exact h.balance hclosed

/-- **A waiter takes a token:** one less waits for one less. -/
theorem Inv.wake (h : Inv g s) (ht : (s.put t).waits = true) (hpos : s.q.slotsSem ≠ 0) :
    Inv g ({ s with q := { s.q with slotsSem := s.q.slotsSem - 1 } }.tryPut t r) where
  queue := (h.queue.frame _ _ _ _ (s.q.slotsSem - 1) _ _ _).setPut trivial
  balance hclosed := by
    have hbalance := h.balance hclosed
    have htokens : s.q.tokens g = (State.tryPut
        { s with q := { s.q with slotsSem := s.q.slotsSem - 1 } } t r).q.tokens g + 1 := by
      simp only [Queue.State.tokens, State.tryPut, State.goto, Queue.State.setPut]
      omega
    have hleave := @waiting_leave _ _ _ s t (.tryPut r) ht rfl
    rw [htokens, ← hleave, Nat.cast_add, Nat.cast_one] at hbalance
    exact (ENat.add_le_add_iff_right ENat.one_ne_top).1 hbalance

/-- A step of `mpsc_queue_put` keeps the balance. -/
theorem Inv.put (h : Inv g s) (hs : mpscQueuePut s t = some s') : Inv g s' := by
  unfold mpscQueuePut at hs
  split at hs
  case h_1 => cases hs
  case h_2 => cases hs
  case h_3 r hpc =>
    have ht : (s.put t).waits = false := by rw [hpc]; rfl
    split at hs
    · split_ifs at hs <;> cases hs
      · exact h.goto ht fun hw => by cases hw
      · exact h.goto ht fun hw => by cases hw
    · cases hs
  case h_4 r hpc =>
    have ht : (s.put t).waits = false := by rw [hpc]; rfl
    split_ifs at hs with hclosed <;> cases hs
    · exact h.goto ht fun hw => by cases hw
    · exact h.goto ht fun _ => Bool.eq_false_iff.2 hclosed
  case h_5 r hpc =>
    split_ifs at hs with hzero
    cases hs
    exact h.wake (by rw [hpc]; rfl) hzero

/-- A step of the queue. -/
theorem Inv.ofQueue {a : Queue.Act ι ρ} {q : Queue.State ι ρ} (h : Inv g s)
    (hok : Enough g s (.queue a)) (hq : Queue.step g s.q a = some q) :
    Inv g { s with q := q } where
  queue := Queue.inv_step h.queue hq
  balance hclosed := by
    cases hopen : s.q.closed with
    | true =>
      refine (h.balance hopen).trans (Nat.cast_le.2 ?_)
      exact Queue.tokens_step h.queue hq
    | false =>
      obtain ⟨rfl, hstore, htokens⟩ := Queue.store_of_closed hopen hq hclosed
      rw [htokens]
      exact hok hstore

/-- **Every step that meets the condition keeps the balance.** -/
theorem Inv.step {a : Act ι ρ} (h : Inv g s) (hok : Enough g s a)
    (hs : step g s a = some s') : Inv g s' := by
  cases a with
  | call t r =>
    simp only [Blocking.step] at hs
    split at hs
    case h_1 hpc =>
      cases hs
      exact h.tryPut (by rw [hpc]; rfl)
    case h_2 ret hpc =>
      cases hs
      exact h.tryPut (by rw [hpc]; rfl)
    case h_3 => cases hs
  | put t => exact h.put hs
  | queue a =>
    cases a with
    | call => cases hs
    | _ =>
      obtain ⟨q, hq, rfl⟩ := Option.map_eq_some_iff.1 hs
      exact h.ofQueue hok hq

/-- So it holds in every run that meets the condition. -/
theorem inv_of_reach {junk : ℕ → Queue.Entry ρ} (h : Reach (step g) (Enough g) (create g junk) s) :
    Inv g s :=
  h.invariant (I := Inv g) ⟨Queue.inv_create junk, fun hclosed => by cases hclosed⟩
    fun _ _ _ hi hok hs => hi.step hok hs

/-- **Close releases the producers that it has tokens for.**  In every run, over any number of
producers, in which the threads that wait when `mpsc_queue_close` stores `closed` are no more than
the tokens for them, no producer is left blocked. -/
theorem not_stuck_of_enough (g : Shape) (junk : ℕ → Queue.Entry ρ) (s : State ι ρ)
    (h : Reach (step g) (Enough g) (create g junk) s) : ¬ s.Stuck := by
  intro hstuck
  have hbalance := (inv_of_reach h).balance hstuck.closed
  have hzero : s.q.tokens g = 0 := by
    simp only [Queue.State.tokens, hstuck.empty, hstuck.closer, hstuck.consumer, hstuck.drained,
      Queue.Close.slotPosts, Queue.Consumer.slotPosts]
    omega
  rw [hzero, Nat.cast_zero, nonpos_iff_eq_zero, Set.encard_eq_zero] at hbalance
  exact hstuck.blocked.ne_empty hbalance

/-- A queue of one slot. -/
def oneSlot (n : ℕ) : State (Fin n) ℕ := create (.ofPow 0) fun _ => Queue.tombstone

/-- `n` steps of thread `t` inside `mpsc_queue_try_put`. -/
def tries {k : ℕ} (t : Fin k) (n : ℕ) : List (Act (Fin k) ℕ) :=
  List.replicate n (.queue (.put t))

/-- Thread `t` puts a record into the empty slot. -/
def fills {k : ℕ} (t : Fin k) : List (Act (Fin k) ℕ) := .call t 0 :: tries t 8 ++ [.put t]

/-- Thread `t` finds no room and goes to wait. -/
def finds {k : ℕ} (t : Fin k) : List (Act (Fin k) ℕ) := tries t 3 ++ [.put t, .put t]

/-- With two threads, a record in the queue is enough. -/
theorem enough_of_record {s : State (Fin 2) ℕ} {a : Act (Fin 2) ℕ}
    (h : s.q.closer = .store → s.q.tail < s.q.head) : Enough (.ofPow 0) s a := by
  rcases a with _ | _ | a
  · trivial
  · trivial
  cases a
  case close =>
    intro hstore
    have htokens : 2 ≤ s.q.tokens (.ofPow 0) + 1 := by
      have hlt := h hstore
      simp only [Queue.State.tokens]
      omega
    calc s.waiting.encard ≤ ENat.card (Fin 2) := Set.encard_le_card
      _ = (2 : ℕ) := by rw [ENat.card_eq_coe_fintype_card, Fintype.card_fin]
      _ ≤ (s.q.tokens (.ofPow 0) + 1 : ℕ) := Nat.cast_le.2 htokens
  all_goals trivial

/-- The first thread fills the slot, the second uses up the token and waits; the queue is closed and
drained, and the consumer leaves. -/
def leaves : List (Act (Fin 2) ℕ) :=
  List.flatten [fills 0, [.call 1 0], finds 1, [.put 1], finds 1, [.queue .callClose],
    List.replicate 6 (.queue .close), [.queue (.callGet 1)], List.replicate 11 (.queue .consume),
    [.queue .callWait], List.replicate 3 (.queue .consume)]

/-- When the close has returned and the consumer has left, the second thread still waits, and has a
token to wake it. -/
theorem not_stuck_of_enough_two : ∃ s : State (Fin 2) ℕ,
    Reach (step (.ofPow 0)) (Enough (.ofPow 0)) (oneSlot 2) s ∧
      (s.q.closer = .returned ∧ s.q.consumer = .wait (.returned (-1)) ∧ s.q.tail = s.q.head ∧
        (s.put 1).waits = true) ∧ ¬ s.Stuck := by
  obtain ⟨s, hreach, hs⟩ : ∃ s : State (Fin 2) ℕ,
      Reach (step (.ofPow 0)) (fun s _ => s.q.closer = .store → s.q.tail < s.q.head) (oneSlot 2) s ∧
        (s.q.closer = .returned ∧ s.q.consumer = .wait (.returned (-1)) ∧ s.q.tail = s.q.head ∧
          (s.put 1).waits = true) :=
    exists_of_runIf leaves (by decide +kernel)
  have hreach' : Reach (step (.ofPow 0)) (Enough (.ofPow 0)) (oneSlot 2) s :=
    hreach.mono fun _ _ => enough_of_record
  exact ⟨s, hreach', hs, not_stuck_of_enough (.ofPow 0) _ s hreach'⟩

/-- The threads 1, 2 and 3 wait for the slot that thread 0 has filled, thread 1 for the second
time; the queue is closed and drained; two tokens wake two of them. -/
def strands : List (Act (Fin 4) ℕ) :=
  List.flatten [fills 0, [.call 1 0], finds 1, [.put 1], finds 1, [.call 2 0], finds 2, [.call 3 0],
    finds 3, [.queue .callClose], List.replicate 6 (.queue .close), [.queue (.callGet 1)],
    List.replicate 11 (.queue .consume), [.queue .callWait], List.replicate 3 (.queue .consume),
    [.put 1, .queue (.put 1), .put 1, .put 1], [.put 2, .queue (.put 2), .put 2, .put 2]]

/-- **A producer is left blocked.** -/
theorem stuck_after_close : ∃ s : State (Fin 4) ℕ,
    Reachable (step (.ofPow 0)) (oneSlot 4) s ∧ s.Stuck := by
  obtain ⟨s, hreach, hclosed, hcloser, hconsumer, hdrained, hempty, hblocked⟩ :
      ∃ s : State (Fin 4) ℕ, Reachable (step (.ofPow 0)) (oneSlot 4) s ∧
        (s.q.closed = true ∧ s.q.closer = .returned ∧ s.q.consumer = .wait (.returned (-1)) ∧
          s.q.tail = s.q.head ∧ s.q.slotsSem = 0 ∧ (s.put 3).waits = true) :=
    exists_of_run strands (by decide +kernel)
  exact ⟨s, hreach, hclosed, hcloser, hconsumer, hdrained, hempty, ⟨3, hblocked⟩⟩

end Blocking
end Clogx
