/-
# Locks, sleepers and the close flag

What the parties other than the producers owe each other.  `drain_mutex` has at
most one holder (`Sync.lock`).  A waiter asleep on `drain_cond`, or about to go to
sleep, while the queue is empty, has a consumer on its way to the broadcast
(`Sync.waiter`), so no wake-up is lost.  Once `mpsc_queue_close` has posted
`items_sem`, a consumer blocked on it finds a token (`Sync.token`).

Producers only ever add to what these facts rest on (`SameOthers`).
-/

import Clogx.Queue.History

namespace Clogx
namespace Queue

open SeqRing (Shape Phase)
open Machine (Reach Reachable)

variable {ι ρ : Type*}

/-- The consumer holds `drain_mutex`. -/
def Consumer.locks : Consumer → Bool
  | .get (.broadcast _) | .get (.unlock _) => true
  | _ => false

/-- The closer holds `drain_mutex`. -/
def Close.locks : Close → Bool
  | .broadcast | .unlock => true
  | _ => false

/-- The waiter holds `drain_mutex`. -/
def WaitEmpty.locks : WaitEmpty → Bool
  | .loadHead | .loadTail _ | .unlock => true
  | _ => false

/-- The consumer has stored `tail` and not yet found the queue non-empty again,
nor broadcast. -/
def Consumer.pending : Consumer → Bool
  | .get (.postSlots _ _) | .get (.remHead _) | .get (.remTail _ _) | .get (.lock _)
  | .get (.broadcast _) => true
  | _ => false

/-- `mpsc_queue_close` has stored `closed`. -/
def Close.stored : Close → Bool
  | .idle | .store => false
  | _ => true

/-- `mpsc_queue_close` has posted `items_sem`. -/
def Close.posted : Close → Bool
  | .idle | .store | .postItems => false
  | _ => true

/-- The invariant of the parties that are not producers. -/
structure Sync (s : State ι ρ) : Prop where
  lock : s.consumer.locks.toNat + s.closer.locks.toNat + s.waiter.locks.toNat
    = s.drainLocked.toNat
  rem : ∀ n h, s.consumer = .get (.remTail n h) → s.tail ≤ h ∧ h ≤ s.head
  waiter : (s.waiter = .blocked ∨ ∃ h, s.waiter = .loadTail h ∧ h ≠ s.tail) → s.tail = s.head →
    s.consumer.pending = true
  closed : s.closed = s.closer.stored
  token : s.closer.posted = true → s.consumer = .wait .semWait → 0 < s.itemsSem

/-- What a producer's step leaves alone, and how far it moves the rest. -/
structure SameOthers (s s' : State ι ρ) : Prop where
  tail : s'.tail = s.tail
  closed : s'.closed = s.closed
  drainLocked : s'.drainLocked = s.drainLocked
  consumer : s'.consumer = s.consumer
  records : s'.records = s.records
  copied : s'.copied = s.copied
  closer : s'.closer = s.closer
  waiter : s'.waiter = s.waiter
  head_le : s.head ≤ s'.head
  items_le : s.itemsSem ≤ s'.itemsSem

variable {g : Shape} {s s' : State ι ρ}

/-- A step of a producer. -/
theorem Sync.sameOthers (h : Sync s) (hle : s.tail ≤ s.head) (hs : SameOthers s s') : Sync s' := by
  have hhead := hs.head_le
  constructor
  · rw [hs.consumer, hs.closer, hs.waiter, hs.drainLocked]
    exact h.lock
  · intro n k hk
    obtain ⟨h₁, h₂⟩ := h.rem n k (hs.consumer ▸ hk)
    exact ⟨hs.tail ▸ h₁, h₂.trans hhead⟩
  · rw [hs.consumer, hs.waiter, hs.tail]
    intro hw he
    exact h.waiter hw (by omega)
  · rw [hs.closed, hs.closer]
    exact h.closed
  · rw [hs.closer, hs.consumer]
    exact fun hp hc => (h.token hp hc).trans_le hs.items_le

section Producer

variable [DecidableEq ι]

variable [Inhabited ρ]

/-- What a producer may change. -/
theorem producer_eq {a : Act ι ρ} {t : ι} (ha : a.producer = some t)
    (hs : step g s a = some s') : ∃ buffer head parked items put phase item claim done,
      s.head ≤ head ∧ s.itemsSem ≤ items ∧ s' =
        { s with
          buffer := buffer, head := head, consumerParked := parked, itemsSem := items, put := put
          phase := phase, item := item, claim := claim, done := done } := by
  cases a with
  | call u r =>
    simp only [step] at hs
    split_ifs at hs
    exact ⟨_, _, _, _, _, _, _, _, _, le_rfl, le_rfl, (Option.some.inj hs).symm⟩
  | put u =>
    simp only [step, mpscQueueTryPut] at hs
    cases hpc : s.put u <;> simp only [hpc] at hs <;> try split_ifs at hs
    case fetchAdd =>
      exact ⟨_, _, _, _, _, _, _, _, _, Nat.le_succ _, le_rfl, (Option.some.inj hs).symm⟩
    case post =>
      exact ⟨_, _, _, _, _, _, _, _, _, le_rfl, Nat.le_succ _, (Option.some.inj hs).symm⟩
    all_goals first
      | cases hs; done
      | exact ⟨_, _, _, _, _, _, _, _, _, le_rfl, le_rfl, (Option.some.inj hs).symm⟩
  | giveUp u =>
    obtain ⟨r, pos, -, -, heq⟩ := abandon_eq hs
    exact ⟨_, _, _, _, _, _, _, _, _, le_rfl, le_rfl, heq⟩
  | casMiss u =>
    obtain ⟨r, pos, ret, -, heq⟩ := casMiss_eq hs
    exact ⟨_, _, _, _, _, _, _, _, _, le_rfl, le_rfl, heq⟩
  | callWait | callGet | consume | callClose | close | callWaitEmpty | waitEmpty | spurious =>
    cases ha

/-- Producers leave the other parties alone. -/
theorem sameOthers_step {a : Act ι ρ} {t : ι} (ha : a.producer = some t)
    (hs : step g s a = some s') : SameOthers s s' := by
  obtain ⟨buffer, head, parked, items, put, phase, item, claim, done, hhead, hitems, rfl⟩ :=
    producer_eq ha hs
  exact ⟨rfl, rfl, rfl, rfl, rfl, rfl, rfl, rfl, hhead, hitems⟩

end Producer

/-- The consumer moves on outside the lock, and not away from a broadcast it owes. -/
theorem Sync.moveConsumer (h : Sync s) {c : Consumer} (hl : c.locks = s.consumer.locks)
    (hp : s.consumer.pending = true → c.pending = true)
    (hrem : ∀ n k, c = .get (.remTail n k) → s.tail ≤ k ∧ k ≤ s.head)
    (htok : c = .wait .semWait → s.closed = false) : Sync { s with consumer := c } where
  lock := by rw [hl]; exact h.lock
  rem := hrem
  waiter hw he := hp (h.waiter hw he)
  closed := h.closed
  token hposted hc := by
    have hcl : s.closer.stored = false := by rw [← h.closed]; exact htok hc
    change s.closer.posted = true at hposted
    cases hk : s.closer <;> simp [hk, Close.stored, Close.posted] at hcl hposted

/-- A step of `mpsc_queue_wait_for_items` that does not end at the semaphore. -/
theorem Sync.moveWait (h : Sync s) {pc pc' : WaitForItems} (hc : s.consumer = .wait pc)
    (hne : pc' ≠ .semWait) (parked : Bool) (items : ℕ) :
    Sync { s with consumerParked := parked, itemsSem := items, consumer := .wait pc' } where
  lock := by have := h.lock; rwa [hc] at this
  rem _ _ hk := nomatch hk
  waiter hw he := by have := h.waiter hw he; rwa [hc] at this
  closed := h.closed
  token _ hk := absurd (Consumer.wait.inj hk) hne

/-- A step of the waiting consumer. -/
theorem Sync.waitForItems (h : Sync s) {pc : WaitForItems} (hc : s.consumer = .wait pc)
    (hs : mpscQueueWaitForItems s pc = some s') : Sync s' := by
  cases pc with
  | returned => cases hs
  | loadHead | reloadHead | park | unparkAwake | unpark =>
    cases hs
    exact h.moveWait hc (by simp) ..
  | loadTail | reloadTail | loadClosed =>
    simp only [mpscQueueWaitForItems] at hs
    split_ifs at hs <;> cases hs <;> exact h.moveWait hc (by simp) ..
  | semWait =>
    simp only [mpscQueueWaitForItems] at hs
    split_ifs at hs
    cases hs
    exact h.moveWait hc (by simp) ..
  | reloadClosed =>
    simp only [mpscQueueWaitForItems] at hs
    split_ifs at hs with hcl <;> cases hs
    · exact h.moveWait hc (by simp) ..
    · -- the consumer goes to sleep only on a queue it has seen open
      exact h.moveConsumer (by rw [hc]; rfl) (by rw [hc]; exact fun hp => hp)
        (fun n k hk => by cases hk) fun _ => by simpa using hcl

/-- A step of `mpsc_queue_get_batch_try` outside the lock. -/
theorem Sync.moveGet (h : Sync s) {pc pc' : GetBatchTry} (hc : s.consumer = .get pc)
    (hl : (Consumer.get pc').locks = (Consumer.get pc).locks)
    (hp : (Consumer.get pc).pending = true → (Consumer.get pc').pending = true)
    (hrem : ∀ n k, pc' ≠ .remTail n k) (records copied : List (Entry ρ)) (slots : ℕ) :
    Sync { s with
      records := records, copied := copied, slotsSem := slots, consumer := .get pc' } where
  lock := by have := h.lock; rw [hc] at this; rw [hl]; exact this
  rem n k hk := absurd (Consumer.get.inj hk) (hrem n k)
  waiter hw he := hp (hc ▸ h.waiter hw he)
  closed := h.closed
  token _ hk := by cases hk

/-- A step of a batch call. -/
theorem Sync.getBatchTry (h : Sync s) {pc : GetBatchTry} (hle : s.tail ≤ s.head)
    (hc : s.consumer = .get pc) (hs : mpscQueueGetBatchTry g s pc = some s') : Sync s' := by
  have hlock := h.lock
  rw [hc] at hlock
  cases pc with
  | loadHead m =>
    cases hs
    exact h.moveGet hc (by rfl) (by simp [Consumer.pending]) (by simp) _ _ _
  | loadTail m head =>
    simp only [mpscQueueGetBatchTry, loopTop, afterLoop] at hs
    split_ifs at hs <;> cases hs <;>
      exact h.moveGet hc (by rfl) (by simp [Consumer.pending]) (by simp) _ _ _
  | loadSeq m head tail n =>
    simp only [mpscQueueGetBatchTry, afterLoop] at hs
    split_ifs at hs <;> cases hs <;>
      exact h.moveGet hc (by rfl) (by simp [Consumer.pending]) (by simp) _ _ _
  | copy m head tail n =>
    simp only [mpscQueueGetBatchTry, loopTop, afterLoop] at hs
    cases hs
    split_ifs <;> exact h.moveGet hc (by rfl) (by simp [Consumer.pending]) (by simp) _ _ _
  | storeTail tail n =>
    cases hs
    exact ⟨hlock, fun n k hk => (by cases hk), fun _ _ => rfl, h.closed, fun _ hk => by cases hk⟩
  | postSlots n i =>
    simp only [mpscQueueGetBatchTry] at hs
    cases hs
    split_ifs <;> exact h.moveGet hc (by rfl) (by simp [Consumer.pending]) (by simp) _ _ _
  | remHead n =>
    cases hs
    refine h.moveConsumer (by rw [hc]; rfl) (by rw [hc]; exact id) (fun m k hk => ?_)
      fun hk => by cases hk
    cases hk
    exact ⟨hle, le_rfl⟩
  | remTail n head =>
    obtain ⟨h₁, h₂⟩ := h.rem n head hc
    simp only [mpscQueueGetBatchTry] at hs
    split_ifs at hs with he <;> cases hs
    · exact h.moveGet hc (by rfl) (by simp [Consumer.pending]) (by simp) _ _ _
    · -- the queue is seen non-empty: nobody is owed a broadcast
      exact ⟨hlock, fun n k hk => (by cases hk), fun _ he' => absurd he' (by simp only; omega),
        h.closed, fun _ hk => by cases hk⟩
  | lock n =>
    simp only [mpscQueueGetBatchTry] at hs
    split_ifs at hs with hd
    cases hs
    have hd' : s.drainLocked = false := by simpa using hd
    rw [hd'] at hlock
    refine ⟨?_, fun n k hk => (by cases hk), fun _ _ => rfl, h.closed, fun _ hk => by cases hk⟩
    simp only [Consumer.locks, Bool.toNat_true, Bool.toNat_false] at hlock ⊢
    omega
  | broadcast n =>
    cases hs
    -- the consumer holds the lock, so the waiter is not between its two loads
    have hw : s.waiter.locks = false := by
      cases hb : s.waiter.locks
      · rfl
      · have := Bool.toNat_le s.drainLocked
        rw [hb] at hlock
        simp only [Consumer.locks, Bool.toNat_true] at hlock
        omega
    refine ⟨?_, fun n k hk => (by cases hk), fun hk _ => ?_, h.closed, fun _ hk => by cases hk⟩
    · show _ + _ + (if s.waiter = .blocked then WaitEmpty.woken else s.waiter).locks.toNat = _
      split_ifs with hb
      · rw [hb] at hlock
        exact hlock
      · exact hlock
    · exfalso
      change ((if s.waiter = .blocked then WaitEmpty.woken else s.waiter) = .blocked ∨
        ∃ k, (if s.waiter = .blocked then WaitEmpty.woken else s.waiter) = .loadTail k ∧ _) at hk
      split_ifs at hk with hb
      · simp at hk
      · obtain hk | ⟨k, hk, -⟩ := hk
        · exact hb hk
        · rw [hk] at hw
          cases hw
  | unlock n =>
    cases hs
    have hle := Bool.toNat_le s.drainLocked
    simp only [Consumer.locks, Bool.toNat_true] at hlock
    refine ⟨?_, fun n k hk => (by cases hk), fun hw he => ?_, h.closed, fun _ hk => by cases hk⟩
    · show 0 + s.closer.locks.toNat + s.waiter.locks.toNat = 0
      omega
    · exact absurd (h.waiter hw he) (by rw [hc]; simp [Consumer.pending])
  | returned => cases hs

/-- A step of the closer outside the lock, after the store. -/
theorem Sync.moveClose (h : Sync s) {c : Close} (hl : c.locks = s.closer.locks)
    (hs : c.stored = s.closer.stored) (hp : c.posted = s.closer.posted) (slots : ℕ) :
    Sync { s with slotsSem := slots, closer := c } where
  lock := by rw [hl]; exact h.lock
  rem := h.rem
  waiter := h.waiter
  closed := h.closed.trans hs.symm
  token hc := h.token (hp ▸ hc)

/-- A step of the closer. -/
theorem Sync.close (h : Sync s) (hs : mpscQueueClose g s = some s') : Sync s' := by
  obtain ⟨hlock, hrem, hwait, hclosed, htoken⟩ := h
  unfold mpscQueueClose at hs
  cases hc : s.closer with
  | idle | returned => simp [hc] at hs
  | store =>
    simp only [hc] at hs hlock
    cases hs
    exact ⟨hlock, hrem, hwait, rfl, fun hp => by cases hp⟩
  | postItems =>
    simp only [hc] at hs hlock hclosed
    cases hs
    exact ⟨hlock, hrem, hwait, hclosed, fun _ _ => Nat.succ_pos _⟩
  | postSlots i =>
    simp only [hc] at hs
    cases hs
    refine Sync.moveClose ⟨hlock, hrem, hwait, hclosed, htoken⟩ ?_ ?_ ?_ _ <;> rw [hc] <;>
      split_ifs <;> rfl
  | lock =>
    simp only [hc] at hs hlock hclosed htoken
    split_ifs at hs with hd
    cases hs
    have hd' : s.drainLocked = false := by simpa using hd
    rw [hd'] at hlock
    refine ⟨?_, hrem, hwait, hclosed, htoken⟩
    simp only [Close.locks, Bool.toNat_true, Bool.toNat_false] at hlock ⊢
    omega
  | broadcast =>
    simp only [hc] at hs hlock hclosed htoken
    cases hs
    refine ⟨?_, hrem, fun hk => ?_, hclosed, htoken⟩
    · show _ + _ + (if s.waiter = .blocked then WaitEmpty.woken else s.waiter).locks.toNat = _
      split_ifs with hb
      · rw [hb] at hlock
        exact hlock
      · exact hlock
    · change ((if s.waiter = .blocked then WaitEmpty.woken else s.waiter) = .blocked ∨
        ∃ k, (if s.waiter = .blocked then WaitEmpty.woken else s.waiter) = .loadTail k ∧ _) at hk
      split_ifs at hk with hb
      · simp at hk
      · exact hwait hk
  | unlock =>
    simp only [hc] at hs hlock hclosed htoken
    cases hs
    have hle := Bool.toNat_le s.drainLocked
    simp only [Close.locks, Bool.toNat_true] at hlock
    refine ⟨?_, hrem, hwait, hclosed, htoken⟩
    show s.consumer.locks.toNat + 0 + s.waiter.locks.toNat = 0
    omega

/-- A step of the waiter. -/
theorem Sync.waitEmpty (h : Sync s) (hs : mpscQueueWaitEmpty s = some s') : Sync s' := by
  obtain ⟨hlock, hrem, hwait, hclosed, htoken⟩ := h
  unfold mpscQueueWaitEmpty at hs
  have hlocked := Bool.toNat_le s.drainLocked
  cases hc : s.waiter with
  | idle | blocked | returned => simp [hc] at hs
  | lock | woken =>
    simp only [hc] at hs hlock
    split_ifs at hs with hd
    cases hs
    have hd' : s.drainLocked = false := by simpa using hd
    rw [hd'] at hlock
    refine ⟨?_, hrem, fun hk => ?_, hclosed, htoken⟩
    · simp only [WaitEmpty.locks, Bool.toNat_true, Bool.toNat_false] at hlock ⊢
      omega
    · simp at hk
  | loadHead =>
    simp only [hc] at hs hlock
    cases hs
    refine ⟨hlock, hrem, fun hk he => ?_, hclosed, htoken⟩
    obtain hk | ⟨k, hk, hne⟩ := hk
    · cases hk
    · exact absurd ((WaitEmpty.loadTail.inj hk).symm.trans he.symm) hne
  | loadTail k =>
    simp only [hc] at hs hlock hwait
    simp only [WaitEmpty.locks, Bool.toNat_true] at hlock
    split_ifs at hs with he <;> cases hs
    · exact ⟨hlock, hrem, fun hk => by simp at hk, hclosed, htoken⟩
    · refine ⟨?_, hrem, fun _ => hwait (.inr ⟨k, rfl, he⟩), hclosed, htoken⟩
      show s.consumer.locks.toNat + s.closer.locks.toNat + 0 = 0
      omega
  | unlock =>
    simp only [hc] at hs hlock
    cases hs
    simp only [WaitEmpty.locks, Bool.toNat_true] at hlock
    refine ⟨?_, hrem, fun hk => by simp at hk, hclosed, htoken⟩
    show s.consumer.locks.toNat + s.closer.locks.toNat + 0 = 0
    omega

theorem Consumer.idle_of_free {c : Consumer} (h : c.free = true) :
    c.locks = false ∧ c.pending = false := by
  rcases c with _ | pc | pc
  · exact ⟨rfl, rfl⟩
  · exact ⟨rfl, rfl⟩
  · cases pc <;> first | exact ⟨rfl, rfl⟩ | simp [Consumer.free] at h

variable [DecidableEq ι] [Inhabited ρ]

/-- **Every step keeps the mutex and the condition variable in order.** -/
theorem sync_step {a : Act ι ρ} (h : Sync s) (hi : Inv g s) (hs : step g s a = some s') :
    Sync s' := by
  have hle : s.tail ≤ s.head := hi.ring.tail_le_read.trans hi.ring.read_le_head
  cases a with
  | call | put | giveUp | casMiss => exact h.sameOthers hle (sameOthers_step rfl hs)
  | callWait | callGet =>
    simp only [step] at hs
    split_ifs at hs with hf
    cases hs
    obtain ⟨hl, hp⟩ := Consumer.idle_of_free (by first | exact hf | exact hf.1)
    have hlock := h.lock
    rw [hl] at hlock
    exact ⟨hlock, fun n k hk => (by cases hk), fun hw he => absurd (h.waiter hw he) (by simp [hp]),
      h.closed, fun _ hk => by cases hk⟩
  | consume =>
    rcases consume_cases hs with ⟨pc, hc, hs⟩ | ⟨pc, hc, hs⟩
    · exact h.waitForItems hc hs
    · exact h.getBatchTry hle hc hs
  | callClose =>
    obtain ⟨hc, rfl⟩ := callClose_eq hs
    exact h.moveClose (by rw [hc]; rfl) (by rw [hc]; rfl) (by rw [hc]; rfl) _
  | close => exact h.close hs
  | callWaitEmpty | spurious =>
    simp only [step] at hs
    split_ifs at hs with hw
    cases hs
    have hlock := h.lock
    have hl : s.waiter.locks = false := by
      first
        | rw [hw]; rfl
        | rcases hw with hw | hw <;> rw [hw] <;> rfl
    rw [hl] at hlock
    exact ⟨hlock, h.rem, fun hk => by simp at hk, h.closed, h.token⟩
  | waitEmpty => exact h.waitEmpty hs

/-- Only `mpsc_queue_close` touches `closed`. -/
theorem closed_of_ne_close {a : Act ι ρ} (ha : a ≠ .close) (hs : step g s a = some s') :
    s'.closed = s.closed := by
  cases a with
  | call | put | giveUp | casMiss => exact (sameOthers_step rfl hs).closed
  | consume =>
    rcases consume_cases hs with ⟨pc, -, hs⟩ | ⟨pc, -, hs⟩
    · obtain ⟨parked, items, pc', rfl⟩ := waitForItems_eq hs
      rfl
    · obtain ⟨tail, slots, locked, waiter, records, copied, pc', -, rfl⟩ := getBatchTry_eq hs
      rfl
  | close => exact absurd rfl ha
  | waitEmpty =>
    obtain ⟨locked, waiter, rfl⟩ := waitEmpty_eq hs
    rfl
  | callClose =>
    obtain ⟨-, rfl⟩ := callClose_eq hs
    rfl
  | callWait | callGet | callWaitEmpty | spurious =>
    simp only [step] at hs
    split_ifs at hs
    cases hs
    rfl

/-- `closed` is never reset. -/
theorem closed_step {a : Act ι ρ} (h : s.closed = true) (hs : step g s a = some s') :
    s'.closed = true := by
  cases a with
  | close =>
    simp only [step, mpscQueueClose] at hs
    cases hk : s.closer <;> simp only [hk] at hs <;> try split_ifs at hs
    all_goals first
      | cases hs; done
      | (cases hs; first | rfl | exact h)
  | call | put | giveUp | casMiss | callWait | callGet | consume | callClose | callWaitEmpty
  | waitEmpty | spurious => exact (closed_of_ne_close (by rintro ⟨⟩) hs).trans h

/-- A closed queue stays closed. -/
theorem closed_of_reach {ok : State ι ρ → Act ι ρ → Prop} (h : s.closed = true)
    (hr : Reach (step g) ok s s') : s'.closed = true :=
  hr.invariant (I := fun s => s.closed = true) h fun _ _ _ hi _ hs => closed_step hi hs

/-- All that is known of a reachable state. -/
structure Good (g : Shape) (s : State ι ρ) : Prop where
  inv : Inv g s
  history : History s
  sync : Sync s

/-- Both invariants together. -/
theorem good_step {a : Act ι ρ} (h : Good g s) (hs : step g s a = some s') : Good g s' :=
  ⟨inv_step h.inv hs, history_step h.history h.inv hs, sync_step h.sync h.inv hs⟩

/-- They hold in every run. -/
theorem good_reachable {junk : ℕ → Entry ρ} (h : Reachable (step g) (mpscQueueCreate g junk) s) :
    Good g s := by
  refine h.invariant ⟨inv_create junk, history_fresh (fun _ => rfl) rfl, ?_⟩
    fun _ _ _ hi _ hs => good_step hi hs
  exact ⟨rfl, fun n k hk => (nomatch hk), fun hk => by simp [mpscQueueCreate] at hk, rfl,
    fun _ hk => nomatch hk⟩

end Queue
end Clogx
