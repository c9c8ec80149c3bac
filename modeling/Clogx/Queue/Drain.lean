/-
# The queue drains

What the parties other than the producers can bring about on their own.  Where
every claimed position is published, a call of `mpsc_queue_get_batch_try` that
starts on a non-empty queue copies at least one record (`exists_storeTail`) and
returns (`exists_free`), so repeated calls drain the queue (`exists_drained`).
From there `mpsc_queue_wait_empty` returns (`exists_waitEmpty_returned`), and a
closed queue sends the consumer home (`exists_exit`).

`drains m` are the steps of such runs: no producer moves, no wake-up is
spurious, and every batch call asks for `m` records.
-/

import Clogx.Queue.Sync

namespace Clogx
namespace Queue

open SeqRing (Shape Phase)
open Machine (Reach Reachable)

variable {ι ρ : Type*}

/-- Only consumer, closer and waiter move, with batches of `m`. -/
def drains (m : ℕ) (_ : State ι ρ) (a : Act ι ρ) : Prop :=
  a.producer = none ∧ (∀ k, a = .callGet k → k = m) ∧ a ≠ .spurious

variable [DecidableEq ι] [Inhabited ρ] {g : Shape} {s s' : State ι ρ} {m : ℕ}

omit [DecidableEq ι] in
theorem Good.tail_le_head (h : Good g s) : s.tail ≤ s.head :=
  h.inv.ring.tail_le_read.trans h.inv.ring.read_le_head

/-! ### Along such a run -/

/-- Every run keeps what is good. -/
theorem Reach.good {ok : State ι ρ → Act ι ρ → Prop} (h : Good g s)
    (hr : Reach (step g) ok s s') : Good g s' :=
  hr.invariant h fun _ _ _ hi _ hs => good_step hi hs

omit [DecidableEq ι] [Inhabited ρ] in
theorem SameCalls.refl (s : State ι ρ) : SameCalls s s := ⟨rfl, rfl, rfl, rfl, rfl, rfl⟩

omit [DecidableEq ι] [Inhabited ρ] in
theorem SameCalls.trans {s₁ s₂ s₃ : State ι ρ} (h : SameCalls s₁ s₂) (h' : SameCalls s₂ s₃) :
    SameCalls s₁ s₃ :=
  ⟨h'.put.trans h.put, h'.claim.trans h.claim, h'.phase.trans h.phase, h'.item.trans h.item,
    h'.done.trans h.done, h'.head.trans h.head⟩

/-- Draining leaves the calls of the producers. -/
theorem sameCalls_of_drains (hr : Reach (step g) (drains m) s s') : SameCalls s s' :=
  hr.invariant (.refl s) fun _ _ _ hi ha hs => hi.trans (sameCalls_step ha.1 hs)

/-- The consumer's next operation. -/
theorem reach_consume {pc : GetBatchTry} (hc : s.consumer = .get pc)
    (hs : mpscQueueGetBatchTry g s pc = some s') : Reach (step g) (drains m) s s' :=
  .single (a := .consume) ⟨rfl, by simp, by simp⟩ (by simp only [step, hc, hs])

theorem reach_wait {pc : WaitForItems} (hc : s.consumer = .wait pc)
    (hs : mpscQueueWaitForItems s pc = some s') : Reach (step g) (drains m) s s' :=
  .single (a := .consume) ⟨rfl, by simp, by simp⟩ (by simp only [step, hc, hs])

theorem reach_close (hs : mpscQueueClose g s = some s') : Reach (step g) (drains m) s s' :=
  .single (a := .close) ⟨rfl, by simp, by simp⟩ hs

theorem reach_waitEmpty (hs : mpscQueueWaitEmpty s = some s') : Reach (step g) (drains m) s s' :=
  .single (a := .waitEmpty) ⟨rfl, by simp, by simp⟩ hs

/-! ### One call of `mpsc_queue_get_batch_try` -/

/-- **The copying loop takes something.**  It stops before the first slot only
when that slot is unpublished. -/
theorem exists_storeTail {head : ℕ} (hm : 0 < m) (k : ℕ) : ∀ {s : State ι ρ} {n : ℕ}, Good g s →
    s.consumer = .get (loopTop m head s.tail n) → head = s.tail + n + k → s.tail < head →
    s.phase s.tail = .published →
    ∃ s' j, Reach (step g) (drains m) s s' ∧ s'.consumer = .get (.storeTail s.tail j) ∧ 0 < j ∧
      s'.drainLocked = s.drainLocked := by
  induction k with
  | zero =>
    intro s n _ hc hk hlt _
    refine ⟨s, n, .refl, ?_, by omega, rfl⟩
    rw [hc, loopTop, szSub_of_le (by omega), if_neg (by omega), afterLoop, if_neg (by omega)]
  | succ k ih =>
    intro s n h hc hk hlt hp
    rw [loopTop, szSub_of_le hlt.le] at hc
    split_ifs at hc with hn
    · -- one more slot is tried
      by_cases hseq : (s.buffer (g.ix (s.tail + n))).seq = s.tail + n + 1
      · have h₁ : Reach (step g) (drains m) s
            { s with consumer := .get (.copy m head s.tail n) } :=
          reach_consume hc (by rw [mpscQueueGetBatchTry, if_pos hseq])
        have h₂ := reach_consume (g := g) (m := m)
          (s := { s with consumer := .get (.copy m head s.tail n) }) rfl rfl
        have hg := Reach.good h (h₁.trans h₂)
        obtain ⟨s', j, hr, hc', hj⟩ := ih hg rfl (show head = s.tail + (n + 1) + k by omega) hlt hp
        exact ⟨s', j, (h₁.trans h₂).trans hr, hc', hj⟩
      · have hn0 : n ≠ 0 := by
          rintro rfl
          exact hseq (h.inv.ring.seq_of_published s.tail le_rfl hp)
        refine ⟨_, n, reach_consume hc (if_neg hseq), ?_, by omega, rfl⟩
        simp only [afterLoop, if_neg hn0]
    · refine ⟨s, n, .refl, ?_, by omega, rfl⟩
      rw [hc, afterLoop, if_neg (by omega)]

/-- How many steps the consumer is from the end of its call, at most. -/
def getRank (s : State ι ρ) : ℕ :=
  match s.consumer with
  | .get (.loadHead _) => 3 * (s.head - s.tail) + 13
  | .get (.loadTail _ head) => 3 * (head - s.tail) + 12
  | .get (.loadSeq _ head tail n) => 2 * (head - (tail + n)) + (head - tail) + 11
  | .get (.copy _ head tail n) => 2 * (head - (tail + n)) + (head - tail) + 10
  | .get (.storeTail _ n) => n + 10
  | .get (.postSlots _ i) => i + 9
  | .get (.remHead _) => 8
  | .get (.remTail _ _) => 7
  | .get (.lock _) => 6
  | .get (.broadcast _) => 5
  | .get (.unlock _) => 4
  | _ => 0

omit [DecidableEq ι] [Inhabited ρ] in
/-- The rank after the loop stays below that of its next test. -/
theorem getRank_loopTop_lt {head tail n : ℕ} (hle : tail ≤ head) (hn : tail + n ≤ head)
    (hc : s.consumer = .get (loopTop m head tail n)) :
    getRank s ≤ 2 * (head - (tail + n)) + (head - tail) + 11 := by
  rw [loopTop, afterLoop, szSub_of_le hle] at hc
  split_ifs at hc <;> simp only [getRank, hc] <;> omega

/-- The consumer is inside a batch call and no one else holds `drain_mutex`. -/
structure InGet (g : Shape) (s : State ι ρ) : Prop where
  good : Good g s
  get : ∃ pc, s.consumer = .get pc
  lock : s.drainLocked = true → s.consumer.locks = true

/-- Each step of the call brings its end nearer. -/
theorem InGet.exists_lt (h : InGet g s) (hfree : s.consumer.free = false) :
    ∃ s', Reach (step g) (drains m) s s' ∧ (InGet g s' ∧ s.tail ≤ s'.tail) ∧
      getRank s' < getRank s := by
  obtain ⟨hgood, ⟨pc, hc⟩, hlock⟩ := h
  have hget := hgood.inv.get
  have hle := hgood.tail_le_head
  simp only [GetOk, hc] at hget
  have hunlocked : (Consumer.get pc).locks = false → s.drainLocked = false := fun hl => by
    rw [hc, hl] at hlock
    simpa using hlock
  -- a step leads to a state of the same kind as soon as the lock is accounted for
  have hgo {s' : State ι ρ} (hs : mpscQueueGetBatchTry g s pc = some s')
      (hpc : ∃ pc', s'.consumer = .get pc')
      (hl : s'.drainLocked = true → s'.consumer.locks = true) (ht : s.tail ≤ s'.tail)
      (hr : getRank s' < getRank s) :
      ∃ s', Reach (step g) (drains m) s s' ∧ (InGet g s' ∧ s.tail ≤ s'.tail) ∧
        getRank s' < getRank s :=
    have hreach := reach_consume (m := m) hc hs
    ⟨s', hreach, ⟨⟨Reach.good hgood hreach, hpc, hl⟩, ht⟩, hr⟩
  have hrank : getRank s = getRank { s with consumer := .get pc } := by
    simp only [getRank, hc]
  cases pc with
  | returned n => rw [hc] at hfree; cases hfree
  | loadHead m =>
    refine hgo rfl ⟨_, rfl⟩ (fun hd => ?_) le_rfl (by rw [hrank]; simp only [getRank]; omega)
    simp [hunlocked rfl] at hd
  | loadTail m head =>
    by_cases hz : szSub head s.tail = 0
    · refine hgo (if_pos hz) ⟨_, rfl⟩ (fun hd => ?_) le_rfl
        (by rw [hrank]; simp only [getRank]; omega)
      simp [hunlocked rfl] at hd
    · refine hgo (if_neg hz) ⟨_, rfl⟩ (fun hd => ?_) le_rfl ?_
      · simp [hunlocked rfl] at hd
      · refine (getRank_loopTop_lt hget.1 hget.1 rfl).trans_lt ?_
        rw [hrank]
        simp only [getRank]
        omega
  | loadSeq m head tail n =>
    obtain ⟨rfl, hlt, -⟩ := hget
    by_cases hseq : (s.buffer (g.ix (s.tail + n))).seq = s.tail + n + 1
    · refine hgo (if_pos hseq) ⟨_, rfl⟩ (fun hd => ?_) le_rfl
        (by rw [hrank]; simp only [getRank]; omega)
      simp [hunlocked rfl] at hd
    · refine hgo (if_neg hseq) ⟨_, rfl⟩ (fun hd => ?_) le_rfl ?_
      · simp [hunlocked rfl] at hd
      · rw [hrank]
        unfold afterLoop
        split_ifs <;> simp only [getRank] <;> omega
  | copy m head tail n =>
    obtain ⟨rfl, hlt, -⟩ := hget
    refine hgo rfl ⟨_, rfl⟩ (fun hd => ?_) le_rfl ?_
    · simp [hunlocked rfl] at hd
    · refine (getRank_loopTop_lt (by omega) (by omega) rfl).trans_lt ?_
      rw [hrank]
      simp only [getRank]
      omega
  | storeTail tail n =>
    obtain ⟨rfl, -⟩ := hget
    refine hgo rfl ⟨_, rfl⟩ (fun hd => ?_) (Nat.le_add_right ..)
      (by rw [hrank]; simp only [getRank]; omega)
    simp [hunlocked rfl] at hd
  | postSlots n i =>
    refine hgo rfl ⟨_, rfl⟩ (fun hd => ?_) le_rfl ?_
    · simp [hunlocked rfl] at hd
    · rw [hrank]
      split_ifs <;> simp only [getRank] <;> omega
  | remHead n =>
    refine hgo rfl ⟨_, rfl⟩ (fun hd => ?_) le_rfl (by rw [hrank]; simp only [getRank]; omega)
    simp [hunlocked rfl] at hd
  | remTail n head =>
    by_cases he : head = s.tail
    · refine hgo (if_pos he) ⟨_, rfl⟩ (fun hd => ?_) le_rfl
        (by rw [hrank]; simp only [getRank]; omega)
      simp [hunlocked rfl] at hd
    · refine hgo (if_neg he) ⟨_, rfl⟩ (fun hd => ?_) le_rfl
        (by rw [hrank]; simp only [getRank]; omega)
      simp [hunlocked rfl] at hd
  | lock n =>
    have hd : s.drainLocked = false := hunlocked rfl
    exact hgo (if_neg (by simp [hd])) ⟨_, rfl⟩ (fun _ => rfl) le_rfl
      (by rw [hrank]; simp only [getRank]; omega)
  | broadcast n =>
    exact hgo rfl ⟨_, rfl⟩ (fun _ => rfl) le_rfl (by rw [hrank]; simp only [getRank]; omega)
  | unlock n =>
    exact hgo rfl ⟨_, rfl⟩ (fun hd => by cases hd) le_rfl
      (by rw [hrank]; simp only [getRank]; omega)

/-- **A batch call returns.** -/
theorem InGet.exists_free (h : InGet g s) : ∃ s', Reach (step g) (drains m) s s' ∧ InGet g s' ∧
    s.tail ≤ s'.tail ∧ s'.consumer.free = true := by
  obtain ⟨s', hr, ⟨hi, ht⟩, hf⟩ : ∃ s', Reach (step g) (drains m) s s' ∧
      (InGet g s' ∧ s.tail ≤ s'.tail) ∧ s'.consumer.free = true := Reach.exists_of_measure
    (I := fun s' => InGet g s' ∧ s.tail ≤ s'.tail) (P := fun s' => s'.consumer.free = true) getRank
    (fun u hu hf => by
      obtain ⟨v, hr, ⟨hv, ht⟩, hlt⟩ := hu.1.exists_lt (m := m) (by simpa using hf)
      exact ⟨v, hr, ⟨hv, hu.2.trans ht⟩, hlt⟩) ⟨h, le_rfl⟩
  exact ⟨s', hr, hi, ht, hf⟩

/-! ### Until the queue is empty -/

/-- Whoever else holds `drain_mutex` lets go of it. -/
theorem exists_unlocked (h : Good g s) : ∃ s', Reach (step g) (drains m) s s' ∧
    s'.consumer = s.consumer ∧ s'.closed = s.closed ∧
    (s'.drainLocked = true → s'.consumer.locks = true) := by
  by_cases hd : s.drainLocked = true → s.consumer.locks = true
  · exact ⟨s, .refl, rfl, rfl, hd⟩
  · push Not at hd
    obtain ⟨hd, hcl⟩ := hd
    have hlock := h.sync.lock
    rw [hd, Bool.eq_false_iff.2 hcl] at hlock
    cases hk : s.closer.locks
    · -- the waiter: it goes to sleep, or finds the queue empty and leaves
      have hw : s.waiter.locks = true := by
        cases hw : s.waiter.locks
        · rw [hk, hw] at hlock; cases hlock
        · rfl
      have hlast {u : State ι ρ} (hu : u.waiter = .unlock) :
          Reach (step g) (drains m) u { u with drainLocked := false, waiter := .returned } :=
        reach_waitEmpty (by rw [mpscQueueWaitEmpty, hu])
      have hload {u : State ι ρ} {k : ℕ} (hu : u.waiter = .loadTail k) :
          ∃ s', Reach (step g) (drains m) u s' ∧ s'.consumer = u.consumer ∧ s'.closed = u.closed ∧
            s'.drainLocked = false := by
        by_cases he : k = u.tail
        · have h₁ : Reach (step g) (drains m) u { u with waiter := .unlock } :=
            reach_waitEmpty (by simp only [mpscQueueWaitEmpty, hu, if_pos he])
          exact ⟨_, h₁.trans (hlast rfl), rfl, rfl, rfl⟩
        · have h₁ : Reach (step g) (drains m) u { u with drainLocked := false, waiter := .blocked } :=
            reach_waitEmpty (by simp only [mpscQueueWaitEmpty, hu, if_neg he])
          exact ⟨_, h₁, rfl, rfl, rfl⟩
      have hdone : ∃ s', Reach (step g) (drains m) s s' ∧ s'.consumer = s.consumer ∧
          s'.closed = s.closed ∧ s'.drainLocked = false := by
        cases hwt : s.waiter with
        | loadHead =>
          have h₁ : Reach (step g) (drains m) s { s with waiter := .loadTail s.head } :=
            reach_waitEmpty (by rw [mpscQueueWaitEmpty, hwt])
          obtain ⟨s', hr, hs'⟩ := hload (u := { s with waiter := .loadTail s.head }) rfl
          exact ⟨s', h₁.trans hr, hs'⟩
        | loadTail k => exact hload hwt
        | unlock => exact ⟨_, hlast hwt, rfl, rfl, rfl⟩
        | idle | lock | blocked | woken | returned => rw [hwt] at hw; cases hw
      obtain ⟨s', hr, h₁, h₂, h₃⟩ := hdone
      exact ⟨s', hr, h₁, h₂, fun hd' => by rw [h₃] at hd'; cases hd'⟩
    · have hlast {u : State ι ρ} (hu : u.closer = .unlock) :
          Reach (step g) (drains m) u { u with drainLocked := false, closer := .returned } :=
        reach_close (by rw [mpscQueueClose, hu])
      cases hkc : s.closer with
      | broadcast =>
        have h₁ : Reach (step g) (drains m) s { s.wakeWaiter with closer := .unlock } :=
          reach_close (by rw [mpscQueueClose, hkc])
        exact ⟨_, h₁.trans (hlast rfl), rfl, rfl, fun hd' => by cases hd'⟩
      | unlock => exact ⟨_, hlast hkc, rfl, rfl, fun hd' => by cases hd'⟩
      | idle | store | postItems | postSlots | lock | returned => rw [hkc] at hk; cases hk

/-- Between two calls, with `drain_mutex` free. -/
structure Ready (g : Shape) (s : State ι ρ) : Prop where
  good : Good g s
  free : s.consumer.free = true
  lock : s.drainLocked = false

/-- **One more batch**: a call that starts on a non-empty queue whose first
position is published moves `tail`. -/
theorem Ready.exists_batch (h : Ready g s) (hm : 0 < m) (hlt : s.tail < s.head)
    (hp : s.phase s.tail = .published) :
    ∃ s', Reach (step g) (drains m) s s' ∧ Ready g s' ∧ s.tail < s'.tail := by
  -- the call, and its loads of `head` and `tail`
  have h₁ : Reach (step g) (drains m) s
      { s with records := [], consumer := .get (.loadHead m) } :=
    .single (a := .callGet m) ⟨rfl, fun k hk => (Act.callGet.inj hk).symm, by simp⟩
      (if_pos ⟨h.free, hm.ne'⟩)
  have h₂ : Reach (step g) (drains m) { s with records := [], consumer := .get (.loadHead m) }
      { s with records := [], consumer := .get (.loadTail m s.head) } := reach_consume rfl rfl
  have h₃ : Reach (step g) (drains m)
      { s with records := [], consumer := .get (.loadTail m s.head) }
      { s with records := [], consumer := .get (loopTop m s.head s.tail 0) } :=
    reach_consume rfl (if_neg (by show szSub s.head s.tail ≠ 0; rw [szSub_of_le hlt.le]; omega))
  have hr := (h₁.trans h₂).trans h₃
  have hg := Reach.good h.good hr
  obtain ⟨u, j, hu, hc, hj, hd⟩ := exists_storeTail hm (s.head - s.tail) hg rfl
    (show s.head = s.tail + 0 + (s.head - s.tail) by omega) hlt hp
  -- the batch is not empty, so its store moves `tail`
  have h₄ : Reach (step g) (drains m) u
      { u with tail := s.tail + j, consumer := .get (.postSlots j j) } := reach_consume hc rfl
  have hgu := Reach.good hg (hu.trans h₄)
  obtain ⟨v, hv, hin, hle, hf⟩ := InGet.exists_free (m := m) ⟨hgu, ⟨_, rfl⟩, fun hd' => by
    rw [show u.drainLocked = false from hd.trans h.lock] at hd'; cases hd'⟩
  refine ⟨v, ((hr.trans hu).trans h₄).trans hv, ⟨hin.good, hf, ?_⟩, ?_⟩
  · have hl := (Consumer.idle_of_free hf).1
    have := hin.lock
    rw [hl] at this
    simpa using this
  · have : s.tail + j ≤ v.tail := hle
    omega

/-- **Repeated batch calls drain the queue** when every claimed position is
published. -/
theorem exists_drained (h : Good g s) (hm : 0 < m) (hpub : ∀ p, p < s.head → s.phase p = .published)
    (hc : s.consumer.free = true ∨ ∃ pc, s.consumer = .get pc) :
    ∃ s', Reach (step g) (drains m) s s' ∧ Ready g s' ∧ s'.tail = s'.head := by
  obtain ⟨s₁, hr₁, hc₁, -, hlock⟩ := exists_unlocked (m := m) h
  have hg₁ := Reach.good h hr₁
  -- the call in progress, if any, comes to its end
  obtain ⟨s₂, hr₂, hready⟩ : ∃ s₂, Reach (step g) (drains m) s₁ s₂ ∧ Ready g s₂ := by
    have hfree {u : State ι ρ} (hu : Good g u) (hf : u.consumer.free = true)
        (hl : u.drainLocked = true → u.consumer.locks = true) : Ready g u := by
      refine ⟨hu, hf, ?_⟩
      rw [(Consumer.idle_of_free hf).1] at hl
      simpa using hl
    rcases hc with hf | hget
    · exact ⟨s₁, .refl, hfree hg₁ (hc₁ ▸ hf) hlock⟩
    · obtain ⟨s₂, hr₂, hin, -, hf⟩ := InGet.exists_free (m := m) ⟨hg₁, hc₁ ▸ hget, hlock⟩
      exact ⟨s₂, hr₂, hfree hin.good hf hin.lock⟩
  have hsame := sameCalls_of_drains (hr₁.trans hr₂)
  obtain ⟨s₃, hr₃, ⟨hready₃, -⟩, he⟩ : ∃ s₃, Reach (step g) (drains m) s₂ s₃ ∧
      (Ready g s₃ ∧ ∀ p, p < s₃.head → s₃.phase p = .published) ∧ s₃.tail = s₃.head :=
    Reach.exists_of_measure
    (I := fun u => Ready g u ∧ ∀ p, p < u.head → u.phase p = .published)
    (P := fun u => u.tail = u.head) (fun u => u.head - u.tail) (fun u ⟨hu, hup⟩ hne => by
      have hle := hu.good.tail_le_head
      have hlt : u.tail < u.head := by omega
      obtain ⟨v, hr, hv, ht⟩ := hu.exists_batch hm hlt (hup _ hlt)
      have hs := sameCalls_of_drains hr
      refine ⟨v, hr, ⟨hv, by rw [hs.head, hs.phase]; exact hup⟩, ?_⟩
      have := hs.head
      have := hv.good.tail_le_head
      omega)
    ⟨hready, by rw [hsame.head, hsame.phase]; exact hpub⟩
  exact ⟨s₃, (hr₁.trans hr₂).trans hr₃, hready₃, he⟩

/-! ### Flushing and closing -/

/-- **`mpsc_queue_wait_empty` returns** once the queue is drained: nobody sleeps
through the last broadcast. -/
theorem Ready.exists_waitEmpty (h : Ready g s) (he : s.tail = s.head) :
    ∃ s', Reach (step g) (drains m) s s' ∧ s'.waiter = .returned := by
  have hrun {u : State ι ρ} (hu : u.waiter = .lock ∨ u.waiter = .woken)
      (hd : u.drainLocked = false) (he : u.tail = u.head) :
      ∃ s', Reach (step g) (drains m) u s' ∧ s'.waiter = .returned := by
    have h₁ : Reach (step g) (drains m) u { u with drainLocked := true, waiter := .loadHead } :=
      reach_waitEmpty (by
        rcases hu with hu | hu <;> simp [mpscQueueWaitEmpty, hu, hd])
    have h₂ : Reach (step g) (drains m) { u with drainLocked := true, waiter := .loadHead }
        { u with drainLocked := true, waiter := .loadTail u.head } := reach_waitEmpty rfl
    have h₃ : Reach (step g) (drains m) { u with drainLocked := true, waiter := .loadTail u.head }
        { u with drainLocked := true, waiter := .unlock } := reach_waitEmpty (if_pos he.symm)
    have h₄ : Reach (step g) (drains m) { u with drainLocked := true, waiter := .unlock }
        { u with drainLocked := false, waiter := .returned } := reach_waitEmpty rfl
    exact ⟨_, ((h₁.trans h₂).trans h₃).trans h₄, rfl⟩
  have hlock := h.good.sync.lock
  rw [h.lock] at hlock
  cases hw : s.waiter with
  | lock => exact hrun (.inl hw) h.lock he
  | woken => exact hrun (.inr hw) h.lock he
  | returned => exact ⟨s, .refl, hw⟩
  | idle =>
    have h₁ : Reach (step g) (drains m) s { s with waiter := .lock } :=
      .single (a := .callWaitEmpty) ⟨rfl, by simp, by simp⟩ (if_pos (.inl hw))
    obtain ⟨s', hr, hs'⟩ := hrun (u := { s with waiter := .lock }) (.inl rfl) h.lock he
    exact ⟨s', h₁.trans hr, hs'⟩
  | blocked =>
    have := h.good.sync.waiter (.inl hw) he
    rw [(Consumer.idle_of_free h.free).2] at this
    cases this
  | loadHead | loadTail | unlock =>
    rw [hw] at hlock
    simp [WaitEmpty.locks] at hlock

/-- How many steps the consumer of a closed queue is from the end of its
`mpsc_queue_wait_for_items`, at most. -/
def waitRank : WaitForItems → ℕ
  | .semWait => 10
  | .unparkAwake => 9
  | .loadHead => 8
  | .loadTail _ => 7
  | .loadClosed => 6
  | .park => 6
  | .reloadHead => 5
  | .reloadTail _ => 4
  | .reloadClosed => 3
  | .unpark _ => 2
  | .returned _ => 0

/-- The consumer of a closed queue is inside `mpsc_queue_wait_for_items`. -/
structure InWait (g : Shape) (s : State ι ρ) (pc : WaitForItems) : Prop where
  good : Good g s
  closed : s.closed = true
  posted : s.closer.posted = true
  wait : s.consumer = .wait pc

/-- A waiting call with a token to take comes closer to its return, -/
theorem InWait.exists_lt {pc : WaitForItems} (h : InWait g s pc) (hne : ∀ r, pc ≠ .returned r) :
    ∃ s' pc', Reach (step g) (drains m) s s' ∧ InWait g s' pc' ∧ waitRank pc' < waitRank pc := by
  have hgo {s' : State ι ρ} {pc' : WaitForItems} (hs : mpscQueueWaitForItems s pc = some s')
      (hcl : s'.closed = s.closed) (hk : s'.closer = s.closer) (hc : s'.consumer = .wait pc')
      (hr : waitRank pc' < waitRank pc) :
      ∃ s' pc', Reach (step g) (drains m) s s' ∧ InWait g s' pc' ∧ waitRank pc' < waitRank pc :=
    have hreach := reach_wait (m := m) h.wait hs
    ⟨s', pc', hreach, ⟨Reach.good h.good hreach, hcl.trans h.closed, hk ▸ h.posted, hc⟩, hr⟩
  cases pc with
  | returned r => exact absurd rfl (hne r)
  | loadHead | park | reloadHead | unparkAwake | unpark =>
    exact hgo rfl rfl rfl rfl (by simp [waitRank])
  | loadTail head | reloadTail head =>
    by_cases he : head = s.tail
    · exact hgo (if_pos he) rfl rfl rfl (by simp [waitRank])
    · exact hgo (if_neg he) rfl rfl rfl (by simp [waitRank])
  | loadClosed | reloadClosed =>
    exact hgo (if_pos h.closed) rfl rfl rfl (by simp [waitRank])
  | semWait =>
    -- the closer has left a token
    have := h.good.sync.token h.posted h.wait
    exact hgo (if_neg this.ne') rfl rfl rfl (by simp [waitRank])

/-- and returns. -/
theorem InWait.exists_returned {pc : WaitForItems} (h : InWait g s pc) :
    ∃ s' r, Reach (step g) (drains m) s s' ∧ InWait g s' (.returned r) := by
  induction hk : waitRank pc using Nat.strong_induction_on generalizing s pc with
  | _ k ih =>
    by_cases hne : ∀ r, pc ≠ .returned r
    · obtain ⟨s₁, pc₁, hr₁, h₁, hlt⟩ := h.exists_lt (m := m) hne
      obtain ⟨s₂, r, hr₂, h₂⟩ := ih _ (hk ▸ hlt) h₁ rfl
      exact ⟨s₂, r, hr₁.trans hr₂, h₂⟩
    · push Not at hne
      obtain ⟨r, rfl⟩ := hne
      exact ⟨s, r, .refl, h⟩

/-- A drained, closed queue: the next `mpsc_queue_wait_for_items` returns `-1`. -/
theorem Ready.exists_exit (h : Ready g s) (hcl : s.closed = true) (he : s.tail = s.head) :
    ∃ s', Reach (step g) (drains m) s s' ∧ s'.consumer = .wait (.returned (-1)) := by
  have h₁ : Reach (step g) (drains m) s { s with consumer := .wait .loadHead } :=
    .single (a := .callWait) ⟨rfl, by simp, by simp⟩ (if_pos h.free)
  have h₂ : Reach (step g) (drains m) { s with consumer := .wait .loadHead }
      { s with consumer := .wait (.loadTail s.head) } := reach_wait rfl rfl
  have h₃ : Reach (step g) (drains m) { s with consumer := .wait (.loadTail s.head) }
      { s with consumer := .wait .loadClosed } := reach_wait rfl (if_pos he.symm)
  have h₄ : Reach (step g) (drains m) { s with consumer := .wait .loadClosed }
      { s with consumer := .wait (.returned (-1)) } := reach_wait rfl (if_pos hcl)
  exact ⟨_, ((h₁.trans h₂).trans h₃).trans h₄, rfl⟩

/-- **A closed queue lets the consumer go**: from wherever it stands it comes to
a `mpsc_queue_wait_for_items` that returns `-1`. -/
theorem exists_exit (h : Good g s) (hm : 0 < m) (hpub : ∀ p, p < s.head → s.phase p = .published)
    (hcl : s.closed = true) :
    ∃ s', Reach (step g) (drains m) s s' ∧ s'.consumer = .wait (.returned (-1)) := by
  -- from a state outside `mpsc_queue_wait_for_items`, drain and ask once more
  have hgo {u : State ι ρ} (hru : Reach (step g) (drains m) s u) (hu : Good g u)
      (hc : u.consumer.free = true ∨ ∃ pc, u.consumer = .get pc) :
      ∃ s', Reach (step g) (drains m) s s' ∧ s'.consumer = .wait (.returned (-1)) := by
    have hsame := sameCalls_of_drains hru
    obtain ⟨v, hrv, hv, he⟩ := exists_drained hu hm (by rw [hsame.head, hsame.phase]; exact hpub) hc
    obtain ⟨w, hrw, hw⟩ := hv.exists_exit (m := m) (closed_of_reach hcl (hru.trans hrv)) he
    exact ⟨w, (hru.trans hrv).trans hrw, hw⟩
  cases hc : s.consumer with
  | idle => exact hgo .refl h (.inl (by rw [hc]; rfl))
  | get pc => exact hgo .refl h (.inr ⟨pc, hc⟩)
  | wait pc =>
    -- the closer posts `items_sem` if it has not done so yet
    obtain ⟨u, hru, hu⟩ : ∃ u, Reach (step g) (drains m) s u ∧ InWait g u pc := by
      have hst := h.sync.closed
      rw [hcl] at hst
      cases hk : s.closer with
      | postItems =>
        have h₁ : Reach (step g) (drains m) s
            { s with itemsSem := s.itemsSem + 1, closer := .postSlots g.capacity } :=
          reach_close (by rw [mpscQueueClose, hk])
        exact ⟨_, h₁, Reach.good h h₁, hcl, rfl, hc⟩
      | idle | store => rw [hk] at hst; cases hst
      | postSlots | lock | broadcast | unlock | returned =>
        exact ⟨s, .refl, h, hcl, by rw [hk]; rfl, hc⟩
    obtain ⟨v, r, hrv, hv⟩ := hu.exists_returned (m := m)
    exact hgo (hru.trans hrv) hv.good (.inl (by rw [hv.wait]; rfl))

end Queue
end Clogx
