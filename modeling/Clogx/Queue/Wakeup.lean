/-
# Waking the consumer

`mpsc_queue_wait_for_items` announces that it is about to sleep by the store
`consumer_parked = 1`, loads `head` and `tail` once more, and blocks on
`items_sem`; a producer publishes its slot first and then exchanges
`consumer_parked` from 1 to 0, and posts `items_sem` only if it won the exchange
(`queue_signal_consumer`).  `clog_atomic_store_int` is a release store, which is
not ordered before the loads that follow it.  `Buffered` is the queue of
`Clogx.Queue.Model` with the consumer's stores to `consumer_parked` held back in
a buffer, oldest first; a store reaches the memory in a step of its own
(`Act.flush`), at any time after it was issued.  The consumer never loads the
flag, so nothing else changes.

If the store that parks is in memory before the consumer looks at `head` again,
no wake-up is lost: a position published later than that
load has a producer that will still find the flag set, or the flag has been taken
and a token is on its way (`Watched`).
-/

import Clogx.Queue.Call

namespace Clogx
namespace Queue

open SeqRing (Shape Phase)
open Machine (Reach Reachable exists_of_run exists_of_runIf)

variable {ι ρ : Type*}

/-! ### Producers and the flag -/

/-- Somebody will wake the consumer: the flag is there for the next producer, or a producer has
taken it and is about to post, or the token is there. -/
def Owed (s : State ι ρ) : Prop :=
  s.consumerParked = true ∨ (∃ t r pos ret, s.put t = .post r pos ret) ∨ 0 < s.itemsSem

/-- Every position from `k` on that is published has its producer right before the exchange. -/
def Announced (s : State ι ρ) (k : ℕ) : Prop :=
  ∀ p, k ≤ p → s.phase p = .published → ∃ t r ret, s.put t = .signal r p ret

/-- A consumer that has seen the queue empty up to position `k` may sleep. -/
structure Watched (s : State ι ρ) (k : ℕ) : Prop where
  owed : Owed s
  announced : s.consumerParked = true → Announced s k

variable [DecidableEq ι]

/-- What a step of a call of `mpsc_queue_try_put` does to flag and token. -/
inductive Signals (s s' : State ι ρ) (t : ι) : Prop
  | moves (pc : TryPut ρ) (hput : s'.put = Function.update s.put t pc)
      (hparked : s'.consumerParked = s.consumerParked) (hitems : s'.itemsSem = s.itemsSem)
      (hpost : ∀ r pos ret, s.put t ≠ .post r pos ret)
      (hsignal : ∀ r pos ret, s.put t ≠ .signal r pos ret)
      (hphase : ∀ p, s'.phase p = .published →
        s.phase p = .published ∨ ∃ r ret, pc = .signal r p ret)
  | misses (ret : ℤ) (hput : s'.put = Function.update s.put t (.returned ret))
      (hparked : s.consumerParked = false) (hparked' : s'.consumerParked = false)
      (hitems : s'.itemsSem = s.itemsSem) (hpost : ∀ r pos ret, s.put t ≠ .post r pos ret)
  | takes (r : ρ) (pos : ℕ) (ret : ℤ) (hput : s'.put t = .post r pos ret)
      (hparked : s'.consumerParked = false)
  | posts (ret : ℤ) (hput : s'.put = Function.update s.put t (.returned ret))
      (hparked : s'.consumerParked = s.consumerParked) (hitems : 0 < s'.itemsSem)
      (hsignal : ∀ r pos ret, s.put t ≠ .signal r pos ret) (hphase : s'.phase = s.phase)

variable {s s' : State ι ρ} {t : ι}

/-- What is owed stays owed, or is posted. -/
theorem Owed.signals (h : Owed s) (hs : Signals s s' t) : Owed s' := by
  -- a producer about to post is another one
  have hother {pc : TryPut ρ} (hput : s'.put = Function.update s.put t pc)
      (hpost : ∀ r pos ret, s.put t ≠ .post r pos ret) (hitems : s'.itemsSem = s.itemsSem)
      (h : (∃ u r pos ret, s.put u = .post r pos ret) ∨ 0 < s.itemsSem) : Owed s' := by
    rcases h with ⟨u, r, pos, ret, hu⟩ | h
    · have hut : u ≠ t := fun heq => hpost r pos ret (heq ▸ hu)
      exact .inr (.inl ⟨u, r, pos, ret, by rw [hput, Function.update_of_ne hut, hu]⟩)
    · exact .inr (.inr (hitems ▸ h))
  cases hs with
  | moves pc hput hparked hitems hpost =>
    rcases h with h | h
    · exact .inl (hparked.trans h)
    · exact hother hput hpost hitems h
  | misses ret hput hparked _ hitems hpost =>
    rcases h with h | h
    · exact absurd (hparked.symm.trans h) Bool.false_ne_true
    · exact hother hput hpost hitems h
  | takes r pos ret hput => exact .inr (.inl ⟨t, r, pos, ret, hput⟩)
  | posts ret _ _ hitems => exact .inr (.inr hitems)

/-- **Producers keep the consumer watched.** -/
theorem Watched.signals {k : ℕ} (h : Watched s k) (hs : Signals s s' t) : Watched s' k := by
  refine ⟨h.owed.signals hs, fun hp => ?_⟩
  -- a producer right before its exchange is another one
  have hother {pc : TryPut ρ} (hput : s'.put = Function.update s.put t pc)
      (hsignal : ∀ r pos ret, s.put t ≠ .signal r pos ret) {p : ℕ}
      (hp : ∃ u r ret, s.put u = .signal r p ret) : ∃ u r ret, s'.put u = .signal r p ret := by
    obtain ⟨u, r, ret, hu⟩ := hp
    have hut : u ≠ t := fun heq => hsignal r p ret (heq ▸ hu)
    exact ⟨u, r, ret, by rw [hput, Function.update_of_ne hut, hu]⟩
  cases hs with
  | moves pc hput hparked _ _ hsignal hphase =>
    intro p hk hpub
    rcases hphase p hpub with hpub | ⟨r, ret, rfl⟩
    · exact hother hput hsignal (h.announced (hparked ▸ hp) p hk hpub)
    · exact ⟨t, r, ret, by rw [hput, Function.update_self]⟩
  | misses _ _ _ hparked' => exact absurd (hparked'.symm.trans hp) Bool.false_ne_true
  | takes _ _ _ _ hparked => exact absurd (hparked.symm.trans hp) Bool.false_ne_true
  | posts ret hput hparked _ hsignal hphase =>
    intro p hk hpub
    exact hother hput hsignal (h.announced (hparked ▸ hp) p hk (hphase ▸ hpub))

variable [Inhabited ρ] {g : Shape}

/-- A put posts what it owes. -/
theorem signals_tryPut (hs : mpscQueueTryPut g s t = some s') : Signals s s' t := by
  -- a step before the exchange that leaves the phases alone
  have hmove {pc : TryPut ρ} (hput : s'.put = Function.update s.put t pc)
      (hparked : s'.consumerParked = s.consumerParked) (hitems : s'.itemsSem = s.itemsSem)
      (hphase : s'.phase = s.phase) (hpost : ∀ r pos ret, s.put t ≠ .post r pos ret)
      (hsignal : ∀ r pos ret, s.put t ≠ .signal r pos ret) : Signals s s' t :=
    .moves pc hput hparked hitems hpost hsignal fun p hp => .inl (hphase ▸ hp)
  unfold mpscQueueTryPut at hs
  cases hpc : s.put t with
  | idle | returned => simp [hpc] at hs
  | loadTail | fetchAdd =>
    simp only [hpc] at hs
    cases hs
    exact hmove rfl rfl rfl rfl (by simp [hpc]) (by simp [hpc])
  | loadClosed | loadHead | recheck | poll =>
    simp only [hpc] at hs
    split_ifs at hs <;> cases hs <;>
      exact hmove rfl rfl rfl rfl (by simp [hpc]) (by simp [hpc])
  | writeTomb r pos | writeRec r pos =>
    simp only [hpc] at hs
    cases hs
    refine .moves _ rfl rfl rfl (by simp [hpc]) (by simp [hpc]) fun p hp => .inl ?_
    change Function.update s.phase pos .written p = .published at hp
    by_cases hpp : p = pos
    · rw [hpp, Function.update_self] at hp
      cases hp
    · rwa [Function.update_of_ne hpp] at hp
  | publishTomb r pos | publishRec r pos =>
    simp only [hpc] at hs
    cases hs
    refine .moves _ rfl rfl rfl (by simp [hpc]) (by simp [hpc]) fun p hp => ?_
    change Function.update s.phase pos .published p = .published at hp
    by_cases hpp : p = pos
    · exact .inr ⟨r, _, by rw [hpp]⟩
    · rw [Function.update_of_ne hpp] at hp
      exact .inl hp
  | signal r pos ret =>
    simp only [hpc] at hs
    split_ifs at hs with hparked <;> cases hs
    · exact .takes r pos ret (Function.update_self ..) rfl
    · rw [Bool.not_eq_true] at hparked
      exact .misses ret rfl hparked hparked rfl (by simp [hpc])
  | post r pos ret =>
    simp only [hpc] at hs
    cases hs
    exact .posts ret rfl rfl (Nat.succ_pos _) (by simp [hpc]) rfl

/-- A spurious failure of the exchange does no harm when it would have failed anyway. -/
theorem signals_step {a : Act ι ρ} (ha : a.producer = some t)
    (hmiss : a = .casMiss t → s.consumerParked = false) (hs : step g s a = some s') :
    Signals s s' t := by
  cases a with
  | call u r =>
    cases ha
    simp only [step] at hs
    split_ifs at hs with hin
    cases hs
    refine .moves _ rfl rfl rfl (fun r' pos ret hpc => ?_) (fun r' pos ret hpc => ?_)
      fun p hp => .inl hp <;> simp [hpc, TryPut.inside] at hin
  | put u =>
    cases ha
    exact signals_tryPut hs
  | giveUp u =>
    cases ha
    obtain ⟨r, pos, hpc, -, rfl⟩ := abandon_eq hs
    exact .moves _ rfl rfl rfl (by simp [hpc]) (by simp [hpc]) fun p hp => .inl hp
  | casMiss u =>
    cases ha
    have hparked := hmiss rfl
    obtain ⟨r, pos, ret, hpc, rfl⟩ := casMiss_eq hs
    exact .misses ret rfl hparked hparked rfl (by simp [hpc])
  | callWait | callGet | consume | callClose | close | callWaitEmpty | waitEmpty | spurious =>
    cases ha

/-- Closer and waiter leave the flag alone and take no token. -/
theorem items_le_step {a : Act ι ρ} (hp : a.producer = none) (hc : a.consumes = false)
    (hs : step g s a = some s') :
    s'.consumerParked = s.consumerParked ∧ s.itemsSem ≤ s'.itemsSem := by
  cases a with
  | call | put | giveUp | casMiss => cases hp
  | callWait | callGet | consume => cases hc
  | callClose =>
    obtain ⟨-, rfl⟩ := callClose_eq hs
    exact ⟨rfl, le_rfl⟩
  | close =>
    obtain ⟨closed, items, slots, locked, waiter, closer, hitems, -, rfl⟩ := close_eq hs
    exact ⟨rfl, hitems⟩
  | waitEmpty =>
    obtain ⟨locked, waiter, rfl⟩ := waitEmpty_eq hs
    exact ⟨rfl, le_rfl⟩
  | callWaitEmpty | spurious =>
    simp only [step] at hs
    split_ifs at hs
    cases hs
    exact ⟨rfl, le_rfl⟩

/-! ### The consumer's stores are buffered -/

/-- The queue, with the stores to `consumer_parked` that are not in memory yet. -/
structure Buffered (ι ρ : Type*) where
  q : State ι ρ
  pending : List Bool

/-- The consumer is about to look at `head` again. -/
def Consumer.rechecks : Consumer → Bool
  | .wait .reloadHead => true
  | _ => false

namespace Buffered

/-- A step of the queue, or the oldest store reaches the memory. -/
inductive Act (ι ρ : Type*)
  | queue (a : Queue.Act ι ρ)
  | flush

/-- `mpsc_queue_create`. -/
def create (g : Shape) (junk : ℕ → Entry ρ) : Buffered ι ρ := ⟨mpscQueueCreate g junk, []⟩

/-- The consumer issues `clog_atomic_store_int(&q->consumer_parked, v)` and goes to `pc`. -/
def store (s : Buffered ι ρ) (v : Bool) (pc : WaitForItems) : Buffered ι ρ :=
  ⟨{ s.q with consumer := .wait pc }, s.pending ++ [v]⟩

/-- One step: the three stores of `mpsc_queue_wait_for_items` go to the buffer. -/
def step (g : Shape) (s : Buffered ι ρ) : Act ι ρ → Option (Buffered ι ρ)
  | .flush =>
    match s.pending with
    | [] => none
    | v :: rest => some ⟨{ s.q with consumerParked := v }, rest⟩
  | .queue .consume =>
    match s.q.consumer with
    | .wait .park => some (s.store true .reloadHead)
    | .wait .unparkAwake => some (s.store false .loadHead)
    | .wait (.unpark ret) => some (s.store false (.returned ret))
    | _ => (Queue.step g s.q .consume).map fun q => { s with q := q }
  | .queue a => (Queue.step g s.q a).map fun q => { s with q := q }

/-- All stores are in memory, the consumer is blocked on `items_sem` without a token, a position
in `[tail, head)` is published, and no producer is inside `mpsc_queue_try_put`. -/
def Stranded (s : Buffered ι ρ) : Prop :=
  s.pending = [] ∧ s.q.consumer = .wait .semWait ∧ s.q.itemsSem = 0 ∧
    (∃ p, s.q.tail ≤ p ∧ p < s.q.head ∧ s.q.phase p = .published) ∧ s.q.quiet

/-- The consumer looks at `head` again only when its stores are in memory, and an exchange fails
for no reason only when it would have failed anyway. -/
def ordered (s : Buffered ι ρ) : Act ι ρ → Prop
  | .queue .consume => s.q.consumer.rechecks = true → s.pending = []
  | .queue (.casMiss _) => s.q.consumerParked = false
  | _ => True

end Buffered

omit [DecidableEq ι] [Inhabited ρ] in
theorem Watched.moveConsumer {k : ℕ} (h : Watched s k) (c : Consumer) :
    Watched { s with consumer := c } k :=
  ⟨h.owed, h.announced⟩

/-- Up to where the consumer has seen the queue empty since it parked. -/
def State.seenEmpty (s : State ι ρ) : Option ℕ :=
  match s.consumer with
  | .wait (.reloadTail head) => some head
  | .wait .reloadClosed | .wait .semWait => some s.tail
  | _ => none

namespace Buffered

/-- The invariant of the runs in which the stores are in order. -/
structure Ok (g : Shape) (s : Buffered ι ρ) : Prop where
  inv : Inv g s.q
  parked : s.q.consumer = .wait .reloadHead →
    s.pending = [] ∧ Owed s.q ∨ s.pending.getLast? = some true
  seen : ∀ k, s.q.seenEmpty = some k → s.pending = [] ∧ Watched s.q k

variable {s s' : Buffered ι ρ}

omit [DecidableEq ι] in
/-- The consumer is not between parking and sleeping. -/
theorem Ok.of_elsewhere (hi : Inv g s.q) (hne : s.q.consumer ≠ .wait .reloadHead)
    (hseen : s.q.seenEmpty = none) : Ok g s :=
  ⟨hi, fun h => absurd h hne, fun k hk => by rw [hseen] at hk; cases hk⟩

/-- A store that reaches the memory. -/
theorem Ok.flush (h : Ok g s) (hs : step g s .flush = some s') : Ok g s' := by
  simp only [step] at hs
  cases hp : s.pending with
  | nil => simp [hp] at hs
  | cons v rest =>
    simp only [hp] at hs
    cases hs
    refine ⟨h.inv.frame .., fun hc => ?_, fun k hk => ?_⟩
    · rcases h.parked hc with ⟨hnil, -⟩ | hlast
      · rw [hp] at hnil
        cases hnil
      · rw [hp] at hlast
        cases rest with
        | nil =>
          obtain rfl : v = true := by simpa using hlast
          exact .inl ⟨rfl, .inl rfl⟩
        | cons w rest => exact .inr (by simpa using hlast)
    · have hnil := (h.seen k hk).1
      rw [hp] at hnil
      cases hnil

/-- The consumer stays where it is. -/
theorem Ok.beside (h : Ok g s) {q : State ι ρ} {a : Queue.Act ι ρ} (ha : a.consumes = false)
    (hs : Queue.step g s.q a = some q) (howed : Owed s.q → Owed q)
    (hwatch : ∀ k, Watched s.q k → Watched q k) : Ok g { s with q := q } := by
  obtain ⟨htail, hcons, -⟩ := sameConsumer_step ha hs
  have hseen : q.seenEmpty = s.q.seenEmpty := by rw [State.seenEmpty, hcons, htail]; rfl
  refine ⟨inv_step h.inv hs, fun hc => ?_, fun k hk => ?_⟩
  · exact (h.parked (hcons ▸ hc)).imp_left fun hp => ⟨hp.1, howed hp.2⟩
  · obtain ⟨hnil, hw⟩ := h.seen k (hseen ▸ hk)
    exact ⟨hnil, hwatch k hw⟩

/-- **The consumer's own steps.** -/
theorem Ok.consume (h : Ok g s) (hord : s.q.consumer.rechecks = true → s.pending = [])
    (hs : step g s (.queue .consume) = some s') : Ok g s' := by
  cases hc : s.q.consumer with
  | idle => simp [step, hc, Queue.step] at hs
  | get pc =>
    simp only [step, hc] at hs
    obtain ⟨q, hq, rfl⟩ := Option.map_eq_some_iff.1 hs
    have hi := inv_step h.inv hq
    simp only [Queue.step, hc] at hq
    obtain ⟨⟨pc', hpc'⟩, -⟩ := batchStart_getBatchTry h.inv hc hq
    exact .of_elsewhere hi (by simp [hpc']) (by simp [State.seenEmpty, hpc'])
  | wait pc =>
    have hmove := h.inv.moveWait (by rw [hc]; rfl)
    cases pc with
    | returned => simp [step, hc, Queue.step, mpscQueueWaitForItems] at hs
    | unparkAwake | unpark =>
      simp only [step, hc] at hs
      cases hs
      exact .of_elsewhere (hmove _) (by simp [store]) rfl
    | park =>
      simp only [step, hc] at hs
      cases hs
      refine ⟨hmove _, fun _ => .inr ?_, fun k hk => ?_⟩
      · simp [store]
      · cases hk
    | loadHead | loadTail | loadClosed | semWait =>
      simp only [step, hc] at hs
      obtain ⟨q, hq, rfl⟩ := Option.map_eq_some_iff.1 hs
      have hi := inv_step h.inv hq
      simp only [Queue.step, hc, mpscQueueWaitForItems] at hq
      try split_ifs at hq
      all_goals
        cases hq
        exact .of_elsewhere hi (by simp) rfl
    | reloadHead =>
      simp only [step, hc] at hs
      obtain ⟨q, hq, rfl⟩ := Option.map_eq_some_iff.1 hs
      have hi := inv_step h.inv hq
      simp only [Queue.step, hc, mpscQueueWaitForItems] at hq
      cases hq
      have hnil := hord (by rw [hc]; rfl)
      have howed : Owed s.q := by
        rcases h.parked hc with ⟨-, ho⟩ | hlast
        · exact ho
        · rw [hnil] at hlast
          cases hlast
      refine ⟨hi, fun hp => (by cases hp), fun k hk => ⟨hnil, howed, fun _ p hk' hpub => ?_⟩⟩
      -- nothing at or past `head` is published
      obtain rfl : s.q.head = k := Option.some.inj hk
      have hvac := h.inv.ring.vacant_of_head_le p hk'
      exact absurd (hvac.symm.trans hpub) (by decide)
    | reloadTail head =>
      simp only [step, hc] at hs
      obtain ⟨q, hq, rfl⟩ := Option.map_eq_some_iff.1 hs
      have hi := inv_step h.inv hq
      simp only [Queue.step, hc, mpscQueueWaitForItems] at hq
      split_ifs at hq with heq <;> cases hq
      · refine ⟨hi, fun hp => (by cases hp), fun k hk => ?_⟩
        obtain rfl : s.q.tail = k := Option.some.inj hk
        obtain ⟨hnil, hw⟩ := h.seen head (by rw [State.seenEmpty, hc])
        exact ⟨hnil, heq ▸ hw.moveConsumer _⟩
      · exact .of_elsewhere hi (by simp) rfl
    | reloadClosed =>
      simp only [step, hc] at hs
      obtain ⟨q, hq, rfl⟩ := Option.map_eq_some_iff.1 hs
      have hi := inv_step h.inv hq
      simp only [Queue.step, hc, mpscQueueWaitForItems] at hq
      split_ifs at hq <;> cases hq
      · exact .of_elsewhere hi (by simp) rfl
      · refine ⟨hi, fun hp => (by cases hp), fun k hk => ?_⟩
        obtain ⟨hnil, hw⟩ := h.seen k (by rw [State.seenEmpty, hc]; exact hk)
        exact ⟨hnil, hw.moveConsumer _⟩

/-- **Every step in order keeps the invariant.** -/
theorem Ok.step {a : Act ι ρ} (h : Ok g s) (hord : ordered s a)
    (hs : Buffered.step g s a = some s') : Ok g s' := by
  cases a with
  | flush => exact h.flush hs
  | queue a =>
    have hput {t : ι} (ha : a.producer = some t) (hno : a.consumes = false)
        (hmiss : a = .casMiss t → s.q.consumerParked = false) {q : State ι ρ}
        (hq : Queue.step g s.q a = some q) : Ok g { s with q := q } :=
      have hsig := signals_step ha hmiss hq
      h.beside hno hq (·.signals hsig) fun _ hw => hw.signals hsig
    cases a with
    | consume => exact h.consume hord hs
    | call t | put t | giveUp t =>
      obtain ⟨q, hq, rfl⟩ := Option.map_eq_some_iff.1 hs
      exact hput rfl rfl nofun hq
    | casMiss t =>
      obtain ⟨q, hq, rfl⟩ := Option.map_eq_some_iff.1 hs
      exact hput rfl rfl (fun _ => hord) hq
    | callWait | callGet =>
      obtain ⟨q, hq, rfl⟩ := Option.map_eq_some_iff.1 hs
      have hi := inv_step h.inv hq
      simp only [Queue.step] at hq
      split_ifs at hq
      cases hq
      exact .of_elsewhere hi (by simp) rfl
    | callClose | close | callWaitEmpty | waitEmpty | spurious =>
      obtain ⟨q, hq, rfl⟩ := Option.map_eq_some_iff.1 hs
      have hcalls := sameCalls_step rfl hq
      obtain ⟨hparked, hitems⟩ := items_le_step rfl rfl hq
      have howed (ho : Owed s.q) : Owed q := by
        rw [Owed, hparked, hcalls.put]
        exact ho.imp_right fun ho => ho.imp_right fun hpos => hpos.trans_le hitems
      refine h.beside rfl hq howed fun k hw => ⟨howed hw.owed, ?_⟩
      rw [hparked, Announced, hcalls.put, hcalls.phase]
      exact hw.announced

/-- So it is in every run in order. -/
theorem ok_reach {junk : ℕ → Entry ρ} (h : Reach (Buffered.step g) ordered (create g junk) s) :
    Ok g s :=
  h.invariant (I := Ok g) (.of_elsewhere (inv_create junk) (by simp [create, mpscQueueCreate]) rfl)
    fun _ _ _ hi hord hs => hi.step hord hs

/-- **No wake-up is lost when the stores are in order.**  In every run of any number of producers,
the consumer, a closer and a waiter in which the consumer's store `consumer_parked = 1` is in
memory when the consumer loads `head` again, the consumer never sleeps on a published record that
nobody is going to announce. -/
theorem awake_of_ordered (g : Shape) (junk : ℕ → Entry ρ) (s : Buffered ι ρ)
    (h : Reach (Buffered.step g) ordered (create g junk) s) : ¬ s.Stranded := by
  rintro ⟨-, hc, hitems, ⟨p, htail, -, hpub⟩, hquiet⟩
  obtain ⟨howed, hannounced⟩ := ((ok_reach h).seen s.q.tail (by rw [State.seenEmpty, hc])).2
  rcases howed with hparked | ⟨t, r, pos, ret, ht⟩ | hpos
  · obtain ⟨t, r, ret, ht⟩ := hannounced hparked p htail hpub
    have hin := hquiet t
    rw [ht] at hin
    cases hin
  · have hin := hquiet t
    rw [ht] at hin
    cases hin
  · omega

instance (s : Buffered ι ρ) : (a : Act ι ρ) → Decidable (ordered s a)
  | .queue .consume =>
    inferInstanceAs (Decidable (s.q.consumer.rechecks = true → s.pending = []))
  | .queue (.casMiss _) => inferInstanceAs (Decidable (s.q.consumerParked = false))
  | .queue (.call ..) | .queue (.put _) | .queue (.giveUp _) | .queue .callWait
  | .queue (.callGet _) | .queue .callClose | .queue .close | .queue .callWaitEmpty
  | .queue .waitEmpty | .queue .spurious | .flush => .isTrue trivial

/-- A queue of two slots and one producer. -/
def lone : Buffered (Fin 1) ℕ := create (.ofPow 1) fun _ => tombstone

/-- `n` steps of the consumer. -/
def consume (n : ℕ) : List (Act (Fin 1) ℕ) := List.replicate n (.queue .consume)

/-- The producer puts `r`: eight steps, and one more if it has to post. -/
def putLone (r n : ℕ) : List (Act (Fin 1) ℕ) :=
  .queue (.call 0 r) :: List.replicate n (.queue (.put 0))

/-- The consumer parks, its store reaches the memory, it looks again and sleeps; the producer
puts a record. -/
def inOrder : List (Act (Fin 1) ℕ) :=
  List.flatten [[.queue .callWait], consume 4, [.flush], consume 3, putLone 7 9]

/-- The producer has seen the consumer parked, and has posted. -/
theorem awake_of_ordered_woken : ∃ s, Reach (Buffered.step (.ofPow 1)) ordered lone s ∧
    (s.pending = [] ∧ s.q.tail = 0 ∧ s.q.head = 1 ∧ s.q.phase 0 = .published ∧ s.q.itemsSem = 1) ∧
    ¬ s.Stranded := by
  obtain ⟨s, hr, hs⟩ : ∃ s, Reach (Buffered.step (.ofPow 1)) ordered lone s ∧
      (s.pending = [] ∧ s.q.tail = 0 ∧ s.q.head = 1 ∧ s.q.phase 0 = .published ∧
        s.q.itemsSem = 1) := by
    apply exists_of_runIf inOrder
    decide +kernel
  exact ⟨s, hr, hs, awake_of_ordered (.ofPow 1) (fun _ => tombstone) s hr⟩

/-- The consumer parks, looks again and sleeps before its store reaches the memory; in between the
producer puts a record and finds the flag not set. -/
def lateFlush : List (Act (Fin 1) ℕ) :=
  List.flatten [[.queue .callWait], consume 7, putLone 7 8, [.flush]]

instance : (c : Consumer) → Decidable (c = .wait .semWait)
  | .wait .semWait => .isTrue rfl
  | .idle | .get _ | .wait .loadHead | .wait (.loadTail _) | .wait .loadClosed | .wait .park
  | .wait .reloadHead | .wait (.reloadTail _) | .wait .reloadClosed | .wait .unparkAwake
  | .wait (.unpark _) | .wait (.returned _) => .isFalse nofun

/-- The record is published, everybody has returned, and the consumer sleeps. -/
theorem consumer_sleeps_on_record : ∃ s : Buffered (Fin 1) ℕ,
    Reachable (Buffered.step (.ofPow 1)) lone s ∧
      ((s.q.buffer 0).entry = ⟨7, false⟩ ∧ (s.q.buffer 0).seq = 1) ∧ s.Stranded := by
  obtain ⟨s, hr, hslot, ⟨htail, hhead, hpub⟩, hp, hc, hi, hq⟩ : ∃ s,
      Reachable (Buffered.step (.ofPow 1)) lone s ∧
      ((s.q.buffer 0).entry = ⟨7, false⟩ ∧ (s.q.buffer 0).seq = 1) ∧
      (s.q.tail ≤ 0 ∧ 0 < s.q.head ∧ s.q.phase 0 = .published) ∧
      s.pending = [] ∧ s.q.consumer = .wait .semWait ∧ s.q.itemsSem = 0 ∧
        ∀ t, (s.q.put t).inside = false := by
    apply exists_of_run lateFlush
    decide +kernel
  exact ⟨s, hr, hslot, hp, hc, hi, ⟨0, htail, hhead, hpub⟩, hq⟩

end Buffered
end Queue
end Clogx
