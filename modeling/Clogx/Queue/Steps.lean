/-
# Every step keeps the invariant

One lemma for each C function of `core/queue.c`, one case for each of its shared
operations.  A producer's operation is a claim, a write or a publication of the
ring, or leaves the ring alone and settles what the producer knows; the
consumer's are a copy (`take`) and the store of `tail` (`commit`); closing and
waiting for the queue to drain touch neither.
-/

import Clogx.Queue.Invariant

namespace Clogx
namespace Queue

open SeqRing (Shape Phase)
open Machine (Reachable)

variable {ι ρ : Type*}

/-! ### The ring under the state updates -/

section Ring

variable (s : State ι ρ) (g : Shape)

theorem ring_writeSlot (pos : ℕ) (e : Entry ρ) :
    (s.writeSlot g pos e).ring = s.ring.write g pos e := by
  have hseq : ∀ i, (Function.update s.buffer (g.ix pos)
      { s.buffer (g.ix pos) with entry := e } i).seq = (s.buffer i).seq := fun i => by
    by_cases hi : i = g.ix pos
    · subst hi; simp
    · rw [Function.update_of_ne hi]
  have hval : ∀ i, (Function.update s.buffer (g.ix pos)
      { s.buffer (g.ix pos) with entry := e } i).entry
      = Function.update (fun i => (s.buffer i).entry) (g.ix pos) e i := fun i => by
    by_cases hi : i = g.ix pos
    · subst hi; simp
    · rw [Function.update_of_ne hi, Function.update_of_ne hi]
  simp only [State.ring, State.writeSlot, SeqRing.Mem.write, hseq, hval]

theorem ring_publishSlot (pos : ℕ) : (s.publishSlot g pos).ring = s.ring.publish g pos := by
  have hseq : ∀ i, (Function.update s.buffer (g.ix pos)
      { s.buffer (g.ix pos) with seq := pos + 1 } i).seq
      = Function.update (fun i => (s.buffer i).seq) (g.ix pos) (pos + 1) i := fun i => by
    by_cases hi : i = g.ix pos
    · subst hi; simp
    · rw [Function.update_of_ne hi, Function.update_of_ne hi]
  have hval : ∀ i, (Function.update s.buffer (g.ix pos)
      { s.buffer (g.ix pos) with seq := pos + 1 } i).entry = (s.buffer i).entry := fun i => by
    by_cases hi : i = g.ix pos
    · subst hi; simp
    · rw [Function.update_of_ne hi]
  simp only [State.ring, State.publishSlot, SeqRing.Mem.publish, hseq, hval]

end Ring

variable {g : Shape} {s s' : State ι ρ} {t : ι}

/-! ### What the steps do

The fields that each C function may change; the rest is as it was. -/

/-- What a step of `mpsc_queue_wait_for_items` can change. -/
theorem waitForItems_eq {pc : WaitForItems} (hs : mpscQueueWaitForItems s pc = some s') :
    ∃ parked items pc', s' =
      { s with consumerParked := parked, itemsSem := items, consumer := .wait pc' } := by
  cases pc <;> simp only [mpscQueueWaitForItems] at hs <;> try split_ifs at hs
  all_goals first
    | cases hs; done
    | exact ⟨_, _, _, (Option.some.inj hs).symm⟩

/-- What a step of `mpsc_queue_get_batch_try` can change. -/
theorem getBatchTry_eq {pc : GetBatchTry} (hs : mpscQueueGetBatchTry g s pc = some s') :
    ∃ tail slots locked waiter records copied pc',
      (waiter = s.waiter ∨ waiter = s.wakeWaiter.waiter) ∧ s' =
        { s with
          tail := tail, slotsSem := slots, drainLocked := locked, waiter := waiter
          records := records, copied := copied, consumer := .get pc' } := by
  cases pc <;> simp only [mpscQueueGetBatchTry] at hs <;> try split_ifs at hs
  all_goals first
    | cases hs; done
    | exact ⟨_, _, _, _, _, _, _, .inl rfl, (Option.some.inj hs).symm⟩
    | exact ⟨_, _, _, _, _, _, _, .inr rfl, (Option.some.inj hs).symm⟩

/-- What a step of `mpsc_queue_close` can change. -/
theorem close_eq (hs : mpscQueueClose g s = some s') :
    ∃ closed items slots locked waiter closer,
      s.itemsSem ≤ items ∧ (waiter = s.waiter ∨ waiter = s.wakeWaiter.waiter) ∧ s' =
        { s with
          closed := closed, itemsSem := items, slotsSem := slots, drainLocked := locked
          waiter := waiter, closer := closer } := by
  unfold mpscQueueClose at hs
  cases hc : s.closer <;> simp only [hc] at hs <;> try split_ifs at hs
  case postItems => exact ⟨_, _, _, _, _, _, Nat.le_succ _, .inl rfl, (Option.some.inj hs).symm⟩
  all_goals first
    | cases hs; done
    | exact ⟨_, _, _, _, _, _, le_rfl, .inl rfl, (Option.some.inj hs).symm⟩
    | exact ⟨_, _, _, _, _, _, le_rfl, .inr rfl, (Option.some.inj hs).symm⟩

/-- What a step of `mpsc_queue_wait_empty` can change. -/
theorem waitEmpty_eq (hs : mpscQueueWaitEmpty s = some s') :
    ∃ locked waiter, s' = { s with drainLocked := locked, waiter := waiter } := by
  unfold mpscQueueWaitEmpty at hs
  cases hc : s.waiter <;> simp only [hc] at hs <;> try split_ifs at hs
  all_goals first
    | cases hs; done
    | exact ⟨_, _, (Option.some.inj hs).symm⟩

variable [DecidableEq ι]

/-- What a time-out changes. -/
theorem abandon_eq (hs : abandon g s t = some s') :
    ∃ r pos, s.put t = .poll r pos s.tail ∧ s.tail ≤ pos - g.capacity ∧
      s' = (s.setFate t r pos .abandoned).finish t r (some pos) (-1) := by
  unfold abandon at hs
  split at hs
  · rename_i r pos lastTail hpc
    split_ifs at hs with hmove
    obtain ⟨hle, htail⟩ := not_or.1 hmove
    obtain rfl : s.tail = lastTail := not_not.1 htail
    exact ⟨r, pos, hpc, not_lt.1 hle, (Option.some.inj hs).symm⟩
  · cases hs

/-- What a failed wake-up changes. -/
theorem casMiss_eq (hs : casMiss s t = some s') :
    ∃ r pos ret, s.put t = .signal r pos ret ∧ s' = s.finish t r (some pos) ret := by
  unfold casMiss at hs
  split at hs
  · rename_i r pos ret hpc
    exact ⟨r, pos, ret, hpc, (Option.some.inj hs).symm⟩
  · cases hs

variable [Inhabited ρ]

/-- The consumer waits or gets. -/
theorem consume_cases (hs : step g s .consume = some s') :
    (∃ pc, s.consumer = .wait pc ∧ mpscQueueWaitForItems s pc = some s') ∨
      ∃ pc, s.consumer = .get pc ∧ mpscQueueGetBatchTry g s pc = some s' := by
  simp only [step] at hs
  split at hs
  · cases hs
  · rename_i pc hc
    exact .inl ⟨pc, hc, hs⟩
  · rename_i pc hc
    exact .inr ⟨pc, hc, hs⟩

theorem callClose_eq (hs : step g s .callClose = some s') :
    s.closer = .idle ∧ s' = { s with closer := .store } := by
  simp only [step] at hs
  split at hs
  · rename_i hc
    exact ⟨hc, (Option.some.inj hs).symm⟩
  · cases hs

/-! ### Producers -/

/-- What a producer knows is about the memory, not about where others stand. -/
theorem PutOk.setPut {u : ι} {pc pc' : TryPut ρ} (h : PutOk g s t pc) :
    PutOk g (s.setPut u pc') t pc :=
  h.frame le_rfl fun _ _ hc _ => ⟨hc, rfl, rfl⟩

omit [Inhabited ρ] in
@[simp] theorem setPut_put (pc : TryPut ρ) : (s.setPut t pc).put t = pc :=
  Function.update_self ..

omit [Inhabited ρ] in
theorem Local.setPut (pc : TryPut ρ) : Local t s (s.setPut t pc) where
  tail := rfl
  consumer := rfl
  records := rfl
  copied := rfl
  head := le_rfl
  put _ hu := Function.update_of_ne hu _ _
  other _ _ hc _ := ⟨hc, rfl, rfl⟩
  published _ hp := ⟨hp, rfl, rfl⟩

omit [Inhabited ρ] [DecidableEq ι] in
/-- A step that changes nothing but an unpublished position of `t`'s own. -/
theorem Local.of_owned {pos : ℕ} {c : Claim ι ρ} (hc : s.claim pos = some c)
    (hp : s.phase pos ≠ .published) (htail : s'.tail = s.tail) (hcons : s'.consumer = s.consumer)
    (hrec : s'.records = s.records) (hcop : s'.copied = s.copied) (hhead : s.head ≤ s'.head)
    (hput : ∀ u, u ≠ c.thread → s'.put u = s.put u)
    (hout : ∀ p, p ≠ pos →
      s'.claim p = s.claim p ∧ s'.phase p = s.phase p ∧ s'.item p = s.item p) :
    Local c.thread s s' where
  tail := htail
  consumer := hcons
  records := hrec
  copied := hcop
  head := hhead
  put := hput
  other p d hd hne := by
    have hpos : p ≠ pos := by
      rintro rfl
      exact hne (by rw [Option.some.inj (hd.symm.trans hc)])
    obtain ⟨h₁, h₂, h₃⟩ := hout p hpos
    exact ⟨h₁.trans hd, h₂, h₃⟩
  published p hpub := by
    have hpos : p ≠ pos := fun he => hp (he ▸ hpub)
    obtain ⟨h₁, h₂, h₃⟩ := hout p hpos
    exact ⟨h₂.trans hpub, h₃, h₁⟩

/-- A step that leaves ring and claims alone. -/
theorem Inv.setPut (h : Inv g s) {pc : TryPut ρ} (hpc : PutOk g s t pc) : Inv g (s.setPut t pc) :=
  h.of_local (.setPut pc) h.ring (by simpa using hpc.setPut) h.claimed
    fun _ hn hp => absurd hp hn

/-- A call that returns keeps the invariant. -/
theorem Inv.finish (h : Inv g s) (r : ρ) (pos : Option ℕ) (ret : ℤ) :
    Inv g (s.finish t r pos ret) := by
  have h' : Inv g (s.setPut t (.returned ret)) := h.setPut trivial
  exact ⟨h'.ring, h'.put, h'.get, h'.records, h'.copied, h'.claimed, h'.content⟩

/-- `fetch_add`: the claimed position is past every other. -/
theorem Inv.fetchAdd (h : Inv g s) (r : ρ) :
    Inv g (({ s with head := s.head + 1 }.setFate t r s.head .pending).setPut t
      (.recheck r s.head)) := by
  have hhead : ∀ p c, s.claim p = some c → p ≠ s.head := by
    rintro p c hc rfl
    have := (h.claimed s.head).1 (by rw [hc]; rfl)
    omega
  have hvac : s.phase s.head = .vacant := h.ring.vacant_of_head_le _ le_rfl
  refine h.of_local (t := t) ?_ h.ring.claim ?_ ?_ fun _ hn hp => absurd hp hn
  · exact
      { tail := rfl, consumer := rfl, records := rfl, copied := rfl
        head := Nat.le_succ _
        put := fun u hu => Function.update_of_ne hu _ _
        other := fun p c hc _ => ⟨by
          rw [← hc]; exact Function.update_of_ne (hhead p c hc) _ _, rfl, rfl⟩
        published := fun p hp => ⟨hp, rfl, by
          obtain ⟨u, q, ⟨hc, -⟩ | ⟨hc, -⟩⟩ := h.content p hp <;>
            exact Function.update_of_ne (hhead p _ hc) _ _⟩ }
  · rw [setPut_put]
    exact ⟨by simp [State.setPut, State.setFate], hvac⟩
  · intro p
    by_cases hp : p = s.head
    · subst hp; simp [State.setPut, State.setFate]
    · have hlt : p < s.head ↔ p < s.head + 1 := by omega
      simpa [State.setPut, State.setFate, Function.update_of_ne hp, ← hlt] using h.claimed p

/-- The outcome of a claim is settled while its slot is still unwritten. -/
theorem Inv.setFate (h : Inv g s) {r : ρ} {pos : ℕ} {f : Fate}
    (hc : s.claim pos = some ⟨t, r, .pending⟩) (hv : s.phase pos = .vacant) {pc : TryPut ρ}
    (hpc : PutOk g (s.setFate t r pos f) t pc) : Inv g ((s.setFate t r pos f).setPut t pc) := by
  refine h.of_local (t := t) ?_ h.ring (by simpa using hpc.setPut) ?_ fun _ hn hp => absurd hp hn
  · exact .of_owned hc (by rw [hv]; decide) rfl rfl rfl rfl le_rfl
      (fun u hu => Function.update_of_ne hu _ _)
      fun p hp => ⟨Function.update_of_ne hp _ _, rfl, rfl⟩
  · intro p
    by_cases hp : p = pos
    · subst hp
      have := (h.claimed p).1 (by rw [hc]; rfl)
      simpa [State.setPut, State.setFate] using this
    · simpa [State.setPut, State.setFate, Function.update_of_ne hp] using h.claimed p

/-- `slot->rec = e` for an owned position less than a lap past `tail`. -/
theorem Inv.writeSlot (h : Inv g s) {r : ρ} {pos : ℕ} {f : Fate} (e : Entry ρ)
    (hc : s.claim pos = some ⟨t, r, f⟩) (hv : s.phase pos = .vacant)
    (hlap : pos < s.tail + g.capacity) {pc : TryPut ρ}
    (hpc : PutOk g (s.writeSlot g pos e) t pc) : Inv g ((s.writeSlot g pos e).setPut t pc) := by
  have hring : SeqRing.Inv g (s.writeSlot g pos e).ring := by
    rw [ring_writeSlot]
    exact h.ring.write (by show s.phase pos ≠ .published; rw [hv]; decide)
      ((h.claimed pos).1 (by rw [hc]; rfl)) hlap
  refine h.of_local (t := t) ?_ hring (by simpa using hpc.setPut) h.claimed fun p hn hp => ?_
  · exact .of_owned hc (by rw [hv]; decide) rfl rfl rfl rfl le_rfl
      (fun u hu => Function.update_of_ne hu _ _)
      fun p hp => ⟨rfl, Function.update_of_ne hp _ _, Function.update_of_ne hp _ _⟩
  · have hne : p ≠ pos := by rintro rfl; simp [State.setPut, State.writeSlot] at hp
    exact absurd ((Function.update_of_ne hne _ _).symm.trans hp) hn

/-- The publication of an owned, written position. -/
theorem Inv.publishSlot (h : Inv g s) {r : ρ} {pos : ℕ} {f : Fate}
    (hc : s.claim pos = some ⟨t, r, f⟩) (hw : s.phase pos = .written) (hcont : Content s pos)
    {pc : TryPut ρ} (hpc : PutOk g (s.publishSlot g pos) t pc) :
    Inv g ((s.publishSlot g pos).setPut t pc) := by
  have hring : SeqRing.Inv g (s.publishSlot g pos).ring := by
    rw [ring_publishSlot]
    exact h.ring.publish hw
  refine h.of_local (t := t) ?_ hring (by simpa using hpc.setPut) h.claimed fun p hn hp => ?_
  · exact .of_owned hc (by rw [hw]; decide) rfl rfl rfl rfl le_rfl
      (fun u hu => Function.update_of_ne hu _ _)
      fun p hp => ⟨rfl, Function.update_of_ne hp _ _, rfl⟩
  · by_cases hne : p = pos
    · exact hne ▸ hcont.frame rfl rfl
    · exact absurd ((Function.update_of_ne hne _ _).symm.trans hp) hn

/-- The difference of two counters that are in order. -/
theorem szSub_of_le {a b : ℕ} (h : b ≤ a) : szSub a b = a - b := by
  unfold szSub
  rw [if_pos h]

omit [DecidableEq ι] in
/-- A position not yet published has not been passed by `tail`. -/
theorem Inv.tail_le (h : Inv g s) {pos : ℕ} (hp : s.phase pos ≠ .published) : s.tail ≤ pos :=
  (Nat.le_add_right _ _).trans (h.ring.read_le_of_unpublished hp)

/-- **`mpsc_queue_try_put` keeps the invariant.** -/
theorem Inv.tryPut (h : Inv g s) (hs : mpscQueueTryPut g s t = some s') : Inv g s' := by
  have hput := h.put t
  unfold mpscQueueTryPut at hs
  cases hpc : s.put t with
  | idle | returned => simp [hpc] at hs
  | loadClosed r =>
    simp only [hpc] at hs
    split_ifs at hs <;> cases hs
    · exact h.finish r none (-1)
    · exact h.setPut trivial
  | loadTail r =>
    simp only [hpc] at hs
    cases hs
    exact h.setPut trivial
  | loadHead r tailSnap =>
    simp only [hpc] at hs
    split_ifs at hs <;> cases hs
    · exact h.finish r none (-1)
    · exact h.setPut trivial
  | fetchAdd r =>
    simp only [hpc] at hs
    cases hs
    exact h.fetchAdd r
  | recheck r pos =>
    simp only [hpc] at hs
    rw [hpc] at hput
    obtain ⟨hc, hv⟩ := hput
    have htail : s.tail ≤ pos := h.tail_le (by rw [hv]; decide)
    rw [szSub_of_le htail] at hs
    split_ifs at hs with h₁ h₂ <;> cases hs
    · exact h.setPut ⟨hc, hv⟩
    · omega
    · exact h.setFate hc hv ⟨by simp [State.setFate], hv, show pos < s.tail + _ by omega⟩
  | poll r pos lastTail =>
    simp only [hpc] at hs
    rw [hpc] at hput
    obtain ⟨hc, hv⟩ := hput
    split_ifs at hs with h₁ <;> cases hs
    · exact h.setFate hc hv ⟨by simp [State.setFate], hv, show pos < s.tail + _ by omega⟩
    · exact h.setPut ⟨hc, hv⟩
  | writeTomb r pos =>
    simp only [hpc] at hs
    rw [hpc] at hput
    obtain ⟨hc, hv, hlap⟩ := hput
    cases hs
    exact h.writeSlot _ hc hv hlap ⟨hc, by simp [State.writeSlot], by simp [State.writeSlot]⟩
  | publishTomb r pos =>
    simp only [hpc] at hs
    rw [hpc] at hput
    obtain ⟨hc, hw, hi⟩ := hput
    cases hs
    exact h.publishSlot hc hw ⟨t, r, .inr ⟨hc, hi⟩⟩
      ⟨by simp [State.publishSlot], .inr ⟨rfl, hc⟩⟩
  | writeRec r pos =>
    simp only [hpc] at hs
    rw [hpc] at hput
    obtain ⟨hc, hv, hlap⟩ := hput
    cases hs
    exact h.writeSlot _ hc hv hlap ⟨hc, by simp [State.writeSlot], by simp [State.writeSlot]⟩
  | publishRec r pos =>
    simp only [hpc] at hs
    rw [hpc] at hput
    obtain ⟨hc, hw, hi⟩ := hput
    cases hs
    exact h.publishSlot hc hw ⟨t, r, .inl ⟨hc, hi⟩⟩
      ⟨by simp [State.publishSlot], .inl ⟨rfl, hc⟩⟩
  | signal r pos ret =>
    simp only [hpc] at hs
    rw [hpc] at hput
    split_ifs at hs <;> cases hs
    · have h' : Inv g (s.setPut t (.post r pos ret)) := h.setPut hput
      exact ⟨h'.ring, h'.put, h'.get, h'.records, h'.copied, h'.claimed, h'.content⟩
    · exact h.finish r _ _
  | post r pos ret =>
    simp only [hpc] at hs
    cases hs
    have h' := h.finish (t := t) r (some pos) ret
    exact ⟨h'.ring, h'.put, h'.get, h'.records, h'.copied, h'.claimed, h'.content⟩

/-- So does a time-out. -/
theorem Inv.abandon (h : Inv g s) (hs : abandon g s t = some s') : Inv g s' := by
  have hput := h.put t
  obtain ⟨r, pos, hpc, -, rfl⟩ := abandon_eq hs
  rw [hpc] at hput
  have h' : Inv g ((s.setFate t r pos .abandoned).setPut t (.returned (-1))) :=
    h.setFate hput.1 hput.2 trivial
  exact ⟨h'.ring, h'.put, h'.get, h'.records, h'.copied, h'.claimed, h'.content⟩

/-- So does a failed wake-up. -/
theorem Inv.casMiss (h : Inv g s) (hs : casMiss s t = some s') : Inv g s' := by
  obtain ⟨r, pos, ret, -, rfl⟩ := casMiss_eq hs
  exact h.finish r _ _

/-! ### The consumer -/

section Consumer

omit [DecidableEq ι]

/-- The flags, semaphores, locks and the other parties' counters are not part of
the invariant. -/
theorem Inv.frame (h : Inv g s) (closed parked locked : Bool) (items slots : ℕ) (closer : Close)
    (waiter : WaitEmpty) (done : List (Done ι ρ)) :
    Inv g { s with
      closed := closed, consumerParked := parked, drainLocked := locked, itemsSem := items
      slotsSem := slots, closer := closer, waiter := waiter, done := done } :=
  ⟨h.ring, h.put, h.get, h.records, h.copied, h.claimed, h.content⟩

/-- The consumer moves on without touching the memory. -/
theorem Inv.moveConsumer (h : Inv g s) {c : Consumer} (ht : c.taken = s.consumer.taken)
    (hget : GetOk { s with consumer := c }) (hrec : RecordsOk { s with consumer := c }) :
    Inv g { s with consumer := c } := by
  refine h.of_consume ?_ hget hrec ?_ rfl rfl le_rfl rfl rfl rfl
  · have hring : ({ s with consumer := c } : State ι ρ).ring = s.ring := by
      simp only [State.ring, ht]
    exact hring ▸ h.ring
  · simpa only [ht] using h.copied

/-- A call that starts, or a step of `mpsc_queue_wait_for_items`. -/
theorem Inv.moveWait (h : Inv g s) (ht : s.consumer.taken = 0) (pc : WaitForItems) :
    Inv g { s with consumer := .wait pc } :=
  h.moveConsumer ht.symm trivial trivial

/-- **`mpsc_queue_wait_for_items` keeps the invariant.** -/
theorem Inv.waitForItems (h : Inv g s) {pc : WaitForItems} (hc : s.consumer = .wait pc)
    (hs : mpscQueueWaitForItems s pc = some s') : Inv g s' := by
  obtain ⟨parked, items, pc', rfl⟩ := waitForItems_eq hs
  exact (h.moveWait (by rw [hc]; rfl) pc').frame ..

theorem taken_afterLoop (tail n : ℕ) : (Consumer.get (afterLoop tail n)).taken = n := by
  unfold afterLoop
  split_ifs with hn
  · exact hn.symm
  · rfl

theorem taken_loopTop (m head tail n : ℕ) : (Consumer.get (loopTop m head tail n)).taken = n := by
  unfold loopTop
  split_ifs
  · rfl
  · exact taken_afterLoop tail n

omit [Inhabited ρ] in
/-- Out of the loop. -/
theorem ok_afterLoop {n : ℕ} (hc : s.consumer = .get (afterLoop s.tail n))
    (h : s.records = (List.range' s.tail n).map s.item) : GetOk s ∧ RecordsOk s := by
  unfold afterLoop at hc
  split_ifs at hc with hn
  · subst hn
    simpa [GetOk, RecordsOk, hc] using h
  · simpa [GetOk, RecordsOk, hc, Nat.pos_of_ne_zero hn] using h

omit [Inhabited ρ] in
/-- At the top of the loop, with `n` slots copied. -/
theorem ok_loopTop {m head n : ℕ} (hc : s.consumer = .get (loopTop m head s.tail n))
    (ht : s.tail ≤ head) (hh : head ≤ s.head)
    (h : s.records = (List.range' s.tail n).map s.item) : GetOk s ∧ RecordsOk s := by
  unfold loopTop at hc
  rw [szSub_of_le ht] at hc
  split_ifs at hc with hn
  · have hlt : s.tail + n < head := by omega
    simpa [GetOk, RecordsOk, hc, hlt, hh] using h
  · exact ok_afterLoop hc h

/-- **The copy**: the sequence test was passed, so the slot holds what was
written for the position, and the position is taken. -/
theorem Inv.copySlot (h : Inv g s) {m head n : ℕ} (hc : s.consumer = .get (.copy m head s.tail n))
    (hlt : s.tail + n < head) (hh : head ≤ s.head) (hp : s.phase (s.tail + n) = .published) :
    Inv g { s with
      records := s.records ++ [(s.buffer (g.ix (s.tail + n))).entry]
      copied := s.copied ++ [(s.buffer (g.ix (s.tail + n))).entry]
      consumer := .get (loopTop m head s.tail (n + 1)) } := by
  have hread : s.ring.read = s.tail + n := by simp only [State.ring, hc, Consumer.taken]
  have hval : (s.buffer (g.ix (s.tail + n))).entry = s.item (s.tail + n) := by
    have := h.ring.val_read (by rw [hread]; exact hp)
    rwa [hread] at this
  have hrec := h.records
  have hcop := h.copied
  rw [hc] at hcop
  simp only [RecordsOk, hc] at hrec
  have hok := ok_loopTop (s := { s with
      records := s.records ++ [(s.buffer (g.ix (s.tail + n))).entry]
      copied := s.copied ++ [(s.buffer (g.ix (s.tail + n))).entry]
      consumer := .get (loopTop m head s.tail (n + 1)) }) rfl
    (show s.tail ≤ head by omega) hh (by
    rw [hrec, hval, List.range'_1_concat, List.map_append]
    rfl)
  refine h.of_consume ?_ hok.1 hok.2 ?_ rfl rfl le_rfl rfl rfl rfl
  · convert h.ring.take (by rw [hread]; exact hp) using 1
    simp only [State.ring, SeqRing.Mem.take, hc, taken_loopTop]
    rfl
  · show s.copied ++ [_] = _
    rw [taken_loopTop, hcop, hval, ← Nat.add_assoc, List.range_succ, List.map_append]
    rfl

/-- **The store of `tail`** frees what the batch has copied. -/
theorem Inv.storeTail (h : Inv g s) {n : ℕ} (hc : s.consumer = .get (.storeTail s.tail n)) :
    Inv g { s with tail := s.tail + n, consumer := .get (.postSlots n n) } := by
  have hrec := h.records
  have hcop := h.copied
  rw [hc] at hcop
  simp only [RecordsOk, hc] at hrec
  refine h.of_consume ?_ trivial ⟨Nat.le_add_left .., ?_⟩ hcop rfl rfl (Nat.le_add_right ..)
    rfl rfl rfl
  · convert h.ring.commit using 1
    simp only [State.ring, SeqRing.Mem.commit, hc, Consumer.taken, Nat.add_zero]
  · show s.records = (List.range' (s.tail + n - n) n).map s.item
    rwa [Nat.add_sub_cancel]

/-- **`mpsc_queue_get_batch_try` keeps the invariant.** -/
theorem Inv.getBatchTry (h : Inv g s) {pc : GetBatchTry} (hc : s.consumer = .get pc)
    (hs : mpscQueueGetBatchTry g s pc = some s') : Inv g s' := by
  have hget := h.get
  have hrec := h.records
  simp only [GetOk, hc] at hget
  simp only [RecordsOk, hc] at hrec
  have htail : s.tail ≤ s.head := by
    have h₁ := h.ring.tail_le_read
    have h₂ := h.ring.read_le_head
    exact h₁.trans h₂
  cases pc with
  | loadHead m =>
    cases hs
    exact h.moveConsumer (by rw [hc]; rfl) ⟨htail, le_rfl⟩ hrec
  | loadTail m head =>
    simp only [mpscQueueGetBatchTry] at hs
    split_ifs at hs <;> cases hs
    · exact h.moveConsumer (by rw [hc]; rfl) trivial ⟨Nat.zero_le _, by simpa using hrec⟩
    · have hok := ok_loopTop (s := { s with consumer := .get (loopTop m head s.tail 0) }) rfl
        hget.1 hget.2 (by simpa using hrec)
      exact h.moveConsumer (by rw [hc, taken_loopTop]; rfl) hok.1 hok.2
  | loadSeq m head tail n =>
    obtain ⟨rfl, hlt, hh⟩ := hget
    simp only [mpscQueueGetBatchTry] at hs
    split_ifs at hs with hseq <;> cases hs
    · have hread : s.ring.read = s.tail + n := by simp only [State.ring, hc, Consumer.taken]
      have hpub := h.ring.published_of_seq (by rw [hread]; exact hseq)
      rw [hread] at hpub
      exact h.moveConsumer (by rw [hc]; rfl) ⟨rfl, hlt, hh, hpub⟩ hrec
    · have hok := ok_afterLoop (s := { s with consumer := .get (afterLoop s.tail n) }) rfl hrec
      exact h.moveConsumer (by rw [hc, taken_afterLoop]; rfl) hok.1 hok.2
  | copy m head tail n =>
    obtain ⟨rfl, hlt, hh, hp⟩ := hget
    cases hs
    exact h.copySlot hc hlt hh hp
  | storeTail tail n =>
    obtain ⟨rfl, -⟩ := hget
    cases hs
    exact h.storeTail hc
  | postSlots n i =>
    have hmove (pc) := h.moveConsumer (c := .get pc)
    cases hs
    refine (hmove (if i ≤ 1 then .remHead n else .postSlots n (i - 1)) ?_ ?_ ?_).frame .. <;>
      split_ifs
    · rw [hc]; rfl
    · rw [hc]; rfl
    · trivial
    · trivial
    · exact hrec
    · exact hrec
  | remHead n =>
    cases hs
    exact h.moveConsumer (by rw [hc]; rfl) trivial hrec
  | remTail n head =>
    simp only [mpscQueueGetBatchTry] at hs
    split_ifs at hs <;> cases hs <;>
      exact h.moveConsumer (by rw [hc]; rfl) trivial hrec
  | lock n =>
    simp only [mpscQueueGetBatchTry] at hs
    split_ifs at hs
    cases hs
    have hmove := h.moveConsumer (c := .get (.broadcast n)) (by rw [hc]; rfl) trivial hrec
    exact hmove.frame ..
  | broadcast n =>
    cases hs
    have hmove := h.moveConsumer (c := .get (.unlock n)) (by rw [hc]; rfl) trivial hrec
    exact hmove.frame ..
  | unlock n =>
    cases hs
    have hmove := h.moveConsumer (c := .get (.returned n)) (by rw [hc]; rfl) trivial hrec
    exact hmove.frame ..
  | returned => cases hs

end Consumer

/-! ### Closing, waiting, and whole runs -/

omit [DecidableEq ι] in
/-- A step of the closer. -/
theorem Inv.close (h : Inv g s) (hs : mpscQueueClose g s = some s') : Inv g s' := by
  obtain ⟨closed, items, slots, locked, waiter, closer, -, -, rfl⟩ := close_eq hs
  exact h.frame ..

omit [DecidableEq ι] in
/-- A step of the waiter. -/
theorem Inv.waitEmpty (h : Inv g s) (hs : mpscQueueWaitEmpty s = some s') : Inv g s' := by
  obtain ⟨locked, waiter, rfl⟩ := waitEmpty_eq hs
  exact h.frame ..

theorem taken_of_free {c : Consumer} (h : c.free = true) : c.taken = 0 := by
  rcases c with _ | _ | _ <;> try rfl
  rename_i pc
  cases pc <;> first | rfl | simp [Consumer.free] at h

/-- **Every step keeps the invariant.** -/
theorem inv_step {a : Act ι ρ} (h : Inv g s) (hs : step g s a = some s') : Inv g s' := by
  cases a with
  | call t r =>
    simp only [step] at hs
    split_ifs at hs
    cases hs
    exact h.setPut trivial
  | put t => exact h.tryPut hs
  | giveUp t => exact h.abandon hs
  | casMiss t => exact h.casMiss hs
  | callWait =>
    simp only [step] at hs
    split_ifs at hs with hf
    cases hs
    exact h.moveWait (taken_of_free hf) _
  | callGet m =>
    simp only [step] at hs
    split_ifs at hs with hf
    cases hs
    have ht := taken_of_free hf.1
    refine h.of_consume ?_ trivial rfl (by rw [h.copied, ht]; rfl)
      rfl rfl le_rfl rfl rfl rfl
    convert h.ring using 1
    simp only [State.ring, ht]
    rfl
  | consume =>
    rcases consume_cases hs with ⟨pc, hc, hs⟩ | ⟨pc, hc, hs⟩
    · exact h.waitForItems hc hs
    · exact h.getBatchTry hc hs
  | callClose =>
    obtain ⟨-, rfl⟩ := callClose_eq hs
    exact h.frame ..
  | close => exact h.close hs
  | callWaitEmpty | spurious =>
    simp only [step] at hs
    split_ifs at hs
    cases hs
    exact h.frame ..
  | waitEmpty => exact h.waitEmpty hs

omit [DecidableEq ι] in
/-- A queue nobody has used, whatever its slots hold, as long as no slot is
already stamped for its first position. -/
theorem inv_fresh (hseq : ∀ i, i < g.capacity → (s.buffer i).seq ≠ i + 1) (hh : s.head = 0)
    (ht : s.tail = 0) (hput : ∀ t, s.put t = .idle) (hc : s.consumer = .idle)
    (hcop : s.copied = []) (hcl : ∀ p, s.claim p = none) (hp : ∀ p, s.phase p = .vacant) :
    Inv g s where
  ring := .fresh hseq hh ht (by simp only [State.ring, ht, hc]; rfl) hp
  put t := by rw [hput t]; trivial
  get := by simp [GetOk, hc]
  records := by simp [RecordsOk, hc]
  copied := by simp [hcop, ht, hc, Consumer.taken]
  claimed p := by simp [hcl p, hh]
  content p h := by rw [hp p] at h; cases h

omit [DecidableEq ι] in
/-- A new queue. -/
theorem inv_create (junk : ℕ → Entry ρ) : Inv g (mpscQueueCreate (ι := ι) g junk) :=
  inv_fresh (fun i _ => (Nat.succ_ne_self i).symm) rfl rfl (fun _ => rfl) rfl rfl
    (fun _ => rfl) fun _ => rfl

end Queue
end Clogx
