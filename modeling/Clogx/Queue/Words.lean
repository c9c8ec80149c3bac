/-
# The counters as machine words

The queue of `Clogx.Queue.Model` with `head`, `tail` and the positions in words of
`w` bits.  The state still holds the whole counts, which say how often a word has
wrapped; but a test of the code sees the words only, and the steps below are those
of the model with each such test made on words.  The steps that make no test on a
counter are the model's own.

The differences of `mpsc_queue_try_put` and `mpsc_queue_get_batch_try` are exact as
long as fewer than `2 ^ (w - 1)` positions are outstanding.  The wait of a producer
that has lost the full-queue race compares words: `pos >= capacity`, and
`tail > pos - capacity`.  These agree with the counts while `tail` and `pos` are in
one round of the counter, and otherwise let the producer overwrite a record that has
not been read (`safe_iff`).
-/

import Clogx.Queue.Call
import Clogx.Word.Counter

namespace Clogx
namespace Queue

open SeqRing (Shape Stale)

variable {ι ρ : Type*} [DecidableEq ι] [Inhabited ρ] {g : Shape} {s s' : State ι ρ}

/-! ### Sequence numbers and polls of the model -/

/-- A put leaves the old slots as they are. -/
theorem stale_tryPut {t : ι} (h : Stale g s.ring) (hi : Inv g s)
    (hs : mpscQueueTryPut g s t = some s') : Stale g s'.ring := by
  have hput := hi.put t
  have hwrite {pos : ℕ} (e : Entry ρ) (hv : s.phase pos = .vacant) :
      Stale g (s.writeSlot g pos e).ring := by
    rw [ring_writeSlot]
    refine h.frame rfl rfl fun p hp => ?_
    have hne : p ≠ pos := by
      rintro rfl
      exact absurd (hv.symm.trans hp) (by decide)
    exact (Function.update_of_ne hne ..).trans hp
  have hpublish {pos : ℕ} (hw : s.phase pos = .written) : Stale g (s.publishSlot g pos).ring := by
    rw [ring_publishSlot]
    exact h.publish hi.ring hw
  unfold mpscQueueTryPut at hs
  cases hpc : s.put t with
  | writeTomb r pos | writeRec r pos =>
    rw [hpc] at hput hs
    cases hs
    exact hwrite _ hput.2.1
  | publishTomb r pos | publishRec r pos =>
    rw [hpc] at hput hs
    cases hs
    exact hpublish hput.2.1
  | _ =>
    simp only [hpc] at hs
    try split_ifs at hs
    all_goals first
      | cases hs; done
      | (cases hs; exact h.frame rfl rfl fun _ hp => hp)

omit [DecidableEq ι] in
/-- So does a batch call. -/
theorem stale_getBatchTry {pc : GetBatchTry} (h : Stale g s.ring) (hi : Inv g s)
    (hc : s.consumer = .get pc) (hs : mpscQueueGetBatchTry g s pc = some s') :
    Stale g s'.ring := by
  have hget := hi.get
  simp only [GetOk, hc] at hget
  cases pc with
  | storeTail tail n =>
    obtain ⟨rfl, -⟩ := hget
    cases hs
    convert h.commit hi.ring using 1
    simp only [State.ring, SeqRing.Mem.commit, hc, Consumer.taken, Nat.add_zero]
  | _ =>
    simp only [mpscQueueGetBatchTry] at hs
    try split_ifs at hs
    all_goals first
      | cases hs; done
      | (cases hs; exact h.frame rfl rfl fun _ hp => hp)

/-- **The slots keep the numbers of the lap before until they are published.** -/
theorem stale_step {a : Act ι ρ} (h : Stale g s.ring) (hi : Inv g s)
    (hs : step g s a = some s') : Stale g s'.ring := by
  cases a with
  | put t => exact stale_tryPut h hi hs
  | consume =>
    rcases consume_cases hs with ⟨pc, -, hs⟩ | ⟨pc, hc, hs⟩
    · obtain ⟨parked, items, pc', rfl⟩ := waitForItems_eq hs
      exact h.frame rfl rfl fun _ hp => hp
    · exact stale_getBatchTry h hi hc hs
  | call | callWait | callGet | callWaitEmpty | spurious =>
    simp only [step] at hs
    split_ifs at hs
    cases hs
    exact h.frame rfl rfl fun _ hp => hp
  | giveUp t =>
    obtain ⟨r, pos, -, -, rfl⟩ := abandon_eq hs
    exact h.frame rfl rfl fun _ hp => hp
  | casMiss t =>
    obtain ⟨r, pos, ret, -, rfl⟩ := casMiss_eq hs
    exact h.frame rfl rfl fun _ hp => hp
  | callClose =>
    obtain ⟨-, rfl⟩ := callClose_eq hs
    exact h.frame rfl rfl fun _ hp => hp
  | close =>
    obtain ⟨closed, items, slots, locked, waiter, closer, -, -, rfl⟩ := close_eq hs
    exact h.frame rfl rfl fun _ hp => hp
  | waitEmpty =>
    obtain ⟨locked, waiter, rfl⟩ := waitEmpty_eq hs
    exact h.frame rfl rfl fun _ hp => hp

/-- The `fetch_add` takes one position. -/
theorem head_claims {t : ι} (ht : (s.put t).claims = true) (hs : step g s (.put t) = some s') :
    s'.head = s.head + 1 := by
  simp only [step, mpscQueueTryPut] at hs
  cases hpc : s.put t with
  | fetchAdd r =>
    rw [hpc] at hs
    cases hs
    rfl
  | _ =>
    rw [hpc] at ht
    cases ht

/-- A producer polls on, or has just found the queue full. -/
theorem poll_step {a : Act ι ρ} {t : ι} {r : ρ} {pos last : ℕ} (hs : step g s a = some s')
    (hp : s'.put t = .poll r pos last) : (∃ last', s.put t = .poll r pos last') ∨
      a = .put t ∧ s.put t = .recheck r pos ∧ g.capacity ≤ szSub pos s.tail := by
  -- a step that takes its thread elsewhere
  have helse {u : ι} {pc : TryPut ρ} (hput : s'.put = Function.update s.put u pc)
      (hpc : ∀ r pos last, pc ≠ .poll r pos last) : ∃ last', s.put t = .poll r pos last' := by
    rw [hput] at hp
    rcases eq_or_ne t u with rfl | hne
    · rw [Function.update_self] at hp
      exact absurd hp (hpc r pos last)
    · rw [Function.update_of_ne hne] at hp
      exact ⟨last, hp⟩
  cases a with
  | callWait | callGet | consume | callClose | close | callWaitEmpty | waitEmpty | spurious =>
    rw [(sameCalls_step rfl hs).put] at hp
    exact .inl ⟨last, hp⟩
  | call u q =>
    simp only [step] at hs
    split_ifs at hs
    cases hs
    exact .inl (helse rfl (by rintro _ _ _ ⟨⟩))
  | giveUp u =>
    obtain ⟨q, p, -, -, rfl⟩ := abandon_eq hs
    exact .inl (helse rfl (by rintro _ _ _ ⟨⟩))
  | casMiss u =>
    obtain ⟨q, p, ret, -, rfl⟩ := casMiss_eq hs
    exact .inl (helse rfl (by rintro _ _ _ ⟨⟩))
  | put u =>
    simp only [step, mpscQueueTryPut] at hs
    cases hpc : s.put u with
    | recheck q p =>
      simp only [hpc] at hs
      split_ifs at hs with hfull hle <;> cases hs
      · rcases eq_or_ne t u with rfl | hne
        · rw [setPut_put] at hp
          obtain ⟨rfl, rfl, -⟩ := TryPut.poll.inj hp
          exact .inr ⟨rfl, hpc, hfull⟩
        · exact .inl ⟨last, (Function.update_of_ne hne ..).symm.trans hp⟩
      · exact .inl (helse rfl (by rintro _ _ _ ⟨⟩))
      · exact .inl (helse rfl (by rintro _ _ _ ⟨⟩))
    | poll q p l =>
      simp only [hpc] at hs
      split_ifs at hs <;> cases hs
      · exact .inl (helse rfl (by rintro _ _ _ ⟨⟩))
      · rcases eq_or_ne t u with rfl | hne
        · rw [setPut_put] at hp
          obtain ⟨rfl, rfl, -⟩ := TryPut.poll.inj hp
          exact .inl ⟨l, hpc⟩
        · exact .inl ⟨last, (Function.update_of_ne hne ..).symm.trans hp⟩
    | _ =>
      simp only [hpc] at hs
      try split_ifs at hs
      all_goals first
        | cases hs; done
        | (cases hs; exact .inl (helse rfl (by rintro _ _ _ ⟨⟩)))

end Queue

namespace Words

open SeqRing (Shape Stale)
open Machine (Reach)
open Queue (State Act TryPut GetBatchTry WaitForItems Entry mpscQueueCreate afterLoop)
open Word (word)

variable {ι ρ : Type*} [DecidableEq ι] [Inhabited ρ]

/-! ### The code on words -/

/-- What the word `seq` of a slot holds: `(uint64_t)pos + 1` for the word of `pos`. -/
def seqWord (w : ℕ) : ℕ → ℕ
  | 0 => 0
  | pos + 1 => word w pos + 1

/-- `mpsc_queue_try_put`. -/
def mpscQueueTryPut (w : ℕ) (g : Shape) (s : State ι ρ) (t : ι) : Option (State ι ρ) :=
  match s.put t with
  | .loadHead r tailSnap =>
    if g.capacity ≤ Word.sub w s.head tailSnap then some (s.finish t r none (-1))
    else some (s.setPut t (.fetchAdd r))
  | .recheck r pos =>
    if g.capacity ≤ Word.sub w pos s.tail then
      if g.capacity ≤ word w pos then some (s.setPut t (.poll r pos s.tail))
      else some ((s.setFate t r pos .refused).setPut t (.writeTomb r pos))
    else some ((s.setFate t r pos .accepted).setPut t (.writeRec r pos))
  | .poll r pos _ =>
    if Word.sub w pos g.capacity < word w s.tail then
      some ((s.setFate t r pos .refused).setPut t (.writeTomb r pos))
    else some (s.setPut t (.poll r pos s.tail))
  | _ => Queue.mpscQueueTryPut g s t

/-- The exit `++stalls > 1000000` of the polling loop. -/
def abandon (w : ℕ) (g : Shape) (s : State ι ρ) (t : ι) : Option (State ι ρ) :=
  match s.put t with
  | .poll r pos lastTail =>
    if Word.sub w pos g.capacity < word w s.tail ∨ word w s.tail ≠ word w lastTail then none
    else some ((s.setFate t r pos .abandoned).finish t r (some pos) (-1))
  | _ => none

/-- `mpsc_queue_wait_for_items`. -/
def mpscQueueWaitForItems (w : ℕ) (s : State ι ρ) : WaitForItems → Option (State ι ρ)
  | .loadTail head =>
    if word w head = word w s.tail then some { s with consumer := .wait .loadClosed }
    else some { s with consumer := .wait (.returned 0) }
  | .reloadTail head =>
    if word w head = word w s.tail then some { s with consumer := .wait .reloadClosed }
    else some { s with consumer := .wait (.unpark 0) }
  | pc => Queue.mpscQueueWaitForItems s pc

/-- The test `n < available && n < max_records` of the copying loop. -/
def loopTop (w maxRecords head tail n : ℕ) : GetBatchTry :=
  if n < Word.sub w head tail ∧ n < maxRecords then .loadSeq maxRecords head tail n
  else afterLoop tail n

/-- `mpsc_queue_get_batch_try`. -/
def mpscQueueGetBatchTry (w : ℕ) (g : Shape) (s : State ι ρ) : GetBatchTry → Option (State ι ρ)
  | .loadTail maxRecords head =>
    if Word.sub w head s.tail = 0 then some { s with consumer := .get (.returned 0) }
    else some { s with consumer := .get (loopTop w maxRecords head s.tail 0) }
  | .loadSeq maxRecords head tail n =>
    if seqWord w (s.buffer (g.ix (tail + n))).seq = word w (tail + n) + 1 then
      some { s with consumer := .get (.copy maxRecords head tail n) }
    else some { s with consumer := .get (afterLoop tail n) }
  | .copy maxRecords head tail n =>
    some { s with
      records := s.records ++ [(s.buffer (g.ix (tail + n))).entry]
      copied := s.copied ++ [(s.buffer (g.ix (tail + n))).entry]
      consumer := .get (loopTop w maxRecords head tail (n + 1)) }
  | .remTail n head =>
    if Word.sub w head s.tail = 0 then some { s with consumer := .get (.lock n) }
    else some { s with consumer := .get (.returned n) }
  | pc => Queue.mpscQueueGetBatchTry g s pc

/-- `mpsc_queue_wait_empty`. -/
def mpscQueueWaitEmpty (w : ℕ) (s : State ι ρ) : Option (State ι ρ) :=
  match s.waiter with
  | .loadTail head =>
    if word w head = word w s.tail then some { s with waiter := .unlock }
    else some { s with drainLocked := false, waiter := .blocked }
  | _ => Queue.mpscQueueWaitEmpty s

/-- One step of the system. -/
def step (w : ℕ) (g : Shape) (s : State ι ρ) : Act ι ρ → Option (State ι ρ)
  | .put t => mpscQueueTryPut w g s t
  | .giveUp t => abandon w g s t
  | .consume =>
    match s.consumer with
    | .idle => none
    | .wait pc => mpscQueueWaitForItems w s pc
    | .get pc => mpscQueueGetBatchTry w g s pc
  | .waitEmpty => mpscQueueWaitEmpty w s
  | a => Queue.step g s a

/-- Fewer than `2 ^ (w - 1)` positions are outstanding after the step. -/
def Outstanding (w : ℕ) (s : State ι ρ) : Act ι ρ → Prop
  | .put t => (s.put t).claims = true → s.head + 1 - s.tail < 2 ^ (w - 1)
  | _ => True

/-- The position whose slot the call is about to write. -/
def writes : TryPut ρ → Option ℕ
  | .writeTomb _ pos | .writeRec _ pos => some pos
  | _ => none

/-- **A producer writes only a slot that the consumer has done with:** the position a lap before
its own is behind `tail`. -/
def Safe (g : Shape) (s : State ι ρ) : Prop :=
  ∀ t pos, writes (s.put t) = some pos → g.capacity ≤ pos → pos - g.capacity < s.tail

/-- A producer that finds the queue full after its claim is not among the first `capacity`
positions of a round, and one that polls finds `tail` in the round of its position. -/
def AlignedAt (w : ℕ) (g : Shape) (tail : ℕ) : TryPut ρ → Prop
  | .recheck _ pos => tail + g.capacity ≤ pos → g.capacity ≤ word w pos
  | .poll _ pos _ => pos / 2 ^ w = tail / 2 ^ w
  | _ => True

/-- The condition on a step. -/
def Aligned (w : ℕ) (g : Shape) (s : State ι ρ) : Act ι ρ → Prop
  | .put t => AlignedAt w g s.tail (s.put t)
  | _ => True

/-! ### The tests -/

/-- What is known of a run that meets the condition. -/
structure Inv (w : ℕ) (g : Shape) (s : State ι ρ) : Prop where
  queue : Queue.Inv g s
  stale : Stale g s.ring
  near : s.head - s.tail < 2 ^ (w - 1)
  polls : ∀ t r pos last, s.put t = .poll r pos last → g.capacity ≤ word w pos

variable {w : ℕ} {g : Shape} {s s' : State ι ρ} {t : ι} {r : ρ} {pos : ℕ}

omit [DecidableEq ι] in
/-- A claimed position that is not written yet is between `tail` and `head`. -/
theorem Inv.pos_near {f : Queue.Fate} (h : Inv w g s) (hc : s.claim pos = some ⟨t, r, f⟩)
    (hv : s.phase pos = .vacant) : s.tail ≤ pos ∧ pos - s.tail < 2 ^ (w - 1) := by
  have htail : s.tail ≤ pos := h.queue.tail_le (by rw [hv]; decide)
  have hhead : pos < s.head := (h.queue.claimed pos).1 (by rw [hc]; rfl)
  have hnear := h.near
  exact ⟨htail, by omega⟩

theorem half_le (w : ℕ) : 2 ^ (w - 1) ≤ 2 ^ w := Nat.pow_le_pow_right (by decide) (Nat.sub_le w 1)

omit [DecidableEq ι] in
/-- **The sequence test is exact.** -/
theorem Inv.seqWord_iff (h : Inv w g s) (hcap : g.capacity < 2 ^ (w - 1)) {n : ℕ}
    (hn : s.consumer.taken = n) :
    seqWord w (s.buffer (g.ix (s.tail + n))).seq = word w (s.tail + n) + 1 ↔
      (s.buffer (g.ix (s.tail + n))).seq = s.tail + n + 1 := by
  have hpos := g.capacity_pos
  have hhalf := half_le w
  have hread : s.ring.read = s.tail + n := by rw [← hn]; rfl
  by_cases hpub : s.phase (s.tail + n) = .published
  · have hseq : (s.buffer (g.ix (s.tail + n))).seq = s.tail + n + 1 :=
      h.queue.ring.seq_of_published (s.tail + n) (Nat.le_add_right ..) hpub
    rw [hseq]
    exact iff_of_true rfl rfl
  · -- the slot carries the number of the lap before, and a lap is less than a round
    have hseq : (s.buffer (g.ix (s.tail + n))).seq = g.before (s.tail + n) := by
      have hstale := h.stale.seq_read h.queue.ring (by rw [hread]; exact hpub)
      rwa [hread] at hstale
    rw [hseq]
    generalize s.tail + n = p
    rw [Shape.before]
    split_ifs with hlt
    · refine iff_of_false ?_ (by omega)
      cases p with
      | zero => exact (Nat.succ_ne_zero _).symm
      | succ q =>
        rw [seqWord, Word.word_of_lt (by omega), Word.word_of_lt (by omega)]
        omega
    · refine iff_of_false ?_ (by omega)
      obtain ⟨q, rfl⟩ := Nat.exists_eq_add_of_le (not_lt.1 hlt)
      have hsub : g.capacity + q + 1 - g.capacity = q + 1 := by omega
      rw [hsub, seqWord]
      intro heq
      have hword : word w (g.capacity + q) = word w q := by omega
      have := Word.eq_of_word_eq hword (by omega) (by omega)
      omega

/-- A step that leaves the counters and the slots as they are, and starts no poll. -/
structure Quiet (g : Shape) (s s' : State ι ρ) : Prop where
  inv : Queue.Inv g s'
  head : s'.head = s.head
  tail : s'.tail = s.tail
  buffer : s'.buffer = s.buffer
  phase : s'.phase = s.phase
  polls : ∀ t r pos last, s'.put t = .poll r pos last → s.put t = .poll r pos last

/-- A producer goes to a place that is not the poll. -/
theorem Quiet.ofPut {pc : TryPut ρ} (hinv : Queue.Inv g s') (hhead : s'.head = s.head)
    (htail : s'.tail = s.tail) (hbuffer : s'.buffer = s.buffer) (hphase : s'.phase = s.phase)
    (hput : s'.put = Function.update s.put t pc) (hpc : ∀ r pos last, pc ≠ .poll r pos last) :
    Quiet g s s' := by
  refine ⟨hinv, hhead, htail, hbuffer, hphase, fun u q p l hp => ?_⟩
  rw [hput] at hp
  rcases eq_or_ne u t with rfl | hne
  · rw [Function.update_self] at hp
    exact absurd hp (hpc q p l)
  · rwa [Function.update_of_ne hne] at hp

/-- **The tests of `mpsc_queue_try_put` are exact,** but for the first look at `tail` and `head`,
which may be as old as it likes. -/
theorem tryPut_cases (h : Inv w g s) (hok : Aligned w g s (.put t))
    (hs : mpscQueueTryPut w g s t = some s') :
    Queue.mpscQueueTryPut g s t = some s' ∨ Quiet g s s' := by
  have hput := h.queue.put t
  have hhalf := half_le w
  unfold mpscQueueTryPut at hs
  split at hs
  case h_1 r tailSnap hpc =>
    right
    split_ifs at hs <;> cases hs
    · exact .ofPut (h.queue.finish r none (-1)) rfl rfl rfl rfl rfl (by rintro _ _ _ ⟨⟩)
    · exact .ofPut (h.queue.setPut trivial) rfl rfl rfl rfl rfl (by rintro _ _ _ ⟨⟩)
  case h_2 r pos hpc =>
    left
    rw [hpc] at hput
    obtain ⟨hle, hlt⟩ := h.pos_near hput.1 hput.2
    have hsub : Word.sub w pos s.tail = Queue.szSub pos s.tail := by
      rw [Word.sub_of_le hle (by omega), Queue.szSub_of_le hle]
    simp only [Aligned, AlignedAt, hpc] at hok
    simp only [Queue.mpscQueueTryPut, hpc]
    rw [hsub] at hs
    by_cases hfull : g.capacity ≤ Queue.szSub pos s.tail
    · have hfar : s.tail + g.capacity ≤ pos := by
        rw [Queue.szSub_of_le hle] at hfull
        omega
      rw [if_pos hfull, if_pos (hok hfar)] at hs
      rw [if_pos hfull, if_pos (by omega)]
      exact hs
    · rw [if_neg hfull] at hs ⊢
      exact hs
  case h_3 r pos last hpc =>
    left
    simp only [Aligned, AlignedAt, hpc] at hok
    have htest := Word.sub_lt_word_iff hok (h.polls t r pos last hpc)
    simp only [Queue.mpscQueueTryPut, hpc]
    by_cases hlt : pos - g.capacity < s.tail
    · rw [if_pos (htest.2 hlt)] at hs
      rw [if_pos hlt]
      exact hs
    · rw [if_neg fun hw => hlt (htest.1 hw)] at hs
      rw [if_neg hlt]
      exact hs
  case h_4 => exact .inl hs

/-- A time-out moves no counter. -/
theorem abandon_quiet (h : Inv w g s) (hs : abandon w g s t = some s') : Quiet g s s' := by
  have hput := h.queue.put t
  unfold abandon at hs
  split at hs
  · rename_i r pos last hpc
    rw [hpc] at hput
    split_ifs at hs
    cases hs
    have hinv : Queue.Inv g ((s.setFate t r pos .abandoned).setPut t (.returned (-1))) :=
      h.queue.setFate hput.1 hput.2 trivial
    exact .ofPut ⟨hinv.ring, hinv.put, hinv.get, hinv.records, hinv.copied, hinv.claimed,
      hinv.content⟩ rfl rfl rfl rfl rfl (by rintro _ _ _ ⟨⟩)
  · cases hs

omit [DecidableEq ι] in
/-- Words and numbers agree on waiting, -/
theorem waitForItems_cases {pc : WaitForItems} (h : Inv w g s) (hc : s.consumer = .wait pc)
    (hs : mpscQueueWaitForItems w s pc = some s') :
    Queue.mpscQueueWaitForItems s pc = some s' ∨ Quiet g s s' := by
  have hmove := h.queue.moveWait (by rw [hc]; rfl)
  cases pc with
  | loadTail head | reloadTail head =>
    right
    simp only [mpscQueueWaitForItems] at hs
    split_ifs at hs <;> cases hs <;>
      exact ⟨hmove _, rfl, rfl, rfl, rfl, fun _ _ _ _ hp => hp⟩
  | _ => exact .inl hs

omit [DecidableEq ι] in
/-- **The tests of `mpsc_queue_get_batch_try` are exact,** but for the last one, which decides
about a broadcast. -/
theorem getBatchTry_cases {pc : GetBatchTry} (h : Inv w g s) (hcap : g.capacity < 2 ^ (w - 1))
    (hc : s.consumer = .get pc) (hs : mpscQueueGetBatchTry w g s pc = some s') :
    Queue.mpscQueueGetBatchTry g s pc = some s' ∨ Quiet g s s' := by
  have hget := h.queue.get
  have hrec := h.queue.records
  have hnear := h.near
  have hhalf := half_le w
  simp only [Queue.GetOk, hc] at hget
  simp only [Queue.RecordsOk, hc] at hrec
  have hloop (m : ℕ) {head : ℕ} (n : ℕ) (hle : s.tail ≤ head) (hhead : head ≤ s.head) :
      loopTop w m head s.tail n = Queue.loopTop m head s.tail n := by
    rw [loopTop, Queue.loopTop, Word.sub_of_le hle (by omega), Queue.szSub_of_le hle]
  cases pc with
  | loadTail m head =>
    left
    have hsub : Word.sub w head s.tail = Queue.szSub head s.tail := by
      rw [Word.sub_of_le hget.1 (by omega), Queue.szSub_of_le hget.1]
    simp only [mpscQueueGetBatchTry, hsub, hloop m 0 hget.1 hget.2] at hs
    exact hs
  | loadSeq m head tail n =>
    left
    obtain ⟨rfl, -, -⟩ := hget
    have htest := h.seqWord_iff hcap (n := n) (by rw [hc]; rfl)
    simp only [mpscQueueGetBatchTry, htest] at hs
    exact hs
  | copy m head tail n =>
    left
    obtain ⟨rfl, hlt, hhead, -⟩ := hget
    simp only [mpscQueueGetBatchTry, hloop m (n + 1) (show s.tail ≤ head by omega) hhead] at hs
    exact hs
  | remTail n head =>
    right
    simp only [mpscQueueGetBatchTry] at hs
    split_ifs at hs <;> cases hs <;>
      exact ⟨h.queue.moveConsumer (by rw [hc]; rfl) trivial hrec, rfl, rfl, rfl, rfl,
        fun _ _ _ _ hp => hp⟩
  | _ => exact .inl hs

omit [DecidableEq ι] in
/-- and on waiting for an empty queue. -/
theorem waitEmpty_cases (h : Inv w g s) (hs : mpscQueueWaitEmpty w s = some s') :
    Queue.mpscQueueWaitEmpty s = some s' ∨ Quiet g s s' := by
  unfold mpscQueueWaitEmpty at hs
  split at hs
  · right
    split_ifs at hs <;> cases hs <;>
      exact ⟨h.queue.frame .., rfl, rfl, rfl, rfl, fun _ _ _ _ hp => hp⟩
  · exact .inl hs

/-- **A step on words is the step on counts, or a quiet one.** -/
theorem step_cases {a : Act ι ρ} (h : Inv w g s) (hcap : g.capacity < 2 ^ (w - 1))
    (hok : Aligned w g s a) (hs : step w g s a = some s') :
    Queue.step g s a = some s' ∨ Quiet g s s' := by
  cases a with
  | put t => exact tryPut_cases h hok hs
  | giveUp t => exact .inr (abandon_quiet h hs)
  | consume =>
    simp only [step] at hs
    simp only [Queue.step]
    cases hc : s.consumer with
    | idle =>
      rw [hc] at hs
      cases hs
    | wait pc =>
      rw [hc] at hs
      exact waitForItems_cases h hc hs
    | get pc =>
      rw [hc] at hs
      exact getBatchTry_cases h hcap hc hs
  | waitEmpty => exact waitEmpty_cases h hs
  | call | casMiss | callWait | callGet | callClose | close | callWaitEmpty | spurious =>
    exact .inl hs

/-- **Every step that meets the condition keeps what is known.** -/
theorem Inv.step {a : Act ι ρ} (h : Inv w g s) (hcap : g.capacity < 2 ^ (w - 1))
    (hout : Outstanding w s a) (hok : Aligned w g s a) (hs : Words.step w g s a = some s') :
    Inv w g s' := by
  rcases step_cases h hcap hok hs with hbase | hquiet
  · refine ⟨Queue.inv_step h.queue hbase, Queue.stale_step h.stale h.queue hbase, ?_, ?_⟩
    · have htail := Queue.tail_le_step h.queue hbase
      have hnear := h.near
      by_cases hclaims : ∃ t, a = .put t ∧ (s.put t).claims = true
      · obtain ⟨t, rfl, ht⟩ := hclaims
        have hroom := hout ht
        have hhead := Queue.head_claims ht hbase
        omega
      · have hhead := Queue.head_step
          (fun t ha => Bool.eq_false_iff.2 fun ht => hclaims ⟨t, ha, ht⟩) hbase
        omega
    · intro t r pos last hp
      rcases Queue.poll_step hbase hp with ⟨last', hlast⟩ | ⟨rfl, hpc, hfull⟩
      · exact h.polls t r pos last' hlast
      · have hput := h.queue.put t
        rw [hpc] at hput
        obtain ⟨hle, -⟩ := h.pos_near hput.1 hput.2
        simp only [Aligned, AlignedAt, hpc] at hok
        rw [Queue.szSub_of_le hle] at hfull
        exact hok (by omega)
  · refine ⟨hquiet.inv, ?_, ?_, fun t r pos last hp => ?_⟩
    · refine h.stale.frame hquiet.tail ?_ fun p hp => ?_
      · change (fun i => (s'.buffer i).seq) = fun i => (s.buffer i).seq
        rw [hquiet.buffer]
      · change s'.phase p = .published
        rw [hquiet.phase]
        exact hp
    · rw [hquiet.head, hquiet.tail]
      exact h.near
    · exact h.polls t r pos last (hquiet.polls t r pos last hp)

omit [DecidableEq ι] in
/-- What is known is enough. -/
theorem Inv.safe (h : Inv w g s) : Safe g s := by
  intro t pos hw hcap
  have hput := h.queue.put t
  have hlap : pos < s.tail + g.capacity := by
    cases hpc : s.put t with
    | writeTomb r p | writeRec r p =>
      rw [hpc] at hput hw
      obtain rfl : p = pos := Option.some.inj hw
      exact hput.2.2
    | _ =>
      rw [hpc] at hw
      cases hw
  omega

/-- **A step that does not meet the condition lets a producer write too early.** -/
theorem not_safe_of_not_aligned {a : Act ι ρ} (h : Inv w g s) (hcap : g.capacity < 2 ^ (w - 1))
    (hok : ¬ Aligned w g s a) (hs : step w g s a = some s') : ¬ Safe g s' := by
  have hhalf := half_le w
  have hpos := g.capacity_pos
  -- the thread is about to write a tombstone, and its slot has not been freed
  have hearly {t : ι} {r : ρ} {pos : ℕ} (hfar : s.tail + g.capacity ≤ pos)
      (heq : s' = (s.setFate t r pos .refused).setPut t (.writeTomb r pos)) : ¬ Safe g s' := by
    intro hsafe
    have hput : writes (s'.put t) = some pos := by
      rw [heq, Queue.setPut_put]
      rfl
    have htail : s'.tail = s.tail := by
      rw [heq]
      rfl
    have hlt := hsafe t pos hput (by omega)
    omega
  cases a with
  | put t =>
    have hput := h.queue.put t
    simp only [step, mpscQueueTryPut] at hs
    cases hpc : s.put t with
    | recheck r pos =>
      rw [hpc] at hput
      obtain ⟨hle, hlt⟩ := h.pos_near hput.1 hput.2
      simp only [Aligned, AlignedAt, hpc, Classical.not_imp] at hok
      simp only [hpc] at hs
      rw [if_pos, if_neg hok.2] at hs
      · exact hearly hok.1 (Option.some.inj hs).symm
      · rw [Word.sub_of_le hle (by omega)]
        omega
    | poll r pos last =>
      rw [hpc] at hput
      obtain ⟨hle, hlt⟩ := h.pos_near hput.1 hput.2
      simp only [Aligned, AlignedAt, hpc] at hok
      have hcapPos := h.polls t r pos last hpc
      obtain ⟨htest, hfar⟩ := Word.sub_lt_word_of_round_ne hle hlt hcapPos hok
        (by rintro rfl; omega)
      have hword : word w pos ≤ pos := Nat.mod_le ..
      simp only [hpc] at hs
      rw [if_pos htest] at hs
      exact hearly (by omega) (Option.some.inj hs).symm
    | _ =>
      simp only [Aligned, AlignedAt, hpc] at hok
      exact absurd trivial hok
  | _ => exact absurd trivial hok

/-- The steps that the statement is about, and the condition. -/
def Regular (w : ℕ) (g : Shape) (s : State ι ρ) (a : Act ι ρ) : Prop :=
  Outstanding w s a ∧ Aligned w g s a

/-- **The words stay in step in every regular run.** -/
theorem inv_of_reach {junk : ℕ → Entry ρ} (hcap : g.capacity < 2 ^ (w - 1))
    (h : Reach (step w g) (Regular w g) (mpscQueueCreate g junk) s) : Inv w g s := by
  refine h.invariant (I := Inv w g) ⟨Queue.inv_create junk, ?_, ?_, ?_⟩
    fun _ _ _ hi hok hs => hi.step hcap hok.1 hok.2 hs
  · exact .fresh (fun _ _ => rfl) rfl
  · exact Nat.two_pow_pos _
  · intro t r pos last hp
    cases hp

/-- **The full-queue race on words.**  In every run, for any number of producers and any number of
puts, in which fewer than `2 ^ (w - 1)` positions are outstanding and the losers of the race are
aligned, a producer writes only a slot that the consumer has done with; and the next step keeps it
so exactly if it is aligned. -/
theorem safe_iff (w : ℕ) (g : Shape) (hcap : g.capacity < 2 ^ (w - 1)) (junk : ℕ → Entry ρ)
    (s : State ι ρ) (h : Reach (step w g) (Regular w g) (mpscQueueCreate g junk) s) :
    Safe g s ∧ ∀ a s', Outstanding w s a → step w g s a = some s' →
      (Safe g s' ↔ Aligned w g s a) := by
  have hinv := inv_of_reach hcap h
  refine ⟨hinv.safe, fun a s' hout hs => ⟨fun hsafe => ?_, fun hok => ?_⟩⟩
  · by_contra hok
    exact not_safe_of_not_aligned hinv hcap hok hs hsafe
  · exact (hinv.step hcap hout hok hs).safe

instance (w : ℕ) (s : State ι ρ) : (a : Act ι ρ) → Decidable (Outstanding w s a)
  | .put t => inferInstanceAs
      (Decidable ((s.put t).claims = true → s.head + 1 - s.tail < 2 ^ (w - 1)))
  | .call .. | .giveUp _ | .casMiss _ | .callWait | .callGet _ | .consume | .callClose | .close
  | .callWaitEmpty | .waitEmpty | .spurious => .isTrue trivial

instance (w : ℕ) (g : Shape) (tail : ℕ) : (pc : TryPut ρ) → Decidable (AlignedAt w g tail pc)
  | .recheck _ pos =>
    inferInstanceAs (Decidable (tail + g.capacity ≤ pos → g.capacity ≤ word w pos))
  | .poll _ pos _ => inferInstanceAs (Decidable (pos / 2 ^ w = tail / 2 ^ w))
  | .idle | .loadClosed _ | .loadTail _ | .loadHead .. | .fetchAdd _ | .writeTomb .. | .publishTomb ..
  | .writeRec .. | .publishRec .. | .signal .. | .post .. | .returned _ => .isTrue trivial

instance (w : ℕ) (g : Shape) (s : State ι ρ) : (a : Act ι ρ) → Decidable (Aligned w g s a)
  | .put t => inferInstanceAs (Decidable (AlignedAt w g s.tail (s.put t)))
  | .call .. | .giveUp _ | .casMiss _ | .callWait | .callGet _ | .consume | .callClose | .close
  | .callWaitEmpty | .waitEmpty | .spurious => .isTrue trivial

instance (w : ℕ) (g : Shape) (s : State ι ρ) (a : Act ι ρ) : Decidable (Regular w g s a) :=
  inferInstanceAs (Decidable (_ ∧ _))

/-- A queue of one slot and two producers. -/
def oneSlot : State (Fin 2) ℕ := mpscQueueCreate (.ofPow 0) fun _ => Queue.tombstone

/-- Both producers find room; the first takes the slot, and the second claims the position
after it. -/
def race : List (Act (Fin 2) ℕ) :=
  List.flatten [[.call 0 1], List.replicate 3 (.put 0), [.call 1 2], List.replicate 3 (.put 1),
    List.replicate 4 (.put 0), [.put 1]]

/-- The loser polls until the consumer has taken the record. -/
theorem safe_iff_race : ∃ s : State (Fin 2) ℕ,
    Reach (step 3 (.ofPow 0)) (Regular 3 (.ofPow 0)) oneSlot s ∧
      (writes (s.put 1) = some 1 ∧ s.tail = 1) ∧ Safe (.ofPow 0) s := by
  obtain ⟨s, hreach, hs⟩ : ∃ s : State (Fin 2) ℕ,
      Reach (step 3 (.ofPow 0)) (Regular 3 (.ofPow 0)) oneSlot s ∧
        (writes (s.put 1) = some 1 ∧ s.tail = 1) :=
    Machine.exists_of_runIf (List.flatten [race, [.put 1, .put 1, .callGet 1],
      List.replicate 5 .consume, [.put 1]]) (by decide +kernel)
  exact ⟨s, hreach, hs, (safe_iff 3 (.ofPow 0) (by decide) _ s hreach).1⟩

/-- One record is put and taken. -/
def cycle : List (Act (Fin 2) ℕ) :=
  List.flatten [[.call 0 0], List.replicate 8 (.put 0), [.callGet 1], List.replicate 11 .consume]

/-- **A record is overwritten.**  After seven records the two producers race for the last position
of the round; the loser has position 8, whose word is 0, and is about to write its tombstone over
the record of position 7. -/
theorem overwrites_at_wrap : ∃ s : State (Fin 2) ℕ,
    Reach (step 3 (.ofPow 0)) (Outstanding 3) oneSlot s ∧ ¬ Safe (.ofPow 0) s := by
  obtain ⟨s, hreach, hwrites, htail⟩ : ∃ s : State (Fin 2) ℕ,
      Reach (step 3 (.ofPow 0)) (Outstanding 3) oneSlot s ∧
        (writes (s.put 1) = some 8 ∧ s.tail = 7) :=
    Machine.exists_of_runIf ((List.replicate 7 cycle).flatten ++ race ++ [.put 1])
      (by decide +kernel)
  refine ⟨s, hreach, fun hsafe => ?_⟩
  have hlt : 8 - 1 < s.tail := hsafe 1 8 hwrites (by decide)
  omega

end Words
end Clogx
