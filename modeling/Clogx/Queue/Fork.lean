/-
# The queue in a forked child

`log_async_atfork_child_for` of `core/async.c` rewinds the queue it inherits:
`head`, `tail`, the flags, the semaphores and the locks start over, the slots
stay as the parent left them.  `mpsc_queue_create` also stores `seq = i` in slot
`i`; the reset does not, so a slot the parent published on its first lap still
carries the `seq = i + 1` that position `i` will be published with.

The child's queue keeps its contract in every run if and only if there is no
such slot.  Where there is one, a child producer that has claimed
position `i` and not written it yet is enough: the worker takes the parent's
record from the slot (`exists_stale`).
-/

import Clogx.Queue.Delivery

namespace Clogx
namespace Queue

open SeqRing (Shape Phase)
open Machine (Reach Reachable reach_of_run)

variable {ι ρ : Type*} [DecidableEq ι] [Inhabited ρ]

/-- The queue in the child after `log_async_atfork_child_for`, its semaphores
initialised and its worker started.  No other thread of the parent survives, and
the child's history begins here. -/
def logAsyncAtforkChildFor (g : Shape) (parent : State ι ρ) : State ι ρ where
  buffer := parent.buffer
  head := 0
  tail := 0
  closed := false
  consumerParked := false
  itemsSem := 0
  slotsSem := g.capacity
  drainLocked := false
  put _ := .idle
  consumer := .idle
  records := []
  closer := .idle
  waiter := .idle
  phase _ := .vacant
  item _ := tombstone
  claim _ := none
  copied := []
  done := []

/-- What the child is promised: each record its worker has dequeued was written
and published for that position by a child producer, and the queue keeps the
contract of its calls. -/
structure ChildOk (g : Shape) (s : State ι ρ) : Prop where
  own : ∀ p e, s.copied[p]? = some e → s.phase p = .published ∧ s.item p = e ∧ Content s p
  delivery : Delivery g s

variable {g : Shape} {s : State ι ρ}

omit [DecidableEq ι] in
/-- A copied entry is that of its position. -/
theorem Inv.own (h : Inv g s) {p : ℕ} {e : Entry ρ} (hp : s.copied[p]? = some e) :
    s.phase p = .published ∧ s.item p = e ∧ Content s p := by
  rw [h.copied, List.getElem?_map, Option.map_eq_some_iff] at hp
  obtain ⟨q, hq, he⟩ := hp
  obtain ⟨hlt, rfl⟩ := List.getElem?_eq_some_iff.1 hq
  rw [List.length_range] at hlt
  rw [List.getElem_range] at he
  have hpub := h.published_of_lt hlt
  exact ⟨hpub, he, h.content p hpub⟩

/-- A child that inherits no first-lap stamp has a fresh queue. -/
theorem good_child {parent : State ι ρ}
    (hseq : ∀ i, i < g.capacity → (parent.buffer i).seq ≠ i + 1)
    (h : Reachable (step g) (logAsyncAtforkChildFor g parent) s) : Good g s := by
  have hinv : Inv g (logAsyncAtforkChildFor g parent) :=
    inv_fresh hseq rfl rfl (fun _ => rfl) rfl rfl (fun _ => rfl) fun _ => rfl
  refine h.invariant (I := Good g) ⟨hinv, history_fresh (fun _ => rfl) rfl, ?_⟩
    fun _ _ _ hi _ hs => good_step hi hs
  exact ⟨rfl, fun n k hk => (nomatch hk), fun hk => by simp [logAsyncAtforkChildFor] at hk, rfl,
    fun _ hk => nomatch hk⟩

/-! ### The run that replays a slot -/

/-- A child between two calls, with nothing in the queue and `k` positions
behind it. -/
structure Rested (s : State ι ρ) (k : ℕ) : Prop where
  head : s.head = k
  tail : s.tail = k
  closed : s.closed = false
  parked : s.consumerParked = false
  locked : s.drainLocked = false
  free : s.consumer.free = true
  out : s.quiet
  copied : s.copied.length = k
  phase : ∀ p, k ≤ p → s.phase p = .vacant

theorem reach_put {t : ι} {s s' : State ι ρ} (h : mpscQueueTryPut g s t = some s') :
    Reachable (step g) s s' :=
  .single (a := .put t) trivial h

omit [Inhabited ρ] in
theorem setPut_setPut (t : ι) (pc pc' : TryPut ρ) : (s.setPut t pc).setPut t pc' = s.setPut t pc' := by
  simp only [State.setPut, Function.update_idem]

/-- The state in which `t` has just claimed the next position for `r`. -/
def claimed (s : State ι ρ) (t : ι) (r : ρ) : State ι ρ :=
  { s with
    head := s.head + 1
    put := Function.update s.put t (.recheck r s.head)
    claim := Function.update s.claim s.head (some ⟨t, r, .pending⟩) }

/-- On an empty queue `mpsc_queue_try_put` gets as far as its claim. -/
theorem Rested.reach_claimed {k : ℕ} (h : Rested s k) (t : ι) (r : ρ) :
    Reachable (step g) s (claimed s t r) := by
  have hcap := g.capacity_pos
  have h₀ : Reachable (step g) s (s.setPut t (.loadClosed r)) :=
    .single (a := .call t r) trivial (if_neg (by simp [h.out t]))
  have h₁ : Reachable (step g) (s.setPut t (.loadClosed r)) (s.setPut t (.loadTail r)) :=
    reach_put (t := t) (by
      rw [mpscQueueTryPut, setPut_put, ← setPut_setPut t (.loadClosed r) (.loadTail r)]
      exact if_neg (by simp [State.setPut, h.closed]))
  have h₂ : Reachable (step g) (s.setPut t (.loadTail r)) (s.setPut t (.loadHead r s.tail)) :=
    reach_put (t := t) (by
      rw [mpscQueueTryPut, setPut_put, ← setPut_setPut t (.loadTail r) (.loadHead r s.tail)]
      rfl)
  have h₃ : Reachable (step g) (s.setPut t (.loadHead r s.tail)) (s.setPut t (.fetchAdd r)) :=
    reach_put (t := t) (by
      rw [mpscQueueTryPut, setPut_put, ← setPut_setPut t (.loadHead r s.tail) (.fetchAdd r)]
      refine if_neg ?_
      show ¬ g.capacity ≤ szSub s.head s.tail
      rw [h.head, h.tail, szSub_of_le le_rfl]
      omega)
  have h₄ : Reachable (step g) (s.setPut t (.fetchAdd r)) (claimed s t r) :=
    reach_put (t := t) (by
      rw [mpscQueueTryPut, setPut_put]
      simp only [State.setPut, State.setFate, claimed, Function.update_idem])
  exact (((h₀.trans h₁).trans h₂).trans h₃).trans h₄

/-- The state in which `t` has put `r` and goes to `pc`: the slot of its position
is `slot`, and the position has got to `ph`. -/
def storing (g : Shape) (s : State ι ρ) (t : ι) (r : ρ) (slot : Slot ρ) (ph : Phase)
    (pc : TryPut ρ) : State ι ρ :=
  { s with
    buffer := Function.update s.buffer (g.ix s.head) slot
    head := s.head + 1
    put := Function.update s.put t pc
    phase := Function.update s.phase s.head ph
    item := Function.update s.item s.head ⟨r, false⟩
    claim := Function.update s.claim s.head (some ⟨t, r, .accepted⟩) }

/-- The state in which `t` has put `r` and returned. -/
def stored (g : Shape) (s : State ι ρ) (t : ι) (r : ρ) : State ι ρ :=
  { storing g s t r ⟨⟨r, false⟩, s.head + 1⟩ .published (.returned 0) with
    done := s.done ++ [⟨t, r, some s.head, 0⟩] }

/-- A put into a queue at rest. -/
theorem Rested.reach_stored {k : ℕ} (h : Rested s k) (t : ι) (r : ρ) :
    Reachable (step g) s (stored g s t r) := by
  have hcap := g.capacity_pos
  have h₀ := h.reach_claimed (g := g) t r
  have h₁ : Reachable (step g) (claimed s t r)
      { claimed s t r with
        put := Function.update s.put t (.writeRec r s.head)
        claim := Function.update s.claim s.head (some ⟨t, r, .accepted⟩) } :=
    reach_put (t := t) (by
      rw [mpscQueueTryPut, show (claimed s t r).put t = .recheck r s.head from
        Function.update_self ..]
      refine (if_neg ?_).trans ?_
      · show ¬ g.capacity ≤ szSub s.head s.tail
        rw [h.head, h.tail, szSub_of_le le_rfl]
        omega
      · simp only [State.setPut, State.setFate, claimed, Function.update_idem])
  have h₂ : Reachable (step g)
      { claimed s t r with
        put := Function.update s.put t (.writeRec r s.head)
        claim := Function.update s.claim s.head (some ⟨t, r, .accepted⟩) }
      (storing g s t r ⟨⟨r, false⟩, (s.buffer (g.ix s.head)).seq⟩ .written
        (.publishRec r s.head)) :=
    reach_put (t := t) (by
      rw [mpscQueueTryPut]
      simp only [Function.update_self, State.writeSlot, State.setPut, storing, claimed,
        Function.update_idem])
  have h₃ : Reachable (step g) (storing g s t r ⟨⟨r, false⟩, (s.buffer (g.ix s.head)).seq⟩ .written
        (.publishRec r s.head))
      (storing g s t r ⟨⟨r, false⟩, s.head + 1⟩ .published (.signal r s.head 0)) :=
    reach_put (t := t) (by
      rw [mpscQueueTryPut]
      simp only [Function.update_self, State.publishSlot, State.setPut, storing,
        Function.update_idem])
  have h₄ : Reachable (step g)
      (storing g s t r ⟨⟨r, false⟩, s.head + 1⟩ .published (.signal r s.head 0))
      (stored g s t r) :=
    reach_put (t := t) (by
      rw [mpscQueueTryPut]
      simp only [Function.update_self, State.finish, storing, stored, Function.update_idem,
        h.parked, Bool.false_eq_true, if_false])
  exact (((h₀.trans h₁).trans h₂).trans h₃).trans h₄

/-- The state in which a batch call has copied the one slot whose stamp it found. -/
def taken (g : Shape) (s : State ι ρ) : State ι ρ :=
  { s with
    records := [(s.buffer (g.ix s.tail)).entry]
    copied := s.copied ++ [(s.buffer (g.ix s.tail)).entry]
    consumer := .get (.storeTail s.tail 1) }

/-- The worker's batch call trusts the stamp, whoever has written it. -/
theorem reach_taken (hf : s.consumer.free = true) (hh : s.head = s.tail + 1)
    (hseq : (s.buffer (g.ix s.tail)).seq = s.tail + 1) :
    Reachable (step g) s (taken g s) := by
  have havail : szSub s.head s.tail = 1 := by rw [hh, szSub_of_le (by omega)]; omega
  have h₀ : Reach (step g) (drains 64) s { s with records := [], consumer := .get (.loadHead 64) } :=
    .single (a := .callGet 64) ⟨rfl, fun k hk => (Act.callGet.inj hk).symm, by simp⟩
      (if_pos ⟨hf, by decide⟩)
  have h₁ : Reach (step g) (drains 64) { s with records := [], consumer := .get (.loadHead 64) }
      { s with records := [], consumer := .get (.loadTail 64 s.head) } := reach_consume rfl rfl
  have h₂ : Reach (step g) (drains 64)
      { s with records := [], consumer := .get (.loadTail 64 s.head) }
      { s with records := [], consumer := .get (loopTop 64 s.head s.tail 0) } :=
    reach_consume rfl (if_neg (by show szSub s.head s.tail ≠ 0; omega))
  have htop : loopTop 64 s.head s.tail 0 = .loadSeq 64 s.head s.tail 0 := if_pos (by omega)
  rw [htop] at h₂
  have h₃ : Reach (step g) (drains 64)
      { s with records := [], consumer := .get (.loadSeq 64 s.head s.tail 0) }
      { s with records := [], consumer := .get (.copy 64 s.head s.tail 0) } :=
    reach_consume rfl (if_pos hseq)
  have h₄ : Reach (step g) (drains 64)
      { s with records := [], consumer := .get (.copy 64 s.head s.tail 0) } (taken g s) :=
    reach_consume rfl (by
      have hend : loopTop 64 s.head s.tail (0 + 1) = .storeTail s.tail 1 := by
        rw [loopTop, if_neg (by omega)]
        rfl
      rw [mpscQueueGetBatchTry, hend]
      rfl)
  exact ((((h₀.trans h₁).trans h₂).trans h₃).trans h₄).any

/-- The state in which that call has returned. -/
def gotten (g : Shape) (s : State ι ρ) : State ι ρ :=
  { (taken g s).wakeWaiter with
    tail := s.tail + 1, slotsSem := s.slotsSem + 1, drainLocked := false
    consumer := .get (.returned 1) }

/-- A batch call that takes one record. -/
theorem reach_gotten (hf : s.consumer.free = true) (hh : s.head = s.tail + 1)
    (hseq : (s.buffer (g.ix s.tail)).seq = s.tail + 1) (hd : s.drainLocked = false) :
    Reachable (step g) s (gotten g s) := by
  have h₀ := reach_taken hf hh hseq
  have h₁ : Reach (step g) (drains 64) (taken g s)
      { taken g s with tail := s.tail + 1, consumer := .get (.postSlots 1 1) } := reach_consume rfl rfl
  have h₂ : Reach (step g) (drains 64)
      { taken g s with tail := s.tail + 1, consumer := .get (.postSlots 1 1) }
      { taken g s with
        tail := s.tail + 1, slotsSem := s.slotsSem + 1, consumer := .get (.remHead 1) } :=
    reach_consume rfl rfl
  have h₃ : Reach (step g) (drains 64)
      { taken g s with
        tail := s.tail + 1, slotsSem := s.slotsSem + 1, consumer := .get (.remHead 1) }
      { taken g s with
        tail := s.tail + 1, slotsSem := s.slotsSem + 1, consumer := .get (.remTail 1 s.head) } :=
    reach_consume rfl rfl
  have h₄ : Reach (step g) (drains 64)
      { taken g s with
        tail := s.tail + 1, slotsSem := s.slotsSem + 1, consumer := .get (.remTail 1 s.head) }
      { taken g s with
        tail := s.tail + 1, slotsSem := s.slotsSem + 1, consumer := .get (.lock 1) } :=
    reach_consume rfl (if_pos hh)
  have h₅ : Reach (step g) (drains 64)
      { taken g s with
        tail := s.tail + 1, slotsSem := s.slotsSem + 1, consumer := .get (.lock 1) }
      { taken g s with
        tail := s.tail + 1, slotsSem := s.slotsSem + 1, drainLocked := true
        consumer := .get (.broadcast 1) } :=
    reach_consume rfl (if_neg (by show ¬ s.drainLocked = true; simp [hd]))
  have h₆ : Reach (step g) (drains 64)
      { taken g s with
        tail := s.tail + 1, slotsSem := s.slotsSem + 1, drainLocked := true
        consumer := .get (.broadcast 1) }
      { (taken g s).wakeWaiter with
        tail := s.tail + 1, slotsSem := s.slotsSem + 1, drainLocked := true
        consumer := .get (.unlock 1) } := reach_consume rfl rfl
  have h₇ : Reach (step g) (drains 64)
      { (taken g s).wakeWaiter with
        tail := s.tail + 1, slotsSem := s.slotsSem + 1, drainLocked := true
        consumer := .get (.unlock 1) } (gotten g s) := reach_consume rfl rfl
  exact h₀.trans ((((((h₁.trans h₂).trans h₃).trans h₄).trans h₅).trans h₆).trans h₇).any

/-- A child with one record in the queue, published at position `k`. -/
structure Loaded (g : Shape) (s : State ι ρ) (k : ℕ) : Prop where
  head : s.head = k + 1
  tail : s.tail = k
  closed : s.closed = false
  parked : s.consumerParked = false
  locked : s.drainLocked = false
  free : s.consumer.free = true
  out : s.quiet
  copied : s.copied.length = k
  phase : ∀ p, k + 1 ≤ p → s.phase p = .vacant
  seq : (s.buffer (g.ix k)).seq = k + 1

omit [Inhabited ρ] in
/-- A put loads the queue, -/
theorem Rested.loaded {k : ℕ} (h : Rested s k) (t : ι) (r : ρ) : Loaded g (stored g s t r) k where
  head := congrArg (· + 1) h.head
  tail := h.tail
  closed := h.closed
  parked := h.parked
  locked := h.locked
  free := h.free
  out u := by
    by_cases hu : u = t
    · subst hu
      simp [stored, storing, TryPut.inside]
    · simpa [stored, storing, Function.update_of_ne hu] using h.out u
  copied := h.copied
  phase p hp := by
    have hne : p ≠ s.head := by rw [h.head]; omega
    simpa [stored, storing, Function.update_of_ne hne] using h.phase p (by omega)
  seq := by
    rw [← h.head]
    simp [stored, storing]

omit [Inhabited ρ] in
theorem stored_buffer {k : ℕ} (h : Rested s k) (hk : k < g.capacity) (t : ι) (r : ρ) {j : ℕ}
    (hj : j ≠ k) : (stored g s t r).buffer j = s.buffer j := by
  have hne : j ≠ g.ix s.head := by rw [h.head, g.ix_of_lt hk]; exact hj
  simp [stored, storing, Function.update_of_ne hne]

omit [DecidableEq ι] [Inhabited ρ] in
/-- and a batch call brings it to rest. -/
theorem Loaded.rested {k : ℕ} (h : Loaded g s k) : Rested (gotten g s) (k + 1) where
  head := h.head
  tail := congrArg (· + 1) h.tail
  closed := h.closed
  parked := h.parked
  locked := rfl
  free := rfl
  out := h.out
  copied := by
    show (s.copied ++ [_]).length = k + 1
    rw [List.length_append, h.copied]
    rfl
  phase := h.phase

/-- One record through the queue: `k` becomes `k + 1`, and only slot `k` changes. -/
theorem Rested.exists_next {k : ℕ} (h : Rested s k) (hk : k < g.capacity) (t : ι) (r : ρ) :
    ∃ s', Reachable (step g) s s' ∧ Rested s' (k + 1) ∧ ∀ j, j ≠ k → s'.buffer j = s.buffer j := by
  have hst := h.reach_stored (g := g) t r
  have hl := h.loaded (g := g) t r
  have hbuf := fun j hj => stored_buffer (g := g) h hk t r (j := j) hj
  generalize stored g s t r = u at hst hl hbuf
  have hgot := reach_gotten (g := g) hl.free (by rw [hl.head, hl.tail])
    (by rw [hl.tail]; exact hl.seq) hl.locked
  exact ⟨_, hst.trans hgot, hl.rested, hbuf⟩

/-- Any number of records through the child's queue, up to its capacity. -/
theorem exists_rested (parent : State ι ρ) (t : ι) (r : ρ) (k : ℕ) (hk : k ≤ g.capacity) :
    ∃ s, Reachable (step g) (logAsyncAtforkChildFor g parent) s ∧ Rested s k ∧
      ∀ j, k ≤ j → s.buffer j = parent.buffer j := by
  induction k with
  | zero => exact ⟨_, .refl, ⟨rfl, rfl, rfl, rfl, rfl, rfl, fun _ => rfl, rfl, fun _ _ => rfl⟩,
      fun _ _ => rfl⟩
  | succ k ih =>
    obtain ⟨s, hr, hs, hb⟩ := ih (by omega)
    obtain ⟨s', hr', hs', hb'⟩ := hs.exists_next (g := g) (by omega) t r
    exact ⟨s', hr.trans hr', hs', fun j hj => (hb' j (by omega)).trans (hb j (by omega))⟩

/-- **A first-lap stamp is taken for a publication**: the child's worker dequeues
position `i` when its producer has written nothing. -/
theorem exists_stale (parent : State ι ρ) (t : ι) {i : ℕ} (hi : i < g.capacity)
    (hseq : (parent.buffer i).seq = i + 1) :
    ∃ s, Reachable (step g) (logAsyncAtforkChildFor g parent) s ∧
      s.copied[i]? = some (parent.buffer i).entry ∧ s.phase i = .vacant := by
  obtain ⟨s, hr, hs, hb⟩ := exists_rested (g := g) parent t default i hi.le
  have hix : g.ix s.tail = i := by rw [hs.tail, g.ix_of_lt hi]
  have hbuf : (claimed s t default).buffer (g.ix s.tail) = parent.buffer i := by
    rw [hix, ← hb i le_rfl]
    rfl
  have hcl := hs.reach_claimed (g := g) t default
  have htk := reach_taken (g := g) (s := claimed s t default) hs.free
    (show s.head + 1 = s.tail + 1 by rw [hs.head, hs.tail])
    (show ((claimed s t default).buffer (g.ix s.tail)).seq = s.tail + 1 by
      rw [hbuf, hseq, hs.tail])
  refine ⟨_, (hr.trans hcl).trans htk, ?_, hs.phase i le_rfl⟩
  show (s.copied ++ [((claimed s t default).buffer (g.ix s.tail)).entry])[i]? = _
  rw [hbuf, ← hs.copied, List.getElem?_concat_length]

/-- **When the reset is sound.**  Whatever state the parent's queue was in, every
run of the child keeps the contract if and only if no slot `i` still carries the
stamp `i + 1` of a first lap. -/
theorem atfork_iff [Inhabited ι] (g : Shape) (parent : State ι ρ) :
    (∀ s, Reachable (step g) (logAsyncAtforkChildFor g parent) s → ChildOk g s) ↔
      ∀ i, i < g.capacity → (parent.buffer i).seq ≠ i + 1 := by
  constructor
  · intro h i hi hseq
    obtain ⟨s, hr, hcop, hp⟩ := exists_stale parent default hi hseq
    have := ((h s hr).own i _ hcop).1
    rw [hp] at this
    cases this
  · intro hseq s hr
    have hgood := good_child hseq hr
    exact ⟨fun p e hp => hgood.inv.own hp, hgood.delivery⟩

/-- The parent puts one record and its worker takes it. -/
def parentTrace : List (Act (Fin 3) ℕ) :=
  putAlone 0 7 ++ .callGet 64 :: List.replicate 11 .consume

/-- In the child a producer claims position 0, the worker's batch runs, and the
producer goes on. -/
def childTrace : List (Act (Fin 3) ℕ) :=
  (.call 0 9 :: List.replicate 5 (.put 0)) ++ (.callGet 64 :: List.replicate 11 .consume) ++
    List.replicate 3 (.put 0)

/-- The child's worker has dequeued the parent's 7, which no child put; the
child's 9 was accepted, the queue is empty, and 9 has not been dequeued. -/
theorem child_replays_parent : ∃ parent s,
    Machine.run (step (.ofPow 1)) smallQueue parentTrace = some parent ∧
      Machine.run (step (.ofPow 1)) (logAsyncAtforkChildFor (.ofPow 1) parent) childTrace = some s ∧
      s.copied = [⟨7, false⟩] ∧ s.done.map (fun d => (d.record, d.ret)) = [(9, 0)] ∧
      s.tail = s.head ∧ ¬ ChildOk (.ofPow 1) s :=
  ⟨_, _, rfl, rfl, rfl, rfl, rfl, fun h => absurd (h.own 0 ⟨7, false⟩ rfl).2.1 (by decide)⟩

end Queue
end Clogx
