/-
# What the queue delivers

`mpsc_queue_t` as its callers see it: a sequence of records, each accepted for
one position, that comes out at the other end in the order of positions.

`Delivery` states this for a state of the queue.  The records the consumer has
copied out, tombstones aside, are those of the accepted calls that own the
positions before its cursor; a record accepted and not yet copied sits untouched
in its slot; refused records are nowhere; calls own distinct positions, in call
order for each thread; and no producer is about to write a slot that is
published and not yet freed.  Every run in which no producer times out keeps it.

A producer that does time out leaves a position nobody will publish.  That is
the only kind of hole.
-/

import Clogx.Queue.Drain

namespace Clogx
namespace Queue

open SeqRing (Shape Phase)
open Machine (Reach Reachable reach_of_run reach_of_run_of)

variable {ι ρ : Type*}

/-- A producer leaves `mpsc_queue_try_put` through `stalls > 1000000`. -/
def Act.timesOut : Act ι ρ → Bool
  | .giveUp _ => true
  | _ => false

/-- The steps of a run in which no producer times out. -/
def noTimeout (_ : State ι ρ) (a : Act ι ρ) : Prop := a.timesOut = false

/-- No claimed position has been abandoned. -/
def State.noneAbandoned (s : State ι ρ) : Prop := ∀ p c, s.claim p = some c → c.fate ≠ .abandoned

/-- The records the consumer has copied out, tombstones aside. -/
def State.delivered (s : State ι ρ) : List ρ :=
  (s.copied.filter fun e => !e.isTombstone).map Entry.body

/-- The position of the consumer: past `tail` by what its batch has copied. -/
def State.cursor (s : State ι ρ) : ℕ := s.tail + s.consumer.taken

variable [DecidableEq ι] [Inhabited ρ] {g : Shape} {s s' : State ι ρ}

/-- The contract of the queue. -/
structure Delivery (g : Shape) (s : State ι ρ) : Prop where
  order : s.delivered = (List.range s.cursor).filterMap s.acceptedAt
  accepted : ∀ d ∈ s.done, d.ret = 0 → ∃ p, d.pos = some p ∧ s.acceptedAt p = some d.record ∧
    (p < s.cursor → s.copied[p]? = some ⟨d.record, false⟩) ∧
    (s.cursor ≤ p → s.buffer (g.ix p) = ⟨⟨d.record, false⟩, p + 1⟩)
  refused : ∀ d ∈ s.done, d.ret ≠ 0 → ∀ p, d.pos = some p → s.acceptedAt p = none
  calls : s.done.Pairwise fun d e =>
    (∀ p, d.pos = some p → e.pos ≠ some p) ∧ Before d e
  writes : ∀ t r pos, s.put t = .writeTomb r pos ∨ s.put t = .writeRec r pos →
    ∀ p, s.tail ≤ p → s.phase p = .published → g.ix pos ≠ g.ix p
  drained : s.quiet → s.noneAbandoned → (s.consumer.free = true ∨ ∃ pc, s.consumer = .get pc) → ∀ m, 0 < m →
    ∃ s', Reach (step g) (drains m) s s' ∧ s'.cursor = s'.head ∧ s'.done = s.done

/-! ### The parts -/

omit [DecidableEq ι] in
/-- Position by position, what was written is the record of the accepted owner or
a tombstone. -/
theorem filterMap_acceptedAt {l : List ℕ} (h : ∀ p ∈ l, Content s p) :
    (((l.map s.item).filter fun e => !e.isTombstone).map Entry.body) = l.filterMap s.acceptedAt := by
  induction l with
  | nil => rfl
  | cons p l ih =>
    have ih' := ih fun q hq => h q (List.mem_cons_of_mem _ hq)
    obtain ⟨t, r, ⟨hc, hi⟩ | ⟨hc, hi⟩⟩ := h p (List.mem_cons_self ..)
    · simp [hi, State.acceptedAt, hc, ih']
    · simp [hi, tombstone, State.acceptedAt, hc, ih']

omit [DecidableEq ι] in
/-- What has been delivered are the accepted records below the cursor, in order. -/
theorem Inv.delivered_eq (h : Inv g s) :
    s.delivered = (List.range s.cursor).filterMap s.acceptedAt := by
  rw [State.delivered, h.copied]
  exact filterMap_acceptedAt fun p hp =>
    h.content p (h.published_of_lt (List.mem_range.1 hp))

omit [DecidableEq ι] [Inhabited ρ] in
theorem acceptedAt_of_claim {p : ℕ} {t : ι} {r : ρ} (h : s.claim p = some ⟨t, r, .accepted⟩) :
    s.acceptedAt p = some r := by
  rw [State.acceptedAt, h]

omit [DecidableEq ι] in
/-- An accepted record is copied out as it was put, and until then it is intact
in its slot. -/
theorem Inv.intact (h : Inv g s) {p : ℕ} {t : ι} {r : ρ}
    (hc : s.claim p = some ⟨t, r, .accepted⟩) (hp : s.phase p = .published) :
    (p < s.cursor → s.copied[p]? = some ⟨r, false⟩) ∧
    (s.cursor ≤ p → s.buffer (g.ix p) = ⟨⟨r, false⟩, p + 1⟩) := by
  have hitem : s.item p = ⟨r, false⟩ := by
    obtain ⟨u, q, ⟨hc', hi⟩ | ⟨hc', hi⟩⟩ := h.content p hp
    · have := Option.some.inj (hc.symm.trans hc')
      simp only [Claim.mk.injEq] at this
      rw [hi, this.2.1]
    · have := Option.some.inj (hc.symm.trans hc')
      simp at this
  refine ⟨fun hlt => ?_, fun hle => ?_⟩
  · have hlt' : p < s.tail + s.consumer.taken := hlt
    rw [h.copied, List.getElem?_map, List.getElem?_range hlt', Option.map_some, hitem]
  · have hseq : (s.buffer (g.ix p)).seq = p + 1 :=
      h.ring.seq_of_published p ((Nat.le_add_right _ _).trans hle) hp
    have hval : (s.buffer (g.ix p)).entry = s.item p :=
      h.ring.val_of_written p hle (by show s.phase p ≠ .vacant; rw [hp]; decide)
    rw [hitem] at hval
    rw [← hseq, ← hval]

omit [DecidableEq ι] [Inhabited ρ] in
/-- Two returned calls never own the same position. -/
theorem History.calls (h : History s) : s.done.Pairwise fun d e =>
    (∀ p, d.pos = some p → e.pos ≠ some p) ∧ Before d e := by
  refine h.order.imp_of_mem fun {d e} hd he hb => ⟨fun p hp hp' => ?_, hb⟩
  obtain ⟨f, -, hc⟩ := (h.done d hd).exists_claim hp
  obtain ⟨f', -, hc'⟩ := (h.done e he).exists_claim hp'
  have hthread : d.thread = e.thread := by
    have := Option.some.inj (hc.symm.trans hc')
    simp only [Claim.mk.injEq] at this
    exact this.1
  exact (hb hthread p p hp hp').false

omit [DecidableEq ι] in
/-- The slot a producer is about to write is none the consumer still needs. -/
theorem Inv.ix_ne_of_write (h : Inv g s) {t : ι} {r : ρ} {pos p : ℕ}
    (hw : s.put t = .writeTomb r pos ∨ s.put t = .writeRec r pos) (hle : s.tail ≤ p)
    (hp : s.phase p = .published) : g.ix pos ≠ g.ix p := by
  have hput := h.put t
  obtain ⟨hv, hlap⟩ : s.phase pos = .vacant ∧ pos < s.tail + g.capacity := by
    rcases hw with hw | hw <;> rw [hw] at hput <;> exact ⟨hput.2.1, hput.2.2⟩
  have htail : s.tail ≤ pos := h.tail_le (by rw [hv]; decide)
  refine (h.ring.ix_ne htail hlap (q := p) ?_ hle ?_).symm
  · show s.phase p ≠ .vacant
    rw [hp]
    decide
  · rintro rfl
    rw [hv] at hp
    cases hp

omit [DecidableEq ι] in
/-- With no producer inside, a claimed position is published or abandoned. -/
theorem Good.published_of_quiet (h : Good g s) (hq : s.quiet) {p : ℕ} (hp : p < s.head) :
    s.phase p = .published ∨ ∃ t r, s.claim p = some ⟨t, r, .abandoned⟩ := by
  by_cases hph : s.phase p = .published
  · exact .inl hph
  · obtain ⟨c, hc⟩ := Option.isSome_iff_exists.1 ((h.inv.claimed p).2 hp)
    obtain ⟨t, r, f⟩ := c
    rcases h.history.held p _ hc hph with rfl | hold
    · exact .inr ⟨t, r, hc⟩
    · have hout := hq t
      cases hpc : s.put t <;> simp [hpc, TryPut.inside, TryPut.holds, TryPut.pos] at hout hold

/-- What is known of a reachable state is enough for the contract. -/
theorem Good.delivery (h : Good g s) : Delivery g s := by
  refine
    { order := h.inv.delivered_eq
      accepted := fun d hd hr => ?_
      refused := fun d hd hr p hp => ?_
      calls := h.history.calls
      writes := fun t r pos hw p hle hp => h.inv.ix_ne_of_write hw hle hp
      drained := fun hq hnone hc m hm => ?_ }
  · rcases h.history.done d hd with ⟨-, p, hp, hc, hph⟩ | ⟨hr', -⟩
    · exact ⟨p, hp, acceptedAt_of_claim hc, h.inv.intact hc hph⟩
    · rw [hr] at hr'
      cases hr'
  · rcases h.history.done d hd with ⟨hr', -⟩ | ⟨-, hd'⟩
    · exact absurd hr' hr
    · obtain ⟨f, hf | hf, hc⟩ := hd' p hp <;> rw [State.acceptedAt, hc, hf]
  · obtain ⟨s', hr, hready, he⟩ := exists_drained h hm (fun p hp => by
      rcases h.published_of_quiet hq hp with hph | ⟨t, r, hc⟩
      · exact hph
      · exact absurd rfl (hnone p _ hc)) hc
    refine ⟨s', hr, ?_, (sameCalls_of_drains hr).done⟩
    rw [State.cursor, taken_of_free hready.free, he, Nat.add_zero]

/-! ### Runs without time-outs -/

/-- No operation of a call but the time-out abandons a position. -/
theorem claim_tryPut {t : ι} (hs : mpscQueueTryPut g s t = some s') {p : ℕ} {c : Claim ι ρ}
    (hc : s'.claim p = some c) : s.claim p = some c ∨ c.fate ≠ .abandoned := by
  have hset {r : ρ} {pos : ℕ} {f : Fate} (hf : f ≠ .abandoned)
      (h : Function.update s.claim pos (some ⟨t, r, f⟩) p = some c) :
      s.claim p = some c ∨ c.fate ≠ .abandoned := by
    by_cases hp : p = pos
    · subst hp
      rw [Function.update_self] at h
      exact .inr (Option.some.inj h ▸ hf)
    · rw [Function.update_of_ne hp] at h
      exact .inl h
  unfold mpscQueueTryPut at hs
  cases hpc : s.put t <;> simp only [hpc] at hs <;> try split_ifs at hs
  all_goals first
    | cases hs; done
    | cases hs
  all_goals first
    | exact .inl hc
    | exact hset (by decide) hc

/-- A step that is no time-out abandons no claim. -/
theorem noneAbandoned_step {a : Act ι ρ} (h : s.noneAbandoned) (ha : noTimeout s a)
    (hs : step g s a = some s') : s'.noneAbandoned := by
  intro p c hc
  cases a with
  | giveUp t => cases ha
  | call t r =>
    simp only [step] at hs
    split_ifs at hs
    cases hs
    exact h p c hc
  | put t =>
    rcases claim_tryPut hs hc with hc' | hf
    · exact h p c hc'
    · exact hf
  | casMiss t =>
    obtain ⟨r, pos, ret, -, rfl⟩ := casMiss_eq hs
    exact h p c hc
  | callWait | callGet | consume | callClose | close | callWaitEmpty | waitEmpty | spurious =>
    exact h p c ((sameCalls_step rfl hs).claim ▸ hc)

/-- Nor does a run. -/
theorem noneAbandoned_of_reach {junk : ℕ → Entry ρ}
    (h : Reach (step g) noTimeout (mpscQueueCreate g junk) s) : s.noneAbandoned :=
  h.invariant (I := State.noneAbandoned) (fun p c hc => by simp [mpscQueueCreate] at hc)
    fun _ _ _ hi ha hs => noneAbandoned_step hi ha hs

/-- **The queue delivers.**  In every run of any number of producers, the
consumer, a closer and a waiter in which no producer times out, every state
meets the contract, and nothing stands in the way of draining it. -/
theorem delivery_of_reach (g : Shape) (junk : ℕ → Entry ρ) (s : State ι ρ)
    (h : Reach (step g) noTimeout (mpscQueueCreate g junk) s) : Delivery g s ∧ s.noneAbandoned :=
  ⟨(good_reachable (h.mono fun _ _ _ => trivial)).delivery, noneAbandoned_of_reach h⟩

/-- A queue of two slots and three producers. -/
def smallQueue : State (Fin 3) ℕ := mpscQueueCreate (.ofPow 1) fun _ => tombstone

/-- Thread `t` puts `r` without interference. -/
def putAlone (t : Fin 3) (r : ℕ) : List (Act (Fin 3) ℕ) := .call t r :: List.replicate 8 (.put t)

/-- One record put, and the batch call stopped right after its copy. -/
def midBatch : List (Act (Fin 3) ℕ) := putAlone 0 7 ++ .callGet 4 :: List.replicate 4 .consume

/-- The record is delivered while `tail` is still behind it. -/
theorem delivery_of_reach_midBatch : ∃ s,
    Machine.run (step (.ofPow 1)) smallQueue midBatch = some s ∧ s.delivered = [7] ∧
      Delivery (.ofPow 1) s :=
  ⟨_, rfl, rfl, (delivery_of_reach (.ofPow 1) (fun _ => tombstone) _ (reach_of_run_of
    (p := fun a : Act (Fin 3) ℕ => a.timesOut = false) midBatch (by decide) rfl)).1⟩

/-- Between the copy and the store of `tail` the consumer has more than the
positions below `tail`. -/
theorem delivered_ne_below_tail : ∃ s,
    Machine.run (step (.ofPow 1)) smallQueue midBatch = some s ∧
      s.delivered ≠ (List.range s.tail).filterMap s.acceptedAt :=
  ⟨_, rfl, by decide⟩

/-! ### Holes -/

/-- **The only holes are abandoned claims.**  In every reachable state in which no
producer is inside `mpsc_queue_try_put`, each position in `[tail, head)` is
published, or its producer timed out.  If none of them timed out, repeated batch
calls of any size drain the queue, `mpsc_queue_wait_empty` returns, and a closed
queue makes the consumer leave. -/
theorem no_holes (g : Shape) (junk : ℕ → Entry ρ) (s : State ι ρ)
    (h : Reachable (step g) (mpscQueueCreate g junk) s) (hq : s.quiet) :
    (∀ p, s.tail ≤ p → p < s.head →
      (s.buffer (g.ix p)).seq = p + 1 ∨ ∃ t r, s.claim p = some ⟨t, r, .abandoned⟩) ∧
    ((∀ p, s.tail ≤ p → p < s.head → ∀ t r, s.claim p ≠ some ⟨t, r, .abandoned⟩) → ∀ m, 0 < m →
      (s.consumer.free = true ∨ (∃ pc, s.consumer = .get pc) →
        ∃ s', Reach (step g) (drains m) s s' ∧ s'.tail = s'.head ∧
          ∃ s'', Reach (step g) (drains m) s' s'' ∧ s''.waiter = .returned) ∧
      (s.closed = true →
        ∃ s', Reach (step g) (drains m) s s' ∧ s'.consumer = .wait (.returned (-1)))) := by
  have hgood := good_reachable h
  refine ⟨fun p hle hlt => ?_, fun hnone m hm => ?_⟩
  · refine (hgood.published_of_quiet hq hlt).imp_left fun hp => ?_
    exact hgood.inv.ring.seq_of_published p hle hp
  · have hpub : ∀ p, p < s.head → s.phase p = .published := fun p hp => by
      rcases lt_or_ge p s.tail with hlt | hge
      · exact hgood.inv.published_of_lt (by omega)
      · rcases hgood.published_of_quiet hq hp with hph | ⟨t, r, hc⟩
        · exact hph
        · exact absurd hc (hnone p hge hp t r)
    refine ⟨fun hc => ?_, fun hcl => exists_exit hgood hm hpub hcl⟩
    obtain ⟨s', hr, hready, he⟩ := exists_drained hgood hm hpub hc
    obtain ⟨s'', hr', hw⟩ := hready.exists_waitEmpty (m := m) he
    exact ⟨s', hr, he, s'', hr', hw⟩

/-- Three producers pass the first check together; two fill the queue, the third
claims position 2, finds the queue full, and times out on its first poll. -/
def holeTrace : List (Act (Fin 3) ℕ) :=
  (.call 2 9 :: List.replicate 3 (.put 2)) ++ putAlone 0 7 ++ putAlone 1 8 ++
    [.put 2, .put 2, .giveUp 2]

/-- A second producer puts its record while the consumer copies the first one. -/
def besideBatch : List (Act (Fin 3) ℕ) :=
  List.flatten [putAlone 0 7, [.callGet 4], List.replicate 3 .consume, [.call 1 8],
    List.replicate 4 (.put 1), List.replicate 5 .consume, List.replicate 4 (.put 1)]

/-- Behind it one record is delivered and one left, which is published and can be drained. -/
theorem no_holes_besideBatch : ∃ s,
    Reachable (step (.ofPow 1)) smallQueue s ∧ (s.quiet ∧ s.tail = 1 ∧ s.head = 2) ∧
      (s.buffer ((Shape.ofPow 1).ix 1)).seq = 1 + 1 ∧
      ∃ s', Reach (step (.ofPow 1)) (drains 1) s s' ∧ s'.tail = s'.head := by
  obtain ⟨s, hreach, hquiet, htail, hhead, hfree, hfate⟩ : ∃ s,
      Reachable (step (.ofPow 1)) smallQueue s ∧ (∀ t, (s.put t).inside = false) ∧ s.tail = 1 ∧
        s.head = 2 ∧ s.consumer.free = true ∧ (s.claim 1).map Claim.fate = some .accepted :=
    Machine.exists_of_run besideBatch (by decide +kernel)
  obtain ⟨hpub, hdrain⟩ := no_holes (.ofPow 1) (fun _ => tombstone) s hreach hquiet
  have hnone : ∀ t r, s.claim 1 ≠ some ⟨t, r, .abandoned⟩ := fun t r hc => by
    rw [hc] at hfate
    cases hfate
  obtain ⟨s', hr, he, -⟩ := (hdrain (fun p hle hlt => by
    obtain rfl : p = 1 := by omega
    exact hnone) 1 one_pos).1 (.inl hfree)
  exact ⟨s, hreach, ⟨hquiet, htail, hhead⟩,
    (hpub 1 htail.le (by omega)).resolve_right fun ⟨t, r, hc⟩ => hnone t r hc, s', hr, he⟩

/-- With all producers outside, position 2 is claimed and unpublished. -/
theorem hole_after_timeout : ∃ s,
    Machine.run (step (.ofPow 1)) smallQueue holeTrace = some s ∧ s.quiet ∧
      s.tail ≤ 2 ∧ 2 < s.head ∧ (s.buffer ((Shape.ofPow 1).ix 2)).seq ≠ 2 + 1 :=
  ⟨_, rfl, by unfold State.quiet; decide, by decide, by decide, by decide⟩

end Queue
end Clogx
