/-
# One call of `mpsc_queue_try_put`, seen by its caller

What the callers of the queue need to know of a step inside a call: which claims
it can touch, and how the call goes on or returns (`PutStep`); what a step
leaves to the consumer's side (`SameConsumer`); and that `head` and `tail` only
grow.
-/

import Clogx.Queue.Sync

namespace Clogx
namespace Queue

open SeqRing (Shape Phase)

variable {ι ρ : Type*}

/-- The record a call is about. -/
def TryPut.record : TryPut ρ → Option ρ
  | .loadClosed r | .loadTail r | .loadHead r _ | .fetchAdd r | .recheck r _ | .poll r _ _
  | .writeTomb r _ | .publishTomb r _ | .writeRec r _ | .publishRec r _ | .signal r _ _
  | .post r _ _ => some r
  | .idle | .returned _ => none

/-- A step of thread `t` inside its call on `r`. -/
structure PutStep (s s' : State ι ρ) (t : ι) (r : ρ) : Prop where
  claim : ∀ p c, s'.claim p = some c → s.claim p = some c ∨ (c.thread = t ∧ c.record = r ∧
    ((s.put t).pos = some p ∨ (s.put t).pos = none ∧ (s'.put t).pos = some p))
  settled : ∀ p c, s.claim p = some c → c.fate ≠ .pending → s'.claim p = some c
  other : ∀ u, u ≠ t → s'.put u = s.put u
  next : (∃ ret, s'.put t = .returned ret ∧ s'.done = s.done ++ [⟨t, r, (s.put t).pos, ret⟩]) ∨
    ((s'.put t).record = some r ∧ ((s.put t).pos = none ∨ (s'.put t).pos = (s.put t).pos))

variable {g : Shape} {s s' : State ι ρ} {t : ι} {r : ρ} [DecidableEq ι]

/-- A step that touches no claim. -/
theorem PutStep.move {pc : TryPut ρ} (hr : pc.record = some r)
    (hp : (s.put t).pos = none ∨ pc.pos = (s.put t).pos) : PutStep s (s.setPut t pc) t r where
  claim _ _ hc := .inl hc
  settled _ _ hc _ := hc
  other _ hu := Function.update_of_ne hu _ _
  next := .inr (by simpa using ⟨hr, hp⟩)

/-- The call returns. -/
theorem PutStep.finish (s : State ι ρ) (t : ι) (r : ρ) (ret : ℤ) :
    PutStep s (s.finish t r (s.put t).pos ret) t r where
  claim _ _ hc := .inl hc
  settled _ _ hc _ := hc
  other _ hu := Function.update_of_ne hu _ _
  next := .inl ⟨ret, Function.update_self .., rfl⟩

omit [DecidableEq ι] in
theorem setFate_claim_self (pos : ℕ) (f : Fate) :
    (s.setFate t r pos f).claim pos = some ⟨t, r, f⟩ :=
  Function.update_self ..

omit [DecidableEq ι] in
theorem setFate_claim_of_ne {pos p : ℕ} (f : Fate) (hp : p ≠ pos) :
    (s.setFate t r pos f).claim p = s.claim p :=
  Function.update_of_ne hp _ _

omit [DecidableEq ι] in
/-- A claim is an old one or that of the call. -/
theorem claim_setFate {pos p : ℕ} {f : Fate} {c : Claim ι ρ}
    (hc : (s.setFate t r pos f).claim p = some c) :
    s.claim p = some c ∨ c.thread = t ∧ c.record = r ∧ p = pos := by
  by_cases hp : p = pos
  · subst hp
    rw [setFate_claim_self] at hc
    exact .inr (Option.some.inj hc ▸ ⟨rfl, rfl, rfl⟩)
  · rw [setFate_claim_of_ne f hp] at hc
    exact .inl hc

omit [DecidableEq ι] in
/-- A fate that is settled stays. -/
theorem settled_setFate {pos p : ℕ} {f : Fate} {c : Claim ι ρ}
    (hpos : ∀ c, s.claim pos = some c → c.fate = .pending) (hc : s.claim p = some c)
    (hf : c.fate ≠ .pending) : (s.setFate t r pos f).claim p = some c := by
  have hp : p ≠ pos := by
    rintro rfl
    exact hf (hpos c hc)
  rw [setFate_claim_of_ne f hp, hc]

/-- The outcome of the call's own position is decided. -/
theorem PutStep.setFate {pos : ℕ} {f : Fate} {pc : TryPut ρ} (hput : (s.put t).pos = some pos)
    (hpend : ∀ c, s.claim pos = some c → c.fate = .pending) (hr : pc.record = some r)
    (hp : pc.pos = some pos) : PutStep s ((s.setFate t r pos f).setPut t pc) t r where
  claim _ _ hc := (claim_setFate hc).imp_right fun ⟨h₁, h₂, h₃⟩ => ⟨h₁, h₂, .inl (h₃ ▸ hput)⟩
  settled _ _ hc hf := settled_setFate hpend hc hf
  other _ hu := Function.update_of_ne hu _ _
  next := .inr ⟨by simpa using hr, .inr (by simpa [hput] using hp)⟩

variable [Inhabited ρ]

/-- **What one operation of `mpsc_queue_try_put` does to its call.** -/
theorem putStep_tryPut (hi : Inv g s) (hr : (s.put t).record = some r)
    (hs : mpscQueueTryPut g s t = some s') : PutStep s s' t r := by
  have hput := hi.put t
  unfold mpscQueueTryPut at hs
  cases hpc : s.put t with
  | idle | returned => simp [hpc] at hs
  | loadClosed q | loadHead q =>
    simp only [hpc] at hs
    obtain rfl : q = r := by rw [hpc] at hr; exact Option.some.inj hr
    have hnone : (s.put t).pos = none := by rw [hpc]; rfl
    split_ifs at hs <;> cases hs
    · rw [← hnone]
      exact .finish ..
    · exact .move rfl (.inl hnone)
  | loadTail q =>
    simp only [hpc] at hs
    obtain rfl : q = r := by rw [hpc] at hr; exact Option.some.inj hr
    cases hs
    exact .move rfl (.inl (by rw [hpc]; rfl))
  | fetchAdd q =>
    simp only [hpc] at hs
    obtain rfl : q = r := by rw [hpc] at hr; exact Option.some.inj hr
    cases hs
    have hnone : (s.put t).pos = none := by rw [hpc]; rfl
    have hfree : ∀ c, s.claim s.head = some c → c.fate = .pending := fun c hc =>
      absurd ((hi.claimed s.head).1 (by rw [hc]; rfl)) (lt_irrefl _)
    exact
      { claim := fun p c hc => (claim_setFate hc).imp_right fun ⟨h₁, h₂, h₃⟩ =>
          ⟨h₁, h₂, .inr ⟨hnone, by rw [setPut_put, h₃]; rfl⟩⟩
        settled := fun p c hc hf =>
          settled_setFate (s := { s with head := s.head + 1 }) hfree hc hf
        other := fun u hu => Function.update_of_ne hu _ _
        next := .inr ⟨by simp [TryPut.record], .inl hnone⟩ }
  | recheck q pos | poll q pos =>
    simp only [hpc] at hs
    rw [hpc] at hput
    obtain rfl : q = r := by rw [hpc] at hr; exact Option.some.inj hr
    have hpos : (s.put t).pos = some pos := by rw [hpc]; rfl
    have hpend : ∀ c, s.claim pos = some c → c.fate = .pending := fun c hc => by
      rw [← Option.some.inj (hput.1.symm.trans hc)]
    split_ifs at hs <;> cases hs
    all_goals first
      | exact .move rfl (.inr (by rw [hpos]; rfl))
      | exact .setFate hpos hpend rfl rfl
  | writeTomb q pos | publishTomb q pos | writeRec q pos | publishRec q pos =>
    simp only [hpc] at hs
    obtain rfl : q = r := by rw [hpc] at hr; exact Option.some.inj hr
    cases hs
    exact
      { claim := fun p c hc => .inl hc
        settled := fun p c hc _ => hc
        other := fun u hu => Function.update_of_ne hu _ _
        next := .inr ⟨by simp [TryPut.record], .inr (by rw [setPut_put, hpc]; rfl)⟩ }
  | signal q pos ret =>
    simp only [hpc] at hs
    obtain rfl : q = r := by rw [hpc] at hr; exact Option.some.inj hr
    have hpos : (s.put t).pos = some pos := by rw [hpc]; rfl
    split_ifs at hs <;> cases hs
    · have h : PutStep s (s.setPut t (.post q pos ret)) t q :=
        .move rfl (.inr (by rw [hpos]; rfl))
      exact ⟨h.claim, h.settled, h.other, h.next⟩
    · rw [← hpos]
      exact .finish ..
  | post q pos ret =>
    simp only [hpc] at hs
    obtain rfl : q = r := by rw [hpc] at hr; exact Option.some.inj hr
    have hpos : (s.put t).pos = some pos := by rw [hpc]; rfl
    cases hs
    have h := PutStep.finish s t q ret
    rw [hpos] at h
    exact ⟨h.claim, h.settled, h.other, by
      have := h.next
      rw [hpos] at this ⊢
      exact this⟩

/-- A time-out is a step of the call. -/
theorem putStep_abandon (hi : Inv g s) (hr : (s.put t).record = some r)
    (hs : abandon g s t = some s') : PutStep s s' t r := by
  have hput := hi.put t
  obtain ⟨q, pos, hpc, -, rfl⟩ := abandon_eq hs
  rw [hpc] at hput
  obtain rfl : q = r := by rw [hpc] at hr; exact Option.some.inj hr
  have hpos : (s.put t).pos = some pos := by rw [hpc]; rfl
  have hpend : ∀ c, s.claim pos = some c → c.fate = .pending := fun c hc => by
    rw [← Option.some.inj (hput.1.symm.trans hc)]
  exact
    { claim := fun p c hc => (claim_setFate hc).imp_right fun ⟨h₁, h₂, h₃⟩ =>
        ⟨h₁, h₂, .inl (h₃ ▸ hpos)⟩
      settled := fun p c hc hf => settled_setFate hpend hc hf
      other := fun u hu => Function.update_of_ne hu _ _
      next := .inl ⟨-1, Function.update_self .., by rw [hpos]; rfl⟩ }

omit [Inhabited ρ] in
/-- So is a failed wake-up. -/
theorem putStep_casMiss (hr : (s.put t).record = some r) (hs : casMiss s t = some s') :
    PutStep s s' t r := by
  obtain ⟨q, pos, ret, hpc, rfl⟩ := casMiss_eq hs
  obtain rfl : q = r := by rw [hpc] at hr; exact Option.some.inj hr
  have hpos : (s.put t).pos = some pos := by rw [hpc]; rfl
  rw [← hpos]
  exact .finish ..

/-- A step inside a call is one of its operations, its time-out, or a failing
compare-exchange. -/
def Act.inCall (a : Act ι ρ) (t : ι) : Prop := a = .put t ∨ a = .giveUp t ∨ a = .casMiss t

/-- **Every action of a thread inside a call is a step of that call.** -/
theorem putStep_step {a : Act ι ρ} (ha : a.inCall t) (hi : Inv g s)
    (hr : (s.put t).record = some r) (hs : step g s a = some s') : PutStep s s' t r := by
  rcases ha with rfl | rfl | rfl
  · exact putStep_tryPut hi hr hs
  · exact putStep_abandon hi hr hs
  · exact putStep_casMiss hr hs

omit [DecidableEq ι] [Inhabited ρ] in
theorem TryPut.inside_of_record {pc : TryPut ρ} (h : pc.record = some r) : pc.inside = true := by
  cases pc <;> first | rfl | cases h

omit [Inhabited ρ] in
/-- A step of a thread that is in no call is the start of one. -/
theorem record_of_inCall [Inhabited ρ] {a : Act ι ρ} (ha : a.inCall t)
    (hs : step g s a = some s') : ∃ r, (s.put t).record = some r := by
  cases hpc : s.put t with
  | idle | returned => rcases ha with rfl | rfl | rfl <;>
      simp [step, mpscQueueTryPut, abandon, casMiss, hpc] at hs
  | _ => exact ⟨_, rfl⟩

/-- **A settled claim stays settled**, whoever moves. -/
theorem settled_step {a : Act ι ρ} (hi : Inv g s) (hs : step g s a = some s') {p : ℕ}
    {c : Claim ι ρ} (hc : s.claim p = some c) (hf : c.fate ≠ .pending) : s'.claim p = some c := by
  have hin {u : ι} (ha : a.inCall u) : s'.claim p = some c := by
    obtain ⟨r, hr⟩ := record_of_inCall ha hs
    exact (putStep_step ha hi hr hs).settled p c hc hf
  cases a with
  | put u => exact hin (.inl rfl)
  | giveUp u => exact hin (.inr (.inl rfl))
  | casMiss u => exact hin (.inr (.inr rfl))
  | call u q =>
    simp only [step] at hs
    split_ifs at hs
    cases hs
    exact hc
  | callWait | callGet | consume | callClose | close | callWaitEmpty | waitEmpty | spurious =>
    rw [(sameCalls_step rfl hs).claim, hc]

omit [DecidableEq ι] in
/-- The position of a call is claimed by its thread for its record. -/
theorem claim_of_pos (hi : Inv g s) (hr : (s.put t).record = some r) {p : ℕ}
    (hp : (s.put t).pos = some p) : ∃ f, s.claim p = some ⟨t, r, f⟩ := by
  have hput := hi.put t
  cases hpc : s.put t <;> rw [hpc] at hr hp hput <;>
    simp only [TryPut.record, TryPut.pos, Option.some.injEq, reduceCtorEq] at hr hp <;>
    subst hr hp
  case signal | post =>
    obtain ⟨-, ⟨-, hc⟩ | ⟨-, hc⟩⟩ := hput <;> exact ⟨_, hc⟩
  all_goals exact ⟨_, hput.1⟩

omit [DecidableEq ι] in
/-- What is behind `tail` is decided. -/
theorem settled_of_lt_tail (hi : Inv g s) {p : ℕ} (hp : p < s.tail) :
    ∃ c, s.claim p = some c ∧ c.fate ≠ .pending := by
  obtain ⟨t, r, ⟨hc, -⟩ | ⟨hc, -⟩⟩ := hi.content p (hi.published_of_lt (by omega)) <;>
    exact ⟨_, hc, by simp⟩

/-- What is below `tail` does not change. -/
theorem acceptedAt_step {a : Act ι ρ} (hi : Inv g s) (hs : step g s a = some s') {p : ℕ}
    (hp : p < s.tail) : s'.acceptedAt p = s.acceptedAt p := by
  obtain ⟨c, hc, hf⟩ := settled_of_lt_tail hi hp
  rw [State.acceptedAt, State.acceptedAt, settled_step hi hs hc hf, hc]

/-! ### The consumer's side -/

/-- The step is one of the consumer's. -/
def Act.consumes : Act ι ρ → Bool
  | .callWait | .callGet _ | .consume => true
  | _ => false

/-- What the consumer works on is as it was. -/
structure SameConsumer (s s' : State ι ρ) : Prop where
  tail : s'.tail = s.tail
  consumer : s'.consumer = s.consumer
  records : s'.records = s.records

/-- The consumer moves by its own steps only. -/
theorem sameConsumer_step {a : Act ι ρ} (ha : a.consumes = false) (hs : step g s a = some s') :
    SameConsumer s s' := by
  cases a with
  | callWait | callGet | consume => cases ha
  | call | put | giveUp | casMiss =>
    have h := sameOthers_step rfl hs
    exact ⟨h.tail, h.consumer, h.records⟩
  | callClose =>
    obtain ⟨-, rfl⟩ := callClose_eq hs
    exact ⟨rfl, rfl, rfl⟩
  | close =>
    obtain ⟨closed, items, slots, locked, waiter, closer, -, -, rfl⟩ := close_eq hs
    exact ⟨rfl, rfl, rfl⟩
  | waitEmpty =>
    obtain ⟨locked, waiter, rfl⟩ := waitEmpty_eq hs
    exact ⟨rfl, rfl, rfl⟩
  | callWaitEmpty | spurious =>
    simp only [step] at hs
    split_ifs at hs
    cases hs
    exact ⟨rfl, rfl, rfl⟩

/-- How many records a batch call holds once it has stored `tail`. -/
def Consumer.batched : Consumer → ℕ
  | .get (.postSlots n _) | .get (.remHead n) | .get (.remTail n _) | .get (.lock n)
  | .get (.broadcast n) | .get (.unlock n) | .get (.returned n) => n
  | _ => 0

omit [DecidableEq ι] in
/-- The start of the batch in progress: until the caller has seen it, a batch call
does not move it. -/
theorem batchStart_getBatchTry (hi : Inv g s) {pc : GetBatchTry} (hc : s.consumer = .get pc)
    (hs : mpscQueueGetBatchTry g s pc = some s') :
    (∃ pc', s'.consumer = .get pc') ∧ s'.tail - s'.consumer.batched = s.tail - s.consumer.batched := by
  have hget := hi.get
  simp only [GetOk, hc] at hget
  rw [hc]
  cases pc with
  | returned => cases hs
  | loadHead | remHead | broadcast | unlock =>
    cases hs
    exact ⟨⟨_, rfl⟩, rfl⟩
  | loadTail m head =>
    simp only [mpscQueueGetBatchTry, loopTop, afterLoop] at hs
    split_ifs at hs <;> cases hs <;> exact ⟨⟨_, rfl⟩, rfl⟩
  | loadSeq m head tail n =>
    simp only [mpscQueueGetBatchTry, afterLoop] at hs
    split_ifs at hs <;> cases hs <;> exact ⟨⟨_, rfl⟩, rfl⟩
  | copy m head tail n =>
    simp only [mpscQueueGetBatchTry, loopTop, afterLoop] at hs
    cases hs
    refine ⟨⟨_, rfl⟩, ?_⟩
    split_ifs <;> rfl
  | storeTail tail n =>
    obtain ⟨rfl, -⟩ := hget
    cases hs
    exact ⟨⟨_, rfl⟩, Nat.add_sub_cancel ..⟩
  | postSlots n i =>
    cases hs
    refine ⟨⟨_, rfl⟩, ?_⟩
    show s.tail - (Consumer.get (if i ≤ 1 then .remHead n else .postSlots n (i - 1))).batched = _
    split_ifs <;> rfl
  | remTail n head =>
    simp only [mpscQueueGetBatchTry] at hs
    split_ifs at hs <;> cases hs <;> exact ⟨⟨_, rfl⟩, rfl⟩
  | lock n =>
    simp only [mpscQueueGetBatchTry] at hs
    split_ifs at hs
    cases hs
    exact ⟨⟨_, rfl⟩, rfl⟩

omit [DecidableEq ι] [Inhabited ρ] in
/-- Waiting leaves `tail`. -/
theorem tail_waitForItems {pc : WaitForItems} (hs : mpscQueueWaitForItems s pc = some s') :
    (∃ pc', s'.consumer = .wait pc') ∧ s'.tail = s.tail := by
  obtain ⟨parked, items, pc', rfl⟩ := waitForItems_eq hs
  exact ⟨⟨pc', rfl⟩, rfl⟩

/-! ### The counters -/

/-- The next operation of the call claims a position. -/
def TryPut.claims : TryPut ρ → Bool
  | .fetchAdd _ => true
  | _ => false

/-- Only the `fetch_add` of a producer moves `head`. -/
theorem head_step {a : Act ι ρ} (ha : ∀ t, a = .put t → (s.put t).claims = false)
    (hs : step g s a = some s') : s'.head = s.head := by
  cases a with
  | put t =>
    have hcl := ha t rfl
    simp only [step, mpscQueueTryPut] at hs
    cases hpc : s.put t <;> rw [hpc] at hcl <;> simp only [hpc] at hs <;> try split_ifs at hs
    all_goals first
      | cases hs; done
      | cases hcl; done
      | (cases hs; rfl)
  | giveUp t =>
    obtain ⟨r, pos, -, -, rfl⟩ := abandon_eq hs
    rfl
  | casMiss t =>
    obtain ⟨r, pos, ret, -, rfl⟩ := casMiss_eq hs
    rfl
  | call t r =>
    simp only [step] at hs
    split_ifs at hs
    cases hs
    rfl
  | callWait | callGet | consume | callClose | close | callWaitEmpty | waitEmpty | spurious =>
    exact (sameCalls_step rfl hs).head

/-- `tail` never falls. -/
theorem tail_le_step {a : Act ι ρ} (hi : Inv g s) (hs : step g s a = some s') :
    s.tail ≤ s'.tail := by
  by_cases ha : a.consumes = true
  · cases a with
    | callWait | callGet =>
      simp only [step] at hs
      split_ifs at hs
      cases hs
      exact le_rfl
    | consume =>
      rcases consume_cases hs with ⟨pc, hc, hs⟩ | ⟨pc, hc, hs⟩
      · exact (tail_waitForItems hs).2.ge
      · have hget := hi.get
        simp only [GetOk, hc] at hget
        cases pc <;> simp only [mpscQueueGetBatchTry] at hs <;> try split_ifs at hs
        all_goals first
          | cases hs; done
          | obtain rfl := Option.some.inj hs
        case storeTail => exact hget.1.ge.trans (Nat.le_add_right _ _)
        all_goals exact le_rfl
    | _ => cases ha
  · exact (sameConsumer_step (Bool.eq_false_iff.2 ha) hs).tail.ge

/-- `head` never falls. -/
theorem head_le_step {a : Act ι ρ} (hs : step g s a = some s') : s.head ≤ s'.head := by
  cases a with
  | call | put | giveUp | casMiss => exact (sameOthers_step rfl hs).head_le
  | callWait | callGet | consume | callClose | close | callWaitEmpty | waitEmpty | spurious =>
    exact (sameCalls_step rfl hs).head.ge

end Queue
end Clogx
