/-
# Returned calls and dispatched records

A call of `log_async_write_for` returns once.  What its caller dispatches it
dispatches in the step in which it returns an error; what the queue accepts it
returns with `CLOG_OK`, or is still on its way to.  So once nobody is inside a
call, the ring is empty and the worker rests, the records dispatched are the
records of the calls that returned (`countP_dispatched`).
-/

import Clogx.Async.Flush
import Clogx.Async.Order

namespace Clogx
namespace Async

open SeqRing (Shape)
open Machine (Reach Reachable)

variable {ι ρ : Type*}

/-- The step starts a call. -/
def Act.opens : Act ι ρ → Bool
  | .log _ _ => true
  | _ => false

/-- The calls that returned `CLOG_OK`. -/
def okLog (l : List (Event ρ)) : List (Call ρ) :=
  l.filterMap fun
    | .wrote c .ok => some c
    | _ => none

/-- A record with property `P` was dispatched, by the worker or by its caller. -/
def Event.isDispatch (P : Call ρ → Bool) : Event ρ → Bool
  | .dispatched _ c => P c
  | _ => false

/-- A call with property `P` returned. -/
def Event.isReturn (P : Call ρ → Bool) : Event ρ → Bool
  | .wrote c _ => P c
  | _ => false

/-- A call with property `P` returned an error. -/
def Event.isFailure (P : Call ρ → Bool) : Event ρ → Bool
  | .wrote c ret => ret ≠ .ok && P c
  | _ => false

/-- A call with property `P` dispatched its record itself. -/
def Event.isFallback (P : Call ρ → Bool) : Event ρ → Bool
  | .dispatched false c => P c
  | _ => false

/-- The invariant of the returns. -/
structure ReturnsInv (s : State ι ρ) : Prop where
  nodup : (okLog s.events).Nodup
  accepted : ∀ p c, s.q.acceptedAt p = some c →
    c ∈ okLog s.events ∨ ∃ t, (s.write t).call = some c
  fallback : ∀ P, s.events.countP (Event.isFallback P) = s.events.countP (Event.isFailure P)

/-- **What a step of a call can do**: it goes on, or it returns `CLOG_OK`, or it dispatches the
record and returns an error. -/
inductive CallStep (s s' : State ι ρ) (t : ι) (c : Call ρ) : Prop
  | goesOn (hc : (s'.write t).call = some c) (he : s'.events = s.events)
  | accepted (hc : s'.write t = .idle) (he : s'.events = s.events ++ [.wrote c .ok])
  | refused (ret : Ret) (hret : ret ≠ .ok) (hq : s'.q = s.q) (hw : s.write t = .dispatch c ret)
      (hc : s'.write t = .idle) (he : s'.events = s.events ++ [.dispatched false c, .wrote c ret])

variable [DecidableEq ι] [Inhabited ρ] {g : Shape} {s s' : State ι ρ} {t : ι} {c : Call ρ}

omit [Inhabited ρ] in
/-- `mpsc_queue_try_put` goes on, or returns. -/
theorem callStep_afterPut (hw : s.write t = .tryPut c) (q : Queue.State ι (Call ρ)) :
    (∀ u, u ≠ t → (afterPut s t c q).write u = s.write u) ∧ CallStep s (afterPut s t c q) t c := by
  unfold afterPut
  split
  · split_ifs
    · exact ⟨fun u hu => setWrite_of_ne _ hu _, .goesOn (by rw [setWrite_self]; rfl) rfl⟩
    · exact ⟨fun u hu => setWrite_of_ne _ hu _, .accepted (setWrite_self ..) rfl⟩
  · exact ⟨fun _ _ => rfl, .goesOn (by rw [hw]; rfl) rfl⟩

theorem callStep_step {a : Act ι ρ} (hg : Good g s) (ha : a.caller = some t)
    (hopen : a.opens = false) (hs : step g s a = some s') :
    ∃ c, (s.write t).call = some c ∧ (∀ u, u ≠ t → s'.write u = s.write u) ∧ CallStep s s' t c := by
  have hmove {c : Call ρ} {pc : Write ρ} {q : Queue.State ι (Call ρ)} (hpc : pc.call = some c) :
      (∀ u, u ≠ t → ({ s with q := q }.setWrite t pc).write u = s.write u) ∧
        CallStep s ({ s with q := q }.setWrite t pc) t c :=
    ⟨fun u hu => setWrite_of_ne _ hu _, .goesOn (by rw [setWrite_self, hpc]) rfl⟩
  cases a with
  | log => cases hopen
  | work | callShutdown | shutdown | callFlush | flush | spurious => cases ha
  | write u =>
    obtain rfl := Option.some.inj ha
    simp only [step, logAsyncWriteFor] at hs
    cases hw : s.write u with
    | idle => simp [hw] at hs
    | checkQueue c =>
      simp only [hw] at hs
      split_ifs at hs <;> obtain rfl := Option.some.inj hs <;> exact ⟨c, rfl, hmove rfl⟩
    | clone c =>
      simp only [hw] at hs
      obtain rfl := Option.some.inj hs
      exact ⟨c, rfl, hmove rfl⟩
    | loadQueue c =>
      simp only [hw] at hs
      split_ifs at hs
      · obtain ⟨q, -, rfl⟩ := Option.map_eq_some_iff.1 hs
        exact ⟨c, rfl, hmove rfl⟩
      · obtain rfl := Option.some.inj hs
        exact ⟨c, rfl, hmove rfl⟩
    | tryPut c =>
      simp only [hw] at hs
      obtain ⟨q, -, rfl⟩ := Option.map_eq_some_iff.1 hs
      exact ⟨c, rfl, callStep_afterPut hw q⟩
    | dispatch c ret =>
      simp only [hw] at hs
      cases hs
      obtain ⟨-, hret, -⟩ : WriteOk s u (.dispatch c ret) := hw ▸ hg.calls.write u
      exact ⟨c, rfl, fun v hv => setWrite_of_ne _ hv _,
        .refused ret hret rfl hw (setWrite_self ..) rfl⟩
  | cloneFails u =>
    cases ha
    simp only [step, cloneFails] at hs
    split at hs
    case h_1 c hw =>
      cases hs
      exact ⟨c, by rw [hw]; rfl, hmove rfl⟩
    case h_2 => cases hs
  | giveUp u | casMiss u =>
    cases ha
    obtain ⟨c, q, hw, -, rfl⟩ := insidePut_cases hs
    exact ⟨c, by rw [hw]; rfl, callStep_afterPut hw q⟩

omit [DecidableEq ι] [Inhabited ρ] in
/-- A thread inside `mpsc_queue_try_put` is there for its open call. -/
theorem write_of_record (hc : CallsInv s) (hr : (s.q.put t).record = some c) :
    s.write t = .tryPut c := by
  have hin := Queue.TryPut.inside_of_record hr
  have hok := hc.write t
  cases hw : s.write t with
  | tryPut d =>
    rw [hw] at hok
    rw [Option.some.inj (hok.1.symm.trans hr)]
  | idle =>
    rw [hw] at hok
    rw [show (s.q.put t).inside = false from hok] at hin
    cases hin
  | checkQueue | clone | loadQueue | dispatch =>
    rw [hw] at hok
    rw [hok.1] at hin
    cases hin

/-- What is accepted was accepted before, or belongs to the call that moves. -/
theorem acceptedAt_back {a : Act ι ρ} (hg : Good g s) (hs : step g s a = some s') {p : ℕ}
    (hp : s'.q.acceptedAt p = some c) :
    s.q.acceptedAt p = some c ∨ ∃ t, a.caller = some t ∧ (s.write t).call = some c := by
  obtain ⟨u, hcl⟩ := claim_of_acceptedAt hp
  rcases (moves_step hs).queue with heq | ⟨b, hb, hal⟩
  · rw [heq] at hp
    exact .inl hp
  · have hin {t : ι} (hbt : b.inCall t) (ha : a.caller = some t) :
        s.q.acceptedAt p = some c ∨ ∃ t, a.caller = some t ∧ (s.write t).call = some c := by
      obtain ⟨r, hr⟩ := Queue.record_of_inCall hbt hb
      rcases (Queue.putStep_step hbt hg.queue.inv hr hb).claim p _ hcl with hold | ⟨-, rfl, -⟩
      · exact .inl (Queue.acceptedAt_of_claim hold)
      · exact .inr ⟨t, ha, by rw [write_of_record hg.calls hr]; rfl⟩
    cases b with
    | put t => cases a <;> first | exact hal.elim | exact hin (.inl rfl) (by rw [hal]; rfl)
    | giveUp t => cases a <;> first | exact hal.elim | exact hin (.inr (.inl rfl)) (by rw [hal]; rfl)
    | casMiss t => cases a <;> first | exact hal.elim | exact hin (.inr (.inr rfl)) (by rw [hal]; rfl)
    | call t r =>
      simp only [Queue.step] at hb
      split_ifs at hb
      rw [← Option.some.inj hb] at hcl
      exact .inl (Queue.acceptedAt_of_claim hcl)
    | _ =>
      rw [(Queue.sameCalls_step rfl hb).claim] at hcl
      exact .inl (Queue.acceptedAt_of_claim hcl)

omit [DecidableEq ι] [Inhabited ρ] in
theorem mem_okLog {l : List (Event ρ)} : c ∈ okLog l ↔ Event.wrote c .ok ∈ l := by
  refine List.mem_filterMap.trans ⟨?_, fun h => ⟨_, h, rfl⟩⟩
  rintro ⟨e, he, hc⟩
  split at hc
  · exact Option.some.inj hc ▸ he
  · cases hc

omit [DecidableEq ι] [Inhabited ρ] in
/-- Steps that are not the callers' leave the returns alone. -/
theorem ReturnsInv.beside (h : ReturnsInv s) (hacc : ∀ p c, s'.q.acceptedAt p = some c →
      s.q.acceptedAt p = some c) (hcall : ∀ t c, (s.write t).call = some c →
      (s'.write t).call = some c) {l : List (Event ρ)} (hl : s'.events = s.events ++ l)
    (hev : ∀ e ∈ l, e.ofCaller = false) : ReturnsInv s' := by
  have hok : okLog s'.events = okLog s.events := by
    have hnil : okLog l = [] := List.filterMap_eq_nil_iff.2 fun e he => by
      have := hev e he
      cases e <;> first | rfl | cases this
    rw [hl, okLog, List.filterMap_append]
    exact (congrArg _ hnil).trans (List.append_nil _)
  have hzero (f : Event ρ → Bool) (hf : ∀ e, e.ofCaller = false → f e = false) :
      s'.events.countP f = s.events.countP f := by
    have hnone : l.countP f = 0 := List.countP_eq_zero.2 fun e he => by simp [hf e (hev e he)]
    rw [hl, List.countP_append, hnone, Nat.add_zero]
  refine ⟨hok ▸ h.nodup, fun p c hp => ?_, fun P => ?_⟩
  · rw [hok]
    exact (h.accepted p c (hacc p c hp)).imp_right fun ⟨t, ht⟩ => ⟨t, hcall t c ht⟩
  · rw [hzero _ fun e he => ?_, hzero _ fun e he => ?_]
    · exact h.fallback P
    · cases e <;> first | rfl | cases he
    · cases e with
      | dispatched b c => cases b <;> first | rfl | cases he
      | _ => rfl

/-- **Every step keeps the account of the returns.** -/
theorem ReturnsInv.step {a : Act ι ρ} (h : ReturnsInv s) (hg : Good g s)
    (hs : Async.step g s a = some s') : ReturnsInv s' := by
  have hm := moves_step hs
  cases ha : a.caller with
  | none =>
    obtain ⟨l, hl, hev⟩ := hm.events
    refine h.beside (fun p c hp => ?_) (fun t c hc => by rwa [(hm.write ha).1]) hl fun e he => ?_
    · rcases acceptedAt_back hg hs hp with hold | ⟨t, ht, -⟩
      · exact hold
      · rw [ha] at ht
        cases ht
    · have := (hev e he).2
      rw [ha] at this
      exact Bool.eq_false_iff.2 fun hof => by cases this hof
  | some t =>
    cases hopen : a.opens with
    | true =>
      cases a with
      | log u r =>
        simp only [Async.step] at hs
        split at hs
        case h_1 hw =>
          cases hs
          refine h.beside (fun _ _ hp => hp) (fun v c hc => ?_) (List.append_nil _).symm
            fun e he => absurd he List.not_mem_nil
          have hv : v ≠ u := by
            rintro rfl
            rw [hw] at hc
            cases hc
          rwa [setWrite_of_ne _ hv]
        case h_2 => cases hs
      | _ => cases hopen
    | false =>
      obtain ⟨c, hc, hother, hstep⟩ := callStep_step hg ha hopen hs
      -- a record accepted before or by this call: its call is open, or has returned
      have hacc (p : ℕ) (d : Call ρ) (hp : s'.q.acceptedAt p = some d) :
          d ∈ okLog s.events ∨ d = c ∨ ∃ u, u ≠ t ∧ (s'.write u).call = some d := by
        have hback : d ∈ okLog s.events ∨ ∃ u, (s.write u).call = some d := by
          rcases acceptedAt_back hg hs hp with hold | ⟨u, -, hu⟩
          · exact h.accepted p d hold
          · exact .inr ⟨u, hu⟩
        rcases hback with hold | ⟨u, hu⟩
        · exact .inl hold
        · by_cases hut : u = t
          · subst hut
            exact .inr (.inl (Option.some.inj (hu.symm.trans hc)))
          · exact .inr (.inr ⟨u, hut, by rwa [hother u hut]⟩)
      cases hstep with
      | goesOn hc' he =>
        refine ⟨he ▸ h.nodup, fun p d hp => ?_, fun P => by rw [he]; exact h.fallback P⟩
        rcases hacc p d hp with hold | rfl | ⟨u, -, hu⟩
        · exact .inl (he ▸ hold)
        · exact .inr ⟨t, hc'⟩
        · exact .inr ⟨u, hu⟩
      | accepted hc' he =>
        have hok : okLog s'.events = okLog s.events ++ [c] := by
          rw [he, okLog, List.filterMap_append]
          rfl
        refine ⟨?_, fun p d hp => ?_, fun P => ?_⟩
        · rw [hok, List.nodup_append_comm]
          refine List.nodup_cons.2 ⟨fun hmem => ?_, h.nodup⟩
          exact (hg.calls.closed c .ok (mem_okLog.1 hmem)).2 t c hc rfl
        · rw [hok]
          rcases hacc p d hp with hold | rfl | ⟨u, -, hu⟩
          · exact .inl (List.mem_append_left _ hold)
          · exact .inl (List.mem_append_right _ (List.mem_singleton_self _))
          · exact .inr ⟨u, hu⟩
        · rw [he, List.countP_append, List.countP_append, h.fallback P]
          rfl
      | refused ret hret hq hw hc' he =>
        have hok : okLog s'.events = okLog s.events := by
          rw [he, okLog, List.filterMap_append]
          refine (congrArg _ ?_).trans (List.append_nil _)
          cases ret <;> first | exact absurd rfl hret | rfl
        obtain ⟨-, -, hlost, -⟩ : WriteOk s t (.dispatch c ret) := hw ▸ hg.calls.write t
        refine ⟨hok ▸ h.nodup, fun p d hp => ?_, fun P => ?_⟩
        · rw [hok]
          rcases hacc p d hp with hold | rfl | ⟨u, -, hu⟩
          · exact .inl hold
          · rw [hq] at hp
            obtain ⟨v, hcl⟩ := claim_of_acceptedAt hp
            rcases hlost p _ hcl rfl with hf | hf <;> cases hf
          · exact .inr ⟨u, hu⟩
        · rw [he, List.countP_append, List.countP_append, h.fallback P]
          cases hP : P c <;> simp [Event.isFallback, Event.isFailure, hret, hP]

omit [DecidableEq ι] [Inhabited ρ] in
theorem countP_isDispatch (P : Call ρ → Bool) (l : List (Event ρ)) :
    l.countP (Event.isDispatch P) = (workerLog l).countP P + l.countP (Event.isFallback P) := by
  rw [workerLog, List.countP_filterMap]
  induction l with
  | nil => rfl
  | cons e l ih =>
    rw [List.countP_cons, List.countP_cons, List.countP_cons, ih]
    cases e with
    | dispatched b c =>
      cases b <;> cases hP : P c <;>
        simp [Event.isDispatch, Event.isFallback, hP, Nat.add_assoc, Nat.add_comm 1]
    | _ => simp [Event.isDispatch, Event.isFallback]

omit [DecidableEq ι] [Inhabited ρ] in
theorem countP_isReturn (P : Call ρ → Bool) (l : List (Event ρ)) :
    l.countP (Event.isReturn P) = (okLog l).countP P + l.countP (Event.isFailure P) := by
  rw [okLog, List.countP_filterMap]
  induction l with
  | nil => rfl
  | cons e l ih =>
    rw [List.countP_cons, List.countP_cons, List.countP_cons, ih]
    cases e with
    | wrote c ret =>
      cases ret <;> cases hP : P c <;>
        simp [Event.isReturn, Event.isFailure, hP, Nat.add_assoc, Nat.add_comm 1]
    | _ => simp [Event.isReturn, Event.isFailure]

omit [DecidableEq ι] in
/-- **With nobody in a call, the ring empty and the worker at rest, what was dispatched is what was
logged:** as many records of any kind were dispatched as calls with such records returned. -/
theorem countP_dispatched (hg : Good g s) (hr : ReturnsInv s) (hquiet : ∀ t, (s.write t).call = none)
    (hempty : s.q.head = s.q.tail) (hrest : s.worker.busy = false) (P : Call ρ → Bool) :
    s.events.countP (Event.isDispatch P) = s.events.countP (Event.isReturn P) := by
  have hlog := hg.worker.log
  rw [upTo_of_idle hrest] at hlog
  have hnodup : (workerLog s.events).Nodup := by
    rw [hlog]
    refine List.nodup_range.filterMap fun p p' c hp hp' => ?_
    obtain ⟨u, hcl⟩ := claim_of_acceptedAt hp
    obtain ⟨u', hcl'⟩ := claim_of_acceptedAt hp'
    exact hg.calls.inj p p' _ _ hcl hcl' rfl
  have hperm : (workerLog s.events).Perm (okLog s.events) := by
    refine (List.perm_ext_iff_of_nodup hnodup hr.nodup).2 fun c => ⟨fun hc => ?_, fun hc => ?_⟩
    · obtain ⟨p, hp⟩ := hg.worker.accepted_of_mem (mem_workerLog.1 hc)
      rcases hr.accepted p c hp with hok | ⟨t, ht⟩
      · exact hok
      · rw [hquiet t] at ht
        cases ht
    · obtain ⟨⟨p, hp⟩, -⟩ : WroteOk s c .ok := hg.calls.wrote c .ok (mem_okLog.1 hc)
      obtain ⟨u, hcl⟩ := claim_of_acceptedAt hp
      have hlt := (hg.queue.inv.claimed p).1 (by rw [hcl]; rfl)
      rw [hlog]
      exact List.mem_filterMap.2 ⟨p, List.mem_range.2 (hempty ▸ hlt), hp⟩
  rw [countP_isDispatch, countP_isReturn, hr.fallback P, hperm.countP_eq P]

end Async
end Clogx
