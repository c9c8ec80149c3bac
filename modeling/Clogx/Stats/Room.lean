/-
# Runs in which every message finds room

A call of `log_async_write_for` fails when `log_record_clone` has no memory, or
when `mpsc_queue_try_put` finds the queue full at one of its two tests: before it
claims a position, and again for the position it got.  If that never happens to a
message (`roomy`), no message is counted as dropped, and the statistics account
for every message.
-/

import Clogx.Stats.Account

namespace Clogx
namespace Queue

open SeqRing (Shape)

variable {ι ρ : Type*} [DecidableEq ι] [Inhabited ρ] {g : Shape} {s s' : State ι ρ}

/-- The call can only return `0` from here, as long as it finds room. -/
def TryPut.Succeeds : TryPut ρ → Prop
  | .poll _ _ _ | .writeTomb _ _ | .publishTomb _ _ => False
  | .signal _ _ ret | .post _ _ ret | .returned ret => ret = 0
  | _ => True

/-- The test for room that a thread is about to make succeeds. -/
def State.HasRoom (g : Shape) (s : State ι ρ) (t : ι) : Prop :=
  match s.put t with
  | .loadHead _ tailSnap => szSub s.head tailSnap < g.capacity
  | .recheck _ pos => szSub pos s.tail < g.capacity
  | _ => True

instance (s : State ι ρ) (t : ι) : Decidable (s.HasRoom g t) := by
  unfold State.HasRoom
  split <;> infer_instance

/-- **With room at both tests, and the queue open, a call goes on to succeed.** -/
theorem succeeds_step {a : Act ι ρ} {t : ι} (ha : a.inCall t) (hopen : s.closed = false)
    (hroom : a = .put t → s.HasRoom g t) (h : (s.put t).Succeeds) (hs : step g s a = some s') :
    (s'.put t).Succeeds := by
  rcases ha with rfl | rfl | rfl
  · have hroom := hroom rfl
    simp only [step, mpscQueueTryPut] at hs
    simp only [State.HasRoom] at hroom
    cases hpc : s.put t <;> rw [hpc] at h <;> simp only [hpc] at hs hroom
    case idle | returned => cases hs
    case poll | writeTomb | publishTomb => exact h.elim
    case loadClosed r =>
      rw [hopen, if_neg Bool.false_ne_true] at hs
      cases hs
      rw [setPut_put]
      trivial
    case loadHead r tailSnap =>
      rw [if_neg (by omega)] at hs
      cases hs
      rw [setPut_put]
      trivial
    case recheck r pos =>
      rw [if_neg (by omega)] at hs
      cases hs
      rw [setPut_put]
      trivial
    case signal r pos ret =>
      split_ifs at hs <;> cases hs
      · rw [setPut_put]
        exact h
      · rw [show (s.finish t r (some pos) ret).put t = .returned ret from Function.update_self ..]
        exact h
    case post r pos ret =>
      cases hs
      rw [show (State.finish { s with itemsSem := s.itemsSem + 1 } t r (some pos) ret).put t =
        .returned ret from Function.update_self ..]
      exact h
    all_goals
      cases hs
      rw [setPut_put]
      trivial
  · obtain ⟨r, pos, hpc, -, rfl⟩ := abandon_eq hs
    rw [hpc] at h
    exact h.elim
  · obtain ⟨r, pos, ret, hpc, rfl⟩ := casMiss_eq hs
    rw [hpc] at h
    rw [show (s.finish t r (some pos) ret).put t = .returned ret from Function.update_self ..]
    exact h

end Queue

namespace Async

open SeqRing (Shape)

variable {ι ρ : Type*} [DecidableEq ι] [Inhabited ρ] {g : Shape} {s s' : State ι ρ} {t u : ι}

/-- The call of thread `t` can only return `CLOG_OK` from here, as long as it finds room. -/
def State.Succeeds (s : State ι ρ) (t : ι) : Prop :=
  match s.write t with
  | .dispatch _ _ => False
  | .tryPut _ => (s.q.put t).Succeeds
  | _ => True

/-- A step of another thread leaves the call of `u` where it is. -/
theorem put_of_ne {a : Act ι ρ} (hg : Good g s) (hs : step g s a = some s')
    (hu : a.caller ≠ some u) : s'.q.put u = s.q.put u := by
  rcases (moves_step hs).queue with heq | ⟨b, hb, hal⟩
  · rw [heq]
  · have hin {t : ι} (hbt : b.inCall t) (ha : a.caller = some t) : s'.q.put u = s.q.put u := by
      obtain ⟨r, hr⟩ := Queue.record_of_inCall hbt hb
      exact (Queue.putStep_step hbt hg.queue.inv hr hb).other u fun heq => hu (heq ▸ ha)
    cases b with
    | put t => cases a <;> first | exact hal.elim | exact hin (.inl rfl) (by rw [hal]; rfl)
    | giveUp t => cases a <;> first | exact hal.elim | exact hin (.inr (.inl rfl)) (by rw [hal]; rfl)
    | casMiss t => cases a <;> first | exact hal.elim | exact hin (.inr (.inr rfl)) (by rw [hal]; rfl)
    | call t r =>
      have hut : u ≠ t := by
        rintro rfl
        cases a <;> first | exact hal.elim | exact hu (by rw [hal]; rfl)
      simp only [Queue.step] at hb
      split_ifs at hb
      rw [← Option.some.inj hb]
      exact Function.update_of_ne hut ..
    | _ => rw [(Queue.sameCalls_step rfl hb).put]

omit [Inhabited ρ] in
theorem succeeds_afterPut {c : Call ρ} {q : Queue.State ι (Call ρ)} (hw : s.write t = .tryPut c)
    (hq : (q.put t).Succeeds) : (afterPut s t c q).Succeeds t := by
  unfold afterPut
  split
  case h_1 ret hret =>
    rw [hret] at hq
    obtain rfl : ret = 0 := hq
    rw [if_neg (by simp)]
    simp only [State.Succeeds, setWrite_self]
  case h_2 =>
    simp only [State.Succeeds, hw]
    exact hq

/-- **A call that finds memory and room goes on to succeed.** -/
theorem State.Succeeds.step {a : Act ι ρ} (h : s.Succeeds t) (hset : s.queueSet = true)
    (hopen : s.q.closed = false) (ha : a.caller = some t) (hopens : a.opens = false)
    (hclone : a ≠ .cloneFails t) (hroom : a = .write t → s.q.HasRoom g t)
    (hs : Async.step g s a = some s') : s'.Succeeds t := by
  have hclear {pc : Write ρ} {q : Queue.State ι (Call ρ)} (hpc : (∃ c, pc = .clone c) ∨
      (∃ c, pc = .loadQueue c) ∨ ∃ c, pc = .tryPut c ∧ (q.put t).Succeeds) :
      ({ s with q := q }.setWrite t pc).Succeeds t := by
    simp only [State.Succeeds, setWrite_self]
    rcases hpc with ⟨c, rfl⟩ | ⟨c, rfl⟩ | ⟨c, rfl, hq⟩
    · trivial
    · trivial
    · exact hq
  cases a with
  | log => cases hopens
  | work | callShutdown | shutdown | callFlush | flush | spurious => cases ha
  | cloneFails u => exact absurd (congrArg _ (Option.some.inj ha)) hclone
  | write u =>
    obtain rfl := Option.some.inj ha
    simp only [Async.step, logAsyncWriteFor] at hs
    cases hw : s.write u with
    | idle => simp [hw] at hs
    | checkQueue c =>
      simp only [hw] at hs
      rw [if_pos hset] at hs
      obtain rfl := Option.some.inj hs
      exact hclear (.inl ⟨c, rfl⟩)
    | clone c =>
      simp only [hw] at hs
      obtain rfl := Option.some.inj hs
      exact hclear (.inr (.inl ⟨c, rfl⟩))
    | loadQueue c =>
      simp only [hw] at hs
      rw [if_pos hset] at hs
      obtain ⟨q, hq, rfl⟩ := Option.map_eq_some_iff.1 hs
      refine hclear (.inr (.inr ⟨c, rfl, ?_⟩))
      simp only [Queue.step] at hq
      split_ifs at hq
      rw [← Option.some.inj hq, Queue.setPut_put]
      trivial
    | tryPut c =>
      simp only [hw] at hs
      obtain ⟨q, hq, rfl⟩ := Option.map_eq_some_iff.1 hs
      simp only [State.Succeeds, hw] at h
      exact succeeds_afterPut hw
        (Queue.succeeds_step (.inl rfl) hopen (fun _ => hroom rfl) h hq)
    | dispatch c ret =>
      simp only [State.Succeeds, hw] at h
  | giveUp u =>
    cases ha
    obtain ⟨c, q, hw, hq, rfl⟩ := insidePut_cases hs
    simp only [State.Succeeds, hw] at h
    exact succeeds_afterPut hw (Queue.succeeds_step (.inr (.inl rfl)) hopen (fun hw => by cases hw) h hq)
  | casMiss u =>
    cases ha
    obtain ⟨c, q, hw, hq, rfl⟩ := insidePut_cases hs
    simp only [State.Succeeds, hw] at h
    exact succeeds_afterPut hw (Queue.succeeds_step (.inr (.inr rfl)) hopen (fun hw => by cases hw) h hq)

theorem closed_step {a : Act ι ρ} (hidle : s.shutdown = .idle) (hopen : s.q.closed = false)
    (hs : step g s a = some s') : s'.q.closed = false := by
  rcases (moves_step hs).queue with heq | ⟨b, hb, hal⟩
  · rw [heq, hopen]
  · rw [Queue.closed_of_ne_close (fun hclose => ?_) hb, hopen]
    subst hclose
    cases a <;> first | exact hal.elim | simp [step, logAsyncShutdownFor, hidle] at hs

end Async

namespace Stats

open SeqRing (Shape)
open Machine (Reach Reachable exists_of_run exists_of_runIf)

variable {ι ρ : Type*} [DecidableEq ι] [Inhabited ρ] {g : Shape} {cfg : Config} {s s' : State ι ρ}
  {t : ι}

/-- Is the thread in the call that writes its message? -/
def Pc.isInWrite : Pc ρ → Bool
  | .inWrite => true
  | _ => false

/-- The calls that write messages find memory for the clone, and room at both tests of
`mpsc_queue_try_put`. -/
def roomy (g : Shape) (s : State ι ρ) : Act ι ρ → Prop
  | .async (.cloneFails t) => (s.pc t).isInWrite = false
  | .async (.write t) => (s.pc t).isInWrite = true → s.async.q.HasRoom g t
  | _ => True

/-- Nothing has failed, and nothing is about to. -/
structure Clear (s : State ι ρ) : Prop where
  running : Async.FlushInv s.async
  opened : s.async.q.closed = false
  succeeds : ∀ t, s.pc t = .inWrite → s.async.Succeeds t
  uncounted : ∀ t, s.pc t ≠ .countDropped
  dropped : s.droppedQueueFull = 0

omit [Inhabited ρ] in
/-- A thread moves on the write path. -/
theorem Clear.move (h : Clear s) {pc : Pc ρ} (hpc : s'.pc = Function.update s.pc t pc)
    (hasync : s'.async = s.async) (hdropped : s'.droppedQueueFull = s.droppedQueueFull)
    (hin : pc ≠ .inWrite) (hcount : pc ≠ .countDropped) : Clear s' := by
  refine ⟨hasync ▸ h.running, hasync ▸ h.opened, fun u hu => ?_, fun u => ?_, hdropped ▸ h.dropped⟩
  · rw [hpc] at hu
    by_cases hut : u = t
    · subst hut
      rw [Function.update_self] at hu
      exact absurd hu hin
    · rw [Function.update_of_ne hut] at hu
      exact hasync ▸ h.succeeds u hu
  · rw [hpc]
    by_cases hut : u = t
    · subst hut
      rwa [Function.update_self]
    · rw [Function.update_of_ne hut]
      exact h.uncounted u

/-- **A step of the async path, with room, leaves nothing to count.** -/
theorem Clear.async (h : Clear s) (hg : Async.Good g s.async) {a : Async.Act ι (Rec ρ)}
    (hroom : roomy g s (.async a)) (hs : step cfg g s (.async a) = some s') : Clear s' := by
  obtain ⟨q, hq, hopen, hno, hcases⟩ := async_cases hs
  have hrunning : Async.FlushInv q := h.running.step hg hno hq
  have hclosed : q.q.closed = false := Async.closed_step h.running.shutdown h.opened hq
  -- the calls of threads that do not move
  have hstay (u : ι) (hu : a.caller ≠ some u) (hw : q.write u = s.async.write u)
      (hin : s.pc u = .inWrite) : q.Succeeds u := by
    have hsucc := h.succeeds u hin
    simp only [Async.State.Succeeds, hw, Async.put_of_ne hg hq hu] at hsucc ⊢
    exact hsucc
  rcases hcases with ⟨t, ht, rfl⟩ | ⟨hnone, rfl⟩
  · obtain ⟨c, hc, hother, hstep⟩ := Async.callStep_step hg ht hopen hq
    have hown (hin : s.pc t = .inWrite) : q.Succeeds t := by
      refine (h.succeeds t hin).step h.running.queueSet h.opened ht hopen ?_ ?_ hq
      · rintro rfl
        have hnot : (s.pc t).isInWrite = false := hroom
        rw [hin] at hnot
        cases hnot
      · rintro rfl
        exact hroom (by rw [hin]; rfl)
    obtain ⟨hasync, hdropped, hpc⟩ := afterAsync_frame s t q
    have hkeep (u : ι) (hin : s.pc u = .inWrite) : q.Succeeds u := by
      by_cases hut : u = t
      · subst hut
        exact hown hin
      · exact hstay u (by rw [ht]; simpa using Ne.symm hut) (hother u hut) hin
    -- the call returned `CLOG_OK`, if it returned
    have hret (hin : s.pc t = .inWrite) (hidle : q.write t = .idle) :
        lastRet q.events = some Async.Ret.ok := by
      cases hstep with
      | goesOn hc' _ => rw [hidle] at hc'; cases hc'
      | accepted _ he => simp [lastRet, he]
      | refused ret _ _ hw _ _ =>
        have hsucc := h.succeeds t hin
        simp only [Async.State.Succeeds, hw] at hsucc
    refine ⟨by rw [hasync]; exact hrunning, by rw [hasync]; exact hclosed, fun u hu => ?_,
      fun u => ?_, hdropped ▸ h.dropped⟩
    · rw [hasync]
      rcases hpc with hpc | ⟨r, hpc⟩ | ⟨-, -, hpc⟩ <;> rw [hpc] at hu
      · exact hkeep u hu
      all_goals
        by_cases hut : u = t
        · subst hut
          rw [Function.update_self] at hu
          first
            | cases hu
            | split_ifs at hu
        · rw [Function.update_of_ne hut] at hu
          exact hkeep u hu
    · rcases hpc with hpc | ⟨r, hpc⟩ | ⟨hin, hidle, hpc⟩ <;> rw [hpc]
      · exact h.uncounted u
      all_goals
        by_cases hut : u = t
        · subst hut
          rw [Function.update_self]
          first
            | simp [hret hin hidle]
            | simp
        · rw [Function.update_of_ne hut]
          exact h.uncounted u
  · exact ⟨hrunning, hclosed, fun u hu => hstay u (by rw [hnone]; simp)
      (congrFun ((Async.moves_step hq).write hnone).1 u) hu, h.uncounted, h.dropped⟩

/-- **Every step with room leaves nothing to count.** -/
theorem Clear.step {a : Act ι ρ} (h : Clear s) (hg : Async.Good g s.async) (hroom : roomy g s a)
    (hs : Stats.step cfg g s a = some s') : Clear s' := by
  cases a with
  | log t level r =>
    simp only [Stats.step] at hs
    split at hs
    · split_ifs at hs <;> cases hs
      · exact h
      · exact h.move rfl rfl rfl (by simp) (by simp)
    · cases hs
  | write t =>
    simp only [Stats.step, writePath] at hs
    -- a call of `log_async_write_for` starts
    have hlog {r : Rec ρ} {pc : Pc ρ} {q : Async.State ι (Rec ρ)} (hpc : pc ≠ .countDropped)
        (hq : Async.step g s.async (.log t r) = some q) :
        Clear ({ s with async := q }.setPc t pc) := by
      have hother := (log_cases hq).2.1
      have hno : Async.noShutdown s.async (.log t r) := trivial
      refine ⟨h.running.step hg hno hq, Async.closed_step h.running.shutdown h.opened hq,
        fun u hu => ?_, fun u => ?_, h.dropped⟩
      · by_cases hut : u = t
        · subst hut
          simp only [Async.step] at hq
          split at hq
          · rw [← Option.some.inj hq]
            simp only [Async.State.Succeeds, setPc_async, Async.setWrite_self]
          · cases hq
        · rw [setPc_of_ne _ hut] at hu
          have hsucc := h.succeeds u hu
          have hput := Async.put_of_ne hg hq (u := u) (by simpa [Async.Act.caller] using Ne.symm hut)
          simp only [Async.State.Succeeds, setPc_async, hother u hut, hput] at hsucc ⊢
          exact hsucc
      · by_cases hut : u = t
        · subst hut
          rwa [setPc_self]
        · rw [setPc_of_ne _ hut]
          exact h.uncounted u
    cases hpc : s.pc t with
    | countTotal r =>
      simp only [hpc] at hs
      cases hs
      exact h.move rfl rfl rfl (by simp) (by simp)
    | notice r n =>
      simp only [hpc] at hs
      split_ifs at hs
      · obtain ⟨q, hq, rfl⟩ := Option.map_eq_some_iff.1 hs
        exact hlog (by simp) hq
      · cases hs
        exact h.move rfl rfl rfl (by simp) (by simp)
    | write r =>
      simp only [hpc] at hs
      split_ifs at hs
      · obtain ⟨q, hq, rfl⟩ := Option.map_eq_some_iff.1 hs
        exact hlog (by simp) hq
      · cases hs
        exact h.move rfl rfl rfl (by simp) (by simp)
    | countDropped => exact absurd hpc (h.uncounted t)
    | idle | limit | inNotice | inWrite => simp [hpc] at hs
  | limit t token =>
    simp only [Stats.step] at hs
    split at hs
    case h_1 r hpc =>
      cases hs
      rcases askLimiter_cases cfg s t r token with ⟨rl, -, heq⟩ | ⟨rl, pc, -, heq, hnext⟩ <;>
        rw [heq]
      · exact h.move rfl rfl rfl (by simp) (by simp)
      · rcases hnext with ⟨n, rfl⟩ | rfl <;> exact h.move rfl rfl rfl (by simp) (by simp)
    case h_2 => cases hs
  | async b => exact h.async hg hroom hs

theorem clear_init (g : Shape) (junk : ℕ → Queue.Entry (Async.Call (Rec ρ))) :
    Clear (init g junk : State ι ρ) where
  running := Async.flushInv_reach (g := g) .refl
  opened := rfl
  succeeds _ := nofun
  uncounted _ := nofun
  dropped := rfl

/-- **The statistics account for every message** in every run in which the messages find room: with
no call in progress and the queue drained, the total is what was suppressed, dropped or
dispatched.  Whatever the run, it is what was suppressed or dispatched, so the account is right
exactly if nothing was counted as dropped. -/
theorem accounted_of_roomy [Fintype ι] (cfg : Config) (g : Shape)
    (junk : ℕ → Queue.Entry (Async.Call (Rec ρ))) (s : State ι ρ)
    (hquiet : s.Quiet) (hdrained : s.Drained) :
    (Reach (Stats.step cfg g) (roomy g) (init g junk) s → s.Accounted) ∧
    (Reachable (Stats.step cfg g) (init g junk) s → (s.Accounted ↔ s.droppedQueueFull = 0)) := by
  have hexact (h : Reachable (Stats.step cfg g) (init g junk) s) :
      s.Accounted ↔ s.droppedQueueFull = 0 := by
    have hacc := h.invariant (I := Accounts g) (accounts_init g junk) fun _ _ _ hi _ hs => hi.step hs
    have htotal := (hacc.inv.settled hacc.good hacc.returns hquiet hdrained).1
    rw [State.Accounted]
    omega
  refine ⟨fun h => (hexact h.any).2 ?_, hexact⟩
  have hclear := h.invariant (I := fun s => Accounts g s ∧ Clear s)
    ⟨accounts_init g junk, clear_init g junk⟩
    fun _ _ _ hi ha hs => ⟨hi.1.step hs, hi.2.step hi.1.good ha hs⟩
  exact hclear.2.dropped

instance (s : State ι ρ) : (a : Act ι ρ) → Decidable (roomy g s a)
  | .async (.cloneFails t) => inferInstanceAs (Decidable ((s.pc t).isInWrite = false))
  | .async (.write t) =>
    inferInstanceAs (Decidable ((s.pc t).isInWrite = true → s.async.q.HasRoom g t))
  | .log .. | .write _ | .limit .. | .async (.log ..) | .async (.giveUp _) | .async (.casMiss _)
  | .async .work | .async .callShutdown | .async .shutdown | .async .callFlush | .async .flush
  | .async .spurious => .isTrue trivial

/-- One thread, a queue of two slots. -/
def oneThread : State (Fin 1) ℕ := init (.ofPow 1) fun _ => Queue.tombstone

/-- Async, with the rate limiter. -/
def asyncConfig : Config := ⟨0, true, true⟩

/-- A message that the limiter lets pass, up to the call that writes it, and `n` steps of that. -/
def passing (r n : ℕ) : List (Act (Fin 1) ℕ) :=
  [.log 0 1 r, .write 0, .limit 0 true, .write 0] ++ List.replicate n (.async (.write 0))

/-- A message is written, the next is suppressed, the third comes with a notice. -/
def roomyTrace : List (Act (Fin 1) ℕ) :=
  List.flatten [passing 7 11, [.log 0 1 8, .write 0, .limit 0 false],
    List.replicate 22 (.async .work), passing 9 11, [.write 0],
    List.replicate 11 (.async (.write 0)), List.replicate 26 (.async .work)]

/-- All three messages and the notice are accounted for. -/
theorem accounted_of_roomy_notice : ∃ s, (s.Quiet ∧ s.Drained) ∧
    Reach (step asyncConfig (.ofPow 1)) (roomy (.ofPow 1)) oneThread s ∧
    s.totalLogged = 3 ∧ s.rl.totalSuppressed = 1 ∧ s.Accounted := by
  obtain ⟨s, hr, hquiet, hdrained, htotal, hsupp⟩ : ∃ s,
      Reach (step asyncConfig (.ofPow 1)) (roomy (.ofPow 1)) oneThread s ∧
      ((∀ t, s.pc t = .idle) ∧ (s.async.q.head = s.async.q.tail ∧ s.async.worker.busy = false) ∧
        s.totalLogged = 3 ∧ s.rl.totalSuppressed = 1) := by
    apply exists_of_runIf roomyTrace
    decide +kernel
  exact ⟨s, ⟨hquiet, hdrained⟩, hr, htotal, hsupp, (accounted_of_roomy asyncConfig (.ofPow 1)
    (fun _ => Queue.tombstone) s hquiet hdrained).1 hr⟩

/-- Three messages before the worker runs: the third finds the queue full. -/
def fullTrace : List (Act (Fin 1) ℕ) :=
  List.flatten [passing 7 11, passing 8 11, passing 9 7, [.write 0], List.replicate 26 (.async .work)]

/-- All three were dispatched, and one of them was counted as dropped too. -/
theorem message_counted_twice : ∃ s, Reachable (step asyncConfig (.ofPow 1)) oneThread s ∧
    s.Quiet ∧ s.Drained ∧ s.totalLogged = 3 ∧ s.rl.totalSuppressed = 0 ∧
    s.droppedQueueFull = 1 ∧ s.dispatched = 3 ∧ ¬ s.Accounted := by
  obtain ⟨s, hr, hquiet, hdrained, htotal, hsupp, hdrop, hdisp⟩ : ∃ s,
      Reachable (step asyncConfig (.ofPow 1)) oneThread s ∧
      ((∀ t, s.pc t = .idle) ∧ (s.async.q.head = s.async.q.tail ∧ s.async.worker.busy = false) ∧
        s.totalLogged = 3 ∧ s.rl.totalSuppressed = 0 ∧ s.droppedQueueFull = 1 ∧ s.dispatched = 3) := by
    apply exists_of_run fullTrace
    decide +kernel
  refine ⟨s, hr, hquiet, hdrained, htotal, hsupp, hdrop, hdisp, ?_⟩
  rw [State.Accounted]
  omega

end Stats
end Clogx
