/-
# The ledger of the sinks

Every sink of `Dispatcher.Lifetime` is at every moment in one place: in the array,
in the hands of a thread, with the application, destroyed, or lost.  That is one
equation between counts (`Inv.ledger`), and each step moves one sink.  While
`log_dispatcher_destroy_for` runs, the array still has sinks that are destroyed:
they stand on both sides.

From the equation follow the two results.  A sink that somebody has is not
destroyed, so none is used after its `destroy` or destroyed again
(`destroyed_sink_never_used`); and where nothing is lost, the sinks that were made
are those that somebody has and those that are destroyed (`every_sink_accounted`).
-/

import Clogx.Dispatcher.Lifetime
import Clogx.Machine.Mutex

namespace Clogx
namespace Dispatcher

open Machine

variable {ι ρ σ ω : Type*} [DecidableEq ι] [DecidableEq σ]

/-- Between a lock and its unlock. -/
def Pc.inside : Pc ρ σ → Bool
  | .dispatchLoop .. | .flushLoop _ | .addRealloc _ | .removeLoop _ | .commitSwap _
  | .commitUnlock _ | .destroyLoop .. | .installMalloc _ | .installFails _ | .unlock => true
  | _ => false

/-- The sinks in the hands of a thread. -/
def Pc.hands : Pc ρ σ → List σ
  | .addLock sink | .addRealloc sink => [sink]
  | .commitLock sinks | .commitSwap sinks | .commitUnlock sinks | .destroyEach sinks
  | .destroyLock sinks | .destroyLoop _ sinks | .installLock sinks | .installMalloc sinks
  | .installFails sinks => sinks
  | _ => []

/-- How many sinks of the array the thread has destroyed in place. -/
def Pc.gone : Pc ρ σ → ℕ
  | .destroyLoop i _ => i
  | _ => 0

/-- The sinks of the array that are destroyed already. -/
def State.doomed (s : State ι ρ σ ω) : List σ :=
  match s.mutex with
  | none => []
  | some t => s.sinks.take (s.pc t).gone

/-- **Every sink is in one place.** -/
structure Inv [Fintype ι] (s : State ι ρ σ ω) : Prop where
  exclusive : Exclusive Pc.inside s.mutex s.pc
  nodup : s.made.Nodup
  ledger : ∀ sink, s.made.count sink + s.doomed.count sink =
    s.sinks.count sink + ∑ t, (s.pc t).hands.count sink + s.destroyed.count sink +
      s.owned.count sink + s.lost.count sink
  sound : s.fault = false

section Steps

variable {s s' : State ι ρ σ ω} {t : ι} {p q : Pc ρ σ} {sink : σ}

omit [DecidableEq ι] [DecidableEq σ] in
theorem doomed_of_free (h : s.mutex = none) : s.doomed = [] := by
  rw [State.doomed, h]

omit [DecidableEq ι] [DecidableEq σ] in
theorem doomed_of_holder (h : s.mutex = some t) : s.doomed = s.sinks.take (s.pc t).gone := by
  rw [State.doomed, h]

omit [DecidableEq ι] in
theorem count_doomed_le (s : State ι ρ σ ω) (sink : σ) :
    s.doomed.count sink ≤ s.sinks.count sink := by
  rw [State.doomed]
  split
  · exact Nat.zero_le _
  · exact (List.take_sublist _ _).count_le _

omit [DecidableEq σ] in
/-- The part of the array destroyed in place stays where a thread only moves. -/
theorem doomed_move (hpc : s'.pc = Function.update s.pc t p) (hmutex : s'.mutex = s.mutex)
    (hsinks : s'.sinks = s.sinks) (hgone : p.gone = (s.pc t).gone) : s'.doomed = s.doomed := by
  rw [State.doomed, State.doomed, hmutex, hsinks, hpc]
  cases s.mutex with
  | none => rfl
  | some u =>
    rcases eq_or_ne u t with rfl | hne
    · simp only [Function.update_self, hgone]
    · simp only [Function.update_of_ne hne]

variable [Fintype ι]

/-- **The rule for a step of a thread:** what the account of the shared lists loses, the hands of
the thread gain. -/
theorem Inv.of_balance (h : Inv s) (hpc : s'.pc = Function.update s.pc t p)
    (hexcl : Exclusive Pc.inside s'.mutex s'.pc) (hnodup : s'.made.Nodup)
    (hsound : s'.fault = false)
    (hbal : ∀ sink, s'.made.count sink + s'.doomed.count sink + s.sinks.count sink +
        (s.pc t).hands.count sink + s.destroyed.count sink + s.owned.count sink +
        s.lost.count sink =
      s.made.count sink + s.doomed.count sink + s'.sinks.count sink + p.hands.count sink +
        s'.destroyed.count sink + s'.owned.count sink + s'.lost.count sink) : Inv s' where
  exclusive := hexcl
  nodup := hnodup
  sound := hsound
  ledger sink := by
    have hsum := sum_update (fun p => p.hands.count sink) s.pc t p
    have hbal := hbal sink
    have hledger := h.ledger sink
    rw [hpc]
    omega

omit [DecidableEq ι] in
/-- **A sink that somebody has is alive:** it is in the array and not destroyed in place, or in the
hands of a thread, or the application's. -/
theorem Inv.notMem_destroyed (h : Inv s)
    (hsink : s.doomed.count sink <
      s.sinks.count sink + ∑ t, (s.pc t).hands.count sink + s.owned.count sink) :
    sink ∉ s.destroyed := by
  intro hmem
  have hpos := List.count_pos_iff.2 hmem
  have hone := List.nodup_iff_count_le_one.1 h.nodup sink
  have hledger := h.ledger sink
  omega

omit [DecidableEq ι] in
theorem Inv.notMem_of_hands (h : Inv s) (hsink : sink ∈ (s.pc t).hands) : sink ∉ s.destroyed := by
  have hhand := List.count_pos_iff.2 hsink
  have hsum := le_sum (fun p => List.count sink (Pc.hands p)) s.pc t
  have hle := count_doomed_le s sink
  exact h.notMem_destroyed (by omega)

omit [DecidableEq ι] in
theorem Inv.notMem_of_owned (h : Inv s) (hsink : sink ∈ s.owned) : sink ∉ s.destroyed := by
  have howned := List.count_pos_iff.2 hsink
  have hle := count_doomed_le s sink
  exact h.notMem_destroyed (by omega)

omit [DecidableEq ι] in
/-- The holder of the mutex finds a live sink at every place it has not destroyed. -/
theorem Inv.notMem_of_getElem? (h : Inv s) (ht : s.mutex = some t) {i : ℕ}
    (hi : s.sinks[i]? = some sink) (hgone : (s.pc t).gone ≤ i) : sink ∉ s.destroyed := by
  apply h.notMem_destroyed
  obtain ⟨hlt, hget⟩ := List.getElem?_eq_some_iff.1 hi
  have hmem : sink ∈ s.sinks.drop (s.pc t).gone := by
    rw [← hget]
    exact List.mem_iff_getElem.2 ⟨i - (s.pc t).gone, by rw [List.length_drop]; omega, by
      rw [List.getElem_drop]; congr 1; omega⟩
  have hpos := List.count_pos_iff.2 hmem
  have hsplit : s.sinks.count sink =
      (s.sinks.take (s.pc t).gone).count sink + (s.sinks.drop (s.pc t).gone).count sink := by
    rw [← List.count_append, List.take_append_drop]
  rw [doomed_of_holder ht]
  omega

/-- A lock. -/
theorem Inv.lock (h : Inv s) (hq : s.pc t = q) (hs : s.lock t p = some s') (hp : p.inside = true)
    (hgone : p.gone = 0) (hhands : p.hands = q.hands) : Inv s' := by
  rw [State.lock] at hs
  split_ifs at hs with hfree
  cases hs
  have hexcl := h.exclusive
  rw [hfree] at hexcl
  refine h.of_balance rfl (hexcl.lock hp) h.nodup h.sound fun sink => ?_
  have hdoomed : ({ s with mutex := some t }.goto t p).doomed = [] := by
    rw [doomed_of_holder rfl]
    simp [State.goto, hgone]
  rw [hdoomed, doomed_of_free hfree, hhands, hq]
  rfl

/-- An unlock. -/
theorem Inv.unlock (h : Inv s) (hq : s.pc t = q) (hin : q.inside = true) (hgone : q.gone = 0)
    (hp : p.inside = false) (hhands : p.hands = q.hands) : Inv (s.unlock t p) := by
  have ht : (s.pc t).inside = true := hq ▸ hin
  refine h.of_balance rfl (h.exclusive.unlock ht hp) h.nodup h.sound fun sink => ?_
  rw [doomed_of_free rfl, doomed_of_holder (h.exclusive.holder ht), hq, hgone, hhands]
  rfl

/-- A step that leaves the mutex and the array alone. -/
theorem Inv.move (h : Inv s) (hq : s.pc t = q) (hpc : s'.pc = Function.update s.pc t p)
    (hmutex : s'.mutex = s.mutex) (hsinks : s'.sinks = s.sinks) (hp : p.inside = q.inside)
    (hgone : p.gone = q.gone) (hnodup : s'.made.Nodup) (hsound : s'.fault = false)
    (hbal : ∀ sink, s'.made.count sink + q.hands.count sink + s.destroyed.count sink +
        s.owned.count sink + s.lost.count sink =
      s.made.count sink + p.hands.count sink + s'.destroyed.count sink + s'.owned.count sink +
        s'.lost.count sink) : Inv s' := by
  subst hq
  have hexcl : Exclusive Pc.inside s'.mutex s'.pc := by
    rw [hmutex, hpc]
    exact h.exclusive.move hp
  refine h.of_balance hpc hexcl hnodup hsound fun sink => ?_
  have hbal := hbal sink
  rw [doomed_move hpc hmutex hsinks hgone, hsinks]
  omega

/-- The holder of the mutex changes the array. -/
theorem Inv.swap (h : Inv s) (hq : s.pc t = q) (hpc : s'.pc = Function.update s.pc t p)
    (hmutex : s'.mutex = s.mutex) (hin : q.inside = true) (hgone : q.gone = 0)
    (hp : p.inside = true) (hgone' : p.gone = 0) (hmade : s'.made = s.made)
    (hsound : s'.fault = false)
    (hbal : ∀ sink, s.sinks.count sink + q.hands.count sink + s.destroyed.count sink +
        s.owned.count sink + s.lost.count sink =
      s'.sinks.count sink + p.hands.count sink + s'.destroyed.count sink + s'.owned.count sink +
        s'.lost.count sink) : Inv s' := by
  subst hq
  have hexcl : Exclusive Pc.inside s'.mutex s'.pc := by
    rw [hmutex, hpc]
    exact h.exclusive.move (hp.trans hin.symm)
  have hholder := h.exclusive.holder hin
  have hdoomed : s.doomed = [] := by rw [doomed_of_holder hholder, hgone, List.take_zero]
  have hdoomed' : s'.doomed = [] := by
    rw [doomed_of_holder (hmutex.trans hholder), hpc, Function.update_self, hgone', List.take_zero]
  refine h.of_balance hpc hexcl (hmade ▸ h.nodup) hsound fun sink => ?_
  have hbal := hbal sink
  rw [hdoomed, hdoomed', hmade]
  omega

omit [DecidableEq ι] in
/-- A live sink is used. -/
theorem Inv.fault_use (h : Inv s) (hsink : sink ∉ s.destroyed) : (s.use sink).fault = false := by
  simp [State.use, h.sound, hsink]

/-- A thread goes on. -/
theorem Inv.goto (h : Inv s) (hq : s.pc t = q) (hp : p.inside = q.inside) (hgone : p.gone = q.gone)
    (hhands : p.hands = q.hands) : Inv (s.goto t p) :=
  h.move hq rfl rfl rfl hp hgone h.nodup h.sound fun sink => by rw [hhands]; rfl

/-- The holder of the mutex uses a sink of the array and goes on. -/
theorem Inv.use (h : Inv s) (hq : s.pc t = q) {i : ℕ} (hi : s.sinks[i]? = some sink)
    (hin : q.inside = true) (hgone : q.gone = 0) (hp : p.inside = true) (hgone' : p.gone = 0)
    (hhands : p.hands = q.hands) : Inv ((s.use sink).goto t p) := by
  have hholder := h.exclusive.holder (t := t) (hq ▸ hin)
  have hlive := h.notMem_of_getElem? hholder hi (by rw [hq]; omega)
  refine h.move hq rfl rfl rfl (hp.trans hin.symm) (hgone'.trans hgone.symm) h.nodup
    (h.fault_use hlive) fun other => ?_
  rw [hhands]
  rfl

/-- A thread destroys the first sink it has in its hands. -/
theorem Inv.destroySink (h : Inv s) (hq : s.pc t = q) (hp : p.inside = q.inside)
    (hgone : p.gone = q.gone) (hhands : q.hands = sink :: p.hands) :
    Inv ((s.destroySink sink).goto t p) := by
  have hlive := h.notMem_of_hands (t := t) (by rw [hq, hhands]; exact List.mem_cons_self)
  refine h.move hq rfl rfl rfl hp hgone h.nodup (h.fault_use hlive) fun other => ?_
  simp only [State.goto, State.destroySink, State.use, hhands, List.count_append, List.count_cons,
    List.count_nil]
  omega

/-- The loop of `log_dispatcher_destroy_for`: one more sink of the array is destroyed in place. -/
theorem Inv.destroyLoop (h : Inv s) {i : ℕ} {next : List σ} (hq : s.pc t = .destroyLoop i next)
    (hi : s.sinks[i]? = some sink) :
    Inv ((s.destroySink sink).goto t (.destroyLoop (i + 1) next)) := by
  have hholder := h.exclusive.holder (t := t) (by rw [hq]; rfl)
  have hlive := h.notMem_of_getElem? hholder hi (by rw [hq]; exact Nat.le_refl i)
  have hexcl := h.exclusive.move (t := t) (p := .destroyLoop (i + 1) next) (by rw [hq]; rfl)
  refine h.of_balance rfl hexcl h.nodup (h.fault_use hlive) fun other => ?_
  have hdoomed : ((s.destroySink sink).goto t (.destroyLoop (i + 1) next)).doomed =
      s.doomed ++ [sink] := by
    rw [doomed_of_holder hholder, hq, doomed_of_holder (t := t) (by exact hholder)]
    simp [State.goto, Pc.gone, State.destroySink, State.use, List.take_add_one, hi]
  rw [hdoomed, hq]
  simp only [State.goto, State.destroySink, State.use, List.count_append, Pc.hands]
  omega

/-- Its end, where all of them are. -/
theorem Inv.destroyEnd (h : Inv s) {i : ℕ} {next : List σ} (hq : s.pc t = .destroyLoop i next)
    (hi : s.sinks[i]? = none) (hp : p.inside = false) (hhands : p.hands = next) :
    Inv ({ s with sinks := [] }.unlock t p) := by
  have ht : (s.pc t).inside = true := by rw [hq]; rfl
  refine h.of_balance rfl (h.exclusive.unlock ht hp) h.nodup h.sound fun other => ?_
  have hdoomed : s.doomed = s.sinks := by
    rw [doomed_of_holder (h.exclusive.holder ht), hq]
    exact List.take_of_length_le (List.getElem?_eq_none_iff.1 hi)
  rw [hdoomed, doomed_of_free rfl, hq, hhands]
  simp only [State.unlock, State.goto, Pc.hands, List.count_nil]
  omega

variable {chunks : ρ → σ → List ω} {ok : Bool}

/-- **A step of a thread keeps the ledger.** -/
theorem Inv.threadStep (h : Inv s)
    (hkeep : (s.pc t).installs = true → ok = false → s.sinks = [])
    (hs : threadStep chunks s t ok = some s') : Inv s' := by
  cases hq : s.pc t with
  | idle => simp [Dispatcher.threadStep, hq] at hs
  | dispatchLock record =>
    simp only [Dispatcher.threadStep, hq] at hs
    have h' : Inv { s with rounds := s.rounds ++ [(record, s.sinks)] } :=
      ⟨h.exclusive, h.nodup, h.ledger, h.sound⟩
    exact h'.lock hq hs rfl rfl rfl
  | dispatchLoop record i j =>
    simp only [Dispatcher.threadStep, hq] at hs
    split at hs
    · cases hs
      exact h.unlock hq rfl rfl rfl rfl
    · rename_i sink hi
      split at hs
      · cases hs
        exact h.goto hq rfl rfl rfl
      · cases hs
        have h' := h.use (p := .dispatchLoop record i (j + 1)) hq hi rfl rfl rfl rfl rfl
        exact ⟨h'.exclusive, h'.nodup, h'.ledger, h'.sound⟩
  | flushLock =>
    simp only [Dispatcher.threadStep, hq] at hs
    exact h.lock hq hs rfl rfl rfl
  | flushLoop i =>
    simp only [Dispatcher.threadStep, hq] at hs
    split at hs
    · cases hs
      exact h.unlock hq rfl rfl rfl rfl
    · rename_i sink hi
      cases hs
      exact h.use hq hi rfl rfl rfl rfl rfl
  | addLock sink =>
    simp only [Dispatcher.threadStep, hq] at hs
    exact h.lock hq hs rfl rfl rfl
  | addRealloc sink =>
    simp only [Dispatcher.threadStep, hq] at hs
    -- the sink goes to the array, or stays the application's
    split at hs
    all_goals
      cases hs
      refine h.swap hq rfl rfl rfl rfl rfl rfl rfl h.sound fun other => ?_
      simp only [State.goto, Pc.hands, List.count_append, List.count_nil]
      omega
  | removeLock sink =>
    simp only [Dispatcher.threadStep, hq] at hs
    exact h.lock hq hs rfl rfl rfl
  | removeLoop sink =>
    simp only [Dispatcher.threadStep, hq] at hs
    split at hs
    · rename_i hmem
      cases hs
      refine h.swap hq rfl rfl rfl rfl rfl rfl rfl h.sound fun other => ?_
      have hcount := (List.perm_cons_erase hmem).count_eq other
      simp only [State.goto, Pc.hands, List.count_append, List.count_cons,
        List.count_nil] at hcount ⊢
      omega
    · cases hs
      exact h.goto hq rfl rfl rfl
  | commitLock snap =>
    simp only [Dispatcher.threadStep, hq] at hs
    exact h.lock hq hs rfl rfl rfl
  | commitSwap snap =>
    simp only [Dispatcher.threadStep, hq] at hs
    cases hs
    refine h.swap hq rfl rfl rfl rfl rfl rfl rfl h.sound fun other => ?_
    simp only [State.goto, Pc.hands]
    omega
  | commitUnlock old =>
    simp only [Dispatcher.threadStep, hq] at hs
    cases hs
    exact h.unlock hq rfl rfl rfl rfl
  | destroyEach sinks =>
    cases sinks with
    | nil =>
      simp only [Dispatcher.threadStep, hq] at hs
      cases hs
      exact h.goto hq rfl rfl rfl
    | cons sink sinks =>
      simp only [Dispatcher.threadStep, hq] at hs
      cases hs
      exact h.destroySink hq rfl rfl rfl
  | destroyLock next =>
    simp only [Dispatcher.threadStep, hq] at hs
    exact h.lock hq hs rfl rfl rfl
  | destroyLoop i next =>
    simp only [Dispatcher.threadStep, hq] at hs
    split at hs
    · rename_i hi
      cases hs
      refine h.destroyEnd hq hi ?_ ?_
      · split_ifs <;> rfl
      · split_ifs with hnext
        · exact hnext.symm
        · rfl
    · rename_i sink hi
      cases hs
      exact h.destroyLoop hq hi
  | installLock sinks =>
    simp only [Dispatcher.threadStep, hq] at hs
    exact h.lock hq hs rfl rfl rfl
  | installMalloc sinks =>
    simp only [Dispatcher.threadStep, hq] at hs
    split at hs
    · cases hs
      refine h.swap hq rfl rfl rfl rfl rfl rfl rfl h.sound fun other => ?_
      simp only [State.goto, Pc.hands, List.count_append, List.count_nil]
      omega
    · rename_i hok
      cases hs
      have hempty := hkeep (by rw [hq]; rfl) (Bool.not_eq_true _ ▸ hok)
      have hsound : (s.fault || decide (s.sinks ≠ [])) = false := by simp [h.sound, hempty]
      refine h.swap hq rfl rfl rfl rfl rfl rfl rfl hsound fun other => ?_
      simp only [State.goto, Pc.hands, List.count_append, List.count_nil]
      omega
  | installFails sinks =>
    cases sinks with
    | nil =>
      simp only [Dispatcher.threadStep, hq] at hs
      cases hs
      exact h.unlock hq rfl rfl rfl rfl
    | cons sink sinks =>
      simp only [Dispatcher.threadStep, hq] at hs
      cases hs
      exact h.destroySink hq rfl rfl rfl
  | unlock =>
    simp only [Dispatcher.threadStep, hq] at hs
    cases hs
    exact h.unlock hq rfl rfl rfl rfl

/-- A call begins. -/
theorem Inv.begin {made owned lost : List σ} (h : Inv s)
    (hs : begin { s with made := made, owned := owned, lost := lost } t p = some s')
    (hp : p.inside = false) (hgone : p.gone = 0) (hnodup : made.Nodup)
    (hbal : ∀ sink, made.count sink + s.owned.count sink + s.lost.count sink =
      s.made.count sink + p.hands.count sink + owned.count sink + lost.count sink) : Inv s' := by
  unfold Dispatcher.begin at hs
  split at hs
  · rename_i hq
    cases hs
    refine h.move hq rfl rfl rfl hp hgone hnodup h.sound fun sink => ?_
    have hbal := hbal sink
    have hidle : (Pc.idle : Pc ρ σ).hands.count sink = 0 := rfl
    dsimp only [State.goto]
    omega
  · cases hs

/-- **Every step keeps the ledger.** -/
theorem Inv.step (h : Inv s) {a : Act ι ρ σ} (hkeep : Keeps s a)
    (hs : step chunks s a = some s') : Inv s' := by
  cases a with
  | dispatch t record => exact h.begin hs rfl rfl h.nodup fun _ => rfl
  | flush t => exact h.begin hs rfl rfl h.nodup fun _ => rfl
  | addSink t sink =>
    refine h.begin hs rfl rfl h.nodup fun other => ?_
    have hcount := (List.perm_cons_erase hkeep).count_eq other
    simp only [Pc.hands, List.count_cons, List.count_nil] at hcount ⊢
    omega
  | removeSink t sink => exact h.begin hs rfl rfl h.nodup fun _ => rfl
  | reload t sinks ok =>
    simp only [Dispatcher.step] at hs
    split at hs
    · rename_i hfresh
      refine h.begin hs ?_ ?_ hfresh fun other => ?_
      · split_ifs <;> rfl
      · split_ifs <;> rfl
      · have hhands : (if sinks = [] then Pc.idle else if ok then .commitLock sinks
            else .destroyEach sinks : Pc ρ σ).hands = sinks := by
          split_ifs with hnil
          · exact hnil.symm
          · rfl
          · rfl
        rw [hhands, List.count_append]
    · cases hs
  | init t sinks dropped =>
    simp only [Dispatcher.step] at hs
    split at hs
    · rename_i hfresh
      refine h.begin hs ?_ ?_ hfresh fun other => ?_
      · split_ifs <;> rfl
      · split_ifs <;> rfl
      · have hhands : (if sinks = [] then Pc.idle else .destroyLock sinks : Pc ρ σ).hands =
            sinks := by
          split_ifs with hnil
          · exact hnil.symm
          · rfl
        rw [hhands, List.count_append, List.count_append, List.count_append]
        omega
    · cases hs
  | destroy t => exact h.begin hs rfl rfl h.nodup fun _ => rfl
  | make sink =>
    simp only [Dispatcher.step] at hs
    split at hs
    · rename_i hfresh
      cases hs
      refine ⟨h.exclusive, hfresh, fun other => ?_, h.sound⟩
      have hledger := h.ledger other
      simp only [State.doomed, List.count_append] at hledger ⊢
      omega
    · cases hs
  | drop sink =>
    simp only [Dispatcher.step, Option.some.injEq] at hs
    subst hs
    refine ⟨h.exclusive, h.nodup, fun other => ?_, h.fault_use (h.notMem_of_owned hkeep)⟩
    have hledger := h.ledger other
    have hcount := (List.perm_cons_erase hkeep).count_eq other
    simp only [State.doomed, State.destroySink, State.use, List.count_append, List.count_cons,
      List.count_nil] at hledger hcount ⊢
    omega
  | step t ok => exact h.threadStep hkeep hs

omit [DecidableEq ι] in
theorem Inv.start : Inv (State.start : State ι ρ σ ω) where
  exclusive _ := by simp [State.start, Pc.inside]
  nodup := List.nodup_nil
  ledger sink := by simp [State.start, State.doomed, Pc.hands]
  sound := rfl

/-- The invariant over whole runs. -/
theorem inv_of_reach (h : Reach (Dispatcher.step chunks) Keeps State.start s) : Inv s :=
  Reach.invariant Inv.start (fun _ _ _ h => h.step) h

omit [DecidableEq ι] in
/-- No sink is destroyed twice. -/
theorem Inv.nodup_destroyed (h : Inv s) : s.destroyed.Nodup := by
  refine List.nodup_iff_count_le_one.2 fun sink => ?_
  have hone := List.nodup_iff_count_le_one.1 h.nodup sink
  have hle := count_doomed_le s sink
  have hledger := h.ledger sink
  omega

/-- **No sink is used or destroyed after its `destroy`,** in any interleaving of dispatches, flushes,
added and removed sinks, reloads, initialisations and shutdowns. -/
theorem destroyed_sink_never_used (h : Reach (Dispatcher.step chunks) Keeps State.start s) :
    s.fault = false ∧ s.destroyed.Nodup :=
  ⟨(inv_of_reach h).sound, (inv_of_reach h).nodup_destroyed⟩

end Steps

/-- Two threads.  Sinks 1 and 2 are installed; the application adds sink 7; thread 1 dispatches
while thread 0 reloads to sink 3 and, behind the unlock, destroys the old ones. -/
def reloadRace : List (Act (Fin 2) ℕ ℕ) :=
  List.flatten [[.init 0 [1, 2] []], List.replicate 5 (.step 0 true), [.make 7, .addSink 0 7],
    List.replicate 3 (.step 0 true), [.dispatch 1 5, .step 1 true, .reload 0 [3] true],
    List.replicate 7 (.step 1 true), List.replicate 3 (.step 0 true),
    [.dispatch 1 6, .step 1 true, .step 0 true, .step 1 true], List.replicate 3 (.step 0 true),
    List.replicate 2 (.step 1 true)]

/-- The reload destroys the old sinks, and the record that is dispatched meanwhile goes to the new
one. -/
theorem destroyed_sink_never_used_reload : ∃ s : State (Fin 2) ℕ ℕ ℕ,
    (Reach (step fun record _ => [record]) Keeps State.start s ∧ s.destroyed = [1, 2, 7] ∧
      s.writes = [(1, 5), (2, 5), (7, 5), (3, 6)]) ∧ s.fault = false ∧ s.destroyed.Nodup := by
  obtain ⟨s, h, hs⟩ : ∃ s, Reach (step fun record (_ : ℕ) => [record]) Keeps
      (State.start : State (Fin 2) ℕ ℕ ℕ) s ∧ s.destroyed = [1, 2, 7] ∧
        s.writes = [(1, 5), (2, 5), (7, 5), (3, 6)] :=
    exists_of_runIf reloadRace (by decide +kernel)
  exact ⟨s, ⟨h, hs⟩, destroyed_sink_never_used h⟩

/-! ### Nothing is lost -/

section Tidy

variable {s s' : State ι ρ σ ω} {t : ι} {p : Pc ρ σ} {chunks : ρ → σ → List ω} {ok : Bool}

omit [DecidableEq σ] in
theorem lost_lock (h : s.lock t p = some s') : s'.lost = s.lost := by
  rw [State.lock] at h
  split_ifs at h
  cases h
  rfl

theorem threadStep_lost (hkeep : (s.pc t).installs = true → s.sinks = [])
    (hs : threadStep chunks s t ok = some s') : s'.lost = s.lost := by
  cases hq : s.pc t with
  | installMalloc sinks =>
    simp only [threadStep, hq, hkeep (by rw [hq]; rfl), List.append_nil] at hs
    split at hs <;> cases hs <;> rfl
  | dispatchLoop record i j =>
    simp only [threadStep, hq] at hs
    split at hs
    · cases hs
      rfl
    · split at hs <;> cases hs <;> rfl
  | flushLoop | addRealloc | removeLoop | destroyLoop =>
    simp only [threadStep, hq] at hs
    split at hs <;> cases hs <;> rfl
  | destroyEach sinks | installFails sinks =>
    cases sinks <;> simp only [threadStep, hq] at hs <;> cases hs <;> rfl
  | idle | commitSwap | commitUnlock | unlock =>
    simp only [threadStep, hq] at hs
    cases hs <;> rfl
  | dispatchLock | flushLock | addLock | removeLock | commitLock | destroyLock | installLock =>
    simp only [threadStep, hq] at hs
    rw [lost_lock hs]

omit [DecidableEq σ] in
theorem lost_begin (h : begin s t p = some s') : s'.lost = s.lost := by
  rw [begin] at h
  split at h <;> cases h
  rfl

/-- A tidy step loses no sink. -/
theorem step_lost {a : Act ι ρ σ} (hkeep : Tidy s a) (hs : step chunks s a = some s') :
    s'.lost = s.lost := by
  cases a with
  | step t ok => exact threadStep_lost hkeep hs
  | init t sinks dropped =>
    simp only [step] at hs
    have hnone : dropped = [] := hkeep
    split at hs
    · rw [lost_begin hs, hnone]
      exact List.append_nil _
    · cases hs
  | reload t sinks ok =>
    simp only [step] at hs
    split at hs
    · rw [lost_begin hs]
    · cases hs
  | make sink =>
    simp only [step] at hs
    split_ifs at hs
    cases hs
    rfl
  | drop sink =>
    simp only [step] at hs
    cases hs
    rfl
  | dispatch | flush | addSink | removeSink | destroy => rw [lost_begin hs]
omit [DecidableEq ι] [DecidableEq σ] in
theorem keeps_of_tidy {a : Act ι ρ σ} (h : Tidy s a) : Keeps s a := by
  cases a with
  | step t ok => exact fun hinstalls _ => h hinstalls
  | addSink | drop => exact h
  | dispatch | flush | removeSink | reload | init | destroy | make => exact trivial

/-- **No sink is leaked or freed twice:** when no call is under way, the sinks that were made are
those of the array, those of the application and those destroyed, each once. -/
theorem every_sink_accounted [Fintype ι] (h : Reach (Dispatcher.step chunks) Tidy State.start s)
    (hidle : ∀ t, s.pc t = .idle) : (s.sinks ++ s.owned ++ s.destroyed).Perm s.made := by
  have hlost : s.lost = [] :=
    Reach.invariant (I := fun s => s.lost = []) rfl
      (fun _ _ _ hlost hkeep hs => (step_lost hkeep hs).trans hlost) h
  have hinv := inv_of_reach (h.mono fun _ _ => keeps_of_tidy)
  have hfree : s.mutex = none := by
    by_contra hheld
    obtain ⟨t, ht⟩ := Option.ne_none_iff_exists'.1 hheld
    have hin := (hinv.exclusive t).2 ht
    rw [hidle t] at hin
    cases hin
  refine List.perm_iff_count.2 fun sink => ?_
  have hledger := hinv.ledger sink
  have hhands : ∑ t, (s.pc t).hands.count sink = 0 :=
    Finset.sum_eq_zero fun t _ => by rw [hidle t]; rfl
  rw [doomed_of_free hfree, hlost, hhands] at hledger
  rw [List.count_append, List.count_append]
  simp only [List.count_nil] at hledger
  omega

end Tidy

/-- The run of `reloadRace`, and then a shutdown. -/
theorem every_sink_accounted_shutdown : ∃ s : State (Fin 2) ℕ ℕ ℕ,
    (Reach (step fun record _ => [record]) Tidy State.start s ∧ s.made = [1, 2, 7, 3] ∧
      s.sinks = [] ∧ s.owned = []) ∧ (s.sinks ++ s.owned ++ s.destroyed).Perm s.made := by
  obtain ⟨s, h, hidle, hs⟩ : ∃ s, Reach (step fun record (_ : ℕ) => [record]) Tidy
      (State.start : State (Fin 2) ℕ ℕ ℕ) s ∧
        ((∀ t, s.pc t = .idle) ∧ s.made = [1, 2, 7, 3] ∧ s.sinks = [] ∧ s.owned = []) :=
    exists_of_runIf (reloadRace ++ [.destroy 0, .step 0 true, .step 0 true, .step 0 true])
      (by decide +kernel)
  exact ⟨s, ⟨h, hs⟩, every_sink_accounted h hidle⟩

end Dispatcher
end Clogx
