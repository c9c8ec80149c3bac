/-
# Whole lines, in one order for all sinks

What the sinks receive when threads dispatch while others add and remove sinks,
reload or shut down.  `rounds` of `Dispatcher.Lifetime` has, for each dispatch that
took the mutex, its record and the array of that moment; the writes of all sinks
are those of the rounds, one after another (`Serial`).  So no line is torn by
another, every sink has the lines of the records that were dispatched while it was
in the array, and any two sinks have their common lines in one order.

`received_lines` says so for the bytes, with the writes of a dispatch as
`Dispatcher.Lines` has them.
-/

import Clogx.Dispatcher.Ledger
import Clogx.Dispatcher.Lines

namespace Clogx
namespace Dispatcher

open Machine

variable {ι ρ σ ω : Type*}

/-- The writes of a record to the sinks of an array. -/
def roundWrites (chunks : ρ → σ → List ω) (record : ρ) (sinks : List σ) : List (σ × ω) :=
  sinks.flatMap fun sink => (chunks record sink).map (Prod.mk sink)

/-- What is left of them from write `j` of the first sink on. -/
def restWrites (chunks : ρ → σ → List ω) (record : ρ) : List σ → ℕ → List (σ × ω)
  | [], _ => []
  | sink :: sinks, j =>
    ((chunks record sink).drop j).map (Prod.mk sink) ++ roundWrites chunks record sinks

theorem restWrites_zero (chunks : ρ → σ → List ω) (record : ρ) (sinks : List σ) :
    restWrites chunks record sinks 0 = roundWrites chunks record sinks := by
  cases sinks <;> rfl

/-- The thread is in the loop of a dispatch. -/
def Pc.writing : Pc ρ σ → Bool
  | .dispatchLoop .. => true
  | _ => false

/-- What a thread has still to write. -/
def Pc.rest (chunks : ρ → σ → List ω) (sinks : List σ) : Pc ρ σ → List (σ × ω)
  | .dispatchLoop record i j => restWrites chunks record (sinks.drop i) j
  | _ => []

theorem Pc.rest_of_quiet {p : Pc ρ σ} (h : p.writing = false) (chunks : ρ → σ → List ω)
    (sinks : List σ) : p.rest chunks sinks = [] := by
  cases p with
  | dispatchLoop => cases h
  | _ => rfl

/-- What the holder of the mutex has still to write. -/
def State.rest (chunks : ρ → σ → List ω) (s : State ι ρ σ ω) : List (σ × ω) :=
  match s.mutex with
  | none => []
  | some t => (s.pc t).rest chunks s.sinks

/-- **The writes are those of the rounds,** but for what is left of the last. -/
structure Serial (chunks : ρ → σ → List ω) (s : State ι ρ σ ω) : Prop where
  writes : s.writes ++ s.rest chunks =
    s.rounds.flatMap fun round => roundWrites chunks round.1 round.2
  last : ∀ round ∈ s.rounds.getLast?, s.rest chunks <:+ roundWrites chunks round.1 round.2
  nodup : ∀ round ∈ s.rounds, round.2.Nodup

/-! ### Steps -/

section Steps

variable [DecidableEq ι] [DecidableEq σ] {chunks : ρ → σ → List ω} {s s' : State ι ρ σ ω} {t : ι}
  {ok : Bool}

/-- **What a step of a thread that is not in a dispatch can do:** nothing is written, and the array
changes in the hands of the holder of the mutex only. -/
structure Quiet (s s' : State ι ρ σ ω) (t : ι) : Prop where
  writes : s'.writes = s.writes
  rounds : s'.rounds = s.rounds
  pc : ∃ p : Pc ρ σ, s'.pc = Function.update s.pc t p ∧ p.writing = false
  sinks : s'.sinks = s.sinks ∨ (s.pc t).inside = true
  mutex : s'.mutex = s.mutex ∨ s.mutex = none ∧ s'.mutex = some t ∨
    (s.pc t).inside = true ∧ s'.mutex = none

omit [DecidableEq σ] in
theorem Quiet.lock {p : Pc ρ σ} (h : s.lock t p = some s') (hp : p.writing = false) :
    Quiet s s' t := by
  rw [State.lock] at h
  split_ifs at h with hfree
  cases h
  exact ⟨rfl, rfl, ⟨p, rfl, hp⟩, .inl rfl, .inr (.inl ⟨hfree, rfl⟩)⟩

omit [DecidableEq σ] in
theorem Quiet.unlock {p q : Pc ρ σ} (hq : s.pc t = q) (hin : q.inside = true)
    (hp : p.writing = false) : Quiet s (s.unlock t p) t :=
  ⟨rfl, rfl, ⟨p, rfl, hp⟩, .inl rfl, .inr (.inr ⟨hq ▸ hin, rfl⟩)⟩

/-- The thread is in a dispatch, before the lock or behind it. -/
def Pc.dispatching : Pc ρ σ → Bool
  | .dispatchLock _ | .dispatchLoop .. => true
  | _ => false

theorem quiet_threadStep (hd : (s.pc t).dispatching = false)
    (hs : threadStep chunks s t ok = some s') : Quiet s s' t := by
  cases hq : s.pc t with
  | idle => simp [threadStep, hq] at hs
  | dispatchLock | dispatchLoop => rw [hq] at hd; cases hd
  | flushLock | addLock | removeLock | commitLock | destroyLock | installLock =>
    simp only [threadStep, hq] at hs
    exact .lock hs rfl
  | flushLoop =>
    simp only [threadStep, hq] at hs
    split at hs <;> cases hs
    · exact .unlock hq rfl rfl
    · exact ⟨rfl, rfl, ⟨_, rfl, rfl⟩, .inl rfl, .inl rfl⟩
  | addRealloc | removeLoop | installMalloc =>
    simp only [threadStep, hq] at hs
    split at hs <;> cases hs
    all_goals exact ⟨rfl, rfl, ⟨_, rfl, rfl⟩, .inr (by rw [hq]; rfl), .inl rfl⟩
  | commitSwap =>
    simp only [threadStep, hq] at hs
    cases hs
    exact ⟨rfl, rfl, ⟨_, rfl, rfl⟩, .inr (by rw [hq]; rfl), .inl rfl⟩
  | commitUnlock | unlock =>
    simp only [threadStep, hq] at hs
    cases hs
    exact .unlock hq rfl rfl
  | destroyEach sinks =>
    cases sinks <;> simp only [threadStep, hq] at hs <;> cases hs
    all_goals exact ⟨rfl, rfl, ⟨_, rfl, rfl⟩, .inl rfl, .inl rfl⟩
  | destroyLoop i next =>
    simp only [threadStep, hq] at hs
    split at hs <;> cases hs
    · refine ⟨rfl, rfl, ⟨_, rfl, ?_⟩, .inr (by rw [hq]; rfl), .inr (.inr ⟨by rw [hq]; rfl, rfl⟩)⟩
      split_ifs <;> rfl
    · exact ⟨rfl, rfl, ⟨_, rfl, rfl⟩, .inl rfl, .inl rfl⟩
  | installFails sinks =>
    cases sinks <;> simp only [threadStep, hq] at hs <;> cases hs
    · exact .unlock hq rfl rfl
    · exact ⟨rfl, rfl, ⟨_, rfl, rfl⟩, .inl rfl, .inl rfl⟩

omit [DecidableEq σ] in
/-- What is left to write is not touched. -/
theorem Quiet.rest (h : Quiet s s' t) (hexcl : Exclusive Pc.inside s.mutex s.pc)
    (hquiet : (s.pc t).writing = false) : s'.rest chunks = s.rest chunks := by
  obtain ⟨p, hpc, hp⟩ := h.pc
  have hmine : s'.mutex = some t → s'.rest chunks = [] := by
    intro hm
    rw [State.rest, hm, hpc]
    simp only [Function.update_self]
    exact Pc.rest_of_quiet hp ..
  have hfree : s'.mutex = none → s'.rest chunks = [] := by
    intro hm
    rw [State.rest, hm]
  cases hm : s.mutex with
  | none =>
    have hrest : s.rest chunks = [] := by rw [State.rest, hm]
    rw [hrest]
    rcases h.mutex with hm' | ⟨-, hm'⟩ | ⟨-, hm'⟩
    · exact hfree (hm'.trans hm)
    · exact hmine hm'
    · exact hfree hm'
  | some u =>
    rcases eq_or_ne u t with rfl | hne
    · have hrest : s.rest chunks = [] := by
        rw [State.rest, hm]
        exact Pc.rest_of_quiet hquiet ..
      rw [hrest]
      rcases h.mutex with hm' | ⟨-, hm'⟩ | ⟨-, hm'⟩
      · exact hmine (hm'.trans hm)
      · exact hmine hm'
      · exact hfree hm'
    · -- another thread holds the mutex, so this one is outside
      have hout : ¬ (s.pc t).inside = true := fun hin =>
        hne (Option.some.inj (hm.symm.trans (hexcl.holder hin)))
      have hsinks := h.sinks.resolve_right hout
      have hm' : s'.mutex = some u := by
        rcases h.mutex with hm' | ⟨hm', -⟩ | ⟨hin, -⟩
        · exact hm'.trans hm
        · exact absurd (hm.symm.trans hm') (Option.some_ne_none u)
        · exact absurd hin hout
      rw [State.rest, State.rest, hm, hm', hsinks, hpc]
      simp only [Function.update_of_ne hne]

omit [DecidableEq σ] in
theorem Serial.quiet (h : Serial chunks s) (hquiet : Quiet s s' t)
    (hexcl : Exclusive Pc.inside s.mutex s.pc) (hw : (s.pc t).writing = false) :
    Serial chunks s' := by
  refine ⟨?_, ?_, ?_⟩
  · rw [hquiet.writes, hquiet.rest hexcl hw, hquiet.rounds]
    exact h.writes
  · rw [hquiet.rest hexcl hw, hquiet.rounds]
    exact h.last
  · rw [hquiet.rounds]
    exact h.nodup

variable [Fintype ι]

omit [DecidableEq ι] in
/-- While nothing is being destroyed in it, the array has no sink twice. -/
theorem Inv.nodup_sinks (h : Inv s) (hfree : s.mutex = none) : s.sinks.Nodup := by
  refine List.nodup_iff_count_le_one.2 fun sink => ?_
  have hone := List.nodup_iff_count_le_one.1 h.nodup sink
  have hledger := h.ledger sink
  rw [doomed_of_free hfree] at hledger
  simp only [List.count_nil] at hledger
  omega

/-- A dispatch takes the mutex. -/
theorem Serial.dispatchLock (h : Serial chunks s) (hinv : Inv s) {record : ρ}
    (hs : { s with rounds := s.rounds ++ [(record, s.sinks)] }.lock t (.dispatchLoop record 0 0) =
      some s') : Serial chunks s' := by
  rw [State.lock] at hs
  split_ifs at hs with hfree
  cases hs
  have hrest : s.rest chunks = [] := by rw [State.rest, show s.mutex = none from hfree]
  refine ⟨?_, fun round hround => ?_, fun round hround => ?_⟩
  · have hwrites := h.writes
    rw [hrest, List.append_nil] at hwrites
    simp only [State.goto, State.rest, Function.update_self, Pc.rest, List.drop_zero,
      restWrites_zero, List.flatMap_append, hwrites, List.flatMap_singleton]
  · obtain rfl := Option.some.inj (List.getLast?_concat.symm.trans hround)
    simp only [State.goto, State.rest, Function.update_self, Pc.rest, List.drop_zero,
      restWrites_zero]
    exact List.suffix_rfl
  · rcases List.mem_append.1 hround with hold | hnew
    · exact h.nodup round hold
    · rw [List.mem_singleton.1 hnew]
      exact hinv.nodup_sinks hfree

omit [DecidableEq ι] [DecidableEq σ] [Fintype ι] in
/-- The first of the writes that are left is made, or nothing is. -/
theorem Serial.advance (h : Serial chunks s) (ws : List (σ × ω)) (hrounds : s'.rounds = s.rounds)
    (hrest : s.rest chunks = ws ++ s'.rest chunks) (hwrites : s'.writes = s.writes ++ ws) :
    Serial chunks s' := by
  refine ⟨?_, fun round hround => ?_, ?_⟩
  · rw [hwrites, List.append_assoc, ← hrest, hrounds]
    exact h.writes
  · rw [hrounds] at hround
    exact (List.suffix_append ws _).trans (hrest ▸ h.last round hround)
  · rw [hrounds]
    exact h.nodup

/-- The loop of a dispatch. -/
theorem Serial.dispatchLoop (h : Serial chunks s) (hinv : Inv s) {record : ρ} {i j : ℕ}
    (hq : s.pc t = .dispatchLoop record i j) (hs : threadStep chunks s t ok = some s') :
    Serial chunks s' := by
  have hholder := hinv.exclusive.holder (t := t) (by rw [hq]; rfl)
  have hrest : s.rest chunks = restWrites chunks record (s.sinks.drop i) j := by
    rw [State.rest, hholder]
    simp only [hq, Pc.rest]
  simp only [threadStep, hq] at hs
  split at hs
  · rename_i hi
    cases hs
    refine h.advance [] rfl ?_ (List.append_nil _).symm
    rw [hrest, List.drop_of_length_le (List.getElem?_eq_none_iff.1 hi)]
    rfl
  · rename_i sink hi
    obtain ⟨hlt, hget⟩ := List.getElem?_eq_some_iff.1 hi
    rw [List.drop_eq_getElem_cons hlt, hget] at hrest
    split at hs
    · rename_i hj
      cases hs
      refine h.advance [] rfl ?_ (List.append_nil _).symm
      rw [hrest, restWrites, List.drop_of_length_le (List.getElem?_eq_none_iff.1 hj)]
      simp only [List.map_nil, List.nil_append, State.goto, State.rest, hholder,
        Function.update_self, Pc.rest, restWrites_zero]
    · rename_i w hj
      cases hs
      refine h.advance [(sink, w)] rfl ?_ rfl
      obtain ⟨hltj, hgetj⟩ := List.getElem?_eq_some_iff.1 hj
      rw [hrest]
      simp only [restWrites, List.drop_eq_getElem_cons hltj, hgetj, List.map_cons, State.goto,
        State.use, State.rest, hholder, Function.update_self, Pc.rest,
        List.drop_eq_getElem_cons hlt, hget]
      rfl

/-- Every step keeps the rounds serial. -/
theorem Serial.threadStep (h : Serial chunks s) (hinv : Inv s)
    (hs : threadStep chunks s t ok = some s') : Serial chunks s' := by
  cases hd : (s.pc t).dispatching with
  | false =>
    have hw : (s.pc t).writing = false := by
      cases hq : s.pc t with
      | dispatchLoop => rw [hq] at hd; cases hd
      | _ => rfl
    exact h.quiet (quiet_threadStep hd hs) hinv.exclusive hw
  | true =>
    cases hq : s.pc t with
    | dispatchLock record =>
      simp only [Dispatcher.threadStep, hq] at hs
      exact h.dispatchLock hinv hs
    | dispatchLoop record i j => exact h.dispatchLoop hinv hq hs
    | _ => rw [hq] at hd; cases hd

/-- A call begins. -/
theorem Serial.begin {made owned lost : List σ} {p : Pc ρ σ} (h : Serial chunks s)
    (hinv : Inv s)
    (hs : begin { s with made := made, owned := owned, lost := lost } t p = some s')
    (hp : p.writing = false) : Serial chunks s' := by
  unfold Dispatcher.begin at hs
  split at hs
  · rename_i hq
    cases hs
    have hquiet : Quiet s
        ({ s with made := made, owned := owned, lost := lost }.goto t p) t :=
      ⟨rfl, rfl, ⟨p, rfl, hp⟩, .inl rfl, .inl rfl⟩
    exact h.quiet hquiet hinv.exclusive (by rw [show s.pc t = .idle from hq]; rfl)
  · cases hs

/-- **Every step keeps the writes in line with the rounds.** -/
theorem Serial.step (h : Serial chunks s) (hinv : Inv s) {a : Act ι ρ σ}
    (hs : step chunks s a = some s') : Serial chunks s' := by
  cases a with
  | dispatch | flush | addSink | removeSink | destroy => exact h.begin hinv hs rfl
  | reload t sinks ok =>
    simp only [Dispatcher.step] at hs
    split at hs
    · refine h.begin hinv hs ?_
      split_ifs <;> rfl
    · cases hs
  | init t sinks dropped =>
    simp only [Dispatcher.step] at hs
    split at hs
    · refine h.begin hinv hs ?_
      split_ifs <;> rfl
    · cases hs
  | make sink =>
    simp only [Dispatcher.step] at hs
    split at hs <;> cases hs
    exact ⟨h.writes, h.last, h.nodup⟩
  | drop sink =>
    simp only [Dispatcher.step] at hs
    cases hs
    exact ⟨h.writes, h.last, h.nodup⟩
  | step t ok => exact h.threadStep hinv hs

/-- Over whole runs. -/
theorem serial_of_reach (h : Reach (Dispatcher.step chunks) Keeps State.start s) :
    Serial chunks s := by
  have hboth := Reach.invariant (I := fun s => Inv s ∧ Serial chunks s)
    ⟨Inv.start, rfl, nofun, fun _ hround => absurd hround List.not_mem_nil⟩
    (fun _ _ _ h hkeep hs => ⟨h.1.step hkeep hs, h.2.step h.1 hs⟩) h
  exact hboth.2

end Steps

/-! ### What a sink receives -/

variable [DecidableEq σ]

/-- The writes of one sink. -/
def ofSink (sink : σ) (writes : List (σ × ω)) : List ω :=
  (writes.filter fun w => w.1 = sink).map Prod.snd

theorem ofSink_append (sink : σ) (ws ws' : List (σ × ω)) :
    ofSink sink (ws ++ ws') = ofSink sink ws ++ ofSink sink ws' := by
  simp [ofSink]

theorem ofSink_map (sink other : σ) (ws : List ω) :
    ofSink sink (ws.map (Prod.mk other)) = if other = sink then ws else [] := by
  induction ws with
  | nil => simp [ofSink]
  | cons w ws ih =>
    rw [List.map_cons, ← List.singleton_append, ofSink_append, ih]
    split_ifs with heq <;> simp [ofSink, heq]

/-- A round is one block of writes of each sink that was in the array. -/
theorem ofSink_roundWrites (chunks : ρ → σ → List ω) (record : ρ) (sink : σ) {sinks : List σ}
    (h : sinks.Nodup) :
    ofSink sink (roundWrites chunks record sinks) =
      if sink ∈ sinks then chunks record sink else [] := by
  induction sinks with
  | nil => rfl
  | cons other sinks ih =>
    obtain ⟨hnot, hnodup⟩ := List.nodup_cons.1 h
    have hcons : roundWrites chunks record (other :: sinks) =
        (chunks record other).map (Prod.mk other) ++ roundWrites chunks record sinks := rfl
    rw [hcons, ofSink_append, ofSink_map, ih hnodup]
    rcases eq_or_ne other sink with rfl | hne
    · rw [if_pos rfl, if_neg hnot, if_pos List.mem_cons_self, List.append_nil]
    · simp [hne, hne.symm]

/-- The records of the rounds in which the sink was in the array. -/
def recordsOf (sink : σ) (rounds : List (ρ × List σ)) : List ρ :=
  (rounds.filter fun round => sink ∈ round.2).map Prod.fst

theorem ofSink_rounds (chunks : ρ → σ → List ω) (sink : σ) {rounds : List (ρ × List σ)}
    (h : ∀ round ∈ rounds, round.2.Nodup) :
    ofSink sink (rounds.flatMap fun round => roundWrites chunks round.1 round.2) =
      (recordsOf sink rounds).flatMap fun record => chunks record sink := by
  induction rounds with
  | nil => rfl
  | cons round rounds ih =>
    rw [List.flatMap_cons, ofSink_append, ofSink_roundWrites _ _ _ (h round List.mem_cons_self),
      ih fun round' hround => h round' (List.mem_cons_of_mem _ hround)]
    by_cases hmem : sink ∈ round.2
    · simp [recordsOf, hmem]
    · simp [recordsOf, hmem]

/-- What a sink has received, and what the dispatch under way has still for it. -/
theorem Serial.received {chunks : ρ → σ → List ω} {s : State ι ρ σ ω} (h : Serial chunks s)
    (sink : σ) :
    ofSink sink s.writes ++ ofSink sink (s.rest chunks) =
      (recordsOf sink s.rounds).flatMap fun record => chunks record sink := by
  rw [← ofSink_append, h.writes, ofSink_rounds chunks sink h.nodup]

/-- **What is missing is the end of the last record.** -/
theorem Serial.missing {chunks : ρ → σ → List ω} {s : State ι ρ σ ω} (h : Serial chunks s)
    (sink : σ) : ofSink sink (s.rest chunks) = [] ∨
      ∃ record ∈ (recordsOf sink s.rounds).getLast?,
        ofSink sink (s.rest chunks) <:+ chunks record sink := by
  rcases List.eq_nil_or_concat' s.rounds with hnil | ⟨rounds, round, hrounds⟩
  · have hwrites := h.writes
    rw [hnil] at hwrites
    rw [(List.append_eq_nil_iff.1 hwrites).2]
    exact .inl rfl
  · have hround : round ∈ s.rounds.getLast? := by rw [hrounds, List.getLast?_concat]; rfl
    have hsuffix := ((h.last round hround).filter fun w => w.1 = sink).map Prod.snd
    have hlast := ofSink_roundWrites chunks round.1 sink (h.nodup round (by simp [hrounds]))
    by_cases hmem : sink ∈ round.2
    · rw [if_pos hmem] at hlast
      refine .inr ⟨round.1, ?_, hlast ▸ hsuffix⟩
      simp [recordsOf, hrounds, hmem]
    · rw [if_neg hmem] at hlast
      exact .inl (List.suffix_nil.1 (hlast ▸ hsuffix))

/-! ### The bytes -/

open CLib
open Formatter (Record)

variable {φ : Type*} {format : Record φ → ℤ × Block}

/-- **A dispatch that gets to the mutex:** its record passes the level of the logger, and the
formatter has made a line of it. -/
structure Call (format : Record φ → ℤ × Block) where
  cfg : Config
  frame : Frame
  record : Record φ
  line : Text
  passes : cfg.level ≤ record.level
  formats : Formats (format record) line
  nonempty : line ≠ []

namespace Call

/-- The writes to one sink. -/
def writes (call : Call format) (sink : Sink) : List Write :=
  ((logDispatcherDispatchFor format call.frame call.cfg [some sink] call.record).map
    fun r => r.2.flatten).getD []

/-- The bytes that are to be in them. -/
def shown (call : Call format) (sink : Sink) : Text :=
  if Admits call.record.level sink then
    endLine (shownLine call.cfg call.record.level call.line sink)
  else []

/-- The loop of a dispatch takes the sinks one by one. -/
theorem dispatch_cons (call : Call format) {entry : Option Sink} {sinks : List (Option Sink)}
    {ws : List Write} {rest : List (List Write)}
    (h : logDispatcherDispatchFor format call.frame call.cfg (entry :: sinks) call.record =
      some (0, ws :: rest)) :
    logDispatcherDispatchFor format call.frame call.cfg [entry] call.record = some (0, [ws]) ∧
      logDispatcherDispatchFor format call.frame call.cfg sinks call.record = some (0, rest) := by
  have hpos : ¬ (format call.record).1 ≤ 0 := by
    have hlen := List.length_pos_of_ne_nil call.nonempty
    rw [call.formats.ret]
    omega
  simp only [logDispatcherDispatchFor, if_neg (not_lt.2 call.passes), if_neg hpos, writeSinks,
    Option.bind_eq_bind, Option.bind_eq_some_iff, Option.pure_def, Option.some.injEq,
    Prod.mk.injEq, true_and, exists_eq_right] at h ⊢
  obtain ⟨colored, hcolored, ws', hws, rest', hrest, heq⟩ := h
  obtain ⟨rfl, rfl⟩ := List.cons.inj heq
  exact ⟨⟨colored, hcolored, ws', hws, [], rfl, rfl⟩, colored, hcolored, hrest⟩

theorem writes_of_dispatch (call : Call format) {sink : Sink} {ws : List Write}
    (h : logDispatcherDispatchFor format call.frame call.cfg [some sink] call.record =
      some (0, [ws])) : call.writes sink = ws := by
  rw [writes, h]
  exact List.append_nil ws

/-- **The loop of `log_dispatcher_dispatch_for` over the array** makes the writes of each sink. -/
theorem dispatch_eq_map (call : Call format) (sinks : List Sink) :
    logDispatcherDispatchFor format call.frame call.cfg (sinks.map some) call.record =
      some (0, sinks.map call.writes) := by
  obtain ⟨all, hall, hshown⟩ :=
    dispatch_eq call.frame call.formats call.nonempty call.passes (sinks.map some)
  rw [hall]
  congr 2
  induction sinks generalizing all with
  | nil =>
    cases hshown
    rfl
  | cons sink sinks ih =>
    cases hshown with
    | cons hhead htail =>
      obtain ⟨hone, hrest⟩ := call.dispatch_cons hall
      rw [List.map_cons, call.writes_of_dispatch hone, ih _ hrest htail]

/-- A call writes what it shows. -/
theorem bytes_writes (call : Call format) (sink : Sink) :
    bytes (call.writes sink) = call.shown sink := by
  obtain ⟨all, hall, hshown⟩ :=
    dispatch_eq call.frame call.formats call.nonempty call.passes [some sink]
  cases hshown with
  | cons hhead htail =>
    cases htail
    rw [call.writes_of_dispatch hall, shown]
    split_ifs with hadmits
    · obtain ⟨-, -, -, hbytes, -⟩ := hhead.1 hadmits
      exact hbytes
    · rw [hhead.2 hadmits]
      rfl

end Call

theorem bytes_flatMap (calls : List (Call format)) (sink : Sink) :
    bytes (calls.flatMap fun call => call.writes sink) =
      (calls.map fun call => call.shown sink).flatten := by
  induction calls with
  | nil => rfl
  | cons call calls ih =>
    rw [List.flatMap_cons, bytes, List.map_append, List.flatten_append, ← bytes, ← bytes, ih,
      call.bytes_writes, List.map_cons, List.flatten_cons]

theorem bytes_suffix {ws ws' : List Write} (h : ws <:+ ws') : bytes ws <:+ bytes ws' := by
  obtain ⟨pre, rfl⟩ := h
  refine ⟨bytes pre, ?_⟩
  rw [bytes, bytes, bytes, List.map_append, List.flatten_append]

/-- **Every sink receives whole lines:** those of the records dispatched while it was in the array,
in the order in which the dispatches took the mutex.  What is missing is the end of the last line,
while its dispatch is under way. -/
theorem received_lines [DecidableEq ι] [Fintype ι] (kind : σ → Sink)
    {s : State ι (Call format) σ Write}
    (h : Reach (step fun call sink => call.writes (kind sink)) Keeps State.start s) (sink : σ) :
    (∃ missing, bytes (ofSink sink s.writes) ++ missing =
        ((recordsOf sink s.rounds).map fun call => call.shown (kind sink)).flatten ∧
      (missing = [] ∨ ∃ call ∈ (recordsOf sink s.rounds).getLast?,
        missing <:+ call.shown (kind sink))) ∧
      (s.mutex = none → bytes (ofSink sink s.writes) =
        ((recordsOf sink s.rounds).map fun call => call.shown (kind sink)).flatten) := by
  have hserial := serial_of_reach h
  have hbytes := congrArg bytes (hserial.received sink)
  rw [bytes_flatMap, bytes, List.map_append, List.flatten_append, ← bytes, ← bytes] at hbytes
  refine ⟨⟨_, hbytes, (hserial.missing sink).imp (fun hnil => by rw [hnil]; rfl) ?_⟩, fun hfree => ?_⟩
  · rintro ⟨call, hcall, hsuffix⟩
    exact ⟨call, hcall, call.bytes_writes (kind sink) ▸ bytes_suffix hsuffix⟩
  · rw [← hbytes, State.rest, hfree]
    exact (List.append_nil _).symm

/-- A dispatch of the line `hi`. -/
def hiCall : Call (φ := Empty) (always (str "hi\n")) :=
  ⟨⟨0, false⟩, zeroFrame, info, str "hi\n", by decide, formats_always (by decide) (by decide) info,
    by decide⟩

/-- Sinks 1 and 2, of which the second takes errors only; thread 1 dispatches while thread 0 is on
the way to remove sink 1. -/
theorem received_lines_remove :
    ∃ s : State (Fin 2) (Call (φ := Empty) (always (str "hi\n"))) ℕ Write,
    (Reach (step fun call sink => call.writes ⟨if sink = 1 then 0 else 4, false, false⟩) Keeps
      State.start s ∧ s.mutex = none ∧ s.rounds.map (fun round => round.2) = [[1, 2], [2]]) ∧
    bytes (ofSink 1 s.writes) =
      ((recordsOf 1 s.rounds).map fun call => call.shown ⟨0, false, false⟩).flatten := by
  let kind (sink : ℕ) : Sink := ⟨if sink = 1 then 0 else 4, false, false⟩
  obtain ⟨s, h, hfree, hrounds⟩ : ∃ s, Reach (step fun call sink => call.writes (kind sink)) Keeps
      (State.start : State (Fin 2) (Call (φ := Empty) (always (str "hi\n"))) ℕ Write) s ∧
        s.mutex = none ∧ s.rounds.map (fun round => round.2) = [[1, 2], [2]] :=
    exists_of_runIf (List.flatten [[.init 0 [1, 2] []], List.replicate 5 (.step 0 true),
      [.dispatch 1 hiCall, .step 1 true, .removeSink 0 1], List.replicate 4 (.step 1 true),
      [.dispatch 1 hiCall], List.replicate 3 (.step 0 true), List.replicate 3 (.step 1 true)])
      (by decide +kernel)
  exact ⟨s, ⟨h, hfree, hrounds⟩, (received_lines kind h 1).2 hfree⟩

end Dispatcher
end Clogx
