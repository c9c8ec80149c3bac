/-
# What one step of the async path can do

One inversion lemma for all parties (`moves_step`): a step of the system is at
most one step of the queue, only the worker consumes, only callers put, and what
is observed is added at the end of the log.  The invariants are framed by it.
-/

import Clogx.Async.Model
import Clogx.Queue.Call

namespace Clogx
namespace Async

open SeqRing (Shape)

variable {ι ρ : Type*}

/-- The thread whose call of `log_async_write_for` a step belongs to. -/
def Act.caller : Act ι ρ → Option ι
  | .log t _ | .write t | .cloneFails t | .giveUp t | .casMiss t => some t
  | _ => none

/-- The step is one of the thread that shuts down, or of the one that flushes. -/
def Act.aside : Act ι ρ → Bool
  | .callShutdown | .shutdown | .callFlush | .flush => true
  | _ => false

/-- The step of the queue a step of the system may make. -/
def Act.allows : Act ι ρ → Queue.Act ι (Call ρ) → Prop
  | .write t, .call u _ | .write t, .put u | .giveUp t, .giveUp u | .casMiss t, .casMiss u => u = t
  | .work, .callWait | .work, .callGet _ | .work, .consume => True
  | .shutdown, .callClose | .shutdown, .close => True
  | .flush, .callWaitEmpty | .flush, .waitEmpty => True
  | .spurious, .spurious => True
  | _, _ => False

/-- Only the worker consumes. -/
theorem Act.work_of_consumes {a : Act ι ρ} {b : Queue.Act ι (Call ρ)} (h : a.allows b)
    (hb : b.consumes = true) : a = .work := by
  cases a <;> cases b <;> first | rfl | cases hb; done | exact h.elim

/-- Only callers put. -/
theorem Act.producer_of_caller {a : Act ι ρ} {b : Queue.Act ι (Call ρ)} (h : a.allows b)
    (ha : a.caller = none) : b.producer = none := by
  cases a <;> cases b <;> first | rfl | cases ha; done | exact h.elim

/-- The worker makes the observation. -/
def Event.ofWorker : Event ρ → Bool
  | .dispatched true _ | .flushed true => true
  | _ => false

/-- A caller makes the observation. -/
def Event.ofCaller : Event ρ → Bool
  | .dispatched false _ | .wrote _ _ => true
  | _ => false

variable [DecidableEq ι] [Inhabited ρ] {g : Shape} {s s' : State ι ρ} {t : ι} {c : Call ρ}

/-- Shutdown and flush are where they were. -/
structure SameThreads (s s' : State ι ρ) : Prop where
  shutdown : s'.shutdown = s.shutdown
  queueSet : s'.queueSet = s.queueSet
  flush : s'.flush = s.flush
  mark : s'.mark = s.mark
  marked : s'.marked = s.marked

/-- **What a step can do**: at most one step of the queue; only the worker consumes,
and only callers put; what is observed is added at the end of the log. -/
structure Moves (g : Shape) (a : Act ι ρ) (s s' : State ι ρ) : Prop where
  queue : s'.q = s.q ∨ ∃ b, Queue.step g s.q b = some s'.q ∧ a.allows b
  worker : a ≠ .work → s'.worker = s.worker ∧ s'.asyncProcessing = s.asyncProcessing
  write : a.caller = none → s'.write = s.write ∧ s'.calls = s.calls
  events : ∃ l, s'.events = s.events ++ l ∧ ∀ e ∈ l,
    (e.ofWorker = true → a = .work) ∧ (e.ofCaller = true → a.caller.isSome)
  threads : a.aside = false → SameThreads s s'

theorem moves_work (hs : asyncWorkerFor g s = some s') : Moves g (.work : Act ι ρ) s s' := by
  have hev : ∀ {l : List (Event ρ)}, l = [] ∨ (∃ c, l = [.dispatched true c]) ∨ l = [.flushed true] →
      ∀ e ∈ l, (e.ofWorker = true → (.work : Act ι ρ) = .work) ∧
        (e.ofCaller = true → (Act.caller (.work : Act ι ρ)).isSome) := by
    rintro l (rfl | ⟨c, rfl⟩ | rfl) e he
    · cases he
    all_goals
      obtain rfl := List.mem_singleton.1 he
      exact ⟨fun _ => rfl, fun h => by cases h⟩
  have hstay (hq : s'.q = s.q) (hw : s'.write = s.write) (hc : s'.calls = s.calls)
      {l : List (Event ρ)} (hl : s'.events = s.events ++ l)
      (h : l = [] ∨ (∃ c, l = [.dispatched true c]) ∨ l = [.flushed true])
      (hth : SameThreads s s') : Moves g (.work : Act ι ρ) s s' :=
    ⟨.inl hq, fun hne => absurd rfl hne, fun _ => ⟨hw, hc⟩, ⟨l, hl, hev h⟩, fun _ => hth⟩
  have hgo {b : Queue.Act ι (Call ρ)} (hq : Queue.step g s.q b = some s'.q)
      (hb : (.work : Act ι ρ).allows b) (hw : s'.write = s.write) (hc : s'.calls = s.calls)
      (hl : s'.events = s.events) (hth : SameThreads s s') : Moves g (.work : Act ι ρ) s s' :=
    ⟨.inr ⟨b, hq, hb⟩, fun hne => absurd rfl hne, fun _ => ⟨hw, hc⟩,
      ⟨[], by rw [hl, List.append_nil], hev (.inl rfl)⟩, fun _ => hth⟩
  unfold asyncWorkerFor at hs
  split at hs
  case h_1 =>
    obtain ⟨q, hq, rfl⟩ := Option.map_eq_some_iff.1 hs
    exact hgo hq trivial rfl rfl rfl ⟨rfl, rfl, rfl, rfl, rfl⟩
  case h_2 =>
    split at hs
    case h_1 =>
      split_ifs at hs <;> cases hs <;>
        exact hstay rfl rfl rfl (List.append_nil _).symm (.inl rfl) ⟨rfl, rfl, rfl, rfl, rfl⟩
    case h_2 =>
      obtain ⟨q, hq, rfl⟩ := Option.map_eq_some_iff.1 hs
      exact hgo hq trivial rfl rfl rfl ⟨rfl, rfl, rfl, rfl, rfl⟩
  case h_3 =>
    cases hs
    exact hstay rfl rfl rfl (List.append_nil _).symm (.inl rfl) ⟨rfl, rfl, rfl, rfl, rfl⟩
  case h_4 =>
    obtain ⟨q, hq, rfl⟩ := Option.map_eq_some_iff.1 hs
    exact hgo hq trivial rfl rfl rfl ⟨rfl, rfl, rfl, rfl, rfl⟩
  case h_5 =>
    split at hs
    case h_1 =>
      cases hs
      exact hstay rfl rfl rfl (List.append_nil _).symm (.inl rfl) ⟨rfl, rfl, rfl, rfl, rfl⟩
    case h_2 =>
      obtain ⟨q, hq, rfl⟩ := Option.map_eq_some_iff.1 hs
      exact hgo hq trivial rfl rfl rfl ⟨rfl, rfl, rfl, rfl, rfl⟩
  case h_6 =>
    split at hs
    case h_1 =>
      split_ifs at hs <;> cases hs
      · exact hstay rfl rfl rfl (List.append_nil _).symm (.inl rfl) ⟨rfl, rfl, rfl, rfl, rfl⟩
      · exact hstay rfl rfl rfl rfl (.inr (.inl ⟨_, rfl⟩)) ⟨rfl, rfl, rfl, rfl, rfl⟩
    case h_2 =>
      cases hs
      exact hstay rfl rfl rfl (List.append_nil _).symm (.inl rfl) ⟨rfl, rfl, rfl, rfl, rfl⟩
  case h_7 =>
    cases hs
    exact hstay rfl rfl rfl rfl (.inr (.inr rfl)) ⟨rfl, rfl, rfl, rfl, rfl⟩
  case h_8 =>
    cases hs
    exact hstay rfl rfl rfl (List.append_nil _).symm (.inl rfl) ⟨rfl, rfl, rfl, rfl, rfl⟩
  case h_9 => cases hs

omit [Inhabited ρ] in
theorem afterPut_frame (s : State ι ρ) (t : ι) (c : Call ρ)
    (q : Queue.State ι (Call ρ)) : (afterPut s t c q).q = q ∧ (afterPut s t c q).worker = s.worker ∧
      (afterPut s t c q).asyncProcessing = s.asyncProcessing ∧ SameThreads s (afterPut s t c q) ∧
      ∃ l, (afterPut s t c q).events = s.events ++ l ∧ ∀ e ∈ l, e = .wrote c .ok := by
  unfold afterPut
  split
  case h_1 ret hret =>
    split_ifs
    · exact ⟨rfl, rfl, rfl, ⟨rfl, rfl, rfl, rfl, rfl⟩, [], (List.append_nil _).symm,
        fun e he => by cases he⟩
    · exact ⟨rfl, rfl, rfl, ⟨rfl, rfl, rfl, rfl, rfl⟩, _, rfl, fun e he => List.mem_singleton.1 he⟩
  case h_2 => exact ⟨rfl, rfl, rfl, ⟨rfl, rfl, rfl, rfl, rfl⟩, [], (List.append_nil _).symm,
        fun e he => by cases he⟩

/-- A step of a caller. -/
theorem Moves.of_caller {a : Act ι ρ} (ha : a.caller = some t)
    (hq : s'.q = s.q ∨ ∃ b, Queue.step g s.q b = some s'.q ∧ a.allows b)
    (hw : s'.worker = s.worker ∧ s'.asyncProcessing = s.asyncProcessing) {l : List (Event ρ)}
    (hl : s'.events = s.events ++ l) (hev : ∀ e ∈ l, e.ofWorker = false)
    (hth : SameThreads s s') : Moves g a s s' where
  queue := hq
  worker _ := hw
  write h := by rw [ha] at h; cases h
  events := ⟨l, hl, fun e he =>
    ⟨fun h => (by rw [hev e he] at h; cases h), fun _ => by rw [ha]; rfl⟩⟩
  threads _ := hth

theorem moves_insidePut {a : Act ι ρ} (ha : a.caller = some t) {b : Queue.Act ι (Call ρ)}
    {q : Queue.State ι (Call ρ)} (hq : Queue.step g s.q b = some q) (hb : a.allows b) :
    Moves g a s (afterPut s t c q) := by
  obtain ⟨hq', hw, hp, hth, l, hl, hev⟩ := afterPut_frame s t c q
  exact .of_caller ha (.inr ⟨b, by rw [hq', hq], hb⟩) ⟨hw, hp⟩ hl
    (fun e he => by rw [hev e he]; rfl) hth

theorem moves_write (hs : logAsyncWriteFor g s t = some s') : Moves g (.write t) s s' := by
  have hstill {pc : Write ρ} : Moves g (.write t) s (s.setWrite t pc) :=
    .of_caller rfl (.inl rfl) ⟨rfl, rfl⟩ (List.append_nil _).symm (fun e he => by cases he)
      ⟨rfl, rfl, rfl, rfl, rfl⟩
  unfold logAsyncWriteFor at hs
  split at hs
  case h_1 => cases hs
  case h_2 => split_ifs at hs <;> cases hs <;> exact hstill
  case h_3 =>
    cases hs
    exact hstill
  case h_4 =>
    split_ifs at hs
    · obtain ⟨q, hq, rfl⟩ := Option.map_eq_some_iff.1 hs
      exact .of_caller rfl (.inr ⟨_, hq, rfl⟩) ⟨rfl, rfl⟩ (List.append_nil _).symm
        (fun e he => by cases he) ⟨rfl, rfl, rfl, rfl, rfl⟩
    · cases hs
      exact hstill
  case h_5 =>
    obtain ⟨q, hq, rfl⟩ := Option.map_eq_some_iff.1 hs
    exact moves_insidePut rfl hq rfl
  case h_6 =>
    cases hs
    refine .of_caller rfl (.inl rfl) ⟨rfl, rfl⟩ rfl (fun e he => ?_) ⟨rfl, rfl, rfl, rfl, rfl⟩
    rcases List.mem_cons.1 he with rfl | he
    · rfl
    · obtain rfl := List.mem_singleton.1 he
      rfl

/-- A step of the thread that shuts down or flushes. -/
theorem Moves.of_other {a : Act ι ρ}
    (hq : s'.q = s.q ∨ ∃ b, Queue.step g s.q b = some s'.q ∧ a.allows b)
    (hw : s'.worker = s.worker ∧ s'.asyncProcessing = s.asyncProcessing)
    (hc : s'.write = s.write ∧ s'.calls = s.calls)
    (hl : s'.events = s.events ∨ s'.events = s.events ++ [.flushed false])
    (hth : a.aside = false → SameThreads s s') : Moves g a s s' where
  queue := hq
  worker _ := hw
  write _ := hc
  events := by
    rcases hl with hl | hl
    · exact ⟨[], by rw [hl, List.append_nil], fun e he => by cases he⟩
    · refine ⟨_, hl, fun e he => ?_⟩
      obtain rfl := List.mem_singleton.1 he
      exact ⟨fun h => (by cases h), fun h => by cases h⟩
  threads := hth

theorem moves_shutdown (hs : logAsyncShutdownFor g s = some s') :
    Moves g (.shutdown : Act ι ρ) s s' := by
  unfold logAsyncShutdownFor at hs
  split at hs
  case h_1 | h_2 => cases hs
  case h_3 =>
    split_ifs at hs
    · obtain ⟨q, hq, rfl⟩ := Option.map_eq_some_iff.1 hs
      exact .of_other (.inr ⟨_, hq, trivial⟩) ⟨rfl, rfl⟩ ⟨rfl, rfl⟩ (.inl rfl) nofun
    · cases hs
      exact .of_other (.inl rfl) ⟨rfl, rfl⟩ ⟨rfl, rfl⟩ (.inl rfl) nofun
  case h_4 =>
    split at hs
    case h_1 =>
      cases hs
      exact .of_other (.inl rfl) ⟨rfl, rfl⟩ ⟨rfl, rfl⟩ (.inl rfl) nofun
    case h_2 =>
      obtain ⟨q, hq, rfl⟩ := Option.map_eq_some_iff.1 hs
      exact .of_other (.inr ⟨_, hq, trivial⟩) ⟨rfl, rfl⟩ ⟨rfl, rfl⟩ (.inl rfl) nofun
  case h_5 | h_7 =>
    cases hs
    exact .of_other (.inl rfl) ⟨rfl, rfl⟩ ⟨rfl, rfl⟩ (.inl rfl) nofun
  case h_6 =>
    split_ifs at hs
    cases hs
    exact .of_other (.inl rfl) ⟨rfl, rfl⟩ ⟨rfl, rfl⟩ (.inl rfl) nofun

theorem moves_flush (hs : logAsyncFlushFor g s = some s') : Moves g (.flush : Act ι ρ) s s' := by
  unfold logAsyncFlushFor at hs
  split at hs
  case h_1 | h_2 => cases hs
  case h_3 =>
    split_ifs at hs
    · obtain ⟨q, hq, rfl⟩ := Option.map_eq_some_iff.1 hs
      exact .of_other (.inr ⟨_, hq, trivial⟩) ⟨rfl, rfl⟩ ⟨rfl, rfl⟩ (.inl rfl) nofun
    · cases hs
      exact .of_other (.inl rfl) ⟨rfl, rfl⟩ ⟨rfl, rfl⟩ (.inl rfl) nofun
  case h_4 =>
    split at hs
    case h_1 =>
      cases hs
      exact .of_other (.inl rfl) ⟨rfl, rfl⟩ ⟨rfl, rfl⟩ (.inl rfl) nofun
    case h_2 =>
      obtain ⟨q, hq, rfl⟩ := Option.map_eq_some_iff.1 hs
      exact .of_other (.inr ⟨_, hq, trivial⟩) ⟨rfl, rfl⟩ ⟨rfl, rfl⟩ (.inl rfl) nofun
  case h_5 =>
    split_ifs at hs <;> cases hs <;>
      exact .of_other (.inl rfl) ⟨rfl, rfl⟩ ⟨rfl, rfl⟩ (.inl rfl) nofun
  case h_6 =>
    cases hs
    exact .of_other (.inl rfl) ⟨rfl, rfl⟩ ⟨rfl, rfl⟩ (.inr rfl) nofun

/-- A choice inside `mpsc_queue_try_put` comes from a call that is there. -/
theorem insidePut_cases {b : Queue.Act ι (Call ρ)} (hs : insidePut g s t b = some s') :
    ∃ c q, s.write t = .tryPut c ∧ Queue.step g s.q b = some q ∧ s' = afterPut s t c q := by
  unfold insidePut at hs
  split at hs
  case h_1 c hw =>
    obtain ⟨q, hq, rfl⟩ := Option.map_eq_some_iff.1 hs
    exact ⟨c, q, hw, hq, rfl⟩
  case h_2 => cases hs

/-- Every step is one of the moves. -/
theorem moves_step {a : Act ι ρ} (hs : step g s a = some s') : Moves g a s s' := by
  cases a with
  | log t r =>
    simp only [step] at hs
    split at hs
    · cases hs
      exact .of_caller rfl (.inl rfl) ⟨rfl, rfl⟩ (List.append_nil _).symm
        (fun e he => by cases he) ⟨rfl, rfl, rfl, rfl, rfl⟩
    · cases hs
  | write t => exact moves_write hs
  | cloneFails t =>
    simp only [step, cloneFails] at hs
    split at hs
    · cases hs
      exact .of_caller rfl (.inl rfl) ⟨rfl, rfl⟩ (List.append_nil _).symm
        (fun e he => by cases he) ⟨rfl, rfl, rfl, rfl, rfl⟩
    · cases hs
  | giveUp t | casMiss t =>
    obtain ⟨c, q, -, hq, rfl⟩ := insidePut_cases hs
    exact moves_insidePut rfl hq rfl
  | work => exact moves_work hs
  | shutdown => exact moves_shutdown hs
  | flush => exact moves_flush hs
  | callShutdown | callFlush =>
    simp only [step] at hs
    split_ifs at hs
    cases hs
    exact .of_other (.inl rfl) ⟨rfl, rfl⟩ ⟨rfl, rfl⟩ (.inl rfl) nofun
  | spurious =>
    obtain ⟨q, hq, rfl⟩ := Option.map_eq_some_iff.1 hs
    exact .of_other (.inr ⟨_, hq, trivial⟩) ⟨rfl, rfl⟩ ⟨rfl, rfl⟩ (.inl rfl)
      fun _ => ⟨rfl, rfl, rfl, rfl, rfl⟩

end Async
end Clogx
