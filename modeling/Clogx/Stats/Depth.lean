/-
# The reported depth

`log_async_get_queue_depth_for` (`core/async.c`), which `log_get_stats` and the gauge
`clogx_async_queue_depth` report, and `socket_ring_depth` (`core/socket_ring.c`), for a
queue and a ring that are there.  Both load `head`, then `tail`, and return the
difference as a `size_t`; producers and the consumer go on between the two loads.

What is claimed and not freed is at most a lap, and what the producers inside a put
have claimed beyond it (`room_of_reach`, `room_of_reachable`).  The difference is a
depth exactly if the consumer frees no more records between the two loads than there
were at the first: otherwise it is the wrapped value of a negative number.
-/

import Clogx.Queue.Call
import Clogx.Queue.Delivery
import Clogx.Socket.Lines
import Mathlib.Data.Set.Card

namespace Clogx
namespace Depth

open SeqRing (Shape)
open Machine (Reach Reachable anyStep)
open Queue (szSub)

/-! ### A reader beside a machine -/

/-- Where a call stands that loads `head` and then `tail`. -/
inductive Reader
  | idle
  | loadTail (head : ℕ)
  | returned (depth : ℕ)
deriving DecidableEq

/-- A machine and the reader. -/
structure Watched (σ : Type*) where
  ring : σ
  reader : Reader

/-- A step of the machine, or of the reader; after it has returned it may call again. -/
inductive Act (α : Type*)
  | ring (a : α)
  | read

variable {σ α : Type*}

/-- `clog_atomic_load_sz(&head) - clog_atomic_load_sz(&tail)`, one load a step. -/
def readStep (head tail : σ → ℕ) (s : Watched σ) : Watched σ :=
  match s.reader with
  | .idle | .returned _ => { s with reader := .loadTail (head s.ring) }
  | .loadTail h => { s with reader := .returned (szSub h (tail s.ring)) }

/-- The machine with a reader beside it. -/
def watch (step : σ → α → Option σ) (read : Watched σ → Watched σ) (s : Watched σ) :
    Act α → Option (Watched σ)
  | .ring a => (step s.ring a).map fun r => { s with ring := r }
  | .read => some (read s)

/-- The steps of the machine meet `ok`. -/
def Within (ok : σ → α → Prop) (s : Watched σ) : Act α → Prop
  | .ring a => ok s.ring a
  | .read => True

theorem ring_readStep (head tail : σ → ℕ) (s : Watched σ) :
    (readStep head tail s).ring = s.ring := by
  unfold readStep
  split <;> rfl

/-- The steps of the machine alone: the reader waits between its two loads. -/
def Beside (ok : σ → α → Prop) (s : Watched σ) : Act α → Prop
  | .ring a => ok s.ring a
  | .read => False

/-- The reader is not between its two loads. -/
def Watched.outside (s : Watched σ) : Prop := ∀ n, s.reader ≠ .loadTail n

section Call

variable {step : σ → α → Option σ} {head tail : σ → ℕ} {ok : σ → α → Prop} {s₀ s : Watched σ}

/-- The machine beside a reader runs as it does alone. -/
theorem ring_reach (h : Reach (watch step (readStep head tail)) (Within ok) s₀ s) :
    Reach step ok s₀.ring s.ring := by
  refine h.invariant (I := fun s => Reach step ok s₀.ring s.ring) .refl ?_
  rintro s (a | _) s' hreach hok hs
  · obtain ⟨r, hr, rfl⟩ := Option.map_eq_some_iff.1 hs
    exact hreach.tail hok hr
  · cases hs
    rwa [ring_readStep]

/-- **A call** loads `head` in `s₀` and `tail` in `s`, and the machine runs between the two. -/
theorem call_returns (hout : s₀.outside)
    (h : Reach (watch step (readStep head tail)) (Beside ok) (readStep head tail s₀) s) :
    Reach step ok s₀.ring s.ring ∧
      (readStep head tail s).reader = .returned (szSub (head s₀.ring) (tail s.ring)) := by
  have hfirst : readStep head tail s₀ = ⟨s₀.ring, .loadTail (head s₀.ring)⟩ := by
    obtain ⟨ring, _ | n | _⟩ := s₀
    · rfl
    · exact absurd rfl (hout n)
    · rfl
  rw [hfirst] at h
  obtain ⟨hreach, hreader⟩ : Reach step ok s₀.ring s.ring ∧ s.reader = .loadTail (head s₀.ring) := by
    refine h.invariant (I := fun s => Reach step ok s₀.ring s.ring ∧
      s.reader = .loadTail (head s₀.ring)) ⟨.refl, rfl⟩ ?_
    rintro s (a | _) s' ⟨hreach, hreader⟩ hok hs
    · obtain ⟨r, hr, rfl⟩ := Option.map_eq_some_iff.1 hs
      exact ⟨hreach.tail hok hr, hreader⟩
    · exact hok.elim
  exact ⟨hreach, by rw [readStep, hreader]⟩

/-- Runs of the machine are runs beside the reader. -/
theorem beside_reach (head tail : σ → ℕ) {r r' : σ} (x : Reader) (h : Reach step ok r r') :
    Reach (watch step (readStep head tail)) (Beside ok) ⟨r, x⟩ ⟨r', x⟩ := by
  induction h with
  | refl => exact .refl
  | tail _ hok hs ih => exact ih.tail (a := .ring _) hok (congrArg (Option.map _) hs)

/-- A run of the machine up to the first load of a call, and one up to the second. -/
theorem exists_call (step : σ → α → Option σ) (ok : σ → α → Prop) [∀ s a, Decidable (ok s a)]
    (head tail : σ → ℕ) (r₀ : σ) (as bs : List α) {P : σ → σ → Prop}
    [∀ r r', Decidable (P r r')] (h : (Machine.runIf step ok r₀ as).any (fun r =>
      (Machine.runIf step ok r bs).any fun r' => P r r') = true) :
    ∃ s₀ s : Watched σ, Reach (watch step (readStep head tail)) (Within ok) ⟨r₀, .idle⟩ s₀ ∧
      s₀.outside ∧ Reach (watch step (readStep head tail)) (Beside ok) (readStep head tail s₀) s ∧
      P s₀.ring s.ring := by
  obtain ⟨r, hr, h⟩ := (Option.any_eq_true ..).1 h
  obtain ⟨r', hr', h⟩ := (Option.any_eq_true ..).1 h
  have hfirst := beside_reach head tail .idle (Machine.reach_of_runIf as hr)
  refine ⟨_, _, hfirst.mono fun s a ha => ?_, nofun,
    beside_reach _ _ _ (Machine.reach_of_runIf bs hr'), of_decide_eq_true h⟩
  cases a with
  | ring a => exact ha
  | read => trivial

end Call

/-! ### What a depth is -/

/-- The value `depth` that a call returns after it has loaded `head` and `tail`: at most what is
claimed so far, at most the capacity and one for each producer inside a put, and not wrapped. -/
structure Sound (claimed capacity : ℕ) (inside : ℕ∞) (head tail depth : ℕ) : Prop where
  le_claimed : depth ≤ claimed
  le_room : (depth : ℕ∞) ≤ capacity + inside
  exact : (depth : ℤ) = head - tail

/-- **The difference is a depth exactly if no more is freed between the loads than there was at the
first,** where `tail₀` was freed. -/
theorem sound_iff {claimed capacity head tail₀ tail : ℕ} {inside : ℕ∞} (hhead : head ≤ claimed)
    (hroom : ((claimed - tail : ℕ) : ℕ∞) ≤ capacity + inside) (hfirst : tail₀ ≤ head)
    (hfreed : tail₀ ≤ tail) :
    Sound claimed capacity inside head tail (szSub head tail) ↔ tail - tail₀ ≤ head - tail₀ := by
  constructor
  · intro h
    have hexact := h.exact
    omega
  · intro hle
    rw [szSub, if_pos (by omega)]
    refine ⟨(Nat.sub_le _ _).trans hhead, le_trans ?_ hroom, by omega⟩
    exact Nat.cast_le.2 (Nat.sub_le_sub_right hhead tail)

end Depth

/-! ### The queue -/

namespace Queue

open SeqRing (Shape)
open Machine (Reach)

variable {ι ρ : Type*} [DecidableEq ι] [Inhabited ρ] {g : Shape} {s : State ι ρ}

omit [DecidableEq ι] [Inhabited ρ] in
theorem TryPut.inside_of_holds {pc : TryPut ρ} {p : ℕ} (h : pc.holds = some p) :
    pc.inside = true := by
  cases pc <;> first | rfl | cases h

omit [DecidableEq ι] in
/-- A position a lap or more past `tail` is with a producer, if none has been abandoned. -/
theorem exists_holds (hi : Inv g s) (hh : History s) (hnone : s.noneAbandoned) {p : ℕ}
    (hfar : s.tail + g.capacity ≤ p) (hp : p < s.head) : ∃ t, (s.put t).holds = some p := by
  obtain ⟨c, hc⟩ := Option.isSome_iff_exists.1 ((hi.claimed p).2 hp)
  have hphase : s.phase p ≠ .published := by
    intro hpub
    have hnear : p < s.tail + g.capacity := hi.ring.near p (by
      change s.phase p ≠ .vacant
      rw [hpub]
      decide)
    omega
  exact ⟨c.thread, (hh.held p c hc hphase).resolve_left (hnone p c hc)⟩

/-- **The queue is overfull by the producers inside a put.** -/
theorem room_of_reach {junk : ℕ → Entry ρ}
    (h : Reach (step g) noTimeout (mpscQueueCreate g junk) s) :
    ((s.head - s.tail : ℕ) : ℕ∞) ≤ g.capacity + Set.encard {t | (s.put t).inside = true} := by
  obtain ⟨hi, hh⟩ := history_reachable h.any
  have hnone := noneAbandoned_of_reach h
  have hholds : ∀ p ∈ Set.Ico (s.tail + g.capacity) s.head, ∃ t, (s.put t).holds = some p :=
    fun p hp => exists_holds hi hh hnone hp.1 hp.2
  -- a thread holds one position, so the positions past the lap are at most the threads
  have hover : (Set.Ico (s.tail + g.capacity) s.head).encard ≤
      Set.encard {t | (s.put t).inside = true} := by
    rcases (Set.Ico (s.tail + g.capacity) s.head).eq_empty_or_nonempty with hempty | ⟨p₀, hp₀⟩
    · rw [hempty, Set.encard_empty]
      exact zero_le
    · have : Nonempty ι := ⟨(hholds p₀ hp₀).choose⟩
      choose! f hf using hholds
      refine Set.encard_le_encard_of_injOn (f := f) (fun p hp => ?_) fun p hp q hq heq => ?_
      · exact TryPut.inside_of_holds (hf p hp)
      · have hq' := hf q hq
        rw [← heq, hf p hp] at hq'
        exact Option.some.inj hq'
  have hcard : (Set.Ico (s.tail + g.capacity) s.head).encard =
      ((s.head - (s.tail + g.capacity) : ℕ) : ℕ∞) := by
    rw [← Finset.coe_Ico, Set.encard_coe_eq_coe_finsetCard, Nat.card_Ico]
  rw [hcard] at hover
  have hle : s.head - s.tail ≤ g.capacity + (s.head - (s.tail + g.capacity)) := by omega
  calc ((s.head - s.tail : ℕ) : ℕ∞)
      ≤ ((g.capacity + (s.head - (s.tail + g.capacity)) : ℕ) : ℕ∞) := Nat.cast_le.2 hle
    _ = g.capacity + ((s.head - (s.tail + g.capacity) : ℕ) : ℕ∞) := Nat.cast_add _ _
    _ ≤ g.capacity + Set.encard {t | (s.put t).inside = true} := by gcongr

/-- Along a run both counters advance. -/
theorem counters_le {junk : ℕ → Entry ρ} {ok : State ι ρ → Act ι ρ → Prop} {s₀ : State ι ρ}
    (h₀ : Reach (step g) ok (mpscQueueCreate g junk) s₀) (h : Reach (step g) ok s₀ s) :
    s₀.tail ≤ s₀.head ∧ s₀.head ≤ s.head ∧ s₀.tail ≤ s.tail := by
  have hring := (good_reachable h₀.any).tail_le_head
  suffices H : Reach (step g) ok (mpscQueueCreate g junk) s ∧ s₀.head ≤ s.head ∧ s₀.tail ≤ s.tail from
    ⟨hring, H.2⟩
  refine h.invariant (I := fun s => Reach (step g) ok (mpscQueueCreate g junk) s ∧
    s₀.head ≤ s.head ∧ s₀.tail ≤ s.tail) ⟨h₀, le_rfl, le_rfl⟩ ?_
  rintro s a s' ⟨hr, hhead, htail⟩ hok hs
  exact ⟨hr.tail hok hs, hhead.trans (head_le_step hs),
    htail.trans (tail_le_step (good_reachable hr.any).inv hs)⟩

end Queue

/-! ### The socket ring -/

namespace Socket

open SeqRing (Shape)
open Machine (Reachable)

variable {ι : Type*} [DecidableEq ι] {g : Shape} {s₀ s s' : State ι}

theorem head_le_step {a : Act ι} (hs : step g s a = some s') : s.head ≤ s'.head := by
  cases a with
  | get =>
    simp only [step, socketRingGetBatch] at hs
    cases hc : s.consumer <;> simp only [hc] at hs <;> try split_ifs at hs
    all_goals first
      | cases hs; done
      | (cases hs; exact le_rfl)
  | callGet m =>
    simp only [step] at hs
    split_ifs at hs <;> cases hs <;> exact le_rfl
  | call | put | mallocFails | casMiss | read | callClose | close | signal =>
    exact (beside_step (by rintro ⟨⟩) (by rintro m ⟨⟩) hs).2.2.2.1

theorem tail_le_step {a : Act ι} (hi : Inv g s) (hs : step g s a = some s') : s.tail ≤ s'.tail := by
  cases a with
  | get =>
    have hget := hi.get
    simp only [step, socketRingGetBatch] at hs
    cases hc : s.consumer <;> simp only [hc, GetOk] at hs hget <;> try split_ifs at hs
    case storeTail tail n =>
      cases hs
      rw [← hget.1]
      exact Nat.le_add_right _ _
    all_goals first
      | cases hs; done
      | (cases hs; exact le_rfl)
  | callGet m =>
    simp only [step] at hs
    split_ifs at hs <;> cases hs <;> exact le_rfl
  | call | put | mallocFails | casMiss | read | callClose | close | signal =>
    exact (beside_step (by rintro ⟨⟩) (by rintro m ⟨⟩) hs).2.1.ge

/-- Along a run both counters advance. -/
theorem counters_le (h₀ : Reachable (step g) socketRingCreate s₀) (h : Reachable (step g) s₀ s) :
    s₀.tail ≤ s₀.head ∧ s₀.head ≤ s.head ∧ s₀.tail ≤ s.tail := by
  have hring := (inv_reachable h₀).ring
  suffices H : Reachable (step g) socketRingCreate s ∧ s₀.head ≤ s.head ∧ s₀.tail ≤ s.tail from
    ⟨hring.tail_le_read.trans hring.read_le_head, H.2⟩
  refine h.invariant (I := fun s => Reachable (step g) socketRingCreate s ∧ s₀.head ≤ s.head ∧
    s₀.tail ≤ s.tail) ⟨h₀, le_rfl, le_rfl⟩ ?_
  rintro s a s' ⟨hr, hhead, htail⟩ hok hs
  exact ⟨hr.tail hok hs, hhead.trans (head_le_step hs), htail.trans (tail_le_step (inv_reachable hr) hs)⟩

omit [DecidableEq ι] in
/-- A position that is claimed and not written yet is less than a lap past `tail`. -/
theorem PutOk.near {t : ι} {pc : Put} {p : ℕ} (h : PutOk g s t pc) (hp : pc.pos = some p)
    (hvacant : s.phase p = .vacant) : p < s.tail + g.capacity := by
  cases pc with
  | copy b q | setLine b q ok =>
    obtain rfl : q = p := Option.some.inj hp
    exact h.2.2.1
  | publish b q ok | addCount b q ok | post b q ok =>
    obtain rfl : q = p := Option.some.inj hp
    have hphase := h.2.1
    rw [hvacant] at hphase
    cases hphase
  | _ => cases hp

/-- **A producer claims only where there is room,** so the ring is never overfull. -/
theorem room_of_reachable (h : Reachable (step g) socketRingCreate s) :
    s.head ≤ s.tail + g.capacity := by
  have hi := inv_reachable h
  rcases Nat.eq_zero_or_pos s.head with hzero | hpos
  · omega
  · have hlast : s.head - 1 < s.tail + g.capacity := by
      by_cases hvacant : s.phase (s.head - 1) = .vacant
      · obtain ⟨c, hc⟩ := Option.isSome_iff_exists.1 ((hi.claimed (s.head - 1)).2 (by omega))
        have hsignal : s.signalled (s.head - 1) = false := by
          refine Bool.eq_false_iff.2 fun hs => ?_
          have hpub := (hi.signalled _ hs).1
          rw [hvacant] at hpub
          cases hpub
        exact (hi.put c.thread).near (hi.held _ c hc hsignal) hvacant
      · exact hi.ring.near _ hvacant
    omega

end Socket

namespace Depth

open SeqRing (Shape)
open Machine (Reach Reachable anyStep)
open Queue (szSub)

variable {ι ρ : Type*} [DecidableEq ι] [Inhabited ρ]

/-- `log_async_get_queue_depth_for`. -/
def logAsyncGetQueueDepthFor (s : Watched (Queue.State ι ρ)) : Watched (Queue.State ι ρ) :=
  readStep Queue.State.head Queue.State.tail s

/-- `socket_ring_depth`. -/
def socketRingDepth (s : Watched (Socket.State ι)) : Watched (Socket.State ι) :=
  readStep Socket.State.head Socket.State.tail s

/-- The queue and a thread that asks for its depth. -/
def queueStep (g : Shape) :
    Watched (Queue.State ι ρ) → Act (Queue.Act ι ρ) → Option (Watched (Queue.State ι ρ)) :=
  watch (Queue.step g) logAsyncGetQueueDepthFor

/-- The socket ring and a thread that asks for its depth. -/
def ringStep (g : Shape) :
    Watched (Socket.State ι) → Act (Socket.Act ι) → Option (Watched (Socket.State ι)) :=
  watch (Socket.step g) socketRingDepth

/-- **The reported depth.**  A call of `log_async_get_queue_depth_for` loads `head` in `s₀` and
`tail` in `s`, in a run in which no producer times out; a call of `socket_ring_depth` does so in any
run.  What it returns is a depth exactly if the records that are freed between its two loads are at
most those that were there at the first. -/
theorem depth_iff (g : Shape) :
    (∀ (junk : ℕ → Queue.Entry ρ) (s₀ s : Watched (Queue.State ι ρ)),
      Reach (queueStep g) (Within Queue.noTimeout) ⟨Queue.mpscQueueCreate g junk, .idle⟩ s₀ →
      s₀.outside →
      Reach (queueStep g) (Beside Queue.noTimeout) (logAsyncGetQueueDepthFor s₀) s →
      ∃ depth, (logAsyncGetQueueDepthFor s).reader = .returned depth ∧
        (Sound s.ring.head g.capacity (Set.encard {t | (s.ring.put t).inside = true})
            s₀.ring.head s.ring.tail depth ↔
          s.ring.tail - s₀.ring.tail ≤ s₀.ring.head - s₀.ring.tail)) ∧
    ∀ s₀ s : Watched (Socket.State ι),
      Reach (ringStep g) (Within anyStep) ⟨Socket.socketRingCreate, .idle⟩ s₀ → s₀.outside →
      Reach (ringStep g) (Beside anyStep) (socketRingDepth s₀) s →
      ∃ depth, (socketRingDepth s).reader = .returned depth ∧
        (Sound s.ring.head g.capacity (Set.encard {t | (s.ring.put t).inside = true})
            s₀.ring.head s.ring.tail depth ↔
          s.ring.tail - s₀.ring.tail ≤ s₀.ring.head - s₀.ring.tail) := by
  refine ⟨fun junk s₀ s h₀ hout h => ?_, fun s₀ s h₀ hout h => ?_⟩
  · obtain ⟨hreach, hreturned⟩ := call_returns hout h
    obtain ⟨hfirst, hhead, htail⟩ := Queue.counters_le (ring_reach h₀) hreach
    exact ⟨_, hreturned, sound_iff hhead (Queue.room_of_reach ((ring_reach h₀).trans hreach)) hfirst
      htail⟩
  · obtain ⟨hreach, hreturned⟩ := call_returns hout h
    obtain ⟨hfirst, hhead, htail⟩ := Socket.counters_le (ring_reach h₀) hreach
    refine ⟨_, hreturned, sound_iff hhead ?_ hfirst htail⟩
    have hroom := Socket.room_of_reachable ((ring_reach h₀).trans hreach)
    have hsub : s.ring.head - s.ring.tail ≤ g.capacity := by omega
    exact (Nat.cast_le.2 hsub).trans le_self_add

/-- One record is there at the first load; before the second another producer has claimed a position
and the record has been freed.  Of the queue and of the ring the difference is a depth. -/
theorem depth_iff_overlap :
    (∃ s₀ s : Watched (Queue.State (Fin 3) ℕ),
      (s₀.ring.head - s₀.ring.tail = 1 ∧ s.ring.head = 2 ∧ s.ring.tail - s₀.ring.tail = 1) ∧
      ∃ depth, (logAsyncGetQueueDepthFor s).reader = .returned depth ∧
        Sound s.ring.head 2 (Set.encard {t | (s.ring.put t).inside = true}) s₀.ring.head s.ring.tail
          depth) ∧
    ∃ s₀ s : Watched (Socket.State (Fin 2)),
      (s₀.ring.head - s₀.ring.tail = 1 ∧ s.ring.head = 2 ∧ s.ring.tail - s₀.ring.tail = 1) ∧
      ∃ depth, (socketRingDepth s).reader = .returned depth ∧
        Sound s.ring.head 2 (Set.encard {t | (s.ring.put t).inside = true}) s₀.ring.head s.ring.tail
          depth := by
  constructor
  · obtain ⟨s₀, s, h₀, hout, h, hP⟩ := exists_call (Queue.step (.ofPow 1))
      (fun _ a => a.timesOut = false) Queue.State.head Queue.State.tail Queue.smallQueue
      (Queue.putAlone 0 7)
      ((.call 1 8 :: List.replicate 5 (.put 1)) ++ .callGet 4 :: List.replicate 6 .consume)
      (P := fun r r' => r.head - r.tail = 1 ∧ r'.head = 2 ∧ r'.tail - r.tail = 1) (by decide +kernel)
    obtain ⟨depth, hreturned, hiff⟩ := (depth_iff (.ofPow 1)).1 (fun _ => Queue.tombstone) s₀ s h₀
      hout h
    exact ⟨s₀, s, hP, depth, hreturned, hiff.2 (by omega)⟩
  · obtain ⟨s₀, s, h₀, hout, h, hP⟩ := exists_call (Socket.step (.ofPow 1))
      (fun _ _ => True) Socket.State.head Socket.State.tail Socket.socketRingCreate
      (Socket.putAlone 0 [97])
      ((.call 1 [98] :: List.replicate 5 (.put 1)) ++ Socket.getAlone 4 8)
      (P := fun r r' => r.head - r.tail = 1 ∧ r'.head = 2 ∧ r'.tail - r.tail = 1) (by decide +kernel)
    obtain ⟨depth, hreturned, hiff⟩ := (@depth_iff (Fin 2) ℕ _ _ (.ofPow 1)).2 s₀ s h₀ hout h
    exact ⟨s₀, s, hP, depth, hreturned, hiff.2 (by omega)⟩

/-- **What is returned otherwise.**  One record is put and taken between the two loads, and the
depth is `SIZE_MAX`; a producer has timed out, and the queue of two slots has depth 3 with no
producer inside. -/
theorem depth_wraps :
    (∃ s : Watched (Queue.State (Fin 3) ℕ),
      Reachable (queueStep (.ofPow 1)) ⟨Queue.smallQueue, .idle⟩ s ∧
        s.ring.head = 1 ∧ s.reader = .returned (2 ^ 64 - 1)) ∧
    ∃ s : Watched (Queue.State (Fin 3) ℕ),
      Reachable (queueStep (.ofPow 1)) ⟨Queue.smallQueue, .idle⟩ s ∧
        (∀ t, (s.ring.put t).inside = false) ∧ s.reader = .returned 3 := by
  constructor
  · exact Machine.exists_of_run (.read :: (Queue.putAlone 0 7).map .ring ++
      .ring (.callGet 4) :: List.replicate 5 (.ring .consume) ++ [.read]) (by decide)
  · exact Machine.exists_of_run (Queue.holeTrace.map .ring ++ [.read, .read]) (by decide)

end Depth

end Clogx
