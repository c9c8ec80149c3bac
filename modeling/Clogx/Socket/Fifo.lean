/-
# What comes out of the socket ring

The ring with two more pieces of history (`Observed`): the lines that
`socket_ring_get_batch` has returned, with the bytes they have when it returns,
and how many `socket_ring_put` calls have returned `0`.

Between its store of `tail` and its return, `socket_ring_get_batch` has one more
operation, on `count`, and the slots of the batch are already free
(`GetBatch.returning`).  A producer that copies a short line into one of them in
that window changes a line before the writer has it.  Without that
(`keepsReturning`) the lines come out as they went in, each once and in the order
of their positions.

The accounts close because each call that returns `0` has either posted its own
position or counted itself as dropped.
-/

import Clogx.Socket.Tokens

namespace Clogx
namespace Socket

open SeqRing (Shape Phase)
open Machine (Reach Reachable exists_of_run exists_of_runIf)

variable {ι : Type*}

/-- How many lines the call has passed with `tail` and not returned yet. -/
def GetBatch.returning : GetBatch → ℕ
  | .subCount n => n
  | _ => 0

/-- The call has returned `0`. -/
def Put.returnedZero : Put → Bool
  | .returned 0 => true
  | _ => false

/-- The first position that has not been returned. -/
def State.first (s : State ι) : ℕ := s.tail - s.consumer.returning

/-- The bytes of the call that owns `p`. -/
def State.putAt (s : State ι) (p : ℕ) : Option (List UInt8) := (s.claim p).map Claim.bytes

/-- The line of position `p`: in its slot, or in the arrays of the batch in progress once
that has cleared the slot. -/
def State.lineAt (g : Shape) (s : State ι) (p : ℕ) : Line :=
  if p < s.tail + s.consumer.taken then s.lines.getD (p - s.tail) noLine
  else (s.slots (g.ix p)).line

/-- The ring and what has come out of it. -/
structure Observed (ι : Type*) where
  ring : State ι
  delivered : List (List UInt8)
  zeros : ℕ

/-- What a step out of `s` adds to the lines returned. -/
def returnedLines (s s' : State ι) : Act ι → List (List UInt8)
  | .get => if s.consumer.returning = 0 then [] else s'.lines.map s'.bytesOf
  | _ => []

/-- What a step to `s'` adds to the calls that returned `0`. -/
def returnedZeros (s' : State ι) : Act ι → ℕ
  | .put t => if (s'.put t).returnedZero then 1 else 0
  | _ => 0

def Observed.create : Observed ι := ⟨socketRingCreate, [], 0⟩

/-- A step of the ring, with its history. -/
def Observed.step [DecidableEq ι] (g : Shape) (o : Observed ι) (a : Act ι) :
    Option (Observed ι) :=
  (Socket.step g o.ring a).map fun s =>
    ⟨s, o.delivered ++ returnedLines o.ring s a, o.zeros + returnedZeros s a⟩

/-- `malloc` succeeds, and no short line is copied into the `inline_buf` that a line of a
batch on its way out points into. -/
def keepsReturning (g : Shape) (o : Observed ι) : Act ι → Prop
  | .mallocFails _ => False
  | .put t => 0 < o.ring.consumer.returning → ∀ pos ∈ (o.ring.put t).copies, ∀ l ∈ o.ring.lines,
      l.ptr ≠ .inlineBuf (g.ix pos)
  | _ => True

instance (g : Shape) (o : Observed ι) : (a : Act ι) → Decidable (keepsReturning g o a)
  | .put t => inferInstanceAs
      (Decidable (0 < o.ring.consumer.returning → ∀ pos ∈ (o.ring.put t).copies, _))
  | .mallocFails _ => .isFalse id
  | .call .. | .casMiss _ | .callGet _ | .get | .read | .callClose | .close | .signal =>
    .isTrue trivial

/-- What the history says of a ring. -/
structure Fifo (g : Shape) (o : Observed ι) : Prop where
  inv : Inv g o.ring
  room : o.ring.head ≤ o.ring.tail + g.capacity
  kept : Kept g o.ring.first o.ring
  whole : ∀ p c, o.ring.claim p = some c → c.lost = false
  delivered : o.delivered.map some = (List.range o.ring.first).map o.ring.putAt
  unfailed : ∀ t b p, o.ring.put t ≠ .incDropped b p
  zeros : ∃ d, o.zeros = o.ring.posted + d ∧ o.ring.dropped = d % 2 ^ 64

variable {g : Shape} {s s' : State ι} {t : ι} {o o' : Observed ι}

/-! ### The order of the positions -/

/-- **`first` moves when a batch is returned**, by the whole batch. -/
theorem first_socketRingGetBatch (hi : Inv g s) (hs : socketRingGetBatch g s = some s') :
    s'.first = s.first + s.consumer.returning ∧
      (s.consumer.returning ≠ 0 → s'.consumer = .returned s.consumer.returning) := by
  have hget := hi.get
  unfold GetOk at hget
  unfold socketRingGetBatch at hs
  cases hc : s.consumer with
  | idle | returned | drained => simp [hc] at hs
  | subCount n =>
    simp only [hc] at hs hget
    cases hs
    refine ⟨?_, fun _ => rfl⟩
    simp only [State.first, hc, GetBatch.returning]
    omega
  | storeTail tail n =>
    simp only [hc] at hs hget
    obtain ⟨rfl, -⟩ := hget
    cases hs
    simp [State.first, hc, GetBatch.returning]
  | semWait m =>
    simp only [hc] at hs
    split_ifs at hs
    cases hs
    simp [State.first, hc, GetBatch.returning]
  | loadSeq m head tail n =>
    simp only [hc] at hs
    split_ifs at hs <;> cases hs
    · simp [State.first, hc, GetBatch.returning]
    · simp only [State.first, hc, afterLoop]
      split_ifs <;> simp [GetBatch.returning]
  | take m head tail n =>
    simp only [hc] at hs
    cases hs
    simp only [State.first, hc, loopTop, afterLoop]
    split_ifs <;> simp [GetBatch.returning]
  | loadTail m head =>
    simp only [hc] at hs
    cases hs
    simp only [State.first, hc, loopTop, afterLoop]
    split_ifs <;> simp [GetBatch.returning]
  | loadClosed | emptyHead | emptyTail | loadHead | reloadClosed =>
    simp only [hc] at hs
    cases hs
    simp only [State.first, hc]
    first
      | (split_ifs <;> exact ⟨rfl, fun h => absurd rfl h⟩)
      | exact ⟨rfl, fun h => absurd rfl h⟩

/-- The lines of a batch on its way out are those of its positions. -/
theorem Inv.mem_returning (hi : Inv g s) {p : ℕ} (hp : s.first ≤ p) (hlt : p < s.tail) :
    0 < s.consumer.returning ∧ s.item p ∈ s.lines := by
  have hget := hi.get
  unfold GetOk at hget
  unfold State.first at hp
  cases hc : s.consumer with
  | subCount n =>
    rw [hc] at hget hp
    refine ⟨hget.1, ?_⟩
    rw [hi.lines, State.base, hc]
    refine List.mem_map_of_mem (List.mem_range'_1.2 ?_)
    simp only [GetBatch.taken, GetBatch.batched]
    simp only [GetBatch.returning] at hp
    omega
  | _ =>
    rw [hc] at hp
    exact absurd hlt (not_lt.2 hp)

section Steps

variable [DecidableEq ι]

theorem first_step {a : Act ι} (hi : Inv g s) (hs : step g s a = some s') :
    s.first ≤ s'.first ∧ (a ≠ .get → s'.first = s.first) := by
  by_cases hget : a = .get
  · subst hget
    have := (first_socketRingGetBatch hi hs).1
    exact ⟨by omega, fun h => absurd rfl h⟩
  · suffices he : s'.first = s.first from ⟨he.ge, fun _ => he⟩
    by_cases hcall : ∃ m, a = .callGet m
    · obtain ⟨m, rfl⟩ := hcall
      simp only [step] at hs
      split at hs
      case isTrue hf =>
        cases hs
        have hz : s.consumer.returning = 0 := by
          cases hc : s.consumer <;> rw [hc] at hf <;> first | rfl | cases hf
        simp only [State.first, hz]
        split_ifs <;> rfl
      case isFalse => cases hs
    · push Not at hcall
      obtain ⟨hconsumer, htail, -⟩ := beside_step hget hcall hs
      rw [State.first, State.first, hconsumer, htail]

/-- What is written keeps its owner. -/
theorem written_step {a : Act ι} (hi : Inv g s) (hs : step g s a = some s') : Written s s' := by
  by_cases ha : ∃ t, a = .put t
  · obtain ⟨t, rfl⟩ := ha
    exact (written_socketRingPut hi hs).1
  · push Not at ha
    obtain ⟨hphase, hclaim, -⟩ := frame_step hi ha hs
    exact fun p hp => ⟨by rw [hphase]; exact hp, hclaim p hp⟩

theorem Fifo.kept_step {a : Act ι} (h : Fifo g o) (hok : keepsReturning g o a)
    (hs : step g o.ring a = some s') : Kept g s'.first s' := by
  refine Socket.kept_step h.kept (first_step h.inv hs).1 h.inv ?_ hs
  rintro t rfl pos hpos p hp hlt
  obtain ⟨hret, hmem⟩ := h.inv.mem_returning hp hlt
  exact hok hret pos hpos _ hmem

/-- **The step that returns a batch delivers its positions.** -/
theorem Fifo.delivered_step {a : Act ι} (h : Fifo g o) (hs : step g o.ring a = some s') :
    (o.delivered ++ returnedLines o.ring s' a).map some =
      (List.range s'.first).map s'.putAt := by
  have hinv := inv_step h.inv hs
  -- what was delivered before is still owned by the same calls
  have hold : (List.range o.ring.first).map s'.putAt = (List.range o.ring.first).map o.ring.putAt := by
    refine List.map_congr_left fun p hp => ?_
    have hlt : p < o.ring.tail := (List.mem_range.1 hp).trans_le (Nat.sub_le _ _)
    have hpub := h.inv.ring.published_of_lt_read p (hlt.trans_le (Nat.le_add_right _ _))
    rw [State.putAt, State.putAt, (written_step h.inv hs p (by
      show o.ring.ring.phase p ≠ _
      rw [hpub]
      decide)).2]
  rw [List.map_append, h.delivered, ← hold]
  by_cases hget : a = .get ∧ o.ring.consumer.returning ≠ 0
  · obtain ⟨rfl, hne⟩ := hget
    obtain ⟨hfirst, hret⟩ := first_socketRingGetBatch h.inv hs
    have hc := hret hne
    have htail : s'.tail = o.ring.first + o.ring.consumer.returning := by
      rw [← hfirst, State.first, hc]
      rfl
    rw [returnedLines, if_neg hne, hfirst, List.range_add, List.map_append, hinv.lines]
    congr 1
    simp only [State.base, hc, GetBatch.taken, GetBatch.batched, List.range'_eq_map_range,
      List.map_map, Nat.zero_add, htail, Nat.add_sub_cancel]
    refine List.map_congr_left fun i hi => ?_
    have hlt := List.mem_range.1 hi
    have hpub := hinv.ring.published_of_lt_read (o.ring.first + i)
      (show o.ring.first + i < s'.tail + s'.consumer.taken by rw [htail]; omega)
    -- the memory read on return is that before the step
    have hsame := byWriter_socketRingGetBatch h.inv hs
    have hv : o.ring.phase (o.ring.first + i) ≠ .vacant := by
      rw [← hsame.phase]
      show s'.ring.phase _ ≠ _
      rw [hpub]
      decide
    obtain ⟨c, hcl, -, hbytes⟩ := h.kept.line h.inv (Nat.le_add_right _ i) hv
    show some (s'.bytesOf (s'.item (o.ring.first + i))) = s'.putAt (o.ring.first + i)
    rw [State.putAt, hsame.claim, hcl, hsame.item, Option.map_some, ← hbytes (h.whole _ c hcl)]
    simp only [State.bytesOf, hsame.buf]
  · have hempty : returnedLines o.ring s' a = [] := by
      cases a with
      | get => exact if_pos (not_not.1 fun hne => hget ⟨rfl, hne⟩)
      | _ => rfl
    have hfirst : s'.first = o.ring.first := by
      by_cases ha : a = .get
      · subst ha
        have := (first_socketRingGetBatch h.inv hs).1
        have : o.ring.consumer.returning = 0 := not_not.1 fun hne => hget ⟨rfl, hne⟩
        omega
      · exact (first_step h.inv hs).2 ha
    rw [hempty, hfirst]
    simp

/-! ### The accounts -/

/-- **How a call ends, as far as the accounts go**, when `malloc` has not failed: it posts
its position and returns `0`, or counts itself as dropped and returns `0`. -/
theorem accounts_socketRingPut (hi : Inv g s)
    (hwhole : ∀ p c, s.claim p = some c → c.lost = false) (hinc : ∀ b p, s.put t ≠ .incDropped b p)
    (hs : socketRingPut g s t = some s') : (∀ b p, s'.put t ≠ .incDropped b p) ∧
    ((s'.put t).returnedZero = false ∧ s'.posted = s.posted ∧ s'.dropped = s.dropped ∨
      (s'.put t).returnedZero = true ∧ s'.posted = s.posted + 1 ∧ s'.dropped = s.dropped ∨
      (s'.put t).returnedZero = true ∧ s'.posted = s.posted ∧
        s'.dropped = (s.dropped + 1) % 2 ^ 64) := by
  have hput := hi.put t
  unfold socketRingPut at hs
  cases hpc : s.put t with
  | idle | returned => simp [hpc] at hs
  | incDropped b p => exact absurd hpc (hinc b p)
  | loadClosed | loadTail =>
    simp only [hpc] at hs
    split_ifs at hs <;> cases hs <;> rw [setPut_put] <;>
      exact ⟨fun _ _ => nofun, .inl ⟨rfl, rfl, rfl⟩⟩
  | loadHead | setLine | publish | addCount =>
    simp only [hpc] at hs
    cases hs
    rw [setPut_put]
    exact ⟨fun _ _ => nofun, .inl ⟨rfl, rfl, rfl⟩⟩
  | copy b pos =>
    simp only [hpc] at hs
    split_ifs at hs <;> cases hs <;> rw [setPut_put] <;>
      exact ⟨fun _ _ => nofun, .inl ⟨rfl, rfl, rfl⟩⟩
  | full b =>
    simp only [hpc] at hs
    cases hs
    rw [setPut_put]
    exact ⟨fun _ _ => nofun, .inr (.inr ⟨rfl, rfl, rfl⟩)⟩
  | cas b head =>
    simp only [hpc] at hs
    split_ifs at hs with he <;> cases hs <;> rw [setPut_put]
    · subst he
      exact ⟨fun _ _ => nofun, .inl ⟨rfl, hi.posted_claim, rfl⟩⟩
    · exact ⟨fun _ _ => nofun, .inl ⟨rfl, rfl, rfl⟩⟩
  | post b pos ok =>
    simp only [hpc] at hs
    rw [hpc] at hput
    obtain ⟨hc, -, hsig⟩ := hput
    have hok : ok = true := by
      have := hwhole pos _ hc
      simpa using this
    cases hs
    rw [setPut_put, if_pos hok]
    refine ⟨fun _ _ => nofun, .inr (.inl ⟨rfl, ?_, rfl⟩)⟩
    have hcount := countP_range_update hsig s.head
    rw [if_pos ((hi.claimed pos).1 (by rw [hc]; rfl))] at hcount
    exact hcount

/-- Steps outside `socket_ring_put` leave the accounts alone. -/
theorem accounts_beside {a : Act ι} (hi : Inv g s) (hput : ∀ t, a ≠ .put t)
    (hmalloc : ∀ t, a ≠ .mallocFails t) (hs : step g s a = some s') :
    s'.posted = s.posted ∧ s'.dropped = s.dropped ∧ s'.claim = s.claim ∧ s'.head = s.head ∧
      s.tail ≤ s'.tail ∧ ∀ t b p, s'.put t = .incDropped b p → s.put t = .incDropped b p := by
  cases a with
  | put t => exact absurd rfl (hput t)
  | mallocFails t => exact absurd rfl (hmalloc t)
  | get =>
    have h := byWriter_socketRingGetBatch hi hs
    refine ⟨?_, h.dropped, h.claim, h.head, h.tail, fun t b p => by rw [h.put]; exact id⟩
    rw [State.posted, State.posted, h.head, h.signalled]
  | call u b =>
    simp only [step] at hs
    by_cases hin : (s.put u).inside = true
    · rw [if_pos hin] at hs
      cases hs
    · rw [if_neg hin] at hs
      cases hs
      refine ⟨rfl, rfl, rfl, rfl, le_rfl, fun t b' p ht => ?_⟩
      by_cases hu : t = u
      · subst hu
        rw [setPut_put] at ht
        split_ifs at ht
      · rwa [put_of_ne s hu] at ht
  | casMiss u =>
    obtain ⟨b, head, -, rfl⟩ := casMiss_eq hs
    refine ⟨rfl, rfl, rfl, rfl, le_rfl, fun t b' p ht => ?_⟩
    by_cases hu : t = u
    · subst hu
      rw [setPut_put] at ht
      cases ht
    · rwa [put_of_ne s hu] at ht
  | callGet m =>
    simp only [step] at hs
    split at hs
    · cases hs
      exact ⟨rfl, rfl, rfl, rfl, le_rfl, fun _ _ _ => id⟩
    · cases hs
  | read =>
    obtain ⟨n, l, -, -, rfl⟩ := readLine_eq hs
    exact ⟨rfl, rfl, rfl, rfl, le_rfl, fun _ _ _ => id⟩
  | callClose =>
    simp only [step] at hs
    split_ifs at hs
    cases hs
    exact ⟨rfl, rfl, rfl, rfl, le_rfl, fun _ _ _ => id⟩
  | close =>
    obtain ⟨-, rfl⟩ | ⟨-, rfl⟩ := close_cases hs
    · exact ⟨rfl, rfl, rfl, rfl, le_rfl, fun _ _ _ => id⟩
    · exact ⟨rfl, rfl, rfl, rfl, le_rfl, fun _ _ _ => id⟩
  | signal =>
    cases hs
    exact ⟨rfl, rfl, rfl, rfl, le_rfl, fun _ _ _ => id⟩

/-- A claim is made where the producer has seen room. -/
theorem claim_socketRingPut (hi : Inv g s) (hs : socketRingPut g s t = some s') :
    s'.tail = s.tail ∧ (s'.head = s.head ∨ s'.head = s.head + 1 ∧ s.head < s.tail + g.capacity) ∧
      (∀ p c, s'.claim p = some c → s.claim p = some c ∨ c.lost = false) ∧
      ∀ u, u ≠ t → s'.put u = s.put u := by
  have hput := hi.put t
  obtain ⟨k, d, pc, rfl⟩ | ⟨b, hpc, rfl⟩ | ⟨b, pos, hpc, hb, rfl⟩ | ⟨b, pos, ok, hpc, rfl⟩ |
    ⟨b, pos, ok, hpc, rfl⟩ | ⟨b, pos, ok, hpc, rfl⟩ := put_cases hs
  case inr.inl =>
    rw [hpc] at hput
    refine ⟨rfl, .inr ⟨rfl, hput.2 rfl⟩, fun p c hc => ?_, fun u hu => put_of_ne _ hu _⟩
    by_cases hp : p = s.head
    · subst hp
      have hc' : Function.update s.claim s.head _ s.head = some c := hc
      rw [Function.update_self] at hc'
      obtain rfl := Option.some.inj hc'
      exact .inr rfl
    · have hc' : Function.update s.claim s.head _ p = some c := hc
      rw [Function.update_of_ne hp] at hc'
      exact .inl hc'
  all_goals exact ⟨rfl, .inl rfl, fun p c hc => .inl hc, fun u hu => put_of_ne _ hu _⟩

/-- **Every step keeps the order and the accounts.** -/
theorem fifo_step {a : Act ι} (h : Fifo g o) (hok : keepsReturning g o a)
    (ho : o.step g a = some o') : Fifo g o' := by
  obtain ⟨s, hs, rfl⟩ := Option.map_eq_some_iff.1 ho
  obtain ⟨d, hzeros, hdropped⟩ := h.zeros
  have hmalloc : ∀ t, a ≠ .mallocFails t := by
    rintro t rfl
    exact hok
  by_cases ha : ∃ t, a = .put t
  · obtain ⟨t, rfl⟩ := ha
    obtain ⟨htail, hhead, hclaim, hothers⟩ := claim_socketRingPut h.inv hs
    obtain ⟨hinc, hacc⟩ := accounts_socketRingPut h.inv h.whole (h.unfailed t) hs
    refine ⟨inv_step h.inv hs, ?_, h.kept_step hok hs, fun p c hc => ?_, h.delivered_step hs,
      fun u => ?_, ?_⟩
    · have := h.room
      show s.head ≤ s.tail + g.capacity
      omega
    · rcases hclaim p c hc with hold | hnew
      · exact h.whole p c hold
      · exact hnew
    · by_cases hu : u = t
      · exact hu ▸ hinc
      · show ∀ b p, s.put u ≠ _
        rw [hothers u hu]
        exact h.unfailed u
    · show ∃ d, o.zeros + (if (s.put t).returnedZero then 1 else 0) = s.posted + d ∧
        s.dropped = d % 2 ^ 64
      obtain ⟨hz, hp, hd⟩ | ⟨hz, hp, hd⟩ | ⟨hz, hp, hd⟩ := hacc
      · exact ⟨d, by simp [hz, hp, hzeros], hd.trans hdropped⟩
      · exact ⟨d, by simp only [hz, if_true, hp, hzeros]; omega, hd.trans hdropped⟩
      · refine ⟨d + 1, by simp only [hz, if_true, hp, hzeros]; omega, ?_⟩
        rw [hd, hdropped, Nat.mod_add_mod]
  · push Not at ha
    obtain ⟨hposted, hdrop, hclaim, hhead, htail, hinc⟩ := accounts_beside h.inv ha hmalloc hs
    have hz : returnedZeros s a = 0 := by
      cases a with
      | put t => exact absurd rfl (ha t)
      | _ => rfl
    refine ⟨inv_step h.inv hs, ?_, h.kept_step hok hs, fun p c hc => ?_, h.delivered_step hs,
      fun u b p hu => h.unfailed u b p (hinc u b p hu), d, ?_, hdrop.trans hdropped⟩
    · have := h.room
      show s.head ≤ s.tail + g.capacity
      omega
    · have hc' : s.claim p = some c := hc
      rw [hclaim] at hc'
      exact h.whole p c hc'
    · show o.zeros + returnedZeros s a = s.posted + d
      rw [hz, hposted, hzeros, Nat.add_zero]

end Steps

theorem fifo_create : Fifo g (Observed.create : Observed ι) where
  inv := inv_create
  room := Nat.zero_le _
  kept _ _ _ hp := absurd rfl hp
  whole _ _ hc := nomatch hc
  delivered := rfl
  unfailed _ _ _ := nofun
  zeros := ⟨0, rfl, rfl⟩

/-- **The line of a published position is where the writer will find it.** -/
theorem Fifo.lineAt (h : Fifo g o) {p : ℕ} (hp : o.ring.tail ≤ p)
    (hpub : o.ring.phase p = .published) :
    o.ring.putAt p = some (o.ring.bytesOf (o.ring.lineAt g p)) := by
  have hv : o.ring.phase p ≠ .vacant := by rw [hpub]; decide
  have hfirst : o.ring.first ≤ p := (Nat.sub_le _ _).trans hp
  obtain ⟨c, hcl, -, hbytes⟩ := h.kept.line h.inv hfirst hv
  have hline : o.ring.lineAt g p = o.ring.item p := by
    unfold State.lineAt
    split_ifs with hlt
    · -- the batch in progress starts at `tail`
      have hb : o.ring.consumer.taken ≠ 0 → o.ring.consumer.batched = 0 := by
        cases o.ring.consumer <;> first | exact fun _ => rfl | exact fun hne => absurd rfl hne
      rw [h.inv.lines, State.base, hb (by omega), List.getD_eq_getElem?_getD, List.getElem?_map,
        List.getElem?_range' (by omega)]
      simp only [Option.map_some, Option.getD_some]
      congr 1
      omega
    · exact h.inv.ring.val_of_written p (not_lt.1 hlt) hv
  rw [State.putAt, hcl, hline, Option.map_some, hbytes (h.whole p c hcl)]

variable [DecidableEq ι]

/-- **Lines come out of the socket ring once each and in order**, in every run in which
`malloc` succeeds and no producer copies over a batch on its way out.  The lines
returned are those of the calls that own the positions up to the last batch
returned.  Once no producer is inside `socket_ring_put`, the calls that returned
`0` are the positions claimed and the lines counted as dropped (a 64-bit
counter), and every position in `[tail, head)` is published with the line of its
call.  No more than a lap is ever claimed. -/
theorem lines_fifo (g : Shape) (o : Observed ι)
    (h : Reach (Observed.step g) (keepsReturning g) Observed.create o) :
    o.delivered.map some =
        (List.range (o.ring.tail - o.ring.consumer.returning)).map o.ring.putAt ∧
    ((∀ t, (o.ring.put t).inside = false) →
      o.zeros % 2 ^ 64 = (o.ring.head + o.ring.dropped) % 2 ^ 64 ∧
      (o.zeros < 2 ^ 64 → o.zeros = o.ring.head + o.ring.dropped) ∧
      ∀ p, o.ring.tail ≤ p → p < o.ring.head → (o.ring.slots (g.ix p)).seq = p + 1 ∧
        o.ring.putAt p = some (o.ring.bytesOf (o.ring.lineAt g p))) ∧
    o.ring.head - o.ring.tail ≤ g.capacity := by
  have hf : Fifo g o := h.invariant (I := Fifo g) fifo_create fun _ _ _ hi hok hs =>
    fifo_step hi hok hs
  refine ⟨hf.delivered, fun hq => ?_, by have := hf.room; omega⟩
  obtain ⟨d, hzeros, hdropped⟩ := hf.zeros
  rw [hf.inv.posted_of_quiet hq] at hzeros
  refine ⟨?_, fun hlt => ?_, fun p hp hlt => ?_⟩
  · rw [hzeros, hdropped, Nat.add_mod_mod]
  · rw [hzeros, hdropped, Nat.mod_eq_of_lt (by omega)]
  · have hpub := (hf.inv.signalled p (hf.inv.signalled_of_quiet hq hlt)).1
    exact ⟨hf.inv.ring.seq_of_published p hp hpub, hf.lineAt hp hpub⟩

/-- Two lines put, one of them returned. -/
theorem lines_fifo_putAlone : ∃ o : Observed (Fin 2),
    Reach (Observed.step (.ofPow 1)) (keepsReturning (.ofPow 1)) Observed.create o ∧
      o.delivered = [[97]] ∧ o.zeros = 2 ∧
      o.zeros % 2 ^ 64 = (o.ring.head + o.ring.dropped) % 2 ^ 64 := by
  obtain ⟨o, hr, ho⟩ : ∃ o : Observed (Fin 2),
      Reach (Observed.step (.ofPow 1)) (keepsReturning (.ofPow 1)) Observed.create o ∧
        (o.delivered = [[97]] ∧ o.zeros = 2 ∧ ∀ t, (o.ring.put t).inside = false) := by
    apply exists_of_runIf (List.flatten [putAlone 0 [97], putAlone 1 [98], getAlone 1 8])
    decide +kernel
  exact ⟨o, hr, ho.1, ho.2.1, ((lines_fifo (.ofPow 1) o hr).2.1 ho.2.2).1⟩

/-- With two slots: `socket_ring_get_batch` has stored `tail` for the line `a` of position 0
and is about to return; positions 1 and 2 are put, position 2 in the slot of position 0. -/
theorem delivered_overwritten : ∃ o : Observed (Fin 2),
    Reachable (Observed.step (.ofPow 1)) Observed.create o ∧
      o.ring.consumer = .returned 1 ∧ o.ring.tail = 1 ∧ o.delivered = [[99]] ∧
      o.ring.putAt 0 = some [97] ∧ o.ring.closed = false ∧
      ∀ p, p < o.ring.head → (o.ring.claim p).map Claim.lost = some false := by
  apply exists_of_run (List.flatten
    [putAlone 0 [97], getAlone 64 7, putAlone 0 [98], putAlone 1 [99], [.get]])
  decide +kernel

end Socket
end Clogx
