/-
# The lines of a batch

`socket_ring_get_batch` hands out pointers and stores `tail` before the writer
has looked at a single byte behind them.  A line on the heap is the writer's
own.  A short line is still in the `inline_buf` of its slot, and that slot is
free again: the next lap of the producers writes over it.

So a line is what it was when it was put as long as nobody copies a short line
into the slot of a line of the current batch that the writer has yet to read
(`keepsUnread`).
-/

import Clogx.Socket.Steps

namespace Clogx
namespace Socket

open SeqRing (Shape Phase)
open Machine (Reach Reachable exists_of_run exists_of_runIf)

variable {ι : Type*}

/-- The position for which the next operation of the call copies a short line. -/
def Put.copies : Put → Option ℕ
  | .copy b pos => if b.length < socketRingInlineLen then some pos else none
  | _ => none

/-- No short line is copied into the `inline_buf` that a line of the current batch,
not yet read, points into. -/
def keepsUnread (g : Shape) (s : State ι) : Act ι → Prop
  | .put t => ∀ pos ∈ (s.put t).copies, ∀ l ∈ s.lines.drop s.next, l.ptr ≠ .inlineBuf (g.ix pos)
  | _ => True

instance (g : Shape) (s : State ι) : (a : Act ι) → Decidable (keepsUnread g s a)
  | .put t => inferInstanceAs (Decidable (∀ pos ∈ (s.put t).copies, _))
  | .call .. | .mallocFails _ | .casMiss _ | .callGet _ | .get | .read | .callClose | .close
  | .signal => .isTrue trivial

/-- The first position whose line the writer may still read. -/
def State.need (s : State ι) : ℕ := s.base + s.next

/-- Short lines the writer may still read are in their slots, and what it has read is
what was put. -/
structure Intact (g : Shape) (s : State ι) : Prop where
  kept : ∀ p c, s.need ≤ p → s.phase p ≠ .vacant → s.claim p = some c → c.lost = false →
    Buffered g s p c.bytes
  reads : ∀ e ∈ s.reads, ∃ c, s.claim e.1 = some c ∧ e.2 = c.bytes ∧ s.phase e.1 ≠ .vacant

variable {g : Shape} {s s' : State ι} {t : ι} {pos lo lo' : ℕ}

/-- Short lines from position `lo` on are in their slots. -/
def Kept (g : Shape) (lo : ℕ) (s : State ι) : Prop :=
  ∀ p c, lo ≤ p → s.phase p ≠ .vacant → s.claim p = some c → c.lost = false →
    Buffered g s p c.bytes

/-- What is written stays written, by the same call. -/
def Written (s s' : State ι) : Prop :=
  ∀ p, s.phase p ≠ .vacant → s'.phase p ≠ .vacant ∧ s'.claim p = s.claim p

/-- What a step has to leave alone, and what it has to provide. -/
theorem Kept.of_step (h : Kept g lo s) (hlo : lo ≤ lo') (hold : Written s s')
    (hnew : ∀ p c, s.phase p = .vacant → s'.phase p ≠ .vacant → s'.claim p = some c →
      Buffered g s' p c.bytes)
    (hbuf : ∀ p c, lo ≤ p → s.phase p ≠ .vacant → s.claim p = some c → c.lost = false →
      c.bytes.length < socketRingInlineLen →
      (s'.slots (g.ix p)).inlineBuf = (s.slots (g.ix p)).inlineBuf) : Kept g lo' s' := by
  intro p c hp hph hc hlost
  by_cases hv : s.phase p = .vacant
  · exact hnew p c hv hph hc
  · rw [(hold p hv).2] at hc
    intro hlt
    rw [hbuf p c (hlo.trans hp) hv hc hlost hlt]
    exact h p c (hlo.trans hp) hv hc hlost hlt

/-- The line of an unread position of the batch is among those not to be touched. -/
theorem Inv.mem_unread (h : Inv g s) {p : ℕ} (hp : s.need ≤ p) (hlt : p < s.tail) :
    s.item p ∈ s.lines.drop s.next := by
  have hnext := h.next
  have hget := h.get
  have htk : s.consumer.batched ≠ 0 → s.consumer.taken = 0 ∧ s.consumer.batched ≤ s.tail := by
    unfold GetOk at hget
    cases hc : s.consumer with
    | subCount n | returned n =>
      rw [hc] at hget
      exact fun _ => ⟨rfl, hget.2⟩
    | _ => exact fun hne => absurd rfl hne
  have hb : s.consumer.batched ≠ 0 := by
    intro hz
    rw [State.need, State.base, hz] at hp
    omega
  obtain ⟨htk, hle⟩ := htk hb
  rw [State.need, State.base] at hp
  rw [h.lines, State.base, htk, List.mem_drop_iff_getElem]
  refine ⟨p - (s.tail - s.consumer.batched) - s.next, ?_, ?_⟩
  · rw [List.length_map, List.length_range']
    omega
  · rw [List.getElem_map, List.getElem_range']
    congr 1
    omega

/-- A store to another field of a slot leaves every `inline_buf` alone. -/
theorem inlineBuf_update (slots : ℕ → Slot) (i : ℕ) (l : Line) (q j : ℕ) :
    (Function.update slots i ⟨(slots i).inlineBuf, l, q⟩ j).inlineBuf = (slots j).inlineBuf := by
  by_cases hj : j = i
  · subst hj
    rw [Function.update_self]
  · rw [Function.update_of_ne hj]

/-- What a step of `socket_ring_get_batch` leaves alone: the producers and the closer, the
history, and the memory the lines of a batch are read from. -/
structure ByWriter (s s' : State ι) : Prop where
  head : s'.head = s.head
  tail : s.tail ≤ s'.tail
  dropped : s'.dropped = s.dropped
  closed : s'.closed = s.closed
  put : s'.put = s.put
  next : s'.next = s.next
  closer : s'.closer = s.closer
  phase : s'.phase = s.phase
  item : s'.item = s.item
  claim : s'.claim = s.claim
  signalled : s'.signalled = s.signalled
  reads : s'.reads = s.reads
  buf : ∀ i, (s'.slots i).inlineBuf = (s.slots i).inlineBuf

theorem byWriter_socketRingGetBatch (hi : Inv g s) (hs : socketRingGetBatch g s = some s') :
    ByWriter s s' := by
  have hget := hi.get
  unfold GetOk at hget
  unfold Socket.socketRingGetBatch at hs
  cases hc : s.consumer with
  | idle | returned | drained => simp [hc] at hs
  | take m head tail n =>
    simp only [hc] at hs
    cases hs
    exact ⟨rfl, le_rfl, rfl, rfl, rfl, rfl, rfl, rfl, rfl, rfl, rfl, rfl,
      inlineBuf_update s.slots (g.ix (tail + n)) _ _⟩
  | storeTail tail n =>
    simp only [hc] at hs hget
    obtain ⟨rfl, -⟩ := hget
    cases hs
    exact ⟨rfl, Nat.le_add_right _ _, rfl, rfl, rfl, rfl, rfl, rfl, rfl, rfl, rfl, rfl,
      fun _ => rfl⟩
  | semWait | loadSeq =>
    simp only [hc] at hs
    split_ifs at hs <;> cases hs <;>
      exact ⟨rfl, le_rfl, rfl, rfl, rfl, rfl, rfl, rfl, rfl, rfl, rfl, rfl, fun _ => rfl⟩
  | _ =>
    simp only [hc] at hs
    cases hs
    exact ⟨rfl, le_rfl, rfl, rfl, rfl, rfl, rfl, rfl, rfl, rfl, rfl, rfl, fun _ => rfl⟩

variable [DecidableEq ι]

/-- Outside `socket_ring_put` nothing is written. -/
theorem frame_step {a : Act ι} (hi : Inv g s) (ha : ∀ t, a ≠ .put t)
    (hs : step g s a = some s') :
    s'.phase = s.phase ∧ (∀ p, s.phase p ≠ .vacant → s'.claim p = s.claim p) ∧
      (a ≠ .read → s'.reads = s.reads) ∧
      ∀ i, (s'.slots i).inlineBuf = (s.slots i).inlineBuf := by
  cases a with
  | put t => exact absurd rfl (ha t)
  | get =>
    have h := byWriter_socketRingGetBatch hi hs
    exact ⟨h.phase, fun _ _ => by rw [h.claim], fun _ => h.reads, h.buf⟩
  | read =>
    obtain ⟨n, l, -, -, rfl⟩ := readLine_eq hs
    exact ⟨rfl, fun _ _ => rfl, fun h => absurd rfl h, fun _ => rfl⟩
  | mallocFails t =>
    have hput := hi.put t
    obtain ⟨b, pos, hpc, -, rfl⟩ := mallocFails_eq hs
    rw [hpc] at hput
    refine ⟨rfl, fun p hp => Function.update_of_ne ?_ _ _, fun _ => rfl, fun _ => rfl⟩
    rintro rfl
    exact hp hput.2.1
  | call t b =>
    simp only [step] at hs
    split at hs
    · cases hs
    · cases hs
      exact ⟨rfl, fun _ _ => rfl, fun _ => rfl, fun _ => rfl⟩
  | callGet m =>
    simp only [step] at hs
    split at hs
    · cases hs
      exact ⟨rfl, fun _ _ => rfl, fun _ => rfl, fun _ => rfl⟩
    · cases hs
  | casMiss t =>
    obtain ⟨b, head, -, rfl⟩ := casMiss_eq hs
    exact ⟨rfl, fun _ _ => rfl, fun _ => rfl, fun _ => rfl⟩
  | callClose =>
    simp only [step] at hs
    split_ifs at hs
    cases hs
    exact ⟨rfl, fun _ _ => rfl, fun _ => rfl, fun _ => rfl⟩
  | close =>
    obtain ⟨-, rfl⟩ | ⟨-, rfl⟩ := close_cases hs
    · exact ⟨rfl, fun _ _ => rfl, fun _ => rfl, fun _ => rfl⟩
    · exact ⟨rfl, fun _ _ => rfl, fun _ => rfl, fun _ => rfl⟩
  | signal =>
    cases hs
    exact ⟨rfl, fun _ _ => rfl, fun _ => rfl, fun _ => rfl⟩

/-- **A copy into `inline_buf`.**  Positions at or past `tail` are in other slots; the
slots of the short lines before it are the ones to be protected. -/
theorem Kept.copyInline (h : Kept g lo s) (hlo : lo ≤ lo') (hi : Inv g s) {b : List UInt8}
    (hpc : s.put t = .copy b pos)
    (hkeep : ∀ p, lo ≤ p → p < s.tail → (s.item p).ptr ≠ .inlineBuf (g.ix pos)) :
    Kept g lo' ((s.copyInline g pos b).setPut t (.setLine b pos true)) := by
  have hput := hi.put t
  rw [hpc] at hput
  obtain ⟨hc, hv, hw, -⟩ := hput
  have htail := hi.tail_le (p := pos) (by rw [hv]; decide)
  refine h.of_step hlo (fun _ hp => ⟨hp, rfl⟩) (fun p _ hp hne _ => absurd hp hne)
    fun p c hp hph hcl hlost hlt => ?_
  have hix : g.ix p ≠ g.ix pos := by
    rcases lt_or_ge p s.tail with hlt' | hge
    · -- a short line of the batch points into its own slot
      obtain ⟨c', hc', hline⟩ := hi.content p hph
      obtain rfl := Option.some.inj (hcl.symm.trans hc')
      have hptr := hkeep p hp hlt'
      rw [hline, Claim.line, lineFor, hlost, if_pos (by rfl), if_pos hlt] at hptr
      exact fun he => hptr (by rw [he])
    · intro he
      have := g.ix_inj hge (hi.ring.near p hph) htail hw he
      rw [this] at hph
      exact hph hv
  show (Function.update s.slots (g.ix pos) _ (g.ix p)).inlineBuf = _
  rw [Function.update_of_ne hix]

/-- The stores to `line`, `len` and `heap` make the position one the writer will read; its
short line is in place by then. -/
theorem Kept.setLine (h : Kept g lo s) (hlo : lo ≤ lo') {b : List UInt8} {ok : Bool}
    (hput : PutOk g s t (.setLine b pos ok))
    (hold : Written s ((s.setLine g pos (lineFor g pos b ok)).setPut t (.publish b pos ok))) :
    Kept g lo' ((s.setLine g pos (lineFor g pos b ok)).setPut t (.publish b pos ok)) := by
  obtain ⟨hc, hv, -, -, hbuf, -⟩ := hput
  have hsame (i : ℕ) : (((s.setLine g pos (lineFor g pos b ok)).setPut t
      (.publish b pos ok)).slots i).inlineBuf = (s.slots i).inlineBuf :=
    inlineBuf_update s.slots (g.ix pos) _ _ i
  refine h.of_step hlo hold (fun p c hp hne hcl => ?_) fun _ _ _ _ _ _ _ => hsame _
  -- the one position written by this step
  have hpos : p = pos := by
    by_contra hne'
    have hne'' : Function.update s.phase pos .written p ≠ .vacant := hne
    rw [Function.update_of_ne hne'] at hne''
    exact hne'' hp
  subst hpos
  obtain rfl := Option.some.inj (hc.symm.trans hcl)
  intro hlt
  rw [hsame]
  exact hbuf hlt

theorem written_socketRingPut (hi : Inv g s) (hs : socketRingPut g s t = some s') :
    Written s s' ∧ s'.reads = s.reads := by
  have hput := hi.put t
  obtain ⟨k, d, pc, rfl⟩ | ⟨b, hpc, rfl⟩ | ⟨b, pos, hpc, hb, rfl⟩ | ⟨b, pos, ok, hpc, rfl⟩ |
    ⟨b, pos, ok, hpc, rfl⟩ | ⟨b, pos, ok, hpc, rfl⟩ := put_cases hs
  · exact ⟨fun p hp => ⟨hp, rfl⟩, rfl⟩
  · refine ⟨fun p hp => ⟨hp, Function.update_of_ne ?_ _ _⟩, rfl⟩
    rintro rfl
    exact hp hi.fresh_head.1
  · exact ⟨fun p hp => ⟨hp, rfl⟩, rfl⟩
  · refine ⟨fun p hp => ⟨?_, rfl⟩, rfl⟩
    show Function.update s.phase pos .written p ≠ _
    by_cases hpos : p = pos
    · subst hpos
      rw [Function.update_self]
      decide
    · rw [Function.update_of_ne hpos]
      exact hp
  · refine ⟨fun p hp => ⟨?_, rfl⟩, rfl⟩
    show Function.update s.phase pos .published p ≠ _
    by_cases hpos : p = pos
    · subst hpos
      rw [Function.update_self]
      decide
    · rw [Function.update_of_ne hpos]
      exact hp
  · exact ⟨fun p hp => ⟨hp, rfl⟩, rfl⟩

/-- **`socket_ring_put` leaves the lines from `lo` on alone** where it does not copy over
one of them. -/
theorem Kept.socketRingPut (h : Kept g lo s) (hlo : lo ≤ lo') (hi : Inv g s)
    (hok : ∀ pos ∈ (s.put t).copies, ∀ p, lo ≤ p → p < s.tail →
      (s.item p).ptr ≠ .inlineBuf (g.ix pos))
    (hs : socketRingPut g s t = some s') : Kept g lo' s' := by
  have hput := hi.put t
  have hold := (written_socketRingPut hi hs).1
  obtain ⟨k, d, pc, rfl⟩ | ⟨b, hpc, rfl⟩ | ⟨b, pos, hpc, hb, rfl⟩ | ⟨b, pos, ok, hpc, rfl⟩ |
    ⟨b, pos, ok, hpc, rfl⟩ | ⟨b, pos, ok, hpc, rfl⟩ := put_cases hs
  · exact h.of_step hlo hold (fun p _ hp hne _ => absurd hp hne) fun _ _ _ _ _ _ _ => rfl
  · exact h.of_step hlo hold (fun p _ hp hne _ => absurd hp hne) fun _ _ _ _ _ _ _ => rfl
  · simp only [hpc, Put.copies, if_pos hb] at hok
    exact h.copyInline hlo hi hpc (hok pos rfl)
  · rw [hpc] at hput
    exact h.setLine hlo hput hold
  · rw [hpc] at hput
    refine h.of_step hlo hold (fun p c hp hne _ => absurd ?_ hne) fun p _ _ _ _ _ _ =>
      inlineBuf_update s.slots (g.ix pos) _ _ _
    show Function.update s.phase pos .published p = .vacant
    rw [Function.update_of_ne]
    · exact hp
    · rintro rfl
      rw [hput.2.1] at hp
      cases hp
  · exact h.of_step hlo hold (fun p _ hp hne _ => absurd hp hne) fun _ _ _ _ _ _ _ => rfl

/-- **One step keeps the lines from `lo` on.** -/
theorem kept_step {a : Act ι} (h : Kept g lo s) (hlo : lo ≤ lo') (hi : Inv g s)
    (hok : ∀ t, a = .put t → ∀ pos ∈ (s.put t).copies, ∀ p, lo ≤ p → p < s.tail →
      (s.item p).ptr ≠ .inlineBuf (g.ix pos))
    (hs : step g s a = some s') : Kept g lo' s' := by
  by_cases ha : ∃ t, a = .put t
  · obtain ⟨t, rfl⟩ := ha
    exact h.socketRingPut hlo hi (hok t rfl) hs
  · push Not at ha
    obtain ⟨hphase, hclaim, -, hbuf⟩ := frame_step hi ha hs
    refine h.of_step hlo (fun p hp => ⟨by rw [hphase]; exact hp, hclaim p hp⟩)
      (fun p _ hp hne _ => absurd (by rw [hphase]; exact hp) hne) fun _ _ _ _ _ _ _ => hbuf _

omit [DecidableEq ι] in
/-- A batch in progress does not move the position the writer needs next. -/
theorem need_socketRingGetBatch (hi : Inv g s) (hs : socketRingGetBatch g s = some s') :
    s'.need = s.need := by
  have hget := hi.get
  have hnext := (byWriter_socketRingGetBatch hi hs).next
  -- `tail` moves by as many positions as the batch has
  suffices hbase : s'.base = s.base by rw [State.need, State.need, hbase, hnext]
  unfold GetOk at hget
  unfold Socket.socketRingGetBatch at hs
  cases hc : s.consumer with
  | idle | returned | drained => simp [hc] at hs
  | loadClosed | emptyHead | emptyTail | loadHead | reloadClosed | subCount =>
    simp only [hc] at hs
    cases hs
    simp only [State.base, hc]
    first | rfl | (split_ifs <;> rfl)
  | semWait m =>
    simp only [hc] at hs
    split_ifs at hs
    cases hs
    simp only [State.base, hc, GetBatch.batched]
  | loadTail m head =>
    simp only [hc] at hs
    cases hs
    simp only [State.base, hc]
    split_ifs
    · rfl
    · rw [(taken_loopTop m head s.tail 0).2]
      rfl
  | loadSeq m head tail n =>
    simp only [hc] at hs
    split_ifs at hs <;> cases hs
    · simp only [State.base, hc, GetBatch.batched]
    · simp only [State.base, hc, afterLoop]
      split_ifs <;> rfl
  | take m head tail n =>
    simp only [hc] at hs
    cases hs
    simp only [State.base, hc, (taken_loopTop m head tail (n + 1)).2]
    rfl
  | storeTail tail n =>
    simp only [hc] at hs hget
    obtain ⟨rfl, -⟩ := hget
    cases hs
    simp only [State.base, hc, GetBatch.batched]
    omega

theorem need_le_step {a : Act ι} (hi : Inv g s) (hs : step g s a = some s') :
    s.need ≤ s'.need := by
  by_cases hget : a = .get
  · subst hget
    exact (need_socketRingGetBatch hi hs).ge
  by_cases hcall : ∃ m, a = .callGet m
  · obtain ⟨m, rfl⟩ := hcall
    simp only [step] at hs
    split at hs
    case isTrue hf =>
      cases hs
      have hnext := hi.next
      have hok := hi.get
      unfold GetOk at hok
      have hz : (if m = 0 then GetBatch.drained else .loadClosed m).batched = 0 := by
        split_ifs <;> rfl
      simp only [State.need, State.base, hz]
      cases hc : s.consumer <;> rw [hc] at hnext hok <;>
        simp only [GetBatch.batched] at hnext hok ⊢ <;> omega
    case isFalse => cases hs
  · push Not at hcall
    obtain ⟨hconsumer, htail, -, -, hnext⟩ := beside_step hget hcall hs
    simp only [State.need, State.base, hconsumer, htail]
    omega

omit [DecidableEq ι] in
/-- **The line of a position reads as it was put**: empty if `malloc` failed for it, and
else with the bytes of the call that owns it. -/
theorem Kept.line (h : Kept g lo s) (hi : Inv g s) {p : ℕ} (hp : lo ≤ p)
    (hv : s.phase p ≠ .vacant) :
    ∃ c, s.claim p = some c ∧ (c.lost = true → s.item p = noLine) ∧
      (c.lost = false → s.bytesOf (s.item p) = c.bytes) := by
  obtain ⟨c, hcl, hline⟩ := hi.content p hv
  rw [Claim.line, lineFor] at hline
  refine ⟨c, hcl, fun hlost => ?_, fun hlost => ?_⟩
  · rw [hline, hlost]
    rfl
  · have hbuf := h p c hp hv hcl hlost
    rw [hlost, if_pos (by rfl)] at hline
    rw [hline, State.bytesOf]
    split_ifs with hshort
    · exact hbuf hshort
    · exact List.take_length

omit [DecidableEq ι] in
/-- Line `j` of the batch is the line of its position. -/
theorem Inv.item_of_line (hi : Inv g s) {n j : ℕ} {l : Line} (hc : s.consumer = .returned n)
    (hl : s.lines[j]? = some l) :
    s.item (s.tail - n + j) = l ∧ s.phase (s.tail - n + j) ≠ .vacant := by
  have hbase : s.base = s.tail - n := by rw [State.base, hc]; rfl
  obtain ⟨hlt, hl'⟩ := List.getElem?_eq_some_iff.1 hl
  refine ⟨?_, ?_⟩
  · rw [← hl']
    simp only [hi.lines, hbase, List.getElem_map, List.getElem_range', Nat.one_mul]
  · rw [hi.published_of_batch (List.mem_range'_1.2 ?_)]
    · decide
    · rw [hi.length_lines hc] at hlt
      rw [hbase, hc]
      simp only [GetBatch.taken, GetBatch.batched]
      omega

omit [DecidableEq ι] in
/-- **An unread line is what was put.** -/
theorem Intact.line (h : Intact g s) (hi : Inv g s) {n j : ℕ} {l : Line}
    (hc : s.consumer = .returned n) (hj : s.next ≤ j) (hl : s.lines[j]? = some l) :
    ∃ c, s.claim (s.tail - n + j) = some c ∧ s.phase (s.tail - n + j) ≠ .vacant ∧
      (c.lost = true → l = noLine) ∧ (c.lost = false → s.bytesOf l = c.bytes) := by
  obtain ⟨hitem, hv⟩ := hi.item_of_line hc hl
  have hneed : s.need ≤ s.tail - n + j := by
    rw [State.need, State.base, hc]
    simp only [GetBatch.batched]
    omega
  have hkept : Kept g s.need s := h.kept
  obtain ⟨c, hcl, hlost, hbytes⟩ := hkept.line hi hneed hv
  rw [hitem] at hlost hbytes
  exact ⟨c, hcl, hv, hlost, hbytes⟩

omit [DecidableEq ι] in
/-- What a read adds to the history is what was put. -/
theorem Intact.reads_readLine (h : Intact g s) (hi : Inv g s) (hs : readLine s = some s') :
    ∀ e ∈ s'.reads, ∃ c, s.claim e.1 = some c ∧ e.2 = c.bytes ∧ s.phase e.1 ≠ .vacant := by
  intro e he
  obtain ⟨n, l, hc, hl, rfl⟩ := readLine_eq hs
  obtain ⟨c, hcl, hv, hlost, hbytes⟩ := h.line hi hc le_rfl hl
  dsimp only at he
  split_ifs at he with hskip
  · exact h.reads e he
  · rcases List.mem_append.1 he with he | he
    · exact h.reads e he
    · obtain rfl := List.mem_singleton.1 he
      refine ⟨c, hcl, hbytes (Bool.eq_false_iff.2 fun hl => hskip ?_), hv⟩
      rw [hlost hl]
      exact .inl rfl

/-- Every step keeps the lines intact. -/
theorem intact_step {a : Act ι} (h : Intact g s) (hi : Inv g s) (hok : keepsUnread g s a)
    (hs : step g s a = some s') : Intact g s' where
  kept := by
    have hkept : Kept g s.need s := h.kept
    refine kept_step hkept (need_le_step hi hs) hi ?_ hs
    rintro t rfl pos hpos p hp hlt
    exact hok pos hpos _ (hi.mem_unread hp hlt)
  reads e he := by
    by_cases ha : ∃ t, a = .put t
    · obtain ⟨t, rfl⟩ := ha
      obtain ⟨hold, hreads⟩ := written_socketRingPut hi hs
      obtain ⟨c, hc, hb, hv⟩ := h.reads e (hreads ▸ he)
      exact ⟨c, (hold _ hv).2.trans hc, hb, (hold _ hv).1⟩
    · push Not at ha
      obtain ⟨hphase, hclaim, hreads, -⟩ := frame_step hi ha hs
      have hold : ∃ c, s.claim e.1 = some c ∧ e.2 = c.bytes ∧ s.phase e.1 ≠ .vacant := by
        by_cases hr : a = .read
        · subst hr
          exact h.reads_readLine hi hs e he
        · exact h.reads e (hreads hr ▸ he)
      obtain ⟨c, hc, hb, hv⟩ := hold
      exact ⟨c, (hclaim _ hv).trans hc, hb, by rw [hphase]; exact hv⟩

/-- **Lines stay intact until they are read**, in every run in which no producer
copies a short line over an unread one.  In every state: a line of the batch not
yet read has the bytes of the `socket_ring_put` call that owns its position, or is
empty if `malloc` failed for that call; and everything the writer has read so far
was what was put. -/
theorem lines_intact (g : Shape) (s : State ι)
    (h : Reach (step g) (keepsUnread g) socketRingCreate s) :
    (∀ n j l, s.consumer = .returned n → s.next ≤ j → s.lines[j]? = some l →
      ∃ c, s.claim (s.tail - n + j) = some c ∧ (c.lost = true → l = noLine) ∧
        (c.lost = false → s.bytesOf l = c.bytes)) ∧
    ∀ e ∈ s.reads, ∃ c, s.claim e.1 = some c ∧ e.2 = c.bytes := by
  have hboth : Inv g s ∧ Intact g s := h.invariant (I := fun s => Inv g s ∧ Intact g s)
    ⟨inv_create, fun p c _ hp => absurd rfl hp, fun e he => by cases he⟩
    fun _ _ _ hi hok hs => ⟨inv_step hi.1 hs, intact_step hi.2 hi.1 hok hs⟩
  obtain ⟨hi, hint⟩ := hboth
  refine ⟨fun n j l hc hj hl => ?_, fun e he => ?_⟩
  · obtain ⟨c, hcl, -, hlost, hbytes⟩ := hint.line hi hc hj hl
    exact ⟨c, hcl, hlost, hbytes⟩
  · obtain ⟨c, hc, hb, -⟩ := hint.reads e he
    exact ⟨c, hc, hb⟩

/-- Thread `t` puts the short line `b` without interference. -/
def putAlone (t : Fin 2) (b : List UInt8) : List (Act (Fin 2)) :=
  .call t b :: List.replicate 9 (.put t)

/-- The writer gets a batch without interference. -/
def getAlone (m k : ℕ) : List (Act (Fin 2)) := .callGet m :: List.replicate k .get

/-- The second thread puts a line while the writer takes the first one, and both are read as they
were put. -/
theorem lines_intact_beside : ∃ s : State (Fin 2),
    Reach (step (.ofPow 1)) (keepsUnread (.ofPow 1)) socketRingCreate s ∧
      s.reads = [(0, [97]), (1, [98])] ∧
      ∀ e ∈ s.reads, ∃ c, s.claim e.1 = some c ∧ e.2 = c.bytes := by
  obtain ⟨s, hr, hs⟩ : ∃ s : State (Fin 2),
      Reach (step (.ofPow 1)) (keepsUnread (.ofPow 1)) socketRingCreate s ∧
        s.reads = [(0, [97]), (1, [98])] := by
    apply exists_of_runIf (List.flatten [putAlone 0 [97], getAlone 64 4, .call 1 [98] ::
      List.replicate 5 (.put 1), List.replicate 4 .get, List.replicate 4 (.put 1), [.read],
      getAlone 64 8, [.read]])
    decide +kernel
  exact ⟨s, hr, hs, (lines_intact (.ofPow 1) s hr).2⟩

/-- With two slots: the writer has the line `a` of position 0 in its batch; before it
reads it, positions 1 and 2 are put, and position 2 is in the slot of position 0. -/
theorem line_overwritten : ∃ s : State (Fin 2), Reachable (step (.ofPow 1)) socketRingCreate s ∧
    s.reads = [(0, [99])] ∧ (s.claim 0).map Claim.bytes = some [97] := by
  apply exists_of_run (List.flatten
    [putAlone 0 [97], getAlone 64 8, putAlone 0 [98], putAlone 1 [99], [.read]])
  decide +kernel

end Socket
end Clogx
