/-
# The tokens of the socket ring

`socket_ring_put` posts `items_sem` once per line, `socket_ring_get_batch` takes
one token per wake-up.  A wake-up that returns a batch pays for its token with
at least one line, so as long as every wake-up does, the lines posted are
covered by `tail`, by the tokens left and by the token in the writer's hand
(`Tokens.covered`).  Between the two loads of a wake-up that finds nothing the
bound is tighter: the lines posted are below the `head` it has loaded.

A wake-up that finds its first slot claimed but not yet published goes back to
wait with nothing (`afterLoop`), and its token is gone.  `firstPublished` is the
condition that this does not happen; the trace at the end is what happens
otherwise.
-/

import Clogx.Socket.Lines

namespace Clogx
namespace Socket

open SeqRing (Shape Phase)
open Queue (szSub)
open Machine (Reach Reachable exists_of_run exists_of_runIf)

variable {ι : Type*}

/-- How many lines have been posted. -/
def State.posted (s : State ι) : ℕ := (List.range s.head).countP s.signalled

/-- How many posted lines `tail` and the token in the writer's hand account for. -/
def State.covered (s : State ι) : ℕ :=
  match s.consumer with
  | .loadHead _ | .loadSeq .. | .take .. | .storeTail .. => s.tail + 1
  | .loadTail _ head => min head (s.tail + 1)
  | _ => s.tail

/-- `max_lines`, while the call may still come to its copying loop. -/
def GetBatch.maxLines : GetBatch → Option ℕ
  | .loadClosed m | .emptyHead m | .emptyTail m _ | .semWait m | .loadHead m | .loadTail m _
  | .reloadClosed m => some m
  | _ => none

/-- What the tokens of `items_sem` stand for. -/
structure Tokens (s : State ι) : Prop where
  covered : s.posted ≤ s.covered + s.itemsSem
  asked : ∀ m, s.consumer.maxLines = some m → 0 < m
  closing : ∀ m, s.consumer = .semWait m → s.closed = true →
    s.head ≠ s.tail ∨ s.closer = .post ∨ 0 < s.itemsSem

/-- The position whose slot a wake-up looks at first. -/
def GetBatch.looksFirst : GetBatch → Option ℕ
  | .loadSeq _ _ tail 0 => some tail
  | _ => none

/-- The first slot a wake-up looks at is published. -/
def firstPublished (g : Shape) (s : State ι) : Act ι → Prop
  | .get => ∀ pos ∈ s.consumer.looksFirst, (s.slots (g.ix pos)).seq = pos + 1
  | _ => True

instance (g : Shape) (s : State ι) : (a : Act ι) → Decidable (firstPublished g s a)
  | .get => inferInstanceAs (Decidable (∀ pos ∈ s.consumer.looksFirst, _))
  | .call .. | .put _ | .mallocFails _ | .casMiss _ | .callGet _ | .read | .callClose | .close
  | .signal => .isTrue trivial

variable {g : Shape} {s s' : State ι} {t : ι} {pos m : ℕ}

/-! ### Counting the posts -/

/-- Raising one flag below `n` raises the count by one. -/
theorem countP_range_update {f : ℕ → Bool} (hf : f pos = false) (n : ℕ) :
    (List.range n).countP (Function.update f pos true) =
      (List.range n).countP f + if pos < n then 1 else 0 := by
  induction n with
  | zero => simp
  | succ n ih =>
    rw [List.range_succ, List.countP_append, List.countP_append, ih, List.countP_singleton,
      List.countP_singleton]
    rcases lt_trichotomy pos n with hlt | rfl | hgt
    · rw [Function.update_of_ne hlt.ne']
      simp only [if_pos hlt, if_pos (hlt.trans n.lt_succ_self)]
      omega
    · simp [hf]
    · rw [Function.update_of_ne hgt.ne]
      simp only [if_neg hgt.not_gt, if_neg (show ¬ pos < n + 1 by omega), Nat.add_zero]

theorem posted_le_head (s : State ι) : s.posted ≤ s.head := by
  rw [State.posted]
  exact List.countP_le_length.trans (List.length_range (n := s.head)).le

/-- A claim is not a post. -/
theorem Inv.posted_claim (h : Inv g s) :
    (List.range (s.head + 1)).countP s.signalled = s.posted := by
  rw [List.range_succ, List.countP_append, List.countP_singleton, h.fresh_head.2]
  rfl

/-- With nobody inside `socket_ring_put` every line claimed has been posted. -/
theorem Inv.signalled_of_quiet (h : Inv g s) (hq : ∀ t, (s.put t).inside = false) {p : ℕ}
    (hp : p < s.head) : s.signalled p = true := by
  obtain ⟨c, hc⟩ := Option.isSome_iff_exists.1 ((h.claimed p).2 hp)
  by_contra hs
  have hheld := h.held p c hc (Bool.eq_false_iff.2 hs)
  rw [Put.pos_of_outside (hq c.thread)] at hheld
  cases hheld

theorem Inv.posted_of_quiet (h : Inv g s) (hq : ∀ t, (s.put t).inside = false) :
    s.posted = s.head := by
  rw [State.posted, List.countP_eq_length.2 fun p hp =>
    h.signalled_of_quiet hq (List.mem_range.1 hp), List.length_range]

theorem Inv.tail_le_head (h : Inv g s) : s.tail ≤ s.head :=
  (Nat.le_add_right _ _).trans h.ring.read_le_head

/-! ### One step -/

/-- A step beside the writer: whoever posts a line also adds a token. -/
theorem Tokens.beside (h : Tokens s) (hle : s.tail ≤ s.head) (hconsumer : s'.consumer = s.consumer)
    (htail : s'.tail = s.tail) (hhead : s.head ≤ s'.head)
    (hpost : s'.posted + s.itemsSem ≤ s.posted + s'.itemsSem) (hsem : s.itemsSem ≤ s'.itemsSem)
    (hclosed : s'.closed = s.closed) (hcloser : s'.closer = s.closer) : Tokens s' where
  covered := by
    have hcov : s'.covered = s.covered := by simp only [State.covered, hconsumer, htail]
    have := h.covered
    omega
  asked := by rw [hconsumer]; exact h.asked
  closing m hm hcl := by
    rw [hcloser, htail]
    obtain hne | hk | hpos := h.closing m (hconsumer ▸ hm) (hclosed ▸ hcl)
    · exact .inl (by omega)
    · exact .inr (.inl hk)
    · exact .inr (.inr (hpos.trans_le hsem))

/-- A step of the writer that leaves `tail` and the tokens alone. -/
theorem Tokens.moveGet (h : Tokens s) {c : GetBatch} (k : ℕ) {l : List Line} {f : ℕ → Slot}
    (hcov : s.covered ≤ { s with consumer := c }.covered ∨
      s.posted ≤ { s with consumer := c }.covered + s.itemsSem)
    (hask : ∀ m, c.maxLines = some m → 0 < m)
    (hwait : ∀ m, c = .semWait m → s.closed = true → s.head ≠ s.tail) :
    Tokens { s with consumer := c, count := k, lines := l, slots := f } where
  covered := by
    have hcov' : s.posted ≤ { s with consumer := c }.covered + s.itemsSem := by
      rcases hcov with hcov | hcov
      · exact h.covered.trans (Nat.add_le_add_right hcov _)
      · exact hcov
    exact hcov'
  asked := hask
  closing m hm hcl := .inl (hwait m hm hcl)

section Steps

variable [DecidableEq ι]

theorem Tokens.socketRingPut (h : Tokens s) (hi : Inv g s) (hs : socketRingPut g s t = some s') :
    Tokens s' := by
  have hle := hi.tail_le_head
  obtain ⟨k, d, pc, rfl⟩ | ⟨b, hpc, rfl⟩ | ⟨b, pos, hpc, hb, rfl⟩ | ⟨b, pos, ok, hpc, rfl⟩ |
    ⟨b, pos, ok, hpc, rfl⟩ | ⟨b, pos, ok, hpc, rfl⟩ := put_cases hs
  · exact h.beside hle rfl rfl le_rfl le_rfl le_rfl rfl rfl
  · exact h.beside hle rfl rfl (Nat.le_succ _) (Nat.add_le_add_right hi.posted_claim.le _) le_rfl
      rfl rfl
  · exact h.beside hle rfl rfl le_rfl le_rfl le_rfl rfl rfl
  · exact h.beside hle rfl rfl le_rfl le_rfl le_rfl rfl rfl
  · exact h.beside hle rfl rfl le_rfl le_rfl le_rfl rfl rfl
  · have hput := hi.put t
    rw [hpc] at hput
    have hcount := countP_range_update hput.2.2 s.head
    rw [if_pos ((hi.claimed pos).1 (by rw [hput.1]; rfl))] at hcount
    refine h.beside hle rfl rfl le_rfl ?_ (Nat.le_succ _) rfl rfl
    show (List.range s.head).countP (Function.update s.signalled pos true) + s.itemsSem ≤
      (List.range s.head).countP s.signalled + (s.itemsSem + 1)
    omega

omit [DecidableEq ι] in
/-- The loop is entered with `max_lines > 0`, and left with a line taken. -/
theorem loopTop_covered {m j n : ℕ} (hn : 0 < n ∨ 0 < m ∧ s.tail < j) :
    { s with consumer := loopTop m j s.tail n }.covered = s.tail + 1 ∧
      (loopTop m j s.tail n).maxLines = none ∧ ∀ k, loopTop m j s.tail n ≠ .semWait k := by
  unfold loopTop afterLoop Queue.szSub
  split_ifs <;> first | exact ⟨rfl, rfl, fun k hk => by cases hk⟩ | omega

omit [DecidableEq ι] in
/-- **A wake-up pays for its token**, as long as the slot it looks at first is
published: it takes that slot, or has found `head` where `tail` is. -/
theorem Tokens.socketRingGetBatch (h : Tokens s) (hi : Inv g s) (hok : firstPublished g s .get)
    (hs : socketRingGetBatch g s = some s') : Tokens s' := by
  have hget := hi.get
  have hcov := h.covered
  have hask := h.asked
  unfold GetOk at hget
  unfold Socket.socketRingGetBatch at hs
  simp only [firstPublished] at hok
  cases hc : s.consumer with
  | idle | returned | drained => simp [hc] at hs
  | loadClosed m =>
    simp only [hc] at hs
    simp only [hc, GetBatch.maxLines, Option.some.injEq, forall_eq'] at hask
    cases hs
    refine h.moveGet s.count (.inl ?_) (fun k hk => ?_) fun k hk hcl => ?_
    · simp only [State.covered, hc]
      split_ifs <;> exact le_rfl
    · split_ifs at hk <;> exact (Option.some.inj hk) ▸ hask
    · rw [if_pos hcl] at hk
      cases hk
  | emptyHead m =>
    simp only [hc] at hs
    simp only [hc, GetBatch.maxLines, Option.some.injEq, forall_eq'] at hask
    cases hs
    refine h.moveGet s.count (.inl ?_) (fun k hk => (Option.some.inj hk) ▸ hask)
      fun k hk => by cases hk
    simp only [State.covered, hc, le_refl]
  | emptyTail m head =>
    simp only [hc] at hs hget
    simp only [hc, GetBatch.maxLines, Option.some.injEq, forall_eq'] at hask
    cases hs
    refine h.moveGet s.count (.inl ?_) (fun k hk => ?_) fun k hk _ => ?_
    · simp only [State.covered, hc]
      split_ifs <;> exact le_rfl
    · split_ifs at hk
      · cases hk
      · exact (Option.some.inj hk) ▸ hask
    · split_ifs at hk
      omega
  | semWait m =>
    simp only [hc] at hs
    simp only [hc, GetBatch.maxLines, Option.some.injEq, forall_eq'] at hask
    split_ifs at hs with hz
    cases hs
    refine ⟨?_, fun k hk => (Option.some.inj hk) ▸ hask, fun k hk => by cases hk⟩
    simp only [State.covered, hc] at hcov
    show s.posted ≤ s.tail + 1 + (s.itemsSem - 1)
    omega
  | loadHead m =>
    simp only [hc] at hs
    simp only [hc, GetBatch.maxLines, Option.some.injEq, forall_eq'] at hask
    cases hs
    refine h.moveGet s.count (.inr ?_) (fun k hk => (Option.some.inj hk) ▸ hask)
      fun k hk => by cases hk
    have := posted_le_head s
    simp only [State.covered, hc] at hcov ⊢
    omega
  | loadTail m head =>
    simp only [hc] at hs hget
    simp only [hc, GetBatch.maxLines, Option.some.injEq, forall_eq'] at hask
    simp only [State.covered, hc] at hcov
    cases hs
    by_cases hz : szSub head s.tail = 0
    · rw [if_pos hz]
      rw [szSub_of_le hget.1] at hz
      refine h.moveGet s.count (.inr ?_) (fun k hk => (Option.some.inj hk) ▸ hask)
        fun k hk => by cases hk
      simp only [State.covered]
      omega
    · rw [if_neg hz]
      rw [szSub_of_le hget.1] at hz
      obtain ⟨h₁, h₂, h₃⟩ := loopTop_covered (s := s) (m := m) (j := head) (n := 0)
        (.inr ⟨hask, by omega⟩)
      refine h.moveGet s.count (.inr ?_) (fun k hk => by rw [h₂] at hk; cases hk)
        fun k hk => absurd hk (h₃ k)
      rw [h₁]
      omega
  | reloadClosed m =>
    simp only [hc] at hs
    simp only [hc, GetBatch.maxLines, Option.some.injEq, forall_eq'] at hask
    cases hs
    refine h.moveGet s.count (.inl ?_) (fun k hk => ?_) fun k hk => ?_
    · simp only [State.covered, hc]
      split_ifs <;> exact le_rfl
    · split_ifs at hk
      · cases hk
      · exact (Option.some.inj hk) ▸ hask
    · split_ifs at hk
  | loadSeq m head tail n =>
    simp only [hc] at hs
    split_ifs at hs with hseq <;> cases hs
    · refine h.moveGet s.count (.inl ?_) (fun k hk => by cases hk) fun k hk => by cases hk
      simp only [State.covered, hc, le_refl]
    · -- not the first slot, so the batch is not empty
      have hn : n ≠ 0 := by
        rintro rfl
        exact hseq (hok tail (by rw [hc]; rfl))
      rw [afterLoop, if_neg hn]
      refine h.moveGet s.count (.inl ?_) (fun k hk => by cases hk) fun k hk => by cases hk
      simp only [State.covered, hc, le_refl]
  | take m head tail n =>
    simp only [hc] at hs hget
    obtain ⟨rfl, -⟩ := hget
    cases hs
    obtain ⟨h₁, h₂, h₃⟩ := loopTop_covered (s := s) (m := m) (j := head) (n := n + 1)
      (.inl n.succ_pos)
    refine h.moveGet s.count (.inl ?_) (fun k hk => by rw [h₂] at hk; cases hk)
      fun k hk => absurd hk (h₃ k)
    rw [h₁]
    simp only [State.covered, hc, le_refl]
  | storeTail tail n =>
    simp only [hc] at hs hget
    obtain ⟨rfl, hn⟩ := hget
    cases hs
    refine ⟨?_, fun k hk => (by cases hk), fun k hk => by cases hk⟩
    simp only [State.covered, hc] at hcov
    show s.posted ≤ s.tail + n + s.itemsSem
    omega
  | subCount n =>
    simp only [hc] at hs
    cases hs
    refine h.moveGet _ (.inl ?_) (fun k hk => by cases hk) fun k hk => by cases hk
    simp only [State.covered, hc, le_refl]

/-- **Every step keeps the tokens**, wake-ups that find nothing they can take apart. -/
theorem tokens_step {a : Act ι} (h : Tokens s) (hi : Inv g s) (hok : firstPublished g s a)
    (hs : step g s a = some s') : Tokens s' := by
  have hle := hi.tail_le_head
  have hcov := h.covered
  cases a with
  | put t => exact h.socketRingPut hi hs
  | get => exact h.socketRingGetBatch hi hok hs
  | call t b =>
    simp only [step] at hs
    split at hs
    · cases hs
    · cases hs
      exact h.beside hle rfl rfl le_rfl le_rfl le_rfl rfl rfl
  | mallocFails t =>
    obtain ⟨b, pos, -, -, rfl⟩ := mallocFails_eq hs
    exact h.beside hle rfl rfl le_rfl le_rfl le_rfl rfl rfl
  | casMiss t =>
    obtain ⟨b, head, -, rfl⟩ := casMiss_eq hs
    exact h.beside hle rfl rfl le_rfl le_rfl le_rfl rfl rfl
  | callGet m =>
    simp only [step] at hs
    split at hs
    case isFalse => cases hs
    case isTrue hf =>
      cases hs
      have hcov' : s.posted ≤ s.tail + s.itemsSem := by
        simp only [State.covered] at hcov
        cases hc : s.consumer <;> rw [hc] at hf hcov <;> first | exact hcov | cases hf
      refine ⟨?_, fun k hk => ?_, fun k hk => ?_⟩
      · refine hcov'.trans (le_of_eq ?_)
        simp only [State.covered]
        split_ifs <;> rfl
      · have hk' : (if m = 0 then GetBatch.drained else .loadClosed m).maxLines = some k := hk
        split_ifs at hk' with hm
        · cases hk'
        · exact (Option.some.inj hk') ▸ Nat.pos_of_ne_zero hm
      · have hk' : (if m = 0 then GetBatch.drained else .loadClosed m) = .semWait k := hk
        split_ifs at hk'
  | read =>
    obtain ⟨n, l, -, -, rfl⟩ := readLine_eq hs
    exact h.beside hle rfl rfl le_rfl le_rfl le_rfl rfl rfl
  | callClose =>
    simp only [step] at hs
    split_ifs at hs with hk
    cases hs
    refine ⟨hcov, h.asked, fun k hm hcl => ?_⟩
    obtain hne | hk' | hpos := h.closing k hm hcl
    · exact .inl hne
    · rw [hk] at hk'
      cases hk'
    · exact .inr (.inr hpos)
  | close =>
    obtain ⟨-, rfl⟩ | ⟨-, rfl⟩ := close_cases hs
    · exact ⟨hcov, h.asked, fun _ _ _ => .inr (.inl rfl)⟩
    · exact ⟨Nat.le_succ_of_le hcov, h.asked, fun _ _ _ => .inr (.inr (Nat.succ_pos _))⟩
  | signal =>
    cases hs
    exact ⟨Nat.le_succ_of_le hcov, h.asked, fun _ _ _ => .inr (.inr (Nat.succ_pos _))⟩

end Steps

/-! ### Nothing is stranded -/

/-- Only the writer moves, with batches of `m`. -/
def drains (m : ℕ) (_ : State ι) (a : Act ι) : Prop := a = .callGet m ∨ a = .get

/-- How far the writer is from its next line, or from the end. -/
def GetBatch.rank : GetBatch → ℕ
  | .storeTail .. => 12
  | .subCount _ => 11
  | .idle | .returned _ => 10
  | .loadClosed _ => 9
  | .emptyHead _ => 8
  | .emptyTail .. => 7
  | .semWait _ => 6
  | .loadHead _ => 5
  | .loadTail .. => 4
  | .loadSeq .. => 3
  | .take .. => 2
  | .reloadClosed _ => 1
  | .drained => 0

/-- The lines not taken yet come first, then the place of the writer. -/
def State.left (s : State ι) : ℕ := 13 * (s.head - (s.tail + s.consumer.taken)) + s.consumer.rank

/-- A closed ring that its producers have left. -/
structure Quiet (g : Shape) (s : State ι) : Prop where
  inv : Inv g s
  tokens : Tokens s
  outside : ∀ t, (s.put t).inside = false
  closed : s.closed = true
  closer : s.closer = .idle

/-- Behind quiet producers every slot a batch comes to is published. -/
theorem Quiet.seq_eq (h : Quiet g s) {head tail n : ℕ} (hc : s.consumer = .loadSeq m head tail n) :
    (s.slots (g.ix (tail + n))).seq = tail + n + 1 := by
  have hget := h.inv.get
  simp only [GetOk, hc] at hget
  obtain ⟨rfl, hlt, hhead, -⟩ := hget
  have hread : s.ring.read = s.tail + n := by simp only [State.ring, hc, GetBatch.taken]
  have hsig := h.inv.signalled_of_quiet h.outside (p := s.tail + n) (by omega)
  have hseq := h.inv.ring.seq_of_read (by rw [hread]; exact (h.inv.signalled _ hsig).1)
  rw [hread] at hseq
  exact hseq

/-- The writer finds a token wherever it waits. -/
theorem Quiet.itemsSem_pos (h : Quiet g s) (hc : s.consumer = .semWait m) : 0 < s.itemsSem := by
  have hcov := h.tokens.covered
  simp only [h.inv.posted_of_quiet h.outside, State.covered, hc] at hcov
  have hle := h.inv.tail_le_head
  obtain hne | hk | hpos := h.tokens.closing m hc h.closed
  · omega
  · rw [h.closer] at hk
    cases hk
  · exact hpos

variable [DecidableEq ι]

omit [DecidableEq ι] in
/-- A step of the writer out of a quiet state. -/
theorem Quiet.get (h : Quiet g s) (hs : socketRingGetBatch g s = some s') : Quiet g s' := by
  have hok : firstPublished g s .get := by
    intro pos hpos
    cases hc : s.consumer with
    | loadSeq m head tail n =>
      rw [hc] at hpos
      cases n with
      | zero =>
        cases hpos
        exact h.seq_eq hc
      | succ n => cases hpos
    | _ => rw [hc] at hpos; cases hpos
  have hsame := byWriter_socketRingGetBatch h.inv hs
  exact ⟨h.inv.socketRingGetBatch hs, h.tokens.socketRingGetBatch h.inv hok hs,
    fun t => by rw [hsame.put]; exact h.outside t, hsame.closed.trans h.closed,
    hsame.closer.trans h.closer⟩

/-- **Every step of the writer of a quiet ring brings the end nearer.** -/
theorem Quiet.exists_lt (h : Quiet g s) (hm : 0 < m) (hne : s.consumer ≠ .drained) :
    ∃ s', Reach (step g) (drains m) s s' ∧ Quiet g s' ∧ s'.left < s.left := by
  have hget := h.inv.get
  have hgo {u : State ι} (hs : socketRingGetBatch g s = some u) (hlt : u.left < s.left) :
      ∃ s', Reach (step g) (drains m) s s' ∧ Quiet g s' ∧ s'.left < s.left :=
    ⟨u, .single (a := .get) (.inr rfl) hs, h.get hs, hlt⟩
  have hcall (hf : s.consumer.free = true) (hrank : s.left = 13 * (s.head - s.tail) + 10) :
      ∃ s', Reach (step g) (drains m) s s' ∧ Quiet g s' ∧ s'.left < s.left := by
    have hs : step g s (.callGet m) = some { s with
        lines := [], next := 0, consumer := if m = 0 then .drained else .loadClosed m } := if_pos hf
    have htok := tokens_step (a := .callGet m) h.tokens h.inv trivial hs
    refine ⟨_, .single (a := .callGet m) (.inl rfl) hs,
      ⟨inv_step h.inv hs, htok, h.outside, h.closed, h.closer⟩, ?_⟩
    rw [hrank, if_neg hm.ne']
    simp only [State.left, GetBatch.taken, GetBatch.rank]
    omega
  unfold GetOk at hget
  cases hc : s.consumer with
  | drained => exact absurd hc hne
  | idle | returned => exact hcall (by rw [hc]; rfl) (by rw [State.left, hc]; rfl)
  | loadClosed k =>
    refine hgo (u := { s with consumer := .emptyHead k })
      (by simp only [socketRingGetBatch, hc, h.closed, if_true]) ?_
    simp only [State.left, hc, GetBatch.taken, GetBatch.rank]
    omega
  | emptyHead k =>
    refine hgo (u := { s with consumer := .emptyTail k s.head })
      (by simp only [socketRingGetBatch, hc]) ?_
    simp only [State.left, hc, GetBatch.taken, GetBatch.rank]
    omega
  | emptyTail k head =>
    refine hgo (u := { s with consumer := if head = s.tail then .drained else .semWait k })
      (by simp only [socketRingGetBatch, hc]) ?_
    simp only [State.left, hc]
    split_ifs <;> simp only [GetBatch.taken, GetBatch.rank] <;> omega
  | semWait k =>
    refine hgo (u := { s with itemsSem := s.itemsSem - 1, consumer := .loadHead k })
      (by simp only [socketRingGetBatch, hc, if_neg (h.itemsSem_pos hc).ne']) ?_
    simp only [State.left, hc, GetBatch.taken, GetBatch.rank]
    omega
  | loadHead k =>
    refine hgo (u := { s with consumer := .loadTail k s.head })
      (by simp only [socketRingGetBatch, hc]) ?_
    simp only [State.left, hc, GetBatch.taken, GetBatch.rank]
    omega
  | loadTail k head =>
    rw [hc] at hget
    have hk := h.tokens.asked k (by rw [hc]; rfl)
    refine hgo (u := { s with
      consumer := if szSub head s.tail = 0 then .reloadClosed k else loopTop k head s.tail 0 })
      (by simp only [socketRingGetBatch, hc]) ?_
    simp only [State.left, hc, loopTop, szSub_of_le hget.1]
    split_ifs <;> simp only [GetBatch.taken, GetBatch.rank] <;> omega
  | reloadClosed k =>
    refine hgo (u := { s with consumer := .drained })
      (by simp only [socketRingGetBatch, hc, h.closed, if_true]) ?_
    simp only [State.left, hc, GetBatch.taken, GetBatch.rank]
    omega
  | loadSeq k head tail n =>
    refine hgo (u := { s with consumer := .take k head tail n })
      (by simp only [socketRingGetBatch, hc, if_pos (h.seq_eq hc)]) ?_
    simp only [State.left, hc, GetBatch.taken, GetBatch.rank]
    omega
  | take k head tail n =>
    rw [hc] at hget
    obtain ⟨rfl, hlt, hhead, -⟩ := hget
    refine hgo (by simp only [socketRingGetBatch, hc]; rfl) ?_
    have hrank : (loopTop k head s.tail (n + 1)).rank ≤ 12 := by
      unfold loopTop afterLoop
      split_ifs <;> simp only [GetBatch.rank] <;> omega
    have hleft : s.left = 13 * (s.head - (s.tail + n)) + 2 := by rw [State.left, hc]; rfl
    rw [hleft]
    simp only [State.left, (taken_loopTop k head s.tail (n + 1)).1]
    omega
  | storeTail tail n =>
    rw [hc] at hget
    obtain ⟨rfl, -⟩ := hget
    refine hgo (by simp only [socketRingGetBatch, hc]; rfl) ?_
    simp only [State.left, hc, GetBatch.taken, GetBatch.rank]
    omega
  | subCount n =>
    refine hgo (by simp only [socketRingGetBatch, hc]; rfl) ?_
    simp only [State.left, hc, GetBatch.taken, GetBatch.rank]
    omega

/-- **No line is stranded**, in every run in which no wake-up finds its first slot
unpublished.  Once no producer is inside `socket_ring_put`: the writer waits at
an empty semaphore only if the ring is empty, and after `socket_ring_close` it
comes to the `-1` of `socket_ring_get_batch` on its own, whatever `max_lines` it
asks for. -/
theorem no_stranded_lines (g : Shape) (s : State ι)
    (h : Reach (step g) (firstPublished g) socketRingCreate s)
    (hq : ∀ t, (s.put t).inside = false) :
    (∀ m, s.consumer = .semWait m → s.itemsSem = 0 → s.head = s.tail) ∧
    (s.closed = true → s.closer = .idle → ∀ m, 0 < m →
      ∃ s', Reach (step g) (drains m) s s' ∧ s'.consumer = .drained) := by
  obtain ⟨hi, htok⟩ : Inv g s ∧ Tokens s := h.invariant (I := fun s => Inv g s ∧ Tokens s)
    ⟨inv_create, le_rfl, fun m hm => (nomatch hm), fun m hm => nomatch hm⟩
    fun _ _ _ hi hok hs => ⟨inv_step hi.1 hs, tokens_step hi.2 hi.1 hok hs⟩
  refine ⟨fun m hm hz => ?_, fun hcl hk m hm => ?_⟩
  · have hcov := htok.covered
    rw [hi.posted_of_quiet hq, State.covered, hm, hz] at hcov
    exact le_antisymm hcov hi.tail_le_head
  · have hquiet : Quiet g s := ⟨hi, htok, hq, hcl, hk⟩
    obtain ⟨s', hr, -, hs'⟩ : ∃ s', Reach (step g) (drains m) s s' ∧ Quiet g s' ∧
        s'.consumer = .drained :=
      Reach.exists_of_measure (I := Quiet g) (P := fun u => u.consumer = .drained) State.left
        (fun u hu hne => hu.exists_lt hm hne) hquiet
    exact ⟨s', hr, hs'⟩

/-- The second thread puts a line while the writer takes the first one. -/
def besideGet : List (Act (Fin 2)) :=
  List.flatten [putAlone 0 [97], getAlone 1 3, .call 1 [98] :: List.replicate 5 (.put 1),
    List.replicate 5 .get, List.replicate 4 (.put 1)]

/-- Behind it the writer takes the other line too, and waits at an empty ring; or the ring is closed,
and the writer comes to its end. -/
theorem no_stranded_lines_besideGet :
    (∃ s : State (Fin 2), Reach (step (.ofPow 1)) (firstPublished (.ofPow 1)) socketRingCreate s ∧
      s.consumer = .semWait 1 ∧ s.itemsSem = 0 ∧ s.head = s.tail) ∧
    ∃ s : State (Fin 2), Reach (step (.ofPow 1)) (firstPublished (.ofPow 1)) socketRingCreate s ∧
      (s.head = 2 ∧ s.tail = 1) ∧
      ∃ s', Reach (step (.ofPow 1)) (drains 1) s s' ∧ s'.consumer = .drained := by
  constructor
  · obtain ⟨s, hr, hs⟩ : ∃ s : State (Fin 2),
        Reach (step (.ofPow 1)) (firstPublished (.ofPow 1)) socketRingCreate s ∧
          ((∀ t, (s.put t).inside = false) ∧ s.consumer = .semWait 1 ∧ s.itemsSem = 0) := by
      apply exists_of_runIf (besideGet ++ getAlone 1 8 ++ getAlone 1 1)
      decide +kernel
    exact ⟨s, hr, hs.2.1, hs.2.2, (no_stranded_lines (.ofPow 1) s hr hs.1).1 1 hs.2.1 hs.2.2⟩
  · obtain ⟨s, hr, hs⟩ : ∃ s : State (Fin 2),
        Reach (step (.ofPow 1)) (firstPublished (.ofPow 1)) socketRingCreate s ∧
          ((∀ t, (s.put t).inside = false) ∧ (s.head = 2 ∧ s.tail = 1) ∧ s.closed = true ∧
            s.closer = .idle) := by
      apply exists_of_runIf (besideGet ++ [.callClose, .close, .close])
      decide +kernel
    exact ⟨s, hr, hs.2.1,
      (no_stranded_lines (.ofPow 1) s hr hs.1).2 hs.2.2.1 hs.2.2.2 1 one_pos⟩

/-- Four slots and `max_lines = 1`.  Thread 0 has claimed position 0 and is held up;
thread 1 puts three lines; the writer spends their three tokens on finding
position 0 unpublished.  Thread 0 then posts a single token for four lines.
`socket_ring_close` and `socket_ring_signal` add one each, so the writer of a
closed ring waits for ever with a line left. -/
theorem line_stranded : ∃ s : State (Fin 2), Reachable (step (.ofPow 2)) socketRingCreate s ∧
    s.consumer = .semWait 1 ∧ s.itemsSem = 0 ∧ s.head = 4 ∧ s.tail = 3 ∧
    (∀ t, (s.put t).inside = false) ∧ s.closed = true ∧ s.closer = .idle := by
  apply exists_of_run (List.flatten
    [[.call 0 [97]], List.replicate 4 (.put 0), putAlone 1 [98], putAlone 1 [99], putAlone 1 [100],
      getAlone 1 16, List.replicate 5 (.put 0), List.replicate 7 .get, [.callClose, .close, .close],
      getAlone 1 10, [.signal], getAlone 1 10, getAlone 1 3])
  decide +kernel

end Socket
end Clogx
