/-
# The invariant of the socket ring

The memory of the ring is a sequenced ring again (`State.ring`), with `line`,
`len` and `heap` as the value of a slot; the writer clears the slot it takes from
(`SeqRing.Inv.clobber`).  Here a producer tests for room before it claims, so a
claimed position is less than a lap past `tail` from the start (`PutOk`).

`Inv.held` says who owes a post: a claimed position whose `items_sem` post is
missing is in the hands of the thread that claimed it.
-/

import Clogx.Socket.Ring

namespace Clogx
namespace Socket

open SeqRing (Shape Phase)
open Queue (szSub)
open Machine (Reach Reachable)

variable {ι : Type*}

/-- How many slots the batch in progress has taken. -/
def GetBatch.taken : GetBatch → ℕ
  | .loadSeq _ _ _ n | .take _ _ _ n | .storeTail _ n => n
  | _ => 0

/-- How many lines the writer holds that `tail` has passed. -/
def GetBatch.batched : GetBatch → ℕ
  | .subCount n | .returned n => n
  | _ => 0

/-- The ring under the socket ring. -/
def State.ring (s : State ι) : SeqRing.Mem Line where
  head := s.head
  tail := s.tail
  read := s.tail + s.consumer.taken
  seq i := (s.slots i).seq
  val i := (s.slots i).line
  phase := s.phase
  item := s.item

/-- The position a call has claimed and not yet posted. -/
def Put.pos : Put → Option ℕ
  | .copy _ p | .setLine _ p _ | .publish _ p _ | .addCount _ p _ | .post _ p _ => some p
  | _ => none

theorem Put.pos_of_outside {pc : Put} (h : pc.inside = false) : pc.pos = none := by
  cases pc <;> first | rfl | cases h

/-- A short line is in the slot of its position. -/
def Buffered (g : Shape) (s : State ι) (p : ℕ) (b : List UInt8) : Prop :=
  b.length < socketRingInlineLen → (s.slots (g.ix p)).inlineBuf.take b.length = b

/-- What a producer knows about the position it owns, and before that about `head`. -/
def PutOk (g : Shape) (s : State ι) (t : ι) : Put → Prop
  | .loadTail _ head => head ≤ s.head
  | .cas _ head => head ≤ s.head ∧ (s.head = head → head < s.tail + g.capacity)
  | .copy b p => s.claim p = some ⟨t, b, false⟩ ∧ s.phase p = .vacant ∧ p < s.tail + g.capacity ∧
      s.signalled p = false
  | .setLine b p ok => s.claim p = some ⟨t, b, !ok⟩ ∧ s.phase p = .vacant ∧
      p < s.tail + g.capacity ∧ s.signalled p = false ∧ Buffered g s p b ∧
      (ok = false → socketRingInlineLen ≤ b.length)
  | .publish b p ok => s.claim p = some ⟨t, b, !ok⟩ ∧ s.phase p = .written ∧ s.signalled p = false
  | .addCount b p ok | .post b p ok =>
    s.claim p = some ⟨t, b, !ok⟩ ∧ s.phase p = .published ∧ s.signalled p = false
  | _ => True

/-- What the writer's locals say about the memory. -/
def GetOk (s : State ι) : Prop :=
  match s.consumer with
  | .emptyTail _ head => s.tail ≤ head ∧ head ≤ s.head
  | .loadTail _ head => s.tail ≤ head ∧ head ≤ s.head
  | .loadSeq m head tail n => tail = s.tail ∧ tail + n < head ∧ head ≤ s.head ∧ n < m
  | .take m head tail n =>
    tail = s.tail ∧ tail + n < head ∧ head ≤ s.head ∧ n < m ∧ s.phase (tail + n) = .published
  | .storeTail tail n => tail = s.tail ∧ 0 < n
  | .subCount n | .returned n => 0 < n ∧ n ≤ s.tail
  | _ => True

/-- The first position of the batch in the writer's hands. -/
def State.base (s : State ι) : ℕ := s.tail - s.consumer.batched

/-- The line a position holds once it is written. -/
def Claim.line (g : Shape) (p : ℕ) (c : Claim ι) : Line := lineFor g p c.bytes (!c.lost)

/-- The invariant of the socket ring. -/
structure Inv (g : Shape) (s : State ι) : Prop where
  ring : SeqRing.Inv g s.ring
  put : ∀ t, PutOk g s t (s.put t)
  get : GetOk s
  lines : s.lines = (List.range' s.base (s.consumer.taken + s.consumer.batched)).map s.item
  next : s.next ≤ s.consumer.batched
  claimed : ∀ p, (s.claim p).isSome ↔ p < s.head
  content : ∀ p, s.phase p ≠ .vacant → ∃ c, s.claim p = some c ∧ s.item p = c.line g p
  held : ∀ p c, s.claim p = some c → s.signalled p = false → (s.put c.thread).pos = some p
  signalled : ∀ p, s.signalled p = true → s.phase p = .published ∧ p < s.head

/-- From `s` to `s'` thread `t` has touched at most its own position `pos`, and of the
slots at most that of `pos`. -/
structure Own (g : Shape) (t : ι) (pos : ℕ) (s s' : State ι) : Prop where
  tail : s'.tail = s.tail
  consumer : s'.consumer = s.consumer
  lines : s'.lines = s.lines
  next : s'.next = s.next
  head : s.head ≤ s'.head
  put : ∀ u, u ≠ t → s'.put u = s.put u
  other : ∀ p, p ≠ pos → s'.claim p = s.claim p ∧ s'.phase p = s.phase p ∧
    s'.item p = s.item p ∧ s'.signalled p = s.signalled p
  published : s.phase pos = .published → s'.phase pos = .published ∧ s'.item pos = s.item pos
  buf : ∀ p, p ≠ pos → s.tail ≤ p → p < s.tail + g.capacity →
    (s'.slots (g.ix p)).inlineBuf = (s.slots (g.ix p)).inlineBuf
  mine : ∀ c, s.claim pos = some c → c.thread = t
  hold : ∀ p, (s.put t).pos = some p → p = pos

variable {g : Shape} {s s' : State ι} {t : ι} {pos : ℕ}

/-- What is not published yet is at or past `tail`. -/
theorem Inv.tail_le (h : Inv g s) {p : ℕ} (hp : s.phase p ≠ .published) : s.tail ≤ p :=
  (Nat.le_add_right _ _).trans (h.ring.read_le_of_unpublished hp)

/-- Another producer keeps what it knows. -/
theorem PutOk.own {u : ι} {pc : Put} (h : PutOk g s u pc) (ho : Own g t pos s s') (hu : u ≠ t)
    (htail : ∀ p, s.phase p ≠ .published → s.tail ≤ p) : PutOk g s' u pc := by
  have hne {p : ℕ} {b : List UInt8} {l : Bool} (hc : s.claim p = some ⟨u, b, l⟩) : p ≠ pos := by
    rintro rfl
    exact hu (ho.mine _ hc)
  cases pc with
  | idle | loadClosed | loadHead | full | incDropped | returned => trivial
  | loadTail b head => exact le_trans h ho.head
  | cas b head =>
    refine ⟨h.1.trans ho.head, fun he => ?_⟩
    rw [ho.tail]
    exact h.2 (le_antisymm (he ▸ ho.head) h.1)
  | copy b p =>
    obtain ⟨hc, hv, hw, hs⟩ := h
    obtain ⟨h₁, h₂, -, h₄⟩ := ho.other p (hne hc)
    exact ⟨h₁.trans hc, h₂.trans hv, ho.tail ▸ hw, h₄.trans hs⟩
  | setLine b p ok =>
    obtain ⟨hc, hv, hw, hs, hb, hok⟩ := h
    obtain ⟨h₁, h₂, -, h₄⟩ := ho.other p (hne hc)
    refine ⟨h₁.trans hc, h₂.trans hv, ho.tail ▸ hw, h₄.trans hs, fun hlt => ?_, hok⟩
    rw [ho.buf p (hne hc) (htail p (by rw [hv]; decide)) hw]
    exact hb hlt
  | publish b p ok | addCount b p ok | post b p ok =>
    obtain ⟨hc, hv, hs⟩ := h
    obtain ⟨h₁, h₂, -, h₄⟩ := ho.other p (hne hc)
    exact ⟨h₁.trans hc, h₂.trans hv, h₄.trans hs⟩

/-- What was published stays, with its line. -/
theorem Own.of_published (ho : Own g t pos s s') {p : ℕ} (hp : s.phase p = .published) :
    s'.phase p = .published ∧ s'.item p = s.item p := by
  by_cases hne : p = pos
  · subst hne
    exact ho.published hp
  · obtain ⟨-, h₂, h₃, -⟩ := ho.other p hne
    exact ⟨h₂.trans hp, h₃⟩

/-- The positions of the batch in progress are published. -/
theorem Inv.published_of_batch (h : Inv g s) {p : ℕ}
    (hp : p ∈ List.range' s.base (s.consumer.taken + s.consumer.batched)) :
    s.phase p = .published := by
  refine h.ring.published_of_lt_read p ?_
  show p < s.tail + s.consumer.taken
  rw [List.mem_range'_1, State.base] at hp
  have hget := h.get
  unfold GetOk at hget
  cases hc : s.consumer <;> rw [hc] at hp hget <;>
    simp only [GetBatch.taken, GetBatch.batched] at hp ⊢ <;> omega

/-- **A step of one producer**: only its own position is to be checked. -/
theorem Inv.of_own (h : Inv g s) (ho : Own g t pos s s') (hring : SeqRing.Inv g s'.ring)
    (hself : PutOk g s' t (s'.put t)) (hclaimed : ∀ p, (s'.claim p).isSome ↔ p < s'.head)
    (hcontent : s'.phase pos ≠ .vacant → ∃ c, s'.claim pos = some c ∧ s'.item pos = c.line g pos)
    (hheld : ∀ c, s'.claim pos = some c → s'.signalled pos = false →
      c.thread = t ∧ (s'.put t).pos = some pos)
    (hsig : s'.signalled pos = true → s'.phase pos = .published ∧ pos < s'.head) : Inv g s' where
  ring := hring
  put u := by
    by_cases hu : u = t
    · exact hu ▸ hself
    · rw [ho.put u hu]
      exact (h.put u).own ho hu fun p hp => h.tail_le hp
  get := by
    have hget := h.get
    have hhead := ho.head
    unfold GetOk at hget ⊢
    rw [ho.consumer, ho.tail]
    split at hget <;> try trivial
    case h_3 | h_1 | h_2 => omega
    case h_4 =>
      obtain ⟨h₁, h₂, h₃, h₄, h₅⟩ := hget
      exact ⟨h₁, h₂, h₃.trans hhead, h₄, (ho.of_published h₅).1⟩
  lines := by
    rw [ho.lines, h.lines, State.base, State.base, ho.consumer, ho.tail]
    exact List.map_congr_left fun p hp => ((ho.of_published (h.published_of_batch hp)).2).symm
  next := by rw [ho.next, ho.consumer]; exact h.next
  claimed := hclaimed
  content p hp := by
    by_cases hne : p = pos
    · subst hne
      exact hcontent hp
    · obtain ⟨h₁, h₂, h₃, -⟩ := ho.other p hne
      rw [h₁, h₃]
      exact h.content p (h₂ ▸ hp)
  held p c hc hs := by
    by_cases hne : p = pos
    · subst hne
      obtain ⟨hu, hpos⟩ := hheld c hc hs
      rw [hu]
      exact hpos
    · obtain ⟨h₁, -, -, h₄⟩ := ho.other p hne
      have hold := h.held p c (h₁ ▸ hc) (h₄ ▸ hs)
      have hu : c.thread ≠ t := by
        intro hu
        rw [hu] at hold
        exact hne (ho.hold p hold)
      rw [ho.put _ hu]
      exact hold
  signalled p hs := by
    by_cases hne : p = pos
    · subst hne
      exact hsig hs
    · obtain ⟨-, h₂, -, h₄⟩ := ho.other p hne
      obtain ⟨hp, hlt⟩ := h.signalled p (h₄ ▸ hs)
      exact ⟨h₂.trans hp, hlt.trans_le ho.head⟩

end Socket
end Clogx
