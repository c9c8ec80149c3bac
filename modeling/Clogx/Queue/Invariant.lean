/-
# The invariant of the queue

The memory of the queue is a sequenced ring (`State.ring`), and every step of
`Clogx.Queue.Model` acts on it as one of the ring's operations or not at all.
`Inv` adds to the ring's invariant what ties the parties to it: a producer past
its claim owns its position, and knows how far that position has got
(`PutOk`); the consumer's locals agree with the memory (`GetOk`), and what it
has copied out is, position by position, what was written (`Inv.copied`,
`RecordsOk`); a published position holds the record of the call that owns it,
or a tombstone if that call was refused (`Content`).

A step of producer `t` touches nothing another producer owns (`Local`), so
`Inv.of_local` leaves only `t`'s own position to be checked.
-/

import Clogx.Queue.Model

namespace Clogx
namespace Queue

open SeqRing (Shape Phase)

variable {ι ρ : Type*}

/-- The ring under the queue; the cursor counts the copies of the batch in
progress. -/
def State.ring (s : State ι ρ) : SeqRing.Mem (Entry ρ) where
  head := s.head
  tail := s.tail
  read := s.tail + s.consumer.taken
  seq i := (s.buffer i).seq
  val i := (s.buffer i).entry
  phase := s.phase
  item := s.item

section Defs

variable [Inhabited ρ]

/-- What a producer knows about the position it owns. -/
def PutOk (g : Shape) (s : State ι ρ) (t : ι) : TryPut ρ → Prop
  | .recheck r pos | .poll r pos _ => s.claim pos = some ⟨t, r, .pending⟩ ∧ s.phase pos = .vacant
  | .writeTomb r pos =>
    s.claim pos = some ⟨t, r, .refused⟩ ∧ s.phase pos = .vacant ∧ pos < s.tail + g.capacity
  | .publishTomb r pos =>
    s.claim pos = some ⟨t, r, .refused⟩ ∧ s.phase pos = .written ∧ s.item pos = tombstone
  | .writeRec r pos =>
    s.claim pos = some ⟨t, r, .accepted⟩ ∧ s.phase pos = .vacant ∧ pos < s.tail + g.capacity
  | .publishRec r pos =>
    s.claim pos = some ⟨t, r, .accepted⟩ ∧ s.phase pos = .written ∧ s.item pos = ⟨r, false⟩
  | .signal r pos ret | .post r pos ret =>
    s.phase pos = .published ∧ (ret = 0 ∧ s.claim pos = some ⟨t, r, .accepted⟩ ∨
      ret = -1 ∧ s.claim pos = some ⟨t, r, .refused⟩)
  | _ => True

/-- What the consumer's locals say about the memory. -/
def GetOk (s : State ι ρ) : Prop :=
  match s.consumer with
  | .get (.loadTail _ head) => s.tail ≤ head ∧ head ≤ s.head
  | .get (.loadSeq _ head tail n) => tail = s.tail ∧ tail + n < head ∧ head ≤ s.head
  | .get (.copy _ head tail n) =>
    tail = s.tail ∧ tail + n < head ∧ head ≤ s.head ∧ s.phase (tail + n) = .published
  | .get (.storeTail tail n) => tail = s.tail ∧ 0 < n
  | _ => True

/-- What the caller's array holds: the positions copied so far, before and after
`tail` is stored. -/
def RecordsOk (s : State ι ρ) : Prop :=
  match s.consumer with
  | .get (.loadHead _) | .get (.loadTail _ _) => s.records = []
  | .get (.loadSeq _ _ _ n) | .get (.copy _ _ _ n) | .get (.storeTail _ n) =>
    s.records = (List.range' s.tail n).map s.item
  | .get (.postSlots n _) | .get (.remHead n) | .get (.remTail n _) | .get (.lock n)
  | .get (.broadcast n) | .get (.unlock n) | .get (.returned n) =>
    n ≤ s.tail ∧ s.records = (List.range' (s.tail - n) n).map s.item
  | _ => True

/-- A published position holds the record of the accepted call that owns it, or
the tombstone of a refused one. -/
def Content (s : State ι ρ) (p : ℕ) : Prop :=
  ∃ t r, (s.claim p = some ⟨t, r, .accepted⟩ ∧ s.item p = ⟨r, false⟩) ∨
    (s.claim p = some ⟨t, r, .refused⟩ ∧ s.item p = tombstone)

/-- The invariant of the queue. -/
structure Inv (g : Shape) (s : State ι ρ) : Prop where
  ring : SeqRing.Inv g s.ring
  put : ∀ t, PutOk g s t (s.put t)
  get : GetOk s
  records : RecordsOk s
  copied : s.copied = (List.range (s.tail + s.consumer.taken)).map s.item
  claimed : ∀ p, (s.claim p).isSome ↔ p < s.head
  content : ∀ p, s.phase p = .published → Content s p

/-- From `s` to `s'` only what thread `t` owns has changed. -/
structure Local (t : ι) (s s' : State ι ρ) : Prop where
  tail : s'.tail = s.tail
  consumer : s'.consumer = s.consumer
  records : s'.records = s.records
  copied : s'.copied = s.copied
  head : s.head ≤ s'.head
  put : ∀ u, u ≠ t → s'.put u = s.put u
  other : ∀ p c, s.claim p = some c → c.thread ≠ t →
    s'.claim p = some c ∧ s'.phase p = s.phase p ∧ s'.item p = s.item p
  published : ∀ p, s.phase p = .published →
    s'.phase p = .published ∧ s'.item p = s.item p ∧ s'.claim p = s.claim p

end Defs

variable [Inhabited ρ] {g : Shape} {s s' : State ι ρ} {t : ι}

/-- A producer keeps what it knows when its position is left alone and `tail`
does not go back. -/
theorem PutOk.frame {u : ι} {pc : TryPut ρ} (h : PutOk g s u pc) (htail : s.tail ≤ s'.tail)
    (hframe : ∀ p c, s.claim p = some c → c.thread = u →
      s'.claim p = some c ∧ s'.phase p = s.phase p ∧ s'.item p = s.item p) :
    PutOk g s' u pc := by
  cases pc with
  | idle | loadClosed | loadTail | loadHead | fetchAdd | returned => trivial
  | recheck r pos | poll r pos =>
    obtain ⟨hc, hp⟩ := h
    obtain ⟨h₁, h₂, -⟩ := hframe pos _ hc rfl
    exact ⟨h₁, h₂.trans hp⟩
  | writeTomb r pos | writeRec r pos =>
    obtain ⟨hc, hp, hlt⟩ := h
    obtain ⟨h₁, h₂, -⟩ := hframe pos _ hc rfl
    exact ⟨h₁, h₂.trans hp, by omega⟩
  | publishTomb r pos | publishRec r pos =>
    obtain ⟨hc, hp, hi⟩ := h
    obtain ⟨h₁, h₂, h₃⟩ := hframe pos _ hc rfl
    exact ⟨h₁, h₂.trans hp, h₃.trans hi⟩
  | signal r pos ret | post r pos ret =>
    obtain ⟨hp, ⟨hr, hc⟩ | ⟨hr, hc⟩⟩ := h <;> obtain ⟨h₁, h₂, -⟩ := hframe pos _ hc rfl
    · exact ⟨h₂.trans hp, .inl ⟨hr, h₁⟩⟩
    · exact ⟨h₂.trans hp, .inr ⟨hr, h₁⟩⟩

/-- The contents of a slot depend on its entry and claim. -/
theorem Content.frame {p : ℕ} (h : Content s p) (hi : s'.item p = s.item p)
    (hc : s'.claim p = s.claim p) : Content s' p := by
  obtain ⟨u, r, h⟩ := h
  refine ⟨u, r, ?_⟩
  rwa [hi, hc]

/-- What is taken has been published. -/
theorem Inv.published_of_lt (h : Inv g s) {p : ℕ} (hp : p < s.tail + s.consumer.taken) :
    s.phase p = .published :=
  h.ring.published_of_lt_read p hp

omit [Inhabited ρ] in
/-- The consumer's view survives a step of a producer. -/
theorem RecordsOk.frame (h : RecordsOk s) (hring : SeqRing.Inv g s.ring) (hl : Local t s s') :
    RecordsOk s' := by
  have hitem : ∀ p, p < s.tail + s.consumer.taken → s'.item p = s.item p := fun p hp =>
    (hl.published p (hring.published_of_lt_read p hp)).2.1
  unfold RecordsOk at h ⊢
  rw [hl.consumer]
  cases hc : s.consumer with
  | idle | wait => trivial
  | get pc =>
    rw [hc] at h hitem
    cases pc with
    | loadHead | loadTail => exact hl.records.trans h
    | loadSeq _ _ _ n | copy _ _ _ n | storeTail _ n =>
      simp only at h ⊢
      rw [hl.records, hl.tail, h]
      refine (List.map_congr_left fun p hp => hitem p ?_).symm
      rw [List.mem_range'_1] at hp
      exact hp.2
    | postSlots n | remHead n | remTail n | lock n | broadcast n | unlock n | returned n =>
      simp only at h ⊢
      rw [hl.records, hl.tail, h.2]
      refine ⟨h.1, (List.map_congr_left fun p hp => hitem p ?_).symm⟩
      rw [List.mem_range'_1] at hp
      have hn := h.1
      omega

omit [Inhabited ρ] in
/-- A step of a producer leaves the batch. -/
theorem GetOk.frame (h : GetOk s) (hl : Local t s s') : GetOk s' := by
  have hhead := hl.head
  unfold GetOk at h ⊢
  rw [hl.consumer, hl.tail]
  cases hc : s.consumer with
  | idle | wait => trivial
  | get pc =>
    rw [hc] at h
    cases pc with
    | loadTail => exact ⟨h.1, by omega⟩
    | loadSeq => exact ⟨h.1, h.2.1, by omega⟩
    | copy => exact ⟨h.1, h.2.1, by omega, (hl.published _ h.2.2.2).1⟩
    | storeTail => exact h
    | loadHead | postSlots | remHead | remTail | lock | broadcast | unlock | returned => trivial

/-- **A producer's step keeps the invariant** as soon as it keeps the ring's, and
`t` knows about its own position what it should. -/
theorem Inv.of_local (h : Inv g s) (hl : Local t s s') (hring : SeqRing.Inv g s'.ring)
    (ht : PutOk g s' t (s'.put t)) (hclaim : ∀ p, (s'.claim p).isSome ↔ p < s'.head)
    (hnew : ∀ p, s.phase p ≠ .published → s'.phase p = .published → Content s' p) :
    Inv g s' where
  ring := hring
  put u := by
    by_cases hu : u = t
    · exact hu ▸ ht
    · rw [hl.put u hu]
      exact (h.put u).frame hl.tail.ge fun p c hc hcu => hl.other p c hc (hcu ▸ hu)
  get := h.get.frame hl
  records := h.records.frame h.ring hl
  copied := by
    rw [hl.copied, hl.tail, hl.consumer, h.copied]
    refine (List.map_congr_left fun p hp => ?_).symm
    exact (hl.published p (h.published_of_lt (List.mem_range.1 hp))).2.1
  claimed := hclaim
  content p hp := by
    by_cases hs : s.phase p = .published
    · obtain ⟨-, h₂, h₃⟩ := hl.published p hs
      exact (h.content p hs).frame h₂ h₃
    · exact hnew p hs hp

/-- **A consumer's step keeps the invariant** as soon as it keeps the ring's and
its locals are right: it leaves the producers and their positions alone. -/
theorem Inv.of_consume (h : Inv g s) (hring : SeqRing.Inv g s'.ring) (hget : GetOk s')
    (hrec : RecordsOk s')
    (hcop : s'.copied = (List.range (s'.tail + s'.consumer.taken)).map s'.item)
    (hput : s'.put = s.put) (hhead : s'.head = s.head) (htail : s.tail ≤ s'.tail)
    (hclaim : s'.claim = s.claim) (hphase : s'.phase = s.phase) (hitem : s'.item = s.item) :
    Inv g s' where
  ring := hring
  put u := by
    rw [hput]
    exact (h.put u).frame htail fun p c hc _ => ⟨hclaim ▸ hc, by rw [hphase], by rw [hitem]⟩
  get := hget
  records := hrec
  copied := hcop
  claimed := by rw [hclaim, hhead]; exact h.claimed
  content p hp :=
    (h.content p (hphase ▸ hp)).frame (by rw [hitem]) (by rw [hclaim])

end Queue
end Clogx
