/-
# A ring of sequenced slots

The protocol behind a bounded multi-producer, single-consumer ring.  Absolute
positions `0, 1, 2, …` are claimed in order by advancing `head`; position `p`
lives in slot `p mod capacity`.  A producer writes the slot of its position and
then publishes it by storing `seq = p + 1`; the consumer takes the position
`read` when it finds `seq = read + 1` there, and frees the slots behind it by
storing `tail`.  More than `capacity` positions may be claimed at once: what
keeps two laps apart is only that a slot is written for `p` after `tail` has
passed `p - capacity`.

`Phase` and `item` are history: how far position `p` has got and what was
written for it.  `Inv` is the invariant of the protocol, kept by each of its
operations (`Inv.claim`, `Inv.write`, `Inv.publish`, `Inv.take`, `Inv.clobber`,
`Inv.commit`).  The two facts the consumer lives on are `Inv.published_of_seq`,
the sequence test never accepts an unpublished slot, and `Inv.val_read`, what
it then reads is what was written for that position.  `Stale` says which sequence
number an unpublished slot carries.
-/

import Mathlib.Tactic

namespace Clogx
namespace SeqRing

/-- A ring of a power-of-two number of slots, indexed by masking. -/
structure Shape where
  capacity : ℕ
  mask : ℕ
  pow : ∃ k, capacity = 2 ^ k
  mask_eq : mask = capacity - 1

namespace Shape

/-- The ring of `2 ^ k` slots. -/
def ofPow (k : ℕ) : Shape := ⟨2 ^ k, 2 ^ k - 1, ⟨k, rfl⟩, rfl⟩

/-- The slot of an absolute position, `pos & mask`. -/
def ix (g : Shape) (pos : ℕ) : ℕ := pos &&& g.mask

variable (g : Shape)

theorem capacity_pos : 0 < g.capacity := by
  obtain ⟨k, hk⟩ := g.pow
  rw [hk]
  positivity

/-- Masking with `capacity - 1` is reduction modulo the capacity. -/
theorem ix_eq_mod (pos : ℕ) : g.ix pos = pos % g.capacity := by
  obtain ⟨k, hk⟩ := g.pow
  rw [ix, g.mask_eq, hk, Nat.and_two_pow_sub_one_eq_mod]

theorem ix_of_lt {pos : ℕ} (h : pos < g.capacity) : g.ix pos = pos := by
  rw [ix_eq_mod, Nat.mod_eq_of_lt h]

/-- One lap later the slot is the same. -/
theorem ix_sub {pos : ℕ} (h : g.capacity ≤ pos) : g.ix (pos - g.capacity) = g.ix pos := by
  rw [ix_eq_mod, ix_eq_mod, Nat.mod_eq_sub_mod h]

/-- **Within one lap the slots are distinct.** -/
theorem ix_inj {t p q : ℕ} (hp : t ≤ p) (hp' : p < t + g.capacity) (hq : t ≤ q)
    (hq' : q < t + g.capacity) (h : g.ix p = g.ix q) : p = q := by
  rw [ix_eq_mod, ix_eq_mod] at h
  rcases le_total p q with hle | hle
  · have := Nat.eq_zero_of_dvd_of_lt (Nat.dvd_of_mod_eq_zero (Nat.sub_mod_eq_zero_of_mod_eq h.symm))
      (by omega : q - p < g.capacity)
    omega
  · have := Nat.eq_zero_of_dvd_of_lt (Nat.dvd_of_mod_eq_zero (Nat.sub_mod_eq_zero_of_mod_eq h))
      (by omega : p - q < g.capacity)
    omega

end Shape

/-- How far a position has got: nothing written yet, slot written, `seq` stored. -/
inductive Phase
  | vacant
  | written
  | published
deriving DecidableEq

variable {β : Type*}

/-- The memory of the ring, the consumer's cursor, and the history of each
position. -/
structure Mem (β : Type*) where
  head : ℕ
  tail : ℕ
  read : ℕ
  seq : ℕ → ℕ
  val : ℕ → β
  phase : ℕ → Phase
  item : ℕ → β

namespace Mem

/-- Claim the next position. -/
def claim (r : Mem β) : Mem β := { r with head := r.head + 1 }

/-- Write the slot of `p`. -/
def write (g : Shape) (p : ℕ) (v : β) (r : Mem β) : Mem β :=
  { r with
    val := Function.update r.val (g.ix p) v
    phase := Function.update r.phase p .written
    item := Function.update r.item p v }

/-- Store `seq = p + 1` in the slot of `p`. -/
def publish (g : Shape) (p : ℕ) (r : Mem β) : Mem β :=
  { r with
    seq := Function.update r.seq (g.ix p) (p + 1)
    phase := Function.update r.phase p .published }

/-- The consumer is done with the slot under its cursor. -/
def take (r : Mem β) : Mem β := { r with read := r.read + 1 }

/-- The consumer overwrites the slot of a position it has taken. -/
def clobber (g : Shape) (p : ℕ) (v : β) (r : Mem β) : Mem β :=
  { r with val := Function.update r.val (g.ix p) v }

/-- The consumer frees what it has taken. -/
def commit (r : Mem β) : Mem β := { r with tail := r.read }

end Mem

/-- The invariant of the protocol.  Every position below the cursor is
published; only positions less than a lap past `tail` have been written; in that
window `seq` tells the published ones, and a slot at or past the cursor holds
what was written for its position. -/
structure Inv (g : Shape) (r : Mem β) : Prop where
  tail_le_read : r.tail ≤ r.read
  read_le_head : r.read ≤ r.head
  vacant_of_head_le : ∀ p, r.head ≤ p → r.phase p = .vacant
  published_of_lt_read : ∀ p, p < r.read → r.phase p = .published
  near : ∀ p, r.phase p ≠ .vacant → p < r.tail + g.capacity
  seq_of_published : ∀ p, r.tail ≤ p → r.phase p = .published → r.seq (g.ix p) = p + 1
  seq_of_unpublished : ∀ p, r.tail ≤ p → p < r.tail + g.capacity → r.phase p ≠ .published →
    r.seq (g.ix p) ≠ p + 1
  val_of_written : ∀ p, r.read ≤ p → r.phase p ≠ .vacant → r.val (g.ix p) = r.item p

namespace Inv

variable {g : Shape} {r : Mem β} {p : ℕ}

/-- A position not yet published is at or past the cursor. -/
theorem read_le_of_unpublished (h : Inv g r) (hp : r.phase p ≠ .published) : r.read ≤ p := by
  by_contra hlt
  exact hp (h.published_of_lt_read p (by omega))

/-- A position in use has been claimed. -/
theorem lt_head_of_phase (h : Inv g r) (hp : r.phase p ≠ .vacant) : p < r.head := by
  by_contra hle
  exact hp (h.vacant_of_head_le p (by omega))

/-- **Distinct positions of the window use distinct slots.** -/
theorem ix_ne (h : Inv g r) {q : ℕ} (hp : r.tail ≤ p) (hp' : p < r.tail + g.capacity)
    (hq : r.phase q ≠ .vacant) (hq' : r.tail ≤ q) (hne : q ≠ p) : g.ix q ≠ g.ix p :=
  fun he => hne (g.ix_inj hq' (h.near q hq) hp hp' he)

/-- **The sequence test of the consumer is sound**: `seq = read + 1` is found
only in a published slot, also when the cursor is a whole lap past `tail`. -/
theorem published_of_seq (h : Inv g r) (hs : r.seq (g.ix r.read) = r.read + 1) :
    r.phase r.read = .published := by
  have hc := g.capacity_pos
  by_contra hne
  rcases lt_or_ge r.read (r.tail + g.capacity) with hlt | hge
  · exact h.seq_of_unpublished _ h.tail_le_read hlt hne hs
  · have hpub := h.published_of_lt_read (r.read - g.capacity) (by omega)
    have hseq := h.seq_of_published (r.read - g.capacity) (by omega) hpub
    rw [g.ix_sub (by omega)] at hseq
    omega

/-- A published slot under the cursor passes the test. -/
theorem seq_of_read (h : Inv g r) (hp : r.phase r.read = .published) :
    r.seq (g.ix r.read) = r.read + 1 :=
  h.seq_of_published _ h.tail_le_read hp

/-- **The consumer reads what was written for the position.** -/
theorem val_read (h : Inv g r) (hp : r.phase r.read = .published) :
    r.val (g.ix r.read) = r.item r.read :=
  h.val_of_written _ le_rfl (by rw [hp]; decide)

/-- A claim keeps the invariant. -/
theorem claim (h : Inv g r) : Inv g r.claim where
  tail_le_read := h.tail_le_read
  read_le_head := Nat.le_succ_of_le h.read_le_head
  vacant_of_head_le p hp := h.vacant_of_head_le p (Nat.le_of_succ_le hp)
  published_of_lt_read := h.published_of_lt_read
  near := h.near
  seq_of_published := h.seq_of_published
  seq_of_unpublished := h.seq_of_unpublished
  val_of_written := h.val_of_written

/-- Writing the slot of a claimed position less than a lap past `tail` touches no
other position of the window. -/
theorem write (h : Inv g r) {v : β} (hp : r.phase p ≠ .published) (hh : p < r.head)
    (hc : p < r.tail + g.capacity) : Inv g (r.write g p v) := by
  have hread := h.read_le_of_unpublished hp
  have htail := h.tail_le_read
  constructor
  · exact h.tail_le_read
  · exact h.read_le_head
  · intro q hq
    have hne : q ≠ p := by rintro rfl; exact absurd hh (not_lt.2 hq)
    simpa [Mem.write, Function.update_of_ne hne] using h.vacant_of_head_le q hq
  · intro q hq
    have hq' : q < r.read := hq
    simpa [Mem.write, Function.update_of_ne (show q ≠ p by omega)] using
      h.published_of_lt_read q hq'
  · intro q hq
    by_cases hqp : q = p
    · exact hqp ▸ hc
    · exact h.near q (by simpa [Mem.write, Function.update_of_ne hqp] using hq)
  · intro q hq hpub
    have hqp : q ≠ p := by rintro rfl; simp [Mem.write] at hpub
    exact h.seq_of_published q hq (by simpa [Mem.write, Function.update_of_ne hqp] using hpub)
  · intro q hq hq' hpub
    by_cases hqp : q = p
    · subst hqp; exact h.seq_of_unpublished q hq hq' hp
    · exact h.seq_of_unpublished q hq hq'
        (by simpa [Mem.write, Function.update_of_ne hqp] using hpub)
  · intro q hq hv
    have hq' : r.read ≤ q := hq
    by_cases hqp : q = p
    · subst hqp; simp [Mem.write]
    · have hv' : r.phase q ≠ .vacant := by
        simpa [Mem.write, Function.update_of_ne hqp] using hv
      have hne := h.ix_ne (by omega) hc hv' (by omega) hqp
      simpa [Mem.write, Function.update_of_ne hqp, Function.update_of_ne hne] using
        h.val_of_written q hq' hv'

/-- Publishing a written slot. -/
theorem publish (h : Inv g r) (hp : r.phase p = .written) : Inv g (r.publish g p) := by
  have hnv : r.phase p ≠ .vacant := by rw [hp]; decide
  have hread := h.read_le_of_unpublished (p := p) (by rw [hp]; decide)
  have htail := h.tail_le_read
  have hc := h.near p hnv
  constructor
  · exact h.tail_le_read
  · exact h.read_le_head
  · intro q hq
    have hne : q ≠ p := by rintro rfl; exact absurd (h.lt_head_of_phase hnv) (not_lt.2 hq)
    simpa [Mem.publish, Function.update_of_ne hne] using h.vacant_of_head_le q hq
  · intro q hq
    have hq' : q < r.read := hq
    simpa [Mem.publish, Function.update_of_ne (show q ≠ p by omega)] using
      h.published_of_lt_read q hq'
  · intro q hq
    by_cases hqp : q = p
    · exact hqp ▸ hc
    · exact h.near q (by simpa [Mem.publish, Function.update_of_ne hqp] using hq)
  · intro q hq hpub
    by_cases hqp : q = p
    · subst hqp; simp [Mem.publish]
    · have hpub' : r.phase q = .published := by
        simpa [Mem.publish, Function.update_of_ne hqp] using hpub
      have hne := h.ix_ne (p := p) (by omega) hc (by rw [hpub']; decide) hq hqp
      simpa [Mem.publish, Function.update_of_ne hne] using h.seq_of_published q hq hpub'
  · intro q hq hq' hpub
    have hqp : q ≠ p := by rintro rfl; simp [Mem.publish] at hpub
    have hne : g.ix q ≠ g.ix p := fun he =>
      hqp (g.ix_inj hq hq' (show r.tail ≤ p by omega) hc he)
    simpa [Mem.publish, Function.update_of_ne hne] using h.seq_of_unpublished q hq hq'
      (by simpa [Mem.publish, Function.update_of_ne hqp] using hpub)
  · intro q hq hv
    by_cases hqp : q = p
    · subst hqp; exact h.val_of_written q hq hnv
    · exact h.val_of_written q hq (by simpa [Mem.publish, Function.update_of_ne hqp] using hv)

/-- Taking a published position. -/
theorem take (h : Inv g r) (hp : r.phase r.read = .published) : Inv g r.take where
  tail_le_read := Nat.le_succ_of_le h.tail_le_read
  read_le_head := h.lt_head_of_phase (by rw [hp]; decide)
  vacant_of_head_le := h.vacant_of_head_le
  published_of_lt_read q hq := by
    rcases Nat.lt_succ_iff_lt_or_eq.1 hq with hlt | rfl
    · exact h.published_of_lt_read q hlt
    · exact hp
  near := h.near
  seq_of_published := h.seq_of_published
  seq_of_unpublished := h.seq_of_unpublished
  val_of_written q hq := h.val_of_written q (Nat.le_of_succ_le hq)

/-- Overwriting the slot of a position taken but not yet freed. -/
theorem clobber (h : Inv g r) {v : β} (hp : r.tail ≤ p) (hp' : p < r.read) :
    Inv g (r.clobber g p v) where
  tail_le_read := h.tail_le_read
  read_le_head := h.read_le_head
  vacant_of_head_le := h.vacant_of_head_le
  published_of_lt_read := h.published_of_lt_read
  near := h.near
  seq_of_published := h.seq_of_published
  seq_of_unpublished := h.seq_of_unpublished
  val_of_written q hq hv := by
    have hq' : r.read ≤ q := hq
    have htail := h.tail_le_read
    have hlap := h.near p (by rw [h.published_of_lt_read p hp']; decide)
    have hne := h.ix_ne hp hlap hv (by omega) (by omega)
    simpa [Mem.clobber, Function.update_of_ne hne] using h.val_of_written q hq' hv

/-- **Freeing what was taken opens the next lap**: the slot of a position that
enters the window still carries the sequence number of the lap before. -/
theorem commit (h : Inv g r) : Inv g r.commit where
  tail_le_read := le_rfl
  read_le_head := h.read_le_head
  vacant_of_head_le := h.vacant_of_head_le
  published_of_lt_read := h.published_of_lt_read
  near q hq := by
    have h₁ := h.near q hq
    have h₂ := h.tail_le_read
    show q < r.read + g.capacity
    omega
  seq_of_published q hq := h.seq_of_published q (h.tail_le_read.trans hq)
  seq_of_unpublished q hq hq' hpub := by
    have hc := g.capacity_pos
    have h₁ : r.read ≤ q := hq
    have h₂ : q < r.read + g.capacity := hq'
    have htail := h.tail_le_read
    rcases lt_or_ge q (r.tail + g.capacity) with hlt | hge
    · exact h.seq_of_unpublished q (by omega) hlt hpub
    · have hseq := h.seq_of_published (q - g.capacity) (by omega)
        (h.published_of_lt_read _ (by omega))
      rw [g.ix_sub (by omega)] at hseq
      show r.seq (g.ix q) ≠ q + 1
      omega
  val_of_written := h.val_of_written

/-- **A fresh ring**: nothing claimed, and no slot `i` carries the sequence
number `i + 1` its first position will publish. -/
theorem fresh (hs : ∀ i, i < g.capacity → r.seq i ≠ i + 1) (hh : r.head = 0) (ht : r.tail = 0)
    (hr : r.read = 0) (hp : ∀ p, r.phase p = .vacant) : Inv g r where
  tail_le_read := by omega
  read_le_head := by omega
  vacant_of_head_le p _ := hp p
  published_of_lt_read p h := by omega
  near p h := absurd (hp p) h
  seq_of_published p _ h := by rw [hp p] at h; cases h
  seq_of_unpublished p _ h _ := by
    have : p < g.capacity := by omega
    rw [g.ix_of_lt this]
    exact hs p this
  val_of_written p _ h := absurd (hp p) h

end Inv

/-! ### The lap before -/

/-- The sequence number that the slot of `p` carries until `p` is published: that of the lap
before, or the initial one. -/
def Shape.before (g : Shape) (p : ℕ) : ℕ := if p < g.capacity then p else p + 1 - g.capacity

/-- An unpublished slot of the window still carries the number of the lap before. -/
def Stale (g : Shape) (r : Mem β) : Prop :=
  ∀ p, r.tail ≤ p → p < r.tail + g.capacity → r.phase p ≠ .published → r.seq (g.ix p) = g.before p

namespace Stale

variable {g : Shape} {r r' : Mem β} {p : ℕ}

/-- An operation that moves neither `tail` nor a sequence number. -/
theorem frame (h : Stale g r) (htail : r'.tail = r.tail) (hseq : r'.seq = r.seq)
    (hphase : ∀ p, r.phase p = .published → r'.phase p = .published) : Stale g r' := by
  intro p hle hlt hp
  rw [htail] at hle hlt
  rw [hseq]
  exact h p hle hlt fun hpub => hp (hphase p hpub)

/-- A published position that was taken left its number behind. -/
theorem seq_of_taken (hi : Inv g r) (hfar : r.tail + g.capacity ≤ p)
    (hread : p < r.read + g.capacity) : r.seq (g.ix p) = g.before p := by
  have hpub := hi.published_of_lt_read (p - g.capacity) (by omega)
  have hseq := hi.seq_of_published (p - g.capacity) (by omega) hpub
  rw [g.ix_sub (by omega)] at hseq
  rw [hseq, Shape.before, if_neg (by omega)]
  omega

theorem publish (h : Stale g r) (hi : Inv g r) (hp : r.phase p = .written) :
    Stale g (r.publish g p) := by
  have hlap : p < r.tail + g.capacity := hi.near p (by rw [hp]; decide)
  have hread := hi.read_le_of_unpublished (p := p) (by rw [hp]; decide)
  have htail := hi.tail_le_read
  intro q hle hlt hq
  have hne : q ≠ p := by
    rintro rfl
    exact hq (Function.update_self ..)
  have hq' : r.phase q ≠ .published := by
    intro hpub
    exact hq ((Function.update_of_ne hne ..).trans hpub)
  have hle' : r.tail ≤ p := htail.trans hread
  have hix : g.ix q ≠ g.ix p := fun he => hne (g.ix_inj hle hlt hle' hlap he)
  exact (Function.update_of_ne hix ..).trans (h q hle hlt hq')

theorem commit (h : Stale g r) (hi : Inv g r) : Stale g r.commit := by
  have htail := hi.tail_le_read
  intro q hle hlt hq
  have hle' : r.read ≤ q := hle
  rcases lt_or_ge q (r.tail + g.capacity) with hnear | hfar
  · exact h q (htail.trans hle') hnear hq
  · have hseq : r.seq (g.ix q) = g.before q := seq_of_taken hi hfar hlt
    exact hseq

theorem fresh (hs : ∀ i, i < g.capacity → r.seq i = i) (ht : r.tail = 0) : Stale g r := by
  intro p _ hlt _
  have hlt' : p < g.capacity := by omega
  rw [g.ix_of_lt hlt', hs p hlt', Shape.before, if_pos hlt']

/-- What the consumer finds under its cursor before the position is published. -/
theorem seq_read (h : Stale g r) (hi : Inv g r) (hp : r.phase r.read ≠ .published) :
    r.seq (g.ix r.read) = g.before r.read := by
  have hc := g.capacity_pos
  rcases lt_or_ge r.read (r.tail + g.capacity) with hlt | hge
  · exact h r.read hi.tail_le_read hlt hp
  · exact seq_of_taken hi hge (by omega)

end Stale

end SeqRing
end Clogx
