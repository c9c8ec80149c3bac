/-
# The capacity of the two rings

`next_pow2` (`core/queue.c`) and `sk_next_pow2` (`core/socket_ring.c`) round a
capacity up to a power of two, so that `pos & (capacity - 1)` is a slot.  Both
double a `size_t` until it reaches their argument, and neither tests that a power
of two above the argument exists: past `2 ^ 63` the doubling shifts the only bit
out, and the loop goes on with zero for ever (`doubleUntil_eq_none`).

The queue is asked for an `int` that `log_async_init_for` has found positive, so
its loop ends.  The ring is asked for whatever number `socket_ring_capacity` was
read as, and `strtoul` reads `-1` as `2 ^ 64 - 1`.
-/

import Clogx.Config.Numbers
import Clogx.SeqRing.Protocol
import Mathlib.Data.Nat.Log

namespace Clogx
namespace Capacity

open CLib
open SeqRing (Shape)

/-- `while (p < n) { p <<= 1; }`, at most `fuel` tests of the condition. -/
def doubleUntil : ℕ → UInt64 → UInt64 → Option UInt64
  | 0, _, _ => none
  | fuel + 1, n, p => if p < n then doubleUntil fuel n (p <<< 1) else some p

/-- `next_pow2` of `core/queue.c`. -/
def nextPow2 (fuel : ℕ) (n : UInt64) : Option UInt64 :=
  if n ≤ 1 then some 1 else doubleUntil fuel n 2

/-- `sk_next_pow2` of `core/socket_ring.c`. -/
def skNextPow2 (fuel : ℕ) (n : UInt64) : Option UInt64 :=
  if n < 2 then some 2 else doubleUntil fuel n 1

/-! ### The doubling loop -/

/-- Doubling a word drops what leaves it at the top. -/
theorem toNat_shiftLeft_one (p : UInt64) : (p <<< 1).toNat = p.toNat * 2 % 2 ^ 64 := by
  rw [UInt64.toNat_shiftLeft, Nat.shiftLeft_eq]
  rfl

/-- **The loop stops at the first power of two it reaches,** if that is a word. -/
theorem doubleUntil_eq_some {n p : UInt64} {i j : ℕ} (hp : p.toNat = 2 ^ i) (hij : i ≤ j)
    (hj : j < 64) (hbelow : ∀ k < j, 2 ^ k < n.toNat) (hreach : n.toNat ≤ 2 ^ j) :
    ∃ c, doubleUntil (j - i + 1) n p = some c ∧ c.toNat = 2 ^ j := by
  obtain ⟨d, rfl⟩ := Nat.exists_eq_add_of_le hij
  rw [Nat.add_sub_cancel_left]
  -- the induction is on the doublings still to be made
  induction d generalizing p i with
  | zero =>
    have hstop : ¬ p < n := by
      rw [UInt64.lt_iff_toNat_lt, hp]
      exact hreach.not_gt
    exact ⟨p, if_neg hstop, hp⟩
  | succ d ih =>
    have hgo : p < n := by
      rw [UInt64.lt_iff_toNat_lt, hp]
      exact hbelow i (by omega)
    have hnext : (p <<< 1).toNat = 2 ^ (i + 1) := by
      rw [toNat_shiftLeft_one, hp, ← pow_succ]
      exact Nat.mod_eq_of_lt (Nat.pow_lt_pow_right (by norm_num) (by omega))
    have hsum : i + (d + 1) = i + 1 + d := by omega
    rw [hsum] at hj hbelow hreach ⊢
    rw [doubleUntil, if_pos hgo]
    exact ih hnext (by omega) hj hbelow hreach

/-- **Above `2 ^ 63` it never stops:** it doubles up to the top bit, and then goes on with
zero. -/
theorem doubleUntil_eq_none {n : UInt64} (hn : 2 ^ 63 < n.toNat) (fuel : ℕ) {p : UInt64}
    (hp : p.toNat = 0 ∨ ∃ i < 64, p.toNat = 2 ^ i) : doubleUntil fuel n p = none := by
  induction fuel generalizing p with
  | zero => rfl
  | succ fuel ih =>
    have hle : p.toNat ≤ 2 ^ 63 := by
      rcases hp with hzero | ⟨i, hi, hpow⟩
      · omega
      · rw [hpow]
        exact Nat.pow_le_pow_right (by norm_num) (by omega)
    have hgo : p < n := UInt64.lt_iff_toNat_lt.2 (by omega)
    rw [doubleUntil, if_pos hgo]
    refine ih ?_
    rw [toNat_shiftLeft_one]
    rcases hp with hzero | ⟨i, hi, hpow⟩
    · exact .inl (by rw [hzero, Nat.zero_mul, Nat.zero_mod])
    · rw [hpow, ← pow_succ]
      rcases Nat.lt_or_ge (i + 1) 64 with hlt | hge
      · exact .inr ⟨i + 1, hlt, Nat.mod_eq_of_lt (Nat.pow_lt_pow_right (by norm_num) hlt)⟩
      · obtain rfl : i = 63 := by omega
        exact .inl (Nat.mod_self _)

/-! ### Rounding -/

/-- The powers of two that hold `n` slots and at least `lo`. -/
def powersAbove (lo n : ℕ) : Set ℕ := {c | (∃ k, c = 2 ^ k) ∧ n ≤ c ∧ lo ≤ c}

/-- `round` ends, with the least power of two that holds `n` slots and at least `lo`, and masking
a position with its result is the position modulo the result. -/
def Rounds (round : ℕ → UInt64 → Option UInt64) (lo : ℕ) (n : UInt64) : Prop :=
  ∃ fuel c, round fuel n = some c ∧ IsLeast (powersAbove lo n.toNat) c.toNat ∧
    ∀ pos : UInt64, pos &&& (c - 1) = pos % c

/-- The least power of two above a number, with at least `2 ^ i` slots. -/
theorem isLeast_powersAbove (i n : ℕ) :
    IsLeast (powersAbove (2 ^ i) n) (2 ^ max i (Nat.clog 2 n)) := by
  refine ⟨⟨⟨_, rfl⟩, ?_, ?_⟩, ?_⟩
  · exact (Nat.le_pow_clog (by norm_num) n).trans
      (Nat.pow_le_pow_right (by norm_num) (le_max_right ..))
  · exact Nat.pow_le_pow_right (by norm_num) (le_max_left ..)
  · rintro c ⟨⟨k, rfl⟩, hn, hi⟩
    have hik : i ≤ k := (Nat.pow_le_pow_iff_right (by norm_num)).1 hi
    have hnk : Nat.clog 2 n ≤ k := Nat.clog_le_of_le_pow hn
    exact Nat.pow_le_pow_right (by norm_num) (max_le hik hnk)

/-- A word that is a power of two masks like the ring of so many slots. -/
theorem and_sub_one_eq_mod {c : UInt64} {j : ℕ} (hc : c.toNat = 2 ^ j) (pos : UInt64) :
    pos &&& (c - 1) = pos % c := by
  have hone : (1 : UInt64) ≤ c := by
    rw [UInt64.le_iff_toNat_le, hc]
    exact Nat.one_le_two_pow
  have hix := (Shape.ofPow j).ix_eq_mod pos.toNat
  rw [← UInt64.toNat_inj, UInt64.toNat_and, UInt64.toNat_mod, UInt64.toNat_sub_of_le _ _ hone, hc]
  exact hix

/-- A result of the loop as a rounding. -/
theorem rounds_of_eq {round : ℕ → UInt64 → Option UInt64} {n c : UInt64} {fuel i : ℕ}
    (hr : round fuel n = some c) (hc : c.toNat = 2 ^ max i (Nat.clog 2 n.toNat)) :
    Rounds round (2 ^ i) n := by
  refine ⟨fuel, c, hr, ?_, and_sub_one_eq_mod hc⟩
  rw [hc]
  exact isLeast_powersAbove i n.toNat

/-- The loop from a power of two below the argument. -/
theorem doubleUntil_clog {n p : UInt64} {i : ℕ} (hn : n.toNat ≤ 2 ^ 63) (hp : p.toNat = 2 ^ i)
    (hi : i ≤ Nat.clog 2 n.toNat) :
    ∃ fuel c, doubleUntil fuel n p = some c ∧ c.toNat = 2 ^ Nat.clog 2 n.toNat := by
  have hj : Nat.clog 2 n.toNat < 64 := Nat.lt_succ_of_le (Nat.clog_le_of_le_pow hn)
  have hbelow (k : ℕ) (hk : k < Nat.clog 2 n.toNat) : 2 ^ k < n.toNat := by
    by_contra hle
    exact hk.not_ge (Nat.clog_le_of_le_pow (not_lt.1 hle))
  exact ⟨_, doubleUntil_eq_some hp hi hj hbelow (Nat.le_pow_clog (by norm_num) _)⟩

/-- The size of the argument of a rounding that goes through the loop. -/
theorem le_of_rounds {round : ℕ → UInt64 → Option UInt64} {lo : ℕ} {n p : UInt64}
    (hp : ∃ i < 64, p.toNat = 2 ^ i) (hloop : ∀ fuel, round fuel n = doubleUntil fuel n p)
    (h : Rounds round lo n) : n.toNat ≤ 2 ^ 63 := by
  obtain ⟨fuel, c, hr, -⟩ := h
  by_contra hgt
  rw [hloop, doubleUntil_eq_none (not_le.1 hgt) fuel (.inr hp)] at hr
  cases hr

/-- **`next_pow2` rounds exactly the sizes up to `2 ^ 63`.** -/
theorem rounds_nextPow2_iff (n : UInt64) : Rounds nextPow2 1 n ↔ n.toNat ≤ 2 ^ 63 := by
  by_cases hsmall : n ≤ 1
  · have hn : n.toNat ≤ 1 := UInt64.le_iff_toNat_le.1 hsmall
    refine iff_of_true ?_ (by omega)
    have hclog : max 0 (Nat.clog 2 n.toNat) = 0 := by
      rw [Nat.clog_of_right_le_one hn, max_self]
    have hr : nextPow2 0 n = some 1 := if_pos hsmall
    exact rounds_of_eq (i := 0) hr (by rw [hclog]; rfl)
  · have hloop (fuel : ℕ) : nextPow2 fuel n = doubleUntil fuel n 2 := if_neg hsmall
    refine ⟨le_of_rounds ⟨1, by norm_num, rfl⟩ hloop, fun hn => ?_⟩
    have hone : 1 ≤ Nat.clog 2 n.toNat :=
      Nat.clog_pos (by norm_num) (UInt64.lt_iff_toNat_lt.1 (UInt64.not_le.1 hsmall))
    obtain ⟨fuel, c, hr, hc⟩ := doubleUntil_clog (p := 2) (i := 1) hn rfl hone
    exact rounds_of_eq (i := 0) ((hloop fuel).trans hr) (by rw [hc, max_eq_right (by omega)])

example : nextPow2 64 5 = some 8 := by decide

/-- **And so does `sk_next_pow2`.** -/
theorem rounds_skNextPow2_iff (n : UInt64) : Rounds skNextPow2 2 n ↔ n.toNat ≤ 2 ^ 63 := by
  by_cases hsmall : n < 2
  · have hn : n.toNat < 2 := UInt64.lt_iff_toNat_lt.1 hsmall
    refine iff_of_true ?_ (by omega)
    have hclog : max 1 (Nat.clog 2 n.toNat) = 1 := by
      rw [Nat.clog_of_right_le_one (by omega), max_eq_left (by omega)]
    have hr : skNextPow2 0 n = some 2 := if_pos hsmall
    exact rounds_of_eq (i := 1) hr (by rw [hclog]; rfl)
  · have hloop (fuel : ℕ) : skNextPow2 fuel n = doubleUntil fuel n 1 := if_neg hsmall
    refine ⟨le_of_rounds ⟨0, by norm_num, rfl⟩ hloop, fun hn => ?_⟩
    have hone : 1 ≤ Nat.clog 2 n.toNat :=
      Nat.clog_pos (by norm_num) (UInt64.le_iff_toNat_le.1 (UInt64.not_lt.1 hsmall))
    obtain ⟨fuel, c, hr, hc⟩ := doubleUntil_clog (p := 1) (i := 0) hn rfl (Nat.zero_le _)
    exact rounds_of_eq (i := 1) ((hloop fuel).trans hr) (by rw [hc, max_eq_right hone])

/-! ### The sizes the configuration admits -/

/-- What `strtoul` reads is a `size_t`. -/
theorem strtoul_lt {v : Text} {n : ℕ} (h : strtoul v = some n) : n < 2 ^ 64 := by
  rw [strtoul] at h
  split_ifs at h with hbad hfit
  · cases h
    exact Nat.mod_lt _ (by norm_num)
  · cases h
    exact hfit

/-- **The rounding of both rings ends exactly for the capacities up to `2 ^ 63`.**  The queue size
is a positive `int`; the capacity of the socket ring is what its setting was read as. -/
theorem rounding_iff {queueSize : ℤ} (hpos : 0 < queueSize) (hint : queueSize < 2 ^ 31) {v : Text}
    {capacity : ℕ} (hv : strtoul v = some capacity) :
    (Rounds nextPow2 1 (UInt64.ofNat queueSize.toNat) ∧
      Rounds skNextPow2 2 (UInt64.ofNat capacity)) ↔ capacity ≤ 2 ^ 63 := by
  have hqueue : (UInt64.ofNat queueSize.toNat).toNat = queueSize.toNat :=
    UInt64.toNat_ofNat_of_lt' (show queueSize.toNat < 2 ^ 64 by omega)
  have hring : (UInt64.ofNat capacity).toNat = capacity :=
    UInt64.toNat_ofNat_of_lt' (strtoul_lt hv)
  rw [rounds_nextPow2_iff, rounds_skNextPow2_iff, hqueue, hring]
  exact and_iff_right (by omega)

/-- A queue of a thousand records and a ring of five hundred lines. -/
theorem rounding_thousand :
    Rounds nextPow2 1 (UInt64.ofNat (1000 : ℤ).toNat) ∧ Rounds skNextPow2 2 (UInt64.ofNat 500) :=
  (rounding_iff (by decide) (by decide) (by decide : strtoul (str "500") = some 500)).2 (by decide)

/-- **A file may ask for a ring that is never created:** `socket_ring_capacity: -1` is accepted,
and `sk_next_pow2` of what is stored for it does not end. -/
theorem ring_of_minus_one :
    let loaded := Config.parseConfigFile
      (.events (Config.Numeric.oneSetting .socketRingCapacity (str "-1"))) (Config.pole false)
    loaded.ret = 0 ∧ loaded.target.cfg.socketRingCapacity = 2 ^ 64 - 1 ∧
      ∀ fuel, skNextPow2 fuel (UInt64.ofNat loaded.target.cfg.socketRingCapacity) = none := by
  have hcap : (Config.parseConfigFile (.events (Config.Numeric.oneSetting .socketRingCapacity
      (str "-1"))) (Config.pole false)).target.cfg.socketRingCapacity = 2 ^ 64 - 1 := by
    decide +kernel
  refine ⟨by decide +kernel, hcap, fun fuel => ?_⟩
  rw [hcap, skNextPow2, if_neg (by decide)]
  exact doubleUntil_eq_none (by decide) fuel (.inr ⟨0, by decide, by decide⟩)

end Capacity
end Clogx
