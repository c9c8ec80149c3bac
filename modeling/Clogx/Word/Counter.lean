/-
# A counter in a machine word

A count that only grows, kept in a word of `w` bits: what is seen of `n` is
`word w n`, and the difference of two words is taken modulo `2 ^ w`.  `n / 2 ^ w` is
the round the counter is in.

A difference of words is the difference of the counts as long as these are less than
a round apart (`sub_of_le`), whether the counter has wrapped between them or not.  A
comparison of two words is the comparison of the counts only within one round
(`sub_lt_word_iff`); across the end of a round it is the wrong way about
(`sub_lt_word_of_round_ne`).
-/

import Mathlib.Tactic

namespace Clogx
namespace Word

/-- What a word of `w` bits holds of a count. -/
def word (w n : ℕ) : ℕ := n % 2 ^ w

/-- The difference of two words. -/
def sub (w a b : ℕ) : ℕ := word w (word w a + 2 ^ w - word w b)

variable {w a b c : ℕ}

theorem word_lt (w n : ℕ) : word w n < 2 ^ w := Nat.mod_lt _ (Nat.two_pow_pos w)

theorem word_of_lt (h : a < 2 ^ w) : word w a = a := Nat.mod_eq_of_lt h

theorem round_add_word (w n : ℕ) : 2 ^ w * (n / 2 ^ w) + word w n = n := Nat.div_add_mod n (2 ^ w)

/-- Less than a round apart, a difference of words is the difference of the counts. -/
theorem sub_of_le (hle : b ≤ a) (hlt : a - b < 2 ^ w) : sub w a b = a - b := by
  have hb := word_lt w b
  have hmod : word w a + 2 ^ w - word w b ≡ a - b [MOD 2 ^ w] := by
    refine Nat.ModEq.add_right_cancel' (word w b) ?_
    calc word w a + 2 ^ w - word w b + word w b
        = word w a + 2 ^ w := by omega
      _ ≡ word w a [MOD 2 ^ w] := Nat.add_mod_right ..
      _ ≡ a [MOD 2 ^ w] := Nat.mod_modEq ..
      _ = a - b + b := by omega
      _ ≡ a - b + word w b [MOD 2 ^ w] := Nat.ModEq.add_left _ (Nat.mod_modEq ..).symm
  calc sub w a b = (a - b) % 2 ^ w := hmod
    _ = a - b := Nat.mod_eq_of_lt hlt

/-- Less than a round apart, the words tell the counts apart. -/
theorem eq_of_word_eq (h : word w a = word w b) (hle : b ≤ a) (hlt : a - b < 2 ^ w) : a = b := by
  have hzero : a - b = 0 := by
    have hdvd := Nat.sub_mod_eq_zero_of_mod_eq h
    rwa [Nat.mod_eq_of_lt hlt] at hdvd
  omega

/-- Below its own word a count is reduced without a borrow. -/
theorem sub_of_le_word (hc : c ≤ word w a) : sub w a c = word w a - c := by
  have ha := word_lt w a
  have hc' : word w c = c := word_of_lt (by omega)
  calc sub w a c = (word w a - c + 2 ^ w) % 2 ^ w := by
        rw [sub, word, hc']
        congr 1
        omega
    _ = (word w a - c) % 2 ^ w := Nat.add_mod_right ..
    _ = word w a - c := Nat.mod_eq_of_lt (by omega)

/-- **Within one round words compare as the counts do.** -/
theorem sub_lt_word_iff (hround : a / 2 ^ w = b / 2 ^ w) (hc : c ≤ word w a) :
    sub w a c < word w b ↔ a - c < b := by
  have ha := round_add_word w a
  have hb := round_add_word w b
  rw [hround] at ha
  rw [sub_of_le_word hc]
  omega

/-- **Across the end of a round they compare the wrong way,** if the counts are less than half a
round apart. -/
theorem sub_lt_word_of_round_ne (hle : b ≤ a) (hnear : a - b < 2 ^ (w - 1)) (hc : c ≤ word w a)
    (hne : a / 2 ^ w ≠ b / 2 ^ w) (hw : w ≠ 0) : sub w a c < word w b ∧ b ≤ a - c := by
  have ha := round_add_word w a
  have hb := round_add_word w b
  have hb' := word_lt w b
  have hhalf : 2 ^ w = 2 * 2 ^ (w - 1) := by
    rw [← Nat.pow_succ', Nat.succ_eq_add_one, Nat.sub_add_cancel (Nat.pos_of_ne_zero hw)]
  have hround : 2 ^ w * (b / 2 ^ w) + 2 ^ w ≤ 2 ^ w * (a / 2 ^ w) := by
    rw [← Nat.mul_succ]
    exact Nat.mul_le_mul_left _ (lt_of_le_of_ne (Nat.div_le_div_right hle) hne.symm)
  rw [sub_of_le_word hc]
  omega

end Word
end Clogx
