/-
# Decimal numerals

What a decimal text has to be, said apart from any function that writes one.  A
numeral of `n` is a string of digits with the value `n` and no leading zero
(`IsNumeral`); the canonical text of an integer is the numeral of its absolute
value, behind a minus sign exactly if it is negative (`Canonical`); and a padded
numeral has a fixed number of digits (`IsPadded`).  Each of them is one text:
`decimal`, `signedDecimal`, and `decimal` with zeros in front of it.
-/

import Clogx.CLib.Text

namespace Clogx
namespace CLib

/-! ### Digits -/

/-- The value of a digit. -/
theorem toNat_digit {d : ℕ} (h : d < 10) : (48 + d).toUInt8.toNat - 48 = d := by
  rw [Nat.toUInt8, UInt8.toNat_ofNat']
  omega

theorem digit_lt {c : UInt8} (h : isDigit c = true) : c.toNat - 48 < 10 := by
  simp only [isDigit, Bool.and_eq_true, decide_eq_true_eq, UInt8.le_iff_toNat_le] at h
  have hle : c.toNat ≤ 57 := h.2
  omega

theorem toUInt8_digit {c : UInt8} (h : isDigit c = true) : (48 + (c.toNat - 48)).toUInt8 = c := by
  simp only [isDigit, Bool.and_eq_true, decide_eq_true_eq, UInt8.le_iff_toNat_le] at h
  have hge : 48 ≤ c.toNat := h.1
  rw [Nat.add_sub_cancel' hge]
  exact UInt8.ofNat_toNat

/-- A decimal has digits only. -/
theorem isDigit_of_mem_decimal {n : ℕ} {c : UInt8} (h : c ∈ decimal n) : isDigit c = true := by
  obtain ⟨hge, hle⟩ := mem_decimal h
  simp only [isDigit, hge, hle, decide_true, Bool.and_self]

/-- The digits of a text, the last one first, as numbers. -/
theorem magnitude_eq (ds : Text) :
    magnitude ds = Nat.ofDigits 10 (ds.reverse.map fun c => c.toNat - 48) := by
  rw [Nat.ofDigits_eq_foldr, List.foldr_map, List.foldr_reverse, magnitude]
  congr 1
  funext n c
  simp only [Nat.cast_id, Nat.add_comm]

theorem map_digits_lt {ds : Text} (h : ∀ c ∈ ds, isDigit c = true) :
    ∀ d ∈ ds.reverse.map (fun c => c.toNat - 48), d < 10 := by
  intro d hd
  obtain ⟨c, hc, rfl⟩ := List.mem_map.1 hd
  exact digit_lt (h c (List.mem_reverse.1 hc))

/-- The digits of a text of digits are the text. -/
theorem map_map_digits {ds : Text} (h : ∀ c ∈ ds, isDigit c = true) :
    (ds.reverse.map fun c => c.toNat - 48).reverse.map (fun d => (48 + d).toUInt8) = ds := by
  rw [← List.map_reverse, List.reverse_reverse, List.map_map]
  refine (List.map_congr_left fun c hc => ?_).trans (List.map_id ds)
  exact toUInt8_digit (h c hc)

/-- **Digits of one length and one value are the same.** -/
theorem eq_of_magnitude_eq {ds es : Text} (hds : ∀ c ∈ ds, isDigit c = true)
    (hes : ∀ c ∈ es, isDigit c = true) (hlen : ds.length = es.length)
    (h : magnitude ds = magnitude es) : ds = es := by
  rw [magnitude_eq, magnitude_eq] at h
  have hmap := Nat.ofDigits_inj_of_len_eq (by norm_num) (by simpa using hlen) (map_digits_lt hds)
    (map_digits_lt hes) h
  rw [← map_map_digits hds, ← map_map_digits hes, hmap]

theorem decimal_of_lt {n : ℕ} (h : n < 10) : decimal n = [(48 + n).toUInt8] := by
  interval_cases n <;> rfl

/-- The last digit of a number. -/
theorem decimal_of_le {n : ℕ} (h : 10 ≤ n) :
    decimal n = decimal (n / 10) ++ [(48 + n % 10).toUInt8] := by
  rw [decimal, decimal, if_neg (by omega), if_neg (by omega),
    Nat.digits_def' (by norm_num) (by omega), List.reverse_cons, List.map_append]
  rfl

theorem decimal_ne_nil (n : ℕ) : decimal n ≠ [] := by
  rcases Nat.lt_or_ge n 10 with h | h
  · rw [decimal_of_lt h]
    exact List.cons_ne_nil _ _
  · rw [decimal_of_le h]
    exact List.append_ne_nil_of_right_ne_nil _ (List.cons_ne_nil _ _)

/-- One more digit of a number with leading zeros. -/
theorem leftpad_decimal {w : ℕ} (hw : 0 < w) (n : ℕ) :
    (decimal n).leftpad (w + 1) 48 =
      (decimal (n / 10)).leftpad w 48 ++ [(48 + n % 10).toUInt8] := by
  rcases Nat.lt_or_ge n 10 with h | h
  · obtain ⟨w, rfl⟩ := Nat.exists_eq_succ_of_ne_zero hw.ne'
    rw [decimal_of_lt h, Nat.div_eq_of_lt h, decimal_of_lt (by norm_num), Nat.mod_eq_of_lt h]
    simp only [List.leftpad, List.length_singleton, Nat.succ_eq_add_one, Nat.add_sub_cancel]
    rw [List.replicate_succ']
    rfl
  · rw [decimal_of_le h]
    simp [List.leftpad]

/-- **The value of the digits of a number is the number.** -/
theorem magnitude_decimal (n : ℕ) : magnitude (decimal n) = n := by
  rw [decimal]
  split_ifs with h0
  · exact h0.symm
  · rw [magnitude_eq, ← List.map_reverse, List.reverse_reverse, List.map_map]
    have hid : (Nat.digits 10 n).map ((fun c : UInt8 => c.toNat - 48) ∘
        fun d => (48 + d).toUInt8) = Nat.digits 10 n := by
      refine (List.map_congr_left fun d hd => ?_).trans (List.map_id _)
      exact toNat_digit (Nat.digits_lt_base (by norm_num) hd)
    rw [hid, Nat.ofDigits_digits]

/-- Different numbers are written differently. -/
theorem decimal_injective : Function.Injective decimal :=
  Function.LeftInverse.injective magnitude_decimal

/-! ### Numerals -/

/-- **A numeral of `n`:** digits with the value `n`, and no leading zero. -/
structure IsNumeral (n : ℕ) (ds : Text) : Prop where
  digits : ∀ c ∈ ds, isDigit c = true
  ne_nil : ds ≠ []
  lead : ds.head? = some 48 → ds = [48]
  value : magnitude ds = n

/-- It is the numeral of its number. -/
theorem isNumeral_decimal (n : ℕ) : IsNumeral n (decimal n) where
  digits _ := isDigit_of_mem_decimal
  ne_nil := decimal_ne_nil n
  lead h := by
    rw [decimal] at h ⊢
    split_ifs at h ⊢ with h0
    · rfl
    · -- the first digit is the last one that `Nat.digits` finds, which is not zero
      have hne : Nat.digits 10 n ≠ [] := Nat.digits_ne_nil_iff_ne_zero.2 h0
      rw [List.head?_map, List.head?_reverse, List.getLast?_eq_some_getLast hne] at h
      have hlt := Nat.digits_lt_base (by norm_num : 1 < 10) (List.getLast_mem hne)
      have hlast : (48 + (Nat.digits 10 n).getLast hne).toUInt8 = 48 := Option.some.inj h
      have hzero := toNat_digit hlt
      rw [hlast] at hzero
      exact absurd hzero.symm (Nat.getLast_digit_ne_zero 10 h0)
  value := magnitude_decimal n

/-- **A number has one numeral.** -/
theorem isNumeral_iff {n : ℕ} {ds : Text} : IsNumeral n ds ↔ ds = decimal n := by
  refine ⟨fun h => ?_, fun h => h ▸ isNumeral_decimal n⟩
  by_cases hlead : ds.head? = some 48
  · have hzero := h.value
    rw [h.lead hlead] at hzero ⊢
    rw [← hzero]
    rfl
  · -- `Nat.digits` gives back the digits of a text whose first digit is not zero
    have hdigits : Nat.digits 10 n = ds.reverse.map fun c => c.toNat - 48 := by
      rw [← h.value, magnitude_eq]
      refine Nat.digits_ofDigits 10 (by norm_num) _ (map_digits_lt h.digits) fun hne hlast => ?_
      obtain ⟨c, cs, rfl⟩ := List.exists_cons_of_ne_nil h.ne_nil
      have hc : c.toNat - 48 = 0 := by simpa using hlast
      have hchar := toUInt8_digit (h.digits c List.mem_cons_self)
      rw [hc] at hchar
      exact hlead (congrArg some hchar.symm)
    have h0 : n ≠ 0 := by
      rintro rfl
      rw [Nat.digits_zero] at hdigits
      exact h.ne_nil (List.reverse_eq_nil_iff.1 (List.map_eq_nil_iff.1 hdigits.symm))
    rw [decimal, if_neg h0, hdigits, map_map_digits h.digits]

/-- A number with its sign. -/
def signedDecimal (z : ℤ) : Text := if z < 0 then 45 :: decimal z.natAbs else decimal z.toNat

theorem signedDecimal_natCast (n : ℕ) : signedDecimal n = decimal n := by
  rw [signedDecimal, if_neg (by omega), Int.toNat_natCast]

/-- The digits and the sign. -/
theorem length_signedDecimal_le {z : ℤ} {k : ℕ} (hk : 0 < k) (h : z.natAbs < 10 ^ k) :
    (signedDecimal z).length ≤ k + 1 := by
  rw [signedDecimal]
  split_ifs with hneg
  · exact Nat.succ_le_succ (length_decimal_le_of_lt hk h)
  · have hdigits : (decimal z.toNat).length ≤ k := length_decimal_le_of_lt hk (by omega)
    omega

/-- **The canonical text of an integer:** the numeral of its absolute value, behind a minus sign
exactly if the integer is negative. -/
def Canonical (z : ℤ) (t : Text) : Prop :=
  ∃ ds, IsNumeral z.natAbs ds ∧ t = if z < 0 then 45 :: ds else ds

/-- **The canonical text is the signed decimal.** -/
theorem canonical_iff {z : ℤ} {t : Text} : Canonical z t ↔ t = signedDecimal z := by
  have htext : signedDecimal z = if z < 0 then 45 :: decimal z.natAbs else decimal z.natAbs := by
    rw [signedDecimal]
    split_ifs with hneg
    · rfl
    · rw [show z.toNat = z.natAbs by omega]
  constructor
  · rintro ⟨ds, hds, rfl⟩
    rw [isNumeral_iff.1 hds, htext]
  · rintro rfl
    exact ⟨_, isNumeral_decimal _, htext⟩

example : signedDecimal (-120) = str "-120" := by decide

/-- **A padded numeral of `n`:** `w` digits with the value `n`. -/
structure IsPadded (w n : ℕ) (ds : Text) : Prop where
  digits : ∀ c ∈ ds, isDigit c = true
  length : ds.length = w
  value : magnitude ds = n

/-- Leading zeros do not count. -/
theorem magnitude_replicate_append (k : ℕ) (ds : Text) :
    magnitude (List.replicate k 48 ++ ds) = magnitude ds := by
  induction k with
  | zero => rfl
  | succ k ih => exact ih

/-- **A number of at most `w` digits has one padded numeral.** -/
theorem isPadded_iff {w n : ℕ} (hw : 0 < w) (hn : n < 10 ^ w) {ds : Text} :
    IsPadded w n ds ↔ ds = (decimal n).leftpad w 48 := by
  have hpad : IsPadded w n ((decimal n).leftpad w 48) := by
    refine ⟨fun c hc => ?_, ?_, ?_⟩
    · rcases List.mem_append.1 hc with hzero | hdigit
      · rw [List.eq_of_mem_replicate hzero]
        rfl
      · exact isDigit_of_mem_decimal hdigit
    · rw [List.length_leftpad]
      exact max_eq_left (length_decimal_le_of_lt hw hn)
    · rw [List.leftpad, magnitude_replicate_append, magnitude_decimal]
  refine ⟨fun h => ?_, fun h => h ▸ hpad⟩
  exact eq_of_magnitude_eq h.digits hpad.digits (h.length.trans hpad.length.symm)
    (h.value.trans hpad.value.symm)

end CLib
end Clogx
