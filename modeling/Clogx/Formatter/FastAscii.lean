/-
# Numbers in memory

The functions of `core/fast_ascii.h` as they run: on arrays, with the table of
digit pairs, and with the scratch array of `clog_u32toa` and of `clog_u64toa`,
which a pointer fills from its end.  `buf` is the array of the caller and `i` the
place in it that the function is given.  An access that leaves an array, a
pointer that moves before the start of its array and a signed operation that
overflows are `none`; the scratch arrays hold anything at first.

The digits are computed on ℕ, since `/`, `%` and the factor 2 of an index do not
wrap on the unsigned types.

Each function stores one text, the canonical one, if there is room for it
(`emit`).  The text-level functions of `Formatter.Append` and `Formatter.Clock`,
which the formatters are built from, are what their callers get from an array on
the stack.
-/

import Clogx.Formatter.Clock

namespace Clogx
namespace FastAscii

open CLib Formatter

/-- `g_clog_digits_lut`, with its terminator. -/
def gClogDigitsLut : Block :=
  str "0001020304050607080910111213141516171819" ++
  str "2021222324252627282930313233343536373839" ++
  str "4041424344454647484950515253545556575859" ++
  str "6061626364656667686970717273747576777879" ++
  str "8081828384858687888990919293949596979899" ++ [0]

/-- `buf[i] = g_clog_digits_lut[idx]`, and the next character of the table behind it. -/
def putPair (idx : ℕ) (buf : Block) (i : ℕ) : Option Block := do
  let c ← gClogDigitsLut[idx]?
  let buf ← store buf i [c]
  let c ← gClogDigitsLut[idx + 1]?
  store buf (i + 1) [c]

/-- `clog_u32toa_pad2`. -/
def clogU32toaPad2 (val : UInt32) (buf : Block) (i : ℕ) : Option Block :=
  putPair (val.toNat % 100 * 2) buf i

/-- `clog_u32toa_pad4`. -/
def clogU32toaPad4 (val : UInt32) (buf : Block) (i : ℕ) : Option Block := do
  let buf ← putPair (val.toNat / 100 * 2) buf i
  putPair (val.toNat % 100 * 2) buf (i + 2)

/-- `clog_u32toa_pad6`. -/
def clogU32toaPad6 (val : UInt32) (buf : Block) (i : ℕ) : Option Block := do
  let v1 := val.toNat / 100
  let buf ← putPair (v1 / 100 * 2) buf i
  let buf ← putPair (v1 % 100 * 2) buf (i + 2)
  putPair (val.toNat % 100 * 2) buf (i + 4)

/-- `while (val >= 100)`: the pointer goes down by two places for two digits. -/
def pairsLoop : ℕ → ℕ → Block → Option (ℕ × ℕ × Block)
  | p + 2, val, tmp =>
    if 100 ≤ val then do
      let tmp ← putPair (val % 100 * 2) tmp p
      pairsLoop p (val / 100) tmp
    else some (p + 2, val, tmp)
  | p, val, tmp => if 100 ≤ val then none else some (p, val, tmp)

/-- The one or two digits that are left after the loop. -/
def putFirst (p val : ℕ) (tmp : Block) : Option (ℕ × Block) :=
  if val < 10 then
    if p < 1 then none else do
      let tmp ← store tmp (p - 1) [(48 + val).toUInt8]
      some (p - 1, tmp)
  else if p < 2 then none
  else do
    let tmp ← putPair (val * 2) tmp (p - 2)
    some (p - 2, tmp)

/-- The digits by way of the scratch array: the pointer starts behind it, and what lies from the
pointer on is copied. -/
def viaScratch (tmp : Block) (val : ℕ) (buf : Block) (i : ℕ) : Option (ℕ × Block) := do
  let (p, val, tmp) ← pairsLoop tmp.length val tmp
  let (p, tmp) ← putFirst p val tmp
  let len := tmp.length - p
  let buf ← store buf i ((tmp.drop p).take len)
  some (len, buf)

/-- `clog_u32toa`. -/
def clogU32toa (tmp : Chars 12) (val : UInt32) (buf : Block) (i : ℕ) : Option (ℕ × Block) :=
  if val.toNat < 10 then do
    let buf ← store buf i [(48 + val.toNat).toUInt8]
    some (1, buf)
  else if val.toNat < 100 then do
    let buf ← putPair (val.toNat * 2) buf i
    some (2, buf)
  else viaScratch tmp val.toNat buf i

/-- The result of an operation on `int64_t`. -/
def int64 (n : ℤ) : Option ℤ := if -2 ^ 63 ≤ n ∧ n < 2 ^ 63 then some n else none

/-- `clog_i32toa`. -/
def clogI32toa (tmp : Chars 12) (val : Int32) (buf : Block) (i : ℕ) : Option (ℕ × Block) :=
  if val.toInt < 0 then do
    let buf ← store buf i [45]
    let neg ← int64 (-val.toInt)
    let r ← clogU32toa tmp (UInt32.ofInt neg) buf (i + 1)
    some (1 + r.1, r.2)
  else clogU32toa tmp (UInt32.ofInt val.toInt) buf i

/-- `clog_u64toa`; `tmp32` is the scratch array of `clog_u32toa`. -/
def clogU64toa (tmp32 : Chars 12) (tmp : Chars 24) (val : UInt64) (buf : Block) (i : ℕ) :
    Option (ℕ × Block) :=
  if val.toNat ≤ 0xFFFFFFFF then clogU32toa tmp32 val.toUInt32 buf i
  else viaScratch tmp val.toNat buf i

/-- `clog_i64toa`. -/
def clogI64toa (tmp32 : Chars 12) (tmp : Chars 24) (val : Int64) (buf : Block) (i : ℕ) :
    Option (ℕ × Block) :=
  if val.toInt < 0 then do
    let buf ← store buf i [45]
    let succ ← int64 (val.toInt + 1)
    let neg ← int64 (-succ)
    let r ← clogU64toa tmp32 tmp (UInt64.ofInt neg + 1) buf (i + 1)
    some (1 + r.1, r.2)
  else clogU64toa tmp32 tmp (UInt64.ofInt val.toInt) buf i

/-- `clog_format_iso_datetime`. -/
def clogFormatIsoDatetime (tm : Tm) (buf : Block) (i : ℕ) : Option Block := do
  let buf ← clogU32toaPad4 (UInt32.ofInt (tm.tmYear + 1900)) buf i
  let buf ← store buf (i + 4) [45]
  let buf ← clogU32toaPad2 (UInt32.ofInt (tm.tmMon + 1)) buf (i + 5)
  let buf ← store buf (i + 7) [45]
  let buf ← clogU32toaPad2 (UInt32.ofInt tm.tmMday) buf (i + 8)
  let buf ← store buf (i + 10) [32]
  let buf ← clogU32toaPad2 (UInt32.ofInt tm.tmHour) buf (i + 11)
  let buf ← store buf (i + 13) [58]
  let buf ← clogU32toaPad2 (UInt32.ofInt tm.tmMin) buf (i + 14)
  let buf ← store buf (i + 16) [58]
  let buf ← clogU32toaPad2 (UInt32.ofInt tm.tmSec) buf (i + 17)
  store buf (i + 19) [0]

/-! ### The table -/

/-- Entry `k` of the table is the two digits of `k`. -/
theorem gClogDigitsLut_pair {k : ℕ} (h : k < 100) :
    gClogDigitsLut[k * 2]? = some (48 + k / 10).toUInt8 ∧
      gClogDigitsLut[k * 2 + 1]? = some (48 + k % 10).toUInt8 := by
  have hall : ∀ k : Fin 100, gClogDigitsLut[k.val * 2]? = some (48 + k.val / 10).toUInt8 ∧
      gClogDigitsLut[k.val * 2 + 1]? = some (48 + k.val % 10).toUInt8 := by
    decide +kernel
  exact hall ⟨k, h⟩

theorem putPair_eq {k : ℕ} (h : k < 100) (buf : Block) (i : ℕ) :
    putPair (k * 2) buf i = store buf i (digitPair k) := by
  obtain ⟨hfirst, hsecond⟩ := gClogDigitsLut_pair h
  rw [putPair, hfirst, hsecond]
  exact store_bind_store buf rfl _

/-! ### The scratch array -/

/-- The text `t` is stored, and its length is returned. -/
def emit (t : Text) (buf : Block) (i : ℕ) : Option (ℕ × Block) :=
  (store buf i t).map (t.length, ·)

theorem emit_eq (t : Text) (buf : Block) (i : ℕ) :
    emit t buf i = (store buf i t).bind fun buf => some (t.length, buf) :=
  Option.map_eq_bind

theorem pairsLoop_of_lt {val : ℕ} (h : val < 100) (p : ℕ) (tmp : Block) :
    pairsLoop p val tmp = some (p, val, tmp) := by
  have hneg : ¬ 100 ≤ val := by omega
  unfold pairsLoop
  split <;> exact if_neg hneg

theorem pairsLoop_of_le {val : ℕ} (h : 100 ≤ val) (p : ℕ) (tmp : Block) :
    pairsLoop (p + 2) val tmp =
      (store tmp p (digitPair (val % 100))).bind (pairsLoop p (val / 100)) := by
  rw [pairsLoop, if_pos h, putPair_eq (Nat.mod_lt _ (by norm_num))]
  rfl

/-- **The loop on a scratch array with room for the digits.**  The places `x` before the pointer are
free and the digits `d` behind it are written; at the end less than 100 is left, and the digits
that are missing still have room. -/
theorem pairsLoop_eq {val : ℕ} {x : Block} (h : (decimal val).length ≤ x.length) (d : Block) :
    ∃ y v e, pairsLoop x.length val (x ++ d) = some (y.length, v, y ++ e) ∧ v < 100 ∧
      (decimal v).length ≤ y.length ∧ decimal v ++ e = decimal val ++ d := by
  induction val using Nat.strong_induction_on generalizing x d with
  | _ val ih =>
    by_cases hlt : val < 100
    · exact ⟨x, val, d, pairsLoop_of_lt hlt _ _, hlt, h, rfl⟩
    · have hle : 100 ≤ val := by omega
      rw [decimal_of_hundred_le hle, List.length_append] at h
      -- the two places before the pointer take the last two digits
      obtain ⟨x, w, rfl, hw⟩ := exists_eq_append ((Nat.le_add_left _ _).trans h)
      have htwo : w.length = 2 := hw.symm
      rw [List.length_append, htwo] at h ⊢
      rw [pairsLoop_of_le hle, List.append_assoc, store_append hw, Option.bind_some,
        decimal_of_hundred_le hle, List.append_assoc]
      exact ih (val / 100) (by omega) (by omega) _

/-- The digits that are left go before the pointer. -/
theorem putFirst_eq {v : ℕ} (hv : v < 100) {y : Block} (h : (decimal v).length ≤ y.length)
    (e : Block) :
    ∃ z, putFirst y.length v (y ++ e) = some (z.length, z ++ (decimal v ++ e)) := by
  obtain ⟨z, w, rfl, hw⟩ := exists_eq_append h
  refine ⟨z, ?_⟩
  have hstore : store (z ++ w ++ e) z.length (decimal v) = some (z ++ (decimal v ++ e)) := by
    rw [List.append_assoc, store_append hw]
  rw [putFirst, List.length_append, ← hw]
  by_cases hten : v < 10
  · rw [decimal_of_lt hten] at hstore ⊢
    rw [if_pos hten, if_neg (by simp), List.length_singleton, Nat.add_sub_cancel, hstore]
    rfl
  · rw [decimal_of_pair (by omega) hv] at hstore ⊢
    rw [if_neg hten, if_neg (by simp [digitPair]), putPair_eq hv]
    have hplace : z.length + (digitPair v).length - 2 = z.length := rfl
    rw [hplace, hstore]
    rfl

/-- **By way of the scratch array the digits reach the caller's array,** if the scratch array has
room for them. -/
theorem viaScratch_eq {tmp : Block} {val : ℕ} (h : (decimal val).length ≤ tmp.length) (buf : Block)
    (i : ℕ) : viaScratch tmp val buf i = emit (decimal val) buf i := by
  obtain ⟨y, v, e, hloop, hv, hroom, hdigits⟩ := pairsLoop_eq h []
  obtain ⟨z, hfirst⟩ := putFirst_eq hv hroom e
  rw [List.append_nil] at hloop hdigits
  have hlen : (z ++ decimal val).length - z.length = (decimal val).length := by
    rw [List.length_append, Nat.add_sub_cancel_left]
  rw [hdigits] at hfirst
  simp only [viaScratch, hloop, hfirst, Option.bind_eq_bind, Option.bind_some, hlen,
    List.drop_left, List.take_length, emit_eq]

/-! ### The conversions -/

/-- A number of 32 bits has at most 10 digits. -/
theorem length_decimal_le_ten {n : ℕ} (h : n < 2 ^ 32) : (decimal n).length ≤ 10 :=
  length_decimal_le_of_lt (by norm_num) (h.trans (by norm_num))

/-- A number of 64 bits has at most 20 digits. -/
theorem length_decimal_le_twenty {n : ℕ} (h : n < 2 ^ 64) : (decimal n).length ≤ 20 :=
  length_decimal_le_of_lt (by norm_num) (h.trans (by norm_num))

theorem length_signedDecimal_le_eleven (val : Int32) : (signedDecimal val.toInt).length ≤ 11 := by
  have hlo := val.le_toInt
  have hhi := val.toInt_lt
  exact length_signedDecimal_le (by norm_num) (by omega)

theorem length_signedDecimal_le_twenty (val : Int64) : (signedDecimal val.toInt).length ≤ 20 := by
  have hlo := val.le_toInt
  have hhi := val.toInt_lt
  exact length_signedDecimal_le (by norm_num) (by omega)

section Conversions

variable (small : Chars 12) (large : Chars 24) (buf : Block) (i : ℕ)

/-- The 32-bit writer emits the decimal text. -/
theorem clogU32toa_eq (val : UInt32) :
    clogU32toa small val buf i = emit (decimal val.toNat) buf i := by
  unfold clogU32toa
  split_ifs with hten hhundred
  · rw [decimal_of_lt hten, emit_eq]
    rfl
  · rw [decimal_of_pair (by omega) hhundred, emit_eq, putPair_eq hhundred]
    rfl
  · refine viaScratch_eq ?_ buf i
    rw [small.property]
    exact (length_decimal_le_ten val.toNat_lt).trans (by norm_num)

/-- The 64-bit writer emits the decimal text. -/
theorem clogU64toa_eq (val : UInt64) :
    clogU64toa small large val buf i = emit (decimal val.toNat) buf i := by
  unfold clogU64toa
  split_ifs with hsmall
  · rw [clogU32toa_eq, UInt64.toNat_toUInt32, Nat.mod_eq_of_lt (by omega)]
  · refine viaScratch_eq ?_ buf i
    rw [large.property]
    exact (length_decimal_le_twenty val.toNat_lt).trans (by norm_num)

/-- The minus sign, and the digits behind it. -/
theorem emit_minus (t : Text) :
    (do let buf ← store buf i [45]
        let r ← emit t buf (i + 1)
        some (1 + r.1, r.2)) = emit (45 :: t) buf i := by
  have hone : ((store buf i [45]).bind fun buf => store buf (i + 1) t) = store buf i (45 :: t) :=
    store_bind_store buf rfl t
  simp only [emit_eq, ← hone, List.length_cons, Nat.add_comm t.length, Option.bind_eq_bind,
    Option.bind_assoc, Option.bind_some]

/-- The conversion to `uint32_t`. -/
theorem toNat_ofInt (n : ℤ) : (UInt32.ofInt n).toNat = (n % 2 ^ 32).toNat := by
  refine UInt32.toNat_ofNat_of_lt' ?_
  rw [UInt32.size]
  omega

theorem int64_of_mem {n : ℤ} (hlo : -2 ^ 63 ≤ n) (hhi : n < 2 ^ 63) : int64 n = some n :=
  if_pos ⟨hlo, hhi⟩

theorem toNat_ofInt_uInt32 {n : ℤ} (hlo : 0 ≤ n) (hhi : n < 2 ^ 32) :
    (UInt32.ofInt n).toNat = n.toNat := by
  rw [toNat_ofInt, Int.emod_eq_of_lt hlo hhi]

theorem toNat_ofInt_uInt64 {n : ℤ} (hlo : 0 ≤ n) (hhi : n < 2 ^ 64) :
    (UInt64.ofInt n).toNat = n.toNat := by
  rw [UInt64.ofInt, Int.emod_eq_of_lt hlo hhi, UInt64.toNat_ofNat_of_lt']
  rw [UInt64.size]
  omega

/-- The negation of an `int32_t` is exact on 64 bits, and so is its conversion. -/
theorem clogI32toa_eq (val : Int32) :
    clogI32toa small val buf i = emit (signedDecimal val.toInt) buf i := by
  have hlo := val.le_toInt
  have hhi := val.toInt_lt
  unfold clogI32toa
  split_ifs with hneg
  · have habs : (UInt32.ofInt (-val.toInt)).toNat = val.toInt.natAbs := by
      rw [toNat_ofInt_uInt32 (by omega) (by omega)]
      omega
    rw [signedDecimal, if_pos hneg, ← emit_minus, int64_of_mem (by omega) (by omega)]
    simp only [clogU32toa_eq, habs, Option.bind_eq_bind, Option.bind_some]
  · rw [clogU32toa_eq, signedDecimal, if_neg hneg, toNat_ofInt_uInt32 (by omega) (by omega)]

example : clogI32toa ⟨List.replicate 12 0, rfl⟩ (-2147483648) (List.replicate 16 0) 2 =
    some (11, [0, 0] ++ str "-2147483648" ++ [0, 0, 0]) := by
  decide +kernel

/-- Neither `val + 1` nor its negation overflows, and the last addition is unsigned. -/
theorem clogI64toa_eq (val : Int64) :
    clogI64toa small large val buf i = emit (signedDecimal val.toInt) buf i := by
  have hlo := val.le_toInt
  have hhi := val.toInt_lt
  unfold clogI64toa
  split_ifs with hneg
  · have habs : (UInt64.ofInt (-(val.toInt + 1)) + 1).toNat = val.toInt.natAbs := by
      rw [UInt64.toNat_add, toNat_ofInt_uInt64 (by omega) (by omega), UInt64.toNat_one]
      omega
    rw [signedDecimal, if_pos hneg, ← emit_minus, int64_of_mem (by omega) (by omega)]
    simp only [Option.bind_eq_bind, Option.bind_some]
    rw [int64_of_mem (by omega) (by omega)]
    simp only [clogU64toa_eq, habs, Option.bind_some]
  · rw [clogU64toa_eq, signedDecimal, if_neg hneg, toNat_ofInt_uInt64 (by omega) (by omega)]

/-! ### Numbers of a fixed width -/

theorem clogU32toaPad2_eq (val : UInt32) :
    clogU32toaPad2 val buf i = store buf i (Formatter.clogU32toaPad2 val.toNat) :=
  putPair_eq (Nat.mod_lt _ (by norm_num)) buf i

theorem clogU32toaPad4_eq {val : UInt32} (h : val.toNat < 10000) :
    clogU32toaPad4 val buf i = store buf i (Formatter.clogU32toaPad4 val.toNat) := by
  simp only [clogU32toaPad4, putPair_eq (Nat.div_lt_of_lt_mul h : val.toNat / 100 < 100),
    putPair_eq (Nat.mod_lt val.toNat (by norm_num : 0 < 100)), Option.bind_eq_bind]
  exact store_bind_store buf rfl _

theorem clogU32toaPad6_eq {val : UInt32} (h : val.toNat < 1000000) :
    clogU32toaPad6 val buf i = store buf i ((decimal val.toNat).leftpad 6 48) := by
  have hfirst : val.toNat / 100 / 100 < 100 := by omega
  have hmod (n : ℕ) : n % 100 < 100 := Nat.mod_lt n (by norm_num)
  simp only [clogU32toaPad6, putPair_eq hfirst, putPair_eq (hmod _), Option.bind_eq_bind]
  rw [← Formatter.clogU32toaPad6_eq h]
  exact (store_bind_store_bind buf rfl _ _).trans (store_bind_store buf rfl _)

/-- **`clog_format_iso_datetime` writes the text of the time and its terminator,** for the years of
four digits. -/
theorem clogFormatIsoDatetime_eq {tm : Tm} (h : tm.FourDigits) :
    clogFormatIsoDatetime tm buf i = store buf i (Formatter.clogFormatIsoDatetime tm ++ [0]) := by
  obtain ⟨hlo, hhi⟩ := h
  have hyear : (UInt32.ofInt (tm.tmYear + 1900)).toNat < 10000 := by
    rw [toNat_ofInt_uInt32 (by omega) (by omega)]
    omega
  simp only [clogFormatIsoDatetime, clogU32toaPad4_eq _ _ hyear, clogU32toaPad2_eq, toNat_ofInt,
    Option.bind_eq_bind]
  -- the twelve writes follow each other, so they are one
  iterate 10 refine Eq.trans (store_bind_store_bind buf rfl _ _) ?_
  exact store_bind_store buf rfl _

end Conversions

/-! ### What the conversions write -/

/-- **A call renders an integer:** the integer has one canonical text, of at most 20 bytes, and in
any array with room for it the call stores this text at its place, changes nothing else and returns
the length. -/
def Renders (n : ℤ) (call : Block → ℕ → Option (ℕ × Block)) : Prop :=
  ∃ t, (∀ u, Canonical n u ↔ u = t) ∧ t.length ≤ 20 ∧
    ∀ buf i, i + t.length ≤ buf.length →
      call buf i = some (t.length, buf.take i ++ t ++ buf.drop (i + t.length))

/-- **A call renders a number in `w` digits:** the number has one text of `w` digits, and in any
array with room for it the call stores this text at its place and changes nothing else. -/
def RendersPadded (w n : ℕ) (call : Block → ℕ → Option Block) : Prop :=
  ∃ t, (∀ u, IsPadded w n u ↔ u = t) ∧
    ∀ buf i, i + w ≤ buf.length → call buf i = some (buf.take i ++ t ++ buf.drop (i + w))

theorem renders_of_emit {n : ℤ} {call : Block → ℕ → Option (ℕ × Block)}
    (hcall : ∀ buf i, call buf i = emit (signedDecimal n) buf i)
    (hlen : (signedDecimal n).length ≤ 20) : Renders n call := by
  refine ⟨signedDecimal n, fun u => canonical_iff, hlen, fun buf i hroom => ?_⟩
  rw [hcall, emit, store, if_pos hroom]
  rfl

theorem renders_natCast {n : ℕ} {call : Block → ℕ → Option (ℕ × Block)} (hn : n < 2 ^ 64)
    (hcall : ∀ buf i, call buf i = emit (decimal n) buf i) : Renders n call := by
  rw [← signedDecimal_natCast] at hcall
  refine renders_of_emit hcall ?_
  rw [signedDecimal_natCast]
  exact length_decimal_le_twenty hn

theorem rendersPadded_of_store {w n : ℕ} {call : Block → ℕ → Option Block} (hw : 0 < w)
    (hn : n < 10 ^ w) (hcall : ∀ buf i, call buf i = store buf i ((decimal n).leftpad w 48)) :
    RendersPadded w n call := by
  have hlen : ((decimal n).leftpad w 48).length = w := ((isPadded_iff hw hn).2 rfl).length
  refine ⟨(decimal n).leftpad w 48, fun u => isPadded_iff hw hn, fun buf i hroom => ?_⟩
  rw [hcall, store, hlen, if_pos hroom]

/-- **Integer rendering.**  Whatever the scratch arrays of 12 and of 24 bytes hold, the four
conversions render every value of their type, and `clog_u32toa_pad6` writes the six digits of every
value below a million. -/
theorem toa_renders (small : Chars 12) (large : Chars 24) :
    (∀ val : UInt32, Renders val.toNat (clogU32toa small val)) ∧
    (∀ val : Int32, Renders val.toInt (clogI32toa small val)) ∧
    (∀ val : UInt64, Renders val.toNat (clogU64toa small large val)) ∧
    (∀ val : Int64, Renders val.toInt (clogI64toa small large val)) ∧
    ∀ val : UInt32, val.toNat < 1000000 → RendersPadded 6 val.toNat (clogU32toaPad6 val) := by
  refine ⟨fun val => ?_, fun val => ?_, fun val => ?_, fun val => ?_, fun val h => ?_⟩
  · exact renders_natCast (val.toNat_lt.trans (by norm_num)) fun buf i =>
      clogU32toa_eq small buf i val
  · exact renders_of_emit (fun buf i => clogI32toa_eq small buf i val)
      ((length_signedDecimal_le_eleven val).trans (by norm_num))
  · exact renders_natCast val.toNat_lt fun buf i => clogU64toa_eq small large buf i val
  · exact renders_of_emit (fun buf i => clogI64toa_eq small large buf i val)
      (length_signedDecimal_le_twenty val)
  · exact rendersPadded_of_store (by norm_num) h fun buf i => clogU32toaPad6_eq buf i h

/-- The least values of both widths, whose negation overflows. -/
theorem toa_renders_minimum :
    Renders (-2147483648) (clogI32toa ⟨List.replicate 12 0, rfl⟩ (-2147483648)) ∧
    Renders (-9223372036854775808)
      (clogI64toa ⟨List.replicate 12 0, rfl⟩ ⟨List.replicate 24 0, rfl⟩ (-9223372036854775808)) ∧
    RendersPadded 6 123 (clogU32toaPad6 123) := by
  obtain ⟨-, hi32, -, hi64, hpad⟩ :=
    toa_renders ⟨List.replicate 12 0, rfl⟩ ⟨List.replicate 24 0, rfl⟩
  exact ⟨hi32 (-2147483648), hi64 (-9223372036854775808), hpad 123 (by decide)⟩

/-! ### The callers -/

/-- The first `len` bytes of an array, which the caller passes on. -/
def written (r : ℕ × Block) : Text := r.2.take r.1

theorem written_emit {t : Text} {tmp : Block} (h : t.length ≤ tmp.length) :
    (emit t tmp 0).map written = some t := by
  rw [emit, store, Nat.zero_add, if_pos h]
  simp [written]

/-- `char tmp[...]`, a conversion into it, and `append_buf_str` of what it wrote. -/
def appendNumber (call : Block → ℕ → Option (ℕ × Block)) (tmp : Block) (o : Out) :
    Option (ℤ × Out) := do
  let r ← call tmp 0
  some (appendBufStr (written r) o)

theorem appendNumber_of_written {call : Block → ℕ → Option (ℕ × Block)} {tmp : Block} {t : Text}
    (h : (call tmp 0).map written = some t) (o : Out) :
    appendNumber call tmp o = some (appendBufStr t o) := by
  obtain ⟨r, hr, rfl⟩ := Option.map_eq_some_iff.1 h
  rw [appendNumber, hr]
  rfl

section Callers

variable (small : Chars 12) (large : Chars 24) (tmp16 : Chars 16) (tmp32 : Chars 32)

/-- `append_buf_u32`. -/
def appendBufU32 (val : UInt32) (o : Out) : Option (ℤ × Out) :=
  appendNumber (clogU32toa small val) tmp16 o

/-- `append_buf_i32`. -/
def appendBufI32 (val : Int32) (o : Out) : Option (ℤ × Out) :=
  appendNumber (clogI32toa small val) tmp16 o

/-- `append_buf_i64`. -/
def appendBufI64 (val : Int64) (o : Out) : Option (ℤ × Out) :=
  appendNumber (clogI64toa small large val) tmp32 o

/-- `append_buf_u64`. -/
def appendBufU64 (val : UInt64) (o : Out) : Option (ℤ × Out) :=
  appendNumber (clogU64toa small large val) tmp32 o

/-- `append_buf_u32_pad6`. -/
def appendBufU32Pad6 (tmp : Chars 8) (val : UInt32) (o : Out) : Option (ℤ × Out) :=
  appendNumber (fun buf i => (clogU32toaPad6 val buf i).map (6, ·)) tmp o

/-- **What a caller with an array of 16 or of 32 bytes gets** is the text of the text-level
conversion: so the tokens of a line are these texts. -/
theorem written_toa :
    (∀ val : UInt32, (clogU32toa small val tmp16 0).map written =
      some (Formatter.clogU32toa val.toNat)) ∧
    (∀ val : Int32, (clogI32toa small val tmp16 0).map written =
      some (Formatter.clogI32toa val.toInt)) ∧
    (∀ val : UInt64, (clogU64toa small large val tmp32 0).map written =
      some (Formatter.clogU64toa val.toNat)) ∧
    (∀ val : Int64, (clogI64toa small large val tmp32 0).map written =
      some (Formatter.clogI64toa val.toInt)) := by
  refine ⟨fun val => ?_, fun val => ?_, fun val => ?_, fun val => ?_⟩
  · rw [clogU32toa_eq, Formatter.clogU32toa_eq, written_emit]
    rw [tmp16.property]
    exact (length_decimal_le_ten val.toNat_lt).trans (by norm_num)
  · rw [clogI32toa_eq, Formatter.clogI32toa_eq, written_emit]
    rw [tmp16.property]
    exact (length_signedDecimal_le_eleven val).trans (by norm_num)
  · rw [clogU64toa_eq, Formatter.clogU64toa_eq, written_emit]
    rw [tmp32.property]
    exact (length_decimal_le_twenty val.toNat_lt).trans (by norm_num)
  · rw [clogI64toa_eq, Formatter.clogI64toa_eq, written_emit]
    rw [tmp32.property]
    exact (length_signedDecimal_le_twenty val).trans (by norm_num)

/-- **The append helpers on arrays are those on texts.** -/
theorem appendBuf_refines (tmp8 : Chars 8) (o : Out) :
    (∀ val, appendBufU32 small tmp16 val o = some (Formatter.appendBufU32 val.toNat o)) ∧
    (∀ val, appendBufI32 small tmp16 val o = some (Formatter.appendBufI32 val.toInt o)) ∧
    (∀ val, appendBufI64 small large tmp32 val o = some (Formatter.appendBufI64 val.toInt o)) ∧
    (∀ val, appendBufU64 small large tmp32 val o = some (Formatter.appendBufU64 val.toNat o)) ∧
    ∀ val : UInt32, val.toNat < 1000000 →
      appendBufU32Pad6 tmp8 val o = some (Formatter.appendBufU32Pad6 val.toNat o) := by
  obtain ⟨hu32, hi32, hu64, hi64⟩ := written_toa small large tmp16 tmp32
  refine ⟨fun val => ?_, fun val => ?_, fun val => ?_, fun val => ?_, fun val h => ?_⟩
  · exact appendNumber_of_written (hu32 val) o
  · exact appendNumber_of_written (hi32 val) o
  · exact appendNumber_of_written (hi64 val) o
  · exact appendNumber_of_written (hu64 val) o
  · refine appendNumber_of_written ?_ o
    have hsix : (Formatter.clogU32toaPad6 val.toNat).length = 6 := rfl
    rw [clogU32toaPad6_eq _ _ h, ← Formatter.clogU32toaPad6_eq h]
    exact written_emit (by rw [hsix, tmp8.property]; norm_num)

end Callers

/-- **The time cache holds what `clog_format_iso_datetime` leaves in its array,** for the years of
four digits. -/
theorem refresh_iso {libc : Libc} {sec : ℕ} (h : (libc.localtime sec).FourDigits)
    (leaves : Buf64 → Buf64) (c : TimeCache) :
    clogFormatIsoDatetime (libc.localtime sec) c.formatted.val 0 =
      some (c.refresh libc leaves sec isoFormat).formatted.val := by
  rw [clogFormatIsoDatetime_eq _ _ h, TimeCache.refresh, if_pos rfl, isoDatetime, if_pos h, store,
    if_pos]
  · simp [Buf64.write]
  · rw [c.formatted.property, List.length_append, length_clogFormatIsoDatetime]
    norm_num

end FastAscii
end Clogx
