/-
# Appending to a line

The append helpers of `core/formatter.c` and the number conversions of
`core/fast_ascii.h`.

The helpers share the two variables `out` and `remaining`: the place in the
buffer and the bytes from there to its end.  `Out` is the buffer split at that
place, so `remaining` is the length of what lies behind it, and every helper ends
by storing the terminator there.
-/

import Clogx.CLib.Buffer
import Clogx.CLib.Numeral
import Clogx.Trace.Spans

namespace Clogx
namespace Formatter

open CLib

/-- The buffer: what was written, and the bytes from `*out` on. -/
structure Out where
  done : Text
  rest : Text

namespace Out

/-- `*remaining`. -/
def remaining (o : Out) : ℕ := o.rest.length

/-- The bytes `bs` are stored at `*out`, which moves behind them. -/
def put (o : Out) (bs : Text) : Out := ⟨o.done ++ bs, o.rest.drop bs.length⟩

/-- `**out = '\0'`. -/
def terminate (o : Out) : Out :=
  ⟨o.done, match o.rest with
    | [] => []
    | _ :: rest => 0 :: rest⟩

@[simp] theorem done_terminate (o : Out) : o.terminate.done = o.done := rfl

@[simp] theorem length_terminate (o : Out) : o.terminate.rest.length = o.rest.length := by
  obtain ⟨done, rest⟩ := o
  cases rest <;> rfl

end Out

/-! ### Numbers -/

/-- The two characters at place `2 * k` of `g_clog_digits_lut`. -/
def digitPair (k : ℕ) : Text := [(48 + k / 10).toUInt8, (48 + k % 10).toUInt8]

/-- The loop that fills the scratch array from its end, two digits at a time. -/
def toaLoop : ℕ → ℕ → Text → Text
  | 0, _, p => p
  | fuel + 1, val, p =>
    if 100 ≤ val then toaLoop fuel (val / 100) (digitPair (val % 100) ++ p)
    else if val < 10 then (48 + val).toUInt8 :: p
    else digitPair val ++ p

/-- `clog_u32toa`. -/
def clogU32toa (val : ℕ) : Text :=
  if val < 10 then [(48 + val).toUInt8]
  else if val < 100 then digitPair val
  else toaLoop (val + 1) val []

/-- `clog_i32toa`. -/
def clogI32toa (val : ℤ) : Text :=
  if val < 0 then 45 :: clogU32toa val.natAbs else clogU32toa val.toNat

/-- `clog_u64toa`. -/
def clogU64toa (val : ℕ) : Text :=
  if val < 2 ^ 32 then clogU32toa val else toaLoop (val + 1) val []

/-- `clog_i64toa`. -/
def clogI64toa (val : ℤ) : Text :=
  if val < 0 then 45 :: clogU64toa val.natAbs else clogU64toa val.toNat

/-- `clog_u32toa_pad6`. -/
def clogU32toaPad6 (val : ℕ) : Text :=
  digitPair (val / 100 / 100) ++ digitPair (val / 100 % 100) ++ digitPair (val % 100)

/-- The last two digits of a number. -/
theorem decimal_of_hundred_le {n : ℕ} (h : 100 ≤ n) :
    decimal n = decimal (n / 100) ++ digitPair (n % 100) := by
  rw [decimal_of_le (by omega), decimal_of_le (by omega : 10 ≤ n / 10), Nat.div_div_eq_div_mul,
    show n / 10 % 10 = n % 100 / 10 by omega, show n % 10 = n % 100 % 10 by omega]
  simp [digitPair]

theorem decimal_of_pair {n : ℕ} (h : 10 ≤ n) (h' : n < 100) : decimal n = digitPair n := by
  rw [decimal_of_le h, decimal_of_lt (by omega)]
  rfl

theorem toaLoop_eq {fuel val : ℕ} (h : val < fuel) (p : Text) :
    toaLoop fuel val p = decimal val ++ p := by
  induction fuel generalizing val p with
  | zero => omega
  | succ fuel ih =>
    rw [toaLoop]
    split_ifs with hge hlt
    · rw [ih (by omega), decimal_of_hundred_le hge, List.append_assoc]
    · rw [decimal_of_lt hlt]
      rfl
    · rw [decimal_of_pair (by omega) (by omega)]

/-- **`clog_u32toa` writes the decimal representation.** -/
theorem clogU32toa_eq (val : ℕ) : clogU32toa val = decimal val := by
  unfold clogU32toa
  split_ifs with hten hhundred
  · exact (decimal_of_lt hten).symm
  · exact (decimal_of_pair (by omega) hhundred).symm
  · rw [toaLoop_eq (Nat.lt_succ_self val), List.append_nil]

theorem clogU64toa_eq (val : ℕ) : clogU64toa val = decimal val := by
  unfold clogU64toa
  split_ifs with h
  · exact clogU32toa_eq val
  · rw [toaLoop_eq (Nat.lt_succ_self val), List.append_nil]

theorem clogI32toa_eq (z : ℤ) : clogI32toa z = signedDecimal z := by
  rw [clogI32toa, signedDecimal, clogU32toa_eq, clogU32toa_eq]

theorem clogI64toa_eq (z : ℤ) : clogI64toa z = signedDecimal z := by
  rw [clogI64toa, signedDecimal, clogU64toa_eq, clogU64toa_eq]

/-- **`clog_u32toa_pad6` writes six digits.** -/
theorem clogU32toaPad6_eq {val : ℕ} (h : val < 1000000) :
    clogU32toaPad6 val = (decimal val).leftpad 6 48 := by
  have hlast : (decimal (val / 10 / 10 / 10 / 10 / 10)).leftpad 1 48 =
      [(48 + val / 10 / 10 / 10 / 10 / 10).toUInt8] := by
    rw [decimal_of_lt (by omega)]
    rfl
  rw [leftpad_decimal (by norm_num), leftpad_decimal (by norm_num), leftpad_decimal (by norm_num),
    leftpad_decimal (by norm_num), leftpad_decimal (by norm_num), hlast, clogU32toaPad6, digitPair,
    digitPair, digitPair,
    show val / 100 / 100 / 10 = val / 10 / 10 / 10 / 10 / 10 by omega,
    show val / 100 / 100 % 10 = val / 10 / 10 / 10 / 10 % 10 by omega,
    show val / 100 % 100 / 10 = val / 10 / 10 / 10 % 10 by omega,
    show val / 100 % 100 % 10 = val / 10 / 10 % 10 by omega,
    show val % 100 / 10 = val / 10 % 10 by omega, show val % 100 % 10 = val % 10 by omega]
  rfl

/-! ### The append helpers -/

/-- `append_buf_str`. -/
def appendBufStr (s : Text) : StateM Out ℤ := fun o =>
  if o.remaining ≤ s.length then (-1, o) else (0, (o.put s).terminate)

def appendBufU32 (val : ℕ) : StateM Out ℤ := appendBufStr (clogU32toa val)

def appendBufI32 (val : ℤ) : StateM Out ℤ := appendBufStr (clogI32toa val)

def appendBufI64 (val : ℤ) : StateM Out ℤ := appendBufStr (clogI64toa val)

def appendBufU64 (val : ℕ) : StateM Out ℤ := appendBufStr (clogU64toa val)

def appendBufU32Pad6 (val : ℕ) : StateM Out ℤ := appendBufStr (clogU32toaPad6 val)

/-- What `append_json_escaped_string` writes for a character. -/
def jsonEscape (c : UInt8) : Text :=
  if c = 34 then [92, 34]
  else if c = 92 then [92, 92]
  else if c = 8 then [92, 98]
  else if c = 12 then [92, 102]
  else if c = 10 then [92, 110]
  else if c = 13 then [92, 114]
  else if c = 9 then [92, 116]
  else if c < 32 then [92, 117, 48, 48] ++ Trace.hexByte c
  else [c]

/-- The loop of `append_json_escaped_string`; the first component is what `str` points to when
the loop ends.  A character is read before the test for its room, so that a `break` is behind it. -/
def escapeLoop : Text → Out → Text × Out
  | [], o => ([], o)
  | c :: s, o =>
    if o.remaining ≤ 1 then (c :: s, o)
    else if o.remaining ≤ (jsonEscape c).length then (s, o)
    else escapeLoop s (o.put (jsonEscape c))

/-- `append_json_escaped_string`. -/
def appendJsonEscapedString (s : Text) : StateM Out ℤ := fun o =>
  let r := escapeLoop s o
  (if r.1 = [] then 0 else -1, r.2.terminate)

/-- `json_close_object`. -/
def jsonCloseObject (suffix : Text) : StateM Out ℤ := fun o =>
  if o.remaining < suffix.length + 1 then (-1, o)
  else
    let o := (o.put suffix).terminate
    (toInt o.done.length, o)

/-- `if (call != 0) { return exit; }`, and the rest of the function. -/
def check (call exit rest : StateM Out ℤ) : StateM Out ℤ := fun o =>
  let r := call o
  if r.1 ≠ 0 then exit r.2 else rest r.2

/-- `return -1`. -/
def fail : StateM Out ℤ := fun o => (-1, o)

/-- `return (int)(out - buf)`. -/
def finish : StateM Out ℤ := fun o => (toInt o.done.length, o)

end Formatter
end Clogx
