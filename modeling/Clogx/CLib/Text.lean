/-
# Text and numbers of the C library

A C string is the list of its bytes up to the terminator.  `cut` is `snprintf`
with `"%s"` into a buffer, `strtol` and `strtoul` read a decimal number that
must be the whole text (the check of `end` and of `ERANGE` that goes with every
careful call), `denoted` is the number itself, without bounds, `decimal` is
`"%d"` of a number that is not negative, `toInt` is the conversion to a 32-bit
`int`, and `bsearch` is the binary search of a sorted table.
-/

import Mathlib.Data.List.TakeWhile
import Mathlib.Data.Nat.Digits.Lemmas
import Mathlib.Data.UInt
import Mathlib.Tactic

namespace Clogx
namespace CLib

/-- A C string, without its terminator. -/
abbrev Text := List UInt8

/-- What holds of every byte of a text is decided along the text, not over all bytes. -/
instance decidableForallMem (p : UInt8 → Prop) [DecidablePred p] (t : Text) :
    Decidable (∀ c ∈ t, p c) :=
  List.decidableBAll p t

/-- The bytes of an ASCII literal. -/
def str (s : String) : Text := s.toList.map fun c => c.toNat.toUInt8

/-- `snprintf(buf, size, "%s", s)`: what the buffer holds afterwards. -/
def cut (size : ℕ) (s : Text) : Text := s.take (size - 1)

/-- What fits is not cut. -/
theorem cut_of_length_lt {size : ℕ} {s : Text} (h : s.length < size) : cut size s = s :=
  List.take_of_length_le (by omega)

/-- What is cut fits. -/
theorem length_cut_lt {size : ℕ} (h : 0 < size) (t : Text) : (cut size t).length < size := by
  rw [cut, List.length_take]
  omega

/-- Only what fits stays whole. -/
theorem cut_eq_self_iff {size : ℕ} (hsize : 0 < size) {s : Text} :
    cut size s = s ↔ s.length < size := by
  refine ⟨fun h => ?_, cut_of_length_lt⟩
  have hlen := congrArg List.length h
  rw [cut, List.length_take] at hlen
  omega

/-- A text that was cut to less than the buffer is the text itself. -/
theorem cut_ne_of_ne {size : ℕ} {v s : Text} (hs : s.length + 1 < size) (h : v ≠ s) :
    cut size v ≠ s := by
  rcases Nat.lt_or_ge v.length size with hlt | hge
  · rwa [cut_of_length_lt hlt]
  · intro heq
    have hlen := congrArg List.length heq
    rw [cut, List.length_take] at hlen
    omega

/-- `"%d"` of a number that is not negative. -/
def decimal (n : ℕ) : Text :=
  if n = 0 then [48] else (Nat.digits 10 n).reverse.map fun d => (48 + d).toUInt8

/-- A smaller number is not longer. -/
theorem length_decimal_le {m n : ℕ} (hm : m ≠ 0) (h : m ≤ n) :
    (decimal m).length ≤ (decimal n).length := by
  rw [decimal, decimal, if_neg hm, if_neg (by omega)]
  simpa using Nat.le_length_digits_le 10 m n h

/-- The digits of a number are digits. -/
theorem mem_decimal {n : ℕ} {c : UInt8} (h : c ∈ decimal n) : 48 ≤ c ∧ c ≤ 57 := by
  rw [decimal] at h
  split_ifs at h
  · rw [List.mem_singleton.1 h]
    decide
  · obtain ⟨d, hd, rfl⟩ := List.mem_map.1 h
    have hlt : d < 10 := Nat.digits_lt_base (by norm_num) (List.mem_reverse.1 hd)
    interval_cases d <;> decide

/-- A number below `10 ^ k` has at most `k` digits. -/
theorem length_decimal_le_of_lt {n k : ℕ} (hk : 0 < k) (h : n < 10 ^ k) : (decimal n).length ≤ k := by
  rw [decimal]
  split_ifs
  · exact hk
  · rw [List.length_map, List.length_reverse]
    exact (Nat.digits_length_le_iff (by norm_num) n).2 h

/-- The conversion of a 64-bit value to `int`. -/
def toInt (n : ℤ) : ℤ := Int.bmod n (2 ^ 32)

/-- `isspace`, in the C locale. -/
def isSpace (c : UInt8) : Bool := c == 32 || (9 ≤ c && c ≤ 13)

def isDigit (c : UInt8) : Bool := 48 ≤ c && c ≤ 57

/-- What `strtol` and its relatives read in base 10. -/
structure Num where
  neg : Bool
  digits : Text
  rest : Text

/-- The optional sign. -/
def sign : Text → Bool × Text
  | 45 :: v => (true, v)
  | 43 :: v => (false, v)
  | v => (false, v)

def readNum (v : Text) : Num :=
  let (neg, w) := sign (v.dropWhile isSpace)
  ⟨neg, w.takeWhile isDigit, w.dropWhile isDigit⟩

/-- The value of a string of digits. -/
def magnitude (ds : Text) : ℕ := ds.foldl (fun n d => 10 * n + (d.toNat - 48)) 0

/-- `strtol(v, &end, 10)` where `end != v`, `*end == '\0'` and `errno != ERANGE`. -/
def strtol (v : Text) : Option ℤ :=
  let n := readNum v
  if n.digits = [] ∨ n.rest ≠ [] then none
  else
    let value : ℤ := if n.neg then -magnitude n.digits else magnitude n.digits
    if -2 ^ 63 ≤ value ∧ value < 2 ^ 63 then some value else none

/-- `strtoul` and `strtoull` under the same checks: a minus sign wraps the value. -/
def strtoul (v : Text) : Option ℕ :=
  let n := readNum v
  if n.digits = [] ∨ n.rest ≠ [] then none
  else if magnitude n.digits < 2 ^ 64 then
    some (if n.neg then (2 ^ 64 - magnitude n.digits) % 2 ^ 64 else magnitude n.digits)
  else none

/-- The number that a text denotes in base 10: blanks, a sign and digits, and nothing more. -/
def denoted (v : Text) : Option ℤ :=
  let n := readNum v
  if n.digits = [] ∨ n.rest ≠ [] then none
  else some (if n.neg then -magnitude n.digits else magnitude n.digits)

/-- **`strtol` reads the number,** if it fits. -/
theorem strtol_eq (v : Text) :
    strtol v = (denoted v).bind fun n => if -2 ^ 63 ≤ n ∧ n < 2 ^ 63 then some n else none := by
  rw [strtol, denoted]
  by_cases hbad : (readNum v).digits = [] ∨ (readNum v).rest ≠ []
  · simp only [if_pos hbad, Option.bind_none]
  · simp only [if_neg hbad, Option.bind_some]

/-- The value of a number with a sign, modulo a power of two. -/
theorem toNat_signed_emod (neg : Bool) {m M : ℕ} (h : m < M) :
    ((if neg then -(m : ℤ) else m) % M).toNat = if neg then (M - m) % M else m := by
  cases neg with
  | true =>
    rw [if_pos rfl, if_pos rfl, ← Int.add_emod_right, neg_add_eq_sub, ← Nat.cast_sub h.le]
    exact Int.toNat_natCast _
  | false =>
    simp only [Bool.false_eq_true, if_false]
    rw [Int.emod_eq_of_lt (Int.natCast_nonneg m) (by exact_mod_cast h), Int.toNat_natCast]

theorem signed_lt_iff (neg : Bool) (m M : ℕ) :
    (-(M : ℤ) < (if neg then -(m : ℤ) else m) ∧ (if neg then -(m : ℤ) else m) < M) ↔ m < M := by
  cases neg <;> simp <;> omega

/-- **`strtoul` reads the number modulo `2 ^ 64`,** if its magnitude fits. -/
theorem strtoul_eq (v : Text) :
    strtoul v = (denoted v).bind fun n =>
      if -(2 ^ 64 : ℕ) < n ∧ n < (2 ^ 64 : ℕ) then some (n % (2 ^ 64 : ℕ)).toNat else none := by
  rw [strtoul, denoted]
  by_cases hbad : (readNum v).digits = [] ∨ (readNum v).rest ≠ []
  · simp only [if_pos hbad, Option.bind_none]
  · simp only [if_neg hbad, Option.bind_some, signed_lt_iff]
    by_cases hlt : magnitude (readNum v).digits < 2 ^ 64
    · rw [if_pos hlt, if_pos hlt, toNat_signed_emod _ hlt]
    · rw [if_neg hlt, if_neg hlt]

/-- The digits are the end of the text. -/
theorem sign_suffix (v : Text) : (sign v).2 <:+ v := by
  fun_cases sign v with
  | case1 v => exact List.suffix_cons ..
  | case2 v => exact List.suffix_cons ..
  | case3 v => exact List.suffix_rfl

/-- A text that denotes a number ends in a digit. -/
theorem exists_digit_of_denoted {v : Text} {n : ℤ} (h : denoted v = some n) :
    ∃ u d, v = u ++ [d] ∧ isDigit d = true := by
  rw [denoted] at h
  by_cases hbad : (readNum v).digits = [] ∨ (readNum v).rest ≠ []
  · cases (if_pos hbad).symm.trans h
  obtain ⟨hdigits, hrest⟩ := not_or.1 hbad
  set w := (sign (v.dropWhile isSpace)).2 with hw
  have hall : (readNum v).digits = w := by
    have hsplit := List.takeWhile_append_dropWhile (p := isDigit) (l := w)
    rwa [show w.dropWhile isDigit = [] from not_not.1 hrest, List.append_nil] at hsplit
  have hmem (d : UInt8) (hd : d ∈ w) : isDigit d = true :=
    List.mem_takeWhile_imp (by rwa [← hall] at hd)
  rw [hall] at hdigits
  obtain ⟨u, hu⟩ := (sign_suffix _).trans (List.dropWhile_suffix (l := v) isSpace)
  refine ⟨u ++ w.dropLast, w.getLast hdigits, ?_, hmem _ (List.getLast_mem _)⟩
  rw [List.append_assoc, List.dropLast_append_getLast, hu]

/-- What holds of the 256 bytes holds of every byte. -/
theorem forall_byte {P : UInt8 → Prop} (h : ∀ n : Fin 256, P (UInt8.ofFin n)) (c : UInt8) : P c :=
  h c.toFin

/-! ### Binary search -/

section Bsearch

variable {α β : Type*}

/-- `bsearch` on `xs[l, u)`; `fuel` bounds the number of probes. -/
def bsearchIn (cmp : α → α → Ordering) (key : α) (xs : List (α × β)) : ℕ → ℕ → ℕ → Option β
  | 0, _, _ => none
  | fuel + 1, l, u =>
    if l < u then
      match xs[(l + u) / 2]? with
      | none => none
      | some e =>
        match cmp key e.1 with
        | .lt => bsearchIn cmp key xs fuel l ((l + u) / 2)
        | .gt => bsearchIn cmp key xs fuel ((l + u) / 2 + 1) u
        | .eq => some e.2
    else none

/-- `bsearch` in a table of keys and values. -/
def bsearch (cmp : α → α → Ordering) (key : α) (xs : List (α × β)) : Option β :=
  bsearchIn cmp key xs (xs.length + 1) 0 xs.length

variable {cmp : α → α → Ordering} {key : α} {xs : List (α × β)}

/-- A sorted table, by index. -/
theorem cmp_getElem (hs : xs.Pairwise fun a b => cmp a.1 b.1 = .lt) {i j : ℕ} (hij : i < j)
    (hj : j < xs.length) : cmp (xs[i]).1 (xs[j]).1 = .lt :=
  List.pairwise_iff_getElem.1 hs i j (hij.trans hj) hj hij

/-- **The search finds a key that lies in its interval.** -/
theorem bsearchIn_eq_some [Std.TransCmp cmp] (hs : xs.Pairwise fun a b => cmp a.1 b.1 = .lt)
    (fuel : ℕ) : ∀ {l u i : ℕ} (hi : i < xs.length), l ≤ i → i < u → u ≤ xs.length → u - l < fuel →
      bsearchIn cmp (xs[i]).1 xs fuel l u = some (xs[i]).2 := by
  induction fuel with
  | zero =>
    intro l u i hi hl hu hlen hf
    omega
  | succ fuel ih =>
    intro l u i hi hl hu hlen hf
    have hmid : (l + u) / 2 < xs.length := by omega
    rw [bsearchIn, if_pos (by omega), List.getElem?_eq_getElem hmid]
    rcases lt_trichotomy i ((l + u) / 2) with hlt | heq | hgt
    · simp only [cmp_getElem hs hlt hmid]
      exact ih hi hl hlt hmid.le (by omega)
    · subst heq
      simp only [Std.ReflCmp.compare_self]
    · simp only [Std.OrientedCmp.gt_iff_lt.2 (cmp_getElem hs hgt hi)]
      exact ih hi hgt hu hlen (by omega)

/-- What the search returns is the value of its key. -/
theorem bsearchIn_mem [Std.LawfulEqCmp cmp] {v : β} (fuel : ℕ) : ∀ {l u : ℕ},
    bsearchIn cmp key xs fuel l u = some v → (key, v) ∈ xs := by
  induction fuel with
  | zero =>
    intro l u h
    cases h
  | succ fuel ih =>
    intro l u h
    rw [bsearchIn] at h
    split_ifs at h with hlu
    split at h
    case h_1 => cases h
    case h_2 e he =>
      split at h
      · exact ih h
      · exact ih h
      · rename_i hc
        cases h
        rw [Std.LawfulEqCmp.eq_of_compare hc]
        exact List.mem_of_getElem? he

/-- **`bsearch` in a sorted table is membership.** -/
theorem bsearch_eq_some_iff [Std.TransCmp cmp] [Std.LawfulEqCmp cmp]
    (hs : xs.Pairwise fun a b => cmp a.1 b.1 = .lt) {v : β} :
    bsearch cmp key xs = some v ↔ (key, v) ∈ xs := by
  refine ⟨bsearchIn_mem _, fun hmem => ?_⟩
  obtain ⟨i, hi, he⟩ := List.getElem_of_mem hmem
  have := bsearchIn_eq_some hs (xs.length + 1) hi (Nat.zero_le _) hi le_rfl (by omega)
  rw [he] at this
  exact this

end Bsearch

end CLib
end Clogx
