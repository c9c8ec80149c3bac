/-
# Fields in a datagram

The native protocol of a journal: a datagram is a sequence of fields, each a line
`NAME=value`, or, for values of any bytes, a line `NAME`, the length of the value
in 8 bytes with the lowest first, the value, and a newline.  `decode` reads the
fields of a datagram, and reads back what the two encodings write.
-/

import Clogx.CLib.Text

namespace Clogx
namespace Journal

open CLib

/-- A name and a value. -/
abbrev Field := Text × Text

/-! ### Numbers -/

/-- The lowest `k` bytes of a number, the lowest first. -/
def encodeLe : ℕ → ℕ → Text
  | 0, _ => []
  | k + 1, n => (n % 256).toUInt8 :: encodeLe k (n / 256)

def decodeLe : Text → ℕ
  | [] => 0
  | b :: bs => b.toNat + 256 * decodeLe bs

@[simp] theorem length_encodeLe (k n : ℕ) : (encodeLe k n).length = k := by
  induction k generalizing n with
  | zero => rfl
  | succ k ih => rw [encodeLe, List.length_cons, ih]

theorem decodeLe_encodeLe {k n : ℕ} (h : n < 256 ^ k) : decodeLe (encodeLe k n) = n := by
  induction k generalizing n with
  | zero =>
    rw [pow_zero, Nat.lt_one_iff] at h
    rw [h]
    rfl
  | succ k ih =>
    have hbyte : (n % 256).toUInt8.toNat = n % 256 := by
      rw [Nat.toUInt8, UInt8.toNat_ofNat']
      omega
    rw [encodeLe, decodeLe, hbyte, ih (by rw [pow_succ] at h; omega)]
    omega

/-! ### Fields -/

/-- The first field of a datagram, and what follows it. -/
def nextField (t : Text) : Option (Field × Text) :=
  let line := t.takeWhile (· ≠ 10)
  match t.dropWhile (· ≠ 10) with
  | [] => none
  | _ :: rest =>
    if 61 ∈ line then
      some ((line.takeWhile (· ≠ 61), (line.dropWhile (· ≠ 61)).drop 1), rest)
    else
      let n := decodeLe (rest.take 8)
      if (rest.drop (8 + n)).head? = some 10 then
        some ((line, (rest.drop 8).take n), rest.drop (8 + n + 1))
      else none

/-- The fields of a datagram, at most `k` of them. -/
def decodeFrom : ℕ → Text → Option (List Field)
  | 0, t => if t = [] then some [] else none
  | k + 1, t =>
    if t = [] then some []
    else
      match nextField t with
      | none => none
      | some (field, rest) => (decodeFrom k rest).map (field :: ·)

/-- The fields of a datagram. -/
def decode (t : Text) : Option (List Field) := decodeFrom t.length t

/-- `NAME=value`. -/
def textField (name value : Text) : Text := name ++ 61 :: (value ++ [10])

/-- The form for values of any bytes. -/
def binaryField (name value : Text) : Text :=
  name ++ 10 :: (encodeLe 8 value.length ++ (value ++ [10]))

/-- The line of a text ends at its first newline. -/
theorem line_split {line : Text} (h : 10 ∉ line) (rest : Text) :
    (line ++ 10 :: rest).takeWhile (· ≠ 10) = line ∧
      (line ++ 10 :: rest).dropWhile (· ≠ 10) = 10 :: rest := by
  have hall : ∀ c ∈ line, decide (c ≠ 10) = true :=
    fun c hc => decide_eq_true fun heq => h (heq ▸ hc)
  rw [List.takeWhile_append_of_pos hall, List.dropWhile_append_of_pos hall]
  exact ⟨List.append_nil line, rfl⟩

theorem nextField_textField {name value : Text} (hname : 10 ∉ name) (heq : 61 ∉ name)
    (hvalue : 10 ∉ value) (rest : Text) :
    nextField (textField name value ++ rest) = some ((name, value), rest) := by
  have hline : 10 ∉ name ++ 61 :: value := by
    simp only [List.mem_append, List.mem_cons, not_or]
    exact ⟨hname, by decide, hvalue⟩
  have htext : textField name value ++ rest = (name ++ 61 :: value) ++ 10 :: rest := by
    rw [textField, List.append_assoc, List.cons_append, List.append_assoc, List.append_assoc]
    rfl
  obtain ⟨htake, hdrop⟩ := line_split hline rest
  have hall : ∀ c ∈ name, decide (c ≠ 61) = true :=
    fun c hc => decide_eq_true fun hc' => heq (hc' ▸ hc)
  rw [nextField, htext]
  dsimp only
  rw [htake, hdrop]
  dsimp only
  rw [if_pos (by simp), List.takeWhile_append_of_pos hall, List.dropWhile_append_of_pos hall]
  simp

theorem nextField_binaryField {name value : Text} (hname : 10 ∉ name) (heq : 61 ∉ name)
    (hlen : value.length < 256 ^ 8) (rest : Text) :
    nextField (binaryField name value ++ rest) = some ((name, value), rest) := by
  have htext : binaryField name value ++ rest =
      name ++ 10 :: (encodeLe 8 value.length ++ (value ++ 10 :: rest)) := by
    rw [binaryField, List.append_assoc, List.cons_append, List.append_assoc, List.append_assoc]
    rfl
  obtain ⟨htake, hdrop⟩ := line_split hname (encodeLe 8 value.length ++ (value ++ 10 :: rest))
  have hsize := length_encodeLe 8 value.length
  have hcount : (encodeLe 8 value.length ++ (value ++ 10 :: rest)).take 8 =
      encodeLe 8 value.length := List.take_left' hsize
  have hbehind : (encodeLe 8 value.length ++ (value ++ 10 :: rest)).drop 8 =
      value ++ 10 :: rest := List.drop_left' hsize
  rw [nextField, htext]
  dsimp only
  rw [htake, hdrop]
  dsimp only
  rw [if_neg heq, hcount, decodeLe_encodeLe hlen, ← List.drop_drop, hbehind, List.drop_left,
    List.head?_cons, if_pos rfl, List.take_left, Nat.add_assoc, ← List.drop_drop, hbehind,
    ← List.drop_drop, List.drop_left]
  rfl

/-- A field in front of others is read first. -/
theorem decodeFrom_cons {t rest : Text} {field : Field}
    (h : nextField (t ++ rest) = some (field, rest))
    (k : ℕ) : decodeFrom (k + 1) (t ++ rest) = (decodeFrom k rest).map (field :: ·) := by
  have hne : t ++ rest ≠ [] := by
    intro hnil
    rw [hnil] at h
    cases h
  rw [decodeFrom, if_neg hne, h]

theorem decodeFrom_nil (k : ℕ) : decodeFrom k [] = some [] := by
  cases k <;> rfl

/-- **Fields one after the other are read back,** if each of them is. -/
theorem decode_flatten {ts : List Text} {fields : List Field}
    (h : List.Forall₂ (fun t field => ∀ rest, nextField (t ++ rest) = some (field, rest))
      ts fields) :
    decode ts.flatten = some fields := by
  have hfrom : ∀ k, ts.length ≤ k → decodeFrom k ts.flatten = some fields := by
    induction h with
    | nil => exact fun k _ => decodeFrom_nil k
    | cons hhead _ ih =>
      intro k hk
      obtain ⟨k, rfl⟩ : ∃ k', k = k' + 1 := ⟨k - 1, by rw [List.length_cons] at hk; omega⟩
      rw [List.flatten_cons, decodeFrom_cons (hhead _) k,
        ih k (by rw [List.length_cons] at hk; omega)]
      rfl
  -- Every field has a byte at least.
  refine hfrom _ ?_
  clear hfrom
  induction h with
  | nil => exact le_rfl
  | @cons t field ts _ hhead _ ih =>
    have hpos : 0 < t.length := by
      by_contra hzero
      have hnil : t = [] := List.length_eq_zero_iff.1 (by omega)
      have hempty := hhead []
      rw [hnil] at hempty
      cases hempty
    rw [List.flatten_cons, List.length_append, List.length_cons]
    omega

end Journal
end Clogx
