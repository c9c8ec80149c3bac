/-
# The escaping primitive on its own

`append_json_escaped_string` (`core/formatter.c`) as its callers use it: it writes
the escape of the characters that fit and says whether these were all.  It steps
over a character before it tests for the room of its escape, and its answer is
whether anything is left to read.  So the one case where it is wrong is a lost
character that is the last one (`LastLost`): the string is short of it and the
answer is `0`.
-/

import Clogx.Formatter.Meaning

namespace Clogx
namespace Formatter

open CLib
open Json (Spells)

/-- What the call should do with `s`: the escape of a beginning `p` of `s` and a terminator are
written, `*remaining` counts what is left, the answer is `0` exactly if `p` is all of `s`, and a
reader gets `p` back. -/
def Escapes (s : Text) (o : Out) : Prop :=
  ∃ p, p <+: s ∧ (appendJsonEscapedString s o).2.done = o.done ++ escapeText p ∧
    (appendJsonEscapedString s o).2.rest = 0 :: o.rest.drop ((escapeText p).length + 1) ∧
    (appendJsonEscapedString s o).2.remaining + (escapeText p).length = o.remaining ∧
    1 ≤ (appendJsonEscapedString s o).2.remaining ∧
    ((appendJsonEscapedString s o).1 = 0 ↔ p = s) ∧ Spells (escapeText p) (chars p)

/-- In room `r` the last character of `s` is the first one without room, and it is not alone with
the terminator. -/
def LastLost (s : Text) (r : ℕ) : Prop :=
  ∃ a c, s = a ++ [c] ∧ (escapeText a).length + 1 < r ∧
    r ≤ (escapeText a).length + (jsonEscape c).length

theorem length_escapeText_concat (a : Text) (c : UInt8) :
    (escapeText (a ++ [c])).length = (escapeText a).length + (jsonEscape c).length := by
  rw [escapeText_append, List.length_append, escapeText, escapeText, List.flatMap_singleton]

/-- What the call leaves in the buffer. -/
theorem Out.put_terminate {o : Out} {t : Text} (h : t.length < o.remaining) :
    (o.put t).terminate = ⟨o.done ++ t, 0 :: o.rest.drop (t.length + 1)⟩ := by
  have hdrop : o.rest.drop t.length ≠ [] := by
    rw [ne_eq, List.drop_eq_nil_iff]
    exact Nat.not_le.2 h
  obtain ⟨x, rest, hrest⟩ := List.exists_cons_of_ne_nil hdrop
  have htail : o.rest.drop (t.length + 1) = rest := by
    rw [← List.drop_drop, hrest]
    rfl
  rw [htail, Out.put, hrest]
  rfl

/-- The call writes the escape of `p` and leaves `left` unread. -/
theorem escapes_of_cut {s p left : Text} {o : Out} (hroom : (escapeText p).length < o.remaining)
    (hp : p <+: s) (hcut : escapeCut s o.remaining = (left, escapeText p))
    (hleft : left = [] ↔ p = s) : Escapes s o := by
  have hcall : appendJsonEscapedString s o =
      (if left = [] then 0 else -1, ⟨o.done ++ escapeText p,
        0 :: o.rest.drop ((escapeText p).length + 1)⟩) := by
    rw [← Out.put_terminate hroom, appendJsonEscapedString, escapeLoop_eq, hcut]
  have hrem : (0 :: o.rest.drop ((escapeText p).length + 1)).length =
      o.remaining - (escapeText p).length := by
    rw [List.length_cons, List.length_drop]
    change o.remaining - _ + 1 = _
    omega
  refine ⟨p, hp, ?_, ?_, ?_, ?_, ?_, spells_escapeText p⟩ <;> rw [hcall]
  · rw [Out.remaining, hrem]
    omega
  · rw [Out.remaining, hrem]
    omega
  · rw [← hleft]
    split_ifs with h <;> simp [h]

/-- The last character is lost where the loop says so. -/
theorem lastLost_iff {a b : Text} {c : UInt8} {r : ℕ} (ha : (escapeText a).length < r)
    (hr : r ≤ (escapeText a).length + (jsonEscape c).length) :
    LastLost (a ++ c :: b) r ↔ b = [] ∧ 1 < r - (escapeText a).length := by
  constructor
  · rintro ⟨a', c', hs, ha', hr'⟩
    obtain ⟨rfl, -, rfl⟩ := cut_unique hs ha hr (by omega) hr'
    exact ⟨rfl, by omega⟩
  · rintro ⟨rfl, hlt⟩
    exact ⟨a, c, rfl, by omega, hr⟩

/-- **The primitive is exact unless it loses the last character:** for every string and every
buffer with room for the terminator. -/
theorem escapes_iff {s : Text} {o : Out} (h : 1 ≤ o.remaining) :
    Escapes s o ↔ ¬ LastLost s o.remaining := by
  rcases Nat.lt_or_ge (escapeText s).length o.remaining with hfits | hcut
  · -- the whole string has room
    refine iff_of_true (escapes_of_cut hfits List.prefix_rfl (escapeCut_of_lt hfits)
      (iff_of_true rfl rfl)) ?_
    rintro ⟨a, c, rfl, -, hr⟩
    rw [length_escapeText_concat] at hfits
    omega
  · obtain ⟨a, c, b, rfl, ha, hr, hleft⟩ := escapeCut_of_le h hcut
    rw [lastLost_iff ha hr]
    constructor
    · -- the answer `0` for a string that was not written
      rintro ⟨p, -, hdone, -, -, -, hret, -⟩ ⟨rfl, hlt⟩
      rw [if_neg (by omega)] at hleft
      have hzero : (appendJsonEscapedString (a ++ [c]) o).1 = 0 := by
        rw [appendJsonEscapedString, escapeLoop_eq, hleft]
        rfl
      rw [appendJsonEscapedString, escapeLoop_eq, hleft, hret.1 hzero] at hdone
      have hlen : (escapeText a).length = (escapeText (a ++ [c])).length :=
        congrArg List.length (List.append_cancel_left hdone)
      have hpos := jsonEscape_pos c
      rw [length_escapeText_concat] at hlen
      omega
    · intro hkept
      refine escapes_of_cut ha (List.prefix_append ..) hleft (iff_of_false ?_ ?_)
      · intro hnil
        split_ifs at hnil with hone
        exact hkept ⟨hnil, by omega⟩
      · intro heq
        have hlen := congrArg List.length heq
        rw [List.length_append, List.length_cons] at hlen
        omega

/-- A quote and a letter in eight bytes. -/
theorem escapes_quote : Escapes [34, 97] ⟨[], [1, 2, 3, 4, 5, 6, 7, 8]⟩ := by
  refine (escapes_iff (by decide)).2 ?_
  rintro ⟨a, c, hs, ha, hr⟩
  obtain ⟨rfl, rfl⟩ : a = [34] ∧ c = 97 := by
    have hs' : [34] ++ [97] = a ++ [c] := hs
    have hsplit := List.append_inj' hs' rfl
    exact ⟨hsplit.1.symm, (List.cons.inj hsplit.2).1.symm⟩
  revert hr
  decide

/-- **A lost newline that is not reported:** two bytes are left, one for the terminator; nothing is
written and the answer is `0`. -/
theorem newline_lost :
    appendJsonEscapedString [10] ⟨[], [7, 7]⟩ = (0, ⟨[], [0, 7]⟩) ∧ ¬ Escapes [10] ⟨[], [7, 7]⟩ := by
  refine ⟨rfl, ?_⟩
  rintro ⟨p, -, hdone, -, -, -, hret, -⟩
  obtain rfl : p = [10] := hret.1 rfl
  cases hdone

end Formatter
end Clogx
