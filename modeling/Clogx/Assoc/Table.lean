/-
# A table of pairs that is a map

A table is a list of pairs of a key and a value, searched from its front.  A new
pair goes to the end, a value is overwritten in place, and a pair is removed by
moving the last pair into its slot.  If the keys differ, looking up in the table
is a partial function, and the three operations update it at one key.
-/

import Mathlib.Data.List.Nodup
import Mathlib.Logic.Function.Basic
import Mathlib.Tactic

namespace Clogx
namespace Assoc

variable {κ ν : Type*} [DecidableEq κ]

/-- The slot of a key. -/
def slot (l : List (κ × ν)) (k : κ) : Option ℕ := l.findIdx? fun p => decide (p.1 = k)

def lookup (l : List (κ × ν)) (k : κ) : Option ν :=
  (l.find? fun p => decide (p.1 = k)).map Prod.snd

/-- The value in slot `i` is overwritten. -/
def overwrite (l : List (κ × ν)) (i : ℕ) (v : ν) : List (κ × ν) := l.modify i fun p => (p.1, v)

/-- The last pair is moved into slot `i`. -/
def swapRemove (l : List (κ × ν)) (i : ℕ) : List (κ × ν) :=
  match l.getLast? with
  | none => []
  | some last => (l.set i last).dropLast

/-- No two pairs have the same key. -/
def Distinct (l : List (κ × ν)) : Prop := (l.map Prod.fst).Nodup

/-! ### Slots -/

/-- **A key with a slot splits the table there.** -/
theorem slot_eq_some {l : List (κ × ν)} {k : κ} {i : ℕ} (h : slot l k = some i) :
    ∃ a v b, l = a ++ (k, v) :: b ∧ a.length = i := by
  obtain ⟨hi, hk, -⟩ := List.findIdx?_eq_some_iff_getElem.1 h
  have hk : l[i].1 = k := of_decide_eq_true hk
  refine ⟨l.take i, l[i].2, l.drop (i + 1), ?_, List.length_take_of_le hi.le⟩
  rw [← hk, Prod.mk.eta, List.cons_getElem_drop_succ, List.take_append_drop]

theorem slot_eq_none_iff {l : List (κ × ν)} {k : κ} :
    slot l k = none ↔ ∀ v, (k, v) ∉ l := by
  rw [slot, List.findIdx?_eq_none_iff]
  constructor
  · intro h v hmem
    simpa using h _ hmem
  · rintro h ⟨k', v⟩ hmem
    refine decide_eq_false fun heq => h v ?_
    rw [← show k' = k from heq]
    exact hmem

theorem lookup_eq_none_iff {l : List (κ × ν)} {k : κ} : lookup l k = none ↔ ∀ v, (k, v) ∉ l := by
  rw [lookup, Option.map_eq_none_iff, List.find?_eq_none]
  constructor
  · intro h v hmem
    simpa using h _ hmem
  · rintro h ⟨k', v⟩ hmem
    simp only [decide_eq_true_eq]
    rintro rfl
    exact h v hmem

theorem slot_eq_none_iff_lookup {l : List (κ × ν)} {k : κ} : slot l k = none ↔ lookup l k = none :=
  slot_eq_none_iff.trans lookup_eq_none_iff.symm

/-- **Looking up finds the pair of the key,** in a table with distinct keys. -/
theorem lookup_eq_some_iff {l : List (κ × ν)} (h : Distinct l) {k : κ} {v : ν} :
    lookup l k = some v ↔ (k, v) ∈ l := by
  constructor
  · intro hv
    obtain ⟨⟨k', v'⟩, hfind, hval⟩ := Option.map_eq_some_iff.1 hv
    have hkey : k' = k := by simpa using List.find?_some hfind
    cases hkey
    cases hval
    exact List.mem_of_find?_eq_some hfind
  · intro hmem
    cases hv : lookup l k with
    | none => exact absurd hmem (lookup_eq_none_iff.1 hv v)
    | some w =>
      obtain ⟨⟨k', w'⟩, hfind, hval⟩ := Option.map_eq_some_iff.1 hv
      have hkey : k' = k := by simpa using List.find?_some hfind
      cases hkey
      have hpair : (k, v) = (k, w') :=
        List.inj_on_of_nodup_map h hmem (List.mem_of_find?_eq_some hfind) rfl
      rw [← hval, (Prod.mk.inj hpair).2]

/-- A table with the pairs of `l` but for the key `k`, and with the value `o` there, looks up as `l`
updated at `k`. -/
theorem lookup_eq_update {l l' : List (κ × ν)} (h : Distinct l) (h' : Distinct l') {k : κ}
    {o : Option ν} (hk : ∀ v, (k, v) ∈ l' ↔ o = some v)
    (hother : ∀ k' v, k' ≠ k → ((k', v) ∈ l' ↔ (k', v) ∈ l)) :
    lookup l' = Function.update (lookup l) k o := by
  funext k'
  by_cases heq : k' = k
  · subst heq
    rw [Function.update_self]
    exact Option.ext fun v => by
      rw [lookup_eq_some_iff h', hk]
  · rw [Function.update_of_ne heq]
    exact Option.ext fun v => by
      rw [lookup_eq_some_iff h', lookup_eq_some_iff h, hother k' v heq]

/-! ### The three operations -/

section Split

variable {a b : List (κ × ν)} {k : κ} {v : ν}

omit [DecidableEq κ] in
theorem overwrite_split (w : ν) :
    overwrite (a ++ (k, v) :: b) a.length w = a ++ (k, w) :: b := by
  induction a with
  | nil => rfl
  | cons p a ih => exact congrArg (p :: ·) ih

omit [DecidableEq κ] in
/-- Removal keeps the other pairs, in another order. -/
theorem swapRemove_split : (swapRemove (a ++ (k, v) :: b) a.length).Perm (a ++ b) := by
  rcases List.eq_nil_or_concat' b with rfl | ⟨b', y, rfl⟩
  · rw [swapRemove, List.getLast?_concat]
    dsimp only
    rw [List.set_append_right _ _ le_rfl, Nat.sub_self, List.set_cons_zero, List.dropLast_concat,
      List.append_nil]
  · have hlast : (a ++ (k, v) :: (b' ++ [y])).getLast? = some y := by
      rw [← List.cons_append, ← List.append_assoc, List.getLast?_concat]
    rw [swapRemove, hlast]
    dsimp only
    rw [List.set_append_right _ _ le_rfl, Nat.sub_self, List.set_cons_zero, ← List.cons_append,
      ← List.append_assoc, List.dropLast_concat]
    exact (List.perm_append_left_iff a).2 (List.perm_append_singleton y b').symm

omit [DecidableEq κ] in
theorem distinct_split : Distinct (a ++ (k, v) :: b) ↔
    Distinct (a ++ b) ∧ ∀ w, (k, w) ∉ a ++ b := by
  have hperm : ((a ++ (k, v) :: b).map Prod.fst).Perm (k :: (a ++ b).map Prod.fst) := by
    have hmiddle : (a ++ (k, v) :: b).Perm ((k, v) :: (a ++ b)) := List.perm_middle
    exact hmiddle.map Prod.fst
  rw [Distinct, hperm.nodup_iff, List.nodup_cons, and_comm]
  refine and_congr_right fun _ =>
    ⟨fun h w hw => h (List.mem_map.2 ⟨(k, w), hw, rfl⟩), fun h hk => ?_⟩
  obtain ⟨⟨k', w⟩, hw, heq⟩ := List.mem_map.1 hk
  cases heq
  exact h w hw

end Split

section Operations

variable {l : List (κ × ν)} (h : Distinct l) {k : κ}
include h

theorem distinct_overwrite {i : ℕ} (hi : slot l k = some i) (v : ν) : Distinct (overwrite l i v) := by
  obtain ⟨a, w, b, rfl, rfl⟩ := slot_eq_some hi
  rw [overwrite_split]
  exact distinct_split.2 (distinct_split.1 h)

/-- **Overwriting the value of a key updates the map there.** -/
theorem lookup_overwrite {i : ℕ} (hi : slot l k = some i) (v : ν) :
    lookup (overwrite l i v) = Function.update (lookup l) k (some v) := by
  have h' := distinct_overwrite h hi v
  obtain ⟨a, w, b, rfl, rfl⟩ := slot_eq_some hi
  have hfresh := (distinct_split.1 h).2
  rw [overwrite_split] at h' ⊢
  refine lookup_eq_update h h' (fun u => ⟨fun hu => ?_, fun hu => ?_⟩) fun k' u hne => ?_
  · rcases List.mem_append.1 hu with hu | hu
    · exact absurd (List.mem_append_left b hu) (hfresh u)
    · rcases List.mem_cons.1 hu with heq | hu
      · rw [(Prod.mk.inj heq).2]
      · exact absurd (List.mem_append_right a hu) (hfresh u)
  · cases hu
    exact List.mem_append_right a List.mem_cons_self
  · simp only [List.mem_append, List.mem_cons, Prod.mk.injEq, hne, false_and, false_or]

theorem distinct_append (hk : slot l k = none) (v : ν) : Distinct (l ++ [(k, v)]) := by
  refine distinct_split.2 ⟨by rwa [List.append_nil], ?_⟩
  rw [List.append_nil]
  exact slot_eq_none_iff.1 hk

/-- **A new pair at the end updates the map at its key.** -/
theorem lookup_append (hk : slot l k = none) (v : ν) :
    lookup (l ++ [(k, v)]) = Function.update (lookup l) k (some v) := by
  refine lookup_eq_update h (distinct_append h hk v) (fun u => ⟨fun hu => ?_, fun hu => ?_⟩)
    fun k' u hne => ?_
  · rcases List.mem_append.1 hu with hu | hu
    · exact absurd hu (slot_eq_none_iff.1 hk u)
    · rw [(Prod.mk.inj (List.mem_singleton.1 hu)).2]
  · cases hu
    exact List.mem_append_right l List.mem_cons_self
  · simp only [List.mem_append, List.mem_singleton, Prod.mk.injEq, hne, false_and, or_false]

theorem distinct_swapRemove {i : ℕ} (hi : slot l k = some i) : Distinct (swapRemove l i) := by
  obtain ⟨a, w, b, rfl, rfl⟩ := slot_eq_some hi
  rw [Distinct, (swapRemove_split.map Prod.fst).nodup_iff]
  exact (distinct_split.1 h).1

/-- **Removing a key clears the map there** and nowhere else. -/
theorem lookup_swapRemove {i : ℕ} (hi : slot l k = some i) :
    lookup (swapRemove l i) = Function.update (lookup l) k none := by
  have h' := distinct_swapRemove h hi
  obtain ⟨a, w, b, rfl, rfl⟩ := slot_eq_some hi
  refine lookup_eq_update h h' (fun u => ⟨fun hu => ?_, fun hu => ?_⟩) fun k' u hne => ?_
  · exact absurd (swapRemove_split.mem_iff.1 hu) ((distinct_split.1 h).2 u)
  · cases hu
  · rw [swapRemove_split.mem_iff]
    simp only [List.mem_append, List.mem_cons, Prod.mk.injEq, hne, false_and, false_or]

end Operations

end Assoc
end Clogx
