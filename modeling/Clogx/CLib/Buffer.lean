/-
# Arrays of characters

A block is an array of bytes of a fixed size; the C string at a place of it ends
before the next zero byte.  A string or a write that leaves the block is `none`.
`strstr` is the leftmost occurrence, and `replaceAll` is the replacement of the
leftmost, then the next that does not overlap, and so on: what a loop over
`strstr` computes (`occurrences_induct`).
-/

import Clogx.CLib.Text

namespace Clogx
namespace CLib

/-- A text that can stand in an array: it has no zero byte. -/
abbrev CString := {t : Text // 0 ∉ t}

/-- An array of `char`. -/
abbrev Block := List UInt8

/-- `char a[n]`. -/
abbrev Chars (n : ℕ) := {b : Block // b.length = n}

/-- The string at place `i` of a block. -/
def strAt (b : Block) (i : ℕ) : Option Text :=
  if 0 ∈ b.drop i then some ((b.drop i).takeWhile (· ≠ 0)) else none

/-- `memcpy` into a block, at place `i`. -/
def store (b : Block) (i : ℕ) (bs : List UInt8) : Option Block :=
  if i + bs.length ≤ b.length then some (b.take i ++ bs ++ b.drop (i + bs.length)) else none

/-- The string up to a terminator. -/
theorem strAt_eq {b rest : Block} {i : ℕ} {t : Text} (ht : 0 ∉ t) (hb : b.drop i = t ++ 0 :: rest) :
    strAt b i = some t := by
  rw [strAt, hb, if_pos (by simp), List.takeWhile_append_of_pos]
  · simp
  · intro c hc
    simpa using fun hzero : c = 0 => ht (hzero ▸ hc)

theorem zero_notMem_of_strAt {b : Block} {i : ℕ} {t : Text} (h : strAt b i = some t) : 0 ∉ t := by
  rw [strAt] at h
  split_ifs at h
  cases h
  intro hmem
  have hne := List.mem_takeWhile_imp hmem
  simp at hne

/-- The string behind the first bytes of a block. -/
theorem strAt_append {x t : Text} {rest : Block} (ht : 0 ∉ t) :
    strAt (x ++ (t ++ 0 :: rest)) x.length = some t :=
  strAt_eq ht List.drop_left

/-- A write over the bytes `y` behind the first bytes of a block. -/
theorem store_append {x y z bs : Block} (h : bs.length = y.length) :
    store (x ++ (y ++ z)) x.length bs = some (x ++ (bs ++ z)) := by
  rw [store, if_pos (by simp [h]), List.take_left, h, List.append_assoc, ← List.drop_drop,
    List.drop_left, List.drop_left]

/-- A write that fits, behind the first bytes of a block. -/
theorem store_fits {x z bs : Block} (h : bs.length ≤ z.length) :
    store (x ++ z) x.length bs = some (x ++ (bs ++ z.drop bs.length)) := by
  conv_lhs => rw [← List.take_append_drop bs.length z]
  exact store_append (by simp [h])

/-- A write keeps the size of a block. -/
theorem length_store {b b' bs : Block} {i : ℕ} (h : store b i bs = some b') :
    b'.length = b.length := by
  rw [store] at h
  split_ifs at h with hfits
  cases h
  simp only [List.length_append, List.length_take, List.length_drop]
  omega

/-- A store behind the end fails. -/
theorem store_eq_none {b bs : Block} {i : ℕ} (h : b.length < i + bs.length) :
    store b i bs = none :=
  if_neg (by omega)

/-- Two writes, the second behind the first, are one. -/
theorem store_bind_store (b : Block) {xs : Block} {i j : ℕ} (hj : j = i + xs.length) (ys : Block) :
    ((store b i xs).bind fun b => store b j ys) = store b i (xs ++ ys) := by
  subst hj
  by_cases hfits : i + (xs ++ ys).length ≤ b.length
  · -- the block is split at the place of the first write
    rw [List.length_append] at hfits
    obtain ⟨x, z, rfl, rfl⟩ : ∃ x z, b = x ++ z ∧ x.length = i :=
      ⟨b.take i, b.drop i, (List.take_append_drop i b).symm, List.length_take_of_le (by omega)⟩
    rw [List.length_append] at hfits
    rw [store_fits (by omega), store_fits (by rw [List.length_append]; omega), Option.bind_some,
      ← List.append_assoc, ← List.length_append, store_fits (by rw [List.length_drop]; omega),
      List.drop_drop, List.length_append]
    simp only [List.append_assoc]
  · have hnone : store b i (xs ++ ys) = none := store_eq_none (by omega)
    rw [hnone]
    by_cases hxs : i + xs.length ≤ b.length
    · obtain ⟨b', hb'⟩ : ∃ b', store b i xs = some b' := ⟨_, if_pos hxs⟩
      rw [hb', Option.bind_some, store_eq_none]
      rw [length_store hb']
      rw [List.length_append] at hfits
      omega
    · rw [store_eq_none (by omega), Option.bind_none]

theorem store_bind_store_bind (b : Block) {xs : Block} {i j : ℕ} (hj : j = i + xs.length)
    (ys : Block) {α : Type} (f : Block → Option α) :
    ((store b i xs).bind fun b => (store b j ys).bind f) = (store b i (xs ++ ys)).bind f := by
  rw [← store_bind_store b hj ys, Option.bind_assoc]

/-- A block, split `k` bytes before its end. -/
theorem exists_eq_append {b : Block} {k : ℕ} (h : k ≤ b.length) :
    ∃ x y, b = x ++ y ∧ k = y.length := by
  refine ⟨b.take (b.length - k), b.drop (b.length - k), (List.take_append_drop _ b).symm, ?_⟩
  rw [List.length_drop]
  omega

/-! ### Searching and replacing -/

/-- `strstr`: the place of the leftmost occurrence. -/
def strstr (pat : Text) : Text → Option ℕ
  | [] => if pat = [] then some 0 else none
  | c :: t => if pat.isPrefixOf (c :: t) then some 0 else (strstr pat t).map (· + 1)

/-- The replacement, the next `k` characters being part of an occurrence. -/
def replaceFrom (pat msk : Text) : ℕ → Text → Text
  | _, [] => []
  | k + 1, _ :: t => replaceFrom pat msk k t
  | 0, c :: t =>
    if pat.isPrefixOf (c :: t) then msk ++ replaceFrom pat msk (pat.length - 1) t
    else c :: replaceFrom pat msk 0 t

/-- **Leftmost non-overlapping replacement** of `pat` by `msk`. -/
def replaceAll (pat msk t : Text) : Text := replaceFrom pat msk 0 t

section Replace

variable {pat : Text}

theorem replaceFrom_eq_drop (msk : Text) (k : ℕ) (t : Text) :
    replaceFrom pat msk k t = replaceAll pat msk (t.drop k) := by
  induction t generalizing k with
  | nil => cases k <;> rfl
  | cons c t ih =>
    cases k with
    | zero => rfl
    | succ k => exact ih k

/-- An occurrence at the front is replaced. -/
theorem replaceAll_occurrence (hpat : pat ≠ []) (msk tl : Text) :
    replaceAll pat msk (pat ++ tl) = msk ++ replaceAll pat msk tl := by
  obtain ⟨c, p, rfl⟩ := List.exists_cons_of_ne_nil hpat
  have hpre : (c :: p).isPrefixOf (c :: p ++ tl) = true := by simp
  rw [replaceAll, List.cons_append, replaceFrom, ← List.cons_append, if_pos hpre,
    replaceFrom_eq_drop]
  simp

example : replaceAll (str "ab") (str "*") (str "ababx") = str "**x" := by decide

/-- **What a hit of `strstr` says:** the text is split at the leftmost occurrence, and the
replacement goes on behind it. -/
theorem strstr_eq_some (hpat : pat ≠ []) {t : Text} {k : ℕ} (h : strstr pat t = some k) :
    ∃ hd tl, hd.length = k ∧ t = hd ++ (pat ++ tl) ∧
      ∀ msk, replaceAll pat msk t = hd ++ (msk ++ replaceAll pat msk tl) := by
  induction t generalizing k with
  | nil =>
    rw [strstr, if_neg hpat] at h
    cases h
  | cons c t ih =>
    rw [strstr] at h
    split_ifs at h with hpre
    · obtain ⟨tl, htl⟩ := List.isPrefixOf_iff_prefix.1 hpre
      cases h
      refine ⟨[], tl, rfl, htl.symm, fun msk => ?_⟩
      rw [← htl]
      exact replaceAll_occurrence hpat msk tl
    · obtain ⟨j, hj, rfl⟩ := Option.map_eq_some_iff.1 h
      obtain ⟨hd, tl, rfl, rfl, hrep⟩ := ih hj
      refine ⟨c :: hd, tl, rfl, rfl, fun msk => ?_⟩
      rw [replaceAll, replaceFrom, if_neg hpre]
      exact congrArg (c :: ·) (hrep msk)

/-- Without an occurrence nothing is. -/
theorem replaceAll_of_strstr_eq_none (msk : Text) {t : Text} (h : strstr pat t = none) :
    replaceAll pat msk t = t := by
  induction t with
  | nil => rfl
  | cons c t ih =>
    rw [strstr] at h
    split_ifs at h with hpre
    rw [replaceAll, replaceFrom, if_neg hpre]
    exact congrArg (c :: ·) (ih (Option.map_eq_none_iff.1 h))

/-- **Induction along the occurrences,** the rule for a loop over `strstr`. -/
theorem occurrences_induct (hpat : pat ≠ []) {motive : Text → Prop}
    (last : ∀ t, strstr pat t = none → motive t)
    (hit : ∀ hd tl, strstr pat (hd ++ (pat ++ tl)) = some hd.length →
      (∀ msk, replaceAll pat msk (hd ++ (pat ++ tl)) = hd ++ (msk ++ replaceAll pat msk tl)) →
      motive tl → motive (hd ++ (pat ++ tl))) (t : Text) : motive t := by
  induction hn : t.length using Nat.strong_induction_on generalizing t with
  | _ n ih =>
    cases hs : strstr pat t with
    | none => exact last t hs
    | some k =>
      obtain ⟨hd, tl, rfl, rfl, hrep⟩ := strstr_eq_some hpat hs
      have hpos := List.length_pos_iff.2 hpat
      refine hit hd tl hs hrep (ih tl.length ?_ tl rfl)
      simp only [List.length_append] at hn
      omega

/-- A mask that is not shorter than the pattern does not shorten the text. -/
theorem length_le_replaceAll (hpat : pat ≠ []) {msk : Text} (h : pat.length ≤ msk.length)
    (t : Text) : t.length ≤ (replaceAll pat msk t).length := by
  induction t using occurrences_induct hpat with
  | last t hnone => rw [replaceAll_of_strstr_eq_none msk hnone]
  | hit hd tl _ hrep ih =>
    rw [hrep]
    simp only [List.length_append]
    omega

/-- A replacement is a string. -/
theorem zero_notMem_replaceAll (hpat : pat ≠ []) {msk t : Text} (hmsk : 0 ∉ msk) (ht : 0 ∉ t) :
    0 ∉ replaceAll pat msk t := by
  induction t using occurrences_induct hpat with
  | last t hnone => rwa [replaceAll_of_strstr_eq_none msk hnone]
  | hit hd tl _ hrep ih =>
    simp only [List.mem_append, not_or] at ht
    rw [hrep]
    simp only [List.mem_append, not_or]
    exact ⟨ht.1, hmsk, ih ht.2.2⟩

/-- **In the middle of a replacement the text is not longer than before or than after.** -/
theorem partial_length_lt (hpat : pat ≠ []) {msk hd tl : Text} {n m : ℕ}
    (hrep : replaceAll pat msk (hd ++ (pat ++ tl)) = hd ++ (msk ++ replaceAll pat msk tl))
    (hbefore : m + (hd ++ (pat ++ tl)).length < n)
    (hafter : m + (replaceAll pat msk (hd ++ (pat ++ tl))).length < n) :
    m + hd.length + msk.length + tl.length < n := by
  rw [hrep] at hafter
  simp only [List.length_append] at hbefore hafter
  rcases Nat.le_total pat.length msk.length with hle | hle
  · have := length_le_replaceAll hpat hle tl
    omega
  · omega

/-! ### A text that is cut -/

/-- `strstr` finds nothing exactly if the pattern stands nowhere. -/
theorem strstr_eq_none_iff {t : Text} (hpat : pat ≠ []) :
    strstr pat t = none ↔ ∀ j, ¬ pat <+: t.drop j := by
  induction t with
  | nil => simp [strstr, hpat]
  | cons c t ih =>
    rw [strstr]
    by_cases hpre : pat.isPrefixOf (c :: t)
    · rw [if_pos hpre]
      exact ⟨fun h => (by cases h), fun h => absurd (List.isPrefixOf_iff_prefix.1 hpre) (h 0)⟩
    · rw [if_neg hpre, Option.map_eq_none_iff, ih]
      refine ⟨fun h j => ?_, fun h j => h (j + 1)⟩
      cases j with
      | zero => exact fun hp => hpre (List.isPrefixOf_iff_prefix.2 hp)
      | succ j => exact h j

/-- Every occurrence in `a ++ mk` lies in `a`. -/
def Inside (pat a mk : Text) : Prop :=
  ∀ hd tl, a ++ mk = hd ++ (pat ++ tl) → hd.length + pat.length ≤ a.length

end Replace

end CLib
end Clogx
