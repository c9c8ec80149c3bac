/-
# The appliers that copy

`redact_apply_all_locked` and `redact_apply_all_heap_locked` of `core/log.c`, whatever
`malloc` answers.  They read one block and write another: what they read is never the
stack buffer that is written next, nor a block that was freed.

A rule whose block is refused is skipped, and the text goes on as it was.  `ruleAt`
says so for one rule, with the number of blocks that have been asked for, and
`redactedBy` for the table.  `Place` says where the text is and what the heap is: that
of the beginning, with the one block that is owned.
-/

import Clogx.Redact.Engines

namespace Clogx
namespace Redact

open CLib

/-! ### Memory -/

@[simp] theorem Mem.read_set_self (m : Mem) (p : Ptr) (b : Block) : (m.set p b).read p = some b := by
  cases p <;> simp [Mem.set, Mem.read]

theorem Mem.read_set_of_ne (m : Mem) {p q : Ptr} (h : q ≠ p) (b : Block) :
    (m.set p b).read q = m.read q := by
  cases p <;> cases q <;> simp_all [Mem.set, Mem.read, Function.update_of_ne]

@[simp] theorem Mem.set_set (m : Mem) (p : Ptr) (b c : Block) : (m.set p b).set p c = m.set p c := by
  cases p <;> simp [Mem.set]

theorem Mem.write_eq {m : Mem} {p : Ptr} {x z bs : Block} (hread : m.read p = some (x ++ z))
    (hbs : bs.length ≤ z.length) :
    m.write p x.length bs = some (m.set p (x ++ (bs ++ z.drop bs.length))) := by
  rw [Mem.write, hread]
  simp only [Option.bind_eq_bind, Option.bind_some, store_fits hbs]
  rfl

/-! ### Counting and copying -/

/-- The counting loop counts the hits of the text. -/
theorem countHits_spec {pat : Text} (hpat : pat ≠ []) (t : Text) :
    ∀ (fuel : ℕ) (x rest : Block) (c : ℕ), 0 ∉ t → t.length < fuel →
      ∃ k, countHits pat fuel (x ++ (t ++ 0 :: rest)) x.length c = some (c + k) ∧
        (k = 0 ↔ strstr pat t = none) ∧
        ∀ msk, (replaceAll pat msk t).length + k * pat.length = t.length + k * msk.length := by
  induction t using occurrences_induct hpat with
  | last t hnone =>
    intro fuel x rest c ht hfuel
    obtain ⟨fuel, rfl⟩ : ∃ f, fuel = f + 1 := ⟨fuel - 1, by omega⟩
    refine ⟨0, ?_, by simp [hnone], fun msk => by
      rw [replaceAll_of_strstr_eq_none msk hnone, Nat.zero_mul, Nat.zero_mul]⟩
    rw [countHits, strAt_append ht]
    simp only [Option.bind_eq_bind, Option.bind_some, hnone]
    rfl
  | hit hd tl hsome hrep ih =>
    intro fuel x rest c ht hfuel
    obtain ⟨fuel, rfl⟩ : ∃ f, fuel = f + 1 := ⟨fuel - 1, by omega⟩
    have hpos := List.length_pos_iff.2 hpat
    simp only [List.mem_append, not_or] at ht
    obtain ⟨k, hrun, -, hlen⟩ := ih fuel (x ++ hd ++ pat) rest (c + 1) ht.2.2
      (by simp at hfuel; omega)
    refine ⟨k + 1, ?_, by simp [hsome], fun msk => ?_⟩
    · rw [countHits, strAt_append (by simp [ht])]
      simp only [Option.bind_eq_bind, Option.bind_some, hsome]
      simpa [Nat.add_assoc, Nat.add_comm 1 k] using hrun
    · have := hlen msk
      rw [hrep]
      simp only [List.length_append, Nat.add_mul, Nat.one_mul]
      omega

/-- **`redact_expand_len`** is the length of the result. -/
theorem redactExpandLen_spec {pat msk t : Text} (hpat : pat ≠ []) {fuel : ℕ} (ht : 0 ∉ t)
    (hfuel : t.length < fuel) (rest : Block) :
    ∃ k, redactExpandLen fuel (t ++ 0 :: rest) pat msk.length =
        some ((replaceAll pat msk t).length, k) ∧ (k = 0 ↔ strstr pat t = none) := by
  obtain ⟨k, hrun, hk, hlen⟩ := countHits_spec hpat t fuel [] rest 0 ht hfuel
  have hstr : strAt (t ++ 0 :: rest) 0 = some t := @strAt_append [] t rest ht
  refine ⟨k, ?_, hk⟩
  -- the empty mask shows that the occurrences fit in the text
  have hle : k * pat.length ≤ t.length := by
    have := hlen []
    simp only [List.length_nil, Nat.mul_zero] at this
    omega
  have hlen := hlen msk
  rw [redactExpandLen, show countHits pat fuel (t ++ 0 :: rest) 0 0 = some k by simpa using hrun,
    hstr]
  simp only [Option.bind_eq_bind, Option.bind_some]
  split_ifs with hzero
  · subst hzero
    rw [show (replaceAll pat msk t).length = t.length by simpa using hlen]
    rfl
  · refine congrArg some (Prod.ext ?_ rfl)
    show t.length - k * pat.length + k * msk.length = (replaceAll pat msk t).length
    omega

/-- **`redact_expand_copy`** from one block to another. -/
theorem redactExpandCopy_spec {pat msk : Text} (hpat : pat ≠ []) {src dst : Ptr} (hne : src ≠ dst)
    (t : Text) : ∀ (fuel : ℕ) (m : Mem) (x y z rest : Block), 0 ∉ t → t.length < fuel →
      m.read src = some (x ++ (t ++ 0 :: rest)) → m.read dst = some (y ++ z) →
      (replaceAll pat msk t).length < z.length →
      ∃ rest', redactExpandCopy pat msk src dst fuel m x.length y.length =
          some (m.set dst (y ++ (replaceAll pat msk t ++ 0 :: rest'))) ∧
        (replaceAll pat msk t ++ 0 :: rest').length = z.length := by
  induction t using occurrences_induct hpat with
  | last t hnone =>
    intro fuel m x y z rest ht hfuel hsrc hdst hz
    obtain ⟨fuel, rfl⟩ : ∃ f, fuel = f + 1 := ⟨fuel - 1, by omega⟩
    rw [replaceAll_of_strstr_eq_none msk hnone] at hz ⊢
    refine ⟨z.drop (t ++ [0]).length, ?_, by simp; omega⟩
    rw [redactExpandCopy, hsrc]
    simp only [Option.bind_eq_bind, Option.bind_some, strAt_append ht, hnone]
    rw [Mem.write_eq hdst (by simpa using hz)]
    simp
  | hit hd tl hsome hrep ih =>
    intro fuel m x y z rest ht hfuel hsrc hdst hz
    obtain ⟨fuel, rfl⟩ : ∃ f, fuel = f + 1 := ⟨fuel - 1, by omega⟩
    have hpos := List.length_pos_iff.2 hpat
    have htext : 0 ∉ hd ++ (pat ++ tl) := ht
    simp only [List.mem_append, not_or] at ht
    rw [hrep] at hz
    simp only [List.length_append] at hz
    -- the part before the occurrence, then the mask
    have hhead := @Mem.write_eq m dst y z hd hdst (by omega)
    have hmask := @Mem.write_eq (m.set dst (y ++ (hd ++ z.drop hd.length))) dst (y ++ hd)
      (z.drop hd.length) msk (by simp) (by simp; omega)
    obtain ⟨rest', hrun, hlen⟩ := ih fuel
      (m.set dst ((y ++ hd) ++ (msk ++ (z.drop hd.length).drop msk.length))) (x ++ hd ++ pat)
      (y ++ hd ++ msk) ((z.drop hd.length).drop msk.length) rest ht.2.2
      (by simp at hfuel; omega) (by rw [Mem.read_set_of_ne m hne, hsrc]; simp) (by simp)
      (by simp; omega)
    refine ⟨rest', ?_, by rw [hrep]; simp at hlen ⊢; omega⟩
    rw [redactExpandCopy, hsrc]
    simp only [Option.bind_eq_bind, Option.bind_some, strAt_append htext, hsome, List.take_left]
    rw [hhead, Option.bind_some, ← List.length_append, hmask, Option.bind_some, Mem.set_set]
    rw [hrep]
    simpa [Nat.add_assoc] using hrun

@[simp] theorem Mem.read_mallocs (m : Mem) (k : ℕ) (p : Ptr) :
    ({ m with mallocs := k } : Mem).read p = m.read p := by
  cases p <;> rfl

/-- The string at a pointer. -/
def Mem.strAt (m : Mem) (p : Ptr) : Option Text := do
  CLib.strAt (← m.read p) 0

theorem strAt_zero {t : Text} {rest : Block} (ht : 0 ∉ t) : strAt (t ++ 0 :: rest) 0 = some t :=
  @strAt_append [] t rest ht

theorem zero_notMem_redacted {rules : List Rule} (hok : ∀ r ∈ rules, r.Ok) {t : Text} (ht : 0 ∉ t) :
    0 ∉ redacted rules t := by
  induction rules generalizing t with
  | nil => exact ht
  | cons r rules ih =>
    have hr := hok r List.mem_cons_self
    exact ih (fun r hr => hok r (List.mem_cons_of_mem _ hr))
      (zero_notMem_replaceAll hr.pattern_ne hr.mask_nul ht)

/-! ### What a rule does -/

/-- **One rule,** after `s.2` calls of `malloc`.  A text without an occurrence stays as it is; a
result that fits in the `stack` bytes of a buffer needs no block; otherwise the rule is applied if
the block that it asks for is granted. -/
def ruleAt (os : Allocator) (stack : ℕ) (s : Text × ℕ) (r : Rule) : Text × ℕ :=
  let u := replaceAll r.pattern r.mask s.1
  if strstr r.pattern s.1 = none then s
  else if u.length + 1 ≤ stack then (u, s.2)
  else (if os.grants s.2 then u else s.1, s.2 + 1)

/-- The rules in turn. -/
def redactedBy (os : Allocator) (stack : ℕ) (rules : List Rule) (s : Text × ℕ) : Text × ℕ :=
  rules.foldl (ruleAt os stack) s

/-- A rule is applied, or its block was refused. -/
theorem ruleAt_cases (os : Allocator) (stack : ℕ) (s : Text × ℕ) (r : Rule) :
    (ruleAt os stack s r).1 = replaceAll r.pattern r.mask s.1 ∨
      (ruleAt os stack s r).1 = s.1 ∧ os.grants s.2 = false := by
  simp only [ruleAt]
  split_ifs with hnone hfits hgrant
  · exact .inl (replaceAll_of_strstr_eq_none r.mask hnone).symm
  · exact .inl rfl
  · exact .inl rfl
  · exact .inr ⟨rfl, Bool.of_not_eq_true hgrant⟩

theorem zero_notMem_ruleAt {os : Allocator} {stack : ℕ} {s : Text × ℕ} {r : Rule} (hr : r.Ok)
    (h : 0 ∉ s.1) : 0 ∉ (ruleAt os stack s r).1 := by
  rcases ruleAt_cases os stack s r with heq | ⟨heq, -⟩ <;> rw [heq]
  · exact zero_notMem_replaceAll hr.pattern_ne hr.mask_nul h
  · exact h

theorem zero_notMem_redactedBy (os : Allocator) (stack : ℕ) {rules : List Rule}
    (hok : ∀ r ∈ rules, r.Ok) (s : Text × ℕ) (h : 0 ∉ s.1) : 0 ∉ (redactedBy os stack rules s).1 := by
  induction rules generalizing s with
  | nil => exact h
  | cons r rules ih =>
    exact ih (fun r hr => hok r (List.mem_cons_of_mem _ hr)) _
      (zero_notMem_ruleAt (hok r List.mem_cons_self) h)

/-- **While `malloc` grants its blocks every rule is applied.** -/
theorem redactedBy_of_grants {os : Allocator} (hos : ∀ n, os.grants n = true) (stack : ℕ)
    (rules : List Rule) (s : Text × ℕ) : (redactedBy os stack rules s).1 = redacted rules s.1 := by
  induction rules generalizing s with
  | nil => rfl
  | cons r rules ih =>
    have hrule : (ruleAt os stack s r).1 = replaceAll r.pattern r.mask s.1 :=
      (ruleAt_cases os stack s r).resolve_right fun h => absurd (hos s.2) (by rw [h.2]; decide)
    exact (ih _).trans (congrArg (redacted rules) hrule)

example : redactedBy ⟨fun n => n == 1, fun _ _ => 0⟩ 0
    [⟨str "ab", str "*"⟩, ⟨str "cd", str "*"⟩] (str "abcd", 0) = (str "ab*", 2) := by decide

/-! ### Fuel -/

/-- No text on the way is as long as this. -/
def room (rules : List Rule) (n : ℕ) : ℕ := n * (rules.map fun r => r.mask.length + 1).prod + 1

/-- One replacement grows a text by a bounded factor. -/
theorem length_replaceAll_le {pat : Text} (hpat : pat ≠ []) (msk t : Text) :
    (replaceAll pat msk t).length ≤ t.length * (msk.length + 1) := by
  induction t using occurrences_induct hpat with
  | last t hnone =>
    rw [replaceAll_of_strstr_eq_none msk hnone]
    exact Nat.le_mul_of_pos_right _ (Nat.succ_pos _)
  | hit hd tl hsome hrep ih =>
    have hpos := List.length_pos_iff.2 hpat
    rw [hrep]
    simp only [List.length_append, Nat.add_mul, Nat.mul_add, Nat.mul_one] at ih ⊢
    have hmask := Nat.le_mul_of_pos_left msk.length hpos
    omega

theorem lt_room (rules : List Rule) (n : ℕ) : n < room rules n := by
  have hprod : 0 < (rules.map fun r => r.mask.length + 1).prod :=
    List.prod_pos fun k hk => by
      obtain ⟨r, -, rfl⟩ := List.mem_map.1 hk
      exact Nat.succ_pos _
  exact Nat.lt_succ_of_le (Nat.le_mul_of_pos_right n hprod)

theorem room_mono (rules : List Rule) {n k : ℕ} (h : n ≤ k) : room rules n ≤ room rules k :=
  Nat.succ_le_succ (Nat.mul_le_mul_right _ h)

theorem room_cons (r : Rule) (rules : List Rule) (n : ℕ) :
    room (r :: rules) n = room rules (n * (r.mask.length + 1)) := by
  rw [room, room, List.map_cons, List.prod_cons, Nat.mul_assoc]

/-- The texts that rules go through on their way are all shorter than `n`. -/
def Bounded (os : Allocator) (stack n : ℕ) (rules : List Rule) (s : Text × ℕ) : Prop :=
  ∀ k, (redactedBy os stack (rules.take k) s).1.length < n

/-- `room` bounds every intermediate text. -/
theorem bounded_room {os : Allocator} {stack : ℕ} {rules : List Rule} (hok : ∀ r ∈ rules, r.Ok)
    {s : Text × ℕ} {n : ℕ} (hn : room rules s.1.length ≤ n) : Bounded os stack n rules s := by
  induction rules generalizing s with
  | nil =>
    intro k
    rw [List.take_nil]
    exact (lt_room [] _).trans_le hn
  | cons r rules ih =>
    have hgrow : (ruleAt os stack s r).1.length ≤ s.1.length * (r.mask.length + 1) := by
      rcases ruleAt_cases os stack s r with heq | ⟨heq, -⟩ <;> rw [heq]
      · exact length_replaceAll_le (hok r List.mem_cons_self).pattern_ne r.mask s.1
      · exact Nat.le_mul_of_pos_right _ (Nat.succ_pos _)
    intro k
    cases k with
    | zero => exact (lt_room (r :: rules) _).trans_le hn
    | succ k =>
      rw [room_cons] at hn
      exact ih (fun r hr => hok r (List.mem_cons_of_mem _ hr))
        ((room_mono rules hgrow).trans hn) k

/-! ### Where the text is -/

/-- **What an applier keeps.**  The text is at `cur`.  What is owned is the block at `cur`, and what
is on the heap beside it was there before, or is gone. -/
structure Place (m₀ m : Mem) (cur : Ptr) (owned : Option Ptr) (t : Text) : Prop where
  arg : m.arg = m₀.arg
  mallocs : m₀.mallocs ≤ m.mallocs
  text : ∃ rest, m.read cur = some (t ++ 0 :: rest)
  heap : ∀ k, owned ≠ some (.heap k) →
    m.heap k = m₀.heap k ∨ m₀.mallocs ≤ k ∧ m.heap k = none
  owned : (owned = none ∧ ∀ n, cur ≠ .heap n) ∨
    ∃ n, owned = some (.heap n) ∧ cur = .heap n ∧ m₀.mallocs ≤ n ∧ n < m.mallocs

namespace Place

variable {m₀ m : Mem} {cur : Ptr} {owned : Option Ptr} {t u : Text}

/-- At the start. -/
theorem start {m : Mem} {t : Text} {rest : Block} (harg : m.arg = t ++ 0 :: rest) :
    Place m m .arg none t :=
  ⟨rfl, Nat.le_refl _, ⟨rest, congrArg some harg⟩, fun _ _ => .inl rfl, .inl ⟨rfl, nofun⟩⟩

theorem ne_fresh (h : Place m₀ m cur owned t) : cur ≠ .heap m.mallocs := by
  rintro rfl
  rcases h.owned with ⟨-, hne⟩ | ⟨n, -, hcur, -, hlt⟩
  · exact hne _ rfl
  · exact absurd (Ptr.heap.inj hcur) (by omega)

theorem owned_ne (h : Place m₀ m cur owned t) : owned ≠ some (.heap m.mallocs) := by
  rcases h.owned with ⟨rfl, -⟩ | ⟨n, rfl, -, -, hlt⟩
  · exact nofun
  · exact fun heq => absurd (Ptr.heap.inj (Option.some.inj heq)) (by omega)

/-- A `malloc` that is refused. -/
theorem refused (h : Place m₀ m cur owned t) :
    Place m₀ { m with mallocs := m.mallocs + 1 } cur owned t where
  arg := h.arg
  mallocs := h.mallocs.trans (Nat.le_succ _)
  text := by
    obtain ⟨rest, hread⟩ := h.text
    exact ⟨rest, (Mem.read_mallocs m _ cur).trans hread⟩
  heap := h.heap
  owned := h.owned.imp_right fun ⟨n, howned, hcur, hge, hlt⟩ =>
    ⟨n, howned, hcur, hge, hlt.trans (Nat.lt_succ_self _)⟩

/-- What is owned is freed where the result is in another block. -/
theorem release (h : Place m₀ m cur owned t) (m' : Mem)
    (hkept : ∀ n, owned = some (.heap n) → m'.heap n = m.heap n) :
    ∃ m'', m'.free owned = some m'' ∧ m''.arg = m'.arg ∧ m''.tmp = m'.tmp ∧
      m''.mallocs = m'.mallocs ∧
      ∀ k, m''.heap k = if owned = some (.heap k) then none else m'.heap k := by
  rcases h.owned with ⟨rfl, -⟩ | ⟨n, rfl, rfl, -⟩
  · exact ⟨m', rfl, rfl, rfl, rfl, fun k => by rw [if_neg (Option.some_ne_none _).symm]⟩
  · obtain ⟨rest, hread⟩ := h.text
    have hlive : m'.heap n = some (t ++ 0 :: rest) := (hkept n rfl).trans hread
    refine ⟨{ m' with heap := Function.update m'.heap n none }, ?_, rfl, rfl, rfl, fun k => ?_⟩
    · simp only [Mem.free, hlive]
      rfl
    · rcases eq_or_ne k n with rfl | hne
      · rw [if_pos rfl]
        exact Function.update_self ..
      · rw [if_neg fun heq => hne (Ptr.heap.inj (Option.some.inj heq)).symm]
        exact Function.update_of_ne hne ..

/-- The heap behind a release, beside the block `new` of the result. -/
theorem heap_release (h : Place m₀ m cur owned t) {m' m'' : Mem} {k : ℕ}
    (hsame : m'.heap k = m.heap k)
    (hheap : m''.heap k = if owned = some (.heap k) then none else m'.heap k) :
    m''.heap k = m₀.heap k ∨ m₀.mallocs ≤ k ∧ m''.heap k = none := by
  rw [hheap, hsame]
  split_ifs with howned
  · rcases h.owned with ⟨hnone, -⟩ | ⟨n, hsome, -, hge, -⟩
    · exact absurd (hnone.symm.trans howned) nofun
    · obtain rfl := Ptr.heap.inj (Option.some.inj (hsome.symm.trans howned))
      exact .inr ⟨hge, rfl⟩
  · exact h.heap k howned

/-- The result is in a new block, and what was owned is freed. -/
theorem grow (h : Place m₀ m cur owned t) {m' : Mem} {rest : Block}
    (harg : m'.arg = m.arg) (hmallocs : m'.mallocs = m.mallocs + 1)
    (hheap : m'.heap = Function.update m.heap m.mallocs (some (u ++ 0 :: rest))) :
    ∃ m'', m'.free owned = some m'' ∧ m''.tmp = m'.tmp ∧ m''.mallocs = m'.mallocs ∧
      Place m₀ m'' (.heap m.mallocs) (some (.heap m.mallocs)) u := by
  have hkept : ∀ n, n ≠ m.mallocs → m'.heap n = m.heap n := fun n hn => by
    rw [hheap, Function.update_of_ne hn]
  obtain ⟨m'', hfree, harg', htmp, hmallocs', hheap'⟩ := h.release m' fun n hn =>
    hkept n fun heq => h.owned_ne (by rw [hn, heq])
  have hmono := h.mallocs
  refine ⟨m'', hfree, htmp, hmallocs', harg'.trans (harg.trans h.arg), by omega, ⟨rest, ?_⟩,
    fun k hk => ?_, .inr ⟨_, rfl, rfl, hmono, by omega⟩⟩
  · show m''.heap m.mallocs = _
    rw [hheap', if_neg h.owned_ne, hheap, Function.update_self]
  · exact h.heap_release (hkept k fun heq => hk (by rw [heq])) (hheap' k)

/-- The result is in a stack buffer, and what was owned is freed. -/
theorem stay (h : Place m₀ m cur owned t) {a : Bool} {b rest : Block} (hb : b = u ++ 0 :: rest) :
    ∃ m'', (m.set (.tmp a) b).free owned = some m'' ∧ m''.tmp = (m.set (.tmp a) b).tmp ∧
      m''.mallocs = m.mallocs ∧ Place m₀ m'' (.tmp a) none u := by
  obtain ⟨m'', hfree, harg, htmp, hmallocs, hheap⟩ :=
    h.release (m.set (.tmp a) b) fun n _ => rfl
  refine ⟨m'', hfree, htmp, hmallocs, harg.trans h.arg, h.mallocs.trans hmallocs.ge, ⟨rest, ?_⟩,
    fun k _ => h.heap_release rfl (hheap k), .inl ⟨rfl, nofun⟩⟩
  show some (m''.tmp a) = _
  rw [htmp, hb]
  exact congrArg some (Function.update_self ..)

/-- The text was given, and is there again if nothing was done to it. -/
theorem eq_of_arg (h : Place m₀ m .arg owned u) {rest : Block} (harg : m₀.arg = t ++ 0 :: rest)
    (ht : 0 ∉ t) (hu : 0 ∉ u) : u = t := by
  obtain ⟨rest', hread⟩ := h.text
  have heq : u ++ 0 :: rest' = t ++ 0 :: rest :=
    (Option.some.inj hread).symm.trans (h.arg.trans harg)
  have hstr : strAt (u ++ 0 :: rest') 0 = some u := strAt_zero hu
  rw [heq, strAt_zero ht] at hstr
  exact (Option.some.inj hstr).symm

theorem strAt (h : Place m₀ m cur owned t) (ht : 0 ∉ t) : m.strAt cur = some t := by
  obtain ⟨rest, hread⟩ := h.text
  rw [Mem.strAt, hread]
  exact strAt_zero ht

end Place

/-! ### One rule -/

section Rules

variable {os : Allocator} {fuel : ℕ} {m₀ m : Mem} {cur : Ptr} {owned : Option Ptr} {t : Text}
  {s : Text × ℕ} {r : Rule}

theorem malloc_refused (hgrant : os.grants m.mallocs = false) (size : ℕ) :
    m.malloc os size = (none, { m with mallocs := m.mallocs + 1 }) :=
  if_neg (by rw [hgrant]; exact Bool.false_ne_true)

/-- A copy into a block that `malloc` has just granted. -/
theorem copy_granted (hgrant : os.grants m.mallocs = true) (hr : r.Ok) (ht : 0 ∉ t)
    (hfuel : t.length < fuel) {rest : Block} (hread : m.read cur = some (t ++ 0 :: rest))
    (hne : cur ≠ .heap m.mallocs) :
    ∃ m₁ m' rest', m.malloc os ((replaceAll r.pattern r.mask t).length + 1) =
        (some (.heap m.mallocs), m₁) ∧
      redactExpandCopy r.pattern r.mask cur (.heap m.mallocs) fuel m₁ 0 0 = some m' ∧
      m'.arg = m.arg ∧ m'.tmp = m.tmp ∧ m'.mallocs = m.mallocs + 1 ∧
      m'.heap = Function.update m.heap m.mallocs
        (some (replaceAll r.pattern r.mask t ++ 0 :: rest')) := by
  let junk := (List.range ((replaceAll r.pattern r.mask t).length + 1)).map (os.junk m.mallocs)
  let m₁ : Mem := { m.set (.heap m.mallocs) junk with mallocs := m.mallocs + 1 }
  have hsrc : m₁.read cur = some ([] ++ (t ++ 0 :: rest)) :=
    ((Mem.read_mallocs _ _ cur).trans (Mem.read_set_of_ne m hne junk)).trans hread
  have hdst : m₁.read (.heap m.mallocs) = some ([] ++ junk) :=
    (Mem.read_mallocs _ _ _).trans (Mem.read_set_self m _ junk)
  obtain ⟨rest', hrun, -⟩ := @redactExpandCopy_spec r.pattern r.mask hr.pattern_ne _ _ hne t fuel m₁
    [] [] junk rest ht hfuel hsrc hdst (by simp [junk])
  exact ⟨m₁, _, rest', if_pos hgrant, hrun, rfl, rfl, rfl, Function.update_idem ..⟩

/-- The state of the heap applier between two rules: the stack buffers are not used. -/
structure HeapOnly.At (m₀ : Mem) (st : HeapOnly) (s : Text × ℕ) : Prop where
  place : Place m₀ st.mem st.cur st.owned s.1
  mallocs : st.mem.mallocs = s.2
  tmp : st.mem.tmp = m₀.tmp
  cur : ∀ a, st.cur ≠ .tmp a

/-- **A rule of the heap applier.** -/
theorem HeapOnly.At.rule {st : HeapOnly} (h : st.At m₀ s) (hr : r.Ok) (ht : 0 ∉ s.1)
    (hfuel : s.1.length < fuel) :
    ∃ st', st.rule os fuel r = some st' ∧ st'.At m₀ (ruleAt os 0 s r) := by
  obtain ⟨t, n⟩ := s
  obtain rfl : st.mem.mallocs = n := h.mallocs
  obtain ⟨rest, hread⟩ := h.place.text
  obtain ⟨k, hlen, hk⟩ :=
    @redactExpandLen_spec r.pattern r.mask t hr.pattern_ne fuel ht hfuel rest
  rw [HeapOnly.rule, if_neg (by simp [hr.pattern_ne, hr.mask_ne]), hread]
  simp only [Option.bind_eq_bind, Option.bind_some, hlen, ruleAt, ← hk]
  by_cases hzero : k = 0
  · rw [if_pos hzero, if_pos hzero]
    exact ⟨st, rfl, h⟩
  rw [if_neg hzero, if_neg hzero, if_neg (Nat.not_succ_le_zero _)]
  cases hgrant : os.grants st.mem.mallocs with
  | false =>
    rw [malloc_refused hgrant]
    exact ⟨{ st with mem := { st.mem with mallocs := st.mem.mallocs + 1 } }, rfl,
      h.place.refused, rfl, h.tmp, h.cur⟩
  | true =>
    obtain ⟨m₁, m', rest', hmalloc, hrun, harg, htmp, hmallocs, hheap⟩ :=
      copy_granted hgrant hr ht hfuel hread h.place.ne_fresh
    obtain ⟨m'', hfree, htmp', hmallocs', hplace⟩ := h.place.grow harg hmallocs hheap
    rw [hmalloc]
    simp only [hrun, Option.bind_some, hfree]
    exact ⟨⟨m'', .heap st.mem.mallocs, some (.heap st.mem.mallocs)⟩, rfl, hplace,
      hmallocs'.trans hmallocs, htmp'.trans (htmp.trans h.tmp), nofun⟩

/-- The state of the ping-pong applier between two rules: what is read is not the stack buffer that
is written next. -/
structure PingPong.At (m₀ : Mem) (st : PingPong) (s : Text × ℕ) : Prop where
  place : Place m₀ st.mem st.cur st.owned s.1
  mallocs : st.mem.mallocs = s.2
  tmps : ∀ a, (st.mem.tmp a).length = redactKvTmpLen
  other : st.cur ≠ .tmp st.alt

/-- What is owned is what `cur` points to, so that it is freed when it is superseded. -/
theorem Place.release_eq {st : PingPong} (h : Place m₀ st.mem st.cur st.owned t) {m' m'' : Mem}
    (hfree : m'.free st.owned = some m'') : st.release m' = some (m'', none) := by
  rw [PingPong.release]
  rcases h.owned with ⟨hnone, -⟩ | ⟨n, hsome, hcur, -⟩
  · rw [hnone] at hfree ⊢
    rw [if_neg (Option.some_ne_none _).symm, Option.some.inj hfree]
  · rw [if_pos (hsome.trans (by rw [hcur])), hfree]
    rfl

/-- **A rule of the ping-pong applier.** -/
theorem PingPong.At.rule {st : PingPong} (h : st.At m₀ s) (hr : r.Ok) (ht : 0 ∉ s.1)
    (hfuel : s.1.length < fuel) :
    ∃ st', st.rule os fuel r = some st' ∧ st'.At m₀ (ruleAt os redactKvTmpLen s r) := by
  obtain ⟨t, n⟩ := s
  obtain rfl : st.mem.mallocs = n := h.mallocs
  obtain ⟨rest, hread⟩ := h.place.text
  obtain ⟨k, hlen, hk⟩ :=
    @redactExpandLen_spec r.pattern r.mask t hr.pattern_ne fuel ht hfuel rest
  rw [PingPong.rule, if_neg (by simp [hr.pattern_ne, hr.mask_ne]), redactApplyOneBuf, hread]
  simp only [Option.bind_eq_bind, Option.bind_some, hlen, ruleAt, ← hk]
  by_cases hzero : k = 0
  · rw [if_pos hzero, if_pos hzero]
    exact ⟨st, rfl, h⟩
  rw [if_neg hzero, if_neg hzero]
  by_cases hfits : (replaceAll r.pattern r.mask t).length + 1 ≤ redactKvTmpLen
  · obtain ⟨rest', hrun, hsize⟩ := redactExpandCopy_spec hr.pattern_ne h.other t fuel st.mem [] []
      (st.mem.tmp st.alt) rest ht hfuel hread rfl (by rw [h.tmps]; exact hfits)
    obtain ⟨m'', hfree, htmp, hmallocs, hplace⟩ :=
      h.place.stay (a := st.alt) (b := replaceAll r.pattern r.mask t ++ 0 :: rest') rfl
    rw [if_pos hfits, if_pos hfits]
    simp only [List.nil_append, List.length_nil] at hrun
    simp only [hrun, Option.bind_some, Option.pure_def, h.place.release_eq hfree]
    refine ⟨⟨m'', .tmp st.alt, none, !st.alt⟩, rfl, hplace, hmallocs, fun a => ?_, by simp⟩
    rw [htmp]
    rcases eq_or_ne a st.alt with rfl | hne
    · simp only [Mem.set, Function.update_self, hsize, h.tmps]
    · simp only [Mem.set, Function.update_of_ne hne, h.tmps]
  · rw [if_neg hfits, if_neg hfits]
    cases hgrant : os.grants st.mem.mallocs with
    | false =>
      rw [malloc_refused hgrant]
      exact ⟨{ st with mem := { st.mem with mallocs := st.mem.mallocs + 1 } }, rfl,
        h.place.refused, rfl, h.tmps, h.other⟩
    | true =>
      obtain ⟨m₁, m', rest', hmalloc, hrun, harg, htmp, hmallocs, hheap⟩ :=
        copy_granted hgrant hr ht hfuel hread h.place.ne_fresh
      obtain ⟨m'', hfree, htmp', hmallocs', hplace⟩ := h.place.grow harg hmallocs hheap
      rw [hmalloc]
      simp only [hrun, Option.bind_some, Option.pure_def, h.place.release_eq hfree]
      exact ⟨⟨m'', .heap st.mem.mallocs, some (.heap st.mem.mallocs), st.alt⟩, rfl, hplace,
        hmallocs'.trans hmallocs, fun a => by rw [htmp', htmp, h.tmps], nofun⟩

end Rules

/-! ### All rules -/

/-- Both loops over the rules: what one rule does, and what all do. -/
theorem foldlM_redactedBy {S : Type} {step : S → Rule → Option S} {I : S → Text × ℕ → Prop}
    {os : Allocator} {stack fuel : ℕ}
    (hstep : ∀ {st r s}, I st s → r.Ok → 0 ∉ s.1 → s.1.length < fuel →
      ∃ st', step st r = some st' ∧ I st' (ruleAt os stack s r))
    {rules : List Rule} (hok : ∀ r ∈ rules, r.Ok) {s : Text × ℕ} (ht : 0 ∉ s.1)
    (hfuel : Bounded os stack fuel rules s) {st : S} (h : I st s) :
    ∃ st', rules.foldlM step st = some st' ∧ I st' (redactedBy os stack rules s) := by
  induction rules generalizing s st with
  | nil => exact ⟨st, rfl, h⟩
  | cons r rules ih =>
    have hr := hok r List.mem_cons_self
    obtain ⟨st₁, hrun, h₁⟩ := hstep h hr ht (hfuel 0)
    obtain ⟨st', hrest, h'⟩ := ih (fun r hr => hok r (List.mem_cons_of_mem _ hr))
      (zero_notMem_ruleAt hr ht) (fun k => hfuel (k + 1)) h₁
    refine ⟨st', ?_, h'⟩
    rw [List.foldlM_cons, hrun]
    exact hrest

section Appliers

variable (os : Allocator) {fuel : ℕ} {rules : List Rule} {m : Mem}

/-- **`redact_apply_all_locked`,** whatever `malloc` answers. -/
theorem redactApplyAllLocked_any (hok : ∀ r ∈ rules, r.Ok) {t : CString}
    (hfuel : Bounded os redactKvTmpLen fuel rules (t.val, m.mallocs))
    (htmps : ∀ a, (m.tmp a).length = redactKvTmpLen) {rest : Block}
    (harg : m.arg = t.val ++ 0 :: rest) :
    ∃ cur owned m', redactApplyAllLocked os fuel rules m = some (cur, owned, m') ∧
      Place m m' cur owned (redactedBy os redactKvTmpLen rules (t.val, m.mallocs)).1 ∧
      m'.mallocs = (redactedBy os redactKvTmpLen rules (t.val, m.mallocs)).2 := by
  obtain ⟨st, hrun, hst⟩ := foldlM_redactedBy (I := fun st s => PingPong.At m st s)
    (fun h => h.rule) hok t.property hfuel
    (show PingPong.At m { mem := m } _ from ⟨.start harg, rfl, htmps, nofun⟩)
  refine ⟨st.cur, st.owned, st.mem, ?_, hst.place, hst.mallocs⟩
  rw [redactApplyAllLocked, hrun]
  rfl

/-- **`redact_apply_all_heap_locked`,** whatever `malloc` answers. -/
theorem redactApplyAllHeapLocked_any (hok : ∀ r ∈ rules, r.Ok) {t : CString}
    (hfuel : Bounded os 0 fuel rules (t.val, m.mallocs)) {rest : Block}
    (harg : m.arg = t.val ++ 0 :: rest) :
    ∃ owned m' cur, redactApplyAllHeapLocked os fuel rules m = some (owned, m') ∧
      Place m m' cur owned (redactedBy os 0 rules (t.val, m.mallocs)).1 ∧
      m'.mallocs = (redactedBy os 0 rules (t.val, m.mallocs)).2 ∧ m'.tmp = m.tmp ∧
      (owned = none → cur = .arg) := by
  obtain ⟨st, hrun, hst⟩ := foldlM_redactedBy (I := fun st s => HeapOnly.At m st s)
    (fun h => h.rule) hok t.property hfuel
    (show HeapOnly.At m { mem := m } _ from ⟨.start harg, rfl, rfl, nofun⟩)
  refine ⟨st.owned, st.mem, st.cur, ?_, hst.place, hst.mallocs, hst.tmp, fun hnone => ?_⟩
  · rw [redactApplyAllHeapLocked, hrun]
    rfl
  · rcases hst.place.owned with ⟨-, hne⟩ | ⟨n, hsome, -⟩
    · cases hcur : st.cur with
      | arg => rfl
      | tmp a => exact absurd hcur (hst.cur a)
      | heap n => exact absurd hcur (hne n)
    · exact absurd (hsome.symm.trans hnone) nofun

end Appliers

end Redact
end Clogx
