/-
# The redaction of a structured record

`redact_kv_record_if_needed` of `core/log.c`, and the end of
`logger_write_kv_internal`: the message goes through the ping-pong applier, every
string value through the heap applier, the record is dispatched with the pointers
they return, and behind it the blocks they own are freed.

The blocks of the message and of the values are told apart by the number of the
`malloc` that made them (`Allocs`): what one applier does leaves the blocks of the
others alone, and the frees at the end are of different blocks.
-/

import Clogx.Formatter.Json
import Clogx.Redact.Refusal

namespace Clogx
namespace Redact

open CLib
open Formatter (Kv KvVal Record)

variable {φ : Type}

/-! ### The code -/

/-- What the call leaves for the caller: the message pointer, the block to free for it, and for each
value the block that replaces it. -/
structure View where
  message : Ptr
  ownedMsg : Option Ptr
  ownedStr : List (Option Ptr)

/-- A value: only a string is looked at. -/
def redactValue (os : Allocator) (fuel : ℕ) (rules : List Rule) (m : Mem) :
    KvVal φ → Option (Option Ptr × Mem)
  | .str (some s) => redactApplyAllHeapLocked os fuel rules { m with arg := s.val ++ [0] }
  | _ => some (none, m)

/-- The loop over the values. -/
def redactValues (os : Allocator) (fuel : ℕ) (rules : List Rule) :
    List (Kv φ) → Mem → Option (List (Option Ptr) × Mem)
  | [], m => some ([], m)
  | kv :: kvs, m => do
    let (rep, m) ← redactValue os fuel rules m kv.val
    let (reps, m) ← redactValues os fuel rules kvs m
    return (rep :: reps, m)

/-- `redact_kv_record_if_needed`. -/
def redactKvRecordIfNeeded (os : Allocator) (fuel : ℕ) (rules : List Rule) (message : CString)
    (kvs : List (Kv φ)) (m : Mem) : Option (View × Mem) :=
  if rules.length = 0 then some (⟨.arg, none, kvs.map fun _ => none⟩, m)
  else do
    let (cur, owned, m) ←
      redactApplyAllLocked os fuel rules { m with arg := message.val ++ [0] }
    let (reps, m) ← redactValues os fuel rules kvs m
    return (⟨cur, owned, reps⟩, m)

/-- The string at a pointer. -/
def Mem.cstringAt (m : Mem) (p : Ptr) : Option CString := do
  let t ← m.strAt p
  if h : 0 ∉ t then some ⟨t, h⟩ else none

/-- The message that the dispatch reads: the one given, or what its pointer was set to. -/
def View.readMessage (v : View) (m : Mem) (message : CString) : Option CString :=
  if v.message = .arg then some message else m.cstringAt v.message

/-- A value that the dispatch reads. -/
def readValue (m : Mem) (rep : Option Ptr) (kv : Kv φ) : Option (Kv φ) :=
  match rep with
  | none => some kv
  | some p => (m.cstringAt p).map fun s => { kv with val := .str (some s) }

/-- The values that the dispatch reads. -/
def readValues (m : Mem) : List (Option Ptr) → List (Kv φ) → Option (List (Kv φ))
  | rep :: reps, kv :: kvs => do
    let kv ← readValue m rep kv
    let kvs ← readValues m reps kvs
    return kv :: kvs
  | _, _ => some []

/-- The frees behind the dispatch. -/
def freeAll (m : Mem) : List (Option Ptr) → Option Mem
  | [] => some m
  | p :: ps => do
    let m ← m.free p
    freeAll m ps

/-- The end of `logger_write_kv_internal`: the record that is dispatched, and the memory
afterwards. -/
def writeKv (os : Allocator) (fuel : ℕ) (rules : List Rule) (record : Record φ)
    (m : Mem) : Option (Record φ × Mem) := do
  let message ← record.message
  let (v, m) ← redactKvRecordIfNeeded os fuel rules message record.kv m
  let message ← v.readMessage m message
  let kvs ← readValues m v.ownedStr record.kv
  let m ← freeAll m (v.ownedMsg :: v.ownedStr)
  return ({ record with message := some message, kv := kvs }, m)

theorem cstringAt_eq {m : Mem} {p : Ptr} {u : Text} {rest : Block}
    (h : m.read p = some (u ++ 0 :: rest)) (hu : 0 ∉ u) : m.cstringAt p = some ⟨u, hu⟩ := by
  have hstr : m.strAt p = some u := by
    rw [Mem.strAt, h]
    exact strAt_zero hu
  rw [Mem.cstringAt, hstr]
  exact dif_pos hu

/-! ### Blocks -/

/-- The heap blocks among some pointers. -/
def blocks (ps : List (Option Ptr)) : List ℕ :=
  ps.filterMap fun p => match p with
    | some (.heap n) => some n
    | _ => none

/-- A pointer that the caller frees: null, or a block. -/
def Owns (p : Option Ptr) : Prop := p = none ∨ ∃ n, p = some (.heap n)

/-- A placed text owns at most one block. -/
theorem Place.owns {m m' : Mem} {cur : Ptr} {owned : Option Ptr} {u : Text}
    (h : Place m m' cur owned u) : Owns owned :=
  h.owned.imp And.left fun ⟨n, howned, _⟩ => ⟨n, howned⟩

/-- **From `m` to `m'` the blocks `ns` were allocated,** and are live. -/
structure Allocs (m m' : Mem) (ns : List ℕ) : Prop where
  mallocs : m.mallocs ≤ m'.mallocs
  new : ∀ n ∈ ns, m.mallocs ≤ n ∧ n < m'.mallocs
  live : ∀ n ∈ ns, m'.heap n ≠ none
  old : ∀ k, k ∉ ns → m'.heap k = m.heap k
  nodup : ns.Nodup

theorem Allocs.refl (m : Mem) : Allocs m m [] :=
  ⟨Nat.le_refl _, fun _ hn => absurd hn List.not_mem_nil, fun _ hn => absurd hn List.not_mem_nil,
    fun _ _ => rfl, List.nodup_nil⟩

/-- What is not on the heap does not matter. -/
theorem Allocs.of_heap {m₀ m m' : Mem} {ns : List ℕ} (h : Allocs m₀ m' ns) (hheap : m₀.heap = m.heap)
    (hmallocs : m₀.mallocs = m.mallocs) : Allocs m m' ns :=
  ⟨hmallocs ▸ h.mallocs, hmallocs ▸ h.new, h.live, hheap ▸ h.old, h.nodup⟩

/-- Two stretches of allocations compose. -/
theorem Allocs.trans {m m₁ m' : Mem} {ns ns' : List ℕ} (h : Allocs m m₁ ns)
    (h' : Allocs m₁ m' ns') : Allocs m m' (ns ++ ns') where
  mallocs := h.mallocs.trans h'.mallocs
  new n hn := by
    rcases List.mem_append.1 hn with hn | hn
    · exact ⟨(h.new n hn).1, (h.new n hn).2.trans_le h'.mallocs⟩
    · exact ⟨h.mallocs.trans (h'.new n hn).1, (h'.new n hn).2⟩
  live n hn := by
    rcases List.mem_append.1 hn with hn | hn
    · rw [h'.old n fun hn' => absurd (h'.new n hn').1 (not_le.2 (h.new n hn).2)]
      exact h.live n hn
    · exact h'.live n hn
  old k hk := by
    simp only [List.mem_append, not_or] at hk
    rw [h'.old k hk.2, h.old k hk.1]
  nodup := List.nodup_append.2 ⟨h.nodup, h'.nodup, fun n hn n' hn' heq => by
    have hlt := (h.new n hn).2
    have hge := (h'.new n' hn').1
    omega⟩

/-- No block has the number of a `malloc` to come. -/
def Mem.Fresh (m : Mem) : Prop := ∀ n, m.mallocs ≤ n → m.heap n = none

theorem Allocs.fresh {m m' : Mem} {ns : List ℕ} (h : Allocs m m' ns) (hfresh : m.Fresh) :
    m'.Fresh := by
  intro n hn
  rw [h.old n fun hmem => absurd (h.new n hmem).2 (not_lt.2 hn)]
  exact hfresh n (h.mallocs.trans hn)

/-- What an applier has allocated is what it owns. -/
theorem Place.allocs {m m' : Mem} {cur : Ptr} {owned : Option Ptr} {u : Text}
    (h : Place m m' cur owned u) (hfresh : m.Fresh) : Allocs m m' (blocks [owned]) := by
  have hold : ∀ k, owned ≠ some (.heap k) → m'.heap k = m.heap k := fun k hk =>
    (h.heap k hk).elim id fun ⟨hge, hnone⟩ => hnone.trans (hfresh k hge).symm
  obtain ⟨rest, hread⟩ := h.text
  rcases h.owned with ⟨rfl, -⟩ | ⟨n, rfl, rfl, hge, hlt⟩
  · exact ⟨h.mallocs, fun n hn => absurd hn List.not_mem_nil, fun n hn => absurd hn List.not_mem_nil,
      fun k _ => hold k nofun, List.nodup_nil⟩
  · have hblocks : blocks [some (.heap n)] = [n] := rfl
    rw [hblocks]
    refine ⟨h.mallocs, fun k hk => ?_, fun k hk => ?_, fun k hk => hold k ?_,
      List.nodup_singleton n⟩
    · rw [List.mem_singleton.1 hk]
      exact ⟨hge, hlt⟩
    · rw [List.mem_singleton.1 hk]
      exact ne_of_eq_of_ne hread (Option.some_ne_none _)
    · rintro heq
      exact hk (List.mem_singleton.2 (Ptr.heap.inj (Option.some.inj heq)).symm)

/-- **Each block is freed once,** and nothing else. -/
theorem freeAll_eq {ps : List (Option Ptr)} (hps : ∀ p ∈ ps, Owns p) :
    ∀ {m : Mem}, (blocks ps).Nodup → (∀ n ∈ blocks ps, m.heap n ≠ none) →
      ∃ m', freeAll m ps = some m' ∧ m'.mallocs = m.mallocs ∧
        ∀ k, m'.heap k = if k ∈ blocks ps then none else m.heap k := by
  induction ps with
  | nil => exact fun {m} _ _ => ⟨m, rfl, rfl, fun k => rfl⟩
  | cons p ps ih =>
    intro m hnodup hlive
    have hps' : ∀ p ∈ ps, Owns p := fun p hp => hps p (List.mem_cons_of_mem _ hp)
    rcases hps p List.mem_cons_self with rfl | ⟨n, rfl⟩
    · exact ih hps' hnodup hlive
    · have hblocks : blocks (some (.heap n) :: ps) = n :: blocks ps := rfl
      rw [hblocks] at hnodup hlive ⊢
      obtain ⟨hnot, hnodup⟩ := List.nodup_cons.1 hnodup
      obtain ⟨b, hb⟩ := Option.ne_none_iff_exists'.1 (hlive n List.mem_cons_self)
      have hlive' : ∀ k ∈ blocks ps, Function.update m.heap n none k ≠ none := by
        intro k hk
        have hne : k ≠ n := by
          rintro rfl
          exact hnot hk
        rw [Function.update_of_ne hne]
        exact hlive k (List.mem_cons_of_mem _ hk)
      obtain ⟨m', hrest, hmallocs, hheap⟩ :=
        ih hps' (m := { m with heap := Function.update m.heap n none }) hnodup hlive'
      refine ⟨m', ?_, hmallocs, fun k => ?_⟩
      · rw [freeAll, Mem.free, hb]
        exact hrest
      · rw [hheap k]
        rcases eq_or_ne k n with rfl | hne
        · rw [if_neg hnot, if_pos List.mem_cons_self]
          exact Function.update_self ..
        · simp only [List.mem_cons, hne, false_or, Function.update_of_ne hne]

/-! ### The record -/

section Record

variable {os : Allocator} {fuel : ℕ} {rules : List Rule} {m m' : Mem}

/-- **What becomes of a value,** between `n` and `n'` calls of `malloc`: a string is redacted rule by
rule, each of which asks for a block, and everything else stays. -/
inductive ValueBy (os : Allocator) (rules : List Rule) : KvVal φ → ℕ → KvVal φ → ℕ → Prop
  | str {s u : CString} {n n' : ℕ} : redactedBy os 0 rules (s.val, n) = (u.val, n') →
      ValueBy os rules (.str (some s)) n (.str (some u)) n'
  | other {v : KvVal φ} {n : ℕ} : (∀ s, v ≠ .str (some s)) → ValueBy os rules v n v n

/-- The pairs in turn, which keep their keys. -/
inductive PairsBy (os : Allocator) (rules : List Rule) : List (Kv φ) → ℕ → List (Kv φ) → ℕ → Prop
  | nil (n : ℕ) : PairsBy os rules [] n [] n
  | cons {key : Option CString} {v v' : KvVal φ} {kvs kvs' : List (Kv φ)} {n n₁ n' : ℕ} :
      ValueBy os rules v n v' n₁ → PairsBy os rules kvs n₁ kvs' n' →
      PairsBy os rules (⟨key, v⟩ :: kvs) n (⟨key, v'⟩ :: kvs') n'

/-- The bound on the texts of a value. -/
def valueRoom (rules : List Rule) : KvVal φ → ℕ
  | .str (some s) => room rules s.val.length
  | _ => 0

/-- One value: what replaces it is a new block with the text, or nothing. -/
theorem redactValue_any (os : Allocator) (hok : ∀ r ∈ rules, r.Ok) (hfresh : m.Fresh)
    (key : Option CString) (v : KvVal φ) (hfuel : valueRoom rules v ≤ fuel) :
    ∃ rep m', redactValue os fuel rules m v = some (rep, m') ∧
      Owns rep ∧ m'.tmp = m.tmp ∧ Allocs m m' (blocks [rep]) ∧
      ∃ v', ValueBy os rules v m.mallocs v' m'.mallocs ∧
        ∀ m'' : Mem, (∀ n ∈ blocks [rep], m''.heap n = m'.heap n) →
          readValue m'' rep ⟨key, v⟩ = some ⟨key, v'⟩ := by
  by_cases hstr : ∃ s, v = .str (some s)
  · obtain ⟨s, rfl⟩ := hstr
    obtain ⟨owned, m', cur, hrun, hplace, hmallocs, htmp, hcur⟩ :=
      redactApplyAllHeapLocked_any os (m := { m with arg := s.val ++ [0] }) hok
        (bounded_room hok hfuel) rfl
    have hu := zero_notMem_redactedBy os 0 hok (s.val, m.mallocs) s.property
    refine ⟨owned, m', hrun, hplace.owns, htmp, (hplace.allocs hfresh).of_heap rfl rfl,
      .str (some ⟨_, hu⟩), .str (Prod.ext rfl hmallocs.symm), fun m'' hkept => ?_⟩
    rcases hplace.owned with ⟨rfl, -⟩ | ⟨n, rfl, rfl, -⟩
    · -- nothing replaces the value, so the text is the one given
      obtain rfl := hcur rfl
      have heq : (⟨_, hu⟩ : CString) = s := Subtype.ext (hplace.eq_of_arg rfl s.property hu)
      rw [heq]
      rfl
    · obtain ⟨rest, hread⟩ := hplace.text
      have hread'' : m''.read (.heap n) = _ := (hkept n (List.mem_singleton.2 rfl)).trans hread
      rw [readValue, cstringAt_eq hread'' hu]
      rfl
  · have hother : ∀ s, v ≠ .str (some s) := fun s heq => hstr ⟨s, heq⟩
    have hskip : redactValue os fuel rules m v = some (none, m) := by
      rw [redactValue]
      exact hother
    exact ⟨none, m, hskip, .inl rfl, rfl, .refl m, v, .other hother, fun _ _ => rfl⟩

theorem blocks_cons (p : Option Ptr) (ps : List (Option Ptr)) :
    blocks (p :: ps) = blocks [p] ++ blocks ps := by
  rw [← List.singleton_append]
  exact List.filterMap_append ..

/-- **All values.** -/
theorem redactValues_any (os : Allocator) (hok : ∀ r ∈ rules, r.Ok) (kvs : List (Kv φ)) :
    ∀ {m : Mem}, m.Fresh → (∀ kv ∈ kvs, valueRoom rules kv.val ≤ fuel) →
    ∃ reps m', redactValues os fuel rules kvs m = some (reps, m') ∧
      (∀ p ∈ reps, Owns p) ∧ m'.tmp = m.tmp ∧
      Allocs m m' (blocks reps) ∧
      ∃ kvs', PairsBy os rules kvs m.mallocs kvs' m'.mallocs ∧
        ∀ m'' : Mem, (∀ n ∈ blocks reps, m''.heap n = m'.heap n) →
          readValues m'' reps kvs = some kvs' := by
  induction kvs with
  | nil =>
    intro m _ _
    exact ⟨[], m, rfl, fun p hp => absurd hp List.not_mem_nil, rfl, .refl m, [], .nil _,
      fun _ _ => rfl⟩
  | cons kv kvs ih =>
    intro m hfresh hfuel
    obtain ⟨key, v⟩ := kv
    obtain ⟨rep, m₁, hrun, hrep, htmp, hallocs, v', hvalue, hread⟩ :=
      redactValue_any os hok hfresh key v (hfuel ⟨key, v⟩ List.mem_cons_self)
    obtain ⟨reps, m', hrest, hreps, htmp', hallocs', kvs', hpairs, hreads⟩ :=
      ih (hallocs.fresh hfresh) fun kv hkv => hfuel kv (List.mem_cons_of_mem _ hkv)
    refine ⟨rep :: reps, m', ?_, ?_, htmp'.trans htmp, ?_, ⟨key, v'⟩ :: kvs',
      .cons hvalue hpairs, ?_⟩
    · rw [redactValues, hrun]
      simp only [Option.bind_eq_bind, Option.bind_some, hrest]
      rfl
    · rintro p hp
      rcases List.mem_cons.1 hp with rfl | hp
      · exact hrep
      · exact hreps p hp
    · rw [blocks_cons]
      exact hallocs.trans hallocs'
    · intro m'' hkept
      rw [blocks_cons] at hkept
      have hfirst : readValue m'' rep ⟨key, v⟩ = some ⟨key, v'⟩ := by
        refine hread m'' fun n hn => ?_
        rw [hkept n (List.mem_append_left _ hn)]
        exact hallocs'.old n fun hn' =>
          absurd (hallocs'.new n hn').1 (not_le.2 (hallocs.new n hn).2)
      have hothers := hreads m'' fun n hn => hkept n (List.mem_append_right _ hn)
      rw [readValues, hfirst]
      simp only [Option.bind_eq_bind, Option.bind_some, hothers]
      rfl

theorem pairsBy_nil (kvs : List (Kv φ)) (n : ℕ) : PairsBy os [] kvs n kvs n := by
  induction kvs with
  | nil => exact .nil n
  | cons kv kvs ih =>
    refine .cons ?_ ih
    by_cases hstr : ∃ s, kv.val = .str (some s)
    · obtain ⟨s, heq⟩ := hstr
      rw [heq]
      exact .str rfl
    · exact .other fun s heq => hstr ⟨s, heq⟩

theorem readValues_none (m : Mem) (kvs : List (Kv φ)) :
    readValues m (kvs.map fun _ => none) kvs = some kvs := by
  induction kvs with
  | nil => rfl
  | cons kv kvs ih =>
    rw [List.map_cons, readValues, ih]
    rfl

theorem blocks_none (kvs : List (Kv φ)) : blocks (none :: kvs.map fun _ => none) = [] := by
  rw [blocks, List.filterMap_eq_nil_iff]
  intro p hp
  have hp : p = none := by
    rcases List.mem_cons.1 hp with rfl | hp
    · rfl
    · obtain ⟨_, -, rfl⟩ := List.mem_map.1 hp
      rfl
  rw [hp]

/-- Without rules the record is dispatched as it is. -/
theorem redactKvRecordIfNeeded_nil (os : Allocator) (fuel : ℕ) (m : Mem) (message : CString)
    (kvs : List (Kv φ)) : ∃ v, redactKvRecordIfNeeded os fuel [] message kvs m = some (v, m) ∧
      (∀ p ∈ v.ownedMsg :: v.ownedStr, Owns p) ∧
      Allocs m m (blocks (v.ownedMsg :: v.ownedStr)) ∧
      v.readMessage m message = some message ∧ readValues m v.ownedStr kvs = some kvs := by
  refine ⟨⟨.arg, none, kvs.map fun _ => none⟩, rfl, fun p hp => .inl ?_, ?_, rfl,
    readValues_none m kvs⟩
  · rcases List.mem_cons.1 hp with rfl | hp
    · rfl
    · obtain ⟨_, -, rfl⟩ := List.mem_map.1 hp
      rfl
  · rw [blocks_none]
    exact .refl m

/-- **`redact_kv_record_if_needed`,** and what the dispatch reads behind it. -/
theorem redactKvRecordIfNeeded_any (os : Allocator) (hok : ∀ r ∈ rules, r.Ok) (hfresh : m.Fresh)
    (htmps : ∀ a, (m.tmp a).length = redactKvTmpLen) (message : CString) (kvs : List (Kv φ))
    (hfuel : room rules message.val.length ≤ fuel)
    (hfuel' : ∀ kv ∈ kvs, valueRoom rules kv.val ≤ fuel) :
    ∃ v m', redactKvRecordIfNeeded os fuel rules message kvs m = some (v, m') ∧
      (∀ p ∈ v.ownedMsg :: v.ownedStr, Owns p) ∧
      Allocs m m' (blocks (v.ownedMsg :: v.ownedStr)) ∧
      ∃ u kvs' n, v.readMessage m' message = some u ∧ readValues m' v.ownedStr kvs = some kvs' ∧
        redactedBy os redactKvTmpLen rules (message.val, m.mallocs) = (u.val, n) ∧
        PairsBy os rules kvs n kvs' m'.mallocs := by
  by_cases hnone : rules.length = 0
  · obtain rfl := List.length_eq_zero_iff.1 hnone
    obtain ⟨v, hrun, howned, hallocs, hmessage, hvalues⟩ :=
      redactKvRecordIfNeeded_nil os fuel m message kvs
    exact ⟨v, m, hrun, howned, hallocs, message, kvs, m.mallocs, hmessage, hvalues, rfl,
      pairsBy_nil kvs _⟩
  · rw [redactKvRecordIfNeeded, if_neg hnone]
    obtain ⟨cur, owned, m₁, hrun, hplace, hmallocs⟩ :=
      redactApplyAllLocked_any os (m := { m with arg := message.val ++ [0] }) hok
        (bounded_room hok hfuel) htmps rfl
    have hallocs : Allocs m m₁ (blocks [owned]) := (hplace.allocs hfresh).of_heap rfl rfl
    obtain ⟨reps, m', hvalues, hreps, htmp, hallocs', kvs', hpairs, hreads⟩ :=
      redactValues_any os hok kvs (hallocs.fresh hfresh) hfuel'
    have hu := zero_notMem_redactedBy os redactKvTmpLen hok (message.val, m.mallocs)
      message.property
    refine ⟨⟨cur, owned, reps⟩, m', ?_, ?_, ?_, ⟨_, hu⟩, kvs', m₁.mallocs, ?_,
      hreads m' fun n _ => rfl, Prod.ext rfl hmallocs.symm, hpairs⟩
    · rw [hrun]
      simp only [Option.bind_eq_bind, Option.bind_some, hvalues]
      rfl
    · rintro p hp
      rcases List.mem_cons.1 hp with rfl | hp
      · exact hplace.owns
      · exact hreps p hp
    · rw [blocks_cons]
      exact hallocs.trans hallocs'
    · rw [View.readMessage]
      obtain ⟨rest, hread⟩ := hplace.text
      split_ifs with harg
      · have hcur : cur = .arg := harg
        subst hcur
        exact congrArg some (Subtype.ext (hplace.eq_of_arg rfl message.property hu)).symm
      · suffices hread' : m'.read cur = m₁.read cur from cstringAt_eq (hread'.trans hread) hu
        -- the loop over the values leaves the block of the message and the stack buffers alone
        rcases hplace.owned with ⟨-, hne⟩ | ⟨n, rfl, rfl, -, hlt⟩
        · cases cur with
          | arg => exact absurd rfl harg
          | tmp a => exact congrArg (fun tmp => some (tmp a)) htmp
          | heap n => exact absurd rfl (hne n)
        · exact hallocs'.old n fun hn => absurd (hallocs'.new n hn).1 (not_le.2 hlt)

/-- **A structured record is redacted whatever `malloc` answers.**  The call reads no freed or foreign
memory; the record that is dispatched differs from the one given in its message and its string
values only; the message, and then the values in their order, go through the rules one by one,
where a rule is skipped exactly if it needs a block and this very block is refused (`ruleAt`); and
when the call returns, every block it allocated has been freed, once. -/
theorem structured_redaction (cs : List TableCall) (record : Record φ) (message : CString)
    (hmessage : record.message = some message) (os : Allocator) (m : Mem) (hfresh : m.Fresh)
    (htmps : ∀ a, (m.tmp a).length = redactKvTmpLen) (fuel : ℕ)
    (hfuel : room (table cs) message.val.length ≤ fuel)
    (hfuel' : ∀ kv ∈ record.kv, valueRoom (table cs) kv.val ≤ fuel) :
    ∃ u kvs m' n, writeKv os fuel (table cs) record m =
        some ({ record with message := some u, kv := kvs }, m') ∧
      redactedBy os redactKvTmpLen (table cs) (message.val, m.mallocs) = (u.val, n) ∧
      PairsBy os (table cs) record.kv n kvs m'.mallocs ∧ m'.heap = m.heap := by
  obtain ⟨v, m₁, hrun, hptrs, hallocs, u, kvs, n, hu, hkvs, hmsg, hpairs⟩ :=
    redactKvRecordIfNeeded_any os (ok_table cs) hfresh htmps message record.kv hfuel hfuel'
  obtain ⟨m', hfree, hmallocs, hheap⟩ := freeAll_eq hptrs hallocs.nodup hallocs.live
  refine ⟨u, kvs, m', n, ?_, hmsg, hmallocs ▸ hpairs, funext fun k => ?_⟩
  · rw [writeKv, hmessage]
    simp only [Option.bind_eq_bind, Option.bind_some, hrun, hu, hkvs, hfree]
    rfl
  · rw [hheap k]
    split_ifs with hk
    · exact (hfresh k (hallocs.new k hk).1).symm
    · exact hallocs.old k hk

end Record

/-- The rules `ab` and `cd` on a record whose first block is refused and whose second is granted.  The
message needs no block and is redacted; in the value `abcd` the rule `ab` is skipped and the rule
`cd` applied. -/
theorem structured_redaction_refused :
    let record : CString → CString → Record Empty := fun message value =>
      ⟨0, none, none, none, none, some message, 2, 0, 0, 0, 0, 0,
        [⟨some ⟨str "k", by decide⟩, .str (some value)⟩]⟩
    ∃ m', writeKv ⟨fun n => n == 1, fun _ _ => 7⟩ 256
        (table [.add (some ⟨str "ab", by decide⟩) none, .add (some ⟨str "cd", by decide⟩) none])
        (record ⟨str "xab", by decide⟩ ⟨str "abcd", by decide⟩)
        ⟨[], fun _ => List.replicate redactKvTmpLen 0, fun _ => none, 0⟩ =
          some (record ⟨str "x***", by decide⟩ ⟨str "ab***", by decide⟩, m') ∧
      m'.mallocs = 2 ∧ m'.heap = fun _ => none := by
  intro record
  obtain ⟨u, kvs, m', n, hrun, hmsg, hpairs, hheap⟩ := structured_redaction
    [.add (some ⟨str "ab", by decide⟩) none, .add (some ⟨str "cd", by decide⟩) none]
    (record ⟨str "xab", by decide⟩ ⟨str "abcd", by decide⟩)
    ⟨str "xab", by decide⟩ rfl ⟨fun n => n == 1, fun _ _ => 7⟩
    ⟨[], fun _ => List.replicate redactKvTmpLen 0, fun _ => none, 0⟩ (fun _ _ => rfl)
    (fun _ => List.length_replicate) 256 (by decide)
    (fun kv hkv => by rw [List.mem_singleton.1 hkv]; decide)
  have hmsg' := hmsg.symm.trans (b := redactedBy _ redactKvTmpLen _ (str "xab", 0))
    (c := (str "x***", 0)) (by decide)
  obtain ⟨hu, rfl⟩ := Prod.mk.inj hmsg'
  obtain rfl : u = ⟨str "x***", by decide⟩ := Subtype.ext hu
  generalize hk : m'.mallocs = k at hpairs
  cases hpairs with
  | cons hvalue hnil =>
    cases hnil
    cases hvalue with
    | other hne => exact absurd rfl (hne _)
    | @str _ w _ _ hstr =>
      have hstr' := hstr.symm.trans (c := (str "ab***", 2)) (by decide)
      obtain ⟨hw, rfl⟩ := Prod.mk.inj hstr'
      obtain rfl : w = ⟨str "ab***", by decide⟩ := Subtype.ext hw
      exact ⟨m', hrun, hk, hheap⟩

end Redact
end Clogx
