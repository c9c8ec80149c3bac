/-
# Redaction

The rule table and the three appliers of `core/log.c`: in place on the message
buffer of the printf path, into two stack buffers or the heap for the message of
a structured record, into the heap for its string values.

The appliers work on memory.  A pointer is the text given, one of the two stack
buffers, or a heap block; a read of a block that was freed, a write outside a
block and a loop that has used up its `fuel` are `none`.  What `malloc` answers
and what a new block holds is an argument.
-/

import Clogx.CLib.Buffer

namespace Clogx
namespace Redact

open CLib

/-- `CLOG_MAX_MESSAGE_SIZE`. -/
def maxMessageSize : ℕ := 4096

/-- `CLOG_MAX_REDACT_RULES`. -/
def maxRedactRules : ℕ := 16

/-- `CLOG_REDACT_MAX_PATTERN`. -/
def redactMaxPattern : ℕ := 128

/-- `CLOG_REDACT_MAX_MASK`. -/
def redactMaxMask : ℕ := 64

/-- `REDACT_KV_TMP_LEN`. -/
def redactKvTmpLen : ℕ := 512

/-! ### The rule table -/

/-- `clog_redact_rule_t`. -/
structure Rule where
  pattern : Text
  mask : Text
deriving DecidableEq

/-- `clog_redact_add`: whether it succeeds, and the rules afterwards. -/
def clogRedactAdd (rules : List Rule) (pattern mask : Option CString) : Bool × List Rule :=
  match pattern with
  | none => (false, rules)
  | some p =>
    if p.val = [] ∨ maxRedactRules ≤ rules.length then (false, rules)
    else
      let m := match mask with
        | none => str "***"
        | some m => if m.val = [] then str "***" else m.val
      (true, rules ++ [⟨cut redactMaxPattern p.val, cut redactMaxMask m⟩])

/-- A call on the table. -/
inductive TableCall
  | add (pattern mask : Option CString)
  | clear

def tableStep (rules : List Rule) : TableCall → List Rule
  | .add p m => (clogRedactAdd rules p m).2
  | .clear => []

/-- The table after some calls. -/
def table (cs : List TableCall) : List Rule := cs.foldl tableStep []

/-! ### The in-place applier -/

/-- The scan for one rule in `redact_apply_locked`, `i` being where `strstr` starts. -/
def redactHits (pat msk : Text) (bufSize : ℕ) : ℕ → Block → ℕ → Option Block
  | 0, _, _ => none
  | fuel + 1, buf, i => do
    match strstr pat (← strAt buf i) with
    | none => return buf
    | some k =>
      let head := i + k
      let tail := (← strAt buf (head + pat.length)).length
      if head + msk.length + tail < bufSize then
        let buf ← store buf (head + msk.length)
          ((buf.drop (head + pat.length)).take (tail + 1))
        let buf ← store buf head msk
        redactHits pat msk bufSize fuel buf (head + msk.length)
      else
        let avail := bufSize - head - 1
        let ncpy := if msk.length < avail then msk.length else avail
        let buf ← store buf head (msk.take ncpy)
        store buf (head + ncpy) [0]

/-- `redact_apply_locked`. -/
def redactApplyLocked (fuel : ℕ) (rules : List Rule) (buf : Block) (bufSize : ℕ) : Option Block :=
  rules.foldlM (fun buf r =>
    if r.pattern.length = 0 ∨ r.mask.length = 0 then some buf
    else redactHits r.pattern r.mask bufSize fuel buf 0) buf

/-! ### Memory -/

/-- The pointers the other two appliers use. -/
inductive Ptr
  | arg
  | tmp (alt : Bool)
  | heap (n : ℕ)
deriving DecidableEq

/-- The memory behind them.  `mallocs` counts the calls of `malloc`. -/
structure Mem where
  arg : Block
  tmp : Bool → Block
  heap : ℕ → Option Block
  mallocs : ℕ

/-- What the allocator does at its `n`-th call: whether it grants a block, and what is in it. -/
structure Allocator where
  grants : ℕ → Bool
  junk : ℕ → ℕ → UInt8

def Mem.read (m : Mem) : Ptr → Option Block
  | .arg => some m.arg
  | .tmp a => some (m.tmp a)
  | .heap n => m.heap n

def Mem.set (m : Mem) (p : Ptr) (b : Block) : Mem :=
  match p with
  | .arg => { m with arg := b }
  | .tmp a => { m with tmp := Function.update m.tmp a b }
  | .heap n => { m with heap := Function.update m.heap n (some b) }

/-- `memcpy` to place `i` of what `p` points to. -/
def Mem.write (m : Mem) (p : Ptr) (i : ℕ) (bs : List UInt8) : Option Mem := do
  let b ← m.read p
  let b ← store b i bs
  return m.set p b

def Mem.malloc (os : Allocator) (m : Mem) (size : ℕ) : Option Ptr × Mem :=
  if os.grants m.mallocs then
    (some (.heap m.mallocs),
      { m with
        heap := Function.update m.heap m.mallocs
          (some ((List.range size).map (os.junk m.mallocs)))
        mallocs := m.mallocs + 1 })
  else (none, { m with mallocs := m.mallocs + 1 })

/-- `free`: of `NULL` it does nothing, of what is not a live heap block it is undefined. -/
def Mem.free (m : Mem) : Option Ptr → Option Mem
  | none => some m
  | some (.heap n) => do
    let _ ← m.heap n
    return { m with heap := Function.update m.heap n none }
  | some _ => none

/-! ### The appliers that copy -/

/-- The loop of `redact_expand_len`. -/
def countHits (pat : Text) : ℕ → Block → ℕ → ℕ → Option ℕ
  | 0, _, _, _ => none
  | fuel + 1, src, cur, count => do
    match strstr pat (← strAt src cur) with
    | some k => countHits pat fuel src (cur + k + pat.length) (count + 1)
    | none => return count

/-- `redact_expand_len`: the length and the number of hits. -/
def redactExpandLen (fuel : ℕ) (src : Block) (pat : Text) (mskLen : ℕ) : Option (ℕ × ℕ) := do
  let count ← countHits pat fuel src 0 0
  let srcLen := (← strAt src 0).length
  if count = 0 then return (srcLen, count)
  else return ((srcLen - count * pat.length) + count * mskLen, count)

/-- `redact_expand_copy` from place `cur` of `src` to place `d` of `dst`. -/
def redactExpandCopy (pat msk : Text) (src dst : Ptr) : ℕ → Mem → ℕ → ℕ → Option Mem
  | 0, _, _, _ => none
  | fuel + 1, m, cur, d => do
    let text ← strAt (← m.read src) cur
    match strstr pat text with
    | some head =>
      let m ← m.write dst d (text.take head)
      let m ← m.write dst (d + head) msk
      redactExpandCopy pat msk src dst fuel m (cur + head + pat.length) (d + head + msk.length)
    | none => m.write dst d (text ++ [0])

/-- `redact_apply_one_buf`: the result and `*p_on_stack`, or `NULL`. -/
def redactApplyOneBuf (os : Allocator) (fuel : ℕ) (m : Mem) (src : Ptr) (pat msk : Text) (tmp : Ptr)
    (tmpSize : ℕ) : Option (Option (Ptr × Bool) × Mem) := do
  let (newLen, count) ← redactExpandLen fuel (← m.read src) pat msk.length
  if count = 0 then return (none, m)
  else if newLen + 1 ≤ tmpSize then
    let m ← redactExpandCopy pat msk src tmp fuel m 0 0
    return (some (tmp, true), m)
  else
    match m.malloc os (newLen + 1) with
    | (none, m) => return (none, m)
    | (some dst, m) =>
      let m ← redactExpandCopy pat msk src dst fuel m 0 0
      return (some (dst, false), m)

/-- The variables of `redact_apply_all_locked`. -/
structure PingPong where
  mem : Mem
  cur : Ptr := .arg
  owned : Option Ptr := none
  alt : Bool := false

/-- The superseded intermediate is freed: `if (owned != NULL && cur == owned)`. -/
def PingPong.release (st : PingPong) (mem : Mem) : Option (Mem × Option Ptr) :=
  if st.owned = some st.cur then (mem.free st.owned).map fun mem => (mem, none)
  else some (mem, st.owned)

/-- One rule in `redact_apply_all_locked`. -/
def PingPong.rule (os : Allocator) (fuel : ℕ) (st : PingPong) (r : Rule) : Option PingPong :=
  if r.pattern = [] ∨ r.mask = [] then some st
  else do
    let (rep, mem) ← redactApplyOneBuf os fuel st.mem st.cur r.pattern r.mask (.tmp st.alt)
      redactKvTmpLen
    match rep with
    | none => return { st with mem := mem }
    | some (rep, onStack) =>
      let (mem, owned) ← st.release mem
      if onStack then return { mem := mem, cur := rep, owned := owned, alt := !st.alt }
      else return { mem := mem, cur := rep, owned := some rep, alt := st.alt }

/-- `redact_apply_all_locked`: the final string, `*p_owned`, and the memory. -/
def redactApplyAllLocked (os : Allocator) (fuel : ℕ) (rules : List Rule) (m : Mem) :
    Option (Ptr × Option Ptr × Mem) := do
  let st ← rules.foldlM (PingPong.rule os fuel) { mem := m }
  return (st.cur, st.owned, st.mem)

/-- The variables of `redact_apply_all_heap_locked`. -/
structure HeapOnly where
  mem : Mem
  cur : Ptr := .arg
  owned : Option Ptr := none

/-- One rule in `redact_apply_all_heap_locked`. -/
def HeapOnly.rule (os : Allocator) (fuel : ℕ) (st : HeapOnly) (r : Rule) : Option HeapOnly :=
  if r.pattern = [] ∨ r.mask = [] then some st
  else do
    let (newLen, count) ← redactExpandLen fuel (← st.mem.read st.cur) r.pattern r.mask.length
    if count = 0 then return st
    else
      match st.mem.malloc os (newLen + 1) with
      | (none, mem) => return { st with mem := mem }
      | (some rep, mem) =>
        let mem ← redactExpandCopy r.pattern r.mask st.cur rep fuel mem 0 0
        let mem ← mem.free st.owned
        return { mem := mem, cur := rep, owned := some rep }

/-- `redact_apply_all_heap_locked`: the block, or `NULL`, and the memory. -/
def redactApplyAllHeapLocked (os : Allocator) (fuel : ℕ) (rules : List Rule) (m : Mem) :
    Option (Option Ptr × Mem) := do
  let st ← rules.foldlM (HeapOnly.rule os fuel) { mem := m }
  return (st.owned, st.mem)

/-! ### What they are for -/

/-- Rule by rule in the order of the table, every occurrence replaced. -/
def redacted (rules : List Rule) (t : Text) : Text :=
  rules.foldl (fun t r => replaceAll r.pattern r.mask t) t

/-- A rule as `clog_redact_add` stores it. -/
structure Rule.Ok (r : Rule) : Prop where
  pattern_ne : r.pattern ≠ []
  mask_ne : r.mask ≠ []
  mask_nul : 0 ∉ r.mask

theorem cut_ne_nil {size : ℕ} {t : Text} (hsize : 2 ≤ size) (ht : t ≠ []) : cut size t ≠ [] := by
  obtain ⟨n, rfl⟩ : ∃ n, size = n + 2 := ⟨size - 2, by omega⟩
  obtain ⟨c, t, rfl⟩ := List.exists_cons_of_ne_nil ht
  simp [cut]

theorem ok_clogRedactAdd {rules : List Rule} (h : ∀ r ∈ rules, r.Ok) (p m : Option CString) :
    ∀ r ∈ (clogRedactAdd rules p m).2, r.Ok := by
  cases p with
  | none => exact h
  | some p =>
    simp only [clogRedactAdd]
    split_ifs with hfail
    · exact h
    · intro r hr
      rcases List.mem_append.1 hr with hr | hr
      · exact h r hr
      · obtain rfl := List.mem_singleton.1 hr
        have hmask : ∀ m : Text, m ≠ [] → 0 ∉ m →
            Rule.Ok ⟨cut redactMaxPattern p.val, cut redactMaxMask m⟩ := fun m hm hnul =>
          ⟨cut_ne_nil (by decide) (not_or.1 hfail).1, cut_ne_nil (by decide) hm,
            fun hmem => hnul (List.mem_of_mem_take hmem)⟩
        cases m with
        | none => exact hmask _ (by decide) (by decide)
        | some m =>
          simp only
          split_ifs with hm
          · exact hmask _ (by decide) (by decide)
          · exact hmask _ hm m.property

/-- **The table holds only such rules.** -/
theorem ok_table (cs : List TableCall) : ∀ r ∈ table cs, r.Ok := by
  suffices h : ∀ rules : List Rule, (∀ r ∈ rules, r.Ok) → ∀ r ∈ cs.foldl tableStep rules, r.Ok from
    h [] nofun
  induction cs with
  | nil => exact fun rules h => h
  | cons c cs ih =>
    intro rules h
    refine ih _ ?_
    cases c with
    | add p m => exact ok_clogRedactAdd h p m
    | clear => exact nofun

end Redact
end Clogx
