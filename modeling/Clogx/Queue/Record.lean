/-
# Records on their way through the queue

`log_record_clone` (`core/async.c`) copies the strings of a record into the
`inline_buf` of the producer's copy, or into one heap block if they do not fit.
`mpsc_queue_try_put` and `mpsc_queue_get_batch_try` (`core/queue.c`) then copy the
struct to the slot and from there to the batch of the consumer; a record whose
strings are inline has its pointers moved to the new `inline_buf`
(`log_record_rebase_inline`).

A pointer is an object and an offset.  The objects are the `inline_buf`s of the
three places of the record and the heap block; a difference of pointers into
different objects is `wild`.  The strings of the source are given by their texts,
as they are in the memory of the caller, `malloc` succeeds, and `file` and `func`
are constants of the program that are not copied.
-/

import Clogx.CLib.Pack
import Clogx.Trace.Spans

namespace Clogx
namespace Record

open CLib

/-! ### Records -/

/-- `type` and `val` of a `clog_kv_t`, with strings of the type `α`. -/
inductive KvVal (α : Type*)
  | int (i64 : ℤ)
  | uint (u64 : ℕ)
  | float (f64 : UInt64)
  | str (str : Option α)
  | bool (b : Bool)

/-- `clog_kv_t`. -/
structure Kv (α : Type*) where
  key : Option α
  val : KvVal α

/-- `log_record_t` without `inline_buf`; `kv` holds the first `kv_count` pairs. -/
structure LogRecord (α : Type*) where
  timestamp : ℕ
  file : Option CString
  func : Option CString
  module : Option α
  tag : Option α
  message : Option α
  level : ℕ
  tid : ℕ
  pid : ℕ
  line : ℤ
  traceId : Trace.TraceId
  spanId : Trace.SpanId
  kv : List (Kv α)
  isTombstone : Bool

section Functor

variable {α β γ : Type*}

def KvVal.map (f : α → β) : KvVal α → KvVal β
  | .int i64 => .int i64
  | .uint u64 => .uint u64
  | .float f64 => .float f64
  | .str s => .str (s.map f)
  | .bool b => .bool b

def Kv.map (f : α → β) (kv : Kv α) : Kv β := ⟨kv.key.map f, kv.val.map f⟩

/-- The record with other strings. -/
def LogRecord.map (f : α → β) (r : LogRecord α) : LogRecord β where
  timestamp := r.timestamp
  file := r.file
  func := r.func
  module := r.module.map f
  tag := r.tag.map f
  message := r.message.map f
  level := r.level
  tid := r.tid
  pid := r.pid
  line := r.line
  traceId := r.traceId
  spanId := r.spanId
  kv := r.kv.map (Kv.map f)
  isTombstone := r.isTombstone

def KvVal.strings : KvVal α → List α
  | .str s => s.toList
  | .int _ | .uint _ | .float _ | .bool _ => []

def Kv.strings (kv : Kv α) : List α := kv.key.toList ++ kv.val.strings

/-- The strings of a record, in the order in which they are packed. -/
def LogRecord.strings (r : LogRecord α) : List α :=
  r.message.toList ++ (r.module.toList ++ (r.tag.toList ++ r.kv.flatMap Kv.strings))

theorem KvVal.map_map (f : α → β) (g : β → γ) (v : KvVal α) : (v.map f).map g = v.map (g ∘ f) := by
  cases v <;> simp [map]

theorem Kv.map_map (f : α → β) (g : β → γ) (kv : Kv α) : (kv.map f).map g = kv.map (g ∘ f) := by
  simp [map, KvVal.map_map]

theorem LogRecord.map_map (f : α → β) (g : β → γ) (r : LogRecord α) :
    (r.map f).map g = r.map (g ∘ f) := by
  have hkv : Kv.map g ∘ Kv.map f = Kv.map (g ∘ f) := funext fun kv => kv.map_map f g
  simp [map, hkv]

theorem KvVal.strings_map (f : α → β) (v : KvVal α) : (v.map f).strings = v.strings.map f := by
  cases v with
  | str s => cases s <;> rfl
  | int _ | uint _ | float _ | bool _ => rfl

theorem Kv.strings_map (f : α → β) (kv : Kv α) : (kv.map f).strings = kv.strings.map f := by
  obtain ⟨key, val⟩ := kv
  cases key <;> simp [map, strings, KvVal.strings_map]

theorem LogRecord.strings_map (f : α → β) (r : LogRecord α) :
    (r.map f).strings = r.strings.map f := by
  have hopt (o : Option α) : (o.map f).toList = o.toList.map f := by cases o <;> rfl
  simp only [map, strings, hopt, List.map_append, List.flatMap_map, List.map_flatMap,
    Kv.strings_map]

theorem map_option_congr {f g : α → β} {o : Option α} (h : ∀ x ∈ o.toList, f x = g x) :
    o.map f = o.map g := Option.map_congr fun x hx => h x (Option.mem_toList.2 hx)

/-- A map depends on the strings of the pair. -/
theorem Kv.map_congr {f g : α → β} {kv : Kv α} (h : ∀ x ∈ kv.strings, f x = g x) :
    kv.map f = kv.map g := by
  obtain ⟨key, val⟩ := kv
  obtain ⟨hkey, hval⟩ := List.forall_mem_append.1 h
  have hvals : val.map f = val.map g := by
    cases val with
    | str s => exact congrArg KvVal.str (map_option_congr hval)
    | int _ | uint _ | float _ | bool _ => rfl
  rw [map, map, map_option_congr hkey, hvals]

/-- Functions that agree on the strings of a record give the same record. -/
theorem LogRecord.map_congr {f g : α → β} {r : LogRecord α} (h : ∀ x ∈ r.strings, f x = g x) :
    r.map f = r.map g := by
  simp only [strings, List.forall_mem_append] at h
  obtain ⟨hmessage, hmodule, htag, hkv⟩ := h
  have hkvs : r.kv.map (Kv.map f) = r.kv.map (Kv.map g) :=
    List.map_congr_left fun kv hmem =>
      Kv.map_congr fun x hx => hkv x (List.mem_flatMap.2 ⟨kv, hmem, hx⟩)
  simp only [map, map_option_congr hmessage, map_option_congr hmodule, map_option_congr htag, hkvs]

end Functor

/-! ### Pointers and the copies -/

/-- The records that hold a copy: the one of the producer, the slot of the queue, the one in the
batch of the consumer. -/
inductive Place
  | producer
  | slot
  | batch
deriving DecidableEq

/-- The objects that strings are copied to. -/
inductive Object
  | inlineBuf (p : Place)
  | heap
  | wild
deriving DecidableEq

/-- A pointer to a string. -/
structure Ptr where
  object : Object
  off : ℕ

/-- `CLOG_MAX_INLINE_SIZE`. -/
def maxInlineSize : ℕ := 256

/-- The contents of the objects. -/
structure Mem where
  inlineBuf : Place → Block
  heap : Block
  size : ∀ p, (inlineBuf p).length = maxInlineSize

namespace Mem

def block (m : Mem) : Object → Block
  | .inlineBuf p => m.inlineBuf p
  | .heap => m.heap
  | .wild => []

/-- The string at a pointer. -/
def read (m : Mem) (p : Ptr) : Option Text := strAt (m.block p.object) p.off

/-- Other bytes in an `inline_buf`. -/
def setInline (m : Mem) (p : Place) (b : Block) (h : b.length = maxInlineSize) : Mem where
  inlineBuf := Function.update m.inlineBuf p b
  heap := m.heap
  size q := by
    rw [Function.update_apply]
    split_ifs
    · exact h
    · exact m.size q

end Mem

/-- `total_bytes`. -/
def totalBytes (r : LogRecord CString) : ℕ := (r.strings.map fun s => s.val.length + 1).sum

/-- A string is copied if it is there. -/
def copyString {n : ℕ} (o : Object) : Option CString → StateT (Cursor n) Option (Option Ptr)
  | none => pure none
  | some s => do
    let off ← pack s
    pure (some ⟨o, off⟩)

def copyVal {n : ℕ} (o : Object) : KvVal CString → StateT (Cursor n) Option (KvVal Ptr)
  | .int i64 => pure (.int i64)
  | .uint u64 => pure (.uint u64)
  | .float f64 => pure (.float f64)
  | .str s => do
    let s ← copyString o s
    pure (.str s)
  | .bool b => pure (.bool b)

def copyKvs {n : ℕ} (o : Object) : List (Kv CString) → StateT (Cursor n) Option (List (Kv Ptr))
  | [] => pure []
  | kv :: kvs => do
    let key ← copyString o kv.key
    let val ← copyVal o kv.val
    let kvs ← copyKvs o kvs
    pure (⟨key, val⟩ :: kvs)

/-- The copies of the strings into the object `o`, and the record that points to them. -/
def copyStrings {n : ℕ} (o : Object) (src : LogRecord CString) :
    StateT (Cursor n) Option (LogRecord Ptr) := do
  let message ← copyString o src.message
  let module ← copyString o src.module
  let tag ← copyString o src.tag
  let kv ← copyKvs o src.kv
  pure
    { timestamp := src.timestamp, file := src.file, func := src.func, module, tag, message,
      level := src.level, tid := src.tid, pid := src.pid, line := src.line,
      traceId := src.traceId, spanId := src.spanId, kv, isTombstone := src.isTombstone }

/-- `log_record_clone` into the record of the producer; `malloc` gives a block with any contents.
A record without strings, for which the source returns early, has nothing to copy. -/
def logRecordClone (malloc : (n : ℕ) → {b : Block // b.length = n}) (m : Mem)
    (src : LogRecord CString) : Option (Mem × LogRecord Ptr) :=
  if totalBytes src ≤ maxInlineSize then
    (copyStrings (.inlineBuf .producer) src
      (⟨m.inlineBuf .producer, 0, m.size _⟩ : Cursor maxInlineSize)).map fun r =>
        (m.setInline .producer r.2.block r.2.size, r.1)
  else
    (copyStrings .heap src
      (⟨malloc (totalBytes src), 0, (malloc _).property⟩ : Cursor (totalBytes src))).map fun r =>
        ({ m with heap := r.2.block }, r.1)

/-- `log_record_is_inline`, for the record at a place. -/
def logRecordIsInline (p : Place) (r : LogRecord Ptr) : Prop :=
  ∃ q ∈ r.message, q.object = .inlineBuf p ∧ q.off < maxInlineSize

instance (p : Place) (r : LogRecord Ptr) : Decidable (logRecordIsInline p r) :=
  inferInstanceAs (Decidable (∃ q ∈ r.message, _))

/-- `dst->inline_buf + (ptr - src->inline_buf)`. -/
def Ptr.rebase (src dst : Place) (p : Ptr) : Ptr :=
  if p.object = .inlineBuf src then ⟨.inlineBuf dst, p.off⟩ else ⟨.wild, 0⟩

/-- `log_record_rebase_inline`. -/
def logRecordRebaseInline (src dst : Place) (r : LogRecord Ptr) : LogRecord Ptr :=
  r.map (Ptr.rebase src dst)

/-- The copy of the struct from one place to another, and the rebase. -/
def copyRecord (src dst : Place) (m : Mem) (r : LogRecord Ptr) : Mem × LogRecord Ptr :=
  (m.setInline dst (m.inlineBuf src) (m.size src),
    if logRecordIsInline src r then logRecordRebaseInline src dst r else r)

/-- The copy in `mpsc_queue_try_put`. -/
def tryPutCopy : Mem → LogRecord Ptr → Mem × LogRecord Ptr := copyRecord .producer .slot

/-- The copy in `mpsc_queue_get_batch_try`. -/
def getBatchCopy : Mem → LogRecord Ptr → Mem × LogRecord Ptr := copyRecord .slot .batch

/-- A record from the caller to the batch of the consumer. -/
def deliver (malloc : (n : ℕ) → {b : Block // b.length = n}) (m : Mem)
    (src : LogRecord CString) : Option (Mem × LogRecord Ptr) :=
  (logRecordClone malloc m src).map fun c =>
    let s := tryPutCopy c.1 c.2
    getBatchCopy s.1 s.2

/-! ### The clone -/

/-- The bytes that strings take. -/
def bytes (ss : List CString) : ℕ := (ss.map fun s => s.val.length + 1).sum

theorem bytes_append (ss ss' : List CString) : bytes (ss ++ ss') = bytes ss + bytes ss' := by
  rw [bytes, List.map_append, List.sum_append]
  rfl

/-- The pointer to a string at a place of an object. -/
def ptr (o : Object) (x : CString × ℕ) : Ptr := ⟨o, x.2⟩

section Copy

variable {n : ℕ} (o : Object) {xs : List (CString × ℕ)} {c : Cursor n}

/-- One string is packed behind the others. -/
theorem copyString_spec (h : Packed xs c) (s : Option CString)
    (hfits : c.pos + bytes s.toList ≤ n) :
    ∃ (t : Option (CString × ℕ)) (c' : Cursor n), copyString o s c = some (t.map (ptr o), c') ∧
      t.map Prod.fst = s ∧ Packed (xs ++ t.toList) c' ∧ c'.pos = c.pos + bytes s.toList := by
  cases s with
  | none => exact ⟨none, c, rfl, rfl, by rwa [Option.toList_none, List.append_nil], rfl⟩
  | some s =>
    have hbytes : bytes (some s).toList = s.val.length + 1 := by simp [bytes]
    rw [hbytes] at hfits ⊢
    obtain ⟨c', hc', hpacked, hpos⟩ := h.pack hfits
    refine ⟨some (s, c.pos), c', ?_, rfl, hpacked, hpos⟩
    simp only [copyString, bind, StateT.bind, hc', Option.bind_some]
    rfl

/-- A value, with its string if it has one. -/
theorem copyVal_spec (h : Packed xs c) (v : KvVal CString)
    (hfits : c.pos + bytes v.strings ≤ n) :
    ∃ (t : KvVal (CString × ℕ)) (c' : Cursor n), copyVal o v c = some (t.map (ptr o), c') ∧
      t.map Prod.fst = v ∧ Packed (xs ++ t.strings) c' ∧ c'.pos = c.pos + bytes v.strings := by
  cases v with
  | str s =>
    obtain ⟨t, c', hc', hmap, hpacked, hpos⟩ := copyString_spec o h s hfits
    refine ⟨.str t, c', ?_, congrArg KvVal.str hmap, hpacked, hpos⟩
    simp only [copyVal, bind, StateT.bind, hc', Option.bind_some]
    rfl
  | int i64 => exact ⟨.int i64, c, rfl, rfl, by rwa [KvVal.strings, List.append_nil], rfl⟩
  | uint u64 => exact ⟨.uint u64, c, rfl, rfl, by rwa [KvVal.strings, List.append_nil], rfl⟩
  | float f64 => exact ⟨.float f64, c, rfl, rfl, by rwa [KvVal.strings, List.append_nil], rfl⟩
  | bool b => exact ⟨.bool b, c, rfl, rfl, by rwa [KvVal.strings, List.append_nil], rfl⟩

/-- The pairs in turn. -/
theorem copyKvs_spec (kvs : List (Kv CString)) : ∀ {xs : List (CString × ℕ)} {c : Cursor n},
    Packed xs c → c.pos + bytes (kvs.flatMap Kv.strings) ≤ n →
      ∃ (ts : List (Kv (CString × ℕ))) (c' : Cursor n),
        copyKvs o kvs c = some (ts.map (Kv.map (ptr o)), c') ∧ ts.map (Kv.map Prod.fst) = kvs ∧
          Packed (xs ++ ts.flatMap Kv.strings) c' ∧
          c'.pos = c.pos + bytes (kvs.flatMap Kv.strings) := by
  induction kvs with
  | nil => exact fun h _ => ⟨[], _, rfl, rfl, by rwa [List.flatMap_nil, List.append_nil], rfl⟩
  | cons kv kvs ih =>
    intro xs c h hfits
    obtain ⟨key, val⟩ := kv
    rw [List.flatMap_cons, bytes_append, Kv.strings, bytes_append] at hfits ⊢
    dsimp only at hfits ⊢
    obtain ⟨k, c₁, hc₁, hk, hpacked₁, hpos₁⟩ := copyString_spec o h key (by omega)
    obtain ⟨v, c₂, hc₂, hv, hpacked₂, hpos₂⟩ := copyVal_spec o hpacked₁ val (by omega)
    obtain ⟨ts, c₃, hc₃, hts, hpacked₃, hpos₃⟩ := ih hpacked₂ (by omega)
    refine ⟨⟨k, v⟩ :: ts, c₃, ?_, ?_, ?_, by omega⟩
    · simp only [copyKvs, bind, StateT.bind, hc₁, hc₂, hc₃, Option.bind_some]
      rfl
    · rw [List.map_cons, hts, Kv.map, hk, hv]
    · rw [List.flatMap_cons, Kv.strings]
      simpa only [List.append_assoc] using hpacked₃

/-- **The copies of the strings of a record,** each with its place in the object. -/
theorem copyStrings_spec (b : Block) (hb : b.length = n) {src : LogRecord CString}
    (hfits : totalBytes src ≤ n) :
    ∃ (t : LogRecord (CString × ℕ)) (c : Cursor n),
      copyStrings o src (⟨b, 0, hb⟩ : Cursor n) = some (t.map (ptr o), c) ∧
        t.map Prod.fst = src ∧ Packed t.strings c := by
  have htotal : totalBytes src = bytes src.message.toList + (bytes src.module.toList +
      (bytes src.tag.toList + bytes (src.kv.flatMap Kv.strings))) := by
    rw [totalBytes, ← bytes, LogRecord.strings, bytes_append, bytes_append, bytes_append]
  have hstart := packed_start b hb
  set c₀ : Cursor n := ⟨b, 0, hb⟩
  have hzero : c₀.pos = 0 := rfl
  obtain ⟨message, c₁, hc₁, hmessage, hpacked₁, hpos₁⟩ := copyString_spec o hstart src.message
    (by omega)
  obtain ⟨module, c₂, hc₂, hmodule, hpacked₂, hpos₂⟩ := copyString_spec o hpacked₁ src.module
    (by omega)
  obtain ⟨tag, c₃, hc₃, htag, hpacked₃, hpos₃⟩ := copyString_spec o hpacked₂ src.tag (by omega)
  obtain ⟨kv, c₄, hc₄, hkv, hpacked₄, -⟩ := copyKvs_spec o src.kv hpacked₃ (by omega)
  refine ⟨⟨src.timestamp, src.file, src.func, module, tag, message, src.level, src.tid, src.pid,
    src.line, src.traceId, src.spanId, kv, src.isTombstone⟩, c₄, ?_, ?_, ?_⟩
  · simp only [copyStrings, bind, StateT.bind, hc₁, hc₂, hc₃, hc₄, Option.bind_some]
    rfl
  · rw [LogRecord.map, hmessage, hmodule, htag, hkv]
  · rw [LogRecord.strings]
    simpa only [List.append_assoc, List.nil_append] using hpacked₄

end Copy

/-! ### The whole way -/

/-- A record that holds the strings of `src` in the object `o`: read back it is the source, with
`NULL` where the source has it; every string stands in the object, inside its bounds, and no two
overlap. -/
structure Holds (o : Object) (m : Mem) (src : LogRecord CString) (r : LogRecord Ptr) : Prop where
  read : r.map m.read = src.map fun s => some s.val
  object : ∀ p ∈ r.strings, p.object = o
  inside : ∀ x ∈ r.strings.zip src.strings, x.1.off + x.2.val.length < (m.block o).length
  apart : (r.strings.zip src.strings).Pairwise fun x y => x.1.off + x.2.val.length < y.1.off

/-- What is packed can be read back. -/
theorem holds_of_packed {n : ℕ} {o : Object} {m : Mem} {t : LogRecord (CString × ℕ)}
    {c : Cursor n} (h : Packed t.strings c) (hblock : m.block o = c.block) :
    Holds o m (t.map Prod.fst) (t.map (ptr o)) := by
  have hzip : (t.map (ptr o)).strings.zip (t.map Prod.fst).strings =
      t.strings.map fun x => (ptr o x, x.1) := by
    rw [LogRecord.strings_map, LogRecord.strings_map, List.zip_map']
  refine ⟨?_, ?_, ?_, ?_⟩
  · rw [LogRecord.map_map, LogRecord.map_map]
    refine LogRecord.map_congr fun x hx => ?_
    rw [Function.comp_apply, Mem.read, ptr, hblock, (h.strAt x hx).1]
    rfl
  · intro p hp
    rw [LogRecord.strings_map] at hp
    obtain ⟨x, -, rfl⟩ := List.mem_map.1 hp
    rfl
  · rw [hzip, hblock, c.size]
    intro y hy
    obtain ⟨x, hx, rfl⟩ := List.mem_map.1 hy
    exact (h.strAt x hx).2
  · rw [hzip, List.pairwise_map]
    exact h.placed.pairwise

/-- An inline record is moved with its pointers. -/
theorem copyRecord_inline (a b : Place) (m : Mem) {t : LogRecord (CString × ℕ)}
    (hmessage : ∃ x ∈ t.message, x.2 < maxInlineSize) :
    copyRecord a b m (t.map (ptr (.inlineBuf a))) =
      (m.setInline b (m.inlineBuf a) (m.size a), t.map (ptr (.inlineBuf b))) := by
  obtain ⟨x, hx, hlt⟩ := hmessage
  have hinline : logRecordIsInline a (t.map (ptr (.inlineBuf a))) :=
    ⟨ptr _ x, Option.mem_map_of_mem _ hx, rfl, hlt⟩
  have hrebase : Ptr.rebase a b ∘ ptr (.inlineBuf a) = ptr (.inlineBuf b) :=
    funext fun y => if_pos rfl
  rw [copyRecord, if_pos hinline, logRecordRebaseInline, LogRecord.map_map, hrebase]

/-- A record on the heap keeps its pointers. -/
theorem copyRecord_heap (a b : Place) (m : Mem) (t : LogRecord (CString × ℕ)) :
    copyRecord a b m (t.map (ptr .heap)) =
      (m.setInline b (m.inlineBuf a) (m.size a), t.map (ptr .heap)) := by
  rw [copyRecord, if_neg]
  rintro ⟨q, hq, hobject, -⟩
  obtain ⟨x, -, rfl⟩ := Option.map_eq_some_iff.1 hq
  cases hobject

/-- **A record reaches the consumer with its strings,** in its own `inline_buf` if they fit there and
in the heap block otherwise, never in the copy of the producer or in the slot. -/
theorem deliver_holds (malloc : (n : ℕ) → {b : Block // b.length = n}) (m : Mem)
    {src : LogRecord CString} (hmessage : src.message ≠ none) :
    ∃ m' r, deliver malloc m src = some (m', r) ∧
      Holds (if totalBytes src ≤ maxInlineSize then .inlineBuf .batch else .heap) m' src r ∧
      (maxInlineSize < totalBytes src → m'.heap.length = totalBytes src) := by
  by_cases hsmall : totalBytes src ≤ maxInlineSize
  · rw [if_pos hsmall]
    obtain ⟨t, c, hcopy, rfl, hpacked⟩ :=
      copyStrings_spec (.inlineBuf .producer) (m.inlineBuf .producer) (m.size _) hsmall
    have hfirst : ∃ x ∈ t.message, x.2 < maxInlineSize := by
      obtain ⟨x, hx⟩ := Option.ne_none_iff_exists'.1 fun hnone : t.message = none =>
        hmessage (congrArg (Option.map Prod.fst) hnone)
      have hmem : x ∈ t.strings := List.mem_append_left _ (Option.mem_toList.2 hx)
      exact ⟨x, hx, (Nat.le_add_right ..).trans_lt (hpacked.strAt x hmem).2⟩
    have hdeliver : ∃ m', deliver malloc m (t.map Prod.fst) =
        some (m', t.map (ptr (.inlineBuf .batch))) ∧ m'.inlineBuf .batch = c.block := by
      rw [deliver, logRecordClone, if_pos hsmall, hcopy, Option.map_some, Option.map_some]
      dsimp only
      rw [tryPutCopy, copyRecord_inline _ _ _ hfirst]
      dsimp only
      rw [getBatchCopy, copyRecord_inline _ _ _ hfirst]
      exact ⟨_, rfl, by simp [Mem.setInline]⟩
    obtain ⟨m', hm', hblock⟩ := hdeliver
    exact ⟨m', _, hm', holds_of_packed hpacked hblock, fun hlt => absurd hsmall (not_le.2 hlt)⟩
  · rw [if_neg hsmall]
    obtain ⟨t, c, hcopy, hsrc, hpacked⟩ :=
      copyStrings_spec .heap (malloc (totalBytes src)).val (malloc _).property le_rfl
    have hdeliver : ∃ m', deliver malloc m src = some (m', t.map (ptr .heap)) ∧
        m'.heap = c.block := by
      rw [deliver, logRecordClone, if_neg hsmall, hcopy, Option.map_some, Option.map_some]
      dsimp only
      rw [tryPutCopy, copyRecord_heap]
      dsimp only
      rw [getBatchCopy, copyRecord_heap]
      exact ⟨_, rfl, rfl⟩
    obtain ⟨m', hm', hblock⟩ := hdeliver
    refine ⟨m', _, hm', ?_, fun _ => by rw [hblock, c.size]⟩
    rw [← hsrc]
    exact holds_of_packed hpacked hblock

/-- A record with the message `abc` and the pair `id=7`. -/
def abc : LogRecord CString where
  timestamp := 0
  file := none
  func := none
  module := none
  tag := none
  message := some ⟨str "abc", by decide +kernel⟩
  level := 2
  tid := 0
  pid := 0
  line := 0
  traceId := 0
  spanId := 0
  kv := [⟨some ⟨str "id", by decide +kernel⟩, .str (some ⟨str "7", by decide +kernel⟩)⟩]
  isTombstone := false

def zeroMem : Mem := ⟨fun _ => List.replicate maxInlineSize 0, [], fun _ => List.length_replicate⟩

/-- The message and the pair of `abc` fit the slot, and come out in the array of the batch. -/
theorem deliver_holds_abc : ∃ m' r,
    deliver (fun n => ⟨List.replicate n 0, List.length_replicate⟩) zeroMem abc = some (m', r) ∧
      Holds (.inlineBuf .batch) m' abc r := by
  obtain ⟨m', r, hdeliver, hholds, -⟩ :=
    deliver_holds (fun n => ⟨List.replicate n 0, List.length_replicate⟩) zeroMem
      (show abc.message ≠ none from Option.some_ne_none _)
  rw [if_pos (by decide +kernel)] at hholds
  exact ⟨m', r, hdeliver, hholds⟩

end Record
end Clogx
