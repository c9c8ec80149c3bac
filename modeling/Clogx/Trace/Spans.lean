/-
# The span stack of a thread

`clog_span_start`, `clog_span_join`, `clog_span_end`, `clog_span_export` and the
trace-context calls of `core/log.c`.

A thread has a stack of at most 16 spans and, below it, a base context that may
be set or not.  What a record carries is the top span, or the base context, or
zeros.  A token is the depth the span was opened at; `clog_span_end` takes only
the token of the top.  Random bytes are an argument of the calls that draw them.
-/

import Clogx.CLib.Text

namespace Clogx
namespace Trace

open CLib

/-- A trace id. -/
abbrev TraceId := Fin 16 → UInt8

/-- A span id. -/
abbrev SpanId := Fin 8 → UInt8

/-- `clog_span_slot_t`. -/
structure Slot where
  traceId : TraceId
  spanId : SpanId
  flags : UInt8
deriving DecidableEq

/-- A slot after `memset` to zero. -/
def Slot.zero : Slot := ⟨0, 0, 0⟩

/-- `CLOG_SPAN_MAX_DEPTH`. -/
def spanMaxDepth : ℕ := 16

/-- The thread-local variables. -/
structure Thread where
  threadTraceId : TraceId := 0
  threadSpanId : SpanId := 0
  hasThreadTraceContext : Bool := false
  spanStack : Fin spanMaxDepth → Slot := fun _ => Slot.zero
  spanDepth : ℕ := 0
deriving DecidableEq

/-- `g_span_stack[i]`. -/
def Thread.slot (s : Thread) (i : ℕ) : Slot :=
  if h : i < spanMaxDepth then s.spanStack ⟨i, h⟩ else Slot.zero

/-- The stack with `g_span_stack[i]` overwritten. -/
def Thread.setSlot (s : Thread) (i : ℕ) (v : Slot) : Fin spanMaxDepth → Slot :=
  fun j => if j.val = i then v else s.spanStack j

/-- The top slot. -/
def Thread.top (s : Thread) : Slot := s.slot (s.spanDepth - 1)

/-- `span_current_ids`. -/
def spanCurrentIds (s : Thread) : TraceId × SpanId :=
  if 0 < s.spanDepth then (s.top.traceId, s.top.spanId)
  else if s.hasThreadTraceContext then (s.threadTraceId, s.threadSpanId)
  else (0, 0)

/-- `span_new_span_id` from 8 random bytes. -/
def spanNewSpanId (random : SpanId) : SpanId :=
  if random = 0 then Function.update random 7 1 else random

/-- `clog_clear_trace_context`. -/
def clogClearTraceContext (_ : Thread) : Thread := {}

/-- `clog_set_trace_context`; a `NULL` id clears. -/
def clogSetTraceContext (s : Thread) : Option TraceId → Option SpanId → Thread
  | some t, some i => { s with threadTraceId := t, threadSpanId := i, hasThreadTraceContext := true }
  | _, _ => clogClearTraceContext s

/-- `clog_get_trace_context`. -/
def clogGetTraceContext (s : Thread) : TraceId × SpanId :=
  if 0 < s.spanDepth then (s.top.traceId, s.top.spanId)
  else (if s.hasThreadTraceContext then s.threadTraceId else 0,
    if s.hasThreadTraceContext then s.threadSpanId else 0)

/-- A new top span; the token is the new depth. -/
def Thread.push (s : Thread) (v : Slot) : ℕ × Thread :=
  (s.spanDepth + 1, { s with spanStack := s.setSlot s.spanDepth v, spanDepth := s.spanDepth + 1 })

/-- `clog_span_start` with the random bytes of a trace id and of a span id. -/
def clogSpanStart (s : Thread) (randomTrace : TraceId) (randomSpan : SpanId) : ℕ × Thread :=
  if spanMaxDepth ≤ s.spanDepth then (0, s)
  else
    let traceId :=
      if 0 < s.spanDepth then s.top.traceId
      else if s.hasThreadTraceContext then s.threadTraceId
      else if randomTrace = 0 then Function.update randomTrace 15 1 else randomTrace
    let flags := if 0 < s.spanDepth then s.top.flags else 0
    s.push ⟨traceId, spanNewSpanId randomSpan, flags⟩

/-- `clog_span_end`: whether it succeeds, and the thread afterwards. -/
def clogSpanEnd (s : Thread) (tok : ℕ) : Bool × Thread :=
  if tok = 0 ∨ tok ≠ s.spanDepth then (false, s)
  else
    (true, { s with
      spanStack := s.setSlot (s.spanDepth - 1) Slot.zero
      spanDepth := s.spanDepth - 1 })

/-- A hex digit. -/
def hexd (n : ℕ) : UInt8 := (if n < 10 then 48 + n else 87 + n).toUInt8

/-- A byte as two hex digits. -/
def hexByte (b : UInt8) : Text := [hexd (b.toNat / 16), hexd (b.toNat % 16)]

def hexBytes {n : ℕ} (id : Fin n → UInt8) : Text := (List.ofFn id).flatMap hexByte

/-- `clog_span_export` into a buffer that is said to have `len` bytes: whether it succeeds, and
the buffer afterwards. -/
def clogSpanExport (s : Thread) (buf : Option Text) (len : ℕ) : Bool × Option Text :=
  match buf with
  | none => (false, none)
  | some b =>
    if len < 56 then (false, some b)
    else
      let ids := spanCurrentIds s
      let flags := if 0 < s.spanDepth then s.top.flags else 0
      if ids.1 = 0 then (false, some b)
      else
        let text := str "00-" ++ hexBytes ids.1 ++ str "-" ++ hexBytes ids.2 ++ str "-" ++
          hexByte flags ++ [0]
        (true, some (text ++ b.drop text.length))

/-- `parse_hex_nibble`. -/
def parseHexNibble (c : UInt8) : Option ℕ :=
  if 48 ≤ c ∧ c ≤ 57 then some (c.toNat - 48)
  else if 97 ≤ c ∧ c ≤ 102 then some (c.toNat - 97 + 10)
  else if 65 ≤ c ∧ c ≤ 70 then some (c.toNat - 65 + 10)
  else none

/-- The byte written in hex at place `i` of a text. -/
def parseHexByte (t : Text) (i : ℕ) : Option UInt8 := do
  let hi ← parseHexNibble (t.getD i 0)
  let lo ← parseHexNibble (t.getD (i + 1) 0)
  return (hi * 16 + lo).toUInt8

/-- `n` bytes written in hex from place `i` on. -/
def parseHexId (n : ℕ) (t : Text) (i : ℕ) : Option (Fin n → UInt8) :=
  if ∀ j : Fin n, (parseHexByte t (i + 2 * j)).isSome then
    some fun j => (parseHexByte t (i + 2 * j)).getD 0
  else none

/-- The trace id and the flags of a `traceparent` text that is accepted. -/
def parseTraceparent (t : Text) : Option (TraceId × UInt8) :=
  if t.length < 55 ∨ t.getD 2 0 ≠ 45 ∨ t.getD 35 0 ≠ 45 ∨ t.getD 52 0 ≠ 45 then none
  else do
    let tid ← parseHexId 16 t 3
    let _ ← parseHexId 8 t 36
    let flags ← parseHexByte t 53
    return (tid, flags)

/-- `clog_span_join`. -/
def clogSpanJoin (s : Thread) (traceparent : Option Text) (randomSpan : SpanId) : ℕ × Thread :=
  match traceparent.bind parseTraceparent with
  | none => (0, s)
  | some (tid, flags) =>
    if spanMaxDepth ≤ s.spanDepth then (0, s)
    else s.push ⟨tid, spanNewSpanId randomSpan, flags⟩

/-- `clog_set_trace_context_hex`. -/
def clogSetTraceContextHex (s : Thread) (traceIdHex spanIdHex : Option Text) : Bool × Thread :=
  match traceIdHex, spanIdHex with
  | some t, some i =>
    if t.length = 0 ∧ i.length = 0 then (true, clogClearTraceContext s)
    else if t.length < 32 ∨ i.length < 16 then (false, s)
    else
      match parseHexId 16 t 0, parseHexId 8 i 0 with
      | some tid, some sid => (true, clogSetTraceContext s (some tid) (some sid))
      | _, _ => (false, s)
  | _, _ => (true, clogClearTraceContext s)

/-! ### Sequences of calls -/

/-- A call with its arguments. -/
inductive Call
  | spanStart (randomTrace : TraceId) (randomSpan : SpanId)
  | spanJoin (traceparent : Option Text) (randomSpan : SpanId)
  | spanEnd (tok : ℕ)
  | spanExport (buf : Option Text) (len : ℕ)
  | setTraceContext (traceId : Option TraceId) (spanId : Option SpanId)
  | setTraceContextHex (traceIdHex spanIdHex : Option Text)
  | getTraceContext
  | clearTraceContext

/-- What a call returns. -/
inductive Result
  | token (tok : ℕ)
  | errno (ok : Bool)
  | export (ok : Bool) (buf : Option Text)
  | ids (traceId : TraceId) (spanId : SpanId)
  | none

/-- The call reports a failure. -/
def Result.Failed : Result → Prop
  | .token tok => tok = 0
  | .errno ok => ok = false
  | .export ok _ => ok = false
  | _ => False

def Thread.call (s : Thread) : Call → Result × Thread
  | .spanStart rt rs => let (tok, s) := clogSpanStart s rt rs; (.token tok, s)
  | .spanJoin tp rs => let (tok, s) := clogSpanJoin s tp rs; (.token tok, s)
  | .spanEnd tok => let (ok, s) := clogSpanEnd s tok; (.errno ok, s)
  | .spanExport buf len => let (ok, buf) := clogSpanExport s buf len; (.export ok buf, s)
  | .setTraceContext t i => (.none, clogSetTraceContext s t i)
  | .setTraceContextHex t i => let (ok, s) := clogSetTraceContextHex s t i; (.errno ok, s)
  | .getTraceContext => let ids := clogGetTraceContext s; (.ids ids.1 ids.2, s)
  | .clearTraceContext => (.none, clogClearTraceContext s)

/-- The thread after some calls. -/
def Thread.calls (s : Thread) (cs : List Call) : Thread := cs.foldl (fun s c => (s.call c).2) s

/-- A span with what happens inside it: it is opened, the inner spans come and go, and it is ended
with the token that opening it returned. -/
inductive Span
  | start (randomTrace : TraceId) (randomSpan : SpanId) (inner : List Span)
  | join (traceparent : Option Text) (randomSpan : SpanId) (inner : List Span)

mutual

/-- The calls of a span, made on the thread `s`. -/
def Span.calls : Span → Thread → List Call
  | .start rt rs inner, s =>
    let opened := clogSpanStart s rt rs
    .spanStart rt rs :: (spansCalls inner opened.2 ++ [.spanEnd opened.1])
  | .join tp rs inner, s =>
    let opened := clogSpanJoin s tp rs
    .spanJoin tp rs :: (spansCalls inner opened.2 ++ [.spanEnd opened.1])
termination_by structural sp => sp

/-- The calls of spans one after the other. -/
def spansCalls : List Span → Thread → List Call
  | [], _ => []
  | sp :: sps, s => sp.calls s ++ spansCalls sps (s.calls (sp.calls s))
termination_by structural sps => sps

end

/-! ### The invariant -/

/-- **The stack is bounded and clear above its top.** -/
structure Inv (s : Thread) : Prop where
  bounded : s.spanDepth ≤ spanMaxDepth
  clear : ∀ i : Fin spanMaxDepth, s.spanDepth ≤ i.val → s.spanStack i = Slot.zero

theorem inv_empty : Inv {} := ⟨Nat.zero_le _, fun _ _ => rfl⟩

theorem Inv.push {s : Thread} (h : Inv s) (hlt : s.spanDepth < spanMaxDepth) (v : Slot) :
    Inv (s.push v).2 := by
  refine ⟨hlt, fun i hi => ?_⟩
  have hi : s.spanDepth + 1 ≤ i.val := hi
  show s.setSlot s.spanDepth v i = Slot.zero
  rw [Thread.setSlot, if_neg (by omega), h.clear i (by omega)]

/-- **Ending the span that was just opened gives back the thread as it was.** -/
theorem Inv.spanEnd_push {s : Thread} (h : Inv s) (v : Slot) :
    clogSpanEnd (s.push v).2 (s.push v).1 = (true, s) := by
  have hstack : (s.push v).2.setSlot s.spanDepth Slot.zero = s.spanStack := by
    funext j
    simp only [Thread.setSlot, Thread.push]
    split_ifs with hj
    · exact (h.clear j hj.ge).symm
    · rfl
  rw [clogSpanEnd, if_neg (by simp [Thread.push])]
  exact congrArg (Prod.mk true) (congrArg (fun st => { s with spanStack := st }) hstack)

/-- Opening a span fails and leaves the thread alone, or pushes a slot. -/
theorem clogSpanStart_cases (s : Thread) (rt : TraceId) (rs : SpanId) :
    clogSpanStart s rt rs = (0, s) ∨
      s.spanDepth < spanMaxDepth ∧ ∃ v, clogSpanStart s rt rs = s.push v ∧
        (0 < s.spanDepth → v.traceId = s.top.traceId ∧ v.flags = s.top.flags) ∧
        (s.spanDepth = 0 → v.flags = 0 ∧
          (s.hasThreadTraceContext = true → v.traceId = s.threadTraceId)) := by
  by_cases hfull : spanMaxDepth ≤ s.spanDepth
  · exact .inl (if_pos hfull)
  · refine .inr ⟨by omega, _, if_neg hfull, fun hd => ?_, fun hd => ?_⟩
    · simp [hd]
    · simp +contextual [hd]

theorem clogSpanJoin_cases (s : Thread) (tp : Option Text) (rs : SpanId) :
    clogSpanJoin s tp rs = (0, s) ∨
      s.spanDepth < spanMaxDepth ∧ ∃ v, clogSpanJoin s tp rs = s.push v := by
  rw [clogSpanJoin]
  split
  · exact .inl rfl
  · split_ifs with hfull
    · exact .inl rfl
    · exact .inr ⟨by omega, _, rfl⟩

theorem clogSpanEnd_zero (s : Thread) : clogSpanEnd s 0 = (false, s) := by
  rw [clogSpanEnd, if_pos (.inl rfl)]

theorem inv_spanEnd {s : Thread} (h : Inv s) (tok : ℕ) : Inv (clogSpanEnd s tok).2 := by
  rw [clogSpanEnd]
  split_ifs with htok
  · exact h
  · obtain ⟨h0, htop⟩ := not_or.1 htok
    refine ⟨(Nat.sub_le _ _).trans h.bounded, fun i hi => ?_⟩
    have hi : s.spanDepth - 1 ≤ i.val := hi
    show s.setSlot (s.spanDepth - 1) Slot.zero i = Slot.zero
    rw [Thread.setSlot]
    split_ifs with hj
    · rfl
    · exact h.clear i (by omega)

theorem inv_setTraceContext {s : Thread} (h : Inv s) (t : Option TraceId) (i : Option SpanId) :
    Inv (clogSetTraceContext s t i) := by
  cases t with
  | none => exact inv_empty
  | some t =>
    cases i with
    | none => exact inv_empty
    | some i => exact ⟨h.bounded, h.clear⟩

/-- The hex call fails and leaves the thread alone, or clears the context, or sets it. -/
theorem clogSetTraceContextHex_cases (s : Thread) (t i : Option Text) :
    clogSetTraceContextHex s t i = (false, s) ∨
      clogSetTraceContextHex s t i = (true, clogClearTraceContext s) ∨
      ∃ tid sid, clogSetTraceContextHex s t i =
        (true, clogSetTraceContext s (some tid) (some sid)) := by
  cases t with
  | none => exact .inr (.inl rfl)
  | some t =>
    cases i with
    | none => exact .inr (.inl rfl)
    | some i =>
      simp only [clogSetTraceContextHex]
      split_ifs
      · exact .inr (.inl rfl)
      · exact .inl rfl
      · split
        · exact .inr (.inr ⟨_, _, rfl⟩)
        · exact .inl rfl

/-- **Every call keeps the invariant.** -/
theorem inv_call {s : Thread} (h : Inv s) (c : Call) : Inv (s.call c).2 := by
  cases c with
  | spanStart rt rs =>
    show Inv (clogSpanStart s rt rs).2
    rcases clogSpanStart_cases s rt rs with heq | ⟨hlt, v, heq, -⟩ <;> rw [heq]
    · exact h
    · exact h.push hlt v
  | spanJoin tp rs =>
    show Inv (clogSpanJoin s tp rs).2
    rcases clogSpanJoin_cases s tp rs with heq | ⟨hlt, v, heq⟩ <;> rw [heq]
    · exact h
    · exact h.push hlt v
  | spanEnd tok => exact inv_spanEnd h tok
  | spanExport buf len => exact h
  | setTraceContext t i => exact inv_setTraceContext h t i
  | setTraceContextHex t i =>
    show Inv (clogSetTraceContextHex s t i).2
    rcases clogSetTraceContextHex_cases s t i with heq | heq | ⟨tid, sid, heq⟩ <;> rw [heq]
    · exact h
    · exact inv_empty
    · exact inv_setTraceContext h (some tid) (some sid)
  | getTraceContext => exact h
  | clearTraceContext => exact inv_empty

theorem inv_calls (cs : List Call) : ∀ {s : Thread}, Inv s → Inv (s.calls cs) := by
  induction cs with
  | nil => exact fun h => h
  | cons c cs ih => exact fun h => ih (inv_call h c)

/-- **A call that reports a failure has changed nothing.** -/
theorem call_of_failed {s : Thread} {c : Call} (h : (s.call c).1.Failed) :
    (s.call c).2 = s ∧ ∀ buf len, c = .spanExport buf len → (s.call c).1 = .export false buf := by
  cases c with
  | spanStart rt rs =>
    refine ⟨?_, nofun⟩
    have h : (clogSpanStart s rt rs).1 = 0 := h
    show (clogSpanStart s rt rs).2 = s
    rcases clogSpanStart_cases s rt rs with heq | ⟨-, v, heq, -⟩ <;> rw [heq] at h ⊢
    cases h
  | spanJoin tp rs =>
    refine ⟨?_, nofun⟩
    have h : (clogSpanJoin s tp rs).1 = 0 := h
    show (clogSpanJoin s tp rs).2 = s
    rcases clogSpanJoin_cases s tp rs with heq | ⟨-, v, heq⟩ <;> rw [heq] at h ⊢
    cases h
  | spanEnd tok =>
    refine ⟨?_, nofun⟩
    have h : (clogSpanEnd s tok).1 = false := h
    show (clogSpanEnd s tok).2 = s
    rw [clogSpanEnd] at h ⊢
    split_ifs at h ⊢
    rfl
  | spanExport buf len =>
    refine ⟨rfl, fun buf' len' heq => ?_⟩
    obtain ⟨rfl, rfl⟩ := Call.spanExport.inj heq
    have h : (clogSpanExport s buf len).1 = false := h
    show Result.export (clogSpanExport s buf len).1 (clogSpanExport s buf len).2 = _
    rw [h]
    cases buf with
    | none => rfl
    | some b =>
      simp only [clogSpanExport] at h ⊢
      split_ifs at h ⊢ <;> rfl
  | setTraceContext t i => exact h.elim
  | setTraceContextHex t i =>
    refine ⟨?_, nofun⟩
    have h : (clogSetTraceContextHex s t i).1 = false := h
    show (clogSetTraceContextHex s t i).2 = s
    rcases clogSetTraceContextHex_cases s t i with heq | heq | ⟨tid, sid, heq⟩ <;>
      rw [heq] at h ⊢
    · cases h
    · cases h
  | getTraceContext => exact h.elim
  | clearTraceContext => exact h.elim

theorem calls_append (s : Thread) (cs ds : List Call) : s.calls (cs ++ ds) = (s.calls cs).calls ds :=
  List.foldl_append

mutual

/-- **A span leaves the thread as it found it,** whatever is nested in it and whichever of the calls
fail. -/
theorem calls_span {s : Thread} (h : Inv s) : (sp : Span) → s.calls (sp.calls s) = s
  | .start rt rs inner => by
      show Thread.calls (clogSpanStart s rt rs).2 _ = s
      rcases clogSpanStart_cases s rt rs with heq | ⟨hlt, v, heq, -⟩
      · rw [heq, calls_append, calls_spans h inner]
        exact congrArg Prod.snd (clogSpanEnd_zero s)
      · rw [heq, calls_append, calls_spans (h.push hlt v) inner]
        exact congrArg Prod.snd (h.spanEnd_push v)
  | .join tp rs inner => by
      show Thread.calls (clogSpanJoin s tp rs).2 _ = s
      rcases clogSpanJoin_cases s tp rs with heq | ⟨hlt, v, heq⟩
      · rw [heq, calls_append, calls_spans h inner]
        exact congrArg Prod.snd (clogSpanEnd_zero s)
      · rw [heq, calls_append, calls_spans (h.push hlt v) inner]
        exact congrArg Prod.snd (h.spanEnd_push v)

theorem calls_spans {s : Thread} (h : Inv s) :
    (sps : List Span) → s.calls (spansCalls sps s) = s
  | [] => rfl
  | sp :: sps => by rw [spansCalls, calls_append, calls_span h sp, calls_spans h sps]

end

/-- The slot that was pushed is on top. -/
theorem top_push {s : Thread} (hlt : s.spanDepth < spanMaxDepth) (v : Slot) :
    (s.push v).2.top = v := by
  rw [Thread.top, Thread.slot, dif_pos (by simpa [Thread.push] using hlt)]
  simp [Thread.push, Thread.setSlot]

/-- **Span discipline.**  After any calls on a thread the depth is at most 16 and the slots above it
are zero; a call that fails changes nothing; a span with any spans nested in it gives back the
ids that were visible before; and a span that was started carries the trace id and the flags of
its parent. -/
theorem span_discipline (cs : List Call) :
    let s := Thread.calls {} cs
    (s.spanDepth ≤ spanMaxDepth ∧
      ∀ i : Fin spanMaxDepth, s.spanDepth ≤ i.val → s.spanStack i = Slot.zero) ∧
    (∀ c, (s.call c).1.Failed → (s.call c).2 = s ∧
      ∀ buf len, c = .spanExport buf len → (s.call c).1 = .export false buf) ∧
    (∀ sp : Span, s.calls (sp.calls s) = s ∧
      clogGetTraceContext (s.calls (sp.calls s)) = clogGetTraceContext s) ∧
    (∀ rt rs, (clogSpanStart s rt rs).1 ≠ 0 →
      (0 < s.spanDepth → (clogSpanStart s rt rs).2.top.traceId = s.top.traceId ∧
        (clogSpanStart s rt rs).2.top.flags = s.top.flags) ∧
      (s.spanDepth = 0 → (clogSpanStart s rt rs).2.top.flags = 0 ∧
        (s.hasThreadTraceContext = true →
          (clogSpanStart s rt rs).2.top.traceId = s.threadTraceId))) := by
  intro s
  have hinv : Inv s := inv_calls cs inv_empty
  refine ⟨⟨hinv.bounded, hinv.clear⟩, fun c => call_of_failed, fun sp => ?_, fun rt rs htok => ?_⟩
  · rw [calls_span hinv sp]
    exact ⟨rfl, rfl⟩
  · rcases clogSpanStart_cases s rt rs with heq | ⟨hlt, v, heq, hchild⟩
    · exact absurd (congrArg Prod.fst heq) htok
    · rw [heq, top_push hlt v]
      exact hchild

end Trace
end Clogx
