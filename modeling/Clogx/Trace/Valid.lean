/-
# Open spans and the all-zero id

A trace id or a span id of zeros says that there is none: `clog_span_export`
refuses it and the renderers leave it out.  `clog_span_start` draws an id that is
not zero where it draws one, but it takes the trace id of a base context as it
stands, and `clog_span_join` takes the one of the header as it stands.
-/

import Clogx.Machine.Run
import Clogx.Trace.Header

namespace Clogx
namespace Trace

open CLib

/-- **The open spans have ids:** each has a trace id and a span id that are not zero, and while one is
open the context can be exported and a record carries both ids. -/
structure SpansValid (s : Thread) : Prop where
  frames : ∀ i, i < s.spanDepth → (s.slot i).traceId ≠ 0 ∧ (s.slot i).spanId ≠ 0
  exported : 0 < s.spanDepth → ∀ b, (clogSpanExport s (some b) 56).1 = true
  carried : 0 < s.spanDepth → (spanCurrentIds s).1 ≠ 0 ∧ (spanCurrentIds s).2 ≠ 0

/-- The ids of the frames are what matters. -/
theorem spansValid_iff {s : Thread} :
    SpansValid s ↔ ∀ i, i < s.spanDepth → (s.slot i).traceId ≠ 0 ∧ (s.slot i).spanId ≠ 0 := by
  refine ⟨fun h => h.frames, fun h => ?_⟩
  have hcarried : 0 < s.spanDepth → (spanCurrentIds s).1 ≠ 0 ∧ (spanCurrentIds s).2 ≠ 0 := by
    intro hopen
    rw [spanCurrentIds, if_pos hopen]
    exact h (s.spanDepth - 1) (by omega)
  exact ⟨h, fun hopen b => clogSpanExport_ok_iff.2 ⟨rfl, le_rfl, (hcarried hopen).1⟩, hcarried⟩

/-- The call brings in no trace id of zeros: a span is not started on a base context whose trace id
is zero, and a header whose trace id is zero is not joined. -/
def BringsTrace (s : Thread) : Call → Prop
  | .spanStart _ _ =>
    s.spanDepth = 0 → s.hasThreadTraceContext = true → s.threadTraceId ≠ 0
  | .spanJoin tp _ =>
    s.spanDepth < spanMaxDepth → ∀ tid flags, tp.bind parseTraceparent = some (tid, flags) → tid ≠ 0
  | _ => True

/-! ### One call -/

theorem slot_push {s : Thread} (hlt : s.spanDepth < spanMaxDepth) (v : Slot) {i : ℕ}
    (hi : i < s.spanDepth + 1) : (s.push v).2.slot i = if i = s.spanDepth then v else s.slot i := by
  rw [Thread.slot, Thread.slot, dif_pos (by omega), dif_pos (by omega)]
  rfl

/-- A new span keeps the ids valid exactly if its own are. -/
theorem spansValid_push {s : Thread} (h : SpansValid s) (hlt : s.spanDepth < spanMaxDepth)
    (v : Slot) : SpansValid (s.push v).2 ↔ v.traceId ≠ 0 ∧ v.spanId ≠ 0 := by
  rw [spansValid_iff]
  constructor
  · intro hall
    have htop := hall s.spanDepth (Nat.lt_succ_self _)
    rwa [slot_push hlt v (Nat.lt_succ_self _), if_pos rfl] at htop
  · intro hv i hi
    rw [slot_push hlt v hi]
    split_ifs with heq
    · exact hv
    · exact h.frames i (by have hi : i < s.spanDepth + 1 := hi; omega)

theorem spansValid_spanStart {s : Thread} (h : SpansValid s) (rt : TraceId) (rs : SpanId) :
    SpansValid (clogSpanStart s rt rs).2 ↔ (s.spanDepth < spanMaxDepth → s.spanDepth = 0 →
      s.hasThreadTraceContext = true → s.threadTraceId ≠ 0) := by
  by_cases hfull : spanMaxDepth ≤ s.spanDepth
  · rw [clogSpanStart, if_pos hfull]
    exact ⟨fun _ hlt => absurd hlt (by omega), fun _ => h⟩
  · rw [clogSpanStart, if_neg hfull]
    dsimp only
    rw [spansValid_push h (by omega)]
    dsimp only
    constructor
    · intro hv _ hd hbase
      rw [if_neg (by omega), if_pos hbase] at hv
      exact hv.1
    · intro hbase
      refine ⟨?_, spanNewSpanId_ne_zero rs⟩
      split_ifs with hopen hctx hrt
      · exact (h.frames (s.spanDepth - 1) (by omega)).1
      · exact hbase (by omega) (by omega) hctx
      · intro hz
        have h15 := congrFun hz 15
        rw [Function.update_self] at h15
        cases h15
      · exact hrt

theorem spansValid_spanJoin {s : Thread} (h : SpansValid s) (tp : Option Text) (rs : SpanId) :
    SpansValid (clogSpanJoin s tp rs).2 ↔ (s.spanDepth < spanMaxDepth →
      ∀ tid flags, tp.bind parseTraceparent = some (tid, flags) → tid ≠ 0) := by
  rw [clogSpanJoin]
  split
  next heq => exact ⟨fun _ _ _ _ hsome => (by rw [heq] at hsome; cases hsome), fun _ => h⟩
  next tid flags heq =>
    split_ifs with hfull
    · exact ⟨fun _ hlt => absurd hlt (by omega), fun _ => h⟩
    · rw [spansValid_push h (by omega)]
      constructor
      · rintro ⟨htid, -⟩ - tid' flags' hsome
        rw [heq] at hsome
        cases hsome
        exact htid
      · intro hall
        exact ⟨hall (by omega) tid flags heq, spanNewSpanId_ne_zero rs⟩

theorem spansValid_spanEnd {s : Thread} (h : SpansValid s) (tok : ℕ) :
    SpansValid (clogSpanEnd s tok).2 := by
  rw [clogSpanEnd]
  split_ifs with htok
  · exact h
  · refine spansValid_iff.2 fun i hi => ?_
    have hi : i < s.spanDepth - 1 := hi
    have hslot : Thread.slot { s with
        spanStack := s.setSlot (s.spanDepth - 1) Slot.zero
        spanDepth := s.spanDepth - 1 } i = s.slot i := by
      simp only [Thread.slot, Thread.setSlot, if_neg hi.ne]
    rw [hslot]
    exact h.frames i (by omega)

theorem spansValid_setTraceContext {s : Thread} (h : SpansValid s) (t : Option TraceId)
    (i : Option SpanId) : SpansValid (clogSetTraceContext s t i) := by
  have hclear : SpansValid {} := spansValid_iff.2 fun i hi => absurd hi (Nat.not_lt_zero i)
  cases t with
  | none => exact hclear
  | some t =>
    cases i with
    | none => exact hclear
    | some i => exact spansValid_iff.2 h.frames

/-- **One call:** from valid spans, a call leads to valid spans exactly if it brings in no trace id of
zeros. -/
theorem spansValid_call {s : Thread} (h : SpansValid s) (c : Call) :
    SpansValid (s.call c).2 ↔ BringsTrace s c := by
  cases c with
  | spanStart rt rs =>
    refine (spansValid_spanStart h rt rs).trans ⟨fun hb hd => hb ?_ hd, fun hb _ => hb⟩
    rw [hd]
    decide
  | spanJoin tp rs => exact spansValid_spanJoin h tp rs
  | spanEnd tok => exact iff_of_true (spansValid_spanEnd h tok) trivial
  | spanExport buf len => exact iff_of_true h trivial
  | setTraceContext t i => exact iff_of_true (spansValid_setTraceContext h t i) trivial
  | setTraceContextHex t i =>
    refine iff_of_true ?_ trivial
    show SpansValid (clogSetTraceContextHex s t i).2
    rcases clogSetTraceContextHex_cases s t i with heq | heq | ⟨tid, sid, heq⟩ <;> rw [heq]
    · exact h
    · exact spansValid_setTraceContext h none none
    · exact spansValid_setTraceContext h (some tid) (some sid)
  | getTraceContext => exact iff_of_true h trivial
  | clearTraceContext => exact iff_of_true (spansValid_setTraceContext h none none) trivial

/-! ### Sequences of calls -/

theorem calls_concat (s : Thread) (cs : List Call) (c : Call) :
    s.calls (cs ++ [c]) = ((s.calls cs).call c).2 :=
  calls_append s cs [c]

/-- **Open spans have valid ids all along a sequence of calls exactly if none of the calls brings in a
trace id of zeros.** -/
theorem spans_valid_along_iff (cs : List Call) :
    (∀ ds, ds <+: cs → SpansValid (Thread.calls {} ds)) ↔
      ∀ ds c, ds ++ [c] <+: cs → BringsTrace (Thread.calls {} ds) c := by
  have hempty : SpansValid (Thread.calls {} []) :=
    spansValid_iff.2 fun i hi => absurd hi (Nat.not_lt_zero i)
  exact Machine.forall_prefix_iff (calls_concat {}) hempty (fun _ c h => spansValid_call h c) cs

/-- A span started on a base context of zeros has the trace id zero, and while it is open nothing
can be exported. -/
theorem zero_trace_on_base :
    let s := Thread.calls {} [.setTraceContext (some 0) (some 1), .spanStart 1 1]
    s.spanDepth = 1 ∧ (s.slot 0).traceId = 0 ∧ (spanCurrentIds s).1 = 0 ∧
      (clogSpanExport s (some (List.replicate 56 0)) 56).1 = false := by
  decide

end Trace
end Clogx
