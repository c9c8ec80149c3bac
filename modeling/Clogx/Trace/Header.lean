/-
# The header that carries a trace

`clog_span_export` writes the current context as a `traceparent` header of 55
characters, and `clog_span_join` reads such a header at fixed places.  Here is that
the two agree: what is exported on one thread can be joined on any other, and
ending the joined span gives back what that thread had before.
-/

import Clogx.Trace.Spans

namespace Clogx
namespace Trace

open CLib

/-! ### Hex digits -/

theorem parseHexNibble_hexd {n : ℕ} (h : n < 16) : parseHexNibble (hexd n) = some n := by
  interval_cases n <;> rfl

theorem hexd_ne_zero {n : ℕ} (h : n < 16) : hexd n ≠ 0 := by
  interval_cases n <;> decide

/-- Every character of an id in hex is a hex digit. -/
theorem zero_notMem_hexByte (b : UInt8) : 0 ∉ hexByte b := by
  have hb : b.toNat < 256 := b.toNat_lt
  intro hmem
  rcases List.mem_cons.1 hmem with heq | hmem
  · exact hexd_ne_zero (by omega) heq.symm
  · exact hexd_ne_zero (Nat.mod_lt _ (by norm_num)) (List.mem_singleton.1 hmem).symm

theorem zero_notMem_hexBytes {n : ℕ} (id : Fin n → UInt8) : 0 ∉ hexBytes id := by
  intro hmem
  obtain ⟨b, -, hb⟩ := List.mem_flatMap.1 hmem
  exact zero_notMem_hexByte b hb

theorem getD_append_length_add (u t : Text) (i : ℕ) :
    (u ++ t).getD (u.length + i) 0 = t.getD i 0 := by
  rw [List.getD_eq_getElem?_getD, List.getElem?_append_right (Nat.le_add_right _ _),
    Nat.add_sub_cancel_left, ← List.getD_eq_getElem?_getD]

theorem parseHexByte_append (u t : Text) (i : ℕ) :
    parseHexByte (u ++ t) (u.length + i) = parseHexByte t i := by
  simp only [parseHexByte, Nat.add_assoc, getD_append_length_add]

/-- **A byte in hex reads back.** -/
theorem parseHexByte_hexByte (b : UInt8) (t : Text) : parseHexByte (hexByte b ++ t) 0 = some b := by
  have hb : b.toNat < 256 := b.toNat_lt
  have hhi : parseHexNibble ((hexByte b ++ t).getD 0 0) = some (b.toNat / 16) :=
    parseHexNibble_hexd (by omega)
  have hlo : parseHexNibble ((hexByte b ++ t).getD 1 0) = some (b.toNat % 16) :=
    parseHexNibble_hexd (Nat.mod_lt _ (by norm_num))
  have hval : b.toNat / 16 * 16 + b.toNat % 16 = b.toNat := Nat.div_add_mod' _ _
  simp only [parseHexByte, hhi, hlo, Option.bind_eq_bind, Option.bind_some, hval]
  exact congrArg some (UInt8.ofNat_toNat)

/-- The bytes of a list in hex are read back each at its place. -/
theorem parseHexByte_flatMap (t : Text) : ∀ (l : List UInt8) (i : ℕ) (b : UInt8), l[i]? = some b →
    parseHexByte (l.flatMap hexByte ++ t) (2 * i) = some b
  | [], _, _, h => by cases h
  | a :: l, 0, b, h => by
      cases h
      rw [List.flatMap_cons, List.append_assoc]
      exact parseHexByte_hexByte a _
  | a :: l, i + 1, b, h => by
      have hplace : 2 * (i + 1) = (hexByte a).length + 2 * i := by
        show 2 * (i + 1) = 2 + 2 * i
        omega
      rw [List.flatMap_cons, List.append_assoc, hplace, parseHexByte_append]
      exact parseHexByte_flatMap t l i b h

theorem parseHexId_eq_some_iff {n : ℕ} {t : Text} {i : ℕ} {id : Fin n → UInt8} :
    parseHexId n t i = some id ↔ ∀ j : Fin n, parseHexByte t (i + 2 * j) = some (id j) := by
  rw [parseHexId]
  constructor
  · intro h j
    split_ifs at h with hall
    obtain ⟨b, hb⟩ := Option.isSome_iff_exists.1 (hall j)
    rw [← congrFun (Option.some.inj h) j, hb, Option.getD_some]
  · intro h
    rw [if_pos fun j => by rw [h j]; rfl]
    exact congrArg some (funext fun j => by rw [h j]; rfl)

/-- **An id in hex reads back,** wherever it stands. -/
theorem parseHexId_hexBytes {n : ℕ} (u : Text) (id : Fin n → UInt8) (t : Text) :
    parseHexId n (u ++ (hexBytes id ++ t)) u.length = some id := by
  refine parseHexId_eq_some_iff.2 fun j => ?_
  rw [parseHexByte_append]
  exact parseHexByte_flatMap t _ j (id j) (by rw [List.getElem?_ofFn, dif_pos j.isLt])

/-! ### The header -/

/-- The 55 characters that `clog_span_export` writes. -/
def traceparent (tid : TraceId) (sid : SpanId) (flags : UInt8) : Text :=
  (str "00-" ++ (hexBytes tid ++ str "-")) ++ (hexBytes sid ++ (str "-" ++ hexByte flags))

theorem length_hexBytes {n : ℕ} (id : Fin n → UInt8) : (hexBytes id).length = 2 * n := by
  have hsum : (List.ofFn id).map (fun b => (hexByte b).length) = List.replicate n 2 := by
    refine List.eq_replicate_iff.2 ⟨by simp, fun k hk => ?_⟩
    obtain ⟨b, -, rfl⟩ := List.mem_map.1 hk
    rfl
  rw [hexBytes, List.length_flatMap, hsum, List.sum_replicate, smul_eq_mul, mul_comm]

theorem length_head (tid : TraceId) : (str "00-" ++ (hexBytes tid ++ str "-")).length = 36 := by
  rw [List.length_append, List.length_append, length_hexBytes]
  rfl

@[simp] theorem length_traceparent (tid : TraceId) (sid : SpanId) (flags : UInt8) :
    (traceparent tid sid flags).length = 55 := by
  rw [traceparent, List.length_append, length_head, List.length_append, length_hexBytes]
  rfl

theorem zero_notMem_traceparent (tid : TraceId) (sid : SpanId) (flags : UInt8) :
    0 ∉ traceparent tid sid flags := by
  simp only [traceparent, List.mem_append, not_or]
  exact ⟨⟨by decide, zero_notMem_hexBytes tid, by decide⟩, zero_notMem_hexBytes sid, by decide,
    zero_notMem_hexByte flags⟩

/-- Two headers of one trace differ in the span id only. -/
theorem traceparent_getElem? {tid : TraceId} {sid sid' : SpanId} {flags : UInt8} {i : ℕ}
    (hi : i < 36 ∨ 52 ≤ i) : (traceparent tid sid flags)[i]? = (traceparent tid sid' flags)[i]? := by
  have hhead := length_head tid
  have hsid := length_hexBytes sid
  have hsid' := length_hexBytes sid'
  rw [traceparent, traceparent]
  generalize str "00-" ++ (hexBytes tid ++ str "-") = hd at hhead ⊢
  generalize str "-" ++ hexByte flags = tl
  rcases hi with hi | hi
  · rw [List.getElem?_append_left (by omega), List.getElem?_append_left (by omega)]
  · rw [List.getElem?_append_right (by omega), List.getElem?_append_right (by omega),
      List.getElem?_append_right (by omega), List.getElem?_append_right (by omega), hsid, hsid']

/-- **The header reads back:** its trace id and its flags. -/
theorem parseTraceparent_traceparent (tid : TraceId) (sid : SpanId) (flags : UInt8) :
    parseTraceparent (traceparent tid sid flags) = some (tid, flags) := by
  have hhead := length_head tid
  have hsid := length_hexBytes sid
  have htid : parseHexId 16 (traceparent tid sid flags) 3 = some tid := by
    rw [traceparent, List.append_assoc, List.append_assoc]
    exact parseHexId_hexBytes (str "00-") tid _
  have hspan : parseHexId 8 (traceparent tid sid flags) 36 = some sid := by
    rw [← hhead]
    exact parseHexId_hexBytes _ sid _
  have hflags : parseHexByte (traceparent tid sid flags) 53 = some flags := by
    rw [show 53 = (str "00-" ++ (hexBytes tid ++ str "-")).length + ((hexBytes sid).length + (1 + 0))
      from by omega, traceparent, parseHexByte_append, parseHexByte_append]
    exact (parseHexByte_append (str "-") _ 0).trans
      (List.append_nil (hexByte flags) ▸ parseHexByte_hexByte flags [])
  have hdash35 : (traceparent tid sid flags).getD 35 0 = 45 := by
    have hplace : 35 = (str "00-").length + ((hexBytes tid).length + 0) := by
      rw [length_hexBytes]
      rfl
    rw [hplace, traceparent, List.append_assoc, List.append_assoc, getD_append_length_add,
      getD_append_length_add]
    rfl
  have hdash52 : (traceparent tid sid flags).getD 52 0 = 45 := by
    rw [show 52 = (str "00-" ++ (hexBytes tid ++ str "-")).length + ((hexBytes sid).length + 0)
      from by omega, traceparent, getD_append_length_add, getD_append_length_add]
    rfl
  rw [parseTraceparent, if_neg (by
    simp only [length_traceparent, hdash35, hdash52, ne_eq, not_true_eq_false, or_false, not_or,
      not_not]
    exact ⟨by norm_num, rfl⟩), htid, hspan, hflags]
  rfl

/-! ### Export and join -/

/-- The flags of the top span. -/
def spanFlags (s : Thread) : UInt8 := if 0 < s.spanDepth then s.top.flags else 0

/-- **An export that succeeds has written the header** and its terminator. -/
theorem clogSpanExport_eq {s : Thread} {len : ℕ} (b : Text) (hlen : 56 ≤ len)
    (htid : (spanCurrentIds s).1 ≠ 0) :
    clogSpanExport s (some b) len =
      (true, some (traceparent (spanCurrentIds s).1 (spanCurrentIds s).2 (spanFlags s) ++
        0 :: b.drop 56)) := by
  have htext : str "00-" ++ hexBytes (spanCurrentIds s).1 ++ str "-" ++ hexBytes (spanCurrentIds s).2
      ++ str "-" ++ hexByte (if 0 < s.spanDepth then s.top.flags else 0) ++ [0] =
      traceparent (spanCurrentIds s).1 (spanCurrentIds s).2 (spanFlags s) ++ [0] := by
    simp only [traceparent, spanFlags, List.append_assoc]
  rw [clogSpanExport]
  dsimp only
  rw [if_neg (not_lt.2 hlen), if_neg htid, htext, List.length_append, length_traceparent,
    List.append_assoc]
  rfl

/-- Export succeeds for a buffer of 56 bytes and a trace id that is not zero, and then only. -/
theorem clogSpanExport_ok_iff {s : Thread} {buf : Option Text} {len : ℕ} :
    (clogSpanExport s buf len).1 = true ↔
      buf.isSome ∧ 56 ≤ len ∧ (spanCurrentIds s).1 ≠ 0 := by
  cases buf with
  | none => simp [clogSpanExport]
  | some b =>
    by_cases hlen : len < 56
    · rw [clogSpanExport, if_pos hlen]
      exact ⟨fun h => (by cases h), fun h => absurd h.2.1 (by omega)⟩
    · rw [clogSpanExport, if_neg hlen]
      dsimp only
      by_cases htid : (spanCurrentIds s).1 = 0
      · rw [if_pos htid]
        exact ⟨fun h => (by cases h), fun h => absurd htid h.2.2⟩
      · rw [if_neg htid]
        exact ⟨fun _ => ⟨rfl, by omega, htid⟩, fun _ => rfl⟩

theorem spanNewSpanId_ne_zero (random : SpanId) : spanNewSpanId random ≠ 0 := by
  rw [spanNewSpanId]
  split_ifs with h
  · intro hz
    have h7 := congrFun hz 7
    rw [Function.update_self] at h7
    cases h7
  · exact h

section Push

variable {s : Thread} (hlt : s.spanDepth < spanMaxDepth) (v : Slot)
include hlt

theorem spanCurrentIds_push : spanCurrentIds (s.push v).2 = (v.traceId, v.spanId) := by
  have hopen : 0 < (s.push v).2.spanDepth := Nat.succ_pos _
  rw [spanCurrentIds, if_pos hopen, top_push hlt]

theorem spanFlags_push : spanFlags (s.push v).2 = v.flags := by
  have hopen : 0 < (s.push v).2.spanDepth := Nat.succ_pos _
  rw [spanFlags, if_pos hopen, top_push hlt]

omit hlt in
/-- **Ending a span gives back the context below it.** -/
theorem clogSpanEnd_push : (clogSpanEnd (s.push v).2 (s.push v).1).1 = true ∧
    clogGetTraceContext (clogSpanEnd (s.push v).2 (s.push v).1).2 = clogGetTraceContext s ∧
    spanFlags (clogSpanEnd (s.push v).2 (s.push v).1).2 = spanFlags s := by
  have hend : clogSpanEnd (s.push v).2 (s.push v).1 =
      (true, { s with spanStack := (s.push v).2.setSlot s.spanDepth Slot.zero }) := by
    rw [clogSpanEnd, if_neg (by simp [Thread.push])]
    rfl
  have htop : 0 < s.spanDepth →
      Thread.top { s with spanStack := (s.push v).2.setSlot s.spanDepth Slot.zero } = s.top := by
    intro hd
    simp only [Thread.top, Thread.slot]
    split_ifs with h
    · simp only [Thread.setSlot, Thread.push, if_neg (show ¬ s.spanDepth - 1 = s.spanDepth by omega)]
    · rfl
  rw [hend]
  refine ⟨rfl, ?_, ?_⟩
  · simp only [clogGetTraceContext]
    split_ifs with hd <;> [rw [htop hd]; rfl; rfl]
  · simp only [spanFlags]
    split_ifs with hd
    · rw [htop hd]
    · rfl

end Push

theorem clogSpanJoin_traceparent {s : Thread} (hlt : s.spanDepth < spanMaxDepth) (tid : TraceId)
    (sid : SpanId) (flags : UInt8) (rs : SpanId) :
    clogSpanJoin s (some (traceparent tid sid flags)) rs =
      s.push ⟨tid, spanNewSpanId rs, flags⟩ := by
  rw [clogSpanJoin, Option.bind_some, parseTraceparent_traceparent]
  exact if_neg (by omega)

/-- **Export and join.**  What a thread exports is a header of 55 characters that can be joined on
every thread whose stack is not full.  The joined span then carries the trace id and the flags
that were exported and a span id that is not zero; exporting it again gives the same header but
for the 16 digits of the span id; and ending it gives back the context the thread had. -/
theorem export_join_round_trip {s : Thread} {buf : Option Text} {len : ℕ} {out : Option Text}
    (h : clogSpanExport s buf len = (true, out)) :
    ∃ t rest, out = some (t ++ 0 :: rest) ∧ t.length = 55 ∧ 0 ∉ t ∧
      ∀ (s' : Thread) (rs : SpanId), s'.spanDepth < spanMaxDepth →
        let joined := clogSpanJoin s' (some t) rs
        joined.1 ≠ 0 ∧
        (spanCurrentIds joined.2).1 = (spanCurrentIds s).1 ∧
        spanFlags joined.2 = spanFlags s ∧
        (spanCurrentIds joined.2).2 ≠ 0 ∧
        (∀ b len', 56 ≤ len' → ∃ t' rest',
          clogSpanExport joined.2 (some b) len' = (true, some (t' ++ 0 :: rest')) ∧
          t'.length = 55 ∧ ∀ i, i < 36 ∨ 52 ≤ i → t'[i]? = t[i]?) ∧
        (clogSpanEnd joined.2 joined.1).1 = true ∧
        clogGetTraceContext (clogSpanEnd joined.2 joined.1).2 = clogGetTraceContext s' ∧
        spanFlags (clogSpanEnd joined.2 joined.1).2 = spanFlags s' ∧
        (Inv s' → (clogSpanEnd joined.2 joined.1).2 = s') := by
  obtain ⟨hbuf, hlen, htid⟩ := clogSpanExport_ok_iff.1 (congrArg Prod.fst h)
  obtain ⟨b, rfl⟩ := Option.isSome_iff_exists.1 hbuf
  rw [clogSpanExport_eq b hlen htid] at h
  refine ⟨_, _, (congrArg Prod.snd h).symm, length_traceparent _ _ _,
    zero_notMem_traceparent _ _ _, fun s' rs hlt => ?_⟩
  rw [clogSpanJoin_traceparent hlt]
  intro joined
  have hids : spanCurrentIds joined.2 = ((spanCurrentIds s).1, spanNewSpanId rs) :=
    spanCurrentIds_push hlt _
  have hflags : spanFlags joined.2 = spanFlags s := spanFlags_push hlt _
  obtain ⟨hend, hcontext, hback⟩ := clogSpanEnd_push (s := s')
    ⟨(spanCurrentIds s).1, spanNewSpanId rs, spanFlags s⟩
  refine ⟨Nat.succ_ne_zero _, by rw [hids], hflags, ?_, fun b len' hlen' => ?_, hend, hcontext,
    hback, fun hinv => congrArg Prod.snd (hinv.spanEnd_push _)⟩
  · rw [hids]
    exact spanNewSpanId_ne_zero rs
  · refine ⟨_, _, clogSpanExport_eq b hlen' (by rw [hids]; exact htid), length_traceparent _ _ _,
      fun i hi => ?_⟩
    rw [hids, hflags]
    exact traceparent_getElem? hi

/-- A thread with a base context only. -/
def baseOnly : Thread := { threadTraceId := 7, threadSpanId := 0, hasThreadTraceContext := true }

/-- The trace id of the base context arrives in another thread. -/
theorem export_join_baseOnly : ∃ t rest,
    (clogSpanExport baseOnly (some (List.replicate 56 0)) 56).2 = some (t ++ 0 :: rest) ∧
    (spanCurrentIds (clogSpanJoin {} (some t) 0).2).1 = 7 := by
  have hexport : clogSpanExport baseOnly (some (List.replicate 56 0)) 56 =
      (true, (clogSpanExport baseOnly (some (List.replicate 56 0)) 56).2) :=
    Prod.ext (clogSpanExport_ok_iff.2 ⟨rfl, le_rfl, by decide⟩) rfl
  obtain ⟨t, rest, hout, -, -, hjoin⟩ := export_join_round_trip hexport
  exact ⟨t, rest, hout, (hjoin {} 0 (by decide)).2.1⟩

end Trace
end Clogx
